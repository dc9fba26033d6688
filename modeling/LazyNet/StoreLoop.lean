import LazyNet.SessionService
import LazyNet.Lib.StepRuns

/-! The store loop: what the queued calls do to the sessions' own members, to the descriptors of
the process and to the channels that its poller watches. -/
namespace LazyNet.Sessions
open LazyNet.Tables LazyNet.StepRuns

/-- A `Channel*`. A pointer that is neither null nor to a channel made here is `wild`. -/
inductive ChannelPtr where
  | null
  | wild
  | to (channel : Nat)
  deriving DecidableEq, Repr

/-- A channel object, and the session whose `attatchToLoop` made it. -/
structure Channel where
  ses : Nat
  fd_ : Int
  deriving DecidableEq, Repr

/-- The constructor does not set `channel_`, so it is found as the memory was. -/
structure SessionMembers where
  fd_ : Int := 0
  channel_ : ChannelPtr
  outStreamVec_ : List Ip4Addr := []
  deriving DecidableEq, Repr

structure StoreLoop where
  sessions : Nat → SessionMembers
  /-- the open descriptors: which session's `bindAddr` opened it, if one did -/
  descriptors : OrdMap Int (Option Nat) := ∅
  /-- the channel objects that have not been deleted -/
  channels : OrdMap Nat Channel := ∅
  /-- how many channels have been made -/
  attached : Nat := 0

inductive Outcome where
  | noSocket (errno : Int)
  | notBound (errno : Int)
  | bound
  deriving DecidableEq, Repr

inductive StoreFault where
  /-- a method called on what is not a channel -/
  | badChannel
  deriving DecidableEq, Repr

namespace StoreLoop

def lowestFree (t : OrdMap Int (Option Nat)) : Int :=
  Int.ofNat (((List.range (t.size + 1)).find? fun n => Int.ofNat n ∉ t).getD t.size)

def setMembers (w : StoreLoop) (ses : Nat) (x : SessionMembers) : StoreLoop :=
  { w with sessions := Function.update w.sessions ses x }

/-- A descriptor whose bind fails is closed again, and `fd_` keeps its number. -/
def bindAddr (outcome : Outcome) (ses : Nat) (w : StoreLoop) : Int × StoreLoop :=
  match outcome with
  | .noSocket errno => (errno, w.setMembers ses { w.sessions ses with fd_ := -1 })
  | .notBound errno =>
    (errno, w.setMembers ses { w.sessions ses with fd_ := lowestFree w.descriptors })
  | .bound =>
    let fd := lowestFree w.descriptors
    (0, { w.setMembers ses { w.sessions ses with fd_ := fd } with
      descriptors := w.descriptors.insert fd (some ses) })

/-- The calls of the `Channel` constructor that fail on a closed descriptor are only logged. -/
def attatchToLoop (ses : Nat) (w : StoreLoop) : StoreLoop :=
  { w.setMembers ses { w.sessions ses with channel_ := .to w.attached } with
    channels := w.channels.insert w.attached { ses, fd_ := (w.sessions ses).fd_ }
    attached := w.attached + 1 }

/-- The read callback that a closing channel still runs finds `channel_` null and returns. -/
def closeUDP (ses : Nat) (w : StoreLoop) : Except StoreFault StoreLoop :=
  match (w.sessions ses).channel_ with
  | .null => .ok w
  | .wild => .error .badChannel
  | .to c =>
    match w.channels[c]? with
    | none => .error .badChannel
    | some channel =>
      .ok { w.setMembers ses { w.sessions ses with channel_ := .null } with
        channels := w.channels.erase c
        descriptors :=
          if 0 ≤ channel.fd_ then w.descriptors.erase channel.fd_ else w.descriptors }

def exec (os : Nat → Outcome) : StoreTask → StoreLoop → Except StoreFault StoreLoop
  | .bindAddr ses, w => .ok (w.bindAddr (os ses) ses).2
  | .attatchToLoop ses, w => .ok (w.attatchToLoop ses)
  | .closeUDP ses, w => w.closeUDP ses
  | .addOutStream ses addr, w => .ok (w.setMembers ses
      { w.sessions ses with outStreamVec_ := (w.sessions ses).outStreamVec_ ++ [addr] })
  | .removeOutStream ses addr, w => .ok (w.setMembers ses
      { w.sessions ses with outStreamVec_ := (w.sessions ses).outStreamVec_.erase addr })

/-- Before the first task: `zeroed` says in which sessions the memory of `channel_` happens to
hold null, and `others` are the descriptors that the rest of the process has open. -/
def start (zeroed : Nat → Bool) (others : List Int) : StoreLoop where
  sessions := fun n => { channel_ := if zeroed n then .null else .wild }
  descriptors := others.foldl (fun t fd => t.insert fd none) ∅

variable {w : StoreLoop} {ses : Nat} {x : SessionMembers}

@[simp] theorem setMembers_self : (w.setMembers ses x).sessions ses = x := by
  simp [setMembers]

theorem setMembers_of_ne {a : Nat} (h : a ≠ ses) :
    (w.setMembers ses x).sessions a = w.sessions a := by
  simp [setMembers, h]

@[simp] theorem setMembers_descriptors : (w.setMembers ses x).descriptors = w.descriptors := rfl

@[simp] theorem setMembers_channels : (w.setMembers ses x).channels = w.channels := rfl

@[simp] theorem setMembers_attached : (w.setMembers ses x).attached = w.attached := rfl

theorem lowestFree_nonneg (t : OrdMap Int (Option Nat)) : 0 ≤ lowestFree t :=
  Int.natCast_nonneg _

end StoreLoop

end LazyNet.Sessions
