import LazyNet.Lib.StepRuns
import LazyNet.Lib.Tables
import Mathlib.Data.Finset.Basic

/-! The channels of an event loop and the epoll poller that calls their handlers. A handler may
close channels whose events are still to be handled, free them, and make new ones in their place;
whatever it does is a step of its own between two rounds of `loop_once`. What `fatal` and `fatalif`
find is logged, and the program goes on. -/
namespace LazyNet.Poller
open LazyNet.Tables LazyNet.StepRuns

def kMaxEvents : Nat := 2000
def POLLERR : UInt32 := 8
def kReadEvent : UInt32 := 1
def kWriteEvent : UInt32 := 4

structure Channel where
  fd_ : Int
  events_ : UInt32
  id_ : Nat
  /-- whether a handler was set -/
  readcb_ : Bool := false
  writecb_ : Bool := false
  deriving DecidableEq, Repr

/-- A handler that is called: by the poller for an event, or by the `close` of the channel. -/
inductive Call where
  | read (id : Nat)
  | write (id : Nat)
  | closing (id : Nat)
  deriving DecidableEq, Repr

def Channel.answers (c : Channel) : Call → Bool
  | .read _ => c.readcb_
  | .write _ => c.writecb_
  | .closing _ => c.readcb_

structure PollerEpoll where
  liveChannels_ : Finset Nat := ∅
  /-- an entry for each event that was reported, with its channel or null -/
  activeEvs_ : List (Option Nat × UInt32) := []
  lastActive_ : Int := -1
  /-- the channels in memory, by their addresses -/
  channels : OrdMap Nat Channel := ∅
  /-- the counter in the constructor of a channel -/
  lastId : Nat := 0
  /-- what epoll knows: a channel and events under each descriptor -/
  interest : OrdMap Int (Nat × UInt32) := ∅
  calls : List Call := []

inductive Fault where
  /-- a call of a handler that was not set -/
  | badFunctionCall
  /-- a channel that was freed, or an entry that was not reported -/
  | dangling
  deriving DecidableEq, Repr

/-- The handler that an event of a channel is for. An error is left to the read handler. -/
def callFor (id : Nat) (events : UInt32) : Option Call :=
  if events &&& (kReadEvent ||| POLLERR) ≠ 0 then some (.read id)
  else if events &&& kWriteEvent ≠ 0 then some (.write id)
  else none

def setEvent (event : UInt32) (enable : Bool) (events : UInt32) : UInt32 :=
  if enable then events ||| event else events &&& ~~~event

/-- The loop of `removeChannel` over the first `n` entries, from the last one down. -/
def forget (ch : Nat) : Nat → List (Option Nat × UInt32) → List (Option Nat × UInt32)
  | 0, evs => evs
  | i + 1, evs =>
    match evs[i]? with
    | some (some ptr, events) =>
      if ptr = ch then evs.set i (none, events) else forget ch i evs
    | _ => forget ch i evs

namespace PollerEpoll

/-- Epoll takes a descriptor that is open and that it does not know yet. -/
def addChannel (opened : Bool) (ch : Nat) (c : Channel) (x : PollerEpoll) : PollerEpoll :=
  { x with
    interest := if opened ∧ c.fd_ ∉ x.interest then x.interest.insert c.fd_ (ch, c.events_)
      else x.interest
    liveChannels_ := insert ch x.liveChannels_ }

/-- A descriptor that epoll does not know is left out. -/
def updateChannel (ch : Nat) (c : Channel) (x : PollerEpoll) : PollerEpoll :=
  { x with
    interest := if c.fd_ ∈ x.interest then x.interest.insert c.fd_ (ch, c.events_)
      else x.interest }

def removeChannel (ch : Nat) (x : PollerEpoll) : PollerEpoll :=
  { x with
    liveChannels_ := x.liveChannels_.erase ch
    activeEvs_ := forget ch (x.lastActive_ + 1).toNat x.activeEvs_ }

/-- The address of a new channel is whatever memory is free. -/
def newChannel (ch : Nat) (fd : Int) (events : UInt32) (opened : Bool) (x : PollerEpoll) :
    PollerEpoll :=
  let c : Channel := { fd_ := fd, events_ := events, id_ := x.lastId + 1 }
  addChannel opened ch c { x with lastId := x.lastId + 1, channels := x.channels.insert ch c }

/-- What `onRead` and `onWrite` have in common. -/
def setHandler (f : Channel → Channel) (ch : Nat) (x : PollerEpoll) :
    Except Fault PollerEpoll :=
  match x.channels[ch]? with
  | none => .error .dangling
  | some c => .ok { x with channels := x.channels.insert ch (f c) }

def onRead : Nat → PollerEpoll → Except Fault PollerEpoll :=
  setHandler fun c => { c with readcb_ := true }

def onWrite : Nat → PollerEpoll → Except Fault PollerEpoll :=
  setHandler fun c => { c with writecb_ := true }

/-- What `enableRead`, `enableWrite` and `enableReadWrite` have in common. -/
def enable (f : UInt32 → UInt32) (ch : Nat) (x : PollerEpoll) : Except Fault PollerEpoll :=
  match x.channels[ch]? with
  | none => .error .dangling
  | some c =>
    let c := { c with events_ := f c.events_ }
    .ok (updateChannel ch c { x with channels := x.channels.insert ch c })

def enableRead (enabled : Bool) : Nat → PollerEpoll → Except Fault PollerEpoll :=
  enable (setEvent kReadEvent enabled)

def enableWrite (enabled : Bool) : Nat → PollerEpoll → Except Fault PollerEpoll :=
  enable (setEvent kWriteEvent enabled)

def enableReadWrite (readable writable : Bool) : Nat → PollerEpoll → Except Fault PollerEpoll :=
  enable fun events => setEvent kWriteEvent writable (setEvent kReadEvent readable events)

/-- A descriptor that is closed is not in epoll any more. The read handler is called at the end. -/
def close (ch : Nat) (x : PollerEpoll) : Except Fault PollerEpoll :=
  match x.channels[ch]? with
  | none => .error .dangling
  | some c =>
    if 0 ≤ c.fd_ then
      let x := x.removeChannel ch
      if c.answers (.closing c.id_) then
        .ok { x with
          interest := x.interest.erase c.fd_
          channels := x.channels.insert ch { c with fd_ := -1 }
          calls := x.calls ++ [.closing c.id_] }
      else .error .badFunctionCall
    else .ok x

def free (ch : Nat) (x : PollerEpoll) : PollerEpoll :=
  { x with channels := x.channels.erase ch }

def epoll_wait (ready : List (Int × UInt32)) (x : PollerEpoll) : PollerEpoll :=
  { x with
    activeEvs_ := ready.map fun p => (x.interest[p.1]?.map Prod.fst, p.2)
    lastActive_ := ready.length }

def handle (ch : Nat) (events : UInt32) (x : PollerEpoll) : Except Fault PollerEpoll :=
  match x.channels[ch]? with
  | none => .error .dangling
  | some c =>
    match callFor c.id_ events with
    | none => .ok x
    | some call =>
      if c.answers call then .ok { x with calls := x.calls ++ [call] }
      else .error .badFunctionCall

/-- One round of the loop in `loop_once`. -/
def round (x : PollerEpoll) : Except Fault PollerEpoll :=
  let x := { x with lastActive_ := x.lastActive_ - 1 }
  if 0 ≤ x.lastActive_ then
    match x.activeEvs_[x.lastActive_.toNat]? with
    | none => .error .dangling
    | some (none, _) => .ok x
    | some (some ch, events) => x.handle ch events
  else .ok x

end PollerEpoll

inductive Action where
  | newChannel (ch : Nat) (fd : Int) (events : UInt32) (opened : Bool)
  | onRead (ch : Nat)
  | onWrite (ch : Nat)
  | enableRead (enabled : Bool) (ch : Nat)
  | enableWrite (enabled : Bool) (ch : Nat)
  | enableReadWrite (readable writable : Bool) (ch : Nat)
  | close (ch : Nat)
  | free (ch : Nat)
  /-- `loop_once` up to its first round -/
  | wait (ready : List (Int × UInt32))
  /-- a signal came while it waited, or the wait failed -/
  | interrupted
  /-- the handler has returned -/
  | next
  deriving DecidableEq, Repr

def step : Action → PollerEpoll → Except Fault PollerEpoll
  | .newChannel ch fd events opened, x => .ok (x.newChannel ch fd events opened)
  | .onRead ch, x => PollerEpoll.onRead ch x
  | .onWrite ch, x => PollerEpoll.onWrite ch x
  | .enableRead enabled ch, x => PollerEpoll.enableRead enabled ch x
  | .enableWrite enabled ch, x => PollerEpoll.enableWrite enabled ch x
  | .enableReadWrite readable writable ch, x =>
    PollerEpoll.enableReadWrite readable writable ch x
  | .close ch, x => x.close ch
  | .free ch, x => .ok (x.free ch)
  | .wait ready, x => (x.epoll_wait ready).round
  | .interrupted, x => PollerEpoll.round { x with lastActive_ := -1 }
  | .next, x => x.round

/-- What the loop may rely on: memory that is in use is not given out again, callers hold on to
channels that are not freed yet, and epoll reports descriptors that it knows, each once. -/
def Allowed : Action → PollerEpoll → Prop
  | .newChannel ch fd _ opened, x => ch ∉ x.channels ∧ (opened = true → 0 ≤ fd)
  | .onRead ch, x => ch ∈ x.channels
  | .onWrite ch, x => ch ∈ x.channels
  | .enableRead _ ch, x => ch ∈ x.channels
  | .enableWrite _ ch, x => ch ∈ x.channels
  | .enableReadWrite _ _ ch, x => ch ∈ x.channels
  | .close ch, x => ch ∈ x.channels
  | .free ch, x => ∀ c ∈ x.channels[ch]?, c.fd_ < 0
  | .wait ready, x => x.lastActive_ < 0 ∧ (ready.map Prod.fst).Nodup ∧
    (∀ p ∈ ready, p.1 ∈ x.interest) ∧ ready.length ≤ kMaxEvents
  | .interrupted, x => x.lastActive_ < 0
  | .next, x => 0 ≤ x.lastActive_

instance : ∀ (action : Action) (x : PollerEpoll), Decidable (Allowed action x)
  | .newChannel _ _ _ _, _ => inferInstanceAs (Decidable (_ ∧ _))
  | .onRead ch, x => inferInstanceAs (Decidable (ch ∈ x.channels))
  | .onWrite ch, x => inferInstanceAs (Decidable (ch ∈ x.channels))
  | .enableRead _ ch, x => inferInstanceAs (Decidable (ch ∈ x.channels))
  | .enableWrite _ ch, x => inferInstanceAs (Decidable (ch ∈ x.channels))
  | .enableReadWrite _ _ ch, x => inferInstanceAs (Decidable (ch ∈ x.channels))
  | .close ch, x => inferInstanceAs (Decidable (ch ∈ x.channels))
  | .free ch, x => inferInstanceAs (Decidable (∀ c ∈ x.channels[ch]?, c.fd_ < 0))
  | .wait _, _ => inferInstanceAs (Decidable (_ ∧ _))
  | .interrupted, x => inferInstanceAs (Decidable (x.lastActive_ < 0))
  | .next, x => inferInstanceAs (Decidable (0 ≤ x.lastActive_))

def Active (x : PollerEpoll) (i ch : Nat) : Prop :=
  (i : Int) ≤ x.lastActive_ ∧ x.activeEvs_[i]?.map Prod.fst = some (some ch)

structure Sound (x : PollerEpoll) : Prop where
  watched : ∀ (fd : Int) (ch : Nat) (events : UInt32), x.interest[fd]? = some (ch, events) →
    ∃ c : Channel, x.channels[ch]? = some c ∧ 0 ≤ c.fd_ ∧ c.fd_ = fd ∧ c.events_ = events
  numbered : ∀ (ch : Nat) (c : Channel), x.channels[ch]? = some c → c.id_ ≤ x.lastId
  distinct : ∀ (ch ch' : Nat) (c c' : Channel), x.channels[ch]? = some c →
    x.channels[ch']? = some c' → c.id_ = c'.id_ → ch = ch'
  reported : x.lastActive_ ≤ x.activeEvs_.length
  active : ∀ i ch, Active x i ch → ∃ c : Channel, x.channels[ch]? = some c ∧ 0 ≤ c.fd_
  apart : ∀ i j ch, Active x i ch → Active x j ch → i = j

theorem sound_start : Sound {} := by
  refine ⟨fun fd ch events h => ?_, fun ch c h => ?_, fun ch ch' c c' h => ?_, ?_,
    fun i ch h => ?_, fun i j ch h => ?_⟩
  · simp at h
  · simp at h
  · simp at h
  · simp
  · simp [Active] at h
  · simp [Active] at h

def clear (ch : Nat) (e : Option Nat × UInt32) : Option Nat × UInt32 :=
  if e.1 = some ch then (none, e.2) else e

/-- The loop stops at the first entry that it finds, and there is no other. -/
theorem forget_get {ch n : Nat} {evs : List (Option Nat × UInt32)}
    (h : ∀ i j, i < n → j < n → evs[i]?.map Prod.fst = some (some ch) →
      evs[j]?.map Prod.fst = some (some ch) → i = j) (j : Nat) :
    (forget ch n evs)[j]? = if j < n then evs[j]?.map (clear ch) else evs[j]? := by
  induction n with
  | zero => rfl
  | succ n ih =>
    have hrest := ih fun i j hi hj => h i j (by omega) (by omega)
    have hskip : evs[n]?.map Prod.fst ≠ some (some ch) → (forget ch n evs)[j]? =
        if j < n + 1 then evs[j]?.map (clear ch) else evs[j]? := by
      intro hne
      rw [hrest]
      by_cases hj : j = n
      · subst hj
        rw [if_neg (by omega), if_pos (by omega)]
        cases he : evs[j]? with
        | none => rfl
        | some e =>
          have hother : e.1 ≠ some ch := by simpa [he] using hne
          simp [clear, hother]
      · simp [show j < n + 1 ↔ j < n by omega]
    rw [forget]
    split
    · rename_i ptr events he
      by_cases hptr : ptr = ch
      · rw [if_pos hptr, List.getElem?_set]
        by_cases hj : n = j
        · rw [← hj, if_pos rfl, if_pos (Nat.lt_succ_self n), he,
            if_pos (List.getElem?_eq_some_iff.mp he).1]
          simp [clear, hptr]
        · rw [if_neg hj]
          split_ifs with hlt
          · cases hej : evs[j]? with
            | none => rfl
            | some e =>
              have hother : e.1 ≠ some ch := by
                intro heq
                exact hj (h n j (by omega) hlt (by rw [he, ← hptr]; rfl) (by rw [hej, ← heq]; rfl))
              simp [clear, hother]
          · rfl
      · rw [if_neg hptr]
        exact hskip (by simpa [he] using hptr)
    · rename_i hnone
      refine hskip fun heq => ?_
      obtain ⟨e, he, hptr⟩ := Option.map_eq_some_iff.mp heq
      exact hnone ch e.2 (by rw [he, ← hptr])

@[simp] theorem forget_length (ch n : Nat) (evs : List (Option Nat × UInt32)) :
    (forget ch n evs).length = evs.length := by
  induction n with
  | zero => rfl
  | succ n ih =>
    rw [forget]
    split
    · split_ifs
      · simp
      · exact ih
    · exact ih

section Entries
variable {x : PollerEpoll} {ch : Nat}

theorem Sound.forget_entry (h : Sound x) (ch : Nat) {i : Nat} (hi : (i : Int) ≤ x.lastActive_) :
    (x.removeChannel ch).activeEvs_[i]? = x.activeEvs_[i]?.map (clear ch) := by
  have hone : ∀ i j, i < (x.lastActive_ + 1).toNat → j < (x.lastActive_ + 1).toNat →
      x.activeEvs_[i]?.map Prod.fst = some (some ch) →
      x.activeEvs_[j]?.map Prod.fst = some (some ch) → i = j := fun i j hi hj hei hej =>
    h.apart i j ch ⟨by omega, hei⟩ ⟨by omega, hej⟩
  rw [PollerEpoll.removeChannel, forget_get hone, if_pos (by omega)]

theorem clear_eq_some {ptr : Nat} {e : Option Nat × UInt32} :
    (clear ch e).1 = some ptr ↔ e.1 = some ptr ∧ ptr ≠ ch := by
  rw [clear]
  split_ifs with he
  · rw [he]
    constructor
    · intro hnone
      cases hnone
    · intro ⟨heq, hne⟩
      cases heq
      exact absurd rfl hne
  · refine ⟨fun heq => ⟨heq, fun hptr => ?_⟩, And.left⟩
    rw [hptr] at heq
    exact he heq

theorem Sound.active_removeChannel (h : Sound x) {i ptr : Nat} :
    Active (x.removeChannel ch) i ptr ↔ Active x i ptr ∧ ptr ≠ ch := by
  rw [Active, Active, and_assoc]
  refine and_congr_right fun hi => ?_
  rw [h.forget_entry ch hi]
  cases x.activeEvs_[i]? with
  | none => simp
  | some e => simpa using clear_eq_some

end Entries

section Steps
variable {x x' : PollerEpoll} {ch : Nat} {fd : Int} {events : UInt32} {opened : Bool}
  {f : UInt32 → UInt32}

theorem setHandler_ok {g : Channel → Channel} : PollerEpoll.setHandler g ch x = .ok x' ↔
    ∃ c : Channel, x.channels[ch]? = some c ∧
      x' = { x with channels := x.channels.insert ch (g c) } := by
  rw [PollerEpoll.setHandler]
  cases x.channels[ch]? with
  | none => simp
  | some c => simp [eq_comm]

theorem enable_ok : PollerEpoll.enable f ch x = .ok x' ↔
    ∃ c : Channel, x.channels[ch]? = some c ∧ x' = { x with
      channels := x.channels.insert ch { c with events_ := f c.events_ }
      interest := if c.fd_ ∈ x.interest then x.interest.insert c.fd_ (ch, f c.events_)
        else x.interest } := by
  rw [PollerEpoll.enable]
  cases x.channels[ch]? with
  | none => simp
  | some c => simp [PollerEpoll.updateChannel, eq_comm]

theorem close_ok : x.close ch = .ok x' ↔ ∃ c : Channel, x.channels[ch]? = some c ∧
    ((c.fd_ < 0 ∧ x' = x) ∨ (0 ≤ c.fd_ ∧ c.readcb_ = true ∧ x' = { x.removeChannel ch with
      interest := x.interest.erase c.fd_
      channels := x.channels.insert ch { c with fd_ := -1 }
      calls := x.calls ++ [.closing c.id_] })) := by
  rw [PollerEpoll.close]
  cases x.channels[ch]? with
  | none => simp
  | some c =>
    by_cases h : 0 ≤ c.fd_
    · by_cases hcb : c.readcb_ = true
      · simp only [if_true, Channel.answers, Option.some.injEq, exists_eq_left', h,
          Int.not_lt.mpr h, hcb, false_and, true_and, false_or]
        exact ⟨fun heq => (Except.ok.inj heq).symm, fun heq => heq ▸ rfl⟩
      · simp [h, Channel.answers, hcb]
    · simp only [if_false, Option.some.injEq, exists_eq_left', h, Int.not_le.mp h, false_and,
        true_and, or_false]
      exact ⟨fun heq => (Except.ok.inj heq).symm, fun heq => heq ▸ rfl⟩

theorem Sound.newChannel (hx : Sound x) (hnew : ch ∉ x.channels) (hfd : opened = true → 0 ≤ fd) :
    Sound (x.newChannel ch fd events opened) := by
  have hne : ∀ {a : Nat} {c : Channel}, x.channels[a]? = some c → ch ≠ a :=
    fun hc heq => hnew (mem_iff_get.mpr ⟨_, heq ▸ hc⟩)
  constructor
  · intro fd' a events' hin
    simp only [PollerEpoll.newChannel, PollerEpoll.addChannel] at hin ⊢
    split_ifs at hin with htaken
    · rw [get_insert] at hin
      split_ifs at hin with hf
      · cases hin
        exact ⟨_, by rw [get_insert, if_pos rfl], hfd htaken.1, hf, rfl⟩
      · obtain ⟨c, hc, hrest⟩ := hx.watched fd' a events' hin
        exact ⟨c, by rw [get_insert, if_neg (hne hc), hc], hrest⟩
    · obtain ⟨c, hc, hrest⟩ := hx.watched fd' a events' hin
      exact ⟨c, by rw [get_insert, if_neg (hne hc), hc], hrest⟩
  · intro a c hc
    simp only [PollerEpoll.newChannel, PollerEpoll.addChannel, get_insert] at hc ⊢
    split_ifs at hc
    · cases hc
      exact Nat.le_refl _
    · exact (hx.numbered a c hc).trans (Nat.le_succ _)
  · intro a b c d hc hd hid
    simp only [PollerEpoll.newChannel, PollerEpoll.addChannel, get_insert] at hc hd
    split_ifs at hc hd with ha hb hb
    · rw [← ha, ← hb]
    · cases hc
      have := hx.numbered b d hd
      simp only at hid
      omega
    · cases hd
      have := hx.numbered a c hc
      simp only at hid
      omega
    · exact hx.distinct a b c d hc hd hid
  · exact hx.reported
  · intro i a ha
    obtain ⟨c, hc, h0⟩ := hx.active i a ha
    exact ⟨c, (get_insert _ _ _ _).trans (by rw [if_neg (hne hc), hc]), h0⟩
  · exact fun i j a hi hj => hx.apart i j a hi hj

theorem Sound.owner (hx : Sound x) {a : Nat} {d : Channel} (hd : x.channels[a]? = some d)
    (hin : x.interest[fd]? = some (a, events)) : d.fd_ = fd := by
  obtain ⟨d', hd', -, hfd, -⟩ := hx.watched fd a events hin
  rw [hd] at hd'
  cases hd'
  exact hfd

theorem id_of_insert {c c' d : Channel} {a : Nat} (hc : x.channels[ch]? = some c)
    (hd : (x.channels.insert ch c')[a]? = some d) (hid : c'.id_ = c.id_) :
    ∃ d₀ : Channel, x.channels[a]? = some d₀ ∧ d.id_ = d₀.id_ := by
  rw [get_insert] at hd
  split_ifs at hd with ha
  · cases hd
    exact ⟨c, ha ▸ hc, hid⟩
  · exact ⟨d, hd, rfl⟩

theorem Sound.open_of_watched (hx : Sound x) (h : fd ∈ x.interest) : 0 ≤ fd := by
  obtain ⟨⟨a, events⟩, hq⟩ := mem_iff_get.mp h
  obtain ⟨c, -, h0, hfd, -⟩ := hx.watched fd a events hq
  omega

theorem Sound.written (hx : Sound x) {c : Channel} (c' : Channel) (hc : x.channels[ch]? = some c)
    (hfd : c'.fd_ = c.fd_) (hid : c'.id_ = c.id_) {interest : OrdMap Int (Nat × UInt32)}
    (hin : ∀ (fd : Int) (a : Nat) (events : UInt32), interest[fd]? = some (a, events) →
      ∃ d : Channel, (x.channels.insert ch c')[a]? = some d ∧ 0 ≤ d.fd_ ∧ d.fd_ = fd ∧
        d.events_ = events) :
    Sound { x with channels := x.channels.insert ch c', interest } := by
  refine ⟨hin, fun a d hd => ?_, fun a b d e hd he heq => ?_, hx.reported, fun i a ha => ?_,
    fun i j a hi hj => hx.apart i j a hi hj⟩
  · obtain ⟨d₀, hd₀, hid₀⟩ := id_of_insert hc hd hid
    exact hid₀ ▸ hx.numbered a d₀ hd₀
  · obtain ⟨d₀, hd₀, hid₀⟩ := id_of_insert hc hd hid
    obtain ⟨e₀, he₀, hie₀⟩ := id_of_insert hc he hid
    exact hx.distinct a b d₀ e₀ hd₀ he₀ (hid₀.symm.trans (heq.trans hie₀))
  · obtain ⟨d, hd, h0⟩ := hx.active i a ha
    simp only [get_insert]
    split_ifs with hca
    · rw [← hca, hc] at hd
      cases hd
      exact ⟨c', rfl, hfd ▸ h0⟩
    · exact ⟨d, hd, h0⟩

theorem Sound.setHandler (hx : Sound x) {g : Channel → Channel}
    (hg : ∀ c, (g c).fd_ = c.fd_ ∧ (g c).id_ = c.id_ ∧ (g c).events_ = c.events_)
    (h : PollerEpoll.setHandler g ch x = .ok x') : Sound x' := by
  obtain ⟨c, hc, rfl⟩ := setHandler_ok.mp h
  refine hx.written (g c) hc (hg c).1 (hg c).2.1 fun fd a events hin => ?_
  obtain ⟨d, hd, h0, hfd, hev⟩ := hx.watched fd a events hin
  rw [get_insert]
  split_ifs with ha
  · rw [← ha, hc] at hd
    cases hd
    exact ⟨g c, rfl, by rw [(hg c).1]; exact h0, by rw [(hg c).1, hfd], by rw [(hg c).2.2, hev]⟩
  · exact ⟨d, hd, h0, hfd, hev⟩

theorem Sound.enable (hx : Sound x) (h : PollerEpoll.enable f ch x = .ok x') : Sound x' := by
  obtain ⟨c, hc, rfl⟩ := enable_ok.mp h
  refine hx.written { c with events_ := f c.events_ } hc rfl rfl fun fd a events hin => ?_
  have hold : fd ≠ c.fd_ → x.interest[fd]? = some (a, events) →
      ∃ d : Channel, (x.channels.insert ch { c with events_ := f c.events_ })[a]? = some d ∧
        0 ≤ d.fd_ ∧ d.fd_ = fd ∧ d.events_ = events := by
    intro hne hin
    obtain ⟨d, hd, hrest⟩ := hx.watched fd a events hin
    have ha : ch ≠ a := by
      intro heq
      rw [← heq, hc] at hd
      cases hd
      exact hne hrest.2.1.symm
    exact ⟨d, by rw [get_insert, if_neg ha, hd], hrest⟩
  split_ifs at hin with hknown
  · rw [get_insert] at hin
    split_ifs at hin with hf
    · cases hin
      exact ⟨{ c with events_ := f c.events_ }, by rw [get_insert, if_pos rfl],
        hx.open_of_watched hknown, hf, rfl⟩
    · exact hold (Ne.symm hf) hin
  · refine hold (fun hf => hknown ?_) hin
    exact mem_iff_get.mpr ⟨_, hf ▸ hin⟩

theorem Sound.close (hx : Sound x) (h : x.close ch = .ok x') : Sound x' := by
  obtain ⟨c, hc, ⟨-, rfl⟩ | ⟨h0, -, rfl⟩⟩ := close_ok.mp h
  · exact hx
  constructor
  · intro fd' a events' hin
    rw [get_erase] at hin
    split_ifs at hin with hf
    obtain ⟨d, hd, hrest⟩ := hx.watched fd' a events' hin
    have ha : ch ≠ a := by
      intro heq
      rw [← heq, hc] at hd
      cases hd
      exact hf hrest.2.1
    exact ⟨d, by rw [get_insert, if_neg ha, hd], hrest⟩
  · intro a d hd
    obtain ⟨d₀, hd₀, hid⟩ := id_of_insert hc hd rfl
    exact hid ▸ hx.numbered a d₀ hd₀
  · intro a b d e hd he heq
    obtain ⟨d₀, hd₀, hid⟩ := id_of_insert hc hd rfl
    obtain ⟨e₀, he₀, hie⟩ := id_of_insert hc he rfl
    exact hx.distinct a b d₀ e₀ hd₀ he₀ (hid.symm.trans (heq.trans hie))
  · simpa [PollerEpoll.removeChannel] using hx.reported
  · intro i a ha
    obtain ⟨hact, hne⟩ := hx.active_removeChannel.mp ha
    obtain ⟨d, hd, hpos⟩ := hx.active i a hact
    exact ⟨d, by rw [get_insert, if_neg (Ne.symm hne), hd], hpos⟩
  · intro i j a hi hj
    exact hx.apart i j a (hx.active_removeChannel.mp hi).1 (hx.active_removeChannel.mp hj).1

theorem Sound.free (hx : Sound x) (hclosed : ∀ c ∈ x.channels[ch]?, c.fd_ < 0) :
    Sound (x.free ch) := by
  have hkeep : ∀ {a : Nat} {c : Channel}, x.channels[a]? = some c → 0 ≤ c.fd_ →
      (x.channels.erase ch)[a]? = some c := by
    intro a c hc h0
    rw [get_erase, if_neg, hc]
    intro ha
    have := hclosed c (ha ▸ hc)
    omega
  have hsub : ∀ {a : Nat} {c : Channel}, (x.channels.erase ch)[a]? = some c →
      x.channels[a]? = some c := by
    intro a c hc
    rw [get_erase] at hc
    split_ifs at hc
    exact hc
  refine ⟨fun fd a events hin => ?_, fun a c hc => hx.numbered a c (hsub hc),
    fun a b c d hc hd => hx.distinct a b c d (hsub hc) (hsub hd), hx.reported,
    fun i a ha => ?_, fun i j a hi hj => hx.apart i j a hi hj⟩
  · obtain ⟨c, hc, h0, hrest⟩ := hx.watched fd a events hin
    exact ⟨c, hkeep hc h0, h0, hrest⟩
  · obtain ⟨c, hc, h0⟩ := hx.active i a ha
    exact ⟨c, hkeep hc h0, h0⟩

theorem Sound.interrupted (hx : Sound x) : Sound { x with lastActive_ := -1 } := by
  refine ⟨hx.watched, hx.numbered, hx.distinct, by simp only; omega, ?_, ?_⟩
  · intro i a ha
    have := ha.1
    simp only at this
    omega
  · intro i j a hi
    have := hi.1
    simp only at this
    omega

theorem active_epoll_wait {ready : List (Int × UInt32)} {i a : Nat}
    (h : Active (x.epoll_wait ready) i a) :
    ∃ (fd : Int) (events events' : UInt32),
      ready[i]? = some (fd, events) ∧ x.interest[fd]? = some (a, events') := by
  obtain ⟨-, hi⟩ := h
  simp only [PollerEpoll.epoll_wait, List.getElem?_map, Option.map_map, Option.map_eq_some_iff,
    Function.comp_apply] at hi
  obtain ⟨⟨fd, events⟩, hready, ⟨ptr, events'⟩, hq, rfl⟩ := hi
  exact ⟨fd, events, events', hready, hq⟩

theorem Sound.epoll_wait (hx : Sound x) {ready : List (Int × UInt32)}
    (hnd : (ready.map Prod.fst).Nodup) : Sound (x.epoll_wait ready) := by
  refine ⟨hx.watched, hx.numbered, hx.distinct, ?_, ?_, ?_⟩
  · simp [PollerEpoll.epoll_wait]
  · intro i a ha
    obtain ⟨fd, events, events', -, hq⟩ := active_epoll_wait ha
    obtain ⟨c, hc, h0, -, -⟩ := hx.watched fd a events' hq
    exact ⟨c, hc, h0⟩
  · intro i j a hi hj
    obtain ⟨fd, events, ev, hri, hqi⟩ := active_epoll_wait hi
    obtain ⟨fd', events', ev', hrj, hqj⟩ := active_epoll_wait hj
    obtain ⟨c, hc, -, hfd, -⟩ := hx.watched fd a ev hqi
    have hfd' := hx.owner hc hqj
    have hsame : (ready.map Prod.fst)[i]? = (ready.map Prod.fst)[j]? := by
      rw [List.getElem?_map, List.getElem?_map, hri, hrj, Option.map_some, Option.map_some, ← hfd,
        ← hfd']
    have hlt : i < (ready.map Prod.fst).length := by
      rw [List.length_map]
      exact (List.getElem?_eq_some_iff.mp hri).1
    exact (List.getElem?_inj hlt hnd).mp hsame

theorem handle_ok : x.handle ch events = .ok x' ↔ ∃ c : Channel, x.channels[ch]? = some c ∧
    (∀ call ∈ callFor c.id_ events, c.answers call = true) ∧
      x' = { x with calls := x.calls ++ (callFor c.id_ events).toList } := by
  rw [PollerEpoll.handle]
  cases x.channels[ch]? with
  | none => simp
  | some c =>
    simp only [Option.some.injEq, exists_eq_left']
    cases hcall : callFor c.id_ events with
    | none =>
      simp only [Option.not_mem_none, Option.toList_none, List.append_nil]
      exact ⟨fun heq => ⟨by simp, (Except.ok.inj heq).symm⟩, fun heq => heq.2 ▸ rfl⟩
    | some call =>
      by_cases hcb : c.answers call = true
      · simp only [if_pos hcb, Option.mem_def, Option.some.injEq, Option.toList_some]
        exact ⟨fun heq => ⟨fun a ha => ha ▸ hcb, (Except.ok.inj heq).symm⟩, fun heq => heq.2 ▸ rfl⟩
      · simp [hcb]

/-- What a round does: it ends the loop, passes over an entry without a channel, or calls the
handler that the event is for, if there is one. -/
theorem round_ok (h : x.round = .ok x') :
    ∃ calls, x' = { x with lastActive_ := x.lastActive_ - 1, calls := x.calls ++ calls } ∧
      ((x.lastActive_ ≤ 0 ∧ calls = []) ∨
        (0 < x.lastActive_ ∧
          ((∃ events, x.activeEvs_[(x.lastActive_ - 1).toNat]? = some (none, events) ∧
              calls = []) ∨
            ∃ (ch : Nat) (events : UInt32) (c : Channel),
              x.activeEvs_[(x.lastActive_ - 1).toNat]? = some (some ch, events) ∧
                x.channels[ch]? = some c ∧ calls = (callFor c.id_ events).toList))) := by
  rw [PollerEpoll.round] at h
  by_cases h0 : 0 ≤ x.lastActive_ - 1
  · simp only [if_pos h0] at h
    cases he : x.activeEvs_[(x.lastActive_ - 1).toNat]? with
    | none =>
      rw [he] at h
      cases h
    | some e =>
      obtain ⟨ptr, events⟩ := e
      rw [he] at h
      cases ptr with
      | none =>
        cases h
        exact ⟨[], by simp, .inr ⟨by omega, .inl ⟨events, rfl, rfl⟩⟩⟩
      | some ch =>
        obtain ⟨c, hc, -, rfl⟩ := handle_ok.mp h
        exact ⟨_, rfl, .inr ⟨by omega, .inr ⟨ch, events, c, rfl, hc, rfl⟩⟩⟩
  · simp only [if_neg h0] at h
    cases h
    exact ⟨[], by simp, .inl ⟨by omega, rfl⟩⟩

theorem Sound.round (hx : Sound x) (h : x.round = .ok x') : Sound x' := by
  obtain ⟨calls, rfl, -⟩ := round_ok h
  have hold : ∀ {i a : Nat}, Active { x with
      lastActive_ := x.lastActive_ - 1, calls := x.calls ++ calls } i a → Active x i a :=
    fun ha => ⟨ha.1.trans (Int.sub_le_self _ (by decide)), ha.2⟩
  refine ⟨hx.watched, hx.numbered, hx.distinct, ?_, fun i a ha => hx.active i a (hold ha),
    fun i j a hi hj => hx.apart i j a (hold hi) (hold hj)⟩
  have := hx.reported
  simp only
  omega

theorem sound_step (action : Action) (x x' : PollerEpoll) (hx : Sound x) (ha : Allowed action x)
    (h : step action x = .ok x') : Sound x' := by
  cases action with
  | newChannel ch fd events opened =>
    cases h
    exact hx.newChannel ha.1 ha.2
  | onRead ch =>
    exact hx.setHandler (g := fun c => { c with readcb_ := true }) (fun c => ⟨rfl, rfl, rfl⟩) h
  | onWrite ch =>
    exact hx.setHandler (g := fun c => { c with writecb_ := true }) (fun c => ⟨rfl, rfl, rfl⟩) h
  | enableRead enabled ch => exact hx.enable h
  | enableWrite enabled ch => exact hx.enable h
  | enableReadWrite readable writable ch =>
    exact hx.enable (f := fun events =>
      setEvent kWriteEvent writable (setEvent kReadEvent readable events)) h
  | close ch => exact hx.close h
  | free ch =>
    cases h
    exact hx.free ha
  | wait ready => exact (hx.epoll_wait ha.2.1).round h
  | interrupted => exact hx.interrupted.round h
  | next => exact hx.round h

end Steps

end LazyNet.Poller
