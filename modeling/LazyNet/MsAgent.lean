import LazyNet.DecodeBounds
import LazyNet.Lib.StepRuns

/-! The connection to the MS over its whole life. One `TcpConn` is connected again after every
drop, with the buffers that it had; what the checks send goes through its output buffer at any
time. -/
namespace LazyNet.MsAgent
open LazyNet.Words LazyNet.Tables LazyNet.HandyBuffer LazyNet.ExternalMsgCodec
open LazyNet.CodecRoundTrip LazyNet.DSServer LazyNet.StepRuns
variable {Message : Type}

inductive State where
  | Invalid | Handshaking | Connected | Closed | Failed
  deriving DecidableEq, Repr

structure Channel where
  writeEnabled : Bool
  deriving DecidableEq, Repr

/-- One connection, for the statements about it: the frames that were queued since it was
established, and the bytes that were written on its socket. -/
structure Traffic where
  frames : List (List UInt8) := []
  written : List UInt8 := []
  deriving DecidableEq, Repr

/-- `msAgent_`, and whether the manager has it as its `msConn_`. -/
structure Agent (Message : Type) where
  state_ : State := .Invalid
  channel_ : Option Channel := none
  link : Link Message
  output_ : Buffer := {}
  msConn_ : Bool := false
  current : Traffic := {}
  past : List Traffic := []

inductive Fault where
  | dispatch (fault : DSServer.Fault)
  /-- a frame to be sent before there was any connection -/
  | nullConn
  deriving DecidableEq, Repr

namespace Agent

def encode (pb : Protobuf Message) (call : EncodeCall Message) (x : Agent Message) :
    Agent Message :=
  let rb := call.run pb (x.link.registry, x.output_)
  { x with
    link := { x.link with registry := rb.1 }
    output_ := rb.2
    current :=
      if x.state_ = .Connected then
        { x.current with frames := x.current.frames ++
            [frameOf pb (x.link.registry.getCmd (nameOf pb call)).1 call] }
      else x.current }

/-- The socket takes the first `n` bytes, or all there are. -/
def isend (n : Nat) (x : Agent Message) : Agent Message :=
  let sended := min n x.output_.size
  { x with
    output_ := x.output_.consume sended
    current := { x.current with written := x.current.written ++ x.output_.content.take sended } }

/-- `send(output_)`, where `absorb` is called with the buffer itself and does nothing. -/
def sendOutput (n : Nat) (x : Agent Message) : Agent Message :=
  match x.channel_ with
  -- a warning is logged
  | none => x
  | some _ =>
    let x := if x.output_.size ≠ 0 then x.isend n else x
    if x.output_.size ≠ 0 then { x with channel_ := some { writeEnabled := true } } else x

def handleWrite (n : Nat) (x : Agent Message) : Agent Message :=
  let x := x.isend n
  if x.output_.empty then { x with channel_ := some { writeEnabled := false } } else x

/-- `connect` and the `attach` at its end, on a socket of its own. -/
def connect (x : Agent Message) : Agent Message :=
  { x with
    state_ := .Handshaking
    channel_ := some { writeEnabled := true }
    current := {}
    past := x.past ++ [x.current] }

/-- `cleanup`, with a reconnect interval set: the state callback has nothing to do, and
`reconnect` deletes the channel. -/
def cleanup (pb : Protobuf Message) (junk : Nat → UInt8) (x : Agent Message) :
    Except Fault (Agent Message) :=
  match onDrained pb junk x.link with
  | .error fault => .error (.dispatch fault)
  | .ok link => .ok { x with
      link
      state_ := if x.state_ = .Handshaking then .Failed else .Closed
      channel_ := none }

/-- A handshake that succeeds; the state callback then registers. -/
def established (pb : Protobuf Message) (register : Message) (n : Nat) (x : Agent Message) :
    Agent Message :=
  let x := { x with state_ := .Connected, channel_ := some { writeEnabled := false } }
  { (x.encode pb (.message register 0 0 0)).sendOutput n with msConn_ := true }

def readAll (bytes : List UInt8) (x : Agent Message) : Agent Message :=
  { x with link := { x.link with input_ := readInput (bytes.length + 1) x.link.input_ bytes } }

end Agent

open Agent

/-- What the loop has the connection do. The numbers are how many bytes the socket takes, `junk` is
what lies beyond the input. -/
inductive Action (Message : Type) where
  | established (n : Nat)
  | refused (junk : Nat → UInt8)
  | received (bytes : List UInt8) (junk : Nat → UInt8)
  | dropped (bytes : List UInt8) (junk : Nat → UInt8)
  | writable (n : Nat)
  | timer
  /-- one invite or Bye of a check -/
  | send (call : EncodeCall Message) (n : Nat)

def advance (pb : Protobuf Message) (register : Message) :
    Action Message → Agent Message → Except Fault (Agent Message)
  | .established n, x =>
    if x.state_ = .Handshaking then .ok (x.established pb register n) else .ok x
  | .refused junk, x => if x.state_ = .Handshaking then x.cleanup pb junk else .ok x
  | .received bytes junk, x =>
    if x.state_ = .Connected then
      match onDrained pb junk (x.readAll bytes).link with
      | .error fault => .error (.dispatch fault)
      | .ok link => .ok { x with link }
    else .ok x
  | .dropped bytes junk, x =>
    if x.state_ = .Connected then (x.readAll bytes).cleanup pb junk else .ok x
  | .writable n, x =>
    if x.state_ = .Connected ∧ x.channel_ = some { writeEnabled := true } then
      .ok (x.handleWrite n)
    else .ok x
  | .timer, x => if x.state_ = .Closed ∨ x.state_ = .Failed then .ok x.connect else .ok x
  | .send call n, x =>
    if x.msConn_ then .ok ((x.encode pb call).sendOutput n) else .error .nullConn

def registerToMS (registry : Registry) : Agent Message :=
  connect { link := { registry, input_ := {}, handled := [] } }

section Frames
variable {pb : Protobuf Message} {x : Agent Message} {n : Nat}

@[simp] theorem isend_link : (x.isend n).link = x.link := rfl

@[simp] theorem isend_state : (x.isend n).state_ = x.state_ := rfl

@[simp] theorem encode_input {call : EncodeCall Message} :
    (x.encode pb call).link.input_ = x.link.input_ := rfl

@[simp] theorem encode_state {call : EncodeCall Message} :
    (x.encode pb call).state_ = x.state_ := rfl

@[simp] theorem sendOutput_link : (x.sendOutput n).link = x.link := by
  simp only [sendOutput]
  split
  · rfl
  · split_ifs <;> rfl

@[simp] theorem sendOutput_state : (x.sendOutput n).state_ = x.state_ := by
  simp only [sendOutput]
  split
  · rfl
  · split_ifs <;> rfl

@[simp] theorem handleWrite_link : (x.handleWrite n).link = x.link := by
  simp only [handleWrite]
  split_ifs <;> rfl

@[simp] theorem handleWrite_state : (x.handleWrite n).state_ = x.state_ := by
  simp only [handleWrite]
  split_ifs <;> rfl

@[simp] theorem established_input {register : Message} :
    (x.established pb register n).link.input_ = x.link.input_ := by
  simp [established]

@[simp] theorem established_state {register : Message} :
    (x.established pb register n).state_ = .Connected := by
  simp [established]

theorem cleanup_cases {junk : Nat → UInt8} {x' : Agent Message} (h : x.cleanup pb junk = .ok x') :
    ∃ link, onDrained pb junk x.link = .ok link ∧ x' = { x with
      link
      state_ := if x.state_ = .Handshaking then .Failed else .Closed
      channel_ := none } := by
  simp only [cleanup] at h
  split at h
  case h_1 => cases h
  case h_2 link hlink =>
    cases h
    exact ⟨link, hlink, rfl⟩

end Frames

inductive Advance (pb : Protobuf Message) (register : Message) (x : Agent Message) :
    Action Message → Agent Message → Prop where
  | quiet (action : Action Message) : Advance pb register x action x
  | established (n : Nat) (hs : x.state_ = .Handshaking) :
    Advance pb register x (.established n) (x.established pb register n)
  | refused (junk : Nat → UInt8) (hs : x.state_ = .Handshaking) (link : Link Message)
    (hl : onDrained pb junk x.link = .ok link) :
    Advance pb register x (.refused junk)
      { x with link, state_ := .Failed, channel_ := none }
  | received (bytes : List UInt8) (junk : Nat → UInt8) (hs : x.state_ = .Connected)
    (link : Link Message) (hl : onDrained pb junk (x.readAll bytes).link = .ok link) :
    Advance pb register x (.received bytes junk) { x with link }
  | dropped (bytes : List UInt8) (junk : Nat → UInt8) (hs : x.state_ = .Connected)
    (link : Link Message) (hl : onDrained pb junk (x.readAll bytes).link = .ok link) :
    Advance pb register x (.dropped bytes junk)
      { x with link, state_ := .Closed, channel_ := none }
  | writable (n : Nat) (hs : x.state_ = .Connected) :
    Advance pb register x (.writable n) (x.handleWrite n)
  | timer (hs : x.state_ = .Closed ∨ x.state_ = .Failed) :
    Advance pb register x .timer x.connect
  | send (call : EncodeCall Message) (n : Nat) :
    Advance pb register x (.send call n) ((x.encode pb call).sendOutput n)

theorem advance_cases {pb : Protobuf Message} {register : Message} {x x' : Agent Message}
    {action : Action Message} (h : advance pb register action x = .ok x') :
    Advance pb register x action x' := by
  cases action with
  | established n =>
    simp only [advance] at h
    split_ifs at h with hs
    · cases h
      exact .established n hs
    · cases h
      exact .quiet _
  | refused junk =>
    simp only [advance] at h
    split_ifs at h with hs
    · obtain ⟨link, hl, rfl⟩ := cleanup_cases h
      rw [if_pos hs]
      exact .refused junk hs link hl
    · cases h
      exact .quiet _
  | received bytes junk =>
    simp only [advance] at h
    split_ifs at h with hs
    · split at h
      case h_1 => cases h
      case h_2 link hl =>
        cases h
        exact .received bytes junk hs link hl
    · cases h
      exact .quiet _
  | dropped bytes junk =>
    simp only [advance] at h
    split_ifs at h with hs
    · obtain ⟨link, hl, rfl⟩ := cleanup_cases h
      have hne : ¬ (x.readAll bytes).state_ = .Handshaking := by
        intro hh
        cases hs.symm.trans hh
      rw [if_neg hne]
      exact .dropped bytes junk hs link hl
    · cases h
      exact .quiet _
  | writable n =>
    simp only [advance] at h
    split_ifs at h with hs
    · cases h
      exact .writable n hs.1
    · cases h
      exact .quiet _
  | timer =>
    simp only [advance] at h
    split_ifs at h with hs
    · cases h
      exact .timer hs
    · cases h
      exact .quiet _
  | send call n =>
    simp only [advance] at h
    split_ifs at h
    · cases h
      exact .send call n

end LazyNet.MsAgent
