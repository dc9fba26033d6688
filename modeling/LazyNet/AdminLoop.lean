import LazyNet.Dispatcher
import LazyNet.MsAgent
import LazyNet.MsDsWire
import LazyNet.StreamSteps

/-! The server on its admin loop. What comes over the connection to the MS is dispatched to the
stream manager, a timer has the manager check its plans, and what the manager sends goes out over
the same connection. -/
namespace LazyNet.AdminLoop
open LazyNet.Words LazyNet.Tables LazyNet.HandyBuffer LazyNet.ExternalMsgCodec
open LazyNet.MsDsProtocol LazyNet.DSServer LazyNet.DecodeBounds LazyNet.Streams
open LazyNet.Dispatcher LazyNet.MsAgent LazyNet.StepRuns

/-- The generated code, with how many of the bytes that are there for it a parse looks at, from the
first one on. -/
structure Parser extends Protobuf MsDsMessage where
  reads : String → (Nat → UInt8) → Int → Nat

/-- The types are those of `MS_DS.proto`, and a parse keeps to the size that it is given. -/
structure Parser.Generated (p : Parser) : Prop where
  named : ∀ msg, p.full_name msg = msg.type.full_name
  known : ∀ type : MessageType, p.generated type.full_name = true
  within : ∀ name data size, 0 ≤ size → p.reads name data size ≤ size.toNat

structure DSServer where
  msAgent_ : Agent MsDsMessage
  streamMgr_ : StreamMgr := {}

inductive Fault where
  | agent (fault : MsAgent.Fault)
  | manager (fault : Streams.Fault)
  /-- a read past the allocation of the input -/
  | overread
  /-- `expand` of an input that ends before it begins: its size has wrapped -/
  | badAlloc
  deriving DecidableEq, Repr

/-- What the callbacks work on: the manager, unless a callback before ended in a fault. -/
abbrev Managed := Except Streams.Fault StreamMgr

def onDSRegisterACK (_ : BaseHead) (_ : MsDsMessage) (m : Managed) : Managed := m

def onStorePlan (_ : BaseHead) (msg : MsDsMessage) (m : Managed) : Managed :=
  match msg with
  | .storePlan msg => m.map (StreamMgr.updateStorePlan msg)
  | _ => m

def onReadyStoreStreamInfoACK (info : BaseHead) (msg : MsDsMessage) (m : Managed) : Managed :=
  match msg with
  | .readyStoreStreamInfoACK streamid_ =>
    m >>= StreamMgr.startStream (streamid_.getD "") info.para1 info.para2 info.err
  | _ => m

/-- The `onMsg` calls of `initAdmin`. -/
def dispatcher_ : ExternalMsgDispatcher MsDsMessage Managed :=
  ((({} : ExternalMsgDispatcher MsDsMessage Managed).onMsg "MS_DS.DSRegisterACK"
    onDSRegisterACK).onMsg "MS_DS.StorePlan" onStorePlan).onMsg "MS_DS.ReadyStoreStreamInfoACK"
      onReadyStoreStreamInfoACK

def handle (p : Parser) (q : BaseHead × MsDsMessage) (m : StreamMgr) : Except Fault StreamMgr :=
  match dispatcher_.handle p.toProtobuf q.1 (some q.2) (.ok m) with
  | .error fault => .error (.agent (.dispatch fault))
  | .ok (.error fault) => .error (.manager fault)
  | .ok (.ok m) => .ok m

def outgoing : EncodeCall ReadyStoreStreamInfo → EncodeCall MsDsMessage
  | .message msg err para1 para2 =>
    .message (.readyStoreStreamInfo (some msg.streamid) (some msg.recvcameraport)) err para1 para2
  | .name typeName err para1 para2 => .name typeName err para1 para2

def sends (evs : List Streams.Event) : List (EncodeCall ReadyStoreStreamInfo) :=
  evs.filterMap fun
    | .send call => some call
    | .newStoreSes .. => none

/-- `takes` tells how many bytes the socket takes at each call of `sendOutput`. -/
def sendAll (takes : Nat → Nat) (calls : List (EncodeCall ReadyStoreStreamInfo)) :
    List (MsAgent.Action MsDsMessage) :=
  calls.mapIdx fun i call => .send (outgoing call) (takes i)

/-- Every `makeRoom` of the reads finds an input that it can copy. -/
def roomy : Nat → Buffer → List UInt8 → Bool
  | 0, _, _ => true
  | fuel + 1, x, bytes =>
    if x.space < x.exp_ && x.e_ < x.b_ then false
    else
      let r := x.makeReadRoom
      if bytes = [] then true
      else
        let rd := min r.space bytes.length
        roomy fuel ((r.addSize rd).write r.e_ (bytes.take rd)) (bytes.drop rd)

/-- The read callback looks at bytes past the allocation, for the head or in the parser. -/
def overreads (p : Parser) (junk : Nat → UInt8) (l : Link MsDsMessage) : Bool :=
  let x := l.input_
  if x.size < 20 then false
  else
    let info := loadHead (x.mem junk) x.b_
    x.cap_ < x.b_ + headSize ||
      match (decode p.toProtobuf junk l.registry x {}).parsed with
      | none => false
      | some (start, size) =>
        x.cap_ < start + p.reads (l.registry.getType info.cmd).1
          (fun i => x.mem junk (start + i)) size

def hasRoom : MsAgent.Action MsDsMessage → Agent MsDsMessage → Bool
  | .received bytes _, a => a.state_ ≠ .Connected || roomy (bytes.length + 1) a.link.input_ bytes
  | .dropped bytes _, a => a.state_ ≠ .Connected || roomy (bytes.length + 1) a.link.input_ bytes
  | _, _ => true

/-- What the read callback finds if it is called: what lies beyond the input, and the link. -/
def callback : MsAgent.Action MsDsMessage → Agent MsDsMessage →
    Option ((Nat → UInt8) × Link MsDsMessage)
  | .refused junk, a => if a.state_ = .Handshaking then some (junk, a.link) else none
  | .received bytes junk, a =>
    if a.state_ = .Connected then some (junk, (a.readAll bytes).link) else none
  | .dropped bytes junk, a =>
    if a.state_ = .Connected then some (junk, (a.readAll bytes).link) else none
  | _, _ => none

namespace DSServer

/-- Something happens on the connection. The callbacks for what was received send nothing, so they
are run after it. -/
def net (p : Parser) (register : MsDsMessage) (action : MsAgent.Action MsDsMessage)
    (x : DSServer) : Except Fault DSServer :=
  if !hasRoom action x.msAgent_ then .error .badAlloc
  else if (callback action x.msAgent_).any fun c => overreads p c.1 c.2 then .error .overread
  else
    match MsAgent.advance p.toProtobuf register action x.msAgent_ with
    | .error fault => .error (.agent fault)
    | .ok msAgent_ =>
      let received := msAgent_.link.handled.drop x.msAgent_.link.handled.length
      (run (handle p) received x.streamMgr_).map fun streamMgr_ => { msAgent_, streamMgr_ }

/-- The task of the timer. -/
def check (p : Parser) (ret : Nat → Int) (register : MsDsMessage) (tm_wday : Fin 7)
    (tm_hour : Fin 24) (takes : Nat → Nat) (x : DSServer) : Except Fault DSServer :=
  match x.streamMgr_.checkStorePlan ret tm_wday tm_hour with
  | .error fault => .error (.manager fault)
  | .ok streamMgr_ =>
    let calls := sends (streamMgr_.log.drop x.streamMgr_.log.length)
    match run (MsAgent.advance p.toProtobuf register) (sendAll takes calls) x.msAgent_ with
    | .error fault => .error (.agent fault)
    | .ok msAgent_ => .ok { msAgent_, streamMgr_ }

end DSServer

inductive Event where
  | established (n : Nat)
  | refused (junk : Nat → UInt8)
  | received (bytes : List UInt8) (junk : Nat → UInt8)
  | dropped (bytes : List UInt8) (junk : Nat → UInt8)
  | writable (n : Nat)
  /-- the timer of the reconnect -/
  | reconnect
  | check (tm_wday : Fin 7) (tm_hour : Fin 24) (takes : Nat → Nat)

def Event.action? : Event → Option (MsAgent.Action MsDsMessage)
  | .established n => some (.established n)
  | .refused junk => some (.refused junk)
  | .received bytes junk => some (.received bytes junk)
  | .dropped bytes junk => some (.dropped bytes junk)
  | .writable n => some (.writable n)
  | .reconnect => some .timer
  | .check .. => none

def step (p : Parser) (ret : Nat → Int) (register : MsDsMessage) :
    Event → DSServer → Except Fault DSServer
  | .established n => DSServer.net p register (.established n)
  | .refused junk => DSServer.net p register (.refused junk)
  | .received bytes junk => DSServer.net p register (.received bytes junk)
  | .dropped bytes junk => DSServer.net p register (.dropped bytes junk)
  | .writable n => DSServer.net p register (.writable n)
  | .reconnect => DSServer.net p register .timer
  | .check tm_wday tm_hour takes => DSServer.check p ret register tm_wday tm_hour takes

def start : DSServer := { msAgent_ := registerToMS (Registry.ofPairs initAdmin) }

def callOf (info : BaseHead) : MsDsMessage → Option Call
  | .storePlan msg => some (.update msg)
  | .readyStoreStreamInfoACK streamid_ =>
    some (.ack (streamid_.getD "") info.para1 info.para2 info.err)
  | _ => none

theorem dispatcher_get (name : String) : dispatcher_.protocbs_[name]? =
    if "MS_DS.ReadyStoreStreamInfoACK" = name then some onReadyStoreStreamInfoACK
    else if "MS_DS.StorePlan" = name then some onStorePlan
    else if "MS_DS.DSRegisterACK" = name then some onDSRegisterACK else none := by
  simp only [dispatcher_, ExternalMsgDispatcher.onMsg, get_insert]
  simp

theorem handle_callOf {p : Parser} (hp : p.Generated) (ret : Nat → Int) (info : BaseHead)
    (msg : MsDsMessage) (m : StreamMgr) :
    handle p (info, msg) m =
      match callOf info msg with
      | some call => (Streams.step ret call m).mapError .manager
      | none => .ok m := by
  have hname : p.full_name msg = msg.type.full_name := hp.named msg
  simp only [handle, ExternalMsgDispatcher.handle, hname, dispatcher_get]
  cases msg with
  | storePlan msg =>
    simp [MsDsMessage.type, MessageType.full_name, onStorePlan, callOf, Streams.step,
      Except.map, Except.mapError]
  | readyStoreStreamInfoACK streamid_ =>
    simp only [MsDsMessage.type, MessageType.full_name, if_true, onReadyStoreStreamInfoACK, callOf,
      Streams.step, bind, Except.bind]
    cases m.startStream (streamid_.getD "") info.para1 info.para2 info.err with
    | error fault => rfl
    | ok m' => rfl
  | dsRegisterACK gid_ =>
    simp [MsDsMessage.type, MessageType.full_name, onDSRegisterACK, callOf]
  | dsRegister ip_ port_ pid_ => simp [MsDsMessage.type, MessageType.full_name, callOf]
  | storeTimePhrase m => simp [MsDsMessage.type, MessageType.full_name, callOf]
  | streamPlanInfo m => simp [MsDsMessage.type, MessageType.full_name, callOf]
  | readyStoreStreamInfo a b => simp [MsDsMessage.type, MessageType.full_name, callOf]
  | systemInfo m => simp [MsDsMessage.type, MessageType.full_name, callOf]

end LazyNet.AdminLoop
