import LazyNet.MsDsProtocol
import LazyNet.SessionService
import LazyNet.Lib.StepRuns

/-! The stream manager: it keeps the plans, checks them against the clock, and has a session
recorded for each stream that is planned for the present hour. -/
namespace LazyNet.Streams
open LazyNet.Tables LazyNet.ExternalMsgCodec LazyNet.MsDsProtocol LazyNet.Sessions LazyNet.StepRuns

structure Plan where
  streamId : String
  cameraIp : String
  cameraPort : String
  streamType : String
  extraInfo : String
  expiryDays : UInt32
  codeRate : UInt32
  frameRate : UInt32
  timePhrase : Vector UInt32 8
  deriving DecidableEq, Repr

def Plan.ofInfo (info : StreamPlanInfo) : Plan where
  streamId := info.streamid
  cameraIp := info.cameraip
  cameraPort := info.cameraport
  streamType := info.streamtype
  extraInfo := info.moreinformation
  expiryDays := info.expireddays
  codeRate := info.coderate
  frameRate := info.framerate
  timePhrase := info.storetimephrase.foldl
    (fun t p => t.set p.weekday.number p.storetime) (Vector.replicate 8 0)

structure StoreSesInfo where
  sessionId : UInt64 := 0
  para1 : UInt32 := 0
  para2 : UInt32 := 0
  deriving DecidableEq, Repr

/-- The calls that leave the manager, for the statements about them. -/
inductive Event where
  /-- a call of `newStoreSes`, the session that it makes and the id that it returns -/
  | newStoreSes (streamid : String) (port : UInt16) (ses : Nat) (sesId : UInt64)
  /-- what is encoded on `msConn_` and sent -/
  | send (call : EncodeCall ReadyStoreStreamInfo)
  deriving DecidableEq, Repr

structure StreamMgr where
  prePlans_ : OrdMap String Plan := ∅
  curPlans_ : OrdMap String Plan := ∅
  delPlans_ : OrdMap String Plan := ∅
  storeSess_ : OrdMap String StoreSesInfo := ∅
  sesServicePtr_ : SessionService := {}
  port_ : UInt16 := 3000
  portInterval_ : UInt16 := 10
  log : List Event := []

inductive Fault where
  /-- a method called on the null session that `getStoreSes` returns for an unknown id -/
  | nullSession
  /-- a loop going on from an element that was erased from its container -/
  | danglingIterator
  deriving DecidableEq, Repr

/-- The map objects of the manager, as the place an iterator belongs to. -/
inductive Container where
  | prePlans | curPlans
  deriving DecidableEq, Repr

/-- Iterators of different maps never compare equal, not even two past-the-end ones. -/
inductive Iterator where
  | elem (c : Container) (key : String)
  | past (c : Container)
  deriving DecidableEq, Repr

def find (c : Container) (plans : OrdMap String Plan) (streamid : String) : Iterator :=
  if streamid ∈ plans then .elem c streamid else .past c

def getCurDay (tm_wday : Fin 7) : Fin 8 :=
  if tm_wday.val = 0 then Fin.last 7 else tm_wday.castSucc

namespace StreamMgr

def existStoreSes (m : StreamMgr) (streamid : String) : Bool := streamid ∈ m.storeSess_

def getStoreSesId (m : StreamMgr) (streamid : String) : UInt64 :=
  match m.storeSess_[streamid]? with
  | some ses => ses.sessionId
  | none => 0

def encode (m : StreamMgr) (call : EncodeCall ReadyStoreStreamInfo) : StreamMgr :=
  { m with log := m.log ++ [.send call] }

def inviteStream (m : StreamMgr) (streamid : String) (port : UInt16) : StreamMgr :=
  m.encode (.message { streamid, recvcameraport := toString port } 0 0 0)

def createStream (ret : Nat → Int) (streamid : String) (m : StreamMgr) : StreamMgr :=
  let (sesId, service) := m.sesServicePtr_.newStoreSes ret m.port_
  let event := Event.newStoreSes streamid m.port_ m.sesServicePtr_.made sesId
  let m := { m with sesServicePtr_ := service, log := m.log ++ [event] }
  let m :=
    if sesId ≠ 0 then
      inviteStream { m with storeSess_ := m.storeSess_.insert streamid { sessionId := sesId } }
        streamid m.port_
    else m
  { m with port_ := m.port_ + m.portInterval_ }

/-- `storeSess_[streamid]`, which adds an entry with id 0 where there is none. -/
def storeSlot (m : StreamMgr) (streamid : String) : StoreSesInfo × StreamMgr :=
  let (ses, t) := slot m.storeSess_ streamid {}
  (ses, { m with storeSess_ := t })

/-- The two words go out in the places of `err` and `para1`. -/
def byeStream (streamid : String) (m : StreamMgr) : StreamMgr :=
  let (ses, m) := m.storeSlot streamid
  m.encode (.name "MS_DS.Bye" ses.para1 ses.para2 0)

/-- `sesServicePtr_->getStoreSes(sesid)->` and a call that queues a task of the session. -/
def callSession (m : StreamMgr) (sesid : UInt64) (task : Nat → StoreTask) :
    Except Fault StreamMgr :=
  match m.sesServicePtr_.getStoreSes sesid with
  | none => .error .nullSession
  | some ses => .ok { m with sesServicePtr_ := m.sesServicePtr_.safeCall (task ses.serial) }

def stopStream (streamid : String) (m : StreamMgr) : Except Fault StreamMgr := do
  let m := byeStream streamid m
  let (ses, m) := m.storeSlot streamid
  let m ← m.callSession ses.sessionId .closeUDP
  .ok { m with storeSess_ := m.storeSess_.erase streamid }

/-- `stopStream` erases the element at which the loop stands. -/
def stopAllStream (m : StreamMgr) : Except Fault StreamMgr :=
  match m.storeSess_.toList with
  | [] => .ok { m with storeSess_ := ∅ }
  | (streamid, _) :: _ => do
    let _ ← stopStream streamid m
    .error .danglingIterator

def startStream (streamid : String) (p1 p2 err : UInt32) (m : StreamMgr) : Except Fault StreamMgr :=
  let (ses, m) := m.storeSlot streamid
  if err ≠ 0 then do
    let m ← m.callSession ses.sessionId .closeUDP
    .ok { m with storeSess_ := m.storeSess_.erase streamid }
  else
    let ses := { ses with para1 := p1, para2 := p2 }
    let m := { m with storeSess_ := m.storeSess_.insert streamid ses }
    m.callSession ses.sessionId .attatchToLoop

/-- The lookup in `curPlans_` is compared with the end of `prePlans_`. -/
def diffStorePlan (m : StreamMgr) : StreamMgr :=
  { m with
    delPlans_ := m.prePlans_.toList.foldl (fun del (p : String × Plan) =>
      if find .curPlans m.curPlans_ p.1 = .past .prePlans then del.insertIfNew p.1 p.2
      else del) m.delPlans_ }

def updateStorePlan (msg : StorePlan) (m : StreamMgr) : StreamMgr :=
  let m :=
    if msg.empty then { m with curPlans_ := ∅, prePlans_ := ∅ }
    else
      { m with
        prePlans_ := m.curPlans_
        curPlans_ := msg.streamplaninfo.foldl
          (fun t info => t.insert info.streamid (Plan.ofInfo info)) ∅ }
  m.diffStorePlan

/-- One round of the first loop of `checkStorePlan`. -/
def checkPlan (ret : Nat → Int) (curDay : Fin 8) (curHour : Fin 24) (plan : Plan)
    (m : StreamMgr) : Except Fault StreamMgr :=
  if plan.timePhrase[curDay] &&& (1 <<< UInt32.ofNat curHour) ≠ 0 then
    if m.existStoreSes plan.streamId then .ok m
    else
      .ok (createStream ret plan.streamId
        { m with delPlans_ := m.delPlans_.erase plan.streamId })
  else if m.existStoreSes plan.streamId then stopStream plan.streamId m
  else .ok m

def checkPlans (ret : Nat → Int) (curDay : Fin 8) (curHour : Fin 24) (plans : List Plan)
    (m : StreamMgr) : Except Fault StreamMgr :=
  run (checkPlan ret curDay curHour) plans m

/-- The second loop erases the element at which it stands. -/
def sweepDelPlans (m : StreamMgr) : Except Fault StreamMgr :=
  match m.delPlans_.toList with
  | [] => .ok m
  | (_, delPlan) :: _ => do
    let _ ← stopStream delPlan.streamId m
    .error .danglingIterator

/-- `tm_wday` and `tm_hour` are what the two calls of `localtime` give. -/
def checkStorePlan (ret : Nat → Int) (tm_wday : Fin 7) (tm_hour : Fin 24) (m : StreamMgr) :
    Except Fault StreamMgr := do
  let m ← checkPlans ret (getCurDay tm_wday) tm_hour (m.curPlans_.toList.map Prod.snd) m
  sweepDelPlans m

end StreamMgr

inductive Call where
  | update (msg : StorePlan)
  | ack (streamid : String) (p1 p2 err : UInt32)
  | check (tm_wday : Fin 7) (tm_hour : Fin 24)
  deriving DecidableEq, Repr

def step (ret : Nat → Int) : Call → StreamMgr → Except Fault StreamMgr
  | .update msg, m => .ok (m.updateStorePlan msg)
  | .ack streamid p1 p2 err, m => m.startStream streamid p1 p2 err
  | .check tm_wday tm_hour, m => m.checkStorePlan ret tm_wday tm_hour

end LazyNet.Streams
