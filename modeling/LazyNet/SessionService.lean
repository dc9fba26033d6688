import LazyNet.Lib.Tables

/-! Store sessions and the service that hands out their ids. A session does its work on the
store loop; the admin side only queues calls for it. -/
namespace LazyNet.Sessions
open LazyNet.Tables

structure Ip4Addr where
  host : String
  port : UInt16
  deriving DecidableEq, Repr

structure StoreSession where
  /-- tells the session objects apart: how many were made before this one -/
  serial : Nat
  addr_ : Ip4Addr
  deriving DecidableEq, Repr

inductive StoreTask where
  | bindAddr (ses : Nat)
  | attatchToLoop (ses : Nat)
  | closeUDP (ses : Nat)
  | addOutStream (ses : Nat) (outStream : Ip4Addr)
  | removeOutStream (ses : Nat) (outStream : Ip4Addr)
  deriving DecidableEq, Repr

/-- The session whose `this` the task holds. -/
def StoreTask.ses : StoreTask → Nat
  | .bindAddr ses => ses
  | .attatchToLoop ses => ses
  | .closeUDP ses => ses
  | .addOutStream ses _ => ses
  | .removeOutStream ses _ => ses

structure SessionService where
  storeSesCount_ : UInt64 := 0
  liveSesCount_ : UInt64 := 0
  id_ : UInt64 := 0
  maxStoreConn_ : UInt64 := 200
  storeSess_ : OrdMap UInt64 StoreSession := ∅
  /-- every call queued for the store loop so far, oldest first -/
  storeLoop_ : List StoreTask := []
  /-- how many session objects have been made -/
  made : Nat := 0

namespace SessionService

def safeCall (x : SessionService) (task : StoreTask) : SessionService :=
  { x with storeLoop_ := x.storeLoop_ ++ [task] }

def existStoreSes (x : SessionService) (sesid : UInt64) : Bool := sesid ∈ x.storeSess_

def getStoreSes (x : SessionService) (sesid : UInt64) : Option StoreSession := x.storeSess_[sesid]?

/-- `prePareStore` queues the bind and falls off its end, so the value its caller tests is
whatever is found in its place: `ret` gives it for each session made. -/
def newStoreSes (ret : Nat → Int) (x : SessionService) (port : UInt16) : UInt64 × SessionService :=
  if x.storeSesCount_ < x.maxStoreConn_ then
    let ses : StoreSession := { serial := x.made, addr_ := { host := "127.0.0.1", port } }
    let x := { x with id_ := x.id_ + 1, made := x.made + 1 }
    let x := x.safeCall (.bindAddr ses.serial)
    if ret ses.serial = 0 then
      (x.id_, { x with storeSess_ := x.storeSess_.insert x.id_ ses })
    else (0, x)
  else (0, x)

def startStoreSes (x : SessionService) (sesid : UInt64) : SessionService :=
  match x.getStoreSes sesid with
  | some ses =>
    { x with storeSesCount_ := x.storeSesCount_ + 1 }.safeCall (.attatchToLoop ses.serial)
  | none => x

def stopStoreSes (x : SessionService) (sesid : UInt64) : SessionService :=
  match x.getStoreSes sesid with
  | some ses =>
    let x := { x with storeSesCount_ := x.storeSesCount_ - 1 }.safeCall (.closeUDP ses.serial)
    { x with storeSess_ := x.storeSess_.erase sesid }
  | none => x

def attatchLive (x : SessionService) (sesid : UInt64) (addr : Ip4Addr) : SessionService :=
  match x.getStoreSes sesid with
  | some ses =>
    { x with liveSesCount_ := x.liveSesCount_ + 1 }.safeCall (.addOutStream ses.serial addr)
  | none => x

def detachLive (x : SessionService) (sesid : UInt64) (addr : Ip4Addr) : SessionService :=
  match x.getStoreSes sesid with
  | some ses =>
    { x with liveSesCount_ := x.liveSesCount_ - 1 }.safeCall (.removeOutStream ses.serial addr)
  | none => x

@[simp] theorem safeCall_storeSesCount (x : SessionService) (task : StoreTask) :
    (x.safeCall task).storeSesCount_ = x.storeSesCount_ := rfl

@[simp] theorem safeCall_maxStoreConn (x : SessionService) (task : StoreTask) :
    (x.safeCall task).maxStoreConn_ = x.maxStoreConn_ := rfl

@[simp] theorem safeCall_storeLoop (x : SessionService) (task : StoreTask) :
    (x.safeCall task).storeLoop_ = x.storeLoop_ ++ [task] := rfl

/-- What `newStoreSes` can do: refuse, make a session that is dropped, or make one and keep it
under the next id. -/
theorem newStoreSes_cases (ret : Nat → Int) (x : SessionService) (port : UInt16) :
    x.newStoreSes ret port = (0, x) ∨
    x.newStoreSes ret port =
      (0, { x with id_ := x.id_ + 1, made := x.made + 1 }.safeCall (.bindAddr x.made)) ∨
    x.newStoreSes ret port =
      (x.id_ + 1,
        { ({ x with id_ := x.id_ + 1, made := x.made + 1 }.safeCall (.bindAddr x.made)) with
          storeSess_ := x.storeSess_.insert (x.id_ + 1)
            { serial := x.made, addr_ := { host := "127.0.0.1", port } } }) := by
  simp only [newStoreSes]
  split_ifs
  · exact .inr (.inr rfl)
  · exact .inr (.inl rfl)
  · exact .inl rfl

theorem mem_newStoreSes {ret : Nat → Int} {x : SessionService} {port : UInt16} {id : UInt64}
    (h : id ∈ x.storeSess_) : id ∈ (x.newStoreSes ret port).2.storeSess_ := by
  obtain hc | hc | hc := newStoreSes_cases ret x port <;> rw [hc]
  · exact h
  · exact h
  · exact Std.ExtTreeMap.mem_insert.mpr (.inr h)

theorem newStoreSes_mem {ret : Nat → Int} {x : SessionService} {port : UInt16}
    (h : (x.newStoreSes ret port).1 ≠ 0) :
    (x.newStoreSes ret port).1 ∈ (x.newStoreSes ret port).2.storeSess_ := by
  obtain hc | hc | hc := newStoreSes_cases ret x port <;> rw [hc] at h ⊢
  · exact absurd rfl h
  · exact absurd rfl h
  · exact Std.ExtTreeMap.mem_insert_self

end SessionService

end LazyNet.Sessions
