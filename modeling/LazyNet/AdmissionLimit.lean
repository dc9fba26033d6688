import LazyNet.SessionService
import LazyNet.Lib.StepRuns

/-! Sequences of calls of the session service, and its limit on sessions. The limit is compared
with a counter that other calls maintain than the one that adds to the table. -/
namespace LazyNet.Sessions
open LazyNet.Tables LazyNet.StepRuns

inductive ServiceCall where
  | newStoreSes (port : UInt16)
  | startStoreSes (sesid : UInt64)
  | stopStoreSes (sesid : UInt64)
  | attatchLive (sesid : UInt64) (addr : Ip4Addr)
  | detachLive (sesid : UInt64) (addr : Ip4Addr)
  deriving DecidableEq, Repr

def ServiceCall.run (ret : Nat → Int) : ServiceCall → SessionService → SessionService
  | .newStoreSes port, x => (x.newStoreSes ret port).2
  | .startStoreSes sesid, x => x.startStoreSes sesid
  | .stopStoreSes sesid, x => x.stopStoreSes sesid
  | .attatchLive sesid addr, x => x.attatchLive sesid addr
  | .detachLive sesid addr, x => x.detachLive sesid addr

def afterCalls (ret : Nat → Int) (u : List ServiceCall) : SessionService :=
  u.foldl (fun x call => call.run ret x) {}

theorem afterCalls_snoc (ret : Nat → Int) (u : List ServiceCall) (call : ServiceCall) :
    afterCalls ret (u ++ [call]) = call.run ret (afterCalls ret u) := by
  simp [afterCalls]

namespace SessionService
variable {ret : Nat → Int} {x : SessionService} {port : UInt16} {sesid : UInt64}
  {ses : StoreSession}

theorem newStoreSes_refused (h : ¬ x.storeSesCount_ < x.maxStoreConn_) :
    x.newStoreSes ret port = (0, x) := by
  simp [newStoreSes, h]

theorem newStoreSes_failed (h : x.storeSesCount_ < x.maxStoreConn_) (hr : ret x.made ≠ 0) :
    x.newStoreSes ret port =
      (0, { x with id_ := x.id_ + 1, made := x.made + 1 }.safeCall (.bindAddr x.made)) := by
  simp [newStoreSes, h, hr]

theorem newStoreSes_kept (h : x.storeSesCount_ < x.maxStoreConn_) (hr : ret x.made = 0) :
    x.newStoreSes ret port =
      (x.id_ + 1,
        { ({ x with id_ := x.id_ + 1, made := x.made + 1 }.safeCall (.bindAddr x.made)) with
          storeSess_ := x.storeSess_.insert (x.id_ + 1)
            { serial := x.made, addr_ := { host := "127.0.0.1", port } } }) := by
  simp only [newStoreSes, h, if_true, hr]
  rfl

theorem startStoreSes_some (h : x.storeSess_[sesid]? = some ses) : x.startStoreSes sesid =
    { x with storeSesCount_ := x.storeSesCount_ + 1 }.safeCall (.attatchToLoop ses.serial) := by
  simp [startStoreSes, getStoreSes, h]

theorem startStoreSes_none (h : x.storeSess_[sesid]? = none) : x.startStoreSes sesid = x := by
  simp [startStoreSes, getStoreSes, h]

theorem stopStoreSes_some (h : x.storeSess_[sesid]? = some ses) : x.stopStoreSes sesid =
    { ({ x with storeSesCount_ := x.storeSesCount_ - 1 }.safeCall (.closeUDP ses.serial)) with
      storeSess_ := x.storeSess_.erase sesid } := by
  simp only [stopStoreSes, getStoreSes, h]
  rfl

theorem stopStoreSes_none (h : x.storeSess_[sesid]? = none) : x.stopStoreSes sesid = x := by
  simp [stopStoreSes, getStoreSes, h]

theorem attatchLive_cases (x : SessionService) (sesid : UInt64) (addr : Ip4Addr) :
    (x.storeSess_[sesid]? = none ∧ x.attatchLive sesid addr = x) ∨
    ∃ ses, x.storeSess_[sesid]? = some ses ∧ x.attatchLive sesid addr =
      { x with liveSesCount_ := x.liveSesCount_ + 1 }.safeCall
        (.addOutStream ses.serial addr) := by
  cases h : x.storeSess_[sesid]? with
  | none => exact .inl ⟨rfl, by simp [attatchLive, getStoreSes, h]⟩
  | some ses => exact .inr ⟨ses, rfl, by simp [attatchLive, getStoreSes, h]⟩

theorem detachLive_cases (x : SessionService) (sesid : UInt64) (addr : Ip4Addr) :
    (x.storeSess_[sesid]? = none ∧ x.detachLive sesid addr = x) ∨
    ∃ ses, x.storeSess_[sesid]? = some ses ∧ x.detachLive sesid addr =
      { x with liveSesCount_ := x.liveSesCount_ - 1 }.safeCall
        (.removeOutStream ses.serial addr) := by
  cases h : x.storeSess_[sesid]? with
  | none => exact .inl ⟨rfl, by simp [detachLive, getStoreSes, h]⟩
  | some ses => exact .inr ⟨ses, rfl, by simp [detachLive, getStoreSes, h]⟩

@[simp] theorem attatchLive_storeSess (x : SessionService) (sesid : UInt64) (addr : Ip4Addr) :
    (x.attatchLive sesid addr).storeSess_ = x.storeSess_ := by
  simp only [attatchLive]
  split <;> rfl

@[simp] theorem attatchLive_storeSesCount (x : SessionService) (sesid : UInt64)
    (addr : Ip4Addr) : (x.attatchLive sesid addr).storeSesCount_ = x.storeSesCount_ := by
  simp only [attatchLive]
  split <;> rfl

@[simp] theorem attatchLive_maxStoreConn (x : SessionService) (sesid : UInt64)
    (addr : Ip4Addr) : (x.attatchLive sesid addr).maxStoreConn_ = x.maxStoreConn_ := by
  simp only [attatchLive]
  split <;> rfl

@[simp] theorem detachLive_storeSess (x : SessionService) (sesid : UInt64) (addr : Ip4Addr) :
    (x.detachLive sesid addr).storeSess_ = x.storeSess_ := by
  simp only [detachLive]
  split <;> rfl

@[simp] theorem detachLive_storeSesCount (x : SessionService) (sesid : UInt64) (addr : Ip4Addr) :
    (x.detachLive sesid addr).storeSesCount_ = x.storeSesCount_ := by
  simp only [detachLive]
  split <;> rfl

@[simp] theorem detachLive_maxStoreConn (x : SessionService) (sesid : UInt64) (addr : Ip4Addr) :
    (x.detachLive sesid addr).maxStoreConn_ = x.maxStoreConn_ := by
  simp only [detachLive]
  split <;> rfl

def TooMany (x : SessionService) : Prop :=
  ∀ ret port, (x.newStoreSes ret port).2.made = x.made

theorem tooMany_iff : x.TooMany ↔ ¬ x.storeSesCount_ < x.maxStoreConn_ := by
  constructor
  · intro h hlt
    have hmade := h (fun _ => 0) 0
    rw [newStoreSes_kept hlt rfl] at hmade
    exact absurd hmade (Nat.succ_ne_self x.made)
  · intro h ret port
    rw [newStoreSes_refused h]

/-- There are no more sessions than the limit says, and with fewer none is turned away. -/
structure Admits (x : SessionService) : Prop where
  size_le : x.storeSess_.size ≤ x.maxStoreConn_.toNat
  open_below : x.storeSess_.size < x.maxStoreConn_.toNat → ¬ x.TooMany

theorem admits_iff : x.Admits ↔ x.storeSess_.size ≤ x.maxStoreConn_.toNat ∧
    (x.storeSess_.size < x.maxStoreConn_.toNat → x.storeSesCount_ < x.maxStoreConn_) := by
  constructor
  · intro h
    exact ⟨h.size_le, fun hlt => by simpa [tooMany_iff] using h.open_below hlt⟩
  · intro ⟨hle, hopen⟩
    exact ⟨hle, fun hlt => by simpa [tooMany_iff] using hopen hlt⟩

theorem Admits.congr {y : SessionService} (h : x.Admits) (hsess : y.storeSess_ = x.storeSess_)
    (hcount : y.storeSesCount_ = x.storeSesCount_) (hmax : y.maxStoreConn_ = x.maxStoreConn_) :
    y.Admits := by
  rw [admits_iff] at h ⊢
  rwa [hsess, hcount, hmax]

end SessionService

open SessionService

/-- The calls that keep the limit: a session is added below the limit only, and the calls that
count stay below it with the counter, without wrapping. -/
def KeepsLimit (ret : Nat → Int) : ServiceCall → SessionService → Prop
  | .newStoreSes _, x => x.storeSesCount_ < x.maxStoreConn_ → ret x.made = 0 →
    x.id_ + 1 ∉ x.storeSess_ → x.storeSess_.size < x.maxStoreConn_.toNat
  | .startStoreSes sesid, x => sesid ∈ x.storeSess_ →
    x.storeSess_.size < x.maxStoreConn_.toNat → x.storeSesCount_ + 1 < x.maxStoreConn_
  | .stopStoreSes sesid, x => sesid ∈ x.storeSess_ → x.storeSesCount_ - 1 < x.maxStoreConn_
  | .attatchLive _ _, _ => True
  | .detachLive _ _, _ => True

section Step
variable {ret : Nat → Int} {x : SessionService}

theorem admits_newStoreSes (h : x.Admits) (port : UInt16) :
    (x.newStoreSes ret port).2.Admits ↔ KeepsLimit ret (.newStoreSes port) x := by
  simp only [KeepsLimit]
  have hx := admits_iff.mp h
  by_cases hlt : x.storeSesCount_ < x.maxStoreConn_
  swap
  · rw [newStoreSes_refused hlt]
    exact ⟨fun _ h' => absurd h' hlt, fun _ => h⟩
  by_cases hr : ret x.made = 0
  swap
  · rw [newStoreSes_failed hlt hr]
    exact ⟨fun _ _ h' => absurd h' hr, fun _ => admits_iff.mpr hx⟩
  rw [newStoreSes_kept hlt hr, admits_iff]
  simp only [safeCall_maxStoreConn, safeCall_storeSesCount]
  by_cases hmem : x.id_ + 1 ∈ x.storeSess_
  · rw [size_insert_of_mem hmem]
    exact ⟨fun _ _ _ hnot => absurd hmem hnot, fun _ => hx⟩
  · rw [size_insert_of_notMem hmem]
    constructor
    · intro h' _ _ _
      omega
    · intro h'
      have hsize := h' hlt hr hmem
      exact ⟨by omega, fun _ => hlt⟩

theorem admits_startStoreSes (h : x.Admits) (sesid : UInt64) :
    (x.startStoreSes sesid).Admits ↔ KeepsLimit ret (.startStoreSes sesid) x := by
  simp only [KeepsLimit]
  have hx := admits_iff.mp h
  cases hs : x.storeSess_[sesid]? with
  | none =>
    rw [startStoreSes_none hs]
    exact ⟨fun _ hmem => absurd hmem (get_none_iff.mp hs), fun _ => h⟩
  | some ses =>
    have hmem : sesid ∈ x.storeSess_ := mem_iff_get.mpr ⟨ses, hs⟩
    rw [startStoreSes_some hs, admits_iff]
    exact ⟨fun h' _ => h'.2, fun h' => ⟨hx.1, h' hmem⟩⟩

theorem admits_stopStoreSes (h : x.Admits) (sesid : UInt64) :
    (x.stopStoreSes sesid).Admits ↔ KeepsLimit ret (.stopStoreSes sesid) x := by
  simp only [KeepsLimit]
  have hx := admits_iff.mp h
  cases hs : x.storeSess_[sesid]? with
  | none =>
    rw [stopStoreSes_none hs]
    exact ⟨fun _ hmem => absurd hmem (get_none_iff.mp hs), fun _ => h⟩
  | some ses =>
    have hmem : sesid ∈ x.storeSess_ := mem_iff_get.mpr ⟨ses, hs⟩
    have hsize := size_erase_of_mem hmem
    rw [stopStoreSes_some hs, admits_iff]
    simp only [safeCall_maxStoreConn, safeCall_storeSesCount]
    constructor
    · intro h' _
      exact h'.2 (by omega)
    · intro h'
      exact ⟨by omega, fun _ => h' hmem⟩

theorem admits_run (h : x.Admits) (call : ServiceCall) :
    (call.run ret x).Admits ↔ KeepsLimit ret call x := by
  cases call with
  | newStoreSes port => exact admits_newStoreSes h port
  | startStoreSes sesid => exact admits_startStoreSes h sesid
  | stopStoreSes sesid => exact admits_stopStoreSes h sesid
  | attatchLive sesid addr =>
    refine ⟨fun _ => trivial, fun _ => h.congr ?_ ?_ ?_⟩
    · exact attatchLive_storeSess x sesid addr
    · exact attatchLive_storeSesCount x sesid addr
    · exact attatchLive_maxStoreConn x sesid addr
  | detachLive sesid addr =>
    refine ⟨fun _ => trivial, fun _ => h.congr ?_ ?_ ?_⟩
    · exact detachLive_storeSess x sesid addr
    · exact detachLive_storeSesCount x sesid addr
    · exact detachLive_maxStoreConn x sesid addr

end Step

/-- The limit holds after every call of a sequence exactly when every call keeps it. -/
theorem admits_throughout_iff (ret : Nat → Int) (calls : List ServiceCall) :
    (∀ u, u <+: calls → (afterCalls ret u).Admits) ↔
      ∀ u call, u ++ [call] <+: calls → KeepsLimit ret call (afterCalls ret u) := by
  have hfresh : ({} : SessionService).Admits := admits_iff.mpr (by decide)
  have hstart : (afterCalls ret []).Admits := hfresh
  refine prefix_iff (fun u => (afterCalls ret u).Admits) calls hstart hstart ?_ ?_
  · intro u call _ hu
    rw [afterCalls_snoc]
    exact admits_run hu call
  · exact fun u call _ _ h => h

structure Uncounted (n : Nat) (x : SessionService) : Prop where
  count_eq : x.storeSesCount_ = 0
  max_eq : x.maxStoreConn_ = 200
  id_eq : x.id_.toNat = n
  keys_le : ∀ id ∈ x.storeSess_, id.toNat ≤ n
  size_eq : x.storeSess_.size = n

theorem Uncounted.newStoreSes {n : Nat} {x : SessionService} (h : Uncounted n x)
    (hn : n + 1 < 2 ^ 64) (port : UInt16) :
    Uncounted (n + 1) (x.newStoreSes (fun _ => 0) port).2 := by
  have hlt : x.storeSesCount_ < x.maxStoreConn_ := by
    rw [h.count_eq, h.max_eq]
    decide
  have hid : (x.id_ + 1).toNat = n + 1 := by
    rw [UInt64.toNat_add, h.id_eq]
    exact Nat.mod_eq_of_lt hn
  have hfree : x.id_ + 1 ∉ x.storeSess_ := by
    intro hmem
    have hle := h.keys_le _ hmem
    omega
  rw [newStoreSes_kept hlt rfl]
  refine ⟨h.count_eq, h.max_eq, hid, fun id hmem => ?_, ?_⟩
  · cases Std.ExtTreeMap.mem_insert.mp hmem with
    | inl heq => rw [← Std.compare_eq_iff_eq.mp heq, hid]
    | inr hold => exact Nat.le_succ_of_le (h.keys_le id hold)
  · rw [← h.size_eq]
    exact size_insert_of_notMem hfree _

theorem uncounted_creations (port : UInt16) {n : Nat} (hn : n < 2 ^ 64) :
    Uncounted n (afterCalls (fun _ => 0) (List.replicate n (.newStoreSes port))) := by
  induction n with
  | zero => exact ⟨rfl, rfl, rfl, fun id hmem => by simp [afterCalls] at hmem, rfl⟩
  | succ n ih =>
    rw [List.replicate_succ', afterCalls_snoc]
    exact (ih (Nat.lt_of_succ_lt hn)).newStoreSes hn port

/-- One session more than the limit is made; and after a session is stopped that was not started,
the counter has wrapped and the empty table takes no session any more. -/
theorem limit_not_kept :
    200 < (afterCalls (fun _ => 0) (List.replicate 201 (.newStoreSes 3000))).storeSess_.size ∧
      let x := afterCalls (fun _ => 0) [.newStoreSes 3000, .stopStoreSes 1]
      x.storeSess_.size = 0 ∧ x.TooMany ∧ ¬ x.Admits := by
  refine ⟨?_, rfl, ?_, fun h => ?_⟩
  · rw [(uncounted_creations 3000 (by decide)).size_eq]
    decide
  · exact tooMany_iff.mpr (by decide)
  · exact absurd ((admits_iff.mp h).2 (by decide)) (by decide)

end LazyNet.Sessions
