import LazyNet.Lib.Words
import LazyNet.StoreQueue
import LazyNet.StoreLifecycle

/-! The counters of the session service: the sessions that were started, and the viewers that
were added. A call changes a counter for whatever session it finds, and does not ask what was
done to that session before. -/
namespace LazyNet.Sessions
open LazyNet.Tables LazyNet.StepRuns LazyNet.Words SessionService

def SessionService.started (x : SessionService) (ses : Nat) : Bool :=
  .attatchToLoop ses ∈ x.storeLoop_

def startedCount (x : SessionService) : Nat :=
  total (fun ses => if x.started ses.serial then 1 else 0) x.storeSess_

def StoreCountWraps : ServiceCall → SessionService → Prop
  | .stopStoreSes sesid, x => sesid ∈ x.storeSess_ ∧ x.storeSesCount_ = 0
  | _, _ => False

/-- After the calls `u` the counter says how many sessions of the table were started, and the
last of the calls did not take it below zero. -/
def StoreCountExact (ret : Nat → Int) (u : List ServiceCall) : Prop :=
  (afterCalls ret u).storeSesCount_.toNat = startedCount (afterCalls ret u) ∧
    ∀ v call, u = v ++ [call] → ¬ StoreCountWraps call (afterCalls ret v)

/-- The calls that keep the counter: a session is started once, is stopped after it was started,
and no started session loses its id to a new one. -/
def KeepsStoreCount (ret : Nat → Int) : ServiceCall → SessionService → Prop
  | .newStoreSes _, x => x.storeSesCount_ < x.maxStoreConn_ → ret x.made = 0 →
    ∀ ses, x.storeSess_[x.id_ + 1]? = some ses → x.started ses.serial = false
  | .startStoreSes sesid, x => ∀ ses, x.storeSess_[sesid]? = some ses →
    x.started ses.serial = false ∧ x.storeSesCount_ + 1 ≠ 0
  | .stopStoreSes sesid, x => ∀ ses, x.storeSess_[sesid]? = some ses →
    x.started ses.serial = true
  | .attatchLive _ _, _ => True
  | .detachLive _ _, _ => True

structure Accounted (x : SessionService) : Prop where
  distinct : Distinct { service := x }
  queued_lt : ∀ task ∈ x.storeLoop_, task.ses < x.made

def ServiceCall.queues : ServiceCall → SessionService → List StoreTask
  | .newStoreSes _, x => if x.storeSesCount_ < x.maxStoreConn_ then [.bindAddr x.made] else []
  | .startStoreSes sesid, x =>
    x.storeSess_[sesid]?.toList.map fun ses => .attatchToLoop ses.serial
  | .stopStoreSes sesid, x => x.storeSess_[sesid]?.toList.map fun ses => .closeUDP ses.serial
  | .attatchLive sesid addr, x =>
    x.storeSess_[sesid]?.toList.map fun ses => .addOutStream ses.serial addr
  | .detachLive sesid addr, x =>
    x.storeSess_[sesid]?.toList.map fun ses => .removeOutStream ses.serial addr

section Queued
variable {ret : Nat → Int} {x : SessionService}

theorem storeLoop_run (ret : Nat → Int) (call : ServiceCall) (x : SessionService) :
    (call.run ret x).storeLoop_ = x.storeLoop_ ++ call.queues x := by
  cases call with
  | newStoreSes port =>
    simp only [ServiceCall.run, ServiceCall.queues]
    by_cases hlt : x.storeSesCount_ < x.maxStoreConn_
    · by_cases hr : ret x.made = 0
      · rw [newStoreSes_kept hlt hr, if_pos hlt]
        rfl
      · rw [newStoreSes_failed hlt hr, if_pos hlt]
        rfl
    · rw [newStoreSes_refused hlt, if_neg hlt, List.append_nil]
  | startStoreSes sesid =>
    cases hs : x.storeSess_[sesid]? with
    | none => simp [ServiceCall.run, ServiceCall.queues, startStoreSes_none hs, hs]
    | some ses => simp [ServiceCall.run, ServiceCall.queues, startStoreSes_some hs, hs]
  | stopStoreSes sesid =>
    cases hs : x.storeSess_[sesid]? with
    | none => simp [ServiceCall.run, ServiceCall.queues, stopStoreSes_none hs, hs]
    | some ses => simp [ServiceCall.run, ServiceCall.queues, stopStoreSes_some hs, hs]
  | attatchLive sesid addr =>
    obtain ⟨hs, hc⟩ | ⟨ses, hs, hc⟩ := attatchLive_cases x sesid addr
    · simp [ServiceCall.run, ServiceCall.queues, hc, hs]
    · simp [ServiceCall.run, ServiceCall.queues, hc, hs]
  | detachLive sesid addr =>
    obtain ⟨hs, hc⟩ | ⟨ses, hs, hc⟩ := detachLive_cases x sesid addr
    · simp [ServiceCall.run, ServiceCall.queues, hc, hs]
    · simp [ServiceCall.run, ServiceCall.queues, hc, hs]

theorem made_le_run (ret : Nat → Int) (call : ServiceCall) (x : SessionService) :
    x.made ≤ (call.run ret x).made := by
  cases call with
  | newStoreSes port =>
    rw [ServiceCall.run]
    obtain hc | hc | hc := newStoreSes_cases ret x port
    · rw [hc]
    · rw [hc]
      exact Nat.le_succ _
    · rw [hc]
      exact Nat.le_succ _
  | startStoreSes sesid =>
    rw [ServiceCall.run, startStoreSes]
    split <;> exact Nat.le_refl _
  | stopStoreSes sesid =>
    rw [ServiceCall.run, stopStoreSes]
    split <;> exact Nat.le_refl _
  | attatchLive sesid addr =>
    rw [ServiceCall.run, attatchLive]
    split <;> exact Nat.le_refl _
  | detachLive sesid addr =>
    rw [ServiceCall.run, detachLive]
    split <;> exact Nat.le_refl _

theorem Accounted.run (h : Accounted x) (call : ServiceCall) : Accounted (call.run ret x) := by
  refine ⟨distinct_admin h.distinct call, fun task ht => ?_⟩
  rw [storeLoop_run, List.mem_append] at ht
  cases ht with
  | inl hold => exact Nat.lt_of_lt_of_le (h.queued_lt task hold) (made_le_run ret call x)
  | inr hnew =>
    have found : ∀ {sesid : UInt64} {f : StoreSession → StoreTask},
        (∀ ses, (f ses).ses = ses.serial) → task ∈ x.storeSess_[sesid]?.toList.map f →
          task.ses < (call.run ret x).made := by
      intro sesid f hf hmem
      obtain ⟨ses, hs, rfl⟩ := List.mem_map.mp hmem
      rw [hf]
      exact Nat.lt_of_lt_of_le (h.distinct.serial_lt sesid ses (Option.mem_toList.mp hs))
        (made_le_run ret call x)
    cases call with
    | newStoreSes port =>
      rw [ServiceCall.queues] at hnew
      split_ifs at hnew with hlt
      · rw [List.mem_singleton.mp hnew, ServiceCall.run]
        simp only [newStoreSes, hlt, if_true]
        split_ifs <;> exact Nat.lt_succ_self _
      · exact absurd hnew List.not_mem_nil
    | startStoreSes sesid => exact found (fun _ => rfl) hnew
    | stopStoreSes sesid => exact found (fun _ => rfl) hnew
    | attatchLive sesid addr => exact found (fun _ => rfl) hnew
    | detachLive sesid addr => exact found (fun _ => rfl) hnew

theorem accounted_afterCalls (ret : Nat → Int) (u : List ServiceCall) :
    Accounted (afterCalls ret u) := by
  induction u using List.reverseRecOn with
  | nil =>
    exact ⟨⟨fun id ses hs => by simp [afterCalls] at hs,
      fun id id' ses ses' hs => by simp [afterCalls] at hs, Nat.le_refl 0⟩,
      fun t ht => absurd ht List.not_mem_nil⟩
  | append_singleton u call ih =>
    rw [afterCalls_snoc]
    exact ih.run call

theorem Accounted.total_change (h : Accounted x) {f g : Nat → Nat} {sesid : UInt64}
    {ses : StoreSession} (hs : x.storeSess_[sesid]? = some ses)
    (hother : ∀ n, n ≠ ses.serial → g n = f n) :
    total (fun a => g a.serial) x.storeSess_ + f ses.serial =
      total (fun a => f a.serial) x.storeSess_ + g ses.serial := by
  refine Tables.total_change (f := fun a => f a.serial) (g := fun a => g a.serial) hs
    fun id a hid ha => (hother a.serial fun heq => ?_).symm
  exact hid (h.distinct.serial_inj id sesid a ses ha hs heq)

end Queued

section Started
variable {ret : Nat → Int} {x : SessionService}

theorem started_run (ret : Nat → Int) (call : ServiceCall) (x : SessionService) (n : Nat) :
    (call.run ret x).started n = true ↔ x.started n = true ∨
      ∃ sesid ses, call = .startStoreSes sesid ∧ x.storeSess_[sesid]? = some ses ∧
        ses.serial = n := by
  simp only [SessionService.started, decide_eq_true_iff, storeLoop_run, List.mem_append]
  refine or_congr_right ?_
  cases call with
  | newStoreSes port =>
    rw [ServiceCall.queues]
    split_ifs <;> simp
  | startStoreSes sesid => simp [ServiceCall.queues]
  | stopStoreSes sesid => simp [ServiceCall.queues]
  | attatchLive sesid addr => simp [ServiceCall.queues]
  | detachLive sesid addr => simp [ServiceCall.queues]

theorem started_iff (ret : Nat → Int) (u : List ServiceCall) (n : Nat) :
    (afterCalls ret u).started n = true ↔ ∃ v sesid ses, v ++ [.startStoreSes sesid] <+: u ∧
      (afterCalls ret v).storeSess_[sesid]? = some ses ∧ ses.serial = n := by
  induction u using List.reverseRecOn with
  | nil => simp [afterCalls, SessionService.started]
  | append_singleton u call ih =>
    rw [afterCalls_snoc, started_run, ih]
    constructor
    · intro h
      cases h with
      | inl hold =>
        obtain ⟨v, sesid, ses, hv, hs⟩ := hold
        exact ⟨v, sesid, ses, hv.trans (List.prefix_append _ _), hs⟩
      | inr hnew =>
        obtain ⟨sesid, ses, rfl, hs⟩ := hnew
        exact ⟨u, sesid, ses, List.prefix_refl _, hs⟩
    · rintro ⟨v, sesid, ses, hv, hs⟩
      cases List.prefix_concat_iff.mp hv with
      | inl heq =>
        obtain ⟨rfl, rfl⟩ : v = u ∧ .startStoreSes sesid = call := by simpa using heq
        exact .inr ⟨sesid, ses, rfl, hs⟩
      | inr hold => exact .inl ⟨v, sesid, ses, hold, hs⟩

theorem started_run_other (ret : Nat → Int) (call : ServiceCall)
    (hc : ∀ sesid, call ≠ .startStoreSes sesid) (x : SessionService) (n : Nat) :
    (call.run ret x).started n = x.started n := by
  rw [Bool.eq_iff_iff, started_run]
  exact or_iff_left fun ⟨sesid, _, heq, _⟩ => hc sesid heq

theorem Accounted.not_started (h : Accounted x) : x.started x.made = false := by
  rw [SessionService.started, decide_eq_false_iff_not]
  exact fun hmem => absurd (h.queued_lt _ hmem) (Nat.lt_irrefl _)

theorem newStoreSes_counts (h : Accounted x)
    (hcount : x.storeSesCount_.toNat = startedCount x) (port : UInt16) :
    (x.newStoreSes ret port).2.storeSesCount_.toNat = startedCount (x.newStoreSes ret port).2 ↔
      KeepsStoreCount ret (.newStoreSes port) x := by
  rw [KeepsStoreCount]
  have hsame : ∀ n, (x.newStoreSes ret port).2.started n = x.started n :=
    started_run_other ret (.newStoreSes port) (by simp) x
  simp only [startedCount, hsame]
  by_cases hlt : x.storeSesCount_ < x.maxStoreConn_
  swap
  · rw [newStoreSes_refused hlt]
    exact ⟨fun _ h' => absurd h' hlt, fun _ => hcount⟩
  by_cases hr : ret x.made = 0
  swap
  · rw [newStoreSes_failed hlt hr]
    exact ⟨fun _ _ h' => absurd h' hr, fun _ => hcount⟩
  rw [newStoreSes_kept hlt hr, safeCall_storeSesCount, hcount, startedCount, eq_comm]
  rw [total_insert_iff (by simp [h.not_started])]
  simp only [hlt, hr, forall_const]
  refine forall₂_congr fun ses _ => ?_
  cases x.started ses.serial <;> simp

theorem started_startStoreSes {sesid : UInt64} {ses : StoreSession}
    (hs : x.storeSess_[sesid]? = some ses) (n : Nat) :
    (x.startStoreSes sesid).started n = true ↔ x.started n = true ∨ n = ses.serial := by
  have hstep := started_run (fun _ => 0) (.startStoreSes sesid) x n
  rw [ServiceCall.run] at hstep
  rw [hstep]
  refine or_congr_right ⟨?_, fun h => ⟨sesid, ses, rfl, hs, h.symm⟩⟩
  rintro ⟨_, ses', heq, hs', rfl⟩
  cases heq
  cases hs.symm.trans hs'
  rfl

theorem startedCount_start (h : Accounted x) {sesid : UInt64} {ses : StoreSession}
    (hs : x.storeSess_[sesid]? = some ses) :
    startedCount (x.startStoreSes sesid) + (if x.started ses.serial then 1 else 0) =
      startedCount x + 1 := by
  have hself : (x.startStoreSes sesid).started ses.serial = true :=
    (started_startStoreSes hs _).mpr (.inr rfl)
  have hsess : (x.startStoreSes sesid).storeSess_ = x.storeSess_ := by
    rw [startStoreSes_some hs]
    rfl
  have hone := h.total_change (f := fun n => if x.started n then 1 else 0)
    (g := fun n => if (x.startStoreSes sesid).started n then 1 else 0) hs
    fun n hn => by simp only [started_startStoreSes hs, hn, or_false]
  simp only [hself, if_true] at hone
  rw [startedCount, hsess]
  exact hone

theorem startStoreSes_counts (h : Accounted x)
    (hcount : x.storeSesCount_.toNat = startedCount x) (sesid : UInt64) :
    (x.startStoreSes sesid).storeSesCount_.toNat = startedCount (x.startStoreSes sesid) ↔
      KeepsStoreCount ret (.startStoreSes sesid) x := by
  rw [KeepsStoreCount]
  cases hs : x.storeSess_[sesid]? with
  | none =>
    rw [startStoreSes_none hs]
    exact ⟨fun _ _ hses => absurd hses (by simp), fun _ => hcount⟩
  | some ses =>
    have hchange := startedCount_start h hs
    have hstored : (x.startStoreSes sesid).storeSesCount_ = x.storeSesCount_ + 1 := by
      rw [startStoreSes_some hs]
      rfl
    simp only [hstored, Option.some.injEq, forall_eq']
    cases hold : x.started ses.serial with
    | true =>
      simp only [hold, if_true] at hchange
      exact ⟨fun heq => absurd (by omega) (counter_succ_ne x.storeSesCount_),
        fun hk => nomatch hk.1⟩
    | false =>
      simp only [hold, Bool.false_eq_true, if_false, Nat.add_zero] at hchange
      rw [← counter_succ_iff, hchange, hcount]
      simp

theorem stopStoreSes_counts (hcount : x.storeSesCount_.toNat = startedCount x) (sesid : UInt64) :
    (x.stopStoreSes sesid).storeSesCount_.toNat = startedCount (x.stopStoreSes sesid) ∧
        ¬ StoreCountWraps (.stopStoreSes sesid) x ↔
      KeepsStoreCount ret (.stopStoreSes sesid) x := by
  rw [KeepsStoreCount, StoreCountWraps]
  have hsame : ∀ n, (x.stopStoreSes sesid).started n = x.started n :=
    started_run_other ret (.stopStoreSes sesid) (by simp) x
  simp only [startedCount, hsame]
  cases hs : x.storeSess_[sesid]? with
  | none =>
    rw [stopStoreSes_none hs]
    exact ⟨fun _ _ hses => absurd hses (by simp),
      fun _ => ⟨hcount, fun hw => get_none_iff.mp hs hw.1⟩⟩
  | some ses =>
    have hmem : sesid ∈ x.storeSess_ := mem_iff_get.mpr ⟨ses, hs⟩
    have herase := total_erase (f := fun a => if x.started a.serial then 1 else 0) hs
    rw [startedCount] at hcount
    rw [stopStoreSes_some hs]
    simp only [safeCall_storeSesCount, Option.some.injEq, forall_eq', hmem, true_and]
    cases hold : x.started ses.serial with
    | true =>
      simp only [hold, if_true] at herase
      have hne : x.storeSesCount_ ≠ 0 := counter_ne_zero (by omega)
      have hpred := counter_pred hne
      exact ⟨fun _ => rfl, fun _ => ⟨by omega, hne⟩⟩
    | false =>
      simp only [hold] at herase
      refine ⟨fun h => ?_, fun h => ?_⟩
      · have heq := h.1
        exact absurd (by simp at herase; omega) (counter_pred_ne x.storeSesCount_)
      · cases h

end Started

section Run
variable {ret : Nat → Int}

theorem storeCount_step {u : List ServiceCall} {call : ServiceCall}
    (hcount : (afterCalls ret u).storeSesCount_.toNat = startedCount (afterCalls ret u)) :
    StoreCountExact ret (u ++ [call]) ↔ KeepsStoreCount ret call (afterCalls ret u) := by
  have h := accounted_afterCalls ret u
  rw [StoreCountExact, afterCalls_snoc,
    last_iff (R := fun v call => ¬ StoreCountWraps call (afterCalls ret v))]
  have viewer : ∀ {y : SessionService}, (∀ n, y.started n = (afterCalls ret u).started n) →
      y.storeSess_ = (afterCalls ret u).storeSess_ →
      y.storeSesCount_ = (afterCalls ret u).storeSesCount_ →
        y.storeSesCount_.toNat = startedCount y := by
    intro y hstarted hsess hstored
    rw [hstored, hcount, startedCount, startedCount, hsess]
    simp only [hstarted]
  cases call with
  | newStoreSes port =>
    rw [← newStoreSes_counts h hcount]
    exact and_iff_left not_false
  | startStoreSes sesid =>
    rw [← startStoreSes_counts h hcount]
    exact and_iff_left not_false
  | stopStoreSes sesid =>
    rw [← stopStoreSes_counts hcount]
    rfl
  | attatchLive sesid addr =>
    exact ⟨fun _ => trivial, fun _ => ⟨viewer (started_run_other ret _ (by simp) _)
      (attatchLive_storeSess _ sesid addr) (attatchLive_storeSesCount _ sesid addr), id⟩⟩
  | detachLive sesid addr =>
    exact ⟨fun _ => trivial, fun _ => ⟨viewer (started_run_other ret _ (by simp) _)
      (detachLive_storeSess _ sesid addr) (detachLive_storeSesCount _ sesid addr), id⟩⟩

/-- The counter of started sessions is exact after every call of a sequence when, and only when,
every call keeps it. -/
theorem store_count_throughout_iff (ret : Nat → Int) (calls : List ServiceCall) :
    (∀ u, u <+: calls → StoreCountExact ret u) ↔
      ∀ u call, u ++ [call] <+: calls → KeepsStoreCount ret call (afterCalls ret u) := by
  have hstart : (afterCalls ret []).storeSesCount_.toNat = startedCount (afterCalls ret []) := rfl
  refine prefix_iff (fun u => (afterCalls ret u).storeSesCount_.toNat =
    startedCount (afterCalls ret u)) calls ⟨hstart, ?_⟩ hstart ?_ ?_
  · intro v call hv
    simp at hv
  · exact fun u call _ hcount => storeCount_step hcount
  · exact fun u call _ _ hexact => hexact.1

end Run

/-- Stopped before any start the counter wraps, and after a second start it is one too high. -/
theorem store_count_astray :
    (afterCalls (fun _ => 0) [.newStoreSes 3000, .stopStoreSes 1]).storeSesCount_ = -1 ∧
      ¬ StoreCountExact (fun _ => 0) [.newStoreSes 3000, .stopStoreSes 1] ∧
      ¬ StoreCountExact (fun _ => 0)
        [.newStoreSes 3000, .startStoreSes 1, .startStoreSes 1] := by
  refine ⟨by decide, fun h => ?_, fun h => ?_⟩
  · exact h.2 [.newStoreSes 3000] (.stopStoreSes 1) rfl ⟨by decide, rfl⟩
  · exact absurd h.1 (by decide)

def StoreTask.viewers (n : Nat) : StoreTask → List Ip4Addr → List Ip4Addr
  | .addOutStream ses addr, l => if ses = n then l ++ [addr] else l
  | .removeOutStream ses addr, l => if ses = n then l.erase addr else l
  | _, l => l

/-- The viewers that the session `n` has when all that was queued has run. -/
def SessionService.viewers (x : SessionService) (n : Nat) : List Ip4Addr :=
  x.storeLoop_.foldl (fun l task => task.viewers n l) []

def viewerCount (x : SessionService) : Nat :=
  total (fun ses => (x.viewers ses.serial).length) x.storeSess_

def LiveCountWraps : ServiceCall → SessionService → Prop
  | .detachLive sesid _, x => sesid ∈ x.storeSess_ ∧ x.liveSesCount_ = 0
  | _, _ => False

/-- After the calls `u`, and once the store loop has executed what they queued, the counter says
how long the lists of viewers are together; and the last call did not take it below zero. -/
def LiveCountExact (ret : Nat → Int) (u : List ServiceCall) : Prop :=
  (∀ os zeroed others w,
    run (StoreLoop.exec os) (afterCalls ret u).storeLoop_ (StoreLoop.start zeroed others) = .ok w →
      (afterCalls ret u).liveSesCount_.toNat = total
        (fun ses => (w.sessions ses.serial).outStreamVec_.length) (afterCalls ret u).storeSess_) ∧
    ∀ v call, u = v ++ [call] → ¬ LiveCountWraps call (afterCalls ret v)

/-- The calls that keep the counter: a session goes without viewers, and a viewer is detached
from a session that has it. -/
def KeepsLiveCount (ret : Nat → Int) : ServiceCall → SessionService → Prop
  | .newStoreSes _, x => x.storeSesCount_ < x.maxStoreConn_ → ret x.made = 0 →
    ∀ ses, x.storeSess_[x.id_ + 1]? = some ses → x.viewers ses.serial = []
  | .startStoreSes _, _ => True
  | .stopStoreSes sesid, x => ∀ ses, x.storeSess_[sesid]? = some ses →
    x.viewers ses.serial = []
  | .attatchLive sesid _, x => sesid ∈ x.storeSess_ → x.liveSesCount_ + 1 ≠ 0
  | .detachLive sesid addr, x => ∀ ses, x.storeSess_[sesid]? = some ses →
    addr ∈ x.viewers ses.serial

section Viewers
variable {ret : Nat → Int} {x : SessionService} {os : Nat → Outcome}
  {w w' : StoreLoop}

theorem exec_viewers {task : StoreTask} (h : StoreLoop.exec os task w = .ok w') (n : Nat) :
    (w'.sessions n).outStreamVec_ = task.viewers n (w.sessions n).outStreamVec_ := by
  by_cases hn : n = task.ses
  · subst hn
    cases task with
    | bindAddr ses =>
      cases h
      simp only [StoreLoop.bindAddr, StoreTask.ses, StoreTask.viewers]
      split <;> simp
    | attatchToLoop ses =>
      cases h
      simp [StoreLoop.attatchToLoop, StoreTask.ses, StoreTask.viewers]
    | closeUDP ses =>
      obtain ⟨-, rfl⟩ | ⟨c, channel, -, -, rfl⟩ := closeUDP_cases h
      · rfl
      · simp [StoreTask.ses, StoreTask.viewers]
    | addOutStream ses addr =>
      cases h
      simp [StoreTask.ses, StoreTask.viewers]
    | removeOutStream ses addr =>
      cases h
      simp [StoreTask.ses, StoreTask.viewers]
  · rw [(frame_exec h).members n hn]
    cases task <;> simp_all [StoreTask.viewers, StoreTask.ses, eq_comm]

theorem run_viewers {tasks : List StoreTask} (h : run (StoreLoop.exec os) tasks w = .ok w')
    (n : Nat) : (w'.sessions n).outStreamVec_ =
      tasks.foldl (fun l task => task.viewers n l) (w.sessions n).outStreamVec_ := by
  induction tasks generalizing w with
  | nil =>
    cases h
    rfl
  | cons task tasks ih =>
    obtain ⟨w₁, hstep, hrest⟩ := run_cons_ok.mp h
    rw [ih hrest, exec_viewers hstep]
    rfl

theorem liveCountExact_iff (ret : Nat → Int) (u : List ServiceCall) : LiveCountExact ret u ↔
    (afterCalls ret u).liveSesCount_.toNat = viewerCount (afterCalls ret u) ∧
      ∀ v call, u = v ++ [call] → ¬ LiveCountWraps call (afterCalls ret v) := by
  refine and_congr_left fun _ => ?_
  have hsame : ∀ {os zeroed others w},
      run (StoreLoop.exec os) (afterCalls ret u).storeLoop_
          (StoreLoop.start zeroed others) = .ok w →
        total (fun ses => (w.sessions ses.serial).outStreamVec_.length)
          (afterCalls ret u).storeSess_ = viewerCount (afterCalls ret u) := by
    intro os zeroed others w hrun
    refine total_congr fun id ses _ => ?_
    rw [run_viewers hrun]
    rfl
  constructor
  · intro h
    have hnull : NoneWild (StoreLoop.start (fun _ => true) []) :=
      fun n => by simp [StoreLoop.start]
    obtain ⟨w, hrun⟩ := hnull.run (channelsOwned_start _ _) (fun _ => .bound)
      (afterCalls ret u).storeLoop_
    rw [h _ _ _ w hrun, hsame hrun]
  · intro h os zeroed others w hrun
    rw [h, hsame hrun]

theorem viewers_run (ret : Nat → Int) (call : ServiceCall) (x : SessionService) (n : Nat) :
    (call.run ret x).viewers n =
      (call.queues x).foldl (fun l task => task.viewers n l) (x.viewers n) := by
  rw [SessionService.viewers, storeLoop_run, List.foldl_append]
  rfl

theorem Accounted.no_viewers (h : Accounted x) : x.viewers x.made = [] := by
  rw [SessionService.viewers]
  generalize hn : x.made = n
  have hother : ∀ task ∈ x.storeLoop_, task.ses ≠ n :=
    fun task ht => Nat.ne_of_lt (hn ▸ h.queued_lt task ht)
  generalize x.storeLoop_ = tasks at hother
  induction tasks with
  | nil => rfl
  | cons task tasks ih =>
    have hne := hother task List.mem_cons_self
    have hnil : task.viewers n [] = [] := by
      cases task <;> simp_all [StoreTask.viewers, StoreTask.ses]
    rw [List.foldl_cons, hnil]
    exact ih fun t ht => hother t (List.mem_cons_of_mem _ ht)

theorem newStoreSes_viewers (ret : Nat → Int) (x : SessionService) (port : UInt16) (n : Nat) :
    (x.newStoreSes ret port).2.viewers n = x.viewers n := by
  have hrun := viewers_run ret (.newStoreSes port) x n
  rw [ServiceCall.run, ServiceCall.queues] at hrun
  rw [hrun]
  split_ifs <;> rfl

theorem startStoreSes_viewers (x : SessionService) (sesid : UInt64) (n : Nat) :
    (x.startStoreSes sesid).viewers n = x.viewers n := by
  have hrun := viewers_run (fun _ => 0) (.startStoreSes sesid) x n
  rw [ServiceCall.run, ServiceCall.queues] at hrun
  rw [hrun]
  cases x.storeSess_[sesid]? <;> rfl

theorem stopStoreSes_viewers (x : SessionService) (sesid : UInt64) (n : Nat) :
    (x.stopStoreSes sesid).viewers n = x.viewers n := by
  have hrun := viewers_run (fun _ => 0) (.stopStoreSes sesid) x n
  rw [ServiceCall.run, ServiceCall.queues] at hrun
  rw [hrun]
  cases x.storeSess_[sesid]? <;> rfl

theorem newStoreSes_views (h : Accounted x)
    (hcount : x.liveSesCount_.toNat = viewerCount x) (port : UInt16) :
    (x.newStoreSes ret port).2.liveSesCount_.toNat = viewerCount (x.newStoreSes ret port).2 ↔
      KeepsLiveCount ret (.newStoreSes port) x := by
  rw [KeepsLiveCount]
  simp only [viewerCount, newStoreSes_viewers]
  by_cases hlt : x.storeSesCount_ < x.maxStoreConn_
  swap
  · rw [newStoreSes_refused hlt]
    exact ⟨fun _ h' => absurd h' hlt, fun _ => hcount⟩
  by_cases hr : ret x.made = 0
  swap
  · rw [newStoreSes_failed hlt hr]
    exact ⟨fun _ _ h' => absurd h' hr, fun _ => hcount⟩
  rw [newStoreSes_kept hlt hr]
  simp only [SessionService.safeCall]
  rw [hcount, viewerCount, eq_comm, total_insert_iff (by simp [h.no_viewers])]
  simp only [hlt, hr, forall_const, List.length_eq_zero_iff]

theorem stopStoreSes_views (hcount : x.liveSesCount_.toNat = viewerCount x) (sesid : UInt64) :
    (x.stopStoreSes sesid).liveSesCount_.toNat = viewerCount (x.stopStoreSes sesid) ↔
      KeepsLiveCount ret (.stopStoreSes sesid) x := by
  rw [KeepsLiveCount]
  simp only [viewerCount, stopStoreSes_viewers]
  cases hs : x.storeSess_[sesid]? with
  | none =>
    rw [stopStoreSes_none hs]
    exact ⟨fun _ _ hses => absurd hses (by simp), fun _ => hcount⟩
  | some ses =>
    have herase := total_erase (f := fun a => (x.viewers a.serial).length) hs
    rw [stopStoreSes_some hs]
    simp only [SessionService.safeCall, hcount, viewerCount, Option.some.injEq, forall_eq']
    rw [← List.length_eq_zero_iff]
    omega

theorem viewerCount_change (h : Accounted x) {y : SessionService} {sesid : UInt64}
    {ses : StoreSession} (hs : x.storeSess_[sesid]? = some ses)
    (hsess : y.storeSess_ = x.storeSess_)
    (hother : ∀ n, n ≠ ses.serial → y.viewers n = x.viewers n) :
    viewerCount y + (x.viewers ses.serial).length =
      viewerCount x + (y.viewers ses.serial).length := by
  rw [viewerCount, hsess]
  exact h.total_change (f := fun n => (x.viewers n).length) (g := fun n => (y.viewers n).length)
    hs fun n hn => congrArg List.length (hother n hn)

theorem attatchLive_views (h : Accounted x) (hcount : x.liveSesCount_.toNat = viewerCount x)
    (sesid : UInt64) (addr : Ip4Addr) :
    (x.attatchLive sesid addr).liveSesCount_.toNat = viewerCount (x.attatchLive sesid addr) ↔
      KeepsLiveCount ret (.attatchLive sesid addr) x := by
  rw [KeepsLiveCount]
  have hrun := viewers_run ret (.attatchLive sesid addr) x
  simp only [ServiceCall.run, ServiceCall.queues] at hrun
  obtain ⟨hs, hc⟩ | ⟨ses, hs, hc⟩ := attatchLive_cases x sesid addr
  · rw [hc]
    exact ⟨fun _ hmem => absurd hmem (get_none_iff.mp hs), fun _ => hcount⟩
  · have hmem : sesid ∈ x.storeSess_ := mem_iff_get.mpr ⟨ses, hs⟩
    have hstored : (x.attatchLive sesid addr).liveSesCount_ = x.liveSesCount_ + 1 := by
      rw [hc]
      rfl
    have hchange := viewerCount_change h hs (attatchLive_storeSess x sesid addr) fun n hn => by
      rw [hrun]
      simp [hs, StoreTask.viewers, Ne.symm hn]
    rw [hrun ses.serial] at hchange
    simp only [hs, Option.toList_some, List.map_cons, List.map_nil, List.foldl_cons,
      List.foldl_nil, StoreTask.viewers, if_true, List.length_append, List.length_cons,
      List.length_nil] at hchange
    rw [hstored, ← counter_succ_iff, hcount]
    simp only [hmem, forall_const]
    omega

theorem detachLive_views (h : Accounted x) (hcount : x.liveSesCount_.toNat = viewerCount x)
    (sesid : UInt64) (addr : Ip4Addr) :
    (x.detachLive sesid addr).liveSesCount_.toNat = viewerCount (x.detachLive sesid addr) ∧
        ¬ LiveCountWraps (.detachLive sesid addr) x ↔
      KeepsLiveCount ret (.detachLive sesid addr) x := by
  rw [KeepsLiveCount, LiveCountWraps]
  have hrun := viewers_run ret (.detachLive sesid addr) x
  simp only [ServiceCall.run, ServiceCall.queues] at hrun
  obtain ⟨hs, hc⟩ | ⟨ses, hs, hc⟩ := detachLive_cases x sesid addr
  · rw [hc]
    exact ⟨fun _ ses hses => absurd (hs.symm.trans hses) (by simp),
      fun _ => ⟨hcount, fun hw => get_none_iff.mp hs hw.1⟩⟩
  · have hmem : sesid ∈ x.storeSess_ := mem_iff_get.mpr ⟨ses, hs⟩
    have hstored : (x.detachLive sesid addr).liveSesCount_ = x.liveSesCount_ - 1 := by
      rw [hc]
      rfl
    have hchange := viewerCount_change h hs (detachLive_storeSess x sesid addr) fun n hn => by
      rw [hrun]
      simp [hs, StoreTask.viewers, Ne.symm hn]
    rw [hrun ses.serial] at hchange
    simp only [hs, Option.toList_some, List.map_cons, List.map_nil, List.foldl_cons,
      List.foldl_nil, StoreTask.viewers, if_true] at hchange
    simp only [hstored, hs, hmem, Option.some.injEq, forall_eq', true_and]
    by_cases haddr : addr ∈ x.viewers ses.serial
    · have hlen := List.length_erase_of_mem haddr
      have hpos := List.length_pos_of_mem haddr
      have hle : (x.viewers ses.serial).length ≤ viewerCount x := by
        have herase := total_erase (f := fun a => (x.viewers a.serial).length) hs
        rw [viewerCount]
        omega
      have hne : x.liveSesCount_ ≠ 0 := counter_ne_zero (by omega)
      have hpred := counter_pred hne
      exact ⟨fun _ => haddr, fun _ => ⟨by omega, hne⟩⟩
    · rw [List.erase_of_not_mem haddr] at hchange
      refine ⟨fun h => ?_, fun hin => absurd hin haddr⟩
      have heq := h.1
      exact absurd (by omega) (counter_pred_ne x.liveSesCount_)

end Viewers

/-- The counter of viewers is exact after every call of a sequence, with the queue executed, when
and only when every call keeps it. -/
theorem live_count_throughout_iff (ret : Nat → Int) (calls : List ServiceCall) :
    (∀ u, u <+: calls → LiveCountExact ret u) ↔
      ∀ u call, u ++ [call] <+: calls → KeepsLiveCount ret call (afterCalls ret u) := by
  have hstart : (afterCalls ret []).liveSesCount_.toNat = viewerCount (afterCalls ret []) := rfl
  refine prefix_iff (fun u => (afterCalls ret u).liveSesCount_.toNat =
    viewerCount (afterCalls ret u)) calls ?_ hstart ?_ ?_
  · refine (liveCountExact_iff ret []).mpr ⟨hstart, fun v call hv => ?_⟩
    simp at hv
  · intro u call _ hcount
    have h := accounted_afterCalls ret u
    rw [liveCountExact_iff, afterCalls_snoc,
      last_iff (R := fun v call => ¬ LiveCountWraps call (afterCalls ret v))]
    cases call with
    | newStoreSes port =>
      rw [← newStoreSes_views h hcount]
      exact and_iff_left not_false
    | startStoreSes sesid =>
      refine ⟨fun _ => trivial, fun _ => ⟨?_, id⟩⟩
      simp only [ServiceCall.run, viewerCount, startStoreSes_viewers]
      simp only [startStoreSes]
      split <;> exact hcount
    | stopStoreSes sesid =>
      rw [← stopStoreSes_views hcount]
      exact and_iff_left not_false
    | attatchLive sesid addr =>
      rw [← attatchLive_views h hcount]
      exact and_iff_left not_false
    | detachLive sesid addr =>
      rw [← detachLive_views h hcount]
      rfl
  · exact fun u call _ _ hexact => ((liveCountExact_iff ret (u ++ [call])).mp hexact).1

/-- A session that is stopped takes its viewer along and the counter keeps it; a viewer that was
never attached is counted off below zero. -/
theorem live_count_astray :
    let addr : Ip4Addr := { host := "127.0.0.1", port := 4000 }
    (afterCalls (fun _ => 0) [.newStoreSes 3000, .detachLive 1 addr]).liveSesCount_ = -1 ∧
      ¬ LiveCountExact (fun _ => 0)
        [.newStoreSes 3000, .attatchLive 1 addr, .stopStoreSes 1] ∧
      ¬ LiveCountExact (fun _ => 0) [.newStoreSes 3000, .detachLive 1 addr] := by
  intro addr
  refine ⟨by decide, fun h => ?_, fun h => ?_⟩
  · exact absurd ((liveCountExact_iff _ _).mp h).1 (by decide)
  · exact h.2 [.newStoreSes 3000] (.detachLive 1 addr) rfl ⟨by decide, rfl⟩

end LazyNet.Sessions
