import LazyNet.PlanChecks

/-! Streams that are to be stopped together: those that an update leaves out, those that wait in
`delPlans_`, and all of them. The loops that stop them erase the element at which they stand. -/
namespace LazyNet.Streams
open LazyNet.Tables LazyNet.ExternalMsgCodec LazyNet.MsDsProtocol LazyNet.Sessions LazyNet.StepRuns
open StreamMgr
variable {m m' : StreamMgr} {msg : StorePlan}

def idsOf (msg : StorePlan) : List String :=
  msg.streamplaninfo.map StreamPlanInfo.streamid

/-- What an update is to do to the plans of before: they become the previous ones, the dropped
streams are queued for deletion, and those that are planned again are not. -/
structure DiffExact (m : StreamMgr) (msg : StorePlan) (m' : StreamMgr) : Prop where
  previous : m'.prePlans_ = m.curPlans_
  queued : ∀ s, s ∈ m'.delPlans_ ↔
    (s ∈ m.delPlans_ ∨ s ∈ m.curPlans_ ∧ s ∉ idsOf msg) ∧ s ∉ idsOf msg

theorem updateStorePlan_prePlans (h : msg.empty = false) :
    (updateStorePlan msg m).prePlans_ = m.curPlans_ := by
  simp [updateStorePlan, h, diffStorePlan_eq]

/-- The plans are compared exactly where there is nothing to queue and nothing to take back. -/
theorem diff_exact_iff (hmsg : msg.empty = false) :
    DiffExact m msg (updateStorePlan msg m) ↔
      (∀ s ∈ idsOf msg, s ∉ m.delPlans_) ∧
        ∀ s ∈ m.curPlans_, s ∉ idsOf msg → s ∈ m.delPlans_ := by
  have hdel : (updateStorePlan msg m).delPlans_ = m.delPlans_ := (updateStorePlan_frame msg m).2.2.1
  constructor
  · intro hexact
    have hqueued := hexact.queued
    rw [hdel] at hqueued
    constructor
    · intro s hs hwaits
      exact ((hqueued s).mp hwaits).2 hs
    · intro s hcur hs
      exact (hqueued s).mpr ⟨.inr ⟨hcur, hs⟩, hs⟩
  · intro ⟨hagain, hdropped⟩
    refine ⟨updateStorePlan_prePlans hmsg, fun s => ?_⟩
    rw [hdel]
    constructor
    · intro hwaits
      exact ⟨.inl hwaits, fun hs => hagain s hs hwaits⟩
    · intro ⟨hcase, hs⟩
      cases hcase with
      | inl hwaits => exact hwaits
      | inr hcur => exact hdropped s hcur.1 hs

/-- After a plan for streams a and b, one that keeps both is compared as it should be, one that
drops a is not. -/
theorem diff_exact_second_plan :
    let m := updateStorePlan (mondayPlans ["a", "b"] 9) {}
    DiffExact m (mondayPlans ["a", "b", "c"] 9)
        (updateStorePlan (mondayPlans ["a", "b", "c"] 9) m) ∧
      ¬ DiffExact m (mondayPlans ["b", "c"] 9) (updateStorePlan (mondayPlans ["b", "c"] 9) m) := by
  intro m
  have hnone : m.delPlans_ = ∅ := rfl
  have hkeys : m.curPlans_.toList.map Prod.fst = ["a", "b"] := by decide
  have hcur : ∀ s, s ∈ m.curPlans_ ↔ s ∈ ["a", "b"] := fun s => by rw [← hkeys, mem_keys]
  constructor
  · refine (diff_exact_iff rfl).mpr ⟨fun s _ => by simp [hnone], fun s hs hout => ?_⟩
    have hin : ∀ s ∈ ["a", "b"], s ∈ idsOf (mondayPlans ["a", "b", "c"] 9) := by decide
    exact absurd (hin s ((hcur s).mp hs)) hout
  · intro hexact
    have hqueued := ((diff_exact_iff rfl).mp hexact).2 "a" ((hcur "a").mpr (by decide)) (by decide)
    simp [hnone] at hqueued

/-- Stream a was planned, the next plan has stream b alone, and a is not queued. -/
theorem dropped_stream_not_queued :
    ¬ DiffExact (updateStorePlan (mondayPlan "a" 9) {}) (mondayPlan "b" 9)
      (updateStorePlan (mondayPlan "b" 9) (updateStorePlan (mondayPlan "a" 9) {})) := by
  intro hexact
  have hqueued := (hexact.queued "a").mpr ⟨.inr ⟨by decide, by decide⟩, by decide⟩
  exact absurd hqueued (by decide)

def byeOf (info : StoreSesInfo) : Event := .send (.name "MS_DS.Bye" info.para1 info.para2 0)

def closeOf (m : StreamMgr) (info : StoreSesInfo) : Option StoreTask :=
  (m.sesServicePtr_.storeSess_[info.sessionId]?).map fun ses => .closeUDP ses.serial

def waiting (m : StreamMgr) : List String := m.delPlans_.toList.map fun p => p.2.streamId

structure Swept (m m' : StreamMgr) (evs : List Event) : Prop where
  emptied : m'.delPlans_ = ∅
  sessions : ∀ s, m'.storeSess_[s]? = if s ∈ waiting m then none else m.storeSess_[s]?
  byes : evs.Perm ((waiting m).filterMap fun s => m.storeSess_[s]?.map byeOf)
  stops : ∃ tasks, m'.sesServicePtr_.storeLoop_ = m.sesServicePtr_.storeLoop_ ++ tasks ∧
    tasks.Perm ((waiting m).filterMap fun s => m.storeSess_[s]?.bind (closeOf m))

/-- The loop ends, with every call on a session and every step of its iterator well defined. -/
def SweepsSafely (m : StreamMgr) : Prop :=
  ∃ m' evs, sweepDelPlans m = .ok m' ∧ Since m m' evs ∧ Swept m m' evs

theorem toList_eq_nil {β : Type} {t : OrdMap String β} (h : t.toList = []) : t = ∅ := by
  have hsize := Std.ExtTreeMap.length_toList (t := t)
  rw [h] at hsize
  exact Std.ExtTreeMap.eq_empty_iff_size_eq_zero.mpr hsize.symm

theorem sweepDelPlans_ok (h : sweepDelPlans m = .ok m') : m.delPlans_ = ∅ ∧ m' = m := by
  simp only [sweepDelPlans] at h
  split at h
  case h_1 hnil =>
    cases h
    exact ⟨toList_eq_nil hnil, rfl⟩
  case h_2 =>
    obtain ⟨m₁, -, herr⟩ := seq_ok_iff.mp h
    cases herr

/-- The sweep goes well exactly when nothing waits to be deleted. -/
theorem sweep_safe_iff (m : StreamMgr) : SweepsSafely m ↔ m.delPlans_ = ∅ := by
  constructor
  · intro ⟨m', evs, hrun, _⟩
    exact (sweepDelPlans_ok hrun).1
  · intro hempty
    have hlist : m.delPlans_.toList = [] := by
      rw [hempty]
      rfl
    have hnone : waiting m = [] := by rw [waiting, hlist, List.map_nil]
    refine ⟨m, [], by simp only [sweepDelPlans, hlist], .refl m, hempty, fun s => ?_, ?_, [], ?_,
      ?_⟩
    · simp [hnone]
    · simp [hnone]
    · simp
    · simp [hnone]

/-- With one stream queued that has no entry the call goes to the null session; with one that is
recorded the loop goes on from the element it has erased. -/
theorem queued_stream_faults :
    (sweepDelPlans { delPlans_ := (updateStorePlan (mondayPlan "a" 9) {}).curPlans_ }).map
      StreamMgr.log = .error .nullSession ∧
    ((run (step fun _ => 0) [.update (mondayPlan "a" 9), .check 1 9] {}).bind fun m =>
      (sweepDelPlans { m with delPlans_ := m.curPlans_ }).map StreamMgr.log) =
        .error .danglingIterator ∧
    ¬ SweepsSafely { delPlans_ := (updateStorePlan (mondayPlan "a" 9) {}).curPlans_ } := by
  have hfault : (sweepDelPlans
      { delPlans_ := (updateStorePlan (mondayPlan "a" 9) {}).curPlans_ }).map StreamMgr.log =
        .error .nullSession := by decide
  refine ⟨hfault, by decide, fun ⟨m', evs, hrun, _⟩ => ?_⟩
  rw [hrun] at hfault
  cases hfault

/-- What `stopAllStream` is to bring about, the streams taken in the order of their keys. -/
structure AllStopped (m m' : StreamMgr) (evs : List Event) : Prop where
  emptied : m'.storeSess_ = ∅
  byes : evs = m.storeSess_.toList.map fun p => byeOf p.2
  stops : m'.sesServicePtr_.storeLoop_ = m.sesServicePtr_.storeLoop_ ++
    m.storeSess_.toList.filterMap fun p => closeOf m p.2
  plans : m'.prePlans_ = m.prePlans_ ∧ m'.curPlans_ = m.curPlans_ ∧ m'.delPlans_ = m.delPlans_

def StopsAll (m : StreamMgr) : Prop :=
  ∃ m' evs, stopAllStream m = .ok m' ∧ Since m m' evs ∧ AllStopped m m' evs

theorem stopAllStream_ok (h : stopAllStream m = .ok m') :
    m.storeSess_ = ∅ ∧ m' = { m with storeSess_ := ∅ } := by
  simp only [stopAllStream] at h
  split at h
  case h_1 hnil =>
    cases h
    exact ⟨toList_eq_nil hnil, rfl⟩
  case h_2 =>
    obtain ⟨m₁, -, herr⟩ := seq_ok_iff.mp h
    cases herr

/-- All streams are stopped in order exactly when there is none. -/
theorem stops_all_iff (m : StreamMgr) : StopsAll m ↔ m.storeSess_ = ∅ := by
  constructor
  · intro ⟨m', evs, hrun, _⟩
    exact (stopAllStream_ok hrun).1
  · intro hempty
    have hlist : m.storeSess_.toList = [] := by
      rw [hempty]
      rfl
    refine ⟨{ m with storeSess_ := ∅ }, [], by simp only [stopAllStream, hlist], ?_, rfl, ?_, ?_,
      rfl, rfl, rfl⟩
    · simp [Since]
    · simp [hlist]
    · simp [hlist]

/-- One stream is recorded; the loop sends its Bye and goes on from the element it has erased. -/
theorem stop_all_goes_astray : ∃ m,
    run (step fun _ => 0) [.update (mondayPlan "a" 9), .check 1 9] {} = .ok m ∧
      (stopAllStream m).map StreamMgr.log = .error .danglingIterator ∧ ¬ StopsAll m := by
  have hrun : (run (step fun _ => 0) [.update (mondayPlan "a" 9), .check 1 9] {}).map
      (fun m => decide ((stopAllStream m).map StreamMgr.log = .error .danglingIterator)) =
        .ok true := by decide
  obtain ⟨m, hm, hend⟩ := map_ok_iff.mp hrun
  rw [decide_eq_true_eq] at hend
  refine ⟨m, hm, hend, fun ⟨m', evs, hstop, _⟩ => ?_⟩
  rw [hstop] at hend
  cases hend

end LazyNet.Streams
