import LazyNet.StreamSteps

/-! What the periodic check makes of the plans: the sessions it has recorded, those it forgets,
and the answers that arrive for streams without a session. -/
namespace LazyNet.Streams
open LazyNet.Tables LazyNet.ExternalMsgCodec LazyNet.MsDsProtocol LazyNet.Sessions LazyNet.StepRuns
open StreamMgr
variable {ret : Nat → Int} {m : StreamMgr}

/-- The store time that a plan message sets for a stream on a day: that of the last phrase with
this day in the last info of the stream. -/
def storeTime (msg : StorePlan) (d : Fin 8) (s : String) : UInt32 :=
  match lastFor StreamPlanInfo.streamid s msg.streamplaninfo with
  | none => 0
  | some info =>
    match lastFor (fun p => p.weekday.number) d info.storetimephrase with
    | none => 0
    | some phrase => phrase.storetime

theorem timePhrase_ofInfo (info : StreamPlanInfo) (d : Fin 8) :
    (Plan.ofInfo info).timePhrase.get d =
      ((lastFor (fun p => p.weekday.number) d info.storetimephrase).map
        StoreTimePhrase.storetime).getD 0 := by
  have hget : (Plan.ofInfo info).timePhrase.get d = (Plan.ofInfo info).timePhrase[d] := rfl
  rw [hget]
  simp only [Plan.ofInfo]
  rw [foldl_set_get (fun p => p.weekday.number) StoreTimePhrase.storetime]
  simp

theorem wanted_ofInfo {msg : StorePlan} {s : String} {info : StreamPlanInfo}
    (h : lastFor StreamPlanInfo.streamid s msg.streamplaninfo = some info) (d : Fin 8)
    (hour : Fin 24) :
    (Plan.ofInfo info).wanted d hour = (storeTime msg d s).toNat.testBit hour := by
  rw [Plan.wanted, timePhrase_ofInfo, storeTime, h]
  cases hl : lastFor (fun p => p.weekday.number) d info.storetimephrase <;> simp [hl]

theorem mem_curPlans_update {msg : StorePlan} (h : msg.empty = false) (s : String) :
    s ∈ (m.updateStorePlan msg).curPlans_ ↔ s ∈ msg.streamplaninfo.map StreamPlanInfo.streamid := by
  rw [Std.ExtTreeMap.mem_iff_isSome_getElem?, updateStorePlan_curPlans h, Option.isSome_map,
    lastFor_isSome]

def mondayPlan (streamid : String) (hour : UInt32) : StorePlan where
  streamplaninfo := [{
    streamid_ := some streamid
    expireddays_ := some 7
    storetimephrase := [{ weekday_ := some .MON, storetime_ := some (1 <<< hour) }]
    cameraip_ := none
    cameraport_ := none
    streamtype_ := none
    coderate_ := none
    framerate_ := none
    moreinformation_ := none }]
  empty_ := some false

def mondayPlans (streamids : List String) (hour : UInt32) : StorePlan where
  streamplaninfo := streamids.flatMap fun s => (mondayPlan s hour).streamplaninfo
  empty_ := some false

def NoOrphans (m : StreamMgr) : Prop := ∀ s ∈ m.storeSess_, s ∈ m.curPlans_

/-- A check neither adds nor removes sessions of streams that are not planned. -/
theorem check_noOrphans_iff (ret : Nat → Int) (hm : Linked m) (tm_wday : Fin 7) (tm_hour : Fin 24) :
    ∃ m', checkStorePlan ret tm_wday tm_hour m = .ok m' ∧ (NoOrphans m' ↔ NoOrphans m) := by
  obtain ⟨m', hrun, t⟩ := checkStorePlan_turns ret hm tm_wday tm_hour
  have hframe : ∀ s, s ∉ m.curPlans_ → (s ∈ m'.storeSess_ ↔ s ∈ m.storeSess_) := by
    intro s hs
    have hnot : s ∉ (m.curPlans_.toList.map Prod.snd).map Plan.streamId := by
      rw [hm.streamIds, mem_keys]
      exact hs
    rw [mem_iff_get, mem_iff_get, t.frame hnot]
  refine ⟨m', hrun, ?_⟩
  rw [NoOrphans, NoOrphans, t.curPlans]
  constructor
  · intro h s hs
    by_contra hnot
    exact hnot (h s ((hframe s hnot).mpr hs))
  · intro h s hs
    by_contra hnot
    exact hnot (h s ((hframe s hnot).mp hs))

/-- The steps that leave no session behind: updates that name every stream with a session, and
good answers for streams that have a session or a plan. -/
def Keeps : Call → StreamMgr → Prop
  | .update msg, m =>
    msg.empty = false ∧
      ∀ s ∈ m.storeSess_, s ∈ msg.streamplaninfo.map StreamPlanInfo.streamid
  | .ack streamid _ _ err, m => err = 0 → streamid ∈ m.storeSess_ ∨ streamid ∈ m.curPlans_
  | .check _ _, _ => True

instance decidableKeeps : ∀ (call : Call) (m : StreamMgr), Decidable (Keeps call m)
  | .update msg, m =>
    have : Decidable (∀ s ∈ m.storeSess_, s ∈ msg.streamplaninfo.map StreamPlanInfo.streamid) :=
      decidable_of_iff (∀ s ∈ m.storeSess_.toList.map Prod.fst,
        s ∈ msg.streamplaninfo.map StreamPlanInfo.streamid)
        (forall_congr' fun _ => imp_congr mem_keys Iff.rfl)
    inferInstanceAs (Decidable (_ ∧ _))
  | .ack _ _ _ _, _ => inferInstanceAs (Decidable (_ → _ ∨ _))
  | .check _ _, _ => .isTrue trivial

theorem noOrphans_update {msg : StorePlan} (hmsg : msg.empty = false) :
    NoOrphans (m.updateStorePlan msg) ↔
      ∀ s ∈ m.storeSess_, s ∈ msg.streamplaninfo.map StreamPlanInfo.streamid := by
  rw [NoOrphans, (updateStorePlan_frame msg m).1]
  exact forall₂_congr fun s _ => mem_curPlans_update hmsg s

theorem noOrphans_ack (hm : Linked m) (h : NoOrphans m) {s : String} {p1 p2 err : UInt32}
    (hk : err = 0 → s ∈ m.storeSess_ ∨ s ∈ m.curPlans_) {m' : StreamMgr}
    (hstep : startStream s p1 p2 err m = .ok m') : NoOrphans m' := by
  by_cases hs : s ∈ m.storeSess_
  · obtain ⟨info, hi⟩ := mem_iff_get.mp hs
    obtain ⟨ses, hses⟩ := hm.owned s info hi
    by_cases he : err = 0
    · rw [he, startStream_good hi hses] at hstep
      cases hstep
      intro a ha
      cases Std.ExtTreeMap.mem_insert.mp ha with
      | inl heq => exact h a ((Std.compare_eq_iff_eq.mp heq) ▸ hs)
      | inr hold => exact h a hold
    · rw [startStream_bad hi hses p1 p2 he] at hstep
      cases hstep
      exact fun a ha => h a (Std.ExtTreeMap.mem_erase.mp ha).2
  · obtain ⟨ses, -, hcase⟩ := startStream_missing hs p1 p2 err hstep
    split_ifs at hcase with he
    · subst hcase
      intro a ha
      cases Std.ExtTreeMap.mem_insert.mp ha with
      | inl heq => exact (Std.compare_eq_iff_eq.mp heq) ▸ (hk he).resolve_left hs
      | inr hold => exact h a hold
    · subst hcase
      exact h

theorem noOrphans_step {call : Call} (hm : Linked m) (h : NoOrphans m) (hk : Keeps call m)
    {m' : StreamMgr} (hstep : step ret call m = .ok m') : NoOrphans m' := by
  cases call with
  | update msg =>
    cases hstep
    exact (noOrphans_update hk.1).mpr hk.2
  | ack streamid p1 p2 err => exact noOrphans_ack hm h hk hstep
  | check tm_wday tm_hour =>
    obtain ⟨m₁, hrun, hiff⟩ := check_noOrphans_iff ret hm tm_wday tm_hour
    rw [step, hrun] at hstep
    cases hstep
    exact hiff.mpr h

/-- A run whose steps keep every session's stream planned has no orphan in any state; and an
update and a check end without an orphan exactly when the update names every stream that has a
session. -/
theorem no_orphans_when_kept (ret : Nat → Int) :
    (∀ calls m, Meets (step ret) Keeps calls {} → run (step ret) calls {} = .ok m →
      NoOrphans m) ∧
    ∀ m msg tm_wday tm_hour, Reachable (step ret) {} m → msg.empty = false →
      ∃ m', checkStorePlan ret tm_wday tm_hour (updateStorePlan msg m) = .ok m' ∧
        (NoOrphans m' ↔
          ∀ s ∈ m.storeSess_, s ∈ msg.streamplaninfo.map StreamPlanInfo.streamid) := by
  constructor
  · intro calls m hk hrun
    have hinv : ∀ call m m', Linked m ∧ NoOrphans m → Keeps call m →
        step ret call m = .ok m' → Linked m' ∧ NoOrphans m' :=
      fun call m m' h hc hs => ⟨linked_step h.1 hs, noOrphans_step h.1 h.2 hc hs⟩
    have hstart : Linked {} ∧ NoOrphans {} := ⟨linked_start, fun s hs => absurd hs (by simp)⟩
    exact (run_inv_of (I := fun m => Linked m ∧ NoOrphans m) hstart hinv hk hrun).2
  · intro m msg tm_wday tm_hour hm hmsg
    have hlink := (linked_of_reachable hm).update msg
    obtain ⟨m', hrun, hiff⟩ := check_noOrphans_iff ret hlink tm_wday tm_hour
    exact ⟨m', hrun, hiff.trans (noOrphans_update hmsg)⟩

/-- Stream a is recorded, then a plan for stream b alone comes in: the check leaves the session
of a in place. -/
theorem dropped_stream_keeps_session :
    ∃ m, run (step fun _ => 0) [.update (mondayPlan "a" 9), .check 1 9,
      .update (mondayPlan "b" 9), .check 1 9] {} = .ok m ∧ ¬ NoOrphans m := by
  have hrun : (run (step fun _ => 0) [.update (mondayPlan "a" 9), .check 1 9,
      .update (mondayPlan "b" 9), .check 1 9] {}).map
        (fun m => (decide ("a" ∈ m.storeSess_), decide ("a" ∈ m.curPlans_))) =
      .ok (true, false) := by decide
  obtain ⟨m, hm, hend⟩ := map_ok_iff.mp hrun
  simp only [Prod.mk.injEq, decide_eq_true_eq, decide_eq_false_iff_not] at hend
  exact ⟨m, hm, fun h => hend.2 (h "a" hend.1)⟩

/-- The plan of stream a comes twice, with a check after each and the answer of the MS between. -/
def mondayWeek (tm_wday : Fin 7) (tm_hour : Fin 24) : List Call :=
  [.update (mondayPlan "a" 9), .check tm_wday tm_hour, .ack "a" 1 2 0,
    .update (mondayPlan "a" 9), .check tm_wday tm_hour]

theorem no_orphans_monday :
    ∃ m, run (step fun _ => 0) (mondayWeek 1 9) {} = .ok m ∧ "a" ∈ m.storeSess_ ∧ NoOrphans m ∧
      ∃ m', checkStorePlan (fun _ => 0) 1 9 (updateStorePlan (mondayPlan "b" 9) m) = .ok m' ∧
        (NoOrphans m' ↔ ∀ s ∈ m.storeSess_,
          s ∈ (mondayPlan "b" 9).streamplaninfo.map StreamPlanInfo.streamid) := by
  have hrun : (run (step fun _ => 0) (mondayWeek 1 9) {}).map
      (fun m => decide ("a" ∈ m.storeSess_)) = .ok true := by decide
  obtain ⟨m, hm, hend⟩ := map_ok_iff.mp hrun
  have hkept : Meets (step fun _ => 0) Keeps (mondayWeek 1 9) {} := by decide
  exact ⟨m, hm, of_decide_eq_true hend, (no_orphans_when_kept _).1 (mondayWeek 1 9) m hkept hm,
    (no_orphans_when_kept _).2 m (mondayPlan "b" 9) 1 9 ⟨_, hm⟩ rfl⟩

/-- An answer completes and leaves things as they were where its stream has no entry, if and
only if its stream has an entry. -/
theorem ack_safe_iff (hm : Reachable (step ret) {} m) (s : String) (p1 p2 err : UInt32) :
    (∃ m', startStream s p1 p2 err m = .ok m' ∧ (s ∉ m.storeSess_ →
      m'.storeSess_ = m.storeSess_ ∧ m'.sesServicePtr_ = m.sesServicePtr_)) ↔
    s ∈ m.storeSess_ := by
  constructor
  · intro ⟨m', hrun, hkept⟩
    by_contra hs
    obtain ⟨ses, -, hcase⟩ := startStream_missing hs p1 p2 err hrun
    split_ifs at hcase with he
    · have hnew : s ∈ m'.storeSess_ := by
        rw [hcase]
        exact Std.ExtTreeMap.mem_insert_self
      rw [(hkept hs).1] at hnew
      exact hs hnew
    · have hloop : m'.sesServicePtr_.storeLoop_ =
          m.sesServicePtr_.storeLoop_ ++ [.closeUDP ses.serial] := by
        rw [hcase]
        rfl
      rw [(hkept hs).2] at hloop
      simp at hloop
  · intro hs
    obtain ⟨info, hi⟩ := mem_iff_get.mp hs
    obtain ⟨ses, hses⟩ := (linked_of_reachable hm).owned s info hi
    by_cases he : err = 0
    · exact ⟨_, by rw [he]; exact startStream_good hi hses p1 p2, fun h => absurd hs h⟩
    · exact ⟨_, startStream_bad hi hses p1 p2 he, fun h => absurd hs h⟩

/-- The first thing to arrive is an answer that nobody asked for. -/
theorem unsolicited_ack_faults :
    Reachable (step fun _ => 0) {} {} ∧ startStream "a" 1 2 0 {} = .error .nullSession :=
  ⟨⟨[], rfl⟩, by rfl⟩

theorem unsolicited_ack_safe_iff :
    (∃ m', startStream "a" 1 2 0 {} = .ok m' ∧ ("a" ∉ ({} : StreamMgr).storeSess_ →
      m'.storeSess_ = ({} : StreamMgr).storeSess_ ∧
        m'.sesServicePtr_ = ({} : StreamMgr).sesServicePtr_)) ↔
    "a" ∈ ({} : StreamMgr).storeSess_ :=
  ack_safe_iff (show Reachable (step fun _ => 0) {} {} from ⟨[], rfl⟩) "a" 1 2 0

def Event.isBye : Event → Bool
  | .send (.name "MS_DS.Bye" _ _ _) => true
  | _ => false

/-- What an empty plan is to bring about: no stream is recorded any more, one Bye went out for
each that was, and its session was told to stop. -/
structure EverythingStopped (m m' : StreamMgr) (evs : List Event) : Prop where
  empty : m'.storeSess_ = ∅
  byes : evs.countP Event.isBye = m.storeSess_.size
  closed : ∀ (s : String) (info : StoreSesInfo) (ses : StoreSession),
    m.storeSess_[s]? = some info → m.sesServicePtr_.storeSess_[info.sessionId]? = some ses →
      .closeUDP ses.serial ∈ m'.sesServicePtr_.storeLoop_.drop m.sesServicePtr_.storeLoop_.length

theorem callSession_cases {sesid : UInt64} {task : Nat → StoreTask} {m' : StreamMgr}
    (h : m.callSession sesid task = .ok m') :
    ∃ ses, m.sesServicePtr_.storeSess_[sesid]? = some ses ∧
      m' = { m with sesServicePtr_ := m.sesServicePtr_.safeCall (task ses.serial) } := by
  simp only [callSession] at h
  split at h
  case h_1 => cases h
  case h_2 ses hs =>
    cases h
    exact ⟨ses, hs, rfl⟩

theorem startStream_frame {s : String} {p1 p2 err : UInt32} {m' : StreamMgr}
    (h : startStream s p1 p2 err m = .ok m') : ∃ t task,
      m' = { m with storeSess_ := t, sesServicePtr_ := m.sesServicePtr_.safeCall task } := by
  simp only [startStream] at h
  split_ifs at h
  · obtain ⟨m₁, hm₁, hm'⟩ := seq_ok_iff.mp h
    obtain ⟨ses, -, rfl⟩ := callSession_cases hm₁
    cases hm'
    exact ⟨_, _, rfl⟩
  · obtain ⟨ses, -, rfl⟩ := callSession_cases h
    exact ⟨_, _, rfl⟩

def Call.isAck : Call → Bool
  | .ack _ _ _ _ => true
  | _ => false

theorem acks_frame {acks : List Call} (hacks : ∀ c ∈ acks, c.isAck = true) {m' : StreamMgr}
    (h : run (step ret) acks m = .ok m') : m'.curPlans_ = m.curPlans_ ∧ m'.log = m.log := by
  induction acks generalizing m with
  | nil =>
    cases h
    exact ⟨rfl, rfl⟩
  | cons c acks ih =>
    obtain ⟨m₁, hm₁, hrest⟩ := run_cons_ok.mp h
    obtain ⟨hcur, hlog⟩ := ih (fun c hc => hacks c (List.mem_cons_of_mem _ hc)) hrest
    cases c with
    | ack s p1 p2 err =>
      obtain ⟨t, task, rfl⟩ := startStream_frame hm₁
      exact ⟨hcur, hlog⟩
    | update msg => cases hacks (.update msg) List.mem_cons_self
    | check tm_wday tm_hour => cases hacks (.check tm_wday tm_hour) List.mem_cons_self

theorem check_without_plans (hm : Linked m) (hcur : m.curPlans_ = ∅) (tm_wday : Fin 7)
    (tm_hour : Fin 24) : checkStorePlan ret tm_wday tm_hour m = .ok m := by
  obtain ⟨m', hrun, t⟩ := checkStorePlan_turns ret hm tm_wday tm_hour
  have hnil : m.curPlans_.toList.map Prod.snd = [] := by rw [hcur]; rfl
  rw [hnil] at t
  cases t
  exact hrun

/-- An empty plan, answers that may still come in, and the next check: everything is stopped
exactly when no stream was recorded at all. -/
theorem empty_plan_stops_iff (hm : Reachable (step ret) {} m) {msg : StorePlan}
    (hmsg : msg.empty = true) {acks : List Call} (hacks : ∀ c ∈ acks, c.isAck = true)
    {m₁ : StreamMgr} (hrun : run (step ret) acks (updateStorePlan msg m) = .ok m₁)
    (tm_wday : Fin 7) (tm_hour : Fin 24) :
    ∃ m' evs, checkStorePlan ret tm_wday tm_hour m₁ = .ok m' ∧ Since m m' evs ∧
      (EverythingStopped m m' evs ↔ m.storeSess_ = ∅ ∧ m₁.storeSess_ = ∅) := by
  have hupdate : step ret (.update msg) m = .ok (updateStorePlan msg m) := rfl
  have hempty : (updateStorePlan msg m).curPlans_ = ∅ := by
    simp [updateStorePlan, hmsg, diffStorePlan_eq]
  obtain ⟨hcur, hlog⟩ := acks_frame hacks hrun
  have hlink : Linked m₁ := by
    obtain ⟨calls, hcalls⟩ := hm
    have hcons : run (step ret) (.update msg :: acks) m = .ok m₁ :=
      run_cons_ok.mpr ⟨_, hupdate, hrun⟩
    exact linked_of_reachable ⟨_, run_append_ok.mpr ⟨m, hcalls, hcons⟩⟩
  refine ⟨m₁, [], check_without_plans hlink (hcur.trans hempty) tm_wday tm_hour, ?_, ?_⟩
  · rw [Since, hlog, (updateStorePlan_frame msg m).2.2.2, List.append_nil]
  · constructor
    · intro h
      exact ⟨Std.ExtTreeMap.eq_empty_iff_size_eq_zero.mpr h.byes.symm, h.empty⟩
    · rintro ⟨h, h₁⟩
      refine ⟨h₁, by rw [h]; rfl, fun s info ses hi => ?_⟩
      rw [h] at hi
      simp at hi

def emptyPlan : StorePlan := { streamplaninfo := [], empty_ := some true }

/-- The session of stream a is recorded, and an empty plan does not stop it. -/
theorem empty_plan_keeps_session :
    ∃ m m' evs, run (step fun _ => 0) [.update (mondayPlan "a" 9), .check 1 9] {} = .ok m ∧
      checkStorePlan (fun _ => 0) 1 9 (updateStorePlan emptyPlan m) = .ok m' ∧
      Since m m' evs ∧ ¬ EverythingStopped m m' evs := by
  have hrun : (run (step fun _ => 0) [.update (mondayPlan "a" 9), .check 1 9] {}).map
      (fun m => decide ("a" ∈ m.storeSess_)) = .ok true := by decide
  obtain ⟨m, hm, hend⟩ := map_ok_iff.mp hrun
  rw [decide_eq_true_eq] at hend
  have hlink : Linked m := linked_of_reachable ⟨_, hm⟩
  refine ⟨m, updateStorePlan emptyPlan m, [], hm, ?_, ?_, fun h => ?_⟩
  · exact check_without_plans (hlink.update emptyPlan)
      (by simp [updateStorePlan, emptyPlan, StorePlan.empty, diffStorePlan_eq]) 1 9
  · rw [Since, (updateStorePlan_frame emptyPlan m).2.2.2, List.append_nil]
  · have hempty := h.empty
    rw [(updateStorePlan_frame emptyPlan m).1] at hempty
    rw [hempty] at hend
    simp at hend

/-- Stream a is recorded, an empty plan comes in, and the answer for a after it. -/
theorem empty_plan_stops_iff_start :
    ∃ m m₁, run (step fun _ => 0) [.update (mondayPlan "a" 9), .check 1 9] {} = .ok m ∧
      run (step fun _ => 0) [.ack "a" 1 2 0] (updateStorePlan emptyPlan m) = .ok m₁ ∧
      ∃ m' evs, checkStorePlan (fun _ => 0) 1 9 m₁ = .ok m' ∧ Since m m' evs ∧
        (EverythingStopped m m' evs ↔ m.storeSess_ = ∅ ∧ m₁.storeSess_ = ∅) := by
  have hrun : ((run (step fun _ => 0) [.update (mondayPlan "a" 9), .check 1 9] {}).bind
      fun m => (run (step fun _ => 0) [.ack "a" 1 2 0] (updateStorePlan emptyPlan m)).map
        fun m₁ => (m, m₁)).map (fun p => decide ("a" ∈ p.2.storeSess_)) = .ok true := by decide
  obtain ⟨p, hp, -⟩ := map_ok_iff.mp hrun
  obtain ⟨m, hm, hrest⟩ := seq_ok_iff.mp hp
  obtain ⟨m₁, hm₁, -⟩ := map_ok_iff.mp hrest
  have hack : ∀ c ∈ [Call.ack "a" 1 2 0], c.isAck = true := by decide
  exact ⟨m, m₁, hm, hm₁, empty_plan_stops_iff ⟨_, hm⟩ rfl hack hm₁ 1 9⟩

end LazyNet.Streams
