import LazyNet.PlanChecks
import Mathlib.Data.List.Forall2

/-! The same plan once more: delivered again and checked again in the same hour, or written down
in another order. -/
namespace LazyNet.Streams
open LazyNet.Tables LazyNet.MsDsProtocol LazyNet.StepRuns
open StreamMgr
variable {ret : Nat → Int} {m m₁ m' : StreamMgr} {msg msg' : StorePlan}

/-- Exactly the planned streams that are wanted in the slot have a session. -/
def InStep (d : Fin 8) (h : Fin 24) (m : StreamMgr) : Prop :=
  ∀ (s : String) (plan : Plan), m.curPlans_[s]? = some plan →
    (s ∈ m.storeSess_ ↔ plan.wanted d h = true)

theorem turn_inStep {s : String} {wanted : Bool} (t : Turn ret s wanted m m')
    (h : s ∈ m.storeSess_ ↔ wanted = true) : m' = m := by
  cases t with
  | kept => rfl
  | created hw hs => exact absurd (h.mpr hw) hs
  | stopped hw info ses hi hs =>
    rw [hw] at h
    exact absurd (h.mp (mem_iff_get.mpr ⟨info, hi⟩)) (by simp)
  | idle => rfl

theorem turns_inStep {d : Fin 8} {h : Fin 24} {plans : List Plan} (t : Turns ret d h plans m m')
    (hp : ∀ plan ∈ plans, plan.streamId ∈ m.storeSess_ ↔ plan.wanted d h = true) : m' = m := by
  induction t with
  | nil => rfl
  | cons first rest ih =>
    obtain rfl := turn_inStep first (hp _ List.mem_cons_self)
    exact ih fun plan hmem => hp plan (List.mem_cons_of_mem _ hmem)

/-- Where the sessions are in step with the plans, a check does nothing at all. -/
theorem check_inStep (hm : Linked m) {tm_wday : Fin 7} {tm_hour : Fin 24}
    (h : InStep (getCurDay tm_wday) tm_hour m) : checkStorePlan ret tm_wday tm_hour m = .ok m := by
  obtain ⟨m', hrun, t⟩ := checkStorePlan_turns ret hm tm_wday tm_hour
  obtain rfl : m' = m := turns_inStep t (hm.forall_plans.mpr h)
  exact hrun

theorem inStep_of_check (hm : Linked m) {tm_wday : Fin 7} {tm_hour : Fin 24}
    (hrun : checkStorePlan ret tm_wday tm_hour m = .ok m') {evs : List Event} (he : Since m m' evs)
    (hmade : ∀ s port ses id, Event.newStoreSes s port ses id ∈ evs → id ≠ 0) :
    Linked m' ∧ m'.curPlans_ = m.curPlans_ ∧ InStep (getCurDay tm_wday) tm_hour m' := by
  obtain ⟨m₁, hrun₁, t⟩ := checkStorePlan_turns ret hm tm_wday tm_hour
  rw [hrun] at hrun₁
  cases hrun₁
  refine ⟨t.linked hm, t.curPlans, fun s plan hs => ?_⟩
  rw [t.curPlans] at hs
  have hset := hm.settled t he hs
  refine ⟨hset.none_unwanted, fun hw => ?_⟩
  cases hset.some_wanted hw with
  | inl hmem => exact hmem
  | inr hrefused =>
    obtain ⟨port, ses, hev⟩ := hrefused
    exact absurd rfl (hmade s port ses 0 hev)

theorem updateStorePlan_eq (hmsg : msg.empty = false) (m : StreamMgr) :
    updateStorePlan msg m = { m with
      prePlans_ := m.curPlans_
      curPlans_ := msg.streamplaninfo.foldl
        (fun t info => t.insert info.streamid (Plan.ofInfo info)) ∅ } := by
  rw [updateStorePlan, hmsg, diffStorePlan_eq]
  rfl

def Untouched (m m' : StreamMgr) : Prop := ∃ plans, m' = { m with prePlans_ := plans }

theorem Untouched.refl (m : StreamMgr) : Untouched m m := ⟨m.prePlans_, rfl⟩

theorem Untouched.inStep (h : Untouched m m') {d : Fin 8} {hour : Fin 24} (hi : InStep d hour m) :
    InStep d hour m' := by
  obtain ⟨plans, rfl⟩ := h
  exact hi

theorem Untouched.linked (h : Untouched m m') (hm : Linked m) : Linked m' := by
  obtain ⟨plans, rfl⟩ := h
  exact ⟨hm.owned, hm.keyed, hm.noDel⟩

theorem Untouched.update (h : Untouched m₁ m') (hmsg : msg.empty = false)
    (hcur : m₁.curPlans_ = (updateStorePlan msg m).curPlans_) :
    Untouched m₁ (updateStorePlan msg m') := by
  obtain ⟨plans, rfl⟩ := h
  rw [updateStorePlan_eq hmsg] at hcur
  refine ⟨m₁.curPlans_, ?_⟩
  rw [updateStorePlan_eq hmsg, hcur]

/-- Once a plan has been checked and every session that it wants could be made, delivering it
again and checking it again in the same hour, in any number and order, sends nothing and changes
neither a session nor the plans. -/
theorem repeated_plan_changes_nothing (hm : Reachable (step ret) {} m) (hmsg : msg.empty = false)
    {tm_wday : Fin 7} {tm_hour : Fin 24}
    (hrun : checkStorePlan ret tm_wday tm_hour (updateStorePlan msg m) = .ok m₁)
    {evs : List Event} (he : Since m m₁ evs)
    (hmade : ∀ s port ses id, Event.newStoreSes s port ses id ∈ evs → id ≠ 0)
    {calls : List Call}
    (hcalls : ∀ call ∈ calls, call = .update msg ∨ call = .check tm_wday tm_hour) :
    ∃ m₂, run (step ret) calls m₁ = .ok m₂ ∧ Since m₁ m₂ [] ∧
      m₂.storeSess_ = m₁.storeSess_ ∧ m₂.curPlans_ = m₁.curPlans_ ∧ m₂.port_ = m₁.port_ ∧
      m₂.sesServicePtr_ = m₁.sesServicePtr_ := by
  have hlink := (linked_of_reachable hm).update msg
  have hlog : Since (updateStorePlan msg m) m₁ evs := by
    rw [Since, (updateStorePlan_frame msg m).2.2.2, he]
  obtain ⟨hlink₁, hcur, hstep⟩ := inStep_of_check hlink hrun hlog hmade
  have hround : ∀ call ∈ calls, ∀ m', Untouched m₁ m' →
      ∃ m'', step ret call m' = .ok m'' ∧ Untouched m₁ m'' := by
    intro call hcall m' h
    cases hcalls call hcall with
    | inl hupdate =>
      rw [hupdate]
      exact ⟨_, rfl, h.update hmsg hcur⟩
    | inr hcheck =>
      rw [hcheck]
      exact ⟨m', check_inStep (h.linked hlink₁) (h.inStep hstep), h⟩
  obtain ⟨m₂, hruns, plans, rfl⟩ := run_total hround (.refl m₁)
  exact ⟨_, hruns, .refl _, rfl, rfl, rfl, rfl⟩

theorem repeated_monday_plan_changes_nothing :
    ∃ m₁ m₂, checkStorePlan (fun _ => 0) 1 9 (updateStorePlan (mondayPlan "a" 9) {}) = .ok m₁ ∧
      run (step fun _ => 0) [.check 1 9, .update (mondayPlan "a" 9), .check 1 9] m₁ = .ok m₂ ∧
      Since m₁ m₂ [] ∧ m₂.storeSess_ = m₁.storeSess_ ∧ m₂.curPlans_ = m₁.curPlans_ ∧
      m₂.port_ = m₁.port_ ∧ m₂.sesServicePtr_ = m₁.sesServicePtr_ := by
  have hlog : (checkStorePlan (fun _ => 0) 1 9 (updateStorePlan (mondayPlan "a" 9) {})).map
      StreamMgr.log = .ok [.newStoreSes "a" 3000 0 1,
        .send (.message { streamid := "a", recvcameraport := "3000" } 0 0 0)] := by decide
  obtain ⟨m₁, hrun, hevs⟩ := map_ok_iff.mp hlog
  have hmade : ∀ s port ses id, Event.newStoreSes s port ses id ∈ [.newStoreSes "a" 3000 0 1,
      .send (.message { streamid := "a", recvcameraport := "3000" } 0 0 0)] → id ≠ 0 := by
    intro s port ses id h
    simp only [List.mem_cons, Event.newStoreSes.injEq, List.not_mem_nil, reduceCtorEq,
      or_false] at h
    rw [h.2.2.2]
    decide
  have hcalls : ∀ call ∈ [Call.check 1 9, .update (mondayPlan "a" 9), .check 1 9],
      call = .update (mondayPlan "a" 9) ∨ call = .check 1 9 := by simp
  obtain ⟨m₂, hm₂⟩ := repeated_plan_changes_nothing (m := {}) ⟨[], rfl⟩ rfl hrun
    (by rw [Since, hevs]; rfl) hmade hcalls
  exact ⟨m₁, m₂, hrun, hm₂⟩

structure SameInfo (info info' : StreamPlanInfo) : Prop where
  phrases : info.storetimephrase.Perm info'.storetimephrase
  others : { info with storetimephrase := info'.storetimephrase } = info'

/-- The infos of two messages, and the phrases in each info, in different orders. -/
def Reordered (msg msg' : StorePlan) : Prop :=
  ∃ infos, msg.streamplaninfo.Perm infos ∧ List.Forall₂ SameInfo infos msg'.streamplaninfo

structure Distinct (msg : StorePlan) : Prop where
  streams : (msg.streamplaninfo.map StreamPlanInfo.streamid).Nodup
  days : ∀ info ∈ msg.streamplaninfo, (info.storetimephrase.map StoreTimePhrase.weekday).Nodup

theorem number_injective : Function.Injective Weekday.number := by
  intro a b h
  cases a <;> cases b <;> first | rfl | exact absurd h (by decide)

theorem ofInfo_sameInfo {info info' : StreamPlanInfo} (h : SameInfo info info')
    (hdays : (info.storetimephrase.map StoreTimePhrase.weekday).Nodup) :
    Plan.ofInfo info = Plan.ofInfo info' := by
  have hnumbers : (info.storetimephrase.map fun p => p.weekday.number).Nodup := by
    have hmap := hdays.map number_injective
    rwa [List.map_map] at hmap
  have hphrase : (Plan.ofInfo info).timePhrase = (Plan.ofInfo info').timePhrase := by
    ext i hi
    have hday := timePhrase_ofInfo info ⟨i, hi⟩
    rw [lastFor_perm hnumbers h.phrases, ← timePhrase_ofInfo] at hday
    exact congrArg UInt32.toNat hday
  have hothers : Plan.ofInfo info' =
      { Plan.ofInfo info with timePhrase := (Plan.ofInfo info').timePhrase } := by
    rw [← h.others]
    rfl
  rw [hothers, ← hphrase]

/-- The table of plans that a message builds is the same for both orders. -/
theorem updateStorePlan_reordered (h : Reordered msg msg') (hd : Distinct msg)
    (hmsg : msg.empty = false) (hmsg' : msg'.empty = false) (m : StreamMgr) :
    updateStorePlan msg m = updateStorePlan msg' m := by
  obtain ⟨infos, hperm, hsame⟩ := h
  have hboth : List.Forall₂ (fun info info' =>
      (info.storetimephrase.map StoreTimePhrase.weekday).Nodup ∧ SameInfo info info')
      infos msg'.streamplaninfo :=
    (List.forall₂_and_left _ _).mpr ⟨fun info hi => hd.days info (hperm.mem_iff.mpr hi), hsame⟩
  have htable : (updateStorePlan msg m).curPlans_ = (updateStorePlan msg' m).curPlans_ := by
    apply Std.ExtTreeMap.ext_getElem?
    intro s
    rw [updateStorePlan_curPlans hmsg, updateStorePlan_curPlans hmsg',
      lastFor_perm hd.streams hperm]
    refine lastFor_map_congr (fun info info' hi => ?_) (fun info info' hi => ?_) hboth s
    · rw [← hi.2.others]
      rfl
    · exact ofInfo_sameInfo hi.2 hi.1
  rw [updateStorePlan_eq hmsg, updateStorePlan_eq hmsg'] at htable ⊢
  simp only [StreamMgr.mk.injEq, and_true, true_and]
  exact htable

/-- Two plans with the same infos in another order, each with one info for a stream and one
phrase for a day, lead to the same state by the same calls: the sessions that are made, their ids
and ports, and all that is sent. -/
theorem plan_order_irrelevant (hm : Reachable (step ret) {} m) (h : Reordered msg msg')
    (hd : Distinct msg) (hmsg : msg.empty = false) (hmsg' : msg'.empty = false) (tm_wday : Fin 7)
    (tm_hour : Fin 24) :
    ∃ m' evs, checkStorePlan ret tm_wday tm_hour (updateStorePlan msg m) = .ok m' ∧
      checkStorePlan ret tm_wday tm_hour (updateStorePlan msg' m) = .ok m' ∧ Since m m' evs := by
  have hlink := (linked_of_reachable hm).update msg
  obtain ⟨m', hrun, t⟩ := checkStorePlan_turns ret hlink tm_wday tm_hour
  obtain ⟨evs, hevs⟩ := t.since
  refine ⟨m', evs, hrun, ?_, ?_⟩
  · rw [← updateStorePlan_reordered h hd hmsg hmsg']
    exact hrun
  · rw [Since, hevs, (updateStorePlan_frame msg m).2.2.2]

def ninePlan (streamid : String) (days : List Weekday) : StreamPlanInfo where
  streamid_ := some streamid
  expireddays_ := some 7
  storetimephrase := days.map fun day => { weekday_ := some day, storetime_ := some 0x200 }
  cameraip_ := none
  cameraport_ := none
  streamtype_ := none
  coderate_ := none
  framerate_ := none
  moreinformation_ := none

theorem two_plans_in_either_order : ∃ m' evs,
    checkStorePlan (fun _ => 0) 1 9 (updateStorePlan
      ⟨[ninePlan "a" [.MON, .TUE], ninePlan "b" [.MON]], some false⟩ {}) = .ok m' ∧
    checkStorePlan (fun _ => 0) 1 9 (updateStorePlan
      ⟨[ninePlan "b" [.MON], ninePlan "a" [.TUE, .MON]], some false⟩ {}) = .ok m' ∧
    Since {} m' evs := by
  have hsame : List.Forall₂ SameInfo [ninePlan "b" [.MON], ninePlan "a" [.MON, .TUE]]
      [ninePlan "b" [.MON], ninePlan "a" [.TUE, .MON]] :=
    .cons ⟨.refl _, rfl⟩ (.cons ⟨.swap _ _ _, rfl⟩ .nil)
  exact plan_order_irrelevant ⟨[], rfl⟩ ⟨_, .swap _ _ _, hsame⟩ ⟨by decide, by decide⟩ rfl rfl 1 9

end LazyNet.Streams
