import LazyNet.AckPairing
import Mathlib.Data.List.Perm.Subperm

/-! The two tables of sessions: the manager's entries, one for each recorded stream, and the
service's sessions by their ids. -/
namespace LazyNet.Streams
open LazyNet.Tables LazyNet.MsDsProtocol LazyNet.Sessions LazyNet.StepRuns
open StreamMgr

/-- The entries name sessions of the service, each a session of its own, and the ids have not
come round. -/
structure Tabled (m : StreamMgr) : Prop where
  linked : Linked m
  numbered : Numbered m.sesServicePtr_
  distinct : ∀ (s s' : String) (info info' : StoreSesInfo), m.storeSess_[s]? = some info →
    m.storeSess_[s']? = some info' → info.sessionId = info'.sessionId → s = s'

section Turns
variable {ret : Nat → Int} {m m' : StreamMgr} {s : String} {wanted : Bool} {info : StoreSesInfo}
  {ses : StoreSession} {d : Fin 8} {h : Fin 24} {plans : List Plan}

theorem tabled_start : Tabled {} :=
  ⟨linked_start, ⟨rfl, fun id ses h => by simp at h⟩, fun s s' info info' h => by simp at h⟩

theorem Tabled.id_le (ht : Tabled m) (hi : m.storeSess_[s]? = some info) :
    info.sessionId ≠ 0 ∧ info.sessionId.toNat ≤ m.sesServicePtr_.made := by
  obtain ⟨ses, hs⟩ := ht.linked.owned s info hi
  obtain ⟨hid, hlt⟩ := ht.numbered.serial_of _ ses hs
  refine ⟨fun h0 => ?_, by omega⟩
  rw [h0] at hid
  simp at hid

theorem Tabled.erasing (ht : Tabled m) (hlink : Linked m')
    (hserv : Numbered m'.sesServicePtr_) (hsess : m'.storeSess_ = m.storeSess_.erase s) :
    Tabled m' := by
  refine ⟨hlink, hserv, fun a b i j hi hj heq => ?_⟩
  rw [hsess, get_erase] at hi hj
  split_ifs at hi hj
  exact ht.distinct a b i j hi hj heq

theorem Tabled.started (ht : Tabled m) (hi : m.storeSess_[s]? = some info)
    (hs : m.sesServicePtr_.storeSess_[info.sessionId]? = some ses) (p1 p2 : UInt32) :
    Tabled (m.started s info ses p1 p2) := by
  refine ⟨ht.linked.started hs s p1 p2, ht.numbered.safeCall _, fun a b i j hai hbj heq => ?_⟩
  simp only [StreamMgr.started, get_insert] at hai hbj
  split_ifs at hai hbj with ha hb hb
  · exact ha.symm.trans hb
  · cases hai
    exact ha.symm.trans (ht.distinct s b info j hi hbj heq)
  · cases hbj
    exact (ht.distinct a s i info hai hi heq).trans hb
  · exact ht.distinct a b i j hai hbj heq

theorem newSes_fresh (hn : Numbered m.sesServicePtr_) (hlt : (newSes ret m).2.made < 2 ^ 64)
    (h0 : (newSes ret m).1 ≠ 0) {id : UInt64} (hid : id ∈ m.sesServicePtr_.storeSess_) :
    id ≠ (newSes ret m).1 := by
  intro heq
  obtain ⟨hnum, -, hnew⟩ := hn.newStoreSes hlt
  obtain ⟨-, ses, hses, hserial⟩ := hnew h0
  obtain ⟨ses', hses'⟩ := mem_iff_get.mp hid
  have hnewId := (hnum.serial_of _ ses hses).1
  obtain ⟨holdId, hbound⟩ := hn.serial_of id ses' hses'
  rw [heq, newSes, hnewId, hserial] at holdId
  omega

theorem Tabled.created (ht : Tabled m)
    (hlt : (createStream ret s m).sesServicePtr_.made < 2 ^ 64) :
    Tabled (createStream ret s m) := by
  have hserv : (createStream ret s m).sesServicePtr_ = (newSes ret m).2 := createStream_service
  have hlt' := hlt
  rw [hserv] at hlt'
  obtain ⟨hnum, -, -⟩ := ht.numbered.newStoreSes hlt'
  -- the ids of the entries of before are in the table, the new one is not
  have hfresh : ∀ {c : String} {k : StoreSesInfo}, m.storeSess_[c]? = some k →
      (newSes ret m).1 ≠ 0 → k.sessionId ≠ (newSes ret m).1 := fun hk h0 =>
    newSes_fresh ht.numbered hlt' h0 (mem_iff_get.mpr (ht.linked.owned _ _ hk))
  refine ⟨ht.linked.created s, by rw [hserv]; exact hnum, fun a b i j hi hj heq => ?_⟩
  obtain hi' | ⟨h0, rfl, rfl⟩ := createStream_entry hi
  · obtain hj' | ⟨h0, rfl, rfl⟩ := createStream_entry hj
    · exact ht.distinct a b i j hi' hj' heq
    · exact absurd heq (hfresh hi' h0)
  · obtain hj' | ⟨-, hb, -⟩ := createStream_entry hj
    · exact absurd heq.symm (hfresh hj' h0)
    · exact hb.symm

theorem StreamMgr.Turn.tabled (t : Turn ret s wanted m m') (ht : Tabled m)
    (hlt : m'.sesServicePtr_.made < 2 ^ 64) : Tabled m' := by
  cases t with
  | kept => exact ht
  | idle => exact ht
  | created => exact ht.created hlt
  | stopped hw info ses hi hs =>
    exact ht.erasing (ht.linked.stopped s info ses) (ht.numbered.safeCall _) rfl

theorem StreamMgr.Turns.tabled (t : Turns ret d h plans m m') (ht : Tabled m)
    (hlt : m'.sesServicePtr_.made < 2 ^ 64) : Tabled m' := by
  induction t with
  | nil => exact ht
  | cons first rest ih => exact ih (first.tabled ht (Nat.lt_of_le_of_lt rest.made_le hlt)) hlt

end Turns

section Steps
variable {ret : Nat → Int} {m m' : StreamMgr} {call : Call}

theorem made_step (hl : Linked m) (h : step ret call m = .ok m') :
    m.sesServicePtr_.made ≤ m'.sesServicePtr_.made := by
  cases call with
  | update msg =>
    cases h
    rw [(updateStorePlan_frame msg m).2.1]
  | ack s p1 p2 err =>
    obtain ⟨t, task, rfl⟩ := startStream_frame h
    exact Nat.le_refl _
  | check tm_wday tm_hour =>
    obtain ⟨m₁, hrun, t⟩ := checkStorePlan_turns ret hl tm_wday tm_hour
    rw [step, hrun] at h
    cases h
    exact t.made_le

theorem tabled_step (ht : Tabled m) (h : step ret call m = .ok m')
    (hlt : m'.sesServicePtr_.made < 2 ^ 64) : Tabled m' := by
  cases call with
  | update msg =>
    cases h
    obtain ⟨hsess, hserv, -⟩ := updateStorePlan_frame msg m
    refine ⟨ht.linked.update msg, by rw [hserv]; exact ht.numbered, ?_⟩
    rw [hsess]
    exact ht.distinct
  | ack s p1 p2 err =>
    obtain ⟨info, ses, hi, hs, hcase⟩ := startStream_cases ht.linked ht.numbered h
    cases hcase with
    | inl hgood =>
      rw [hgood.2]
      exact ht.started hi hs p1 p2
    | inr hbad =>
      rw [hbad.2]
      exact ht.erasing (ht.linked.dropped s ses) (ht.numbered.safeCall _) rfl
  | check tm_wday tm_hour =>
    obtain ⟨m₁, hrun, t⟩ := checkStorePlan_turns ret ht.linked tm_wday tm_hour
    rw [step, hrun] at h
    cases h
    exact t.tabled ht hlt

theorem tabled_of_reachable (hm : Reachable (step ret) {} m)
    (hlt : m.sesServicePtr_.made < 2 ^ 64) : Tabled m := by
  have hinv := hm.inv (I := fun m => Linked m ∧ (m.sesServicePtr_.made < 2 ^ 64 → Tabled m))
    ⟨linked_start, fun _ => tabled_start⟩
    (fun call m m' h hs => ⟨linked_step h.1 hs, fun hlt =>
      tabled_step (h.2 (Nat.lt_of_le_of_lt (made_step h.1 hs) hlt)) hs hlt⟩)
  exact hinv.2 hlt

end Steps

/-- With fewer sessions made than there are ids, every entry names a session of the service by an
id that was given out, no two streams share one, and the rounds of a check find a session
wherever they look for one. -/
theorem sessions_owned {ret : Nat → Int} {m : StreamMgr} (hm : Reachable (step ret) {} m)
    (hlt : m.sesServicePtr_.made < 2 ^ 64) :
    (∀ (s : String) (info : StoreSesInfo), m.storeSess_[s]? = some info →
      info.sessionId ≠ 0 ∧ info.sessionId ∈ m.sesServicePtr_.storeSess_ ∧
        info.sessionId ≤ m.sesServicePtr_.id_) ∧
    (∀ (s s' : String) (info info' : StoreSesInfo), m.storeSess_[s]? = some info →
      m.storeSess_[s']? = some info' → s ≠ s' → info.sessionId ≠ info'.sessionId) ∧
    ∀ (curDay : Fin 8) (curHour : Fin 24) (plans : List Plan),
      ∃ m', checkPlans ret curDay curHour plans m = .ok m' := by
  have ht := tabled_of_reachable hm hlt
  refine ⟨fun s info hi => ?_, fun s s' info info' hi hi' hne heq => ?_, fun d h plans => ?_⟩
  · obtain ⟨hne, hle⟩ := ht.id_le hi
    refine ⟨hne, mem_iff_get.mpr (ht.linked.owned s info hi), ?_⟩
    rw [UInt64.le_iff_toNat_le, ht.numbered.id_eq]
    exact hle
  · exact hne (ht.distinct s s' info info' hi hi' heq)
  · obtain ⟨m', hrun, -⟩ := checkPlans_turns ret ht.linked plans d h
    exact ⟨m', hrun⟩

theorem sessions_owned_monday :
    ∃ m, run (step fun _ => 0) [.update (mondayPlan "a" 9), .check 1 9] {} = .ok m ∧
    (∀ (s : String) (info : StoreSesInfo), m.storeSess_[s]? = some info →
      info.sessionId ≠ 0 ∧ info.sessionId ∈ m.sesServicePtr_.storeSess_ ∧
        info.sessionId ≤ m.sesServicePtr_.id_) ∧
    (∀ (s s' : String) (info info' : StoreSesInfo), m.storeSess_[s]? = some info →
      m.storeSess_[s']? = some info' → s ≠ s' → info.sessionId ≠ info'.sessionId) ∧
    ∀ (curDay : Fin 8) (curHour : Fin 24) (plans : List Plan),
      ∃ m', checkPlans (fun _ => 0) curDay curHour plans m = .ok m' := by
  have hmade : (run (step fun _ => 0) [.update (mondayPlan "a" 9), .check 1 9] {}).map
      (fun m => m.sesServicePtr_.made) = .ok 1 := by decide
  obtain ⟨m, hm, hone⟩ := map_ok_iff.mp hmade
  exact ⟨m, hm, sessions_owned ⟨_, hm⟩ (by omega)⟩

structure Leaked (m : StreamMgr) (id : UInt64) : Prop where
  present : id ∈ m.sesServicePtr_.storeSess_
  unrecorded : ∀ (s : String) (info : StoreSesInfo), m.storeSess_[s]? = some info →
    info.sessionId ≠ id

def NoLeak (m : StreamMgr) : Prop := ∀ id, ¬ Leaked m id

/-- The steps that stop no session: answers that are good, and checks at which every planned
stream with a session is wanted. -/
def StopsNothing : Call → StreamMgr → Prop
  | .update _, _ => True
  | .ack _ _ _ err, _ => err = 0
  | .check tm_wday tm_hour, m => ∀ (s : String) (plan : Plan), m.curPlans_[s]? = some plan →
    s ∈ m.storeSess_ → plan.wanted (getCurDay tm_wday) tm_hour = true

/-- The ids that are left suffice for the planned streams. -/
def IdsSuffice : Call → StreamMgr → Prop
  | .check _ _, m => m.sesServicePtr_.id_.toNat + m.curPlans_.size < 2 ^ 64
  | _, _ => True

instance decidableStopsNothing : ∀ (call : Call) (m : StreamMgr), Decidable (StopsNothing call m)
  | .update _, _ => .isTrue trivial
  | .ack _ _ _ _, _ => inferInstanceAs (Decidable (_ = _))
  | .check _ _, _ => decidable_of_iff _ forall_get_iff.symm

instance decidableIdsSuffice : ∀ (call : Call) (m : StreamMgr), Decidable (IdsSuffice call m)
  | .update _, _ => .isTrue trivial
  | .ack _ _ _ _, _ => .isTrue trivial
  | .check _ _, _ => inferInstanceAs (Decidable (_ < _))

section Leaks
variable {ret : Nat → Int} {m m' : StreamMgr} {s : String} {wanted : Bool} {info : StoreSesInfo}
  {ses : StoreSession} {id : UInt64} {d : Fin 8} {h : Fin 24} {plans : List Plan}

theorem noLeak_iff : NoLeak m ↔ ∀ id ∈ m.sesServicePtr_.storeSess_,
    ∃ (s : String) (info : StoreSesInfo), m.storeSess_[s]? = some info ∧ info.sessionId = id := by
  constructor
  · intro hn id hid
    by_contra hnone
    exact hn id ⟨hid, fun s info hi heq => hnone ⟨s, info, hi, heq⟩⟩
  · intro hall id hleak
    obtain ⟨s, info, hi, heq⟩ := hall id hleak.present
    exact hleak.unrecorded s info hi heq

theorem NoLeak.size_le (hn : NoLeak m) :
    m.sesServicePtr_.storeSess_.size ≤ m.storeSess_.size := by
  have hsub : m.sesServicePtr_.storeSess_.toList.map Prod.fst ⊆
      m.storeSess_.toList.map fun p => p.2.sessionId := by
    intro id hid
    obtain ⟨s, info, hi, heq⟩ := noLeak_iff.mp hn id (mem_keys.mp hid)
    exact List.mem_map.mpr
      ⟨(s, info), Std.ExtTreeMap.mem_toList_iff_getElem?_eq_some.mpr hi, heq⟩
  have hlen := (List.Nodup.subperm (nodup_keys m.sesServicePtr_.storeSess_) hsub).length_le
  rwa [List.length_map, List.length_map, Std.ExtTreeMap.length_toList,
    Std.ExtTreeMap.length_toList] at hlen

theorem Tabled.leaked_of_erased (ht : Tabled m) (hi : m.storeSess_[s]? = some info)
    (hserv : m'.sesServicePtr_.storeSess_ = m.sesServicePtr_.storeSess_)
    (hsess : m'.storeSess_ = m.storeSess_.erase s) : Leaked m' info.sessionId := by
  refine ⟨?_, fun a i ha heq => ?_⟩
  · rw [hserv]
    exact mem_iff_get.mpr (ht.linked.owned s info hi)
  · rw [hsess, get_erase] at ha
    split_ifs at ha with hne
    exact hne (ht.distinct a s i info ha hi heq).symm

/-- A session that no stream has is never given to one again. -/
theorem Leaked.created (hl : Leaked m id) (hn : Numbered m.sesServicePtr_)
    (hlt : (createStream ret s m).sesServicePtr_.made < 2 ^ 64) :
    Leaked (createStream ret s m) id := by
  have hserv : (createStream ret s m).sesServicePtr_ = (newSes ret m).2 := createStream_service
  rw [hserv] at hlt
  refine ⟨by rw [hserv]; exact SessionService.mem_newStoreSes hl.present, fun a i hi heq => ?_⟩
  cases createStream_entry hi with
  | inl hold => exact hl.unrecorded a i hold heq
  | inr hmade =>
    obtain ⟨h0, -, rfl⟩ := hmade
    exact newSes_fresh hn hlt h0 hl.present heq.symm

theorem Leaked.of_erase (hl : Leaked m id)
    (hserv : m'.sesServicePtr_.storeSess_ = m.sesServicePtr_.storeSess_)
    (hsess : m'.storeSess_ = m.storeSess_.erase s) : Leaked m' id := by
  refine ⟨by rw [hserv]; exact hl.present, fun a i ha => ?_⟩
  rw [hsess, get_erase] at ha
  split_ifs at ha
  exact hl.unrecorded a i ha

theorem StreamMgr.Turn.leaked (t : Turn ret s wanted m m') (hn : Numbered m.sesServicePtr_)
    (hlt : m'.sesServicePtr_.made < 2 ^ 64) (hl : Leaked m id) : Leaked m' id := by
  cases t with
  | kept => exact hl
  | idle => exact hl
  | created => exact hl.created hn hlt
  | stopped => exact hl.of_erase rfl rfl

theorem StreamMgr.Turns.leaked (t : Turns ret d h plans m m') (ht : Tabled m)
    (hlt : m'.sesServicePtr_.made < 2 ^ 64) (hl : Leaked m id) : Leaked m' id := by
  induction t with
  | nil => exact hl
  | cons first rest ih =>
    have hlt₁ := Nat.lt_of_le_of_lt rest.made_le hlt
    exact ih (first.tabled ht hlt₁) hlt (first.leaked ht.numbered hlt₁ hl)

theorem StreamMgr.Turns.leaks (t : Turns ret d h plans m m') (ht : Tabled m)
    (hlt : m'.sesServicePtr_.made < 2 ^ 64) (hnd : (plans.map Plan.streamId).Nodup) {plan : Plan}
    (hp : plan ∈ plans) (hs : plan.streamId ∈ m.storeSess_) (hw : plan.wanted d h = false) :
    ∃ id, Leaked m' id := by
  induction t with
  | nil => exact absurd hp List.not_mem_nil
  | @cons plan₁ plans m m₁ m' first rest ih =>
    have hlt₁ := Nat.lt_of_le_of_lt rest.made_le hlt
    rw [List.map_cons, List.nodup_cons] at hnd
    cases List.mem_cons.mp hp with
    | inl heq =>
      subst heq
      cases first with
      | kept hw' =>
        rw [hw] at hw'
        cases hw'
      | created hw' =>
        rw [hw] at hw'
        cases hw'
      | idle _ hs' => exact absurd hs hs'
      | stopped hw' info ses hi hses =>
        have ht₁ := ht.erasing (ht.linked.stopped plan.streamId info ses)
          (ht.numbered.safeCall _) rfl
        exact ⟨_, rest.leaked ht₁ hlt (ht.leaked_of_erased hi rfl rfl)⟩
    | inr hrest =>
      have hne : plan.streamId ≠ plan₁.streamId := fun heq =>
        hnd.1 (heq ▸ List.mem_map_of_mem hrest)
      refine ih (first.tabled ht hlt₁) hlt hnd.2 hrest ?_
      rw [mem_iff_get, first.frame hne, ← mem_iff_get]
      exact hs

theorem made_newStoreSes_le {x : SessionService} {port : UInt16} :
    (x.newStoreSes ret port).2.made ≤ x.made + 1 := by
  obtain hc | hc | hc := SessionService.newStoreSes_cases ret x port
  · rw [hc]
    exact Nat.le_succ _
  · rw [hc]
    exact Nat.le_refl _
  · rw [hc]
    exact Nat.le_refl _

theorem StreamMgr.Turns.made_le_add (t : Turns ret d h plans m m') :
    m'.sesServicePtr_.made ≤ m.sesServicePtr_.made + plans.length := by
  induction t with
  | nil => exact Nat.le_refl _
  | @cons plan plans m m₁ m' first rest ih =>
    have hfirst : m₁.sesServicePtr_.made ≤ m.sesServicePtr_.made + 1 := by
      cases first with
      | kept => exact Nat.le_succ _
      | idle => exact Nat.le_succ _
      | stopped => exact Nat.le_succ _
      | created =>
        rw [createStream_service]
        exact made_newStoreSes_le
    rw [List.length_cons]
    omega

theorem noLeak_created (hn : NoLeak m) (ht : Tabled m) (hs : s ∉ m.storeSess_)
    (hlt : (createStream ret s m).sesServicePtr_.made < 2 ^ 64) :
    NoLeak (createStream ret s m) := by
  have hserv : (createStream ret s m).sesServicePtr_ = (newSes ret m).2 := createStream_service
  rw [hserv] at hlt
  rw [noLeak_iff] at hn ⊢
  intro id hid
  rw [hserv] at hid
  -- a session of before keeps its entry, since the stream of the new one had none
  have hold : id ∈ m.sesServicePtr_.storeSess_ → ∃ (a : String) (i : StoreSesInfo),
      (createStream ret s m).storeSess_[a]? = some i ∧ i.sessionId = id := by
    intro hmem
    obtain ⟨a, i, hi, heq⟩ := hn id hmem
    have hne : a ≠ s := fun h => hs (mem_iff_get.mpr ⟨i, h ▸ hi⟩)
    exact ⟨a, i, (createStream_frame hne).trans hi, heq⟩
  obtain hc | hc | hc := SessionService.newStoreSes_cases ret m.sesServicePtr_ m.port_
  · rw [newSes, hc] at hid
    exact hold hid
  · rw [newSes, hc] at hid
    exact hold hid
  · have hid' : id ∈ m.sesServicePtr_.storeSess_.insert (m.sesServicePtr_.id_ + 1)
        { serial := m.sesServicePtr_.made, addr_ := { host := "127.0.0.1", port := m.port_ } } := by
      rw [newSes, hc] at hid
      exact hid
    rw [newSes, hc] at hlt
    have h1 : (newSes ret m).1 = m.sesServicePtr_.id_ + 1 := by rw [newSes, hc]
    have h0 : (newSes ret m).1 ≠ 0 := by
      intro hz
      have hnext := ht.numbered.next_id hlt
      rw [← h1, hz] at hnext
      simp at hnext
    cases Std.ExtTreeMap.mem_insert.mp hid' with
    | inl heq =>
      exact ⟨s, _, createStream_own h0, h1.trans (Std.compare_eq_iff_eq.mp heq)⟩
    | inr hmem => exact hold hmem

theorem StreamMgr.Turns.noLeak (t : Turns ret d h plans m m') (ht : Tabled m)
    (hlt : m'.sesServicePtr_.made < 2 ^ 64) (hnd : (plans.map Plan.streamId).Nodup)
    (hw : ∀ plan ∈ plans, plan.streamId ∈ m.storeSess_ → plan.wanted d h = true)
    (hn : NoLeak m) : NoLeak m' := by
  induction t with
  | nil => exact hn
  | @cons plan₁ plans m m₁ m' first rest ih =>
    have hlt₁ := Nat.lt_of_le_of_lt rest.made_le hlt
    rw [List.map_cons, List.nodup_cons] at hnd
    have hrest : ∀ plan ∈ plans, plan.streamId ∈ m₁.storeSess_ → plan.wanted d h = true := by
      intro plan hp hs
      have hne : plan.streamId ≠ plan₁.streamId := fun heq =>
        hnd.1 (heq ▸ List.mem_map_of_mem hp)
      rw [mem_iff_get, first.frame hne, ← mem_iff_get] at hs
      exact hw plan (List.mem_cons_of_mem _ hp) hs
    have hfirst : NoLeak m₁ := by
      cases first with
      | kept => exact hn
      | idle => exact hn
      | created _ hs => exact noLeak_created hn ht hs hlt₁
      | stopped hun info ses hi _ =>
        have hwant := hw plan₁ List.mem_cons_self (mem_iff_get.mpr ⟨info, hi⟩)
        rw [hun] at hwant
        cases hwant
    exact ih (first.tabled ht hlt₁) hlt hnd.2 hrest hfirst

theorem NoLeak.started (hn : NoLeak m) {ses : StoreSession} (hi : m.storeSess_[s]? = some info)
    (p1 p2 : UInt32) : NoLeak (m.started s info ses p1 p2) := by
  intro id hleak
  refine hn id ⟨hleak.present, fun a i ha heq => ?_⟩
  by_cases hsa : s = a
  · rw [← hsa, hi] at ha
    cases ha
    exact hleak.unrecorded s { info with para1 := p1, para2 := p2 }
      (by simp [StreamMgr.started]) heq
  · exact hleak.unrecorded a i (by rw [StreamMgr.started, get_insert, if_neg hsa, ha]) heq

theorem noLeak_step (ht : Tabled m) (hn : NoLeak m) {call : Call}
    (hstep : step ret call m = .ok m') (hlt : m'.sesServicePtr_.made < 2 ^ 64) :
    NoLeak m' ↔ StopsNothing call m := by
  cases call with
  | update msg =>
    cases hstep
    obtain ⟨hsess, hserv, -⟩ := updateStorePlan_frame msg m
    refine ⟨fun _ => trivial, fun _ => ?_⟩
    rw [noLeak_iff, hsess, hserv, ← noLeak_iff]
    exact hn
  | ack s p1 p2 err =>
    obtain ⟨info, ses, hi, hs, hcase⟩ := startStream_cases ht.linked ht.numbered hstep
    cases hcase with
    | inl hgood =>
      rw [hgood.2]
      exact ⟨fun _ => hgood.1, fun _ => hn.started hi p1 p2⟩
    | inr hbad =>
      rw [hbad.2]
      exact ⟨fun h => (h _ (ht.leaked_of_erased hi rfl rfl)).elim, fun h => absurd h hbad.1⟩
  | check tm_wday tm_hour =>
    obtain ⟨m₁, hrun, t⟩ := checkStorePlan_turns ret ht.linked tm_wday tm_hour
    rw [step, hrun] at hstep
    cases hstep
    constructor
    · intro hn' s plan hget hs
      have hkey := ht.linked.keyed s plan hget
      have hmem : plan ∈ m.curPlans_.toList.map Prod.snd := mem_values.mpr ⟨s, hget⟩
      by_contra hw
      obtain ⟨id, hleak⟩ := t.leaks ht hlt ht.linked.nodup_plans hmem (by rw [hkey]; exact hs)
        (by simpa using hw)
      exact hn' id hleak
    · intro hw
      exact t.noLeak ht hlt ht.linked.nodup_plans (ht.linked.forall_plans.mpr hw) hn

theorem made_step_lt (ht : Tabled m) {call : Call} (hc : IdsSuffice call m)
    (hlt : m.sesServicePtr_.made < 2 ^ 64) (hstep : step ret call m = .ok m') :
    m'.sesServicePtr_.made < 2 ^ 64 := by
  cases call with
  | update msg =>
    cases hstep
    rw [(updateStorePlan_frame msg m).2.1]
    exact hlt
  | ack s p1 p2 err =>
    obtain ⟨t, task, rfl⟩ := startStream_frame hstep
    exact hlt
  | check tm_wday tm_hour =>
    obtain ⟨m₁, hrun, t⟩ := checkStorePlan_turns ret ht.linked tm_wday tm_hour
    rw [step, hrun] at hstep
    cases hstep
    have hle := t.made_le_add
    rw [List.length_map, Std.ExtTreeMap.length_toList] at hle
    rw [IdsSuffice, ht.numbered.id_eq] at hc
    exact Nat.lt_of_le_of_lt hle hc

theorem made_run {calls : List Call} (hl : Linked m) (hrun : run (step ret) calls m = .ok m') :
    m.sesServicePtr_.made ≤ m'.sesServicePtr_.made := by
  have hinv := run_inv_of (C := fun _ _ => True)
    (I := fun y : StreamMgr => Linked y ∧ m.sesServicePtr_.made ≤ y.sesServicePtr_.made)
    ⟨hl, Nat.le_refl _⟩
    (fun call y y' hy _ hs => ⟨linked_step hy.1 hs, Nat.le_trans hy.2 (made_step hy.1 hs)⟩)
    (meets_true _ _) hrun
  exact hinv.2

theorem noLeak_run_iff {calls : List Call} (ht : Tabled m) (hn : NoLeak m)
    (hrun : run (step ret) calls m = .ok m') (hlt : m'.sesServicePtr_.made < 2 ^ 64) :
    (∀ u m₁, u <+: calls → run (step ret) u m = .ok m₁ → NoLeak m₁) ↔
      Meets (step ret) StopsNothing calls m := by
  induction calls generalizing m with
  | nil =>
    refine ⟨fun _ => trivial, fun _ u m₁ hu hm₁ => ?_⟩
    rw [List.prefix_nil.mp hu] at hm₁
    cases hm₁
    exact hn
  | cons call calls ih =>
    obtain ⟨m₁, hstep, hrest⟩ := run_cons_ok.mp hrun
    have hlt₁ := Nat.lt_of_le_of_lt (made_run (linked_step ht.linked hstep) hrest) hlt
    have ht₁ := tabled_step ht hstep hlt₁
    have hiff := noLeak_step ht hn hstep hlt₁
    constructor
    · intro hall
      have hn₁ : NoLeak m₁ :=
        hall [call] m₁ ⟨calls, rfl⟩ (run_cons_ok.mpr ⟨m₁, hstep, rfl⟩)
      refine ⟨hiff.mp hn₁, fun m₂ hm₂ => ?_⟩
      cases hstep.symm.trans hm₂
      exact (ih ht₁ hn₁ hrest).mp fun u m₃ hu hm₃ =>
        hall (call :: u) m₃ ((List.prefix_cons_inj call).mpr hu)
          (run_cons_ok.mpr ⟨m₁, hstep, hm₃⟩)
    · intro hmeets u m₂ hu hm₂
      have hn₁ := hiff.mpr hmeets.1
      cases u with
      | nil =>
        cases hm₂
        exact hn
      | cons c u =>
        obtain ⟨rfl, hu'⟩ := List.cons_prefix_cons.mp hu
        obtain ⟨m₃, hm₃, hrun₃⟩ := run_cons_ok.mp hm₂
        cases hstep.symm.trans hm₃
        exact (ih ht₁ hn₁ hrest).mpr (hmeets.2 m₁ hstep) u m₂ hu' hrun₃

end Leaks

/-- A run whose steps stop no session and leave ids to give leaks none, and the service then has
no more sessions than there are recorded streams; and while the ids last, a run leaks nothing at
any point exactly when its steps stop no session. -/
theorem no_leak_when_kept {ret : Nat → Int} {calls : List Call} {m : StreamMgr}
    (hrun : run (step ret) calls {} = .ok m) :
    (Meets (step ret) (fun call m => StopsNothing call m ∧ IdsSuffice call m) calls {} →
      NoLeak m ∧ m.sesServicePtr_.storeSess_.size ≤ m.storeSess_.size) ∧
    (m.sesServicePtr_.made < 2 ^ 64 →
      ((∀ u m', u <+: calls → run (step ret) u {} = .ok m' → NoLeak m') ↔
        Meets (step ret) StopsNothing calls {})) := by
  have hstart : NoLeak {} := fun id h => absurd h.present (by simp)
  constructor
  · intro hmeets
    have hinv := run_inv_of
      (I := fun m : StreamMgr => Tabled m ∧ NoLeak m ∧ m.sesServicePtr_.made < 2 ^ 64)
      ⟨tabled_start, hstart, by decide⟩
      (fun call m m' ⟨ht, hn, hlt⟩ hc hs =>
        have hlt' := made_step_lt ht hc.2 hlt hs
        ⟨tabled_step ht hs hlt', (noLeak_step ht hn hs hlt').mpr hc.1, hlt'⟩)
      hmeets hrun
    exact ⟨hinv.2.1, hinv.2.1.size_le⟩
  · exact noLeak_run_iff tabled_start hstart hrun

theorem no_leak_monday :
    ∃ m, run (step fun _ => 0) [.update (mondayPlan "a" 9), .check 1 9] {} = .ok m ∧
      "a" ∈ m.storeSess_ ∧ 1 ∈ m.sesServicePtr_.storeSess_ ∧
      (NoLeak m ∧ m.sesServicePtr_.storeSess_.size ≤ m.storeSess_.size) ∧
      ((∀ u m', u <+: [.update (mondayPlan "a" 9), .check 1 9] →
          run (step fun _ => 0) u {} = .ok m' → NoLeak m') ↔
        Meets (step fun _ => 0) StopsNothing [.update (mondayPlan "a" 9), .check 1 9] {}) := by
  have hrun : (run (step fun _ => 0) [.update (mondayPlan "a" 9), .check 1 9] {}).map
      (fun m => (decide ("a" ∈ m.storeSess_), decide (1 ∈ m.sesServicePtr_.storeSess_),
        m.sesServicePtr_.made)) = .ok (true, true, 1) := by decide
  obtain ⟨m, hm, hend⟩ := map_ok_iff.mp hrun
  simp only [Prod.mk.injEq, decide_eq_true_eq] at hend
  obtain ⟨hkept, hleaks⟩ := no_leak_when_kept hm
  have hmeets : Meets (step fun _ => 0) (fun call m => StopsNothing call m ∧ IdsSuffice call m)
      [.update (mondayPlan "a" 9), .check 1 9] {} := by decide
  exact ⟨m, hm, hend.1, hend.2.1, hkept hmeets, hleaks (by rw [hend.2.2]; decide)⟩

/-- The hour for which a stream is planned passes: its session is stopped, and stays in the table of
the service. -/
theorem stopped_session_leaks :
    ∃ m, run (step fun _ => 0) [.update (mondayPlan "a" 9), .check 1 9, .check 1 10] {} = .ok m ∧
      m.storeSess_ = ∅ ∧ Leaked m 1 := by
  have hrun : (run (step fun _ => 0) [.update (mondayPlan "a" 9), .check 1 9,
      .check 1 10] {}).map
        (fun m => (m.storeSess_.isEmpty, decide (1 ∈ m.sesServicePtr_.storeSess_))) =
      .ok (true, true) := by decide
  obtain ⟨m, hm, hend⟩ := map_ok_iff.mp hrun
  simp only [Prod.mk.injEq, decide_eq_true_eq] at hend
  have hempty : m.storeSess_ = ∅ := Std.ExtTreeMap.isEmpty_iff.mp hend.1
  exact ⟨m, hm, hempty, hend.2, fun s info hi => by simp [hempty] at hi⟩

end LazyNet.Streams
