import LazyNet.StreamMgr
import Mathlib.Data.Nat.Bitwise

/-! What each call of the stream manager does in a state whose entries all name sessions, and
that every completed run stays in such states. -/
namespace LazyNet.Streams
open LazyNet.Tables LazyNet.ExternalMsgCodec LazyNet.MsDsProtocol LazyNet.Sessions LazyNet.StepRuns

def Plan.wanted (plan : Plan) (curDay : Fin 8) (curHour : Fin 24) : Bool :=
  (plan.timePhrase.get curDay).toNat.testBit curHour

theorem bit_iff (v : UInt32) (h : Fin 24) :
    v &&& (1 <<< UInt32.ofNat h) ≠ 0 ↔ v.toNat.testBit h = true := by
  have hh := h.isLt
  have hmod : h.val % 4294967296 % 32 = h := by omega
  have hpow : 2 ^ h.val % 4294967296 = 2 ^ h.val := by
    refine Nat.mod_eq_of_lt (Nat.lt_of_le_of_lt (Nat.pow_le_pow_right (by omega) ?_)
      (by decide : 2 ^ 24 < 4294967296))
    omega
  rw [ne_eq, ← UInt32.toNat_inj, UInt32.toNat_and, UInt32.toNat_shiftLeft]
  simp only [UInt32.toNat_ofNat', UInt32.reduceToNat, Nat.one_shiftLeft, Nat.reducePow, hmod, hpow,
    Nat.and_two_pow]
  cases v.toNat.testBit h <;> simp

namespace StreamMgr

/-- Every entry names a session, plans are filed under their own stream, and nothing waits to
be deleted. -/
structure Linked (m : StreamMgr) : Prop where
  owned : ∀ (s : String) (info : StoreSesInfo), m.storeSess_[s]? = some info →
    ∃ ses, m.sesServicePtr_.storeSess_[info.sessionId]? = some ses
  keyed : ∀ (k : String) (plan : Plan), m.curPlans_[k]? = some plan → plan.streamId = k
  noDel : m.delPlans_ = ∅

variable {m : StreamMgr} {s : String} {info : StoreSesInfo} {ses : StoreSession}

theorem storeSlot_of_get (h : m.storeSess_[s]? = some info) : m.storeSlot s = (info, m) := by
  simp [storeSlot, slot_of_get h]

theorem storeSlot_of_notMem (h : s ∉ m.storeSess_) :
    m.storeSlot s = ({}, { m with storeSess_ := m.storeSess_.insert s {} }) := by
  simp [storeSlot, slot_of_notMem h]

theorem callSession_ok {sesid : UInt64} (h : m.sesServicePtr_.storeSess_[sesid]? = some ses)
    (task : Nat → StoreTask) : m.callSession sesid task =
      .ok { m with sesServicePtr_ := m.sesServicePtr_.safeCall (task ses.serial) } := by
  simp [callSession, SessionService.getStoreSes, h]

def stopped (m : StreamMgr) (s : String) (info : StoreSesInfo) (ses : StoreSession) : StreamMgr :=
  { m with
    storeSess_ := m.storeSess_.erase s
    sesServicePtr_ := m.sesServicePtr_.safeCall (.closeUDP ses.serial)
    log := m.log ++ [.send (.name "MS_DS.Bye" info.para1 info.para2 0)] }

theorem stopStream_ok (hi : m.storeSess_[s]? = some info)
    (hs : m.sesServicePtr_.storeSess_[info.sessionId]? = some ses) :
    stopStream s m = .ok (m.stopped s info ses) := by
  have hbye : byeStream s m = m.encode (.name "MS_DS.Bye" info.para1 info.para2 0) := by
    simp [byeStream, storeSlot_of_get hi]
  have hslot : (m.encode (.name "MS_DS.Bye" info.para1 info.para2 0)).storeSlot s =
      (info, m.encode (.name "MS_DS.Bye" info.para1 info.para2 0)) := storeSlot_of_get hi
  simp only [stopStream, hbye, hslot]
  rw [callSession_ok (m := m.encode _) hs]
  rfl

def started (m : StreamMgr) (s : String) (info : StoreSesInfo) (ses : StoreSession)
    (p1 p2 : UInt32) : StreamMgr :=
  { m with
    storeSess_ := m.storeSess_.insert s { info with para1 := p1, para2 := p2 }
    sesServicePtr_ := m.sesServicePtr_.safeCall (.attatchToLoop ses.serial) }

theorem startStream_good (hi : m.storeSess_[s]? = some info)
    (hs : m.sesServicePtr_.storeSess_[info.sessionId]? = some ses) (p1 p2 : UInt32) :
    startStream s p1 p2 0 m = .ok (m.started s info ses p1 p2) := by
  simp only [startStream, storeSlot_of_get hi, ne_eq, not_true, if_false]
  rw [callSession_ok]
  · rfl
  · exact hs

def dropped (m : StreamMgr) (s : String) (ses : StoreSession) : StreamMgr :=
  { m with
    storeSess_ := m.storeSess_.erase s
    sesServicePtr_ := m.sesServicePtr_.safeCall (.closeUDP ses.serial) }

theorem startStream_bad (hi : m.storeSess_[s]? = some info)
    (hs : m.sesServicePtr_.storeSess_[info.sessionId]? = some ses) (p1 p2 : UInt32)
    {err : UInt32} (he : err ≠ 0) : startStream s p1 p2 err m = .ok (m.dropped s ses) := by
  simp only [startStream, storeSlot_of_get hi, ne_eq, he, not_false_eq_true, if_true]
  rw [callSession_ok hs]
  rfl

/-- Without an entry the call goes to the session with id 0, if there ever is one. -/
theorem startStream_missing (h : s ∉ m.storeSess_) (p1 p2 err : UInt32) {m' : StreamMgr}
    (hm : startStream s p1 p2 err m = .ok m') :
    ∃ ses, m.sesServicePtr_.storeSess_[(0 : UInt64)]? = some ses ∧
      if err = 0 then
        m' = { m with
          storeSess_ := m.storeSess_.insert s { sessionId := 0, para1 := p1, para2 := p2 }
          sesServicePtr_ := m.sesServicePtr_.safeCall (.attatchToLoop ses.serial) }
      else m' = { m with sesServicePtr_ := m.sesServicePtr_.safeCall (.closeUDP ses.serial) } := by
  simp only [startStream, storeSlot_of_notMem h] at hm
  cases hs : m.sesServicePtr_.storeSess_[(0 : UInt64)]? with
  | none =>
    simp [callSession, SessionService.getStoreSes, hs, bind, Except.bind] at hm
  | some ses =>
    refine ⟨ses, rfl, ?_⟩
    by_cases he : err = 0
    · simp only [he, ne_eq, not_true, if_false] at hm
      rw [callSession_ok (by exact hs)] at hm
      cases hm
      rw [if_pos he]
      congr 1
      apply Std.ExtTreeMap.ext_getElem?
      intro a
      simp only [get_insert]
      split_ifs <;> rfl
    · simp only [he, ne_eq, not_false_eq_true, if_true] at hm
      rw [callSession_ok (by exact hs)] at hm
      cases hm
      rw [if_neg he]
      congr 1
      exact erase_insert_of_notMem h

/-- No iterator into one map equals the end of another, so nothing is ever put aside. -/
theorem diffStorePlan_eq (m : StreamMgr) : m.diffStorePlan = m := by
  have hfind : ∀ k, find .curPlans m.curPlans_ k ≠ .past .prePlans := by
    intro k
    simp only [find]
    split_ifs <;> simp
  simp [diffStorePlan, hfind]

theorem updateStorePlan_curPlans {msg : StorePlan} (h : msg.empty = false) (s : String) :
    (m.updateStorePlan msg).curPlans_[s]? =
      (lastFor StreamPlanInfo.streamid s msg.streamplaninfo).map Plan.ofInfo := by
  simp only [updateStorePlan, h, diffStorePlan_eq, Bool.false_eq_true, if_false]
  rw [foldl_insert_get]
  simp

theorem updateStorePlan_frame (msg : StorePlan) (m : StreamMgr) :
    (m.updateStorePlan msg).storeSess_ = m.storeSess_ ∧
    (m.updateStorePlan msg).sesServicePtr_ = m.sesServicePtr_ ∧
    (m.updateStorePlan msg).delPlans_ = m.delPlans_ ∧
    (m.updateStorePlan msg).log = m.log := by
  simp only [updateStorePlan, diffStorePlan_eq]
  split_ifs <;> exact ⟨rfl, rfl, rfl, rfl⟩

theorem Linked.update (h : Linked m) (msg : StorePlan) : Linked (m.updateStorePlan msg) := by
  obtain ⟨h1, h2, h3, -⟩ := updateStorePlan_frame msg m
  refine ⟨by rw [h1, h2]; exact h.owned, fun k plan hk => ?_, by rw [h3]; exact h.noDel⟩
  cases he : msg.empty with
  | true => simp [updateStorePlan, he, diffStorePlan_eq] at hk
  | false =>
    rw [updateStorePlan_curPlans he] at hk
    obtain ⟨info, hinfo, rfl⟩ := Option.map_eq_some_iff.mp hk
    have hkey := lastFor_key hinfo
    exact hkey

theorem Linked.stopped (h : Linked m) (s : String) (info : StoreSesInfo) (ses : StoreSession) :
    Linked (m.stopped s info ses) := by
  refine ⟨fun a i ha => ?_, h.keyed, h.noDel⟩
  simp only [StreamMgr.stopped, get_erase] at ha
  split_ifs at ha
  exact h.owned a i ha

theorem Linked.dropped (h : Linked m) (s : String) (ses : StoreSession) :
    Linked (m.dropped s ses) := by
  refine ⟨fun a i ha => ?_, h.keyed, h.noDel⟩
  simp only [StreamMgr.dropped, get_erase] at ha
  split_ifs at ha
  exact h.owned a i ha

theorem Linked.started (h : Linked m)
    (hs : m.sesServicePtr_.storeSess_[info.sessionId]? = some ses) (s : String) (p1 p2 : UInt32) :
    Linked (m.started s info ses p1 p2) := by
  refine ⟨fun a i ha => ?_, h.keyed, h.noDel⟩
  simp only [StreamMgr.started, get_insert] at ha
  split_ifs at ha
  · cases ha
    exact ⟨ses, hs⟩
  · exact h.owned a i ha

def newSes (ret : Nat → Int) (m : StreamMgr) : UInt64 × SessionService :=
  m.sesServicePtr_.newStoreSes ret m.port_

variable {ret : Nat → Int}

theorem createStream_refused (h : (newSes ret m).1 = 0) : createStream ret s m =
    { m with
      sesServicePtr_ := (newSes ret m).2
      port_ := m.port_ + m.portInterval_
      log := m.log ++ [.newStoreSes s m.port_ m.sesServicePtr_.made 0] } := by
  rw [newSes] at h ⊢
  simp [createStream, h]

theorem createStream_made (h : (newSes ret m).1 ≠ 0) : createStream ret s m =
    { m with
      storeSess_ := m.storeSess_.insert s { sessionId := (newSes ret m).1 }
      sesServicePtr_ := (newSes ret m).2
      port_ := m.port_ + m.portInterval_
      log := m.log ++ [.newStoreSes s m.port_ m.sesServicePtr_.made (newSes ret m).1,
        .send (.message { streamid := s, recvcameraport := toString m.port_ } 0 0 0)] } := by
  rw [newSes] at h ⊢
  simp [createStream, inviteStream, encode, h]

theorem createStream_service : (createStream ret s m).sesServicePtr_ = (newSes ret m).2 := by
  by_cases h : (newSes ret m).1 = 0
  · rw [createStream_refused h]
  · rw [createStream_made h]

theorem createStream_frame {a : String} (ha : a ≠ s) :
    (createStream ret s m).storeSess_[a]? = m.storeSess_[a]? := by
  by_cases h : (newSes ret m).1 = 0
  · rw [createStream_refused h]
  · rw [createStream_made h, get_insert, if_neg (Ne.symm ha)]

theorem createStream_own (h : (newSes ret m).1 ≠ 0) :
    (createStream ret s m).storeSess_[s]? = some { sessionId := (newSes ret m).1 } := by
  rw [createStream_made h, get_insert, if_pos rfl]

theorem createStream_entry {a : String} {i : StoreSesInfo}
    (h : (createStream ret s m).storeSess_[a]? = some i) : m.storeSess_[a]? = some i ∨
      (newSes ret m).1 ≠ 0 ∧ a = s ∧ i = { sessionId := (newSes ret m).1 } := by
  by_cases h0 : (newSes ret m).1 = 0
  · rw [createStream_refused h0] at h
    exact .inl h
  · by_cases ha : a = s
    · rw [ha, createStream_own h0] at h
      cases h
      exact .inr ⟨h0, ha, rfl⟩
    · rw [createStream_frame ha] at h
      exact .inl h

theorem createStream_plans (ret : Nat → Int) (s : String) (m : StreamMgr) :
    (createStream ret s m).curPlans_ = m.curPlans_ ∧
    (createStream ret s m).delPlans_ = m.delPlans_ := by
  by_cases h : (newSes ret m).1 = 0
  · rw [createStream_refused h]
    exact ⟨rfl, rfl⟩
  · rw [createStream_made h]
    exact ⟨rfl, rfl⟩

theorem Linked.created (h : Linked m) (s : String) : Linked (createStream ret s m) := by
  obtain ⟨hcur, hdel⟩ := createStream_plans ret s m
  refine ⟨fun a i ha => ?_, by rw [hcur]; exact h.keyed, by rw [hdel]; exact h.noDel⟩
  rw [createStream_service, newSes, ← mem_iff_get]
  cases createStream_entry ha with
  | inl hold =>
    obtain ⟨ses, hses⟩ := h.owned a i hold
    exact SessionService.mem_newStoreSes (mem_iff_get.mpr ⟨ses, hses⟩)
  | inr hmade =>
    obtain ⟨h0, -, rfl⟩ := hmade
    exact SessionService.newStoreSes_mem h0

inductive Turn (ret : Nat → Int) (s : String) (wanted : Bool) (m : StreamMgr) :
    StreamMgr → Prop where
  | kept (hw : wanted = true) (hs : s ∈ m.storeSess_) : Turn ret s wanted m m
  | created (hw : wanted = true) (hs : s ∉ m.storeSess_) :
    Turn ret s wanted m (createStream ret s m)
  | stopped (hw : wanted = false) (info : StoreSesInfo) (ses : StoreSession)
    (hi : m.storeSess_[s]? = some info)
    (hs : m.sesServicePtr_.storeSess_[info.sessionId]? = some ses) :
    Turn ret s wanted m (m.stopped s info ses)
  | idle (hw : wanted = false) (hs : s ∉ m.storeSess_) : Turn ret s wanted m m

theorem checkPlan_turn (ret : Nat → Int) (hm : Linked m) (plan : Plan) (d : Fin 8) (h : Fin 24) :
    ∃ m', checkPlan ret d h plan m = .ok m' ∧ Turn ret plan.streamId (plan.wanted d h) m m' := by
  have hdel : { m with delPlans_ := m.delPlans_.erase plan.streamId } = m := by
    rw [hm.noDel, Std.ExtTreeMap.erase_empty, ← hm.noDel]
  have hbit : plan.timePhrase[d].toNat.testBit h = plan.wanted d h := rfl
  simp only [checkPlan, bit_iff, existStoreSes, decide_eq_true_eq, hdel, hbit]
  cases hw : plan.wanted d h with
  | true =>
    by_cases hs : plan.streamId ∈ m.storeSess_
    · exact ⟨m, by simp [hs], .kept rfl hs⟩
    · exact ⟨_, by simp [hs], .created rfl hs⟩
  | false =>
    by_cases hs : plan.streamId ∈ m.storeSess_
    · obtain ⟨info, hi⟩ := mem_iff_get.mp hs
      obtain ⟨ses, hses⟩ := hm.owned _ info hi
      exact ⟨_, by simp [hs, stopStream_ok hi hses], .stopped rfl info ses hi hses⟩
    · exact ⟨m, by simp [hs], .idle rfl hs⟩

section Rounds
variable {wanted : Bool} {m' : StreamMgr}

theorem Turn.linked (h : Turn ret s wanted m m') (hm : Linked m) : Linked m' := by
  cases h with
  | kept => exact hm
  | created => exact hm.created s
  | stopped _ info ses => exact hm.stopped s info ses
  | idle => exact hm

theorem Turn.frame (h : Turn ret s wanted m m') {a : String} (ha : a ≠ s) :
    m'.storeSess_[a]? = m.storeSess_[a]? := by
  cases h with
  | kept => rfl
  | created => exact createStream_frame ha
  | stopped => rw [StreamMgr.stopped, get_erase, if_neg (Ne.symm ha)]
  | idle => rfl

theorem Turn.curPlans (h : Turn ret s wanted m m') : m'.curPlans_ = m.curPlans_ := by
  cases h with
  | kept => rfl
  | created => exact (createStream_plans ret s m).1
  | stopped => rfl
  | idle => rfl

def Since (m m' : StreamMgr) (evs : List Event) : Prop := m'.log = m.log ++ evs

theorem Since.unique {evs evs' : List Event} (h : Since m m' evs) (h' : Since m m' evs') :
    evs = evs' := List.append_cancel_left (h.symm.trans h')

theorem Since.refl (m : StreamMgr) : Since m m [] := by simp [Since]

theorem Since.nil {evs : List Event} (h : Since m m evs) : evs = [] := h.unique (.refl m)

theorem Since.trans {m₁ : StreamMgr} {evs evs' : List Event} (h : Since m m₁ evs)
    (h' : Since m₁ m' evs') : Since m m' (evs ++ evs') := by
  rw [Since, h', h, List.append_assoc]

theorem Turn.since (h : Turn ret s wanted m m') : ∃ evs, Since m m' evs := by
  cases h with
  | kept => exact ⟨[], .refl m⟩
  | created =>
    by_cases h0 : (newSes ret m).1 = 0
    · rw [createStream_refused h0]
      exact ⟨_, rfl⟩
    · rw [createStream_made h0]
      exact ⟨_, rfl⟩
  | stopped => exact ⟨_, rfl⟩
  | idle => exact ⟨[], .refl m⟩

/-- What the check must bring about for a stream: a session when it is wanted and can be made,
none when it is not, and no change to one that stays. -/
structure Settled (s : String) (wanted : Bool) (m m' : StreamMgr) (evs : List Event) : Prop where
  none_unwanted : s ∈ m'.storeSess_ → wanted = true
  some_wanted : wanted = true →
    s ∈ m'.storeSess_ ∨ ∃ port ses, Event.newStoreSes s port ses 0 ∈ evs
  unchanged : wanted = true → s ∈ m.storeSess_ → m'.storeSess_[s]? = m.storeSess_[s]?

theorem Turn.settled (h : Turn ret s wanted m m') {evs : List Event} (he : Since m m' evs) :
    Settled s wanted m m' evs := by
  cases h with
  | kept hw hs => exact ⟨fun _ => hw, fun _ => .inl hs, fun _ _ => rfl⟩
  | created hw hs =>
    refine ⟨fun _ => hw, fun _ => ?_, fun _ h => absurd h hs⟩
    by_cases h0 : (newSes ret m).1 = 0
    · rw [Since, createStream_refused h0, List.append_cancel_left_eq] at he
      exact .inr ⟨m.port_, m.sesServicePtr_.made, by rw [← he]; exact List.mem_cons_self⟩
    · rw [createStream_made h0]
      exact .inl Std.ExtTreeMap.mem_insert_self
  | stopped hw info ses hi hs =>
    refine ⟨fun h => ?_, fun h => ?_, fun h => ?_⟩
    · exact absurd h (by simp [StreamMgr.stopped])
    · rw [hw] at h; cases h
    · rw [hw] at h; cases h
  | idle hw hs =>
    refine ⟨fun h => absurd h hs, fun h => ?_, fun h => ?_⟩
    · rw [hw] at h; cases h
    · rw [hw] at h; cases h

end Rounds

inductive Turns (ret : Nat → Int) (d : Fin 8) (h : Fin 24) :
    List Plan → StreamMgr → StreamMgr → Prop where
  | nil (m : StreamMgr) : Turns ret d h [] m m
  | cons {plan : Plan} {plans : List Plan} {m m₁ m' : StreamMgr}
    (first : Turn ret plan.streamId (plan.wanted d h) m m₁) (rest : Turns ret d h plans m₁ m') :
    Turns ret d h (plan :: plans) m m'

section Loop
variable {d : Fin 8} {h : Fin 24} {plans : List Plan} {m' : StreamMgr}

theorem checkPlans_turns (ret : Nat → Int) (hm : Linked m) (plans : List Plan) (d : Fin 8)
    (h : Fin 24) : ∃ m', checkPlans ret d h plans m = .ok m' ∧ Turns ret d h plans m m' := by
  induction plans generalizing m with
  | nil => exact ⟨m, rfl, .nil m⟩
  | cons plan plans ih =>
    obtain ⟨m₁, hstep, first⟩ := checkPlan_turn ret hm plan d h
    obtain ⟨m', hrun, rest⟩ := ih (first.linked hm)
    exact ⟨m', run_cons_ok.mpr ⟨m₁, hstep, hrun⟩, .cons first rest⟩

theorem Turns.linked (t : Turns ret d h plans m m') (hm : Linked m) : Linked m' := by
  induction t with
  | nil => exact hm
  | cons first _ ih => exact ih (first.linked hm)

theorem Turns.curPlans (t : Turns ret d h plans m m') : m'.curPlans_ = m.curPlans_ := by
  induction t with
  | nil => rfl
  | cons first _ ih => rw [ih, first.curPlans]

theorem Turns.since (t : Turns ret d h plans m m') : ∃ evs, Since m m' evs := by
  induction t with
  | nil m => exact ⟨[], .refl m⟩
  | cons first _ ih =>
    obtain ⟨evs, he⟩ := first.since
    obtain ⟨evs', he'⟩ := ih
    exact ⟨evs ++ evs', he.trans he'⟩

theorem Turns.frame (t : Turns ret d h plans m m') {a : String}
    (ha : a ∉ plans.map Plan.streamId) : m'.storeSess_[a]? = m.storeSess_[a]? := by
  induction t with
  | nil => rfl
  | cons first _ ih =>
    rw [List.map_cons, List.mem_cons, not_or] at ha
    rw [ih ha.2, first.frame ha.1]

theorem Turns.settled (t : Turns ret d h plans m m') (hnd : (plans.map Plan.streamId).Nodup)
    {evs : List Event} (he : Since m m' evs) :
    ∀ plan ∈ plans, Settled plan.streamId (plan.wanted d h) m m' evs := by
  induction t generalizing evs with
  | nil => exact fun plan hp => absurd hp (by simp)
  | @cons plan₁ plans m m₁ m' first rest ih =>
    obtain ⟨evs₁, he₁⟩ := first.since
    obtain ⟨evs₂, he₂⟩ := rest.since
    obtain rfl : evs = evs₁ ++ evs₂ := he.unique (he₁.trans he₂)
    rw [List.map_cons, List.nodup_cons] at hnd
    intro plan hp
    cases List.mem_cons.mp hp with
    | inl hfirst =>
      subst hfirst
      have hset := first.settled he₁
      have hframe := rest.frame hnd.1
      refine ⟨fun hs => ?_, fun hw => ?_, fun hw hs => ?_⟩
      · rw [mem_iff_get, hframe, ← mem_iff_get] at hs
        exact hset.none_unwanted hs
      · rw [mem_iff_get, hframe, ← mem_iff_get]
        exact (hset.some_wanted hw).imp_right fun ⟨port, ses, hev⟩ =>
          ⟨port, ses, List.mem_append_left _ hev⟩
      · rw [hframe]
        exact hset.unchanged hw hs
    | inr hrest =>
      have hset := ih hnd.2 he₂ plan hrest
      have hne : plan.streamId ≠ plan₁.streamId := fun heq =>
        hnd.1 (heq ▸ List.mem_map_of_mem hrest)
      have hframe := first.frame hne
      refine ⟨hset.none_unwanted, fun hw => ?_, fun hw hs => ?_⟩
      · exact (hset.some_wanted hw).imp_right fun ⟨port, ses, hev⟩ =>
          ⟨port, ses, List.mem_append_right _ hev⟩
      · rw [mem_iff_get, ← hframe, ← mem_iff_get] at hs
        rw [hset.unchanged hw hs, hframe]

/-- With nothing waiting to be deleted the check is its first loop. -/
theorem checkStorePlan_turns (ret : Nat → Int) (hm : Linked m) (tm_wday : Fin 7)
    (tm_hour : Fin 24) : ∃ m', checkStorePlan ret tm_wday tm_hour m = .ok m' ∧
      Turns ret (getCurDay tm_wday) tm_hour (m.curPlans_.toList.map Prod.snd) m m' := by
  obtain ⟨m', hrun, t⟩ := checkPlans_turns ret hm (m.curPlans_.toList.map Prod.snd)
    (getCurDay tm_wday) tm_hour
  have hempty : m'.delPlans_.toList = [] := by
    rw [(t.linked hm).noDel]
    rfl
  refine ⟨m', ?_, t⟩
  rw [checkStorePlan, hrun]
  simp [bind, Except.bind, sweepDelPlans, hempty]

theorem Linked.streamIds (hm : Linked m) :
    (m.curPlans_.toList.map Prod.snd).map Plan.streamId = m.curPlans_.toList.map Prod.fst := by
  rw [List.map_map]
  refine List.map_congr_left fun p hp => ?_
  exact hm.keyed p.1 p.2 (Std.ExtTreeMap.mem_toList_iff_getElem?_eq_some.mp hp)

theorem Linked.nodup_plans (hm : Linked m) :
    ((m.curPlans_.toList.map Prod.snd).map Plan.streamId).Nodup := by
  rw [hm.streamIds]
  exact nodup_keys m.curPlans_

theorem Linked.forall_plans (hm : Linked m) {P : String → Plan → Prop} :
    (∀ plan ∈ m.curPlans_.toList.map Prod.snd, P plan.streamId plan) ↔
      ∀ (s : String) (plan : Plan), m.curPlans_[s]? = some plan → P s plan := by
  constructor
  · intro h s plan hs
    rw [← hm.keyed s plan hs]
    exact h plan (mem_values.mpr ⟨s, hs⟩)
  · intro h plan hp
    obtain ⟨s, hs⟩ := mem_values.mp hp
    rw [hm.keyed s plan hs]
    exact h s plan hs

theorem Linked.settled (hm : Linked m)
    (t : Turns ret d h (m.curPlans_.toList.map Prod.snd) m m') {evs : List Event}
    (he : Since m m' evs) {s : String} {plan : Plan} (hs : m.curPlans_[s]? = some plan) :
    Settled s (plan.wanted d h) m m' evs :=
  (hm.forall_plans (P := fun s plan => Settled s (plan.wanted d h) m m' evs)).mp
    (t.settled hm.nodup_plans he) s plan hs

theorem Linked.ack (hm : Linked m) {p1 p2 err : UInt32}
    (h : startStream s p1 p2 err m = .ok m') : Linked m' := by
  by_cases hs : s ∈ m.storeSess_
  · obtain ⟨info, hi⟩ := mem_iff_get.mp hs
    obtain ⟨ses, hses⟩ := hm.owned s info hi
    by_cases he : err = 0
    · rw [he, startStream_good hi hses] at h
      cases h
      exact hm.started hses s p1 p2
    · rw [startStream_bad hi hses p1 p2 he] at h
      cases h
      exact hm.dropped s ses
  · obtain ⟨ses, hses, hcase⟩ := startStream_missing hs p1 p2 err h
    split_ifs at hcase
    · subst hcase
      have hzero : m.sesServicePtr_.storeSess_[({} : StoreSesInfo).sessionId]? = some ses := hses
      exact hm.started hzero s p1 p2
    · subst hcase
      exact ⟨hm.owned, hm.keyed, hm.noDel⟩

theorem linked_step {call : Call} (hm : Linked m) (h : step ret call m = .ok m') : Linked m' := by
  cases call with
  | update msg =>
    cases h
    exact hm.update msg
  | ack streamid p1 p2 err => exact hm.ack h
  | check tm_wday tm_hour =>
    obtain ⟨m₁, hrun, t⟩ := checkStorePlan_turns ret hm tm_wday tm_hour
    rw [step, hrun] at h
    cases h
    exact t.linked hm

theorem linked_start : Linked {} :=
  ⟨fun s info h => by simp at h, fun k plan h => by simp at h, rfl⟩

theorem linked_of_reachable (h : Reachable (step ret) {} m) : Linked m :=
  h.inv linked_start fun _ _ _ hm hs => linked_step hm hs

end Loop

end StreamMgr

end LazyNet.Streams
