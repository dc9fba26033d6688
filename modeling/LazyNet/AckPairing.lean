import LazyNet.PlanChecks

/-! Invites and their answers: the MS answers the invites in order, with answers that carry only
the stream, while plans change and sessions are stopped and made anew in between. -/
namespace LazyNet.Streams
open LazyNet.Tables LazyNet.ExternalMsgCodec LazyNet.MsDsProtocol LazyNet.Sessions LazyNet.StepRuns
open StreamMgr

structure Invite where
  streamid : String
  ses : Nat
  deriving DecidableEq, Repr

structure Answer where
  invite : Invite
  para1 : UInt32
  para2 : UInt32
  err : UInt32
  deriving DecidableEq, Repr

/-- The invites among some calls: one for each session that got an id. -/
def invites (evs : List Event) : List Invite :=
  evs.filterMap fun
    | .newStoreSes streamid _ ses sesId => if sesId ≠ 0 then some { streamid, ses } else none
    | .send _ => none

/-- The manager and its peer, with the invites still to be answered, oldest first, and the
answers that have been delivered. -/
structure System where
  mgr : StreamMgr := {}
  pending : List Invite := []
  answered : List Answer := []

inductive Action where
  | update (msg : StorePlan)
  | check (tm_wday : Fin 7) (tm_hour : Fin 24)
  | deliver (para1 para2 err : UInt32)
  deriving DecidableEq, Repr

/-- With nothing to answer a delivery does nothing. -/
def advance (ret : Nat → Int) : Action → System → Except Fault System
  | .update msg, x => .ok { x with mgr := x.mgr.updateStorePlan msg }
  | .check tm_wday tm_hour, x => do
    let m ← x.mgr.checkStorePlan ret tm_wday tm_hour
    .ok { x with mgr := m, pending := x.pending ++ invites (m.log.drop x.mgr.log.length) }
  | .deliver para1 para2 err, x =>
    match x.pending with
    | [] => .ok x
    | invite :: rest => do
      let m ← x.mgr.startStream invite.streamid para1 para2 err
      .ok { mgr := m, pending := rest,
            answered := x.answered ++ [{ invite, para1, para2, err }] }

def Closed (m : StreamMgr) (n : Nat) : Prop := StoreTask.closeUDP n ∈ m.sesServicePtr_.storeLoop_

def Records (m : StreamMgr) (s : String) (n : Nat) : Prop :=
  ∃ info ses, m.storeSess_[s]? = some info ∧
    m.sesServicePtr_.storeSess_[info.sessionId]? = some ses ∧ ses.serial = n

/-- A good answer for the stream completes, calls `startStore` on this session and on no other,
and leaves its words in the entry of the stream. -/
def StartsSession (m : StreamMgr) (s : String) (n : Nat) (p1 p2 : UInt32) : Prop :=
  ∃ m', startStream s p1 p2 0 m = .ok m' ∧
    m'.sesServicePtr_.storeLoop_ = m.sesServicePtr_.storeLoop_ ++ [.attatchToLoop n] ∧
    m'.storeSess_[s]?.map (fun info => (info.para1, info.para2)) = some (p1, p2)

/-- Ids and sessions are counted together, so that no id is ever given twice. -/
structure Numbered (x : SessionService) : Prop where
  id_eq : x.id_.toNat = x.made
  serial_of : ∀ (id : UInt64) (ses : StoreSession), x.storeSess_[id]? = some ses →
    id.toNat = ses.serial + 1 ∧ ses.serial < x.made

section Service
variable {ret : Nat → Int} {x : SessionService} {port : UInt16}

theorem Numbered.safeCall (h : Numbered x) (task : StoreTask) : Numbered (x.safeCall task) :=
  ⟨h.id_eq, h.serial_of⟩

theorem made_newStoreSes : x.made ≤ (x.newStoreSes ret port).2.made := by
  obtain hc | hc | hc := SessionService.newStoreSes_cases ret x port
  · rw [hc]
  · rw [hc]
    exact Nat.le_succ _
  · rw [hc]
    exact Nat.le_succ _

theorem count_newStoreSes {task : StoreTask} (ht : ∀ n, task ≠ .bindAddr n) :
    (x.newStoreSes ret port).2.storeLoop_.count task = x.storeLoop_.count task := by
  have hbind : [StoreTask.bindAddr x.made].count task = 0 := by simp [Ne.symm (ht x.made)]
  obtain hc | hc | hc := SessionService.newStoreSes_cases ret x port
  · rw [hc]
  · rw [hc, SessionService.safeCall_storeLoop, List.count_append, hbind]
    rfl
  · rw [hc, SessionService.safeCall_storeLoop, List.count_append, hbind]
    rfl

theorem Numbered.next_id (h : Numbered x) (hlt : x.made + 1 < 2 ^ 64) :
    (x.id_ + 1).toNat = x.made + 1 := by
  rw [UInt64.toNat_add, h.id_eq]
  exact Nat.mod_eq_of_lt hlt

theorem Numbered.newStoreSes (h : Numbered x) (hlt : (x.newStoreSes ret port).2.made < 2 ^ 64) :
    Numbered (x.newStoreSes ret port).2 ∧
    (∀ (id : UInt64) (ses : StoreSession), x.storeSess_[id]? = some ses →
      (x.newStoreSes ret port).2.storeSess_[id]? = some ses) ∧
    ((x.newStoreSes ret port).1 ≠ 0 → (x.newStoreSes ret port).2.made = x.made + 1 ∧
      ∃ ses, (x.newStoreSes ret port).2.storeSess_[(x.newStoreSes ret port).1]? = some ses ∧
        ses.serial = x.made) := by
  obtain hc | hc | hc := SessionService.newStoreSes_cases ret x port <;> rw [hc] at hlt ⊢
  · exact ⟨h, fun _ _ hs => hs, fun h0 => absurd rfl h0⟩
  · refine ⟨⟨h.next_id hlt, fun id ses hs => ?_⟩, fun _ _ hs => hs, fun h0 => absurd rfl h0⟩
    obtain ⟨h1, h2⟩ := h.serial_of id ses hs
    exact ⟨h1, Nat.lt_succ_of_lt h2⟩
  · have hid := h.next_id hlt
    refine ⟨⟨hid, fun id ses hs => ?_⟩, fun id ses hs => ?_, fun _ => ⟨rfl, ?_⟩⟩
    · simp only [get_insert] at hs
      split_ifs at hs with heq
      · cases hs
        exact ⟨by rw [← heq]; exact hid, Nat.lt_succ_self _⟩
      · obtain ⟨h1, h2⟩ := h.serial_of id ses hs
        exact ⟨h1, Nat.lt_succ_of_lt h2⟩
    · obtain ⟨h1, h2⟩ := h.serial_of id ses hs
      have hne : x.id_ + 1 ≠ id := by
        intro heq
        rw [heq] at hid
        omega
      simp only [get_insert, if_neg hne]
      exact hs
    · exact ⟨_, by rw [get_insert, if_pos rfl], rfl⟩

end Service

/-- What holds of the manager with these invites pending and those answered before: each was for
a session of its own, and a pending one's session is still its stream's unless it was stopped. -/
structure Paired (m : StreamMgr) (pending past : List Invite) : Prop where
  linked : Linked m
  numbered : Numbered m.sesServicePtr_
  fresh : ∀ i ∈ past ++ pending, i.ses < m.sesServicePtr_.made
  distinct : ((past ++ pending).map Invite.ses).Nodup
  recorded : ∀ i ∈ pending, ¬ Closed m i.ses → Records m i.streamid i.ses

section Turns
variable {ret : Nat → Int} {m m' : StreamMgr} {s : String} {wanted : Bool}
  {pending past : List Invite} {evs : List Event}

theorem closed_iff_of_count (n : Nat)
    (h : m'.sesServicePtr_.storeLoop_.count (.closeUDP n) =
      m.sesServicePtr_.storeLoop_.count (.closeUDP n)) : Closed m' n ↔ Closed m n := by
  rw [Closed, Closed, ← List.count_pos_iff, h, List.count_pos_iff]

theorem Records.mono {n : Nat} (h : Records m s n)
    (hentry : m'.storeSess_[s]? = m.storeSess_[s]?)
    (htable : ∀ (id : UInt64) (ses : StoreSession), m.sesServicePtr_.storeSess_[id]? = some ses →
      m'.sesServicePtr_.storeSess_[id]? = some ses) : Records m' s n := by
  obtain ⟨info, ses, hi, hs, hn⟩ := h
  exact ⟨info, ses, by rw [hentry, hi], htable _ _ hs, hn⟩

/-- Stopping a stream keeps the pairing: the invites of the other streams are not concerned,
and the session of its own ones is now stopped. -/
theorem Paired.closing (hp : Paired m pending past) {info : StoreSesInfo} {ses : StoreSession}
    (hi : m.storeSess_[s]? = some info)
    (hs : m.sesServicePtr_.storeSess_[info.sessionId]? = some ses) (hlink : Linked m')
    (hsess : m'.storeSess_ = m.storeSess_.erase s)
    (hserv : m'.sesServicePtr_ = m.sesServicePtr_.safeCall (.closeUDP ses.serial)) :
    Paired m' pending past := by
  refine ⟨hlink, hserv ▸ hp.numbered.safeCall _, by rw [hserv]; exact hp.fresh, hp.distinct, ?_⟩
  intro i hmem hopen
  rw [Closed, hserv, SessionService.safeCall_storeLoop, List.mem_append, not_or,
    List.mem_singleton] at hopen
  have hrec := hp.recorded i hmem hopen.1
  have hne : s ≠ i.streamid := by
    intro heq
    obtain ⟨info', ses', hi', hs', hn⟩ := hrec
    rw [← heq, hi] at hi'
    cases hi'
    rw [hs] at hs'
    cases hs'
    exact hopen.2 (by rw [hn])
  refine hrec.mono (by rw [hsess, get_erase, if_neg hne]) fun id ses' h => ?_
  rw [hserv]
  exact h

theorem closed_createStream (ret : Nat → Int) (s : String) (m : StreamMgr) (n : Nat) :
    Closed (createStream ret s m) n ↔ Closed m n := by
  apply closed_iff_of_count
  rw [createStream_service]
  exact count_newStoreSes (by simp)

theorem Paired.other_stream (hp : Paired m pending past) (hs : s ∉ m.storeSess_) {i : Invite}
    (hi : i ∈ pending) (hopen : ¬ Closed (createStream ret s m) i.ses) :
    s ≠ i.streamid ∧ Records m i.streamid i.ses := by
  have hrec := hp.recorded i hi (fun h => hopen ((closed_createStream ret s m i.ses).mpr h))
  refine ⟨fun heq => hs ?_, hrec⟩
  obtain ⟨info, -, hinfo, -⟩ := hrec
  exact mem_iff_get.mpr ⟨info, heq ▸ hinfo⟩

theorem Paired.creating_older (hp : Paired m pending past) (hs : s ∉ m.storeSess_)
    (hlt : (createStream ret s m).sesServicePtr_.made < 2 ^ 64) :
    Paired (createStream ret s m) pending past := by
  have hserv : (createStream ret s m).sesServicePtr_ = (newSes ret m).2 := createStream_service
  rw [hserv] at hlt
  obtain ⟨hnum, htable, -⟩ := hp.numbered.newStoreSes hlt
  have hmade : m.sesServicePtr_.made ≤ (newSes ret m).2.made := made_newStoreSes
  refine ⟨hp.linked.created s, by rw [hserv]; exact hnum, fun i hi => ?_, hp.distinct,
    fun i hi hopen => ?_⟩
  · rw [hserv]
    exact Nat.lt_of_lt_of_le (hp.fresh i hi) hmade
  · obtain ⟨hne, hrec⟩ := hp.other_stream hs hi hopen
    refine hrec.mono (createStream_frame hne.symm) fun id ses h => ?_
    rw [hserv]
    exact htable id ses h

theorem Paired.creating_made (hp : Paired m pending past) (hs : s ∉ m.storeSess_)
    (hlt : (createStream ret s m).sesServicePtr_.made < 2 ^ 64) (h0 : (newSes ret m).1 ≠ 0) :
    Paired (createStream ret s m)
      (pending ++ [{ streamid := s, ses := m.sesServicePtr_.made }]) past := by
  have holder := hp.creating_older hs hlt
  have hserv : (createStream ret s m).sesServicePtr_ = (newSes ret m).2 := createStream_service
  rw [hserv] at hlt
  obtain ⟨hsucc, ses, hses, hserial⟩ := (hp.numbered.newStoreSes hlt).2.2 h0
  refine ⟨holder.linked, holder.numbered, fun i hi => ?_, ?_, fun i hi hopen => ?_⟩
  · rw [← List.append_assoc, List.mem_append, List.mem_singleton] at hi
    cases hi with
    | inl hi => exact holder.fresh i hi
    | inr hi =>
      rw [hi, hserv, newSes, hsucc]
      exact Nat.lt_succ_self _
  · rw [← List.append_assoc, List.map_append, List.nodup_append]
    refine ⟨hp.distinct, by simp, fun n hn k hk heq => ?_⟩
    obtain ⟨i, hi, rfl⟩ := List.mem_map.mp hn
    have hlt := hp.fresh i hi
    simp only [List.map_cons, List.map_nil, List.mem_singleton] at hk
    omega
  · rw [List.mem_append, List.mem_singleton] at hi
    cases hi with
    | inl hi => exact holder.recorded i hi hopen
    | inr hi =>
      subst hi
      exact ⟨{ sessionId := (newSes ret m).1 }, ses, createStream_own h0,
        by rw [hserv]; exact hses, hserial⟩

theorem Paired.creating (hp : Paired m pending past) (hs : s ∉ m.storeSess_)
    (hlt : (createStream ret s m).sesServicePtr_.made < 2 ^ 64)
    (he : Since m (createStream ret s m) evs) :
    Paired (createStream ret s m) (pending ++ invites evs) past := by
  by_cases h0 : (newSes ret m).1 = 0
  · have hevs : invites evs = [] := by
      rw [Since, createStream_refused h0, List.append_cancel_left_eq] at he
      rw [← he]
      simp [invites]
    rw [hevs, List.append_nil]
    exact hp.creating_older hs hlt
  · have hevs : invites evs = [{ streamid := s, ses := m.sesServicePtr_.made }] := by
      rw [Since, createStream_made h0, List.append_cancel_left_eq] at he
      rw [← he]
      simp [invites, h0]
    rw [hevs]
    exact hp.creating_made hs hlt h0

theorem StreamMgr.Turn.paired (t : Turn ret s wanted m m') (hp : Paired m pending past)
    (hlt : m'.sesServicePtr_.made < 2 ^ 64) (he : Since m m' evs) :
    Paired m' (pending ++ invites evs) past := by
  cases t with
  | kept => rw [he.nil, invites, List.filterMap_nil, List.append_nil]; exact hp
  | idle => rw [he.nil, invites, List.filterMap_nil, List.append_nil]; exact hp
  | created hw hs => exact hp.creating hs hlt he
  | stopped hw info ses hi hs =>
    have hevs : invites evs = [] := by
      rw [Since, StreamMgr.stopped, List.append_cancel_left_eq] at he
      rw [← he]
      rfl
    rw [hevs, List.append_nil]
    exact hp.closing hi hs (hp.linked.stopped s info ses) rfl rfl

theorem StreamMgr.Turn.made_le (t : Turn ret s wanted m m') :
    m.sesServicePtr_.made ≤ m'.sesServicePtr_.made := by
  cases t with
  | kept => exact Nat.le_refl _
  | idle => exact Nat.le_refl _
  | created =>
    rw [createStream_service]
    exact made_newStoreSes
  | stopped => exact Nat.le_refl _

theorem StreamMgr.Turn.starts (t : Turn ret s wanted m m') (n : Nat) :
    m'.sesServicePtr_.storeLoop_.count (.attatchToLoop n) =
      m.sesServicePtr_.storeLoop_.count (.attatchToLoop n) := by
  cases t with
  | kept => rfl
  | idle => rfl
  | created =>
    rw [createStream_service]
    exact count_newStoreSes (by simp)
  | stopped => simp [StreamMgr.stopped, List.count_append]

variable {d : Fin 8} {h : Fin 24} {plans : List Plan}

theorem StreamMgr.Turns.made_le (t : Turns ret d h plans m m') :
    m.sesServicePtr_.made ≤ m'.sesServicePtr_.made := by
  induction t with
  | nil => exact Nat.le_refl _
  | cons first _ ih => exact Nat.le_trans first.made_le ih

theorem StreamMgr.Turns.starts (t : Turns ret d h plans m m') (n : Nat) :
    m'.sesServicePtr_.storeLoop_.count (.attatchToLoop n) =
      m.sesServicePtr_.storeLoop_.count (.attatchToLoop n) := by
  induction t with
  | nil => rfl
  | cons first _ ih => rw [ih, first.starts]

theorem invites_append (evs evs' : List Event) :
    invites (evs ++ evs') = invites evs ++ invites evs' := List.filterMap_append

theorem StreamMgr.Turns.paired (t : Turns ret d h plans m m') (hp : Paired m pending past)
    (hlt : m'.sesServicePtr_.made < 2 ^ 64) (he : Since m m' evs) :
    Paired m' (pending ++ invites evs) past := by
  induction t generalizing pending evs with
  | nil => rw [he.nil, invites, List.filterMap_nil, List.append_nil]; exact hp
  | @cons plan plans m m₁ m' first rest ih =>
    obtain ⟨evs₁, he₁⟩ := first.since
    obtain ⟨evs₂, he₂⟩ := rest.since
    obtain rfl : evs = evs₁ ++ evs₂ := he.unique (he₁.trans he₂)
    have hfirst := first.paired hp (Nat.lt_of_le_of_lt rest.made_le hlt) he₁
    rw [invites_append, ← List.append_assoc]
    exact ih hfirst hlt he₂

/-- Every answered session has the words of its own good answer, and the others have none. -/
def OwnWords (m : StreamMgr) (answered : List Answer) : Prop :=
  ∀ (s : String) (info : StoreSesInfo) (ses : StoreSession), m.storeSess_[s]? = some info →
    m.sesServicePtr_.storeSess_[info.sessionId]? = some ses →
      (info.para1 = 0 ∧ info.para2 = 0) ∨ ∃ a ∈ answered, a.invite.ses = ses.serial ∧
        a.err = 0 ∧ info.para1 = a.para1 ∧ info.para2 = a.para2

theorem OwnWords.erase {answered : List Answer} (hw : OwnWords m answered)
    (hsess : m'.storeSess_ = m.storeSess_.erase s)
    (hserv : m'.sesServicePtr_.storeSess_ = m.sesServicePtr_.storeSess_) :
    OwnWords m' answered := by
  intro a info ses hi hs
  rw [hsess, get_erase] at hi
  rw [hserv] at hs
  split_ifs at hi
  exact hw a info ses hi hs

theorem StreamMgr.Turn.ownWords {answered : List Answer} (t : Turn ret s wanted m m')
    (hl : Linked m) (hn : Numbered m.sesServicePtr_) (hlt : m'.sesServicePtr_.made < 2 ^ 64)
    (hw : OwnWords m answered) : OwnWords m' answered := by
  cases t with
  | kept => exact hw
  | idle => exact hw
  | stopped => exact hw.erase rfl rfl
  | created =>
    rw [createStream_service] at hlt
    have htable := (hn.newStoreSes hlt).2.1
    intro a info ses hi hs
    rw [createStream_service] at hs
    cases createStream_entry hi with
    | inl hold =>
      obtain ⟨ses', hs'⟩ := hl.owned a info hold
      rw [newSes, htable _ _ hs'] at hs
      cases hs
      exact hw a info ses hold hs'
    | inr hmade =>
      obtain ⟨-, -, rfl⟩ := hmade
      exact .inl ⟨rfl, rfl⟩

theorem StreamMgr.Turns.ownWords {answered : List Answer} (t : Turns ret d h plans m m')
    (hp : Paired m pending past) (hlt : m'.sesServicePtr_.made < 2 ^ 64)
    (hw : OwnWords m answered) : OwnWords m' answered := by
  induction t generalizing pending with
  | nil => exact hw
  | @cons plan plans m m₁ m' first rest ih =>
    have hlt₁ := Nat.lt_of_le_of_lt rest.made_le hlt
    obtain ⟨evs, he⟩ := first.since
    exact ih (first.paired hp hlt₁ he) hlt (first.ownWords hp.linked hp.numbered hlt₁ hw)

end Turns

section Answers
variable {m m' : StreamMgr} {s : String} {i : Invite} {pending past : List Invite}
  {info : StoreSesInfo} {ses : StoreSession} {p1 p2 err : UInt32}

theorem Paired.answer (hp : Paired m (i :: pending) past) : Paired m pending (past ++ [i]) := by
  have happ : past ++ [i] ++ pending = past ++ i :: pending := by simp
  exact ⟨hp.linked, hp.numbered, by rw [happ]; exact hp.fresh, by rw [happ]; exact hp.distinct,
    fun j hj => hp.recorded j (List.mem_cons_of_mem i hj)⟩

theorem Paired.starting (hp : Paired m pending past) (hi : m.storeSess_[s]? = some info)
    (hs : m.sesServicePtr_.storeSess_[info.sessionId]? = some ses) (p1 p2 : UInt32) :
    Paired (m.started s info ses p1 p2) pending past := by
  refine ⟨hp.linked.started hs s p1 p2, hp.numbered.safeCall _, hp.fresh, hp.distinct, ?_⟩
  intro j hj hopen
  have hopen' : ¬ Closed m j.ses := fun h => hopen (List.mem_append_left _ h)
  obtain ⟨info', ses', hi', hs', hn⟩ := hp.recorded j hj hopen'
  by_cases heq : s = j.streamid
  · rw [← heq, hi] at hi'
    cases hi'
    refine ⟨{ info with para1 := p1, para2 := p2 }, ses', ?_, hs', hn⟩
    simp [StreamMgr.started, heq]
  · exact ⟨info', ses', by rw [StreamMgr.started, get_insert, if_neg heq, hi'], hs', hn⟩

theorem Numbered.no_zero {x : SessionService} (h : Numbered x) :
    x.storeSess_[(0 : UInt64)]? = none := by
  cases hz : x.storeSess_[(0 : UInt64)]? with
  | none => rfl
  | some ses =>
    have := (h.serial_of 0 ses hz).1
    simp at this

theorem startStream_cases (hl : Linked m) (hn : Numbered m.sesServicePtr_)
    (h : startStream s p1 p2 err m = .ok m') : ∃ info ses, m.storeSess_[s]? = some info ∧
      m.sesServicePtr_.storeSess_[info.sessionId]? = some ses ∧
      (err = 0 ∧ m' = m.started s info ses p1 p2 ∨ err ≠ 0 ∧ m' = m.dropped s ses) := by
  by_cases hs : s ∈ m.storeSess_
  · obtain ⟨info, hi⟩ := mem_iff_get.mp hs
    obtain ⟨ses, hses⟩ := hl.owned s info hi
    refine ⟨info, ses, hi, hses, ?_⟩
    by_cases he : err = 0
    · rw [he, startStream_good hi hses] at h
      cases h
      exact .inl ⟨he, rfl⟩
    · rw [startStream_bad hi hses p1 p2 he] at h
      cases h
      exact .inr ⟨he, rfl⟩
  · obtain ⟨ses, hz, -⟩ := startStream_missing hs p1 p2 err h
    rw [hn.no_zero] at hz
    cases hz

theorem Records.startsSession {n : Nat} (h : Records m s n) (p1 p2 : UInt32) :
    StartsSession m s n p1 p2 := by
  obtain ⟨info, ses, hi, hs, hn⟩ := h
  refine ⟨_, startStream_good hi hs p1 p2, by rw [← hn]; rfl, ?_⟩
  simp [StreamMgr.started]

end Answers

section Runs
variable {ret : Nat → Int} {x x' : System} {action : Action}

inductive Advance (ret : Nat → Int) (x : System) : Action → System → Prop where
  | update (msg : StorePlan) :
    Advance ret x (.update msg) { x with mgr := x.mgr.updateStorePlan msg }
  | check (tm_wday : Fin 7) (tm_hour : Fin 24) (m : StreamMgr) (evs : List Event)
    (t : Turns ret (getCurDay tm_wday) tm_hour (x.mgr.curPlans_.toList.map Prod.snd) x.mgr m)
    (he : Since x.mgr m evs) :
    Advance ret x (.check tm_wday tm_hour) { x with mgr := m, pending := x.pending ++ invites evs }
  | idle (para1 para2 err : UInt32) (hnone : x.pending = []) :
    Advance ret x (.deliver para1 para2 err) x
  | deliver (para1 para2 err : UInt32) (invite : Invite) (rest : List Invite) (m : StreamMgr)
    (hhead : x.pending = invite :: rest)
    (hm : startStream invite.streamid para1 para2 err x.mgr = .ok m) :
    Advance ret x (.deliver para1 para2 err)
      { mgr := m, pending := rest, answered := x.answered ++ [{ invite, para1, para2, err }] }

theorem advance_cases (hl : Linked x.mgr) (h : advance ret action x = .ok x') :
    Advance ret x action x' := by
  cases action with
  | update msg =>
    cases h
    exact .update msg
  | check tm_wday tm_hour =>
    obtain ⟨m, hrun, t⟩ := checkStorePlan_turns ret hl tm_wday tm_hour
    obtain ⟨evs, he⟩ := t.since
    have hnew : m.log.drop x.mgr.log.length = evs := by rw [he, List.drop_left]
    simp only [advance, hrun, bind, Except.bind, hnew] at h
    cases h
    exact .check tm_wday tm_hour m evs t he
  | deliver para1 para2 err =>
    cases hp : x.pending with
    | nil =>
      simp only [advance, hp] at h
      cases h
      exact .idle para1 para2 err hp
    | cons invite rest =>
      simp only [advance, hp] at h
      obtain ⟨m, hm, hx⟩ := seq_ok_iff.mp h
      cases hx
      exact .deliver para1 para2 err invite rest m hp hm

def PairedSystem (x : System) : Prop :=
  Paired x.mgr x.pending (x.answered.map Answer.invite)

theorem Paired.congr {m m' : StreamMgr} {pending past : List Invite} (hp : Paired m pending past)
    (hl : Linked m') (hsess : m'.storeSess_ = m.storeSess_)
    (hserv : m'.sesServicePtr_ = m.sesServicePtr_) : Paired m' pending past := by
  refine ⟨hl, by rw [hserv]; exact hp.numbered, by rw [hserv]; exact hp.fresh, hp.distinct, ?_⟩
  intro i hi hopen
  rw [Closed, hserv] at hopen
  exact (hp.recorded i hi hopen).mono (by rw [hsess]) fun id ses h => by rw [hserv]; exact h

theorem made_advance (hl : Linked x.mgr) (h : advance ret action x = .ok x') :
    x.mgr.sesServicePtr_.made ≤ x'.mgr.sesServicePtr_.made := by
  cases advance_cases hl h with
  | update msg => rw [(updateStorePlan_frame msg x.mgr).2.1]
  | check tm_wday tm_hour m evs t he => exact t.made_le
  | idle => exact Nat.le_refl _
  | deliver para1 para2 err invite rest m hhead hm =>
    obtain ⟨t, task, rfl⟩ := startStream_frame hm
    exact Nat.le_refl _

theorem linked_advance (hl : Linked x.mgr) (h : advance ret action x = .ok x') :
    Linked x'.mgr := by
  cases advance_cases hl h with
  | update msg => exact hl.update msg
  | check tm_wday tm_hour m evs t he => exact t.linked hl
  | idle => exact hl
  | deliver para1 para2 err invite rest m hhead hm => exact hl.ack hm

theorem paired_advance (hp : PairedSystem x) (h : advance ret action x = .ok x')
    (hlt : x'.mgr.sesServicePtr_.made < 2 ^ 64) : PairedSystem x' := by
  cases advance_cases hp.linked h with
  | update msg =>
    obtain ⟨h1, h2, -⟩ := updateStorePlan_frame msg x.mgr
    exact Paired.congr hp (hp.linked.update msg) h1 h2
  | check tm_wday tm_hour m evs t he => exact t.paired hp hlt he
  | idle => exact hp
  | deliver para1 para2 err invite rest m hhead hm =>
    rw [PairedSystem, hhead] at hp
    rw [PairedSystem, List.map_append]
    obtain ⟨info, ses, hi, hs, hcase⟩ := startStream_cases hp.linked hp.numbered hm
    cases hcase with
    | inl hgood =>
      rw [hgood.2]
      exact (hp.starting hi hs para1 para2).answer
    | inr hbad =>
      rw [hbad.2]
      exact (hp.closing hi hs (hp.linked.dropped _ ses) rfl rfl).answer

def Timely : Action → System → Prop
  | .deliver _ _ _, x => ∀ i rest, x.pending = i :: rest → ¬ Closed x.mgr i.ses
  | _, _ => True

instance decidableTimely : ∀ (action : Action) (x : System), Decidable (Timely action x)
  | .update _, _ => .isTrue trivial
  | .check _ _, _ => .isTrue trivial
  | .deliver _ _ _, ⟨m, [], _⟩ => .isTrue fun i rest h => by simp at h
  | .deliver _ _ _, ⟨m, i :: _, _⟩ =>
    have : Decidable (¬ Closed m i.ses) :=
      inferInstanceAs (Decidable (¬ StoreTask.closeUDP i.ses ∈ m.sesServicePtr_.storeLoop_))
    decidable_of_iff (¬ Closed m i.ses)
      ⟨fun h j rest heq => (List.cons.inj heq).1 ▸ h, fun h => h i _ rfl⟩

/-- No session was started twice, only answered ones were, and each has its own words. -/
structure Orderly (x : System) : Prop where
  once : ∀ n, x.mgr.sesServicePtr_.storeLoop_.count (.attatchToLoop n) ≤ 1
  answered : ∀ n, StoreTask.attatchToLoop n ∈ x.mgr.sesServicePtr_.storeLoop_ →
    n ∈ x.answered.map fun a => a.invite.ses
  words : OwnWords x.mgr x.answered

theorem Orderly.of_same (ho : Orderly x) {m : StreamMgr} {pending : List Invite}
    (hcount : ∀ n, m.sesServicePtr_.storeLoop_.count (.attatchToLoop n) =
      x.mgr.sesServicePtr_.storeLoop_.count (.attatchToLoop n))
    (hw : OwnWords m x.answered) : Orderly ⟨m, pending, x.answered⟩ := by
  refine ⟨fun n => by rw [hcount]; exact ho.once n, fun n hn => ho.answered n ?_, hw⟩
  rw [← List.count_pos_iff, hcount] at hn
  exact List.count_pos_iff.mp hn

theorem OwnWords.mono {m : StreamMgr} {answered : List Answer} (hw : OwnWords m answered)
    (a : Answer) : OwnWords m (answered ++ [a]) := by
  intro s info ses hi hs
  exact (hw s info ses hi hs).imp_right fun ⟨b, hb, h⟩ => ⟨b, List.mem_append_left _ hb, h⟩

theorem OwnWords.starting {m : StreamMgr} {answered : List Answer} (hw : OwnWords m answered)
    {invite : Invite} {info : StoreSesInfo} {ses : StoreSession}
    (hs : m.sesServicePtr_.storeSess_[info.sessionId]? = some ses)
    (hn : ses.serial = invite.ses) (p1 p2 : UInt32) :
    OwnWords (m.started invite.streamid info ses p1 p2)
      (answered ++ [{ invite, para1 := p1, para2 := p2, err := 0 }]) := by
  intro s info' ses' hi' hs'
  simp only [StreamMgr.started, get_insert] at hi'
  split_ifs at hi'
  · cases hi'
    have heq : some ses = some ses' := hs.symm.trans hs'
    cases heq
    exact .inr ⟨_, List.mem_append_right _ List.mem_cons_self, hn.symm, rfl, rfl, rfl⟩
  · exact hw.mono _ s info' ses' hi' hs'

theorem Orderly.starting (ho : Orderly x) {invite : Invite} {rest : List Invite}
    {info : StoreSesInfo} {ses : StoreSession}
    (hs : x.mgr.sesServicePtr_.storeSess_[info.sessionId]? = some ses)
    (hn : ses.serial = invite.ses) (hnot : invite.ses ∉ x.answered.map fun a => a.invite.ses)
    (p1 p2 : UInt32) :
    Orderly { mgr := x.mgr.started invite.streamid info ses p1 p2, pending := rest,
              answered := x.answered ++ [{ invite, para1 := p1, para2 := p2, err := 0 }] } := by
  have hzero : x.mgr.sesServicePtr_.storeLoop_.count (.attatchToLoop invite.ses) = 0 :=
    List.count_eq_zero.mpr fun hmem => hnot (ho.answered _ hmem)
  refine ⟨fun n => ?_, fun n hmem => ?_, ho.words.starting hs hn p1 p2⟩
  · have hone := ho.once n
    simp only [StreamMgr.started, SessionService.safeCall_storeLoop, List.count_append,
      List.count_singleton, beq_iff_eq, hn]
    split_ifs with heq
    · cases heq
      omega
    · exact hone
  · simp only [StreamMgr.started, SessionService.safeCall_storeLoop, List.mem_append,
      List.mem_singleton, StoreTask.attatchToLoop.injEq] at hmem
    rw [List.map_append, List.mem_append]
    cases hmem with
    | inl hold => exact .inl (ho.answered n hold)
    | inr hnew => exact .inr (by simp [hnew, hn])

theorem Orderly.dropping (ho : Orderly x) (answer : Answer) {rest : List Invite} (s : String)
    (ses : StoreSession) :
    Orderly ⟨x.mgr.dropped s ses, rest, x.answered ++ [answer]⟩ := by
  have hcount : ∀ n, (x.mgr.dropped s ses).sesServicePtr_.storeLoop_.count (.attatchToLoop n) =
      x.mgr.sesServicePtr_.storeLoop_.count (.attatchToLoop n) := by
    intro n
    simp [StreamMgr.dropped, List.count_append]
  have hw : OwnWords (x.mgr.dropped s ses) x.answered := ho.words.erase rfl rfl
  have hsame : Orderly ⟨x.mgr.dropped s ses, rest, x.answered⟩ := ho.of_same hcount hw
  refine ⟨hsame.once, fun n hmem => ?_, hw.mono _⟩
  rw [List.map_append, List.mem_append]
  exact .inl (hsame.answered n hmem)

theorem orderly_advance (hp : PairedSystem x) (ho : Orderly x) (ht : Timely action x)
    (h : advance ret action x = .ok x') (hlt : x'.mgr.sesServicePtr_.made < 2 ^ 64) :
    Orderly x' := by
  cases advance_cases hp.linked h with
  | update msg =>
    obtain ⟨h1, h2, -⟩ := updateStorePlan_frame msg x.mgr
    exact ho.of_same (fun n => by rw [h2]) (fun s info ses hi hs =>
      ho.words s info ses (by rw [← h1]; exact hi) (by rw [← h2]; exact hs))
  | check tm_wday tm_hour m evs t he =>
    exact ho.of_same t.starts (t.ownWords hp hlt ho.words)
  | idle => exact ho
  | deliver para1 para2 err invite rest m hhead hm =>
    have hopen : ¬ Closed x.mgr invite.ses := ht invite rest hhead
    rw [PairedSystem, hhead] at hp
    obtain ⟨info, ses, hi, hs, hn⟩ := hp.recorded invite List.mem_cons_self hopen
    by_cases he : err = 0
    · subst he
      rw [startStream_good hi hs] at hm
      cases hm
      -- the invite is answered for the first time, so its session was not started before
      have hnot : invite.ses ∉ x.answered.map fun a => a.invite.ses := by
        have hd := hp.distinct
        rw [List.map_append, List.nodup_append] at hd
        intro hmem
        refine hd.2.2 invite.ses ?_ invite.ses (by simp) rfl
        rwa [List.map_map]
      exact ho.starting hs hn hnot para1 para2
    · rw [startStream_bad hi hs _ _ he] at hm
      cases hm
      exact ho.dropping _ invite.streamid ses

theorem paired_start : PairedSystem {} :=
  ⟨linked_start, ⟨rfl, fun id ses h => by simp at h⟩, by simp, by simp, by simp⟩

theorem orderly_start : Orderly {} :=
  ⟨by simp, by simp, fun s info ses h => by simp at h⟩

theorem paired_run {actions : List Action} (h : run (advance ret) actions {} = .ok x)
    (hlt : x.mgr.sesServicePtr_.made < 2 ^ 64) : PairedSystem x := by
  have hinv := run_inv_of (C := fun _ _ => True)
    (I := fun y : System => Linked y.mgr ∧ (y.mgr.sesServicePtr_.made < 2 ^ 64 → PairedSystem y))
    ⟨linked_start, fun _ => paired_start⟩
    (fun action y y' hy _ hs => ⟨linked_advance hy.1 hs, fun hlt => paired_advance
      (hy.2 (Nat.lt_of_le_of_lt (made_advance hy.1 hs) hlt)) hs hlt⟩)
    (meets_true _ _) h
  exact hinv.2 hlt

/-- A good answer starts the session that its stream has when it is delivered, and keeps its words
there; before the session of its invite was stopped this is that very session. And where every
answer is delivered so, no session is started twice and none has the words of another. -/
theorem ack_starts_own_session (ret : Nat → Int) (actions : List Action) (x : System)
    (h : run (advance ret) actions {} = .ok x) (hlt : x.mgr.sesServicePtr_.made < 2 ^ 64) :
    (∀ invite rest p1 p2, x.pending = invite :: rest →
      (∀ n, Records x.mgr invite.streamid n → StartsSession x.mgr invite.streamid n p1 p2) ∧
      (¬ Closed x.mgr invite.ses → StartsSession x.mgr invite.streamid invite.ses p1 p2)) ∧
    (Meets (advance ret) Timely actions {} →
      (∀ n, x.mgr.sesServicePtr_.storeLoop_.count (.attatchToLoop n) ≤ 1) ∧
      OwnWords x.mgr x.answered) := by
  constructor
  · intro invite rest p1 p2 hhead
    have hp := paired_run h hlt
    rw [PairedSystem, hhead] at hp
    constructor
    · exact fun n hrec => hrec.startsSession p1 p2
    · intro hopen
      have hrec := hp.recorded invite List.mem_cons_self hopen
      exact hrec.startsSession p1 p2
  · intro ht
    have hinv := run_inv_of (I := fun y : System => Linked y.mgr ∧
        (y.mgr.sesServicePtr_.made < 2 ^ 64 → PairedSystem y ∧ Orderly y))
      ⟨linked_start, fun _ => ⟨paired_start, orderly_start⟩⟩
      (fun action y y' hy hc hs => ⟨linked_advance hy.1 hs, fun hlt =>
        have hpo := hy.2 (Nat.lt_of_le_of_lt (made_advance hy.1 hs) hlt)
        ⟨paired_advance hpo.1 hs hlt, orderly_advance hpo.1 hpo.2 hc hs hlt⟩⟩)
      ht h
    exact ⟨(hinv.2 hlt).2.once, (hinv.2 hlt).2.words⟩

/-- A stream is invited, stopped and invited again before the first answer comes. -/
def lateAnswers : List Action :=
  [.update (mondayPlan "a" 9), .check 1 9, .check 1 10, .check 1 9, .deliver 1 2 0, .deliver 3 4 0]

/-- The answer for session 0, which was stopped, starts session 1, and so does its own answer. -/
theorem late_answer_starts_other_session :
    ∃ x, run (advance fun _ => 0) lateAnswers {} = .ok x ∧
      x.answered.map Answer.invite = [⟨"a", 0⟩, ⟨"a", 1⟩] ∧
      x.mgr.sesServicePtr_.storeLoop_ =
        [.bindAddr 0, .closeUDP 0, .bindAddr 1, .attatchToLoop 1, .attatchToLoop 1] ∧
      ¬ ∀ n, x.mgr.sesServicePtr_.storeLoop_.count (.attatchToLoop n) ≤ 1 := by
  have hrun : (run (advance fun _ => 0) lateAnswers {}).map
      (fun x => (x.answered.map Answer.invite, x.mgr.sesServicePtr_.storeLoop_)) =
    .ok ([⟨"a", 0⟩, ⟨"a", 1⟩],
      [.bindAddr 0, .closeUDP 0, .bindAddr 1, .attatchToLoop 1, .attatchToLoop 1]) := by decide
  obtain ⟨x, hx, hend⟩ := map_ok_iff.mp hrun
  simp only [Prod.mk.injEq] at hend
  refine ⟨x, hx, hend.1, hend.2, fun honce => ?_⟩
  have htwice := honce 1
  rw [hend.2] at htwice
  exact absurd htwice (by decide)

def firstAnswer : List Action :=
  [.update (mondayPlans ["a", "b"] 9), .check 1 9, .deliver 1 2 0]

theorem ack_starts_own_session_once :
    ∃ x, run (advance fun _ => 0) firstAnswer {} = .ok x ∧
      x.answered.map Answer.invite = [⟨"a", 0⟩] ∧ x.pending = [⟨"b", 1⟩] ∧
      (∀ p1 p2,
        (∀ n, Records x.mgr "b" n → StartsSession x.mgr "b" n p1 p2) ∧
        (¬ Closed x.mgr 1 → StartsSession x.mgr "b" 1 p1 p2)) ∧
      (∀ n, x.mgr.sesServicePtr_.storeLoop_.count (.attatchToLoop n) ≤ 1) ∧
      OwnWords x.mgr x.answered := by
  have hrun : (run (advance fun _ => 0) firstAnswer {}).map
      (fun x => (x.mgr.sesServicePtr_.made, x.answered.map Answer.invite, x.pending)) =
      .ok (2, [⟨"a", 0⟩], [⟨"b", 1⟩]) := by decide
  obtain ⟨x, hx, hend⟩ := map_ok_iff.mp hrun
  simp only [Prod.mk.injEq] at hend
  obtain ⟨hmade, hanswered, hpending⟩ := hend
  have htimely : Meets (advance fun _ => 0) Timely firstAnswer {} := by decide
  obtain ⟨hnext, honce⟩ := ack_starts_own_session _ _ x hx (by omega)
  exact ⟨x, hx, hanswered, hpending, fun p1 p2 => hnext ⟨"b", 1⟩ [] p1 p2 hpending,
    honce htimely⟩

end Runs

end LazyNet.Streams
