import LazyNet.AdmissionLimit
import LazyNet.PlanChecks
import Mathlib.Data.Nat.ModEq
import Mathlib.Tactic.NormNum.GCD

/-! The ports that sessions are made with. They are counted in 16 bits over all attempts to make
one, with no regard to the sessions that are still there. -/
namespace LazyNet.Streams
open LazyNet.Tables LazyNet.MsDsProtocol LazyNet.Sessions LazyNet.StepRuns
open StreamMgr

def portOf (n : Nat) : UInt16 := UInt16.ofNat (3000 + 10 * n)

theorem portOf_succ (n : Nat) : portOf n + 10 = portOf (n + 1) := by
  rw [← UInt16.toNat_inj]
  simp only [portOf, UInt16.toNat_add, UInt16.toNat_ofNat', UInt16.reduceToNat]
  omega

theorem portOf_eq_iff {n k : Nat} : portOf n = portOf k ↔ n % 32768 = k % 32768 := by
  rw [← UInt16.toNat_inj]
  simp only [portOf, UInt16.toNat_ofNat']
  constructor
  · intro h
    have hten : 10 * n ≡ 10 * k [MOD 65536] := Nat.ModEq.add_left_cancel' 3000 h
    have hgcd : Nat.gcd 65536 10 = 2 := by norm_num
    have hcancel := hten.cancel_left_div_gcd (by decide)
    rwa [hgcd] at hcancel
  · intro h
    have hmod : n ≡ k [MOD 32768] := h
    have htwo : 5 * (2 * n) ≡ 5 * (2 * k) [MOD 65536] := (hmod.mul_left' 2).mul_left 5
    rw [← Nat.mul_assoc, ← Nat.mul_assoc] at htwo
    exact htwo.add_left 3000

theorem le_portOf_iff {n : Nat} : 1024 ≤ portOf n ↔ 1024 ≤ (3000 + 10 * n) % 65536 := by
  rw [UInt16.le_iff_toNat_le]
  simp only [portOf, UInt16.toNat_ofNat', UInt16.reduceToNat]

/-- The manager calls neither of the calls that count sessions, so none is refused, and each
session has the port of its own attempt. -/
structure Ported (m : StreamMgr) : Prop where
  open_ : m.sesServicePtr_.storeSesCount_ < m.sesServicePtr_.maxStoreConn_
  interval : m.portInterval_ = 10
  next : m.port_ = portOf m.sesServicePtr_.made
  ports : ∀ (id : UInt64) (ses : StoreSession), m.sesServicePtr_.storeSess_[id]? = some ses →
    ses.addr_.port = portOf ses.serial ∧ ses.serial < m.sesServicePtr_.made

section Steps
variable {ret : Nat → Int} {m m' : StreamMgr} {s : String} {wanted : Bool} {d : Fin 8}
  {h : Fin 24} {plans : List Plan} {call : Call}

theorem ported_start : Ported {} :=
  ⟨by decide, rfl, rfl, fun id ses hs => by simp at hs⟩

theorem Ported.queued (hp : Ported m) (task : StoreTask) (t : OrdMap String StoreSesInfo) :
    Ported { m with storeSess_ := t, sesServicePtr_ := m.sesServicePtr_.safeCall task } :=
  ⟨hp.open_, hp.interval, hp.next, hp.ports⟩

theorem createStream_port (ret : Nat → Int) (s : String) (m : StreamMgr) :
    (createStream ret s m).port_ = m.port_ + m.portInterval_ ∧
    (createStream ret s m).portInterval_ = m.portInterval_ := by
  by_cases h : (newSes ret m).1 = 0
  · rw [createStream_refused h]
    exact ⟨rfl, rfl⟩
  · rw [createStream_made h]
    exact ⟨rfl, rfl⟩

theorem Ported.created (hp : Ported m) (s : String) : Ported (createStream ret s m) := by
  obtain ⟨hport, hint⟩ := createStream_port ret s m
  have hnext : m.port_ + m.portInterval_ = portOf (m.sesServicePtr_.made + 1) := by
    rw [hp.next, hp.interval, portOf_succ]
  have hold : ∀ {id : UInt64} {ses : StoreSession}, m.sesServicePtr_.storeSess_[id]? = some ses →
      ses.addr_.port = portOf ses.serial ∧ ses.serial < m.sesServicePtr_.made + 1 := by
    intro id ses hs
    obtain ⟨h1, h2⟩ := hp.ports id ses hs
    exact ⟨h1, Nat.lt_succ_of_lt h2⟩
  have hserv : (createStream ret s m).sesServicePtr_ = (newSes ret m).2 := createStream_service
  by_cases hr : ret m.sesServicePtr_.made = 0
  · rw [newSes, SessionService.newStoreSes_kept hp.open_ hr] at hserv
    refine ⟨by rw [hserv]; exact hp.open_, hint.trans hp.interval, by rw [hport, hnext, hserv]; rfl,
      fun id ses hs => ?_⟩
    rw [hserv] at hs ⊢
    simp only [get_insert] at hs
    split_ifs at hs
    · cases hs
      exact ⟨hp.next, Nat.lt_succ_self _⟩
    · exact hold hs
  · rw [newSes, SessionService.newStoreSes_failed hp.open_ hr] at hserv
    refine ⟨by rw [hserv]; exact hp.open_, hint.trans hp.interval, by rw [hport, hnext, hserv]; rfl,
      fun id ses hs => ?_⟩
    rw [hserv] at hs ⊢
    exact hold hs

theorem StreamMgr.Turn.ported (t : Turn ret s wanted m m') (hp : Ported m) : Ported m' := by
  cases t with
  | kept => exact hp
  | idle => exact hp
  | created => exact hp.created s
  | stopped => exact ⟨hp.open_, hp.interval, hp.next, hp.ports⟩

theorem StreamMgr.Turns.ported (t : Turns ret d h plans m m') (hp : Ported m) : Ported m' := by
  induction t with
  | nil => exact hp
  | cons first _ ih => exact ih (first.ported hp)

theorem updateStorePlan_ports (msg : StorePlan) (m : StreamMgr) :
    (m.updateStorePlan msg).port_ = m.port_ ∧
    (m.updateStorePlan msg).portInterval_ = m.portInterval_ := by
  simp only [updateStorePlan, diffStorePlan_eq]
  split_ifs <;> exact ⟨rfl, rfl⟩

theorem ported_step (hl : Linked m) (hp : Ported m) (hstep : step ret call m = .ok m') :
    Ported m' := by
  cases call with
  | update msg =>
    cases hstep
    obtain ⟨hport, hint⟩ := updateStorePlan_ports msg m
    have hserv := (updateStorePlan_frame msg m).2.1
    exact ⟨by rw [hserv]; exact hp.open_, hint.trans hp.interval,
      by rw [hport, hserv]; exact hp.next, by rw [hserv]; exact hp.ports⟩
  | ack s p1 p2 err =>
    obtain ⟨t, task, rfl⟩ := startStream_frame hstep
    exact hp.queued task t
  | check tm_wday tm_hour =>
    obtain ⟨m₁, hrun, t⟩ := checkStorePlan_turns ret hl tm_wday tm_hour
    rw [step, hrun] at hstep
    cases hstep
    exact t.ported hp

theorem ported_of_reachable (hm : Reachable (step ret) {} m) : Linked m ∧ Ported m :=
  hm.inv (I := fun m => Linked m ∧ Ported m) ⟨linked_start, ported_start⟩
    fun _ _ _ h hs => ⟨linked_step h.1 hs, ported_step h.1 h.2 hs⟩

end Steps

/-- In a check of some run the plan of the stream comes up, and a session is to be made for it. -/
def AtCreation (ret : Nat → Int) (m : StreamMgr) (s : String) : Prop :=
  ∃ m₀ tm_wday tm_hour front plan back, Reachable (step ret) {} m₀ ∧
    m₀.curPlans_.toList.map Prod.snd = front ++ plan :: back ∧
    checkPlans ret (getCurDay tm_wday) tm_hour front m₀ = .ok m ∧
    plan.streamId = s ∧ plan.wanted (getCurDay tm_wday) tm_hour = true ∧ s ∉ m.storeSess_

/-- The port of a new session is the one that is advertised, is not among the system's, and is
that of no other session that a stream has then. -/
def UsablePort (m m' : StreamMgr) (s : String) : Prop :=
  ∃ port sesId, Since m m' [.newStoreSes s port m.sesServicePtr_.made sesId,
      .send (.message { streamid := s, recvcameraport := toString port } 0 0 0)] ∧
    1024 ≤ port ∧
    ∀ (a : String) (info : StoreSesInfo) (ses : StoreSession), m'.storeSess_[a]? = some info →
      m'.sesServicePtr_.storeSess_[info.sessionId]? = some ses →
        ses.serial ≠ m.sesServicePtr_.made → ses.addr_.port ≠ port

/-- No stream has a session that was made a multiple of 32768 attempts ago; a session that the new
one replaces under its id does not count. -/
def NoEarlierTurn (m : StreamMgr) : Prop :=
  ∀ (a : String) (info : StoreSesInfo) (ses : StoreSession), m.storeSess_[a]? = some info →
    m.sesServicePtr_.storeSess_[info.sessionId]? = some ses →
      info.sessionId ≠ m.sesServicePtr_.id_ + 1 →
        ses.serial % 32768 ≠ m.sesServicePtr_.made % 32768

section Creation
variable {ret : Nat → Int} {m : StreamMgr} {s : String}

theorem AtCreation.ported (hc : AtCreation ret m s) : Ported m ∧ s ∉ m.storeSess_ := by
  obtain ⟨m₀, tm_wday, tm_hour, front, plan, back, hreach, -, hrun, -, -, hs⟩ := hc
  obtain ⟨hl, hp⟩ := ported_of_reachable hreach
  obtain ⟨m₁, hrun₁, t⟩ := checkPlans_turns ret hl front (getCurDay tm_wday) tm_hour
  cases hrun.symm.trans hrun₁
  exact ⟨t.ported hp, hs⟩

theorem Ported.made (hp : Ported m) (h0 : (newSes ret m).1 ≠ 0) :
    ret m.sesServicePtr_.made = 0 := by
  by_contra hr
  rw [newSes, SessionService.newStoreSes_failed hp.open_ hr] at h0
  exact h0 rfl

theorem Ported.others_iff (hp : Ported m) (hs : s ∉ m.storeSess_) (h0 : (newSes ret m).1 ≠ 0)
    (P : StoreSession → Prop) :
    (∀ (a : String) (info : StoreSesInfo) (ses : StoreSession),
      (createStream ret s m).storeSess_[a]? = some info →
      (createStream ret s m).sesServicePtr_.storeSess_[info.sessionId]? = some ses →
        ses.serial ≠ m.sesServicePtr_.made → P ses) ↔
    ∀ (a : String) (info : StoreSesInfo) (ses : StoreSession), m.storeSess_[a]? = some info →
      m.sesServicePtr_.storeSess_[info.sessionId]? = some ses →
        info.sessionId ≠ m.sesServicePtr_.id_ + 1 → P ses := by
  have hkept : m.sesServicePtr_.newStoreSes ret m.port_ = _ :=
    SessionService.newStoreSes_kept hp.open_ (hp.made h0)
  have hid : (newSes ret m).1 = m.sesServicePtr_.id_ + 1 := by rw [newSes, hkept]
  have hserv : (createStream ret s m).sesServicePtr_ = (newSes ret m).2 := createStream_service
  rw [newSes, hkept] at hserv
  constructor
  · intro hall a info ses hi hses hne
    have hsa : a ≠ s := fun heq => hs (mem_iff_get.mpr ⟨info, heq ▸ hi⟩)
    refine hall a info ses ((createStream_frame hsa).trans hi) ?_
      (Nat.ne_of_lt (hp.ports _ ses hses).2)
    · rw [hserv]
      simp only [get_insert, if_neg hne.symm]
      exact hses
  · intro hall a info ses hi hses hne
    rw [createStream_made h0, get_insert] at hi
    rw [hserv] at hses
    simp only [get_insert] at hses
    split_ifs at hi hses with hsa hnew hnew
    · cases hses
      exact absurd rfl hne
    · cases hi
      exact absurd hid.symm hnew
    · cases hses
      exact absurd rfl hne
    · exact hall a info ses hi hses (Ne.symm hnew)

/-- The port of a session that is recorded is usable exactly when the count has not come round to
the system's ports, nor to the port of a session that a stream has. -/
theorem usable_port_iff (hc : AtCreation ret m s) (h0 : (newSes ret m).1 ≠ 0) :
    UsablePort m (createStream ret s m) s ↔
      1024 ≤ (3000 + 10 * m.sesServicePtr_.made) % 65536 ∧ NoEarlierTurn m := by
  obtain ⟨hp, hs⟩ := hc.ported
  have hport : ∀ {id : UInt64} {ses : StoreSession}, m.sesServicePtr_.storeSess_[id]? = some ses →
      (ses.addr_.port ≠ m.port_ ↔ ses.serial % 32768 ≠ m.sesServicePtr_.made % 32768) := by
    intro id ses hses
    rw [(hp.ports id ses hses).1, hp.next, ne_eq, portOf_eq_iff]
  have hothers := hp.others_iff hs h0 fun ses => ses.addr_.port ≠ m.port_
  rw [← le_portOf_iff, ← hp.next]
  constructor
  · rintro ⟨port, sesId, hev, hle, hall⟩
    rw [Since, createStream_made h0, List.append_cancel_left_eq] at hev
    have hcall := (List.cons.inj hev).1
    simp only [Event.newStoreSes.injEq, true_and] at hcall
    obtain rfl : m.port_ = port := hcall.1
    exact ⟨hle, fun a info ses hi hses hne =>
      (hport hses).mp (hothers.mp hall a info ses hi hses hne)⟩
  · rintro ⟨hle, hturn⟩
    refine ⟨m.port_, (newSes ret m).1, ?_, hle, ?_⟩
    · rw [Since, createStream_made h0]
    · exact hothers.mpr fun a info ses hi hses hne =>
        (hport hses).mpr (hturn a info ses hi hses hne)

end Creation

theorem monday_plans : ∃ plan : Plan,
    (updateStorePlan (mondayPlan "a" 9) {}).curPlans_.toList.map Prod.snd = [plan] ∧
      plan.streamId = "a" ∧ plan.wanted (getCurDay 1) 9 = true := by
  exact ⟨_, rfl, by decide, by decide⟩

/-- Stream a has a session when the check comes to stream b. -/
theorem usable_port_second :
    ∃ m, "a" ∈ m.storeSess_ ∧ m.sesServicePtr_.made = 1 ∧
      (UsablePort m (createStream (fun _ => 0) "b" m) "b" ↔
        1024 ≤ (3000 + 10 * m.sesServicePtr_.made) % 65536 ∧ NoEarlierTurn m) := by
  have hrun : ((run (step fun _ => 0) [.update (mondayPlan "a" 9), .check 1 9,
      .update (mondayPlans ["a", "b"] 9)] {}).bind fun m₀ =>
        (checkPlans (fun _ => 0) (getCurDay 1) 9 ((m₀.curPlans_.toList.map Prod.snd).take 1)
          m₀).map fun m => (m₀, m)).map (fun p =>
      ((p.1.curPlans_.toList.map Prod.snd).map fun plan =>
          (plan.streamId, plan.wanted (getCurDay 1) 9),
        p.2.sesServicePtr_.made, decide ("a" ∈ p.2.storeSess_), decide ("b" ∈ p.2.storeSess_),
        (newSes (fun _ => 0) p.2).1)) =
      .ok ([("a", true), ("b", true)], 1, true, false, 2) := by decide
  obtain ⟨p, hp, hend⟩ := map_ok_iff.mp hrun
  obtain ⟨m₀, hm₀, hrest⟩ := seq_ok_iff.mp hp
  obtain ⟨m, hm, rfl⟩ := map_ok_iff.mp hrest
  simp only [Prod.mk.injEq, decide_eq_true_eq, decide_eq_false_iff_not] at hend
  obtain ⟨hplans, hmade, ha, hb, hid⟩ := hend
  obtain ⟨first, rest, hsplit, -, hrest⟩ := List.map_eq_cons_iff.mp hplans
  obtain ⟨plan, back, rfl, hplan, -⟩ := List.map_eq_cons_iff.mp hrest
  rw [Prod.mk.injEq] at hplan
  rw [hsplit] at hm
  have hc : AtCreation (fun _ => 0) m "b" :=
    ⟨m₀, 1, 9, [first], plan, back, ⟨_, hm₀⟩, hsplit, hm, hplan.1, hplan.2, hb⟩
  exact ⟨m, ha, hmade, usable_port_iff hc (by rw [hid]; decide)⟩

/-- A stream whose session fails to be made is tried again at every check. -/
theorem retried {ret : Nat → Int} {n : Nat} (hret : ∀ k < n, ret k ≠ 0) :
    ∃ m, run (step ret) (.update (mondayPlan "a" 9) :: List.replicate n (.check 1 9)) {} = .ok m ∧
      m.curPlans_ = (updateStorePlan (mondayPlan "a" 9) {}).curPlans_ ∧ m.storeSess_ = ∅ ∧
      m.sesServicePtr_.made = n ∧ m.sesServicePtr_.id_ = UInt64.ofNat n := by
  induction n with
  | zero => exact ⟨_, rfl, rfl, rfl, rfl, rfl⟩
  | succ n ih =>
    obtain ⟨m, hrun, hcur, hempty, hmade, hnext⟩ := ih fun k hk => hret k (Nat.lt_succ_of_lt hk)
    obtain ⟨hl, hp⟩ := ported_of_reachable ⟨_, hrun⟩
    obtain ⟨plan, hplans, hid, hw⟩ := monday_plans
    obtain ⟨m', hcheck, t⟩ := checkStorePlan_turns ret hl 1 9
    rw [hcur, hplans] at t
    have hfail : m.sesServicePtr_.newStoreSes ret m.port_ = _ :=
      SessionService.newStoreSes_failed hp.open_ (hret _ (hmade ▸ Nat.lt_succ_self n))
    have h0 : (newSes ret m).1 = 0 := by rw [newSes, hfail]
    have hm' : m' = createStream ret "a" m := by
      rw [← hid]
      cases t with
      | cons first rest =>
        cases rest
        cases first with
        | created => rfl
        | kept _ hs => simp [hempty] at hs
        | stopped hun =>
          rw [hw] at hun
          cases hun
        | idle hun =>
          rw [hw] at hun
          cases hun
    refine ⟨m', ?_, ?_, ?_, ?_, ?_⟩
    · rw [List.replicate_succ', ← List.cons_append]
      exact run_snoc_ok.mpr ⟨m, hrun, hcheck⟩
    · rw [hm', (createStream_plans ret "a" m).1, hcur]
    · rw [hm', createStream_refused h0, hempty]
    · rw [hm', createStream_service, newSes, hfail, ← hmade]
      rfl
    · rw [hm', createStream_service, newSes, hfail, UInt64.ofNat_add, ← hnext]
      rfl

/-- The first 6254 attempts fail, and the next one is made with port 4. -/
theorem port_comes_round :
    let ret := fun n : Nat => if n = 6254 then (0 : Int) else 98
    ∃ m, AtCreation ret m "a" ∧ (newSes ret m).1 ≠ 0 ∧ m.port_ = 4 ∧
      ¬ UsablePort m (createStream ret "a" m) "a" := by
  intro ret
  have hret : ∀ k < 6254, ret k ≠ 0 := by
    intro k hk
    simp [ret, Nat.ne_of_lt hk]
  obtain ⟨m, hrun, hcur, hempty, hmade, hnext⟩ := retried hret
  obtain ⟨plan, hplans, hid, hw⟩ := monday_plans
  obtain ⟨hl, hp⟩ := ported_of_reachable ⟨_, hrun⟩
  have hc : AtCreation ret m "a" := ⟨m, 1, 9, [], plan, [], ⟨_, hrun⟩, by rw [hcur]; exact hplans,
    rfl, hid, hw, by rw [hempty]; simp⟩
  have hkept : m.sesServicePtr_.newStoreSes ret m.port_ = _ :=
    SessionService.newStoreSes_kept hp.open_ (by rw [hmade]; rfl)
  have h0 : (newSes ret m).1 ≠ 0 := by
    have hid : m.sesServicePtr_.id_ + 1 ≠ 0 := by
      rw [hnext]
      decide
    rw [newSes, hkept]
    exact hid
  have hport : m.port_ = 4 := by
    rw [hp.next, hmade]
    rfl
  refine ⟨m, hc, h0, hport, fun husable => ?_⟩
  have hle := ((usable_port_iff hc h0).mp husable).1
  rw [hmade] at hle
  omega

end LazyNet.Streams
