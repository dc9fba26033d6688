import LazyNet.AckPairing
import LazyNet.StoreLoop
import LazyNet.StoreQueue

/-! What `newStoreSes` reports of a session and what the bind of its socket comes to. The bind is
queued for the store loop, and the report is made before the store loop has run it. -/
namespace LazyNet.Sessions
open LazyNet.Tables LazyNet.StepRuns StoreLoop

def Outcome.value : Outcome → Int
  | .noSocket errno => errno
  | .notBound errno => errno
  | .bound => 0

/-- The two loops together with what the store loop has done: the sessions' members there, and
the value that each executed `bindAddr` returned. -/
structure BothLoops where
  loops : Loops := {}
  world : StoreLoop
  binds : List (Nat × Int) := []

def StoreTask.binds (os : Nat → Outcome) (w : StoreLoop) : StoreTask → List (Nat × Int)
  | .bindAddr ses => [(ses, (w.bindAddr (os ses) ses).1)]
  | _ => []

/-- The admin loop calls the service or, as the manager does, a session that it got from it; the
store loop executes the next task. -/
inductive BothAction where
  | service (call : ServiceCall)
  | session (task : StoreTask)
  | execute
  deriving DecidableEq, Repr

def BothLoops.step (ret : Nat → Int) (os : Nat → Outcome) :
    BothAction → BothLoops → Except StoreFault BothLoops
  | .service call, x => .ok { x with loops := (LoopAction.admin call).run ret x.loops }
  | .session task, x =>
    .ok { x with loops := { x.loops with service := x.loops.service.safeCall task } }
  | .execute, x =>
    match x.loops.queue with
    | [] => .ok x
    | task :: _ => do
      let w ← exec os task x.world
      .ok { loops := LoopAction.execute.run ret x.loops, world := w,
            binds := x.binds ++ task.binds os x.world }

def Reported (ret : Nat → Int) (x : SessionService) (port : UInt16) : Prop :=
  (x.newStoreSes ret port).1 ≠ 0 ∧ ∃ ses,
    (x.newStoreSes ret port).2.storeSess_[(x.newStoreSes ret port).1]? = some ses ∧
      ses.serial = x.made

/-- The session is reported when its bind returns 0; and when it returns an error, nothing is
recorded of it, here or by the manager. -/
structure ReportsBind (ret : Nat → Int) (x : SessionService) (port : UInt16) (r : Int) :
    Prop where
  reported_iff : Reported ret x port ↔ r = 0
  failed_id : r ≠ 0 → (x.newStoreSes ret port).1 = 0
  failed_sess : r ≠ 0 → (x.newStoreSes ret port).2.storeSess_ = x.storeSess_
  failed_stream : r ≠ 0 → ∀ (m : Streams.StreamMgr) (s : String), m.sesServicePtr_ = x →
    (Streams.StreamMgr.createStream ret s m).storeSess_ = m.storeSess_ ∧
      ∀ call, .send call ∈ (Streams.StreamMgr.createStream ret s m).log → .send call ∈ m.log

section Binds
variable {ret : Nat → Int} {os : Nat → Outcome}

theorem bindAddr_value (outcome : Outcome) (ses : Nat) (w : StoreLoop) :
    (w.bindAddr outcome ses).1 = outcome.value := by
  cases outcome <;> rfl

theorem value_of_binds {task : StoreTask} {w : StoreLoop} {p : Nat × Int}
    (h : p ∈ task.binds os w) : p.2 = (os p.1).value := by
  cases task with
  | bindAddr ses =>
    rw [List.mem_singleton.mp h]
    exact bindAddr_value (os ses) ses w
  | _ => exact absurd h List.not_mem_nil

theorem binds_value {zeroed : Nat → Bool} {others : List Int} {actions : List BothAction}
    {y : BothLoops}
    (hy : run (BothLoops.step ret os) actions { world := StoreLoop.start zeroed others } = .ok y) :
    ∀ p ∈ y.binds, p.2 = (os p.1).value := by
  refine Reachable.inv (I := fun x : BothLoops => ∀ p ∈ x.binds, p.2 = (os p.1).value)
    (fun p hp => absurd hp List.not_mem_nil) ?_ ⟨actions, hy⟩
  intro action x x' h hstep
  cases action with
  | service call =>
    cases hstep
    exact h
  | session task =>
    cases hstep
    exact h
  | execute =>
    simp only [BothLoops.step] at hstep
    split at hstep
    · cases hstep
      exact h
    · obtain ⟨w, -, heq⟩ := seq_ok_iff.mp hstep
      cases heq
      intro p hp
      cases List.mem_append.mp hp with
      | inl hold => exact h p hold
      | inr hnew => exact value_of_binds hnew

theorem bothLoops_distinct {zeroed : Nat → Bool} {others : List Int} {actions : List BothAction}
    {x : BothLoops}
    (hx : run (BothLoops.step ret os) actions { world := StoreLoop.start zeroed others } = .ok x) :
    Distinct x.loops := by
  have hstart : Distinct {} :=
    ⟨fun id ses hs => by simp at hs, fun id id' ses ses' hs => by simp at hs, Nat.le_refl 0⟩
  refine Reachable.inv (I := fun x : BothLoops => Distinct x.loops) hstart ?_ ⟨actions, hx⟩
  intro action x x' h hstep
  cases action with
  | service call =>
    cases hstep
    exact distinct_step h (.admin call)
  | session task =>
    cases hstep
    refine h.frame rfl (Nat.le_refl _) ?_
    rw [SessionService.safeCall_storeLoop, List.length_append]
    exact Nat.le_add_right _ _
  | execute =>
    simp only [BothLoops.step] at hstep
    split at hstep
    · cases hstep
      exact h
    · obtain ⟨w, -, heq⟩ := seq_ok_iff.mp hstep
      cases heq
      exact (distinct_step h .execute : Distinct (LoopAction.execute.run ret x.loops))

end Binds

section Reports
variable {ret : Nat → Int} {x : SessionService} {port : UInt16}

open SessionService

theorem reported_iff (hlt : x.storeSesCount_ < x.maxStoreConn_) :
    Reported ret x port ↔ ret x.made = 0 ∧ x.id_ + 1 ≠ 0 := by
  rw [Reported]
  by_cases hr : ret x.made = 0
  · rw [newStoreSes_kept hlt hr]
    constructor
    · exact fun h => ⟨hr, h.1⟩
    · exact fun h => ⟨h.2, _, by rw [get_insert, if_pos rfl], rfl⟩
  · rw [newStoreSes_failed hlt hr]
    exact ⟨fun h => absurd rfl h.1, fun h => absurd h.1 hr⟩

theorem createStream_failed {m : Streams.StreamMgr} (hr : ret m.sesServicePtr_.made ≠ 0)
    (s : String) :
    (Streams.StreamMgr.createStream ret s m).storeSess_ = m.storeSess_ ∧
      ∀ call, .send call ∈ (Streams.StreamMgr.createStream ret s m).log → .send call ∈ m.log := by
  have hzero : (Streams.StreamMgr.newSes ret m).1 = 0 := by
    rw [Streams.StreamMgr.newSes]
    by_cases hlt : m.sesServicePtr_.storeSesCount_ < m.sesServicePtr_.maxStoreConn_
    · rw [newStoreSes_failed hlt hr]
    · rw [newStoreSes_refused hlt]
  rw [Streams.StreamMgr.createStream_refused hzero]
  refine ⟨rfl, fun call hcall => ?_⟩
  simpa using hcall

theorem reportsBind_iff (hd : Distinct { service := x })
    (hlt : x.storeSesCount_ < x.maxStoreConn_) (r : Int) :
    ReportsBind ret x port r ↔ (ret x.made = 0 ↔ r = 0) ∧ (r = 0 → x.id_ + 1 ≠ 0) := by
  constructor
  · intro h
    have hrep := (reported_iff hlt).symm.trans h.reported_iff
    refine ⟨⟨fun hr => ?_, fun h0 => (hrep.mpr h0).1⟩, fun h0 => (hrep.mpr h0).2⟩
    by_contra hne
    -- the session would have been recorded, and no session of that number was there before
    have hsess := h.failed_sess hne
    rw [newStoreSes_kept hlt hr] at hsess
    have hnew := hd.serial_lt (x.id_ + 1)
      { serial := x.made, addr_ := { host := "127.0.0.1", port } } (by
        rw [← hsess]
        simp only [get_insert, if_pos])
    exact absurd hnew (Nat.lt_irrefl _)
  · intro ⟨hret, hid⟩
    have hfail : r ≠ 0 → ret x.made ≠ 0 := fun hne => mt hret.mp hne
    refine ⟨?_, fun hne => ?_, fun hne => ?_, fun hne m s hm => ?_⟩
    · rw [reported_iff hlt]
      exact ⟨fun h => hret.mp h.1, fun h0 => ⟨hret.mpr h0, hid h0⟩⟩
    · rw [newStoreSes_failed hlt (hfail hne)]
    · rw [newStoreSes_failed hlt (hfail hne)]
      rfl
    · subst hm
      exact createStream_failed (hfail hne) s

end Reports

/-- However the loops take turns, the report of a session agrees with its bind exactly when what
is found in the place of `prePareStore`'s value is 0 just for the binds that go well. -/
theorem reports_bind_iff (ret : Nat → Int) (os : Nat → Outcome) (zeroed : Nat → Bool)
    (others : List Int) (u v : List BothAction) (port : UInt16) {x y : BothLoops} {r : Int}
    (hx : run (BothLoops.step ret os) u { world := StoreLoop.start zeroed others } = .ok x)
    (hlt : x.loops.service.storeSesCount_ < x.loops.service.maxStoreConn_)
    (hy : run (BothLoops.step ret os) (u ++ .service (.newStoreSes port) :: v)
      { world := StoreLoop.start zeroed others } = .ok y)
    (hr : (x.loops.service.made, r) ∈ y.binds) :
    ReportsBind ret x.loops.service port r ↔
      (ret x.loops.service.made = 0 ↔ (os x.loops.service.made).value = 0) ∧
        ((os x.loops.service.made).value = 0 → x.loops.service.id_ + 1 ≠ 0) := by
  have hd := bothLoops_distinct hx
  have hvalue : r = (os x.loops.service.made).value := binds_value hy _ hr
  rw [reportsBind_iff ⟨hd.serial_lt, hd.serial_inj, Nat.zero_le _⟩ hlt r, hvalue]

theorem reports_bind_first_session :
    ReportsBind (fun _ => 0) {} 3000 0 ↔ ((0 : Int) = 0 ↔ Outcome.bound.value = 0) ∧
      (Outcome.bound.value = 0 → (0 : UInt64) + 1 ≠ 0) :=
  reports_bind_iff (fun _ => 0) (fun _ => .bound) (fun _ => true) [0, 1, 2] [] [.execute] 3000
    rfl (by decide) rfl (by decide)

/-- The port is taken: the session is reported with id 1 and recorded, an invite for it goes out,
and then its bind returns 98. -/
theorem failed_bind_reported :
    ((run (BothLoops.step (fun _ => 0) fun _ => .notBound 98)
      [.service (.newStoreSes 3000), .execute]
      { world := StoreLoop.start (fun _ => true) [0, 1, 2] }).map fun x => x.binds) =
        .ok [(0, 98)] ∧
    ¬ ReportsBind (fun _ => 0) {} 3000 98 := by
  refine ⟨by decide, fun h => ?_⟩
  exact absurd (h.failed_id (by decide)) (by decide)

end LazyNet.Sessions
