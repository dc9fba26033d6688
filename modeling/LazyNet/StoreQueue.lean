import LazyNet.AdmissionLimit

/-! The queue of the store loop. A task refers to its session by a plain pointer, so the session
has to be owned by the service for as long as the task waits. -/
namespace LazyNet.Sessions
open LazyNet.Tables LazyNet.StepRuns

/-- The two loops: the service that the admin loop calls, and how many of the calls queued for
the store loop have been executed there. -/
structure Loops where
  service : SessionService := {}
  executed : Nat := 0

def Loops.queue (x : Loops) : List StoreTask := x.service.storeLoop_.drop x.executed

inductive LoopAction where
  | admin (call : ServiceCall)
  | execute
  deriving DecidableEq, Repr

def LoopAction.run (ret : Nat → Int) : LoopAction → Loops → Loops
  | .admin call, x => { x with service := call.run ret x.service }
  | .execute, x => { x with executed := min (x.executed + 1) x.service.storeLoop_.length }

def afterActions (ret : Nat → Int) (u : List LoopAction) : Loops :=
  u.foldl (fun x action => action.run ret x) {}

theorem afterActions_snoc (ret : Nat → Int) (u : List LoopAction) (action : LoopAction) :
    afterActions ret (u ++ [action]) = action.run ret (afterActions ret u) := by
  simp [afterActions]

/-- Between two calls of the service nothing but its table holds a session. -/
def Owned (x : SessionService) (n : Nat) : Prop :=
  ∃ (id : UInt64) (ses : StoreSession), x.storeSess_[id]? = some ses ∧ ses.serial = n

def NoDangling (x : Loops) : Prop := ∀ task ∈ x.queue, Owned x.service task.ses

/-- The actions that leave every waiting task its session: no session is stopped, none fails to
be made, and no id comes round to a session that a waiting task refers to. -/
def Retains (ret : Nat → Int) : LoopAction → Loops → Prop
  | .admin (.newStoreSes _), x => x.service.storeSesCount_ < x.service.maxStoreConn_ →
    ret x.service.made = 0 ∧
      ∀ ses, x.service.storeSess_[x.service.id_ + 1]? = some ses →
        ∀ task ∈ x.queue, task.ses ≠ ses.serial
  | .admin (.stopStoreSes sesid), x => sesid ∉ x.service.storeSess_
  | .admin (.startStoreSes _), _ => True
  | .admin (.attatchLive _ _), _ => True
  | .admin (.detachLive _ _), _ => True
  | .execute, _ => True

/-- Each session object is in the table once at most, and the queue has not been overrun. -/
structure Distinct (x : Loops) : Prop where
  serial_lt : ∀ (id : UInt64) (ses : StoreSession), x.service.storeSess_[id]? = some ses →
    ses.serial < x.service.made
  serial_inj : ∀ (id id' : UInt64) (ses ses' : StoreSession),
    x.service.storeSess_[id]? = some ses → x.service.storeSess_[id']? = some ses' →
      ses.serial = ses'.serial → id = id'
  executed_le : x.executed ≤ x.service.storeLoop_.length

section Step
variable {ret : Nat → Int} {x : Loops} {y : SessionService} {task : StoreTask}

theorem queue_snoc (h : Distinct x) (hloop : y.storeLoop_ = x.service.storeLoop_ ++ [task]) :
    Loops.queue { x with service := y } = x.queue ++ [task] := by
  simp only [Loops.queue, hloop]
  exact List.drop_append_of_le_length h.executed_le

theorem Distinct.frame (h : Distinct x) (hsess : y.storeSess_ = x.service.storeSess_)
    (hmade : x.service.made ≤ y.made)
    (hloop : x.service.storeLoop_.length ≤ y.storeLoop_.length) :
    Distinct { x with service := y } := by
  refine ⟨fun id ses hs => ?_, fun id id' ses ses' hs hs' => ?_, Nat.le_trans h.executed_le hloop⟩
  · rw [hsess] at hs
    exact Nat.lt_of_lt_of_le (h.serial_lt id ses hs) hmade
  · rw [hsess] at hs hs'
    exact h.serial_inj id id' ses ses' hs hs'

theorem noDangling_queued (h : Distinct x) (hd : NoDangling x) {sesid : UInt64}
    {ses : StoreSession} (hs : x.service.storeSess_[sesid]? = some ses)
    (hsess : y.storeSess_ = x.service.storeSess_)
    (hloop : y.storeLoop_ = x.service.storeLoop_ ++ [task]) (htask : task.ses = ses.serial) :
    NoDangling { x with service := y } := by
  intro t ht
  rw [queue_snoc h hloop, List.mem_append, List.mem_singleton] at ht
  rw [Owned, hsess]
  cases ht with
  | inl hold => exact hd t hold
  | inr hnew => exact ⟨sesid, ses, hs, by rw [hnew, htask]⟩

theorem queues_one (ret : Nat → Int) (c : ServiceCall) (hc : ∀ port, c ≠ .newStoreSes port)
    (hc' : ∀ sesid, c ≠ .stopStoreSes sesid) (x : SessionService) :
    c.run ret x = x ∨ ∃ (sesid : UInt64) (ses : StoreSession) (task : StoreTask),
      x.storeSess_[sesid]? = some ses ∧ task.ses = ses.serial ∧
        (c.run ret x).storeSess_ = x.storeSess_ ∧ (c.run ret x).made = x.made ∧
          (c.run ret x).storeLoop_ = x.storeLoop_ ++ [task] := by
  cases c with
  | newStoreSes port => exact absurd rfl (hc port)
  | stopStoreSes sesid => exact absurd rfl (hc' sesid)
  | startStoreSes sesid =>
    rw [ServiceCall.run]
    cases hs : x.storeSess_[sesid]? with
    | none => exact .inl (SessionService.startStoreSes_none hs)
    | some ses =>
      rw [SessionService.startStoreSes_some hs]
      exact .inr ⟨sesid, ses, _, hs, rfl, rfl, rfl, rfl⟩
  | attatchLive sesid addr =>
    rw [ServiceCall.run]
    obtain ⟨-, hcase⟩ | ⟨ses, hs, hcase⟩ := SessionService.attatchLive_cases x sesid addr
    · exact .inl hcase
    · rw [hcase]
      exact .inr ⟨sesid, ses, _, hs, rfl, rfl, rfl, rfl⟩
  | detachLive sesid addr =>
    rw [ServiceCall.run]
    obtain ⟨-, hcase⟩ | ⟨ses, hs, hcase⟩ := SessionService.detachLive_cases x sesid addr
    · exact .inl hcase
    · rw [hcase]
      exact .inr ⟨sesid, ses, _, hs, rfl, rfl, rfl, rfl⟩

theorem distinct_queues_one (h : Distinct x) {c : ServiceCall}
    (hc : ∀ port, c ≠ .newStoreSes port) (hc' : ∀ sesid, c ≠ .stopStoreSes sesid) :
    Distinct ((LoopAction.admin c).run ret x) := by
  rw [LoopAction.run]
  obtain hcase | ⟨sesid, ses, task, -, -, hsess, hmade, hloop⟩ :=
    queues_one ret c hc hc' x.service
  · rw [hcase]
    exact h
  · refine h.frame hsess (by rw [hmade]) ?_
    rw [hloop, List.length_append]
    exact Nat.le_add_right _ _

theorem noDangling_queues_one (h : Distinct x) (hd : NoDangling x) {c : ServiceCall}
    (hc : ∀ port, c ≠ .newStoreSes port) (hc' : ∀ sesid, c ≠ .stopStoreSes sesid) :
    NoDangling ((LoopAction.admin c).run ret x) := by
  rw [LoopAction.run]
  obtain hcase | ⟨sesid, ses, task, hs, htask, hsess, -, hloop⟩ :=
    queues_one ret c hc hc' x.service
  · rw [hcase]
    exact hd
  · exact noDangling_queued h hd hs hsess hloop htask

theorem distinct_execute (h : Distinct x) : Distinct (LoopAction.execute.run ret x) :=
  ⟨h.serial_lt, h.serial_inj, Nat.min_le_right _ _⟩

theorem noDangling_execute (hd : NoDangling x) : NoDangling (LoopAction.execute.run ret x) := by
  refine fun task ht => hd task ?_
  rw [Loops.queue, LoopAction.run] at ht
  by_cases hlt : x.executed + 1 ≤ x.service.storeLoop_.length
  · rw [Nat.min_eq_left hlt, ← List.drop_drop] at ht
    exact List.mem_of_mem_drop ht
  · rw [Nat.min_eq_right (Nat.le_of_not_le hlt), List.drop_length] at ht
    exact absurd ht List.not_mem_nil

theorem distinct_stop (h : Distinct x) (sesid : UInt64) :
    Distinct ((LoopAction.admin (.stopStoreSes sesid)).run ret x) := by
  rw [LoopAction.run, ServiceCall.run]
  cases hs : x.service.storeSess_[sesid]? with
  | none =>
    rw [SessionService.stopStoreSes_none hs]
    exact h
  | some ses =>
    rw [SessionService.stopStoreSes_some hs]
    refine ⟨fun id a ha => ?_, fun id id' a a' ha ha' => ?_, ?_⟩
    · simp only [get_erase] at ha
      split_ifs at ha
      exact h.serial_lt id a ha
    · simp only [get_erase] at ha ha'
      split_ifs at ha ha'
      exact h.serial_inj id id' a a' ha ha'
    · rw [SessionService.safeCall_storeLoop, List.length_append]
      exact Nat.le_add_right_of_le h.executed_le

theorem noDangling_stop (h : Distinct x) (hd : NoDangling x) (sesid : UInt64) :
    NoDangling ((LoopAction.admin (.stopStoreSes sesid)).run ret x) ↔
      sesid ∉ x.service.storeSess_ := by
  rw [LoopAction.run, ServiceCall.run]
  cases hs : x.service.storeSess_[sesid]? with
  | none =>
    rw [SessionService.stopStoreSes_none hs]
    exact ⟨fun _ => get_none_iff.mp hs, fun _ => hd⟩
  | some ses =>
    have hmem : sesid ∈ x.service.storeSess_ := mem_iff_get.mpr ⟨ses, hs⟩
    rw [SessionService.stopStoreSes_some hs]
    refine ⟨fun hnot => ?_, fun hnot => absurd hmem hnot⟩
    obtain ⟨id, a, ha, hserial⟩ := hnot (.closeUDP ses.serial) (by
      rw [queue_snoc h rfl]
      exact List.mem_append_right _ List.mem_cons_self)
    simp only [get_erase] at ha
    split_ifs at ha with hne
    exact absurd (h.serial_inj id sesid a ses ha hs hserial).symm hne

theorem distinct_new (h : Distinct x) (port : UInt16) :
    Distinct ((LoopAction.admin (.newStoreSes port)).run ret x) := by
  rw [LoopAction.run, ServiceCall.run]
  have hlen : x.service.storeLoop_.length ≤
      (x.service.storeLoop_ ++ [StoreTask.bindAddr x.service.made]).length := by
    rw [List.length_append]
    exact Nat.le_add_right _ _
  obtain hc | hc | hc := SessionService.newStoreSes_cases ret x.service port <;> rw [hc]
  · exact h
  · exact h.frame rfl (Nat.le_succ _) hlen
  · refine ⟨fun id a ha => ?_, fun id id' a a' ha ha' heq => ?_,
      Nat.le_trans h.executed_le hlen⟩
    · simp only [get_insert] at ha
      split_ifs at ha
      · cases ha
        exact Nat.lt_succ_self _
      · exact Nat.lt_succ_of_lt (h.serial_lt id a ha)
    · simp only [get_insert] at ha ha'
      split_ifs at ha ha' with hid hid' hid'
      · exact hid.symm.trans hid'
      · cases ha
        exact absurd heq.symm (Nat.ne_of_lt (h.serial_lt id' a' ha'))
      · cases ha'
        exact absurd heq (Nat.ne_of_lt (h.serial_lt id a ha))
      · exact h.serial_inj id id' a a' ha ha' heq

theorem noDangling_new_failed (h : Distinct x)
    (hlt : x.service.storeSesCount_ < x.service.maxStoreConn_) (hr : ret x.service.made ≠ 0)
    (port : UInt16) : ¬ NoDangling ((LoopAction.admin (.newStoreSes port)).run ret x) := by
  rw [LoopAction.run, ServiceCall.run, SessionService.newStoreSes_failed hlt hr]
  intro hd
  obtain ⟨id, a, ha, hserial⟩ := hd (.bindAddr x.service.made) (by
    rw [queue_snoc h rfl]
    exact List.mem_append_right _ List.mem_cons_self)
  exact absurd hserial (Nat.ne_of_lt (h.serial_lt id a ha))

theorem noDangling_new_kept (h : Distinct x) (hd : NoDangling x)
    (hlt : x.service.storeSesCount_ < x.service.maxStoreConn_) (hr : ret x.service.made = 0)
    (port : UInt16) : NoDangling ((LoopAction.admin (.newStoreSes port)).run ret x) ↔
      ∀ ses, x.service.storeSess_[x.service.id_ + 1]? = some ses →
        ∀ task ∈ x.queue, task.ses ≠ ses.serial := by
  rw [LoopAction.run, ServiceCall.run, SessionService.newStoreSes_kept hlt hr]
  constructor
  · intro hnew ses hs task ht heq
    obtain ⟨id, a, ha, hserial⟩ := hnew task (by
      rw [queue_snoc h rfl]
      exact List.mem_append_left _ ht)
    simp only [get_insert] at ha
    split_ifs at ha with hid
    · cases ha
      exact absurd (heq.symm.trans hserial.symm) (Nat.ne_of_lt (h.serial_lt _ ses hs))
    · exact hid (h.serial_inj _ id ses a hs ha (heq.symm.trans hserial.symm))
  · intro hkeep t ht
    rw [queue_snoc h rfl, List.mem_append, List.mem_singleton] at ht
    rw [Owned]
    cases ht with
    | inl hold =>
      obtain ⟨id, a, ha, hserial⟩ := hd t hold
      have hid : x.service.id_ + 1 ≠ id := by
        intro heq
        rw [← heq] at ha
        exact hkeep a ha t hold hserial.symm
      exact ⟨id, a, by rw [get_insert, if_neg hid]; exact ha, hserial⟩
    | inr hnew => exact ⟨_, _, by rw [get_insert, if_pos rfl], by rw [hnew]; rfl⟩

theorem step_new (h : Distinct x) (hd : NoDangling x) (port : UInt16) :
    NoDangling ((LoopAction.admin (.newStoreSes port)).run ret x) ↔
      Retains ret (.admin (.newStoreSes port)) x := by
  rw [Retains]
  by_cases hlt : x.service.storeSesCount_ < x.service.maxStoreConn_
  · by_cases hr : ret x.service.made = 0
    · rw [noDangling_new_kept h hd hlt hr]
      exact ⟨fun hk _ => ⟨hr, hk⟩, fun hk => (hk hlt).2⟩
    · exact ⟨fun hnew => absurd hnew (noDangling_new_failed h hlt hr port),
        fun hk => absurd (hk hlt).1 hr⟩
  · rw [LoopAction.run, ServiceCall.run, SessionService.newStoreSes_refused hlt]
    exact ⟨fun _ hlt' => absurd hlt' hlt, fun _ => hd⟩

theorem distinct_admin (h : Distinct x) (c : ServiceCall) :
    Distinct ((LoopAction.admin c).run ret x) := by
  cases c with
  | newStoreSes port => exact distinct_new h port
  | stopStoreSes sesid => exact distinct_stop h sesid
  | startStoreSes _ => exact distinct_queues_one h (by simp) (by simp)
  | attatchLive _ _ => exact distinct_queues_one h (by simp) (by simp)
  | detachLive _ _ => exact distinct_queues_one h (by simp) (by simp)

theorem distinct_step (h : Distinct x) (action : LoopAction) : Distinct (action.run ret x) := by
  cases action with
  | execute => exact distinct_execute h
  | admin c => exact distinct_admin h c

theorem noDangling_step (h : Distinct x) (hd : NoDangling x) (action : LoopAction) :
    NoDangling (action.run ret x) ↔ Retains ret action x := by
  cases action with
  | execute => exact ⟨fun _ => trivial, fun _ => noDangling_execute hd⟩
  | admin c =>
    cases c with
    | newStoreSes port => exact step_new h hd port
    | stopStoreSes sesid => exact noDangling_stop h hd sesid
    | startStoreSes _ =>
      exact ⟨fun _ => trivial, fun _ => noDangling_queues_one h hd (by simp) (by simp)⟩
    | attatchLive _ _ =>
      exact ⟨fun _ => trivial, fun _ => noDangling_queues_one h hd (by simp) (by simp)⟩
    | detachLive _ _ =>
      exact ⟨fun _ => trivial, fun _ => noDangling_queues_one h hd (by simp) (by simp)⟩

end Step

/-- However the two loops take turns, no task is ever left without its session exactly when
every action retains the sessions of the waiting tasks. -/
theorem no_dangling_throughout_iff (ret : Nat → Int) (actions : List LoopAction) :
    (∀ u, u <+: actions → NoDangling (afterActions ret u)) ↔
      ∀ u action, u ++ [action] <+: actions → Retains ret action (afterActions ret u) := by
  have hempty : NoDangling (afterActions ret []) := fun task ht => absurd ht List.not_mem_nil
  have hstart : Distinct (afterActions ret []) :=
    ⟨fun id ses hs => by simp [afterActions] at hs,
      fun id id' ses ses' hs => by simp [afterActions] at hs, Nat.le_refl 0⟩
  refine prefix_iff (fun u => NoDangling (afterActions ret u) ∧ Distinct (afterActions ret u))
    actions hempty ⟨hempty, hstart⟩ ?_ ?_
  · intro u action _ ⟨hd, h⟩
    rw [afterActions_snoc]
    exact noDangling_step h hd action
  · intro u action _ ⟨hd, h⟩ hnew
    refine ⟨hnew, ?_⟩
    rw [afterActions_snoc]
    exact distinct_step h action

structure RunsOrphan (x : Loops) (task : StoreTask) : Prop where
  next : x.queue.head? = some task
  lost : ¬ Owned x.service task.ses

theorem RunsOrphan.not_noDangling {x : Loops} {task : StoreTask} (h : RunsOrphan x task) :
    ¬ NoDangling x := fun hd => h.lost (hd task (List.mem_of_head? h.next))

/-- A session is stopped before the store loop closes it, and one is dropped before the store
loop binds it: either way the next task to run has no session. -/
theorem task_outlives_session :
    RunsOrphan (afterActions (fun _ => 0)
      [.admin (.newStoreSes 3000), .execute, .admin (.stopStoreSes 1)]) (.closeUDP 0) ∧
    RunsOrphan (afterActions (fun _ => 98) [.admin (.newStoreSes 3000)]) (.bindAddr 0) ∧
    ¬ ∀ ret actions u, u <+: actions → NoDangling (afterActions ret u) := by
  have lost : ∀ {x : Loops} {n : Nat}, x.service.storeSess_ = ∅ → ¬ Owned x.service n := by
    intro x n hs ⟨id, ses, hget, _⟩
    rw [hs] at hget
    simp at hget
  have hdrop : RunsOrphan (afterActions (fun _ => 98) [.admin (.newStoreSes 3000)])
    (.bindAddr 0) := ⟨rfl, lost rfl⟩
  exact ⟨⟨rfl, lost rfl⟩, hdrop,
    fun h => hdrop.not_noDangling (h _ _ _ (List.prefix_refl _))⟩

end LazyNet.Sessions
