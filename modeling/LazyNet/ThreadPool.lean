import LazyNet.TaskQueue
import Mathlib.Data.List.Perm.Basic

/-! The thread pool: workers that take tasks from one queue until it is told to exit. -/
namespace LazyNet.Workers
open LazyNet.TaskQueue
variable {ι T : Type}

inductive Worker (T : Type) where
  /-- before `tasks_.exited()` -/
  | check
  | pop_wait
  | run (task : T)
  | left
  deriving DecidableEq, Repr

structure ThreadPool (ι T : Type) where
  tasks_ : SafeQueue T := {}
  threads_ : ι → Worker T := fun _ => .check
  accepted : List T := []
  /-- the tasks that were taken, in that order, each with its worker -/
  started : List (ι × T) := []
  finished : List (ι × T) := []
  /-- how many tasks each worker took after the exit -/
  late : ι → Nat := fun _ => 0

inductive Action (ι T : Type) where
  | addTask (task : T)
  | exit
  /-- a worker takes the step that it is at -/
  | turn (i : ι)

def Action.isTurn [DecidableEq ι] (i : ι) : Action ι T → Bool
  | .turn j => decide (j = i)
  | _ => false

namespace ThreadPool

def addTask (task : T) (x : ThreadPool ι T) : Bool × ThreadPool ι T :=
  let (ok, tasks) := x.tasks_.push task
  (ok, { x with tasks_ := tasks, accepted := if ok then x.accepted ++ [task] else x.accepted })

variable [DecidableEq ι]

def setWorker (i : ι) (w : Worker T) (x : ThreadPool ι T) : ThreadPool ι T :=
  { x with threads_ := Function.update x.threads_ i w }

/-- `pop_wait` returns when there is a task or the queue has exited; until then it waits. -/
def take (i : ι) (x : ThreadPool ι T) : ThreadPool ι T :=
  match x.tasks_.pop_wait with
  | some (task, tasks) =>
    { x.setWorker i (.run task) with
      tasks_ := tasks
      started := x.started ++ [(i, task)]
      late := if x.tasks_.exit_ then Function.update x.late i (x.late i + 1) else x.late }
  | none => if x.tasks_.exit_ then x.setWorker i .check else x

def turn (i : ι) (x : ThreadPool ι T) : ThreadPool ι T :=
  match x.threads_ i with
  | .check => x.setWorker i (if x.tasks_.exit_ then .left else .pop_wait)
  | .pop_wait => x.take i
  | .run task => { x.setWorker i .check with finished := x.finished ++ [(i, task)] }
  | .left => x

end ThreadPool

def Action.step [DecidableEq ι] : Action ι T → ThreadPool ι T → ThreadPool ι T
  | .addTask task, x => (x.addTask task).2
  | .exit, x => { x with tasks_ := x.tasks_.exit }
  | .turn i, x => x.turn i

def runPool [DecidableEq ι] (actions : List (Action ι T)) (x : ThreadPool ι T) : ThreadPool ι T :=
  actions.foldl (fun x action => action.step x) x

def afterActions [DecidableEq ι] (capacity : Nat) (actions : List (Action ι T)) : ThreadPool ι T :=
  runPool actions { tasks_ := { capacity_ := capacity } }

def tasksOf [DecidableEq ι] (i : ι) (tasks : List (ι × T)) : List (ι × T) :=
  tasks.filter fun p => p.1 = i

def Worker.running (i : ι) : Worker T → List (ι × T)
  | .run task => [(i, task)]
  | _ => []

def Worker.waits : Worker T → Nat
  | .check => 0
  | .pop_wait => 1
  | .run _ => 0
  | .left => 0

/-- How many steps a worker has left after the exit. -/
def Worker.rank : Worker T → Nat
  | .left => 0
  | .check => 1
  | .run _ => 2
  | .pop_wait => 3

theorem addTask_frame (task : T) (x : ThreadPool ι T) :
    (x.addTask task).2.tasks_.exit_ = x.tasks_.exit_ ∧
      (x.addTask task).2.threads_ = x.threads_ := by
  rw [ThreadPool.addTask]
  obtain ⟨hpush, -⟩ | ⟨hpush, -⟩ := x.tasks_.push_cases task <;> rw [hpush]
  · exact ⟨rfl, rfl⟩
  · exact ⟨rfl, rfl⟩

section Lists
variable [DecidableEq ι] {i j : ι} {task : T}

theorem tasksOf_snoc_self (tasks : List (ι × T)) :
    tasksOf i (tasks ++ [(i, task)]) = tasksOf i tasks ++ [(i, task)] := by
  simp [tasksOf]

theorem tasksOf_snoc_other (h : i ≠ j) (tasks : List (ι × T)) :
    tasksOf j (tasks ++ [(i, task)]) = tasksOf j tasks := by
  simp [tasksOf, h]

theorem perm_of_tasksOf {l l' : List (ι × T)} (h : ∀ i, tasksOf i l = tasksOf i l') :
    l.Perm l' := by
  classical
  refine List.perm_iff_count.mpr fun p => ?_
  have hcount : ∀ l : List (ι × T), (tasksOf p.1 l).count p = l.count p :=
    fun l => List.count_filter (by simp)
  rw [← hcount l, ← hcount l', h]

end Lists

structure Sound [DecidableEq ι] (x : ThreadPool ι T) : Prop where
  ledger : x.started.map Prod.snd ++ x.tasks_.items_ = x.accepted
  own : ∀ i, tasksOf i x.started = tasksOf i x.finished ++ (x.threads_ i).running i
  late_le : ∀ i, x.late i + (x.threads_ i).waits ≤ 1
  early : x.tasks_.exit_ = false → ∀ i, x.late i = 0

section Steps
variable [DecidableEq ι] {x : ThreadPool ι T} {i : ι}

@[simp] theorem setWorker_self (i : ι) (w : Worker T) (x : ThreadPool ι T) :
    (x.setWorker i w).threads_ i = w := by
  simp [ThreadPool.setWorker]

theorem setWorker_other {j : ι} (h : j ≠ i) (w : Worker T) (x : ThreadPool ι T) :
    (x.setWorker i w).threads_ j = x.threads_ j := by
  simp [ThreadPool.setWorker, h]

theorem take_nil (h : x.tasks_.items_ = []) :
    x.take i = if x.tasks_.exit_ then x.setWorker i .check else x := by
  simp only [ThreadPool.take, SafeQueue.pop_wait, h]

theorem take_cons {task : T} {tasks : List T} (h : x.tasks_.items_ = task :: tasks) :
    x.take i = { x.setWorker i (.run task) with
      tasks_ := { x.tasks_ with items_ := tasks }
      started := x.started ++ [(i, task)]
      late := if x.tasks_.exit_ then Function.update x.late i (x.late i + 1) else x.late } := by
  simp only [ThreadPool.take, SafeQueue.pop_wait, h]

theorem Sound.addTask (h : Sound x) (task : T) : Sound (x.addTask task).2 := by
  rw [ThreadPool.addTask]
  obtain ⟨hpush, -⟩ | ⟨hpush, -⟩ := x.tasks_.push_cases task <;> rw [hpush]
  · exact ⟨h.ledger, h.own, h.late_le, h.early⟩
  · refine ⟨?_, h.own, h.late_le, h.early⟩
    simp only [if_true]
    rw [← List.append_assoc, h.ledger]

theorem Sound.moved (h : Sound x) {w : Worker T} (hrun : w.running i = (x.threads_ i).running i)
    (hwaits : x.late i + w.waits ≤ 1) : Sound (x.setWorker i w) := by
  refine ⟨h.ledger, fun j => ?_, fun j => ?_, h.early⟩
  · by_cases hj : j = i
    · rw [hj, setWorker_self, hrun]
      exact h.own i
    · rw [setWorker_other hj]
      exact h.own j
  · by_cases hj : j = i
    · rw [hj, setWorker_self]
      exact hwaits
    · rw [setWorker_other hj]
      exact h.late_le j

theorem Sound.check (h : Sound x) (hw : x.threads_ i = .check) :
    Sound (x.setWorker i (if x.tasks_.exit_ then .left else .pop_wait)) := by
  cases he : x.tasks_.exit_ with
  | true =>
    refine h.moved (by rw [hw]; rfl) ?_
    exact (Nat.le_add_right _ _).trans (h.late_le i)
  | false =>
    refine h.moved (by rw [hw]; rfl) ?_
    rw [h.early he i]
    rfl

theorem Sound.take (h : Sound x) (hw : x.threads_ i = .pop_wait) : Sound (x.take i) := by
  have hnone : x.late i = 0 := by
    have hle := h.late_le i
    rw [hw, Worker.waits] at hle
    omega
  cases hitems : x.tasks_.items_ with
  | nil =>
    rw [take_nil hitems]
    split_ifs
    · exact h.moved (by rw [hw]; rfl) (by rw [hnone]; exact Nat.zero_le _)
    · exact h
  | cons task tasks =>
    have hledger := h.ledger
    have hown := h.own i
    rw [hitems] at hledger
    rw [hw] at hown
    rw [take_cons hitems]
    refine ⟨?_, fun j => ?_, fun j => ?_, fun he j => ?_⟩
    · show (x.started ++ [(i, task)]).map Prod.snd ++ tasks = x.accepted
      rw [← hledger, List.map_append, List.append_assoc]
      rfl
    · simp only
      by_cases hj : j = i
      · rw [hj, tasksOf_snoc_self, hown, setWorker_self]
        exact congrArg (· ++ [(i, task)]) (List.append_nil _)
      · rw [tasksOf_snoc_other (Ne.symm hj), setWorker_other hj]
        exact h.own j
    · simp only
      by_cases hj : j = i
      · rw [hj, setWorker_self, Worker.waits]
        split_ifs
        · rw [Function.update_self, hnone]
        · rw [hnone]
          exact Nat.zero_le 1
      · rw [setWorker_other hj]
        split_ifs
        · rw [Function.update_of_ne hj]
          exact h.late_le j
        · exact h.late_le j
    · simp only [show x.tasks_.exit_ = false from he, Bool.false_eq_true, if_false]
      exact h.early he j

theorem Sound.finish (h : Sound x) {task : T} (hw : x.threads_ i = .run task) :
    Sound { x.setWorker i .check with finished := x.finished ++ [(i, task)] } := by
  refine ⟨h.ledger, fun j => ?_, fun j => ?_, h.early⟩
  · simp only
    by_cases hj : j = i
    · have hown := h.own i
      rw [hw] at hown
      rw [hj, tasksOf_snoc_self, setWorker_self]
      exact hown.trans (List.append_nil _).symm
    · rw [tasksOf_snoc_other (Ne.symm hj), setWorker_other hj]
      exact h.own j
  · simp only
    by_cases hj : j = i
    · rw [hj, setWorker_self]
      exact (Nat.le_add_right _ _).trans (h.late_le i)
    · rw [setWorker_other hj]
      exact h.late_le j

theorem Sound.step (h : Sound x) (action : Action ι T) : Sound (action.step x) := by
  cases action with
  | addTask task => exact h.addTask task
  | exit => exact ⟨h.ledger, h.own, h.late_le, fun he => by cases he⟩
  | turn i =>
    rw [Action.step, ThreadPool.turn]
    split
    case h_1 hw => exact h.check hw
    case h_2 hw => exact h.take hw
    case h_3 task hw => exact h.finish hw
    case h_4 => exact h

theorem sound_afterActions (capacity : Nat) (actions : List (Action ι T)) :
    Sound (afterActions capacity actions) := by
  refine List.foldlRecOn actions _ ⟨rfl, fun i => rfl, fun i => ?_, fun _ i => rfl⟩
    fun _ h action _ => h.step action
  exact Nat.zero_le 1

/-- After the exit a worker is not held up anywhere: a turn brings it nearer to its end. -/
theorem rank_turn (he : x.tasks_.exit_ = true) (i : ι) :
    ((x.turn i).threads_ i).rank ≤ (x.threads_ i).rank - 1 := by
  rw [ThreadPool.turn]
  cases hw : x.threads_ i with
  | check => simp [he, Worker.rank]
  | pop_wait =>
    cases hitems : x.tasks_.items_ with
    | nil => simp [take_nil hitems, he, Worker.rank]
    | cons task tasks => simp [take_cons hitems, Worker.rank]
  | run task => simp [Worker.rank]
  | left => simp [hw, Worker.rank]

theorem turn_frame (i : ι) (x : ThreadPool ι T) :
    (x.turn i).tasks_.exit_ = x.tasks_.exit_ ∧
      ∀ j, j ≠ i → (x.turn i).threads_ j = x.threads_ j := by
  rw [ThreadPool.turn]
  cases x.threads_ i with
  | check => exact ⟨rfl, fun j hj => setWorker_other hj _ x⟩
  | pop_wait =>
    show (x.take i).tasks_.exit_ = x.tasks_.exit_ ∧
      ∀ j, j ≠ i → (x.take i).threads_ j = x.threads_ j
    cases hitems : x.tasks_.items_ with
    | nil =>
      rw [take_nil hitems]
      split_ifs
      · exact ⟨rfl, fun j hj => setWorker_other hj _ x⟩
      · exact ⟨rfl, fun _ _ => rfl⟩
    | cons task tasks =>
      rw [take_cons hitems]
      exact ⟨rfl, fun j hj => setWorker_other hj (.run task) x⟩
  | run task => exact ⟨rfl, fun j hj => setWorker_other hj .check x⟩
  | left => exact ⟨rfl, fun _ _ => rfl⟩

theorem step_exited (he : x.tasks_.exit_ = true) (action : Action ι T) :
    (action.step x).tasks_.exit_ = true := by
  cases action with
  | addTask task => exact (addTask_frame task x).1.trans he
  | exit => rfl
  | turn j => exact (turn_frame j x).1.trans he

theorem rank_step (he : x.tasks_.exit_ = true) (action : Action ι T) (i : ι) :
    ((action.step x).threads_ i).rank ≤
      (x.threads_ i).rank - (if action.isTurn i then 1 else 0) := by
  cases action with
  | addTask task =>
    rw [Action.step, (addTask_frame task x).2]
    exact Nat.le_refl _
  | exit => exact Nat.le_refl _
  | turn j =>
    by_cases hj : i = j
    · rw [hj, Action.isTurn, decide_eq_true rfl, if_pos rfl]
      exact rank_turn he j
    · rw [Action.step, (turn_frame j x).2 i hj]
      simp [Action.isTurn, Ne.symm hj]

theorem rank_run (he : x.tasks_.exit_ = true) (actions : List (Action ι T)) (i : ι) :
    ((runPool actions x).threads_ i).rank ≤
      (x.threads_ i).rank - actions.countP (Action.isTurn i) := by
  induction actions generalizing x with
  | nil => exact Nat.le_refl _
  | cons action actions ih =>
    have hstep := rank_step he action i
    have hrest := ih (step_exited he action)
    rw [List.countP_cons]
    exact hrest.trans (by omega)

end Steps

section Runs
variable [DecidableEq ι]

/-- However the workers and the callers take turns: the tasks are taken in the order of their
pushes, each by one worker; a worker finishes the tasks that it took, each once and in order, up to
the one that it is at; after the exit it takes at most one more; and when all have left, every
accepted task is finished or still in the queue. -/
theorem pool_runs_each_once (capacity : Nat) (actions : List (Action ι T)) :
    let x := afterActions capacity actions
    x.started.map Prod.snd ++ x.tasks_.items_ = x.accepted ∧
      (∀ i, tasksOf i x.started = tasksOf i x.finished ++ (x.threads_ i).running i) ∧
      (∀ i, x.late i ≤ 1) ∧
      ((∀ i, x.threads_ i = .left) →
        x.accepted.Perm (x.finished.map Prod.snd ++ x.tasks_.items_)) := by
  intro x
  have h : Sound x := sound_afterActions capacity actions
  refine ⟨h.ledger, h.own, fun i => (Nat.le_add_right _ _).trans (h.late_le i), fun hleft => ?_⟩
  have hsame : ∀ i, tasksOf i x.started = tasksOf i x.finished := by
    intro i
    have hown := h.own i
    rw [hleft i] at hown
    exact hown.trans (List.append_nil _)
  rw [← h.ledger]
  exact ((perm_of_tasksOf hsame).map Prod.snd).append_right _

/-- After the exit a worker has left once it has had three turns, whatever the callers and the
other workers do in between; so when all have had them, a join returns. -/
theorem pool_joins (x : ThreadPool ι T) (he : x.tasks_.exit_ = true)
    (actions : List (Action ι T)) (i : ι) (h : 3 ≤ actions.countP (Action.isTurn i)) :
    (runPool actions x).threads_ i = .left := by
  have hrank := rank_run he actions i
  have hle : (x.threads_ i).rank ≤ 3 := by cases x.threads_ i <;> simp [Worker.rank]
  cases hw : (runPool actions x).threads_ i with
  | left => rfl
  | check =>
    rw [hw, Worker.rank] at hrank
    omega
  | pop_wait =>
    rw [hw, Worker.rank] at hrank
    omega
  | run task =>
    rw [hw, Worker.rank] at hrank
    omega

/-- Two workers, one of them at a task and one that waits, when the pool is told to exit with
another task queued. -/
theorem busy_pool_joins :
    let x := afterActions 0 [.addTask 'a', .addTask 'b', .turn true, .turn true, .turn false, .exit]
    ∀ i, (runPool [.turn true, .turn false, .addTask 'c', .turn false, .turn true, .turn false,
      .turn true] x).threads_ i = .left :=
  fun i => pool_joins _ rfl _ i (by revert i; decide)

end Runs

end LazyNet.Workers
