import Mathlib.Data.List.Sublists
import Mathlib.Logic.Function.Basic

/-! The queue of an event loop. Any thread puts a task in it with `safeCall` and then writes a byte
into a pipe that the loop polls; the byte makes the loop run tasks until there are none. The
threads take turns between any two of these steps. -/
namespace LazyNet.TaskQueue
variable {ι T : Type}

structure SafeQueue (T : Type) where
  items_ : List T := []
  /-- how many items there may be, 0 for any number -/
  capacity_ : Nat := 0
  exit_ : Bool := false
  deriving DecidableEq, Repr

namespace SafeQueue

def push (v : T) (q : SafeQueue T) : Bool × SafeQueue T :=
  if q.exit_ || (q.capacity_ != 0 && q.capacity_ ≤ q.items_.length) then (false, q)
  else (true, { q with items_ := q.items_ ++ [v] })

/-- `pop_wait` where its wait is over. -/
def pop_wait (q : SafeQueue T) : Option (T × SafeQueue T) :=
  match q.items_ with
  | [] => none
  | v :: vs => some (v, { q with items_ := vs })

def exit (q : SafeQueue T) : SafeQueue T := { q with exit_ := true }

theorem push_cases (v : T) (q : SafeQueue T) :
    q.push v = (false, q) ∧ (q.exit_ = true ∨ q.capacity_ ≠ 0 ∧ q.capacity_ ≤ q.items_.length) ∨
    q.push v = (true, { q with items_ := q.items_ ++ [v] }) ∧ q.exit_ = false ∧
      (q.capacity_ ≠ 0 → q.items_.length < q.capacity_) := by
  rw [push]
  split_ifs with h
  · left
    refine ⟨rfl, ?_⟩
    simpa using h
  · right
    simp only [Bool.or_eq_true, Bool.and_eq_true, bne_iff_ne, decide_eq_true_eq, not_or,
      not_and, Bool.not_eq_true, Nat.not_le] at h
    exact ⟨rfl, h⟩

end SafeQueue

/-- The part of an `EventBase` that other threads touch, with an account of the tasks. -/
structure EventLoop (ι T : Type) where
  tasks_ : SafeQueue T := {}
  /-- the bytes in the pipe -/
  pipe : Nat := 0
  /-- the threads in `safeCall` that have pushed and not written yet -/
  waking : ι → Bool := fun _ => false
  /-- the loop is in the callback of its wake-up channel, past the read -/
  running : Bool := false
  /-- the tasks of all calls of `safeCall`, in the order of their pushes -/
  called : List T := []
  accepted : List T := []
  executed : List T := []

inductive Action (ι T : Type) where
  | push (i : ι) (task : T)
  | wakeup (i : ι)
  | read
  /-- one round of the loop in the callback: a task is run, or there is none and it ends -/
  | pop

namespace EventLoop

def push [DecidableEq ι] (i : ι) (task : T) (x : EventLoop ι T) : EventLoop ι T :=
  let (ok, tasks) := x.tasks_.push task
  { x with
    tasks_ := tasks
    waking := Function.update x.waking i true
    called := x.called ++ [task]
    accepted := if ok then x.accepted ++ [task] else x.accepted }

def wakeup [DecidableEq ι] (i : ι) (x : EventLoop ι T) : EventLoop ι T :=
  { x with pipe := x.pipe + 1, waking := Function.update x.waking i false }

/-- The read takes what there is, at most what its array holds. -/
def read (x : EventLoop ι T) : EventLoop ι T :=
  { x with pipe := x.pipe - min 1024 x.pipe, running := true }

def pop (x : EventLoop ι T) : EventLoop ι T :=
  match x.tasks_.pop_wait with
  | some (task, tasks) => { x with tasks_ := tasks, executed := x.executed ++ [task] }
  | none => { x with running := false }

end EventLoop

/-- A pipe that holds `room` bytes makes a writer wait. An action that cannot occur changes
nothing. -/
def Action.run [DecidableEq ι] (room : Nat) : Action ι T → EventLoop ι T → EventLoop ι T
  | .push i task, x => if x.waking i then x else x.push i task
  | .wakeup i, x => if x.waking i && x.pipe < room then x.wakeup i else x
  | .read, x => if !x.running && 0 < x.pipe then x.read else x
  | .pop, x => if x.running then x.pop else x

def loopAfter [DecidableEq ι] (room capacity : Nat) (actions : List (Action ι T)) :
    EventLoop ι T :=
  actions.foldl (fun x action => action.run room x) { tasks_ := { capacity_ := capacity } }

/-- What holds whatever the threads do: the queue is what was accepted and not run yet, and where
there is a task, something will make the loop look for it. -/
structure Sound (capacity : Nat) (x : EventLoop ι T) : Prop where
  fixed : x.tasks_.capacity_ = capacity
  unexited : x.tasks_.exit_ = false
  ledger : x.executed ++ x.tasks_.items_ = x.accepted
  bounded : capacity ≠ 0 → x.tasks_.items_.length ≤ capacity
  sublist : x.accepted.Sublist x.called
  all : capacity = 0 → x.accepted = x.called
  awake : x.tasks_.items_ ≠ [] → x.running = true ∨ 0 < x.pipe ∨ ∃ i, x.waking i = true

section Steps
variable {capacity room : Nat} {x : EventLoop ι T}

theorem Sound.pop (h : Sound capacity x) (hr : x.running = true) : Sound capacity x.pop := by
  have hledger := h.ledger
  have hbounded := h.bounded
  rw [EventLoop.pop, SafeQueue.pop_wait]
  cases hitems : x.tasks_.items_ with
  | nil =>
    rw [hitems] at hledger
    exact ⟨h.fixed, h.unexited, by simp only [hitems]; exact hledger, by simp [hitems],
      h.sublist, h.all, fun hne => absurd hitems hne⟩
  | cons task tasks =>
    rw [hitems] at hledger hbounded
    refine ⟨h.fixed, h.unexited, ?_, fun hc => ?_, h.sublist, h.all, fun _ => .inl hr⟩
    · rw [← hledger, List.append_assoc]
      rfl
    · exact Nat.le_of_succ_le (hbounded hc)

variable [DecidableEq ι]

theorem Sound.push (h : Sound capacity x) (i : ι) (task : T) : Sound capacity (x.push i task) := by
  have hwaking : ∃ j, Function.update x.waking i true j = true :=
    ⟨i, Function.update_self i true x.waking⟩
  rw [EventLoop.push]
  obtain ⟨hpush, hfull⟩ | ⟨hpush, -, hroom⟩ := x.tasks_.push_cases task <;> rw [hpush]
  · rw [h.unexited, h.fixed] at hfull
    refine ⟨h.fixed, h.unexited, h.ledger, h.bounded, ?_, fun h0 => ?_,
      fun _ => .inr (.inr hwaking)⟩
    · exact h.sublist.trans (List.sublist_append_left _ _)
    · exact absurd h0 (hfull.resolve_left Bool.false_ne_true).1
  · rw [h.fixed] at hroom
    refine ⟨h.fixed, h.unexited, ?_, fun hc => ?_, ?_, fun h0 => ?_,
      fun _ => .inr (.inr hwaking)⟩
    · simp only [if_true]
      rw [← List.append_assoc, h.ledger]
    · rw [List.length_append]
      exact hroom hc
    · exact h.sublist.append (List.Sublist.refl [task])
    · simp only [if_true]
      rw [h.all h0]

theorem Sound.step (h : Sound capacity x) (action : Action ι T) :
    Sound capacity (action.run room x) := by
  cases action with
  | push i task =>
    rw [Action.run]
    split_ifs
    · exact h
    · exact h.push i task
  | wakeup i =>
    rw [Action.run]
    split_ifs
    · exact ⟨h.fixed, h.unexited, h.ledger, h.bounded, h.sublist, h.all,
        fun _ => .inr (.inl (Nat.succ_pos _))⟩
    · exact h
  | read =>
    rw [Action.run]
    split_ifs
    · exact ⟨h.fixed, h.unexited, h.ledger, h.bounded, h.sublist, h.all, fun _ => .inl rfl⟩
    · exact h
  | pop =>
    rw [Action.run]
    split_ifs with hr
    · exact h.pop hr
    · exact h

theorem sound_loopAfter (room capacity : Nat) (actions : List (Action ι T)) :
    Sound capacity (loopAfter room capacity actions) :=
  List.foldlRecOn actions _
    ⟨rfl, rfl, rfl, fun _ => Nat.zero_le _, List.Sublist.refl [], fun _ => rfl,
      fun hne => absurd rfl hne⟩
    fun _ h action _ => h.step action

end Steps

section Runs
variable [DecidableEq ι] {capacity room : Nat} {x : EventLoop ι T}

theorem pops_run_all {tasks : List T} (hr : x.running = true) (hitems : x.tasks_.items_ = tasks) :
    ((List.replicate tasks.length (Action.pop : Action ι T)).foldl
      (fun x action => action.run room x) x).executed = x.executed ++ tasks := by
  induction tasks generalizing x with
  | nil => simp
  | cons task tasks ih =>
    have hpop : Action.pop.run room x =
        { x with tasks_ := { x.tasks_ with items_ := tasks },
                 executed := x.executed ++ [task] } := by
      rw [Action.run, if_pos hr, EventLoop.pop, SafeQueue.pop_wait, hitems]
    have hrest := ih (x := Action.pop.run room x) (by rw [hpop]; exact hr) (by rw [hpop])
    rw [List.length_cons, List.replicate_succ, List.foldl_cons, hrest, hpop,
      List.append_assoc]
    rfl

/-- Between two calls of `safeCall` the loop does not sleep on a task: where it waits at an empty
pipe it has run them all, and wherever it is, it runs them all without another call. -/
theorem no_task_sleeps (room capacity : Nat) (actions : List (Action ι T))
    (hidle : ∀ i, (loopAfter room capacity actions).waking i = false) :
    let x := loopAfter room capacity actions
    (x.running = false → x.pipe = 0 → x.executed = x.accepted) ∧
      ((.read :: List.replicate x.tasks_.items_.length .pop).foldl
        (fun x (action : Action ι T) => action.run room x) x).executed = x.accepted := by
  intro x
  have h : Sound capacity x := sound_loopAfter room capacity actions
  have hasleep : x.running = false → x.pipe = 0 → x.tasks_.items_ = [] := by
    intro hr hp
    by_contra hne
    obtain hrun | hpipe | ⟨i, hi⟩ := h.awake hne
    · rw [hr] at hrun
      cases hrun
    · omega
    · rw [hidle i] at hi
      cases hi
  constructor
  · intro hr hp
    rw [← h.ledger, hasleep hr hp, List.append_nil]
  · rw [List.foldl_cons, ← h.ledger, Action.run]
    split_ifs with hread
    · exact pops_run_all (x := x.read) rfl rfl
    · by_cases hr : x.running = true
      · exact pops_run_all hr rfl
      · rw [Bool.not_eq_true] at hr
        have hp : x.pipe = 0 := by
          by_contra hpos
          exact hread (by simp [hr, Nat.pos_of_ne_zero hpos])
        rw [hasleep hr hp]
        simp

/-- Two threads call, and the second push is before the first write. -/
theorem two_callers_no_task_sleeps :
    let x := loopAfter 65536 0 [.push true 'a', .push false 'b', .wakeup true, .read,
      .pop, .wakeup false]
    (x.running = false → x.pipe = 0 → x.executed = x.accepted) ∧
      ((.read :: List.replicate x.tasks_.items_.length .pop).foldl
        (fun x (action : Action Bool Char) => action.run 65536 x) x).executed = x.accepted :=
  no_task_sleeps 65536 0 _ (by decide)

end Runs

end LazyNet.TaskQueue
