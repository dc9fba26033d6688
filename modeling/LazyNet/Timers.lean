import LazyNet.Lib.StepRuns
import LazyNet.Lib.Tables
import Mathlib.Data.Prod.Lex
import Mathlib.Order.Compare

/-! The timers of an event loop: tasks that are run once at a time, and tasks that are run again
after every interval. The tasks themselves may add and cancel timers; whatever they call is a step
of its own between two rounds of `handleTimeouts`. -/
namespace LazyNet.Timers
open LazyNet.Tables LazyNet.StepRuns
variable {T : Type}

/-- The time in milliseconds and a number that tells timers apart, in the order of pairs. -/
abbrev TimerId := Int ×ₗ Int

instance : Std.LawfulEqOrd TimerId := ⟨compare_eq_iff_eq.mp⟩

def TimerId.time (id : TimerId) : Int := (ofLex id).1

def TimerId.seq (id : TimerId) : Int := (ofLex id).2

structure TimerRepeatable (T : Type) where
  /-- when it is due next -/
  at_ : Int
  interval : Int
  timerid : TimerId
  cb : T
  deriving DecidableEq

/-- What `timers_` has under an id: a task, or the lambda that points to an entry of
`timerReps_`. -/
inductive TimerTask (T : Type) where
  | once (task : T)
  | repeatable (tr : TimerId)
  deriving DecidableEq

/-- A task that was run, the id that `runAt` gave out for its timer, and when it was due. -/
inductive Firing (T : Type) where
  | once (id : TimerId) (task : T)
  | repeated (tid : TimerId) (due : Int) (task : T)
  deriving DecidableEq

def IsInt64 (v : Int) : Prop := -2 ^ 63 ≤ v ∧ v < 2 ^ 63

instance : DecidablePred IsInt64 := fun _ => instDecidableAnd

structure EventsImp (T : Type) where
  exit_ : Bool := false
  nextTimeout_ : Int := 2 ^ 30
  timerReps_ : OrdMap TimerId (TimerRepeatable T) := ∅
  timers_ : OrdMap TimerId (TimerTask T) := ∅
  timerSeq_ : Int := 0
  /-- the repeating timer whose task is being run -/
  running : Option TimerId := none
  fired : List (Firing T) := []
  /-- the ids that callers may hold: what `runAt` returned, and `TimerId()` -/
  given : List TimerId := [toLex (0, 0)]

inductive Fault where
  /-- `second` of the end of `timerReps_` -/
  | badIterator
  /-- a pointer to an entry that was erased -/
  | dangling
  /-- a sum, a difference or a negation that an `int64_t` does not hold -/
  | overflow
  /-- a task is destroyed while it is run -/
  | selfDestroyed
  deriving DecidableEq, Repr

def toInt32 (v : Int) : Int := (v + 2 ^ 31) % 2 ^ 32 - 2 ^ 31

namespace EventsImp

/-- `clock` is what `timeMilli` gives. -/
def refreshNearest (clock : Int) (x : EventsImp T) : Except Fault (EventsImp T) :=
  match first x.timers_ with
  | none => .ok { x with nextTimeout_ := 2 ^ 30 }
  | some (t, _) =>
    if IsInt64 (t.time - clock) then
      .ok { x with nextTimeout_ := max 0 (toInt32 (t.time - clock)) }
    else .error .overflow

def runAt (milli : Int) (task : T) (interval clock : Int) (x : EventsImp T) :
    Except Fault (TimerId × EventsImp T) :=
  if x.exit_ then .ok (toLex (0, 0), x)
  else if interval ≠ 0 then
    if IsInt64 (-milli) then do
      let tid : TimerId := toLex (-milli, x.timerSeq_ + 1)
      let timerid : TimerId := toLex (milli, x.timerSeq_ + 2)
      let x ← refreshNearest clock { x with
        timerSeq_ := x.timerSeq_ + 2
        timerReps_ := x.timerReps_.insert tid { at_ := milli, interval, timerid, cb := task }
        timers_ := x.timers_.insert timerid (.repeatable tid)
        given := x.given ++ [tid] }
      .ok (tid, x)
    else .error .overflow
  else do
    let tid : TimerId := toLex (milli, x.timerSeq_ + 1)
    let x ← refreshNearest clock { x with
      timerSeq_ := x.timerSeq_ + 1
      timers_ := x.timers_.insertIfNew tid (.once task)
      given := x.given ++ [tid] }
    .ok (tid, x)

/-- Whether there was something to cancel, too. The record of a repeating timer goes with the task
in it. -/
def cancel (timerid : TimerId) (x : EventsImp T) : Except Fault (Bool × EventsImp T) :=
  if timerid.time < 0 then
    match x.timerReps_[timerid]? with
    | none => .error .badIterator
    | some tr =>
      if x.running = some timerid then .error .selfDestroyed
      else .ok (true, { x with
        timers_ := x.timers_.erase tr.timerid
        timerReps_ := x.timerReps_.erase timerid })
  else if timerid ∈ x.timers_ then .ok (true, { x with timers_ := x.timers_.erase timerid })
  else .ok (false, x)

/-- The timer is entered again before its task is run. -/
def repeatableTimeout (clock : Int) (tr : TimerId) (x : EventsImp T) :
    Except Fault (EventsImp T) :=
  match x.timerReps_[tr]? with
  | none => .error .dangling
  | some r =>
    let at_ := r.at_ + r.interval
    if IsInt64 at_ then do
      let timerid : TimerId := toLex (at_, x.timerSeq_ + 1)
      let x ← refreshNearest clock { x with
        timerSeq_ := x.timerSeq_ + 1
        timerReps_ := x.timerReps_.insert tr { r with at_, timerid }
        timers_ := x.timers_.insert timerid (.repeatable tr) }
      .ok { x with running := some tr, fired := x.fired ++ [.repeated tr r.at_ r.cb] }
    else .error .overflow

def bound (now : Int) : TimerId := toLex (now, 2 ^ 62)

/-- One round of the loop in `handleTimeouts`, which took `now` from the clock. The task of the
round before has come to its end. -/
def fire (now clock : Int) (x : EventsImp T) : Except Fault (EventsImp T) :=
  match first x.timers_ with
  | none => .ok { x with running := none }
  | some (id, task) =>
    if id < bound now then
      let x := { x with timers_ := x.timers_.erase id, running := none }
      match task with
      | .once task => .ok { x with fired := x.fired ++ [.once id task] }
      | .repeatable tr => x.repeatableTimeout clock tr
    else .ok { x with running := none }

end EventsImp

inductive Action (T : Type) where
  | runAt (milli : Int) (task : T) (interval clock : Int)
  | cancel (timerid : TimerId)
  | fire (now clock : Int)
  /-- the end of `handleTimeouts` -/
  | refresh (clock : Int)
  | exit
  /-- the end of `loop` -/
  | clear
  deriving DecidableEq

def step : Action T → EventsImp T → Except Fault (EventsImp T)
  | .runAt milli task interval clock, x => (x.runAt milli task interval clock).map Prod.snd
  | .cancel timerid, x => (x.cancel timerid).map Prod.snd
  | .fire now clock, x => x.fire now clock
  | .refresh clock, x => EventsImp.refreshNearest clock { x with running := none }
  | .exit, x => .ok { x with exit_ := true }
  | .clear, x => .ok (if x.exit_ then { x with timerReps_ := ∅, timers_ := ∅ } else x)

/-- Every repeating timer is entered once, for when it is due, nothing is entered for a timer that
is gone, and the ids under which repeating timers are entered are not given out. -/
structure Sound (x : EventsImp T) : Prop where
  entered : ∀ (tid : TimerId) (tr : TimerRepeatable T), x.timerReps_[tid]? = some tr →
    x.timers_[tr.timerid]? = some (.repeatable tid) ∧ tr.timerid.time = tr.at_
  recorded : ∀ (id tid : TimerId), x.timers_[id]? = some (.repeatable tid) →
    ∃ tr, x.timerReps_[tid]? = some tr ∧ tr.timerid = id
  timers_le : ∀ id ∈ x.timers_, id.seq ≤ x.timerSeq_
  reps_le : ∀ tid ∈ x.timerReps_, tid.seq ≤ x.timerSeq_
  given_le : ∀ id ∈ x.given, id.seq ≤ x.timerSeq_
  given_once : ∀ id ∈ x.given, ∀ tid, x.timers_[id]? ≠ some (.repeatable tid)

inductive Advance (x : EventsImp T) : Action T → EventsImp T → Prop where
  | quiet (action : Action T) (n : Int) (b : Bool) (r : Option TimerId) :
    Advance x action { x with nextTimeout_ := n, exit_ := b, running := r }
  | repeats (milli : Int) (task : T) {interval : Int} (clock n : Int) (h : interval ≠ 0) :
    Advance x (.runAt milli task interval clock) { x with
      timerSeq_ := x.timerSeq_ + 2
      timerReps_ := x.timerReps_.insert (toLex (-milli, x.timerSeq_ + 1))
        { at_ := milli, interval, timerid := toLex (milli, x.timerSeq_ + 2), cb := task }
      timers_ := x.timers_.insert (toLex (milli, x.timerSeq_ + 2))
        (.repeatable (toLex (-milli, x.timerSeq_ + 1)))
      given := x.given ++ [toLex (-milli, x.timerSeq_ + 1)]
      nextTimeout_ := n }
  | once (milli : Int) (task : T) (clock n : Int) :
    Advance x (.runAt milli task 0 clock) { x with
      timerSeq_ := x.timerSeq_ + 1
      timers_ := x.timers_.insertIfNew (toLex (milli, x.timerSeq_ + 1)) (.once task)
      given := x.given ++ [toLex (milli, x.timerSeq_ + 1)]
      nextTimeout_ := n }
  | stopped (tid : TimerId) (tr : TimerRepeatable T) (h : x.timerReps_[tid]? = some tr)
    (hother : x.running ≠ some tid) :
    Advance x (.cancel tid) { x with
      timers_ := x.timers_.erase tr.timerid
      timerReps_ := x.timerReps_.erase tid }
  | dropped (id : TimerId) (h0 : 0 ≤ id.time) (h : id ∈ x.timers_) :
    Advance x (.cancel id) { x with timers_ := x.timers_.erase id }
  | ran (now clock : Int) (id : TimerId) (task : T) (h : x.timers_[id]? = some (.once task))
    (hdue : id < EventsImp.bound now) (hfirst : ∀ a ∈ x.timers_, id ≤ a) :
    Advance x (.fire now clock) { x with
      timers_ := x.timers_.erase id
      running := none
      fired := x.fired ++ [.once id task] }
  | ranAgain (now clock n : Int) (id tid : TimerId) (tr : TimerRepeatable T)
    (h : x.timers_[id]? = some (.repeatable tid)) (hr : x.timerReps_[tid]? = some tr)
    (hdue : id < EventsImp.bound now) (hfirst : ∀ a ∈ x.timers_, id ≤ a) :
    Advance x (.fire now clock) { x with
      timerSeq_ := x.timerSeq_ + 1
      timerReps_ := x.timerReps_.insert tid { tr with
        at_ := tr.at_ + tr.interval
        timerid := toLex (tr.at_ + tr.interval, x.timerSeq_ + 1) }
      timers_ := (x.timers_.erase id).insert (toLex (tr.at_ + tr.interval, x.timerSeq_ + 1))
        (.repeatable tid)
      nextTimeout_ := n
      running := some tid
      fired := x.fired ++ [.repeated tid tr.at_ tr.cb] }
  | cleared : Advance x .clear { x with timerReps_ := ∅, timers_ := ∅ }

theorem refreshNearest_eq {clock : Int} {x x' : EventsImp T}
    (h : x.refreshNearest clock = .ok x') : ∃ n, x' = { x with nextTimeout_ := n } := by
  rw [EventsImp.refreshNearest] at h
  split at h
  · cases h
    exact ⟨_, rfl⟩
  · split_ifs at h
    cases h
    exact ⟨_, rfl⟩

theorem first_le {x : EventsImp T} {id : TimerId} {task : TimerTask T}
    (h : first x.timers_ = some (id, task)) :
    x.timers_[id]? = some task ∧ ∀ a ∈ x.timers_, id ≤ a := by
  obtain ⟨hget, hleast⟩ := first_some h
  refine ⟨hget, fun a ha => ?_⟩
  by_cases hne : a = id
  · rw [hne]
  · exact le_of_lt (compare_lt_iff_lt.mp (hleast a ha hne))

theorem advance_fire {x x' : EventsImp T} {now clock : Int} (h : x.fire now clock = .ok x') :
    Advance x (.fire now clock) x' := by
  rw [EventsImp.fire] at h
  cases hf : first x.timers_ with
  | none =>
    rw [hf] at h
    cases h
    exact .quiet _ _ _ _
  | some p =>
    obtain ⟨id, task⟩ := p
    obtain ⟨hget, hleast⟩ := first_le hf
    rw [hf] at h
    simp only at h
    split_ifs at h with hdue
    · cases task with
      | once task =>
        cases h
        exact .ran now clock id task hget hdue hleast
      | repeatable tid =>
        simp only [EventsImp.repeatableTimeout] at h
        cases hr : x.timerReps_[tid]? with
        | none =>
          rw [hr] at h
          cases h
        | some tr =>
          rw [hr] at h
          simp only at h
          split_ifs at h
          obtain ⟨x₁, hx₁, h⟩ := seq_ok_iff.mp h
          obtain ⟨n, rfl⟩ := refreshNearest_eq hx₁
          cases h
          exact .ranAgain now clock n id tid tr hget hr hdue hleast
    · cases h
      exact .quiet _ _ _ _

/-- What `runAt` returns and does for a repeating timer. -/
theorem runAt_repeats {x x' : EventsImp T} {milli interval clock : Int} {task : T} {id : TimerId}
    (hexit : x.exit_ = false) (hint : interval ≠ 0)
    (h : x.runAt milli task interval clock = .ok (id, x')) :
    id = toLex (-milli, x.timerSeq_ + 1) ∧ ∃ n, x' = { x with
      timerSeq_ := x.timerSeq_ + 2
      timerReps_ := x.timerReps_.insert (toLex (-milli, x.timerSeq_ + 1))
        { at_ := milli, interval, timerid := toLex (milli, x.timerSeq_ + 2), cb := task }
      timers_ := x.timers_.insert (toLex (milli, x.timerSeq_ + 2))
        (.repeatable (toLex (-milli, x.timerSeq_ + 1)))
      given := x.given ++ [toLex (-milli, x.timerSeq_ + 1)]
      nextTimeout_ := n } := by
  rw [EventsImp.runAt, if_neg (by simp [hexit]), if_pos hint] at h
  split_ifs at h
  obtain ⟨x₁, hx₁, h⟩ := seq_ok_iff.mp h
  obtain ⟨n, rfl⟩ := refreshNearest_eq hx₁
  cases h
  exact ⟨rfl, n, rfl⟩

theorem runAt_once {x x' : EventsImp T} {milli clock : Int} {task : T} {id : TimerId}
    (hexit : x.exit_ = false) (h : x.runAt milli task 0 clock = .ok (id, x')) :
    id = toLex (milli, x.timerSeq_ + 1) ∧ ∃ n, x' = { x with
      timerSeq_ := x.timerSeq_ + 1
      timers_ := x.timers_.insertIfNew (toLex (milli, x.timerSeq_ + 1)) (.once task)
      given := x.given ++ [toLex (milli, x.timerSeq_ + 1)]
      nextTimeout_ := n } := by
  rw [EventsImp.runAt, if_neg (by simp [hexit]), if_neg (by simp)] at h
  obtain ⟨x₁, hx₁, h⟩ := seq_ok_iff.mp h
  obtain ⟨n, rfl⟩ := refreshNearest_eq hx₁
  cases h
  exact ⟨rfl, n, rfl⟩

theorem cancel_cases {x x' : EventsImp T} {id : TimerId} {found : Bool}
    (h : x.cancel id = .ok (found, x')) :
    (∃ tr, x.timerReps_[id]? = some tr ∧ x.running ≠ some id ∧ x' = { x with
      timers_ := x.timers_.erase tr.timerid
      timerReps_ := x.timerReps_.erase id }) ∨
    (0 ≤ id.time ∧ id ∈ x.timers_ ∧ x' = { x with timers_ := x.timers_.erase id }) ∨
    found = false ∧ x' = x := by
  rw [EventsImp.cancel] at h
  by_cases hneg : id.time < 0
  · rw [if_pos hneg] at h
    cases hr : x.timerReps_[id]? with
    | none =>
      rw [hr] at h
      cases h
    | some tr =>
      rw [hr] at h
      simp only at h
      split_ifs at h with hother
      cases h
      exact .inl ⟨tr, rfl, hother, rfl⟩
  · rw [if_neg hneg] at h
    split_ifs at h with hmem
    · cases h
      exact .inr (.inl ⟨not_lt.mp hneg, hmem, rfl⟩)
    · cases h
      exact .inr (.inr ⟨rfl, rfl⟩)

theorem advance_of_step {x x' : EventsImp T} {action : Action T} (h : step action x = .ok x') :
    Advance x action x' := by
  cases action with
  | runAt milli task interval clock =>
    obtain ⟨⟨id, y⟩, hy, rfl⟩ := map_ok_iff.mp h
    cases hexit : x.exit_ with
    | true =>
      rw [EventsImp.runAt, if_pos hexit] at hy
      cases hy
      exact .quiet _ _ _ _
    | false =>
      by_cases hint : interval = 0
      · subst hint
        obtain ⟨-, n, rfl⟩ := runAt_once hexit hy
        exact .once milli task clock n
      · obtain ⟨-, n, rfl⟩ := runAt_repeats hexit hint hy
        exact .repeats milli task clock n hint
  | cancel timerid =>
    obtain ⟨⟨found, y⟩, hy, rfl⟩ := map_ok_iff.mp h
    obtain ⟨tr, hr, hother, rfl⟩ | ⟨hpos, hmem, rfl⟩ | ⟨-, rfl⟩ := cancel_cases hy
    · exact .stopped timerid tr hr hother
    · exact .dropped timerid hpos hmem
    · exact .quiet _ _ _ _
  | fire now clock => exact advance_fire h
  | refresh clock =>
    obtain ⟨n, rfl⟩ := refreshNearest_eq h
    exact .quiet _ _ _ _
  | exit =>
    cases h
    exact .quiet _ _ _ _
  | clear =>
    rw [step] at h
    split_ifs at h with hexit
    · cases h
      exact .cleared
    · cases h
      exact .quiet _ _ _ _

section Invariant
variable {x x' : EventsImp T} {action : Action T}

@[simp] theorem seq_toLex (a b : Int) : TimerId.seq (toLex (a, b)) = b := rfl

@[simp] theorem time_toLex (a b : Int) : TimerId.time (toLex (a, b)) = a := rfl

theorem ne_of_seq {id : TimerId} {n : Int} (h : id.seq ≤ n) {a b : Int} (hb : n < b) :
    (toLex (a, b) : TimerId) ≠ id := by
  intro heq
  rw [← heq, seq_toLex] at h
  omega

theorem Sound.entered_ne (h : Sound x) {a b : Int} (hb : x.timerSeq_ < b) {tid : TimerId}
    {tr : TimerRepeatable T} (hr : x.timerReps_[tid]? = some tr) :
    (toLex (a, b) : TimerId) ≠ tr.timerid :=
  ne_of_seq (h.timers_le _ (mem_iff_get.mpr ⟨_, (h.entered tid tr hr).1⟩)) hb

theorem Sound.rep_ne (h : Sound x) {a b : Int} (hb : x.timerSeq_ < b) {tid : TimerId}
    {tr : TimerRepeatable T} (hr : x.timerReps_[tid]? = some tr) :
    (toLex (a, b) : TimerId) ≠ tid :=
  ne_of_seq (h.reps_le _ (mem_iff_get.mpr ⟨_, hr⟩)) hb

theorem Sound.timerid_inj (h : Sound x) {tid tid' : TimerId} {tr tr' : TimerRepeatable T}
    (hr : x.timerReps_[tid]? = some tr) (hr' : x.timerReps_[tid']? = some tr')
    (heq : tr.timerid = tr'.timerid) : tid = tid' := by
  have ht := (h.entered tid tr hr).1
  rw [heq, (h.entered tid' tr' hr').1] at ht
  cases ht
  rfl

theorem Sound.erase_once (h : Sound x) {id : TimerId}
    (hid : ∀ tid, x.timers_[id]? ≠ some (.repeatable tid)) (running : Option TimerId)
    (fired : List (Firing T)) :
    Sound { x with timers_ := x.timers_.erase id, running, fired } := by
  refine ⟨fun tid tr hr => ?_, fun a tid ha => ?_, fun a ha => ?_, h.reps_le, h.given_le,
    fun a ha tid hget => ?_⟩
  · have hent := h.entered tid tr hr
    refine ⟨?_, hent.2⟩
    rw [get_erase, if_neg, hent.1]
    intro heq
    rw [← heq] at hent
    exact hid tid hent.1
  · rw [get_erase] at ha
    split_ifs at ha
    exact h.recorded a tid ha
  · exact h.timers_le a (Std.ExtTreeMap.mem_of_mem_erase ha)
  · rw [get_erase] at hget
    split_ifs at hget
    exact h.given_once a ha tid hget

theorem Sound.repeats (h : Sound x) (milli interval n : Int) (task : T) : Sound { x with
    timerSeq_ := x.timerSeq_ + 2
    timerReps_ := x.timerReps_.insert (toLex (-milli, x.timerSeq_ + 1))
      { at_ := milli, interval, timerid := toLex (milli, x.timerSeq_ + 2), cb := task }
    timers_ := x.timers_.insert (toLex (milli, x.timerSeq_ + 2))
      (.repeatable (toLex (-milli, x.timerSeq_ + 1)))
    given := x.given ++ [toLex (-milli, x.timerSeq_ + 1)]
    nextTimeout_ := n } := by
  refine ⟨fun tid tr hr => ?_, fun a tid ha => ?_, fun a ha => ?_, fun tid ht => ?_,
    fun a ha => ?_, fun a ha tid hget => ?_⟩
  · simp only [get_insert] at hr ⊢
    split_ifs at hr with htid
    · cases hr
      rw [if_pos rfl, htid]
      exact ⟨rfl, rfl⟩
    · rw [if_neg (h.entered_ne (by omega) hr)]
      exact h.entered tid tr hr
  · simp only [get_insert] at ha ⊢
    split_ifs at ha with hid
    · cases ha
      exact ⟨_, if_pos rfl, hid⟩
    · obtain ⟨tr, hr, heq⟩ := h.recorded a tid ha
      exact ⟨tr, by rw [if_neg (h.rep_ne (by omega) hr)]; exact hr, heq⟩
  · cases Std.ExtTreeMap.mem_insert.mp ha with
    | inl heq =>
      rw [← compare_eq_iff_eq.mp heq, seq_toLex]
    | inr hold =>
      have := h.timers_le a hold
      simp only
      omega
  · cases Std.ExtTreeMap.mem_insert.mp ht with
    | inl heq =>
      rw [← compare_eq_iff_eq.mp heq, seq_toLex]
      simp only
      omega
    | inr hold =>
      have := h.reps_le tid hold
      simp only
      omega
  · rw [List.mem_append, List.mem_singleton] at ha
    cases ha with
    | inl hold =>
      have := h.given_le a hold
      simp only
      omega
    | inr hnew =>
      rw [hnew, seq_toLex]
      simp only
      omega
  · simp only [get_insert] at hget
    rw [List.mem_append, List.mem_singleton] at ha
    cases ha with
    | inl hold =>
      rw [if_neg (ne_of_seq (h.given_le a hold) (by omega))] at hget
      exact h.given_once a hold tid hget
    | inr hnew =>
      rw [hnew] at hget
      split_ifs at hget with heq
      · have hseq := congrArg TimerId.seq heq
        simp only [seq_toLex] at hseq
        omega
      · have := h.timers_le _ (mem_iff_get.mpr ⟨_, hget⟩)
        rw [seq_toLex] at this
        omega

theorem Sound.notMem (h : Sound x) {a b : Int} (hb : x.timerSeq_ < b) :
    (toLex (a, b) : TimerId) ∉ x.timers_ :=
  fun hmem => ne_of_seq (h.timers_le _ hmem) hb rfl

theorem Sound.once (h : Sound x) (milli n : Int) (task : T) : Sound { x with
    timerSeq_ := x.timerSeq_ + 1
    timers_ := x.timers_.insertIfNew (toLex (milli, x.timerSeq_ + 1)) (.once task)
    given := x.given ++ [toLex (milli, x.timerSeq_ + 1)]
    nextTimeout_ := n } := by
  rw [insertIfNew_of_notMem (h.notMem (by omega))]
  refine ⟨fun tid tr hr => ?_, fun a tid ha => ?_, fun a ha => ?_, fun tid ht => ?_,
    fun a ha => ?_, fun a ha tid hget => ?_⟩
  · simp only [get_insert]
    rw [if_neg (h.entered_ne (by omega) hr)]
    exact h.entered tid tr hr
  · simp only [get_insert] at ha
    split_ifs at ha
    · cases ha
    · exact h.recorded a tid ha
  · cases Std.ExtTreeMap.mem_insert.mp ha with
    | inl heq => rw [← compare_eq_iff_eq.mp heq, seq_toLex]
    | inr hold =>
      have := h.timers_le a hold
      simp only
      omega
  · have := h.reps_le tid ht
    simp only
    omega
  · rw [List.mem_append, List.mem_singleton] at ha
    cases ha with
    | inl hold =>
      have := h.given_le a hold
      simp only
      omega
    | inr hnew => rw [hnew, seq_toLex]
  · simp only [get_insert] at hget
    rw [List.mem_append, List.mem_singleton] at ha
    split_ifs at hget with heq
    · cases hget
    · cases ha with
      | inl hold => exact h.given_once a hold tid hget
      | inr hnew => exact heq hnew.symm

theorem Sound.stopped (h : Sound x) {tid : TimerId} {tr : TimerRepeatable T}
    (hr : x.timerReps_[tid]? = some tr) : Sound { x with
      timers_ := x.timers_.erase tr.timerid
      timerReps_ := x.timerReps_.erase tid } := by
  refine ⟨fun tid' tr' hr' => ?_, fun a tid' ha => ?_, fun a ha => ?_, fun tid' ht => ?_,
    h.given_le, fun a ha tid' hget => ?_⟩
  · simp only [get_erase] at hr' ⊢
    split_ifs at hr' with hne
    rw [if_neg fun heq => hne (h.timerid_inj hr hr' heq)]
    exact h.entered tid' tr' hr'
  · simp only [get_erase] at ha ⊢
    split_ifs at ha with hne
    obtain ⟨tr', hr', heq⟩ := h.recorded a tid' ha
    refine ⟨tr', ?_, heq⟩
    rw [if_neg, hr']
    intro htid
    rw [← htid, hr] at hr'
    cases hr'
    exact hne heq
  · exact h.timers_le a (Std.ExtTreeMap.mem_of_mem_erase ha)
  · exact h.reps_le tid' (Std.ExtTreeMap.mem_of_mem_erase ht)
  · simp only [get_erase] at hget
    split_ifs at hget
    exact h.given_once a ha tid' hget

theorem Sound.ranAgain (h : Sound x) {id tid : TimerId} {tr : TimerRepeatable T} (n : Int)
    (hid : x.timers_[id]? = some (.repeatable tid)) (hr : x.timerReps_[tid]? = some tr)
    (running : Option TimerId) (fired : List (Firing T)) : Sound { x with
      timerSeq_ := x.timerSeq_ + 1
      timerReps_ := x.timerReps_.insert tid { tr with
        at_ := tr.at_ + tr.interval
        timerid := toLex (tr.at_ + tr.interval, x.timerSeq_ + 1) }
      timers_ := (x.timers_.erase id).insert (toLex (tr.at_ + tr.interval, x.timerSeq_ + 1))
        (.repeatable tid)
      nextTimeout_ := n
      running
      fired } := by
  refine ⟨fun tid' tr' hr' => ?_, fun a tid' ha => ?_, fun a ha => ?_, fun tid' ht => ?_,
    fun a ha => ?_, fun a ha tid' hget => ?_⟩
  · simp only [get_insert, get_erase] at hr' ⊢
    split_ifs at hr' with htid
    · cases hr'
      rw [if_pos rfl, htid]
      exact ⟨rfl, rfl⟩
    · have hent := h.entered tid' tr' hr'
      rw [if_neg (h.entered_ne (by omega) hr'), if_neg]
      · exact hent
      · intro heq
        rw [← heq, hid] at hent
        exact htid (TimerTask.repeatable.inj (Option.some.inj hent.1))
  · simp only [get_insert, get_erase] at ha ⊢
    split_ifs at ha with hnew hne
    · cases ha
      exact ⟨_, if_pos rfl, hnew⟩
    · obtain ⟨tr', hr', heq⟩ := h.recorded a tid' ha
      refine ⟨tr', ?_, heq⟩
      rw [if_neg, hr']
      intro htid
      obtain ⟨tr'', hr'', heq''⟩ := h.recorded id tid hid
      rw [htid, hr'] at hr''
      cases hr''
      exact hne (heq''.symm.trans heq)
  · cases Std.ExtTreeMap.mem_insert.mp ha with
    | inl heq => rw [← compare_eq_iff_eq.mp heq, seq_toLex]
    | inr hold =>
      have := h.timers_le a (Std.ExtTreeMap.mem_of_mem_erase hold)
      simp only
      omega
  · have hmem : tid' ∈ x.timerReps_ := by
      cases Std.ExtTreeMap.mem_insert.mp ht with
      | inl heq => exact mem_iff_get.mpr ⟨tr, by rw [← compare_eq_iff_eq.mp heq]; exact hr⟩
      | inr hold => exact hold
    have := h.reps_le tid' hmem
    simp only
    omega
  · have := h.given_le a ha
    simp only
    omega
  · simp only [get_insert, get_erase] at hget
    rw [if_neg (ne_of_seq (h.given_le a ha) (by omega))] at hget
    split_ifs at hget
    exact h.given_once a ha tid' hget

def CancelsGiven : Action T → EventsImp T → Prop
  | .cancel timerid, x => timerid ∈ x.given
  | _, _ => True

instance decidableCancelsGiven : ∀ (action : Action T) (x : EventsImp T),
    Decidable (CancelsGiven action x)
  | .cancel timerid, x => inferInstanceAs (Decidable (timerid ∈ x.given))
  | .runAt .., _ => .isTrue trivial
  | .fire .., _ => .isTrue trivial
  | .refresh .., _ => .isTrue trivial
  | .exit, _ => .isTrue trivial
  | .clear, _ => .isTrue trivial

theorem Sound.advance (h : Sound x) (hc : CancelsGiven action x) (ha : Advance x action x') :
    Sound x' := by
  cases ha with
  | quiet n b r =>
    exact ⟨h.entered, h.recorded, h.timers_le, h.reps_le, h.given_le, h.given_once⟩
  | repeats milli task clock n _ => exact h.repeats milli _ n task
  | once milli task clock n => exact h.once milli n task
  | stopped tid tr hr _ => exact h.stopped hr
  | dropped id _ _ => exact h.erase_once (h.given_once id hc) x.running x.fired
  | ran now clock id task hget _ _ =>
    exact h.erase_once (fun tid hrep => by rw [hget] at hrep; cases hrep) _ _
  | ranAgain now clock n id tid tr hid hr _ _ => exact h.ranAgain n hid hr _ _
  | cleared =>
    exact ⟨by simp, by simp, by simp, by simp, h.given_le, by simp⟩

theorem sound_start : Sound ({} : EventsImp T) :=
  ⟨by simp, by simp, by simp, by simp, by simp [TimerId.seq], by simp⟩

end Invariant

end LazyNet.Timers
