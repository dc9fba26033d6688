import LazyNet.Timers
import Mathlib.Tactic.Ring

/-! What holds of the timers over whole runs: what can fail, and when a repeating timer runs. -/
namespace LazyNet.Timers
open LazyNet.Tables LazyNet.StepRuns
variable {T : Type} {x x' : EventsImp T} {action : Action T}

def times (timers : OrdMap TimerId (TimerTask T)) : List Int :=
  timers.toList.map fun e => e.1.time

/-- The least of these times is as far from the clock as an `int64_t` can say. -/
def Near (clock : Int) (ts : List Int) : Prop :=
  ∀ t ∈ ts, (∀ s ∈ ts, t ≤ s) → IsInt64 (t - clock)

/-- No repeating timer is cancelled that is not there any more, or by its own task, and what is
computed fits in an `int64_t`. -/
def Safe : Action T → EventsImp T → Prop
  | .cancel timerid, x =>
    timerid.time < 0 → timerid ∈ x.timerReps_ ∧ x.running ≠ some timerid
  | .runAt milli _ interval clock, x => x.exit_ = false →
    (interval ≠ 0 → IsInt64 (-milli)) ∧ Near clock (milli :: times x.timers_)
  | .fire now clock, x => ∀ id tid tr, first x.timers_ = some (id, .repeatable tid) →
    id < EventsImp.bound now → x.timerReps_[tid]? = some tr →
      IsInt64 (tr.at_ + tr.interval) ∧
        Near clock ((tr.at_ + tr.interval) :: times (x.timers_.erase id))
  | .refresh clock, x => Near clock (times x.timers_)
  | _, _ => True

section Faults
variable {clock : Int} {timers : OrdMap TimerId (TimerTask T)}

theorem mem_times {t : Int} : t ∈ times timers ↔ ∃ id ∈ timers, id.time = t := by
  simp only [times, List.mem_map, ← mem_keys (m := timers)]
  constructor
  · rintro ⟨e, he, rfl⟩
    exact ⟨e.1, ⟨e, he, rfl⟩, rfl⟩
  · rintro ⟨_, ⟨e, he, rfl⟩, rfl⟩
    exact ⟨e, he, rfl⟩

theorem near_congr {ts ts' : List Int} (h : ∀ t, t ∈ ts ↔ t ∈ ts') :
    Near clock ts ↔ Near clock ts' := by
  simp only [Near, h]

theorem near_insert (id : TimerId) (task : TimerTask T) :
    Near clock (times (timers.insert id task)) ↔ Near clock (id.time :: times timers) := by
  refine near_congr fun t => ?_
  rw [List.mem_cons, mem_times, mem_times]
  constructor
  · rintro ⟨a, ha, rfl⟩
    cases Std.ExtTreeMap.mem_insert.mp ha with
    | inl heq => exact .inl (by rw [← compare_eq_iff_eq.mp heq])
    | inr hold => exact .inr ⟨a, hold, rfl⟩
  · rintro (rfl | ⟨a, ha, rfl⟩)
    · exact ⟨id, Std.ExtTreeMap.mem_insert_self, rfl⟩
    · exact ⟨a, Std.ExtTreeMap.mem_insert.mpr (.inr ha), rfl⟩

theorem le_time {a b : TimerId} (h : a ≤ b) : a.time ≤ b.time := by
  rcases Prod.Lex.le_iff.mp h with hlt | ⟨heq, -⟩
  · exact le_of_lt hlt
  · exact le_of_eq heq

theorem refreshNearest_ok_iff (clock : Int) (x : EventsImp T) :
    (∃ x', x.refreshNearest clock = .ok x') ↔ Near clock (times x.timers_) := by
  rw [EventsImp.refreshNearest]
  cases hf : first x.timers_ with
  | none =>
    refine ⟨fun _ t ht => ?_, fun _ => ⟨_, rfl⟩⟩
    rw [first_none_iff.mp hf] at ht
    simp [times] at ht
  | some p =>
    obtain ⟨id, task⟩ := p
    obtain ⟨hget, hleast⟩ := first_le hf
    have hmem : id.time ∈ times x.timers_ := mem_times.mpr ⟨id, mem_iff_get.mpr ⟨_, hget⟩, rfl⟩
    have hmin : ∀ s ∈ times x.timers_, id.time ≤ s := by
      intro s hs
      obtain ⟨a, ha, rfl⟩ := mem_times.mp hs
      exact le_time (hleast a ha)
    have hnear : Near clock (times x.timers_) ↔ IsInt64 (id.time - clock) := by
      refine ⟨fun h => h _ hmem hmin, fun h t ht hle => ?_⟩
      rw [le_antisymm (hle _ hmem) (hmin t ht)]
      exact h
    simp only [hnear]
    split_ifs with h
    · exact ⟨fun _ => h, fun _ => ⟨_, rfl⟩⟩
    · exact ⟨fun hok => absurd hok (by simp), fun h' => absurd h' h⟩

theorem runAt_ok_iff (hx : Sound x) (milli interval clock : Int) (task : T) :
    (∃ p, x.runAt milli task interval clock = .ok p) ↔
      Safe (.runAt milli task interval clock) x := by
  rw [EventsImp.runAt, Safe]
  cases hexit : x.exit_ with
  | true => exact ⟨fun _ h => absurd h (by decide), fun _ => ⟨_, rfl⟩⟩
  | false =>
    rw [if_neg (by simp)]
    by_cases hint : interval = 0
    · rw [if_neg (by simp [hint]), seq_eq_map, map_ok_exists, refreshNearest_ok_iff,
        insertIfNew_of_notMem (hx.notMem (by omega)), near_insert]
      exact ⟨fun h _ => ⟨fun hne => absurd hint hne, h⟩, fun h => (h rfl).2⟩
    · rw [if_pos hint]
      split_ifs with hneg
      · rw [seq_eq_map, map_ok_exists, refreshNearest_ok_iff, near_insert]
        exact ⟨fun h _ => ⟨fun _ => hneg, h⟩, fun h => (h rfl).2⟩
      · exact ⟨fun h => absurd h (by simp), fun h => absurd ((h rfl).1 hint) hneg⟩

theorem cancel_ok_iff (id : TimerId) (x : EventsImp T) :
    (∃ p, x.cancel id = .ok p) ↔ Safe (.cancel id) x := by
  rw [EventsImp.cancel, Safe]
  by_cases hneg : id.time < 0
  · rw [if_pos hneg]
    cases hr : x.timerReps_[id]? with
    | none =>
      exact ⟨fun h => absurd h (by simp), fun h => absurd (h hneg).1 (get_none_iff.mp hr)⟩
    | some tr =>
      simp only
      split_ifs with hself
      · exact ⟨fun h => absurd h (by simp), fun h => absurd hself (h hneg).2⟩
      · exact ⟨fun _ _ => ⟨mem_iff_get.mpr ⟨tr, hr⟩, hself⟩, fun _ => ⟨_, rfl⟩⟩
  · rw [if_neg hneg]
    refine ⟨fun _ h => absurd h hneg, fun _ => ?_⟩
    split_ifs
    · exact ⟨_, rfl⟩
    · exact ⟨_, rfl⟩

theorem fire_ok_iff (hx : Sound x) (now clock : Int) :
    (∃ x', x.fire now clock = .ok x') ↔ Safe (.fire now clock) x := by
  rw [EventsImp.fire, Safe]
  cases hf : first x.timers_ with
  | none => exact ⟨fun _ id tid tr h => absurd h (by simp), fun _ => ⟨_, rfl⟩⟩
  | some p =>
    obtain ⟨id, task⟩ := p
    simp only
    split_ifs with hdue
    · cases task with
      | once task => exact ⟨fun _ id tid tr h => absurd h (by simp), fun _ => ⟨_, rfl⟩⟩
      | repeatable tid =>
        obtain ⟨tr, hr, -⟩ := hx.recorded id tid (first_le hf).1
        have hsafe : (∀ a b r,
            some (id, TimerTask.repeatable (T := T) tid) = some (a, .repeatable b) →
            a < EventsImp.bound now → x.timerReps_[b]? = some r →
            IsInt64 (r.at_ + r.interval) ∧
              Near clock ((r.at_ + r.interval) :: times (x.timers_.erase a))) ↔
            IsInt64 (tr.at_ + tr.interval) ∧
              Near clock ((tr.at_ + tr.interval) :: times (x.timers_.erase id)) := by
          constructor
          · exact fun h => h id tid tr rfl hdue hr
          · intro h a b r heq _ hb
            cases heq
            rw [hr] at hb
            cases hb
            exact h
        rw [hsafe]
        simp only [EventsImp.repeatableTimeout, hr]
        split_ifs with hsum
        · rw [seq_eq_map, map_ok_exists, refreshNearest_ok_iff, near_insert]
          exact ⟨fun h => ⟨hsum, h⟩, fun h => h.2⟩
        · exact ⟨fun h => absurd h (by simp), fun h => absurd h.1 hsum⟩
    · refine ⟨fun _ a tid tr h ha => ?_, fun _ => ⟨_, rfl⟩⟩
      cases h
      exact absurd ha hdue

theorem step_ok_iff (hx : Sound x) (action : Action T) :
    (∃ x', step action x = .ok x') ↔ Safe action x := by
  cases action with
  | runAt milli task interval clock =>
    rw [step, map_ok_exists]
    exact runAt_ok_iff hx milli interval clock task
  | cancel id =>
    rw [step, map_ok_exists]
    exact cancel_ok_iff id x
  | fire now clock => exact fire_ok_iff hx now clock
  | refresh clock => exact refreshNearest_ok_iff clock _
  | exit => exact ⟨fun _ => trivial, fun _ => ⟨_, rfl⟩⟩
  | clear => exact ⟨fun _ => trivial, fun _ => ⟨_, rfl⟩⟩

theorem refreshNearest_error {e : Fault} (h : x.refreshNearest clock = .error e) :
    e = .overflow := by
  rw [EventsImp.refreshNearest] at h
  split at h
  · cases h
  · split_ifs at h
    cases h
    rfl

theorem runAt_error {milli interval : Int} {task : T} {e : Fault}
    (h : x.runAt milli task interval clock = .error e) : e = .overflow := by
  rw [EventsImp.runAt] at h
  split_ifs at h with hexit hint hneg
  · exact refreshNearest_error (map_error_iff.mp ((seq_eq_map _ _).symm.trans h))
  · cases h
    rfl
  · exact refreshNearest_error (map_error_iff.mp ((seq_eq_map _ _).symm.trans h))

theorem cancel_error {id : TimerId} {e : Fault} (h : x.cancel id = .error e) :
    e = .badIterator ∨ e = .selfDestroyed := by
  rw [EventsImp.cancel] at h
  by_cases hneg : id.time < 0
  · rw [if_pos hneg] at h
    cases hr : x.timerReps_[id]? with
    | none =>
      rw [hr] at h
      cases h
      exact .inl rfl
    | some tr =>
      rw [hr] at h
      simp only at h
      split_ifs at h
      cases h
      exact .inr rfl
  · rw [if_neg hneg] at h
    split_ifs at h

theorem fire_error (hx : Sound x) {now : Int} {e : Fault} (h : x.fire now clock = .error e) :
    e = .overflow := by
  rw [EventsImp.fire] at h
  cases hf : first x.timers_ with
  | none =>
    rw [hf] at h
    cases h
  | some p =>
    obtain ⟨id, task⟩ := p
    rw [hf] at h
    simp only at h
    split_ifs at h
    cases task with
    | once task => cases h
    | repeatable tid =>
      obtain ⟨tr, hr, -⟩ := hx.recorded id tid (first_le hf).1
      simp only [EventsImp.repeatableTimeout, hr] at h
      split_ifs at h
      · exact refreshNearest_error (map_error_iff.mp ((seq_eq_map _ _).symm.trans h))
      · cases h
        rfl

theorem step_not_dangling (hx : Sound x) : step action x ≠ .error .dangling := by
  intro h
  cases action with
  | runAt milli task interval clock => cases runAt_error (map_error_iff.mp h)
  | cancel id =>
    cases cancel_error (map_error_iff.mp h) with
    | inl heq => cases heq
    | inr heq => cases heq
  | fire now clock => cases fire_error hx h
  | refresh clock => cases refreshNearest_error h
  | exit => cases h
  | clear => cases h

end Faults

theorem sound_step (i : Action T) (s s' : EventsImp T) (h : Sound s) (hc : CancelsGiven i s)
    (hs : step i s = .ok s') : Sound s' := h.advance hc (advance_of_step hs)

/-- Whatever the tasks and the other callers do with the ids that they were given: no timer is
ever left with a pointer to a record that is gone, and all goes well exactly as long as nobody
cancels a repeating timer that is not there any more, or from its own task, and the times stay in
the range of an `int64_t`. -/
theorem timers_fail_iff (actions : List (Action T))
    (hgiven : Meets step CancelsGiven actions ({} : EventsImp T)) :
    ((∃ x, run step actions ({} : EventsImp T) = .ok x) ↔ Meets step Safe actions {}) ∧
      run step actions ({} : EventsImp T) ≠ .error .dangling := by
  constructor
  · exact run_ok_iff (fun i s hs _ => step_ok_iff hs i) sound_step sound_start hgiven
  · intro h
    obtain ⟨i, s, hs, -, hstep⟩ := run_error sound_step sound_start hgiven h
    exact step_not_dangling hs hstep

/-- A timer whose task adds another one and then cancels its own. -/
def cancelsItself : List (Action Char) :=
  [.runAt 10 'a' 5 0, .fire 12 12, .runAt 20 'b' 7 12, .cancel (toLex (-10, 1))]

theorem cancelsItself_fail_iff :
    ((∃ x, run step cancelsItself ({} : EventsImp Char) = .ok x) ↔
      Meets step Safe cancelsItself {}) ∧
      run step cancelsItself ({} : EventsImp Char) ≠ .error .dangling := by
  have hgiven : Meets step CancelsGiven cancelsItself ({} : EventsImp Char) := by decide
  exact timers_fail_iff cancelsItself hgiven

def Firing.timer : Firing T → TimerId
  | .once id _ => id
  | .repeated tid _ _ => tid

def ranFor (id : TimerId) (fired : List (Firing T)) : List (Firing T) :=
  fired.filter fun f => f.timer = id

theorem mem_ranFor {id : TimerId} {fired : List (Firing T)} {f : Firing T} :
    f ∈ ranFor id fired ↔ f ∈ fired ∧ f.timer = id := by
  rw [ranFor, List.mem_filter, decide_eq_true_iff]

theorem ranFor_snoc_self {id : TimerId} {f : Firing T} (h : f.timer = id)
    (fired : List (Firing T)) : ranFor id (fired ++ [f]) = ranFor id fired ++ [f] := by
  simp [ranFor, h]

theorem ranFor_snoc_other {id : TimerId} {f : Firing T} (h : f.timer ≠ id)
    (fired : List (Firing T)) : ranFor id (fired ++ [f]) = ranFor id fired := by
  simp [ranFor, h]

/-- Beside the invariant: no id is used for a task and for a repeating timer, and what was run has
an id from before. -/
structure Good (x : EventsImp T) : Prop extends Sound x where
  apart : ∀ (id : TimerId) (task : T), x.timers_[id]? = some (.once task) → id ∉ x.timerReps_
  logged : ∀ f ∈ x.fired, f.timer.seq ≤ x.timerSeq_

theorem Good.advance (h : Good x) (hc : CancelsGiven action x) (ha : Advance x action x') :
    Good x' := by
  refine ⟨h.toSound.advance hc ha, ?_, ?_⟩
  · intro id task hid
    cases ha with
    | quiet n b r => exact h.apart id task hid
    | repeats milli task' clock n _ =>
      simp only [get_insert] at hid
      split_ifs at hid
      · cases hid
      · exact notMem_insert (h.apart id task hid)
          (ne_of_seq (h.timers_le id (mem_iff_get.mpr ⟨_, hid⟩)) (by omega)) _
    | once milli task' clock n =>
      rw [insertIfNew_of_notMem (h.notMem (by omega))] at hid
      simp only [get_insert] at hid
      split_ifs at hid with heq
      · intro hmem
        exact ne_of_seq (h.reps_le id hmem) (by omega) heq
      · exact h.apart id task hid
    | stopped tid tr _ _ =>
      simp only [get_erase] at hid
      split_ifs at hid
      exact fun hmem => h.apart id task hid (Std.ExtTreeMap.mem_of_mem_erase hmem)
    | dropped id' _ _ =>
      simp only [get_erase] at hid
      split_ifs at hid
      exact h.apart id task hid
    | ran now clock id' task' _ _ _ =>
      simp only [get_erase] at hid
      split_ifs at hid
      exact h.apart id task hid
    | ranAgain now clock n id' tid tr _ hr _ _ =>
      simp only [get_insert, get_erase] at hid
      split_ifs at hid
      · cases hid
      · refine notMem_insert (h.apart id task hid) ?_ _
        intro heq
        rw [← heq] at hid
        exact h.apart tid task hid (mem_iff_get.mpr ⟨tr, hr⟩)
    | cleared => simp
  · intro f hf
    cases ha with
    | quiet n b r => exact h.logged f hf
    | repeats milli task clock n _ => exact (h.logged f hf).trans (by simp)
    | once milli task clock n => exact (h.logged f hf).trans (by simp)
    | stopped tid tr _ _ => exact h.logged f hf
    | dropped id _ _ => exact h.logged f hf
    | ran now clock id task hid _ _ =>
      simp only [List.mem_append, List.mem_singleton] at hf
      cases hf with
      | inl hold => exact h.logged f hold
      | inr hnew =>
        rw [hnew]
        exact h.timers_le id (mem_iff_get.mpr ⟨_, hid⟩)
    | ranAgain now clock n id tid tr _ hr _ _ =>
      simp only [List.mem_append, List.mem_singleton] at hf
      cases hf with
      | inl hold => exact (h.logged f hold).trans (by simp)
      | inr hnew =>
        rw [hnew]
        exact (h.reps_le tid (mem_iff_get.mpr ⟨_, hr⟩)).trans (by simp)
    | cleared => exact h.logged f hf

theorem good_start : Good ({} : EventsImp T) :=
  ⟨sound_start, by simp, by simp⟩

theorem good_step (i : Action T) (s s' : EventsImp T) (h : Good s) (hc : CancelsGiven i s)
    (hs : step i s = .ok s') : Good s' := h.advance hc (advance_of_step hs)

/-- What a run leads to in which only ids are cancelled that were given out. -/
def Reached (x : EventsImp T) : Prop :=
  ∃ actions, Meets step CancelsGiven actions {} ∧ run step actions {} = .ok x

theorem Reached.good (h : Reached x) : Good x := by
  obtain ⟨actions, hgiven, hrun⟩ := h
  exact run_inv_of good_start good_step hgiven hrun

/-! A repeating timer. -/

structure Scheduled (tid : TimerId) (milli interval : Int) (task : T) (x : EventsImp T)
    (k : Nat) : Prop where
  old : tid.seq ≤ x.timerSeq_
  ran : ranFor tid x.fired =
    (List.range k).map fun i => .repeated tid (milli + (i : Int) * interval) task
  due : ∀ tr, x.timerReps_[tid]? = some tr →
    tr.at_ = milli + (k : Int) * interval ∧ tr.interval = interval ∧ tr.cb = task
  alone : ∀ task', x.timers_[tid]? ≠ some (.once task')

section Schedule
variable {tid : TimerId} {milli interval : Int} {task : T} {k : Nat}

theorem Scheduled.advance (h : Scheduled tid milli interval task x k)
    (ha : Advance x action x') : ∃ k', Scheduled tid milli interval task x' k' := by
  have hold := h.old
  cases ha with
  | quiet n b r => exact ⟨k, h.old, h.ran, h.due, h.alone⟩
  | repeats milli' task' clock n _ =>
    refine ⟨k, ?_, h.ran, fun tr hr => ?_, fun task'' hget => ?_⟩
    · simp only
      omega
    · simp only [get_insert] at hr
      rw [if_neg (ne_of_seq hold (by omega))] at hr
      exact h.due tr hr
    · simp only [get_insert] at hget
      rw [if_neg (ne_of_seq hold (by omega))] at hget
      exact h.alone task'' hget
  | once milli' task' clock n =>
    refine ⟨k, ?_, h.ran, h.due, fun task'' hget => ?_⟩
    · simp only
      omega
    · rw [Std.ExtTreeMap.getElem?_insertIfNew, if_neg] at hget
      · exact h.alone task'' hget
      · exact fun hnew => ne_of_seq hold (by omega) (compare_eq_iff_eq.mp hnew.1)
  | stopped tid' tr' _ _ =>
    refine ⟨k, h.old, h.ran, fun tr hr => ?_, fun task'' hget => ?_⟩
    · simp only [get_erase] at hr
      split_ifs at hr
      exact h.due tr hr
    · simp only [get_erase] at hget
      split_ifs at hget
      exact h.alone task'' hget
  | dropped id _ _ =>
    refine ⟨k, h.old, h.ran, h.due, fun task'' hget => ?_⟩
    simp only [get_erase] at hget
    split_ifs at hget
    exact h.alone task'' hget
  | ran now clock id task' hid _ _ =>
    have hne : id ≠ tid := by
      intro heq
      rw [heq] at hid
      exact h.alone task' hid
    refine ⟨k, h.old, ?_, h.due, fun task'' hget => ?_⟩
    · exact (ranFor_snoc_other (f := .once id task') hne _).trans h.ran
    · simp only [get_erase] at hget
      split_ifs at hget
      exact h.alone task'' hget
  | ranAgain now clock n id tid' tr' hid hr' _ _ =>
    have halone : ∀ task'', ((x.timers_.erase id).insert
        (toLex (tr'.at_ + tr'.interval, x.timerSeq_ + 1)) (.repeatable tid'))[tid]? ≠
          some (.once task'') := by
      intro task'' hget
      rw [get_insert, get_erase, if_neg (ne_of_seq hold (by omega))] at hget
      split_ifs at hget
      exact h.alone task'' hget
    by_cases heq : tid' = tid
    · rw [heq] at hr'
      obtain ⟨hat, hint, hcb⟩ := h.due tr' hr'
      refine ⟨k + 1, ?_, ?_, fun tr hr => ?_, halone⟩
      · simp only
        omega
      · refine (ranFor_snoc_self (f := .repeated tid' tr'.at_ tr'.cb) heq _).trans ?_
        rw [h.ran, List.range_succ, List.map_append, heq, hat, hcb]
        rfl
      · simp only [get_insert, if_pos heq] at hr
        cases hr
        refine ⟨?_, hint, hcb⟩
        simp only [hat, hint]
        push_cast
        ring
    · refine ⟨k, ?_, ?_, fun tr hr => ?_, halone⟩
      · simp only
        omega
      · exact (ranFor_snoc_other (f := .repeated tid' tr'.at_ tr'.cb) heq _).trans h.ran
      · simp only [get_insert, if_neg heq] at hr
        exact h.due tr hr
  | cleared =>
    refine ⟨k, h.old, h.ran, fun tr hr => ?_, fun task'' hget => ?_⟩
    · simp at hr
    · simp at hget

theorem Scheduled.run {after : List (Action T)} {y : EventsImp T}
    (h : Scheduled tid milli interval task x k) (hrun : run step after x = .ok y) :
    ∃ k', Scheduled tid milli interval task y k' := by
  induction after generalizing x k with
  | nil =>
    cases hrun
    exact ⟨k, h⟩
  | cons action after ih =>
    obtain ⟨x', hstep, hrest⟩ := run_cons_ok.mp hrun
    obtain ⟨k', h'⟩ := h.advance (advance_of_step hstep)
    exact ih h' hrest

def Kept (id : TimerId) (actions : List (Action T)) : Prop :=
  .cancel id ∉ actions ∧ .clear ∉ actions

instance [DecidableEq T] {id : TimerId} {actions : List (Action T)} :
    Decidable (Kept id actions) := instDecidableAnd

theorem rep_kept (ha : Advance x action x') (hcancel : action ≠ .cancel tid)
    (hclear : action ≠ .clear) (h : tid ∈ x.timerReps_) : tid ∈ x'.timerReps_ := by
  cases ha with
  | quiet n b r => exact h
  | repeats milli task clock n _ => exact Std.ExtTreeMap.mem_insert.mpr (.inr h)
  | once milli task clock n => exact h
  | stopped tid' tr _ _ =>
    refine Std.ExtTreeMap.mem_erase.mpr ⟨fun heq => ?_, h⟩
    exact hcancel (congrArg Action.cancel (compare_eq_iff_eq.mp heq))
  | dropped id _ _ => exact h
  | ran now clock id task _ _ _ => exact h
  | ranAgain now clock n id tid' tr _ _ _ _ => exact Std.ExtTreeMap.mem_insert.mpr (.inr h)
  | cleared => exact absurd rfl hclear

theorem rep_kept_run {after : List (Action T)} {y : EventsImp T}
    (hrun : run step after x = .ok y) (hkept : Kept tid after) (h : tid ∈ x.timerReps_) :
    tid ∈ y.timerReps_ := by
  induction after generalizing x with
  | nil =>
    cases hrun
    exact h
  | cons action after ih =>
    obtain ⟨x', hstep, hrest⟩ := run_cons_ok.mp hrun
    obtain ⟨hcancel, hclear⟩ := hkept
    rw [List.mem_cons, not_or] at hcancel hclear
    exact ih hrest ⟨hcancel.2, hclear.2⟩
      (rep_kept (advance_of_step hstep) (Ne.symm hcancel.1) (Ne.symm hclear.1) h)

theorem Good.ranFor_new (h : Good x) {a b : Int} (hb : x.timerSeq_ < b) :
    ranFor (toLex (a, b)) x.fired = [] := by
  rw [ranFor, List.filter_eq_nil_iff]
  intro f hf
  rw [decide_eq_true_iff]
  exact Ne.symm (ne_of_seq (h.logged f hf) hb)

theorem scheduled_start (h : Good x) (hexit : x.exit_ = false) (hint : interval ≠ 0)
    {clock : Int} (hadd : x.runAt milli task interval clock = .ok (tid, x')) :
    Scheduled tid milli interval task x' 0 ∧ tid ∈ x'.timerReps_ := by
  obtain ⟨rfl, n, rfl⟩ := runAt_repeats hexit hint hadd
  refine ⟨⟨?_, h.ranFor_new (by omega), fun tr hr => ?_, fun task' hget => ?_⟩, ?_⟩
  · simp only [seq_toLex]
    omega
  · simp only [get_insert] at hr
    cases hr
    exact ⟨by simp, rfl, rfl⟩
  · simp only [get_insert] at hget
    rw [if_neg (ne_of_seq (n := x.timerSeq_ + 1) (by simp) (by omega))] at hget
    have hmem := h.timers_le _ (mem_iff_get.mpr ⟨_, hget⟩)
    rw [seq_toLex] at hmem
    omega
  · exact mem_iff_get.mpr ⟨_, by rw [get_insert, if_pos rfl]⟩

end Schedule

section Runs
variable {y : EventsImp T} {tid : TimerId} {milli interval t : Int} {task : T}
  {after : List (Action T)}

/-- A repeating timer runs at `milli`, `milli + interval`, and so on: whatever else is added,
cancelled and run, at whatever times the loop gets around to it, no turn is left out, moved or
taken twice; and it stays on as long as it is not cancelled and the loop does not end. -/
theorem repeats_on_schedule (milli interval clock : Int) (task : T) (after : List (Action T))
    (hx : Reached x) (hexit : x.exit_ = false) (hint : interval ≠ 0)
    (hadd : x.runAt milli task interval clock = .ok (tid, x'))
    (hrun : run step after x' = .ok y) :
    ∃ k : Nat, ranFor tid y.fired =
        (List.range k).map (fun i => .repeated tid (milli + (i : Int) * interval) task) ∧
      (∀ tr, y.timerReps_[tid]? = some tr → tr.at_ = milli + (k : Int) * interval) ∧
      (Kept tid after → tid ∈ y.timerReps_) := by
  obtain ⟨hstart, hmem⟩ := scheduled_start hx.good hexit hint hadd
  obtain ⟨k, hk⟩ := hstart.run hrun
  exact ⟨k, hk.ran, fun tr hr => (hk.due tr hr).1, fun hkept => rep_kept_run hrun hkept hmem⟩

/-- A timer whose first turn is missed by the loop, and that another task cancels. -/
theorem missed_repeats_on_schedule : ∃ k : Nat,
    ranFor (toLex (-10, 1)) [Firing.repeated (toLex (-10, 1)) 10 'a',
      .repeated (toLex (-10, 1)) 15 'a', .once (toLex (16, 3)) 'b'] =
        (List.range k).map fun i => .repeated (toLex (-10, 1)) (10 + (i : Int) * 5) 'a' := by
  obtain ⟨k, hk, -⟩ := repeats_on_schedule (x := {}) 10 5 0 'a'
    [.runAt 16 'b' 0 0, .fire 17 17, .fire 17 18, .fire 17 18, .cancel (toLex (-10, 1))]
    ⟨[], trivial, rfl⟩ rfl (by decide) rfl rfl
  exact ⟨k, hk⟩

def Drained (t : Int) (x : EventsImp T) : Prop :=
  ∀ id ∈ x.timers_.toList.map Prod.fst, ¬ id < EventsImp.bound t

instance : Decidable (Drained t x) := List.decidableBAll ..

def Action.now : Action T → Option Int
  | .fire now _ => some now
  | _ => none

/-- `handleTimeouts` took no later time from the clock. -/
def Until (t : Int) (actions : List (Action T)) : Prop :=
  ∀ action ∈ actions, ∀ now ∈ action.now, now ≤ t

instance : Decidable (Until t after) := List.decidableBAll ..

theorem time_le_of_lt_bound {id : TimerId} (h : id < EventsImp.bound t) : id.time ≤ t := by
  rcases Prod.Lex.lt_iff.mp h with hlt | ⟨heq, -⟩
  · exact le_of_lt hlt
  · exact le_of_eq heq

theorem lt_time_of_drained {id : TimerId} (h : ¬ id < EventsImp.bound t)
    (hseq : id.seq < 2 ^ 62) : t < id.time := by
  by_contra hle
  refine h (Prod.Lex.lt_iff.mpr ?_)
  rcases lt_or_eq_of_le (not_lt.mp hle) with hlt | heq
  · exact .inl hlt
  · exact .inr ⟨heq, hseq⟩

def Firing.due : Firing T → Int
  | .once id _ => id.time
  | .repeated _ due _ => due

theorem fired_due (h : Sound x) (ha : Advance x action x')
    (huntil : ∀ now ∈ action.now, now ≤ t) : ∀ f ∈ x'.fired, f ∈ x.fired ∨ f.due ≤ t := by
  intro f hf
  cases ha with
  | ran now clock id task _ hdue _ =>
    refine (List.mem_append.mp hf).imp_right fun hnew => ?_
    rw [List.mem_singleton.mp hnew]
    exact (time_le_of_lt_bound hdue).trans (huntil now rfl)
  | ranAgain now clock n id tid tr hid hr hdue _ =>
    refine (List.mem_append.mp hf).imp_right fun hnew => ?_
    rw [List.mem_singleton.mp hnew]
    obtain ⟨tr', hr', hid'⟩ := h.recorded id tid hid
    rw [hr] at hr'
    cases hr'
    have hat := (h.entered tid tr hr).2
    rw [hid'] at hat
    rw [Firing.due, ← hat]
    exact (time_le_of_lt_bound hdue).trans (huntil now rfl)
  | quiet n b r => exact .inl hf
  | repeats milli task clock n _ => exact .inl hf
  | once milli task clock n => exact .inl hf
  | stopped tid tr _ _ => exact .inl hf
  | dropped id _ _ => exact .inl hf
  | cleared => exact .inl hf

theorem fired_due_run (h : Sound x) (hgiven : Meets step CancelsGiven after x)
    (hrun : run step after x = .ok y) (huntil : Until t after) :
    ∀ f ∈ y.fired, f ∈ x.fired ∨ f.due ≤ t := by
  induction after generalizing x with
  | nil =>
    cases hrun
    exact fun f hf => .inl hf
  | cons action after ih =>
    obtain ⟨x', hstep, hrest⟩ := run_cons_ok.mp hrun
    have ha := advance_of_step hstep
    intro f hf
    have hfirst := huntil action List.mem_cons_self
    rcases ih (h.advance hgiven.1 ha) (hgiven.2 x' hstep) hrest
      (fun a hmem => huntil a (List.mem_cons_of_mem action hmem)) f hf with hold | hdue
    · exact fired_due h ha hfirst f hold
    · exact .inr hdue

theorem Good.run (h : Good x) (hgiven : Meets step CancelsGiven after x)
    (hrun : run step after x = .ok y) : Good y :=
  run_inv_of h good_step hgiven hrun

def turns (milli interval t : Int) : Nat := ((t - milli) / interval + 1).toNat

theorem lt_turns_iff (hpos : 0 < interval) (i : Nat) :
    i < turns milli interval t ↔ milli + (i : Int) * interval ≤ t := by
  have hdiv := Int.le_ediv_iff_mul_le (a := (i : Int)) (b := t - milli) hpos
  rw [turns, Int.lt_toNat, Int.lt_add_one_iff, hdiv]
  omega

theorem turns_next (hpos : 0 < interval) (h : milli ≤ t) :
    turns (milli + interval) interval t < turns milli interval t := by
  by_contra hle
  have hfirst : 0 < turns milli interval t := (lt_turns_iff hpos 0).mpr (by simpa using h)
  have hlast : milli + interval + ((turns milli interval t - 1 : Nat) : Int) * interval ≤ t :=
    (lt_turns_iff hpos _).mp (by omega)
  refine absurd ((lt_turns_iff hpos (turns milli interval t)).mpr ?_) (lt_irrefl _)
  have hcast : ((turns milli interval t - 1 : Nat) : Int) = turns milli interval t - 1 := by omega
  rw [hcast, Int.sub_mul] at hlast
  omega

/-- Once the loop has caught up to a time, a repeating timer that nobody took away has had all
its turns up to then, each once and in order, and none after. -/
theorem repeats_as_often_as_due (milli interval clock : Int) (task : T)
    (after : List (Action T)) (hx : Reached x) (hexit : x.exit_ = false) (hpos : 0 < interval)
    (hadd : x.runAt milli task interval clock = .ok (tid, x'))
    (hgiven : Meets step CancelsGiven after x') (hrun : run step after x' = .ok y)
    (hkept : Kept tid after) (huntil : Until t after) (hdrained : Drained t y)
    (hseq : y.timerSeq_ < 2 ^ 62) :
    ranFor tid y.fired = (List.range (turns milli interval t)).map fun i =>
      .repeated tid (milli + (i : Int) * interval) task := by
  have hgood : Good x' := good_step (.runAt milli task interval clock) x _ hx.good trivial
    (map_ok_iff.mpr ⟨_, hadd, rfl⟩)
  obtain ⟨hstart, hmem⟩ := scheduled_start hx.good hexit hpos.ne' hadd
  obtain ⟨k, hk⟩ := hstart.run hrun
  suffices hturns : k = turns milli interval t by rw [hk.ran, hturns]
  obtain ⟨tr, hr⟩ := mem_iff_get.mp (rep_kept_run hrun hkept hmem)
  obtain ⟨hent, hat⟩ := (hgood.run hgiven hrun).entered _ tr hr
  have hin : tr.timerid ∈ y.timers_ := mem_iff_get.mpr ⟨_, hent⟩
  -- the next turn is not due yet
  have hnext : t < milli + (k : Int) * interval := by
    rw [← (hk.due tr hr).1, ← hat]
    exact lt_time_of_drained (hdrained _ (mem_keys.mpr hin))
      (((hgood.run hgiven hrun).timers_le _ hin).trans_lt hseq)
  -- and those taken were
  have htaken : ∀ i < k, milli + (i : Int) * interval ≤ t := by
    intro i hi
    have hran : Firing.repeated tid (milli + (i : Int) * interval) task ∈ ranFor tid y.fired := by
      rw [hk.ran]
      exact List.mem_map.mpr ⟨i, List.mem_range.mpr hi, rfl⟩
    rcases fired_due_run hgood.toSound hgiven hrun huntil _ (mem_ranFor.mp hran).1 with
      hold | hdue
    · have hold' := mem_ranFor.mpr ⟨hold, (mem_ranFor.mp hran).2⟩
      rw [hstart.ran] at hold'
      exact absurd hold' List.not_mem_nil
    · exact hdue
  have hnot : ¬ k < turns milli interval t := by
    rw [lt_turns_iff hpos]
    omega
  refine le_antisymm ?_ (not_lt.mp hnot)
  by_contra hlt
  have hlast := htaken (turns milli interval t) (not_le.mp hlt)
  rw [← lt_turns_iff hpos] at hlast
  exact absurd hlast (lt_irrefl _)

/-- The check timer of the server while the loop is late once. -/
theorem checkTimer_repeats_as_often_as_due :
    ranFor (toLex (-6000, 1)) [Firing.repeated (toLex (-6000, 1)) 6000 'c',
      .repeated (toLex (-6000, 1)) 12000 'c'] =
        (List.range (turns 6000 6000 13000)).map fun i =>
          .repeated (toLex (-6000, 1)) (6000 + (i : Int) * 6000) 'c' := by
  exact repeats_as_often_as_due (x := {}) (t := 13000) 6000 6000 0 'c'
    [.fire 13000 13000, .fire 13000 13001, .fire 13000 13001, .refresh 13001]
    ⟨[], trivial, rfl⟩ rfl (by decide) rfl (by decide) rfl (by decide) (by decide) (by decide)
    (by decide)

end Runs

end LazyNet.Timers
