import LazyNet.TimerRuns

/-! Tasks that are run once, timers that are cancelled, and what one call of `handleTimeouts`
gets done. -/
namespace LazyNet.Timers
open LazyNet.Tables LazyNet.StepRuns
variable {T : Type} {x x' : EventsImp T} {action : Action T}

structure Gone (id : TimerId) (runs : List (Firing T)) (x : EventsImp T) : Prop where
  old : id.seq ≤ x.timerSeq_
  entry : id ∉ x.timers_
  record : id ∉ x.timerReps_
  ran : ranFor id x.fired = runs

structure Waiting (id : TimerId) (task : T) (x : EventsImp T) : Prop where
  entry : x.timers_[id]? = some (.once task)
  ran : ranFor id x.fired = []

section Once
variable {id : TimerId} {task : T} {runs : List (Firing T)}

theorem Gone.advance (h : Gone id runs x) (ha : Advance x action x') : Gone id runs x' := by
  have hold := h.old
  cases ha with
  | quiet n b r => exact ⟨h.old, h.entry, h.record, h.ran⟩
  | repeats milli task' clock n _ =>
    refine ⟨?_, ?_, notMem_insert h.record (ne_of_seq hold (by omega)) _, h.ran⟩
    · simp only
      omega
    · exact notMem_insert h.entry (ne_of_seq hold (by omega)) _
  | once milli task' clock n =>
    refine ⟨?_, fun hmem => ?_, h.record, h.ran⟩
    · simp only
      omega
    · cases Std.ExtTreeMap.mem_insertIfNew.mp hmem with
      | inl heq => exact ne_of_seq hold (by omega) (compare_eq_iff_eq.mp heq)
      | inr hin => exact h.entry hin
  | stopped tid tr _ _ =>
    exact ⟨h.old, notMem_erase h.entry,
      notMem_erase h.record, h.ran⟩
  | dropped id' _ _ => exact ⟨h.old, notMem_erase h.entry, h.record, h.ran⟩
  | ran now clock id' task' hid _ _ =>
    refine ⟨h.old, notMem_erase h.entry, h.record, ?_⟩
    have hne : id' ≠ id := by
      intro heq
      rw [heq] at hid
      exact h.entry (mem_iff_get.mpr ⟨_, hid⟩)
    exact (ranFor_snoc_other (f := .once id' task') hne _).trans h.ran
  | ranAgain now clock n id' tid tr _ hr _ _ =>
    have hne : tid ≠ id := by
      intro heq
      rw [heq] at hr
      exact h.record (mem_iff_get.mpr ⟨_, hr⟩)
    refine ⟨?_, ?_, notMem_insert h.record hne _, ?_⟩
    · simp only
      omega
    · exact notMem_insert (notMem_erase h.entry)
        (ne_of_seq hold (by omega)) _
    · exact (ranFor_snoc_other (f := .repeated tid tr.at_ tr.cb) hne _).trans h.ran
  | cleared => exact ⟨h.old, by simp, by simp, h.ran⟩

theorem Gone.run {after : List (Action T)} {y : EventsImp T} (h : Gone id runs x)
    (hrun : run step after x = .ok y) : Gone id runs y := by
  induction after generalizing x with
  | nil =>
    cases hrun
    exact h
  | cons action after ih =>
    obtain ⟨x', hstep, hrest⟩ := run_cons_ok.mp hrun
    exact ih (h.advance (advance_of_step hstep)) hrest

theorem Waiting.advance (hx : Good x) (h : Waiting id task x) (ha : Advance x action x') :
    Waiting id task x' ∨ Gone id [.once id task] x' ∨
      (action = .cancel id ∨ action = .clear) ∧ Gone id [] x' := by
  have hold := hx.timers_le id (mem_iff_get.mpr ⟨_, h.entry⟩)
  have hrec := hx.apart id task h.entry
  cases ha with
  | quiet n b r => exact .inl ⟨h.entry, h.ran⟩
  | repeats milli task' clock n _ =>
    refine .inl ⟨?_, h.ran⟩
    rw [get_insert, if_neg (ne_of_seq hold (by omega)), h.entry]
  | once milli task' clock n =>
    refine .inl ⟨?_, h.ran⟩
    rw [insertIfNew_of_notMem (hx.notMem (by omega)), get_insert,
      if_neg (ne_of_seq hold (by omega)), h.entry]
  | stopped tid tr hr _ =>
    refine .inl ⟨?_, h.ran⟩
    rw [get_erase, if_neg, h.entry]
    intro heq
    have hent := (hx.entered tid tr hr).1
    rw [heq, h.entry] at hent
    cases hent
  | dropped id' _ _ =>
    by_cases heq : id' = id
    · rw [heq]
      exact .inr (.inr ⟨.inl rfl, hold, by simp, hrec, h.ran⟩)
    · refine .inl ⟨?_, h.ran⟩
      rw [get_erase, if_neg heq, h.entry]
  | ran now clock id' task' hid _ _ =>
    by_cases heq : id' = id
    · rw [heq] at hid ⊢
      rw [h.entry] at hid
      cases hid
      refine .inr (.inl ⟨hold, by simp, hrec, ?_⟩)
      have hsnoc : ranFor id (x.fired ++ [.once id task]) = ranFor id x.fired ++ [.once id task] :=
        ranFor_snoc_self (show Firing.timer _ = id from rfl) _
      rw [hsnoc, h.ran]
      rfl
    · refine .inl ⟨?_, (ranFor_snoc_other (f := .once id' task') heq _).trans h.ran⟩
      rw [get_erase, if_neg heq, h.entry]
  | ranAgain now clock n id' tid tr hid hr _ _ =>
    have hne : tid ≠ id := by
      intro heq
      rw [heq] at hr
      exact hrec (mem_iff_get.mpr ⟨_, hr⟩)
    refine .inl ⟨?_, (ranFor_snoc_other (f := .repeated tid tr.at_ tr.cb) hne _).trans h.ran⟩
    rw [get_insert, get_erase, if_neg (ne_of_seq hold (by omega)), if_neg, h.entry]
    intro heq
    rw [heq, h.entry] at hid
    cases hid
  | cleared => exact .inr (.inr ⟨.inr rfl, hold, by simp, by simp, h.ran⟩)

theorem Waiting.run {after : List (Action T)} {y : EventsImp T} (hx : Good x)
    (h : Waiting id task x) (hgiven : Meets step CancelsGiven after x)
    (hrun : run step after x = .ok y) :
    Waiting id task y ∨ Gone id [.once id task] y ∨ ¬ Kept id after ∧ Gone id [] y := by
  induction after generalizing x with
  | nil =>
    cases hrun
    exact .inl h
  | cons action after ih =>
    obtain ⟨x', hstep, hrest⟩ := run_cons_ok.mp hrun
    have ha := advance_of_step hstep
    rcases h.advance hx ha with hw | hg | ⟨htaken, hg⟩
    · rcases ih (hx.advance hgiven.1 ha) hw (hgiven.2 x' hstep) hrest with hw' | hg' | ⟨hk, hg'⟩
      · exact .inl hw'
      · exact .inr (.inl hg')
      · refine .inr (.inr ⟨fun hkept => hk ⟨?_, ?_⟩, hg'⟩)
        · exact fun hmem => hkept.1 (List.mem_cons_of_mem action hmem)
        · exact fun hmem => hkept.2 (List.mem_cons_of_mem action hmem)
    · exact .inr (.inl (hg.run hrest))
    · refine .inr (.inr ⟨fun hkept => ?_, hg.run hrest⟩)
      cases htaken with
      | inl heq => exact hkept.1 (heq ▸ List.mem_cons_self)
      | inr heq => exact hkept.2 (heq ▸ List.mem_cons_self)

theorem waiting_start (h : Good x) (hexit : x.exit_ = false) {milli clock : Int}
    (hadd : x.runAt milli task 0 clock = .ok (id, x')) : Waiting id task x' := by
  obtain ⟨rfl, n, rfl⟩ := runAt_once hexit hadd
  refine ⟨?_, h.ranFor_new (by omega)⟩
  simp only
  rw [insertIfNew_of_notMem (h.notMem (by omega)), get_insert, if_pos rfl]

variable {y : EventsImp T} {t : Int} {after : List (Action T)}

/-- A task that is added for one time is never run twice; and once the loop has caught up to a
time, it has been run if that was its time or later, unless it was taken away before. -/
theorem once_runs_once (milli clock : Int) (task : T) (after : List (Action T)) (hx : Reached x)
    (hexit : x.exit_ = false) (hadd : x.runAt milli task 0 clock = .ok (id, x'))
    (hgiven : Meets step CancelsGiven after x') (hrun : run step after x' = .ok y) :
    (ranFor id y.fired).Sublist [.once id task] ∧
      (Kept id after → Until t after → Drained t y → y.timerSeq_ < 2 ^ 62 →
        ranFor id y.fired = if milli ≤ t then [.once id task] else []) := by
  have hgood : Good x' := good_step (.runAt milli task 0 clock) x _ hx.good trivial
    (map_ok_iff.mpr ⟨_, hadd, rfl⟩)
  have hwait := waiting_start hx.good hexit hadd
  have htime : id.time = milli := by
    rw [(runAt_once hexit hadd).1, time_toLex]
  rcases hwait.run hgood hgiven hrun with hw | hg | ⟨hk, hg⟩
  · refine ⟨by rw [hw.ran]; exact List.nil_sublist _, fun _ _ hdrained hseq => ?_⟩
    have hin := mem_iff_get.mpr ⟨_, hw.entry⟩
    have hlate := lt_time_of_drained (hdrained _ (mem_keys.mpr hin))
      (((hgood.run hgiven hrun).timers_le _ hin).trans_lt hseq)
    rw [hw.ran, if_neg (by omega)]
  · refine ⟨by rw [hg.ran], fun _ huntil _ _ => ?_⟩
    have hran : Firing.once id task ∈ ranFor id y.fired := by
      rw [hg.ran]
      exact List.mem_singleton_self _
    rcases fired_due_run hgood.toSound hgiven hrun huntil _ (mem_ranFor.mp hran).1 with
      hold | hdue
    · have hold' := mem_ranFor.mpr ⟨hold, (mem_ranFor.mp hran).2⟩
      rw [hwait.ran] at hold'
      exact absurd hold' List.not_mem_nil
    · rw [Firing.due, htime] at hdue
      rw [hg.ran, if_pos hdue]
  · exact ⟨by rw [hg.ran]; exact List.nil_sublist _, fun hkept => absurd hkept hk⟩

/-- A task between two others, one of which is not due yet. -/
theorem second_once_runs_once :
    ranFor (toLex (20, 2)) [Firing.once (toLex (10, 1)) 'a', .once (toLex (20, 2)) 'b'] =
      if (20 : Int) ≤ 30 then [.once (toLex (20, 2)) 'b'] else [] := by
  obtain ⟨-, hruns⟩ := once_runs_once (t := 30) 20 0 'b'
    [.runAt 40 'c' 0 0, .fire 15 15, .fire 30 30, .fire 30 30]
    ⟨[.runAt 10 'a' 0 0], by decide, rfl⟩ rfl rfl (by decide) rfl
  exact hruns (by decide) (by decide) (by decide) (by decide)

/-- Whatever is cancelled is never run again: not in the same round of `handleTimeouts`, and not
when the cancelled task itself, or another one, adds new timers. -/
theorem cancelled_never_runs (id : TimerId) (after : List (Action T)) (hx : Reached x)
    (hid : id ∈ x.given) (hcancel : x.cancel id = .ok (true, x'))
    (hrun : run step after x' = .ok y) : ranFor id y.fired = ranFor id x.fired := by
  have hold := hx.good.given_le id hid
  suffices hgone : Gone id (ranFor id x.fired) x' from (hgone.run hrun).ran
  obtain ⟨tr, hr, -, rfl⟩ | ⟨-, hmem, rfl⟩ | ⟨hfound, -⟩ := cancel_cases hcancel
  · refine ⟨hold, fun hin => ?_, by simp, rfl⟩
    -- a repeating timer's own id is under no entry
    obtain ⟨task', htask⟩ := mem_iff_get.mp (Std.ExtTreeMap.mem_of_mem_erase hin)
    cases task' with
    | once task' => exact hx.good.apart id task' htask (mem_iff_get.mpr ⟨tr, hr⟩)
    | repeatable tid => exact hx.good.given_once id hid tid htask
  · refine ⟨hold, by simp, ?_, rfl⟩
    obtain ⟨task', htask⟩ := mem_iff_get.mp hmem
    cases task' with
    | once task' => exact hx.good.apart id task' htask
    | repeatable tid => exact absurd htask (hx.good.given_once id hid tid)
  · cases hfound

/-- A timer that is late runs once, and is due once more when a task of the same round cancels
it. -/
theorem lateTimer_cancelled_never_runs :
    ranFor (toLex (-10, 1)) [Firing.repeated (toLex (-10, 1)) 10 'a',
      .once (toLex (12, 3)) 'b'] = [.repeated (toLex (-10, 1)) 10 'a'] := by
  exact cancelled_never_runs (toLex (-10, 1)) [.fire 17 17, .refresh 17]
    ⟨[.runAt 10 'a' 5 0, .runAt 12 'b' 0 0, .fire 17 17, .fire 17 17], by decide, rfl⟩
    (by decide) rfl rfl

end Once

/-! One call of `handleTimeouts`. -/

/-- What happens in a call at `now` whose tasks add no timers: its rounds, and what the tasks
cancel. -/
def Rounds (now : Int) : Action T → EventsImp T → Prop
  | .fire now' clock, _ => now' = now ∧ 0 ≤ clock ∧ clock ≤ 2 ^ 62
  | .cancel id, x => id ∈ x.given ∧ Safe (.cancel id) x
  | _, _ => False

/-- No timer is due again at the moment it was run, and the times leave room for sums and
differences. -/
def Roomy (x : EventsImp T) : Prop :=
  (∀ tr ∈ x.timerReps_.toList.map Prod.snd, 0 < tr.interval ∧ tr.interval ≤ 2 ^ 62) ∧
    ∀ id ∈ x.timers_.toList.map Prod.fst, -2 ^ 62 ≤ id.time ∧ id.time < 2 ^ 63

instance (now : Int) : ∀ (action : Action T) (x : EventsImp T), Decidable (Rounds now action x)
  | .fire _ _, _ => instDecidableAnd
  | .cancel id, x =>
    have : Decidable (Safe (.cancel id) x) := inferInstanceAs (Decidable (_ → _ ∧ _))
    instDecidableAnd
  | .runAt .., _ => .isFalse id
  | .refresh _, _ => .isFalse id
  | .exit, _ => .isFalse id
  | .clear, _ => .isFalse id

instance : Decidable (Roomy x) := instDecidableAnd

def Action.isFire : Action T → Bool
  | .fire _ _ => true
  | _ => false

def TimerTask.count : TimerTask T → Nat
  | .once _ => 1
  | .repeatable _ => 0

def pending (now : Int) (x : EventsImp T) : Nat :=
  total (fun tr => turns tr.at_ tr.interval now) x.timerReps_ + total TimerTask.count x.timers_

section Timeouts
variable {now clock : Int} {id : TimerId}

theorem fire_of_drained (h : Drained now x) (clock : Int) :
    x.fire now clock = .ok { x with running := none } := by
  rw [EventsImp.fire]
  cases hf : first x.timers_ with
  | none => rfl
  | some p =>
    obtain ⟨id, task⟩ := p
    have hmem := mem_iff_get.mpr ⟨task, (first_le hf).1⟩
    simp only [if_neg (h id (mem_keys.mpr hmem))]

theorem first_of_due (hdue : ¬ Drained now x) :
    ∃ id task, first x.timers_ = some (id, task) ∧ id < EventsImp.bound now := by
  cases hf : first x.timers_ with
  | none =>
    refine absurd (fun id hid => ?_) hdue
    rw [first_none_iff.mp hf] at hid
    simp at hid
  | some p =>
    obtain ⟨id, task⟩ := p
    refine ⟨id, task, rfl, ?_⟩
    by_contra hnot
    refine hdue fun a ha hlt => hnot ?_
    exact lt_of_le_of_lt ((first_le hf).2 a (mem_keys.mp ha)) hlt

theorem Sound.due_time (hx : Sound x) {tid : TimerId} {tr : TimerRepeatable T}
    (hid : x.timers_[id]? = some (.repeatable tid)) (hr : x.timerReps_[tid]? = some tr) :
    id.time = tr.at_ := by
  obtain ⟨tr', hr', hid'⟩ := hx.recorded id tid hid
  rw [hr] at hr'
  cases hr'
  rw [← hid', (hx.entered tid tr hr).2]

theorem safe_fire (hx : Sound x) (hr : Roomy x) (hnow : now < 2 ^ 62) (h0 : 0 ≤ clock)
    (hclock : clock ≤ 2 ^ 62) : Safe (.fire now clock) x := by
  intro id tid tr hf hdue hget
  have hid := (first_le hf).1
  have htime := time_le_of_lt_bound hdue
  have hold := hr.2 id (mem_keys.mpr (mem_iff_get.mpr ⟨_, hid⟩))
  rw [hx.due_time hid hget] at htime hold
  have hint := hr.1 tr (mem_values.mpr ⟨tid, hget⟩)
  refine ⟨⟨by omega, by omega⟩, fun t ht _ => ?_⟩
  cases List.mem_cons.mp ht with
  | inl hnew => exact ⟨by omega, by omega⟩
  | inr hin =>
    obtain ⟨a, ha, rfl⟩ := mem_times.mp hin
    have hroom := hr.2 a (mem_keys.mpr (Std.ExtTreeMap.mem_of_mem_erase ha))
    exact ⟨by omega, by omega⟩

structure Round (now : Int) (x x' : EventsImp T) (f : Firing T) : Prop where
  fired : x'.fired = x.fired ++ [f]
  above : ∀ {d : Int}, (∀ id ∈ x.timers_, d ≤ id.time) → d ≤ f.due
  least : ∀ id ∈ x'.timers_, f.due ≤ id.time
  pending : pending now x' < pending now x
  roomy : Roomy x'

theorem round_once (hroom : Roomy x) {task : T} (hget : x.timers_[id]? = some (.once task))
    (hfirst : ∀ a ∈ x.timers_, id ≤ a) : Round now x { x with
      timers_ := x.timers_.erase id
      running := none
      fired := x.fired ++ [.once id task] } (.once id task) := by
  refine ⟨rfl, fun hd => hd id (mem_iff_get.mpr ⟨_, hget⟩),
    fun a ha => le_time (hfirst a (Std.ExtTreeMap.mem_of_mem_erase ha)), ?_, hroom.1,
    fun a ha => ?_⟩
  · have hcount := total_erase (f := TimerTask.count) hget
    simp only [Timers.pending, TimerTask.count] at hcount ⊢
    omega
  · exact hroom.2 a (mem_keys.mpr (Std.ExtTreeMap.mem_of_mem_erase (mem_keys.mp ha)))

theorem round_again (hx : Sound x) (hroom : Roomy x) (hnow : now < 2 ^ 62) {tid : TimerId}
    {tr : TimerRepeatable T} (hid : x.timers_[id]? = some (.repeatable tid))
    (hr : x.timerReps_[tid]? = some tr) (hdue : id < EventsImp.bound now)
    (hfirst : ∀ a ∈ x.timers_, id ≤ a) (n : Int) : Round now x { x with
      timerSeq_ := x.timerSeq_ + 1
      timerReps_ := x.timerReps_.insert tid { tr with
        at_ := tr.at_ + tr.interval
        timerid := toLex (tr.at_ + tr.interval, x.timerSeq_ + 1) }
      timers_ := (x.timers_.erase id).insert (toLex (tr.at_ + tr.interval, x.timerSeq_ + 1))
        (.repeatable tid)
      nextTimeout_ := n
      running := some tid
      fired := x.fired ++ [.repeated tid tr.at_ tr.cb] } (.repeated tid tr.at_ tr.cb) := by
  have hat := hx.due_time hid hr
  have hint := hroom.1 tr (mem_values.mpr ⟨tid, hr⟩)
  have htime := time_le_of_lt_bound hdue
  have hold := hroom.2 id (mem_keys.mpr (mem_iff_get.mpr ⟨_, hid⟩))
  rw [hat] at htime hold
  refine ⟨rfl, fun hd => ?_, fun a ha => ?_, ?_, fun tr' hmem => ?_, fun a ha => ?_⟩
  · exact hat ▸ hd id (mem_iff_get.mpr ⟨_, hid⟩)
  · cases Std.ExtTreeMap.mem_insert.mp ha with
    | inl heq =>
      rw [← compare_eq_iff_eq.mp heq, time_toLex, Firing.due]
      omega
    | inr hin => exact hat ▸ le_time (hfirst a (Std.ExtTreeMap.mem_of_mem_erase hin))
  · have hnew : (toLex (tr.at_ + tr.interval, x.timerSeq_ + 1) : TimerId) ∉
        x.timers_.erase id := notMem_erase (hx.notMem (by omega))
    have hcount := total_erase (f := TimerTask.count) hid
    have hleft := total_erase (f := fun tr => turns tr.at_ tr.interval now) hr
    have hturn := turns_next hint.1 htime
    simp only [Timers.pending]
    rw [total_insert_of_notMem hnew, ← insert_erase, total_insert_of_notMem (by simp)]
    simp only [TimerTask.count] at hcount ⊢
    omega
  · obtain ⟨tid', hr'⟩ := mem_values.mp hmem
    simp only [get_insert] at hr'
    split_ifs at hr'
    · cases hr'
      exact hint
    · exact hroom.1 tr' (mem_values.mpr ⟨tid', hr'⟩)
  · cases Std.ExtTreeMap.mem_insert.mp (mem_keys.mp ha) with
    | inl heq =>
      rw [← compare_eq_iff_eq.mp heq, time_toLex]
      omega
    | inr hin => exact hroom.2 a (mem_keys.mpr (Std.ExtTreeMap.mem_of_mem_erase hin))

theorem fire_round (hx : Sound x) (hroom : Roomy x) (hnow : now < 2 ^ 62) (h0 : 0 ≤ clock)
    (hclock : clock ≤ 2 ^ 62) (hdue : ¬ Drained now x) :
    ∃ x' f, x.fire now clock = .ok x' ∧ Round now x x' f := by
  obtain ⟨x', hfire⟩ := (fire_ok_iff hx now clock).mpr (safe_fire hx hroom hnow h0 hclock)
  obtain ⟨id, task, hf, hlt⟩ := first_of_due hdue
  obtain ⟨hget, hfirst⟩ := first_le hf
  have hstep := hfire
  rw [EventsImp.fire, hf] at hstep
  simp only [if_pos hlt] at hstep
  cases task with
  | once task =>
    cases hstep
    exact ⟨_, _, hfire, round_once hroom hget hfirst⟩
  | repeatable tid =>
    obtain ⟨tr, hr, -⟩ := hx.recorded id tid hget
    simp only [EventsImp.repeatableTimeout, hr] at hstep
    split_ifs at hstep
    obtain ⟨x₁, hx₁, hstep⟩ := seq_ok_iff.mp hstep
    obtain ⟨n, rfl⟩ := refreshNearest_eq hx₁
    cases hstep
    exact ⟨_, _, hfire, round_again hx hroom hnow hget hr hlt hfirst n⟩

theorem cancel_round (hx : Sound x) (hroom : Roomy x) {found : Bool}
    (hcancel : x.cancel id = .ok (found, x')) (now : Int) :
    x'.fired = x.fired ∧ (∀ a ∈ x'.timers_, a ∈ x.timers_) ∧ Roomy x' ∧
      pending now x' ≤ pending now x := by
  have hleft : ∀ a b : TimerId, a ∈ x.timers_.erase b → a ∈ x.timers_ :=
    fun a b => Std.ExtTreeMap.mem_of_mem_erase
  obtain ⟨tr, hr, -, rfl⟩ | ⟨-, hmem, rfl⟩ | ⟨-, rfl⟩ := cancel_cases hcancel
  · refine ⟨rfl, fun a => hleft a _, ⟨fun tr' hmem => ?_, fun a ha => ?_⟩, ?_⟩
    · obtain ⟨tid, hr'⟩ := mem_values.mp hmem
      simp only [get_erase] at hr'
      split_ifs at hr'
      exact hroom.1 tr' (mem_values.mpr ⟨tid, hr'⟩)
    · exact hroom.2 a (mem_keys.mpr (hleft a _ (mem_keys.mp ha)))
    · have hcount := total_erase (f := TimerTask.count) (hx.entered id tr hr).1
      have hturns := total_erase (f := fun tr => turns tr.at_ tr.interval now) hr
      simp only [pending] at hcount hturns ⊢
      omega
  · obtain ⟨task, htask⟩ := mem_iff_get.mp hmem
    refine ⟨rfl, fun a => hleft a id, ⟨hroom.1, fun a ha => ?_⟩, ?_⟩
    · exact hroom.2 a (mem_keys.mpr (hleft a id (mem_keys.mp ha)))
    · have hcount := total_erase (f := TimerTask.count) htask
      simp only [pending] at hcount ⊢
      omega
  · exact ⟨rfl, fun a ha => ha, hroom, le_rfl⟩

theorem drained_of_pending (hx : Sound x) (hroom : Roomy x) (hnow : now < 2 ^ 62)
    (h : pending now x = 0) : Drained now x := by
  by_contra hdue
  have hclock : (0 : Int) ≤ 2 ^ 62 := by decide
  obtain ⟨x', f, -, hround⟩ := fire_round hx hroom hnow le_rfl hclock hdue
  have hless := hround.pending
  omega

end Timeouts

end LazyNet.Timers
