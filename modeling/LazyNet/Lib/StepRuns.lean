import Mathlib.Data.List.Infix
import Mathlib.Data.List.Induction
import Mathlib.Tactic.Common

/-! Finite runs of a step function that may fail, the induction rules for them, and
laws that are asked of every prefix of an input list. -/
namespace LazyNet.StepRuns
variable {σ ι ε : Type*}

/-- Feed the inputs one by one; the first failing step ends the run. -/
def run (step : ι → σ → Except ε σ) : List ι → σ → Except ε σ
  | [], s => .ok s
  | i :: is, s => step i s >>= run step is

def Reachable (step : ι → σ → Except ε σ) (start s : σ) : Prop :=
  ∃ is, run step is start = .ok s

/-- Every step of the run is taken on an input and in a state that `C` allows. -/
def Meets (step : ι → σ → Except ε σ) (C : ι → σ → Prop) : List ι → σ → Prop
  | [], _ => True
  | i :: is, s => C i s ∧ ∀ s', step i s = .ok s' → Meets step C is s'

theorem meets_cons_ok {step : ι → σ → Except ε σ} {C : ι → σ → Prop} {i : ι} {is : List ι}
    {s s' : σ} (h : step i s = .ok s') :
    Meets step C (i :: is) s ↔ C i s ∧ Meets step C is s' := by
  refine and_congr_right fun _ => ⟨fun hr => hr s' h, fun hm t ht => ?_⟩
  rw [h] at ht
  cases ht
  exact hm

theorem meets_cons_error {step : ι → σ → Except ε σ} {C : ι → σ → Prop} {i : ι} {is : List ι}
    {s : σ} {e : ε} (h : step i s = .error e) : Meets step C (i :: is) s ↔ C i s := by
  refine and_iff_left fun t ht => ?_
  rw [h] at ht
  cases ht

instance decidableMeets (step : ι → σ → Except ε σ) (C : ι → σ → Prop)
    [∀ i s, Decidable (C i s)] : ∀ (is : List ι) (s : σ), Decidable (Meets step C is s)
  | [], _ => .isTrue trivial
  | i :: is, s =>
    match h : step i s with
    | .ok s' =>
      have := decidableMeets step C is s'
      decidable_of_iff _ (meets_cons_ok h).symm
    | .error _ => decidable_of_iff _ (meets_cons_error h).symm

theorem seq_ok_iff.{u} {ε : Type*} {α β : Type u} {x : Except ε α} {f : α → Except ε β} {b : β} :
    x >>= f = .ok b ↔ ∃ a, x = .ok a ∧ f a = .ok b := by
  cases x <;> simp [bind, Except.bind]

theorem map_ok_iff {α β : Type*} {x : Except ε α} {f : α → β} {b : β} :
    x.map f = .ok b ↔ ∃ a, x = .ok a ∧ f a = b := by
  cases x <;> simp [Except.map]

theorem map_ok_exists {α β : Type*} {x : Except ε α} {f : α → β} :
    (∃ b, x.map f = .ok b) ↔ ∃ a, x = .ok a := by
  cases x <;> simp [Except.map]

theorem map_error_iff {α β : Type*} {x : Except ε α} {f : α → β} {e : ε} :
    x.map f = .error e ↔ x = .error e := by
  cases x <;> simp [Except.map]

theorem seq_eq_map.{u} {ε : Type*} {α β : Type u} (x : Except ε α) (f : α → β) :
    (x >>= fun a => .ok (f a)) = x.map f := by
  cases x <;> rfl

variable {step : ι → σ → Except ε σ}

@[simp] theorem run_nil (s : σ) : run step [] s = .ok s := rfl

theorem run_cons_ok {i : ι} {is : List ι} {s t : σ} :
    run step (i :: is) s = .ok t ↔ ∃ s', step i s = .ok s' ∧ run step is s' = .ok t := by
  rw [run, seq_ok_iff]

theorem run_append (u v : List ι) (s : σ) :
    run step (u ++ v) s = run step u s >>= run step v := by
  induction u generalizing s with
  | nil => rfl
  | cons i u ih =>
    simp only [List.cons_append, run]
    cases h : step i s with
    | error e => rfl
    | ok s' => exact ih s'

theorem run_append_ok {u v : List ι} {s t : σ} :
    run step (u ++ v) s = .ok t ↔ ∃ m, run step u s = .ok m ∧ run step v m = .ok t := by
  rw [run_append, seq_ok_iff]

theorem run_snoc_ok {u : List ι} {i : ι} {s t : σ} :
    run step (u ++ [i]) s = .ok t ↔ ∃ m, run step u s = .ok m ∧ step i m = .ok t := by
  rw [run_append_ok]
  refine exists_congr fun m => and_congr_right fun _ => ?_
  rw [run_cons_ok]
  simp

theorem run_inv_of {I : σ → Prop} {C : ι → σ → Prop} {is : List ι} {s t : σ} (h0 : I s)
    (hstep : ∀ i s s', I s → C i s → step i s = .ok s' → I s')
    (hc : Meets step C is s) (h : run step is s = .ok t) : I t := by
  induction is generalizing s with
  | nil => cases h; exact h0
  | cons i is ih =>
    obtain ⟨s', hs, ht⟩ := run_cons_ok.mp h
    exact ih (hstep i s s' h0 hc.1 hs) (hc.2 s' hs) ht

theorem run_total {I : σ → Prop} {is : List ι}
    (hstep : ∀ i ∈ is, ∀ s, I s → ∃ s', step i s = .ok s' ∧ I s') {s : σ} (h0 : I s) :
    ∃ t, run step is s = .ok t ∧ I t := by
  induction is generalizing s with
  | nil => exact ⟨s, rfl, h0⟩
  | cons i is ih =>
    obtain ⟨s', hs, hi⟩ := hstep i List.mem_cons_self s h0
    obtain ⟨t, ht, hend⟩ := ih (fun j hj => hstep j (List.mem_cons_of_mem i hj)) hi
    exact ⟨t, run_cons_ok.mpr ⟨s', hs, ht⟩, hend⟩

theorem run_ok_iff {I : σ → Prop} {A C : ι → σ → Prop}
    (hok : ∀ i s, I s → A i s → ((∃ s', step i s = .ok s') ↔ C i s))
    (hkeep : ∀ i s s', I s → A i s → step i s = .ok s' → I s') {is : List ι} {s : σ} (h0 : I s)
    (ha : Meets step A is s) : (∃ t, run step is s = .ok t) ↔ Meets step C is s := by
  induction is generalizing s with
  | nil => exact ⟨fun _ => trivial, fun _ => ⟨s, rfl⟩⟩
  | cons i is ih =>
    have hrest : ∀ s', step i s = .ok s' → ((∃ t, run step is s' = .ok t) ↔ Meets step C is s') :=
      fun s' hs => ih (hkeep i s s' h0 ha.1 hs) (ha.2 s' hs)
    constructor
    · intro ⟨t, ht⟩
      obtain ⟨s', hs, hrun⟩ := run_cons_ok.mp ht
      refine ⟨(hok i s h0 ha.1).mp ⟨s', hs⟩, fun s₁ hs₁ => ?_⟩
      rw [hs] at hs₁
      cases hs₁
      exact (hrest s' hs).mp ⟨t, hrun⟩
    · intro hc
      obtain ⟨s', hs⟩ := (hok i s h0 ha.1).mpr hc.1
      obtain ⟨t, ht⟩ := (hrest s' hs).mpr (hc.2 s' hs)
      exact ⟨t, run_cons_ok.mpr ⟨s', hs, ht⟩⟩

theorem run_error {I : σ → Prop} {A : ι → σ → Prop}
    (hkeep : ∀ i s s', I s → A i s → step i s = .ok s' → I s') {is : List ι} {s : σ} {e : ε}
    (h0 : I s) (ha : Meets step A is s) (h : run step is s = .error e) :
    ∃ i s', I s' ∧ A i s' ∧ step i s' = .error e := by
  induction is generalizing s with
  | nil => cases h
  | cons i is ih =>
    cases hs : step i s with
    | error e' =>
      rw [run, hs] at h
      cases h
      exact ⟨i, s, h0, ha.1, hs⟩
    | ok s' =>
      rw [run, hs] at h
      exact ih (hkeep i s s' h0 ha.1 hs) (ha.2 s' hs) h

theorem keeps_iff {I J : σ → Prop} {C : ι → σ → Prop}
    (hiff : ∀ i s s', J s → I s → step i s = .ok s' → (I s' ↔ C i s))
    (hkeep : ∀ i s s', J s → step i s = .ok s' → J s') {is : List ι} {s t : σ} (h0 : J s)
    (hi : I s) (h : run step is s = .ok t) :
    (∀ u m, u <+: is → run step u s = .ok m → I m) ↔ Meets step C is s := by
  induction is generalizing s with
  | nil =>
    refine ⟨fun _ => trivial, fun _ u m hu hm => ?_⟩
    rw [List.prefix_nil.mp hu] at hm
    cases hm
    exact hi
  | cons i is ih =>
    obtain ⟨s', hs, ht⟩ := run_cons_ok.mp h
    have hj' := hkeep i s s' h0 hs
    rw [meets_cons_ok hs, ← hiff i s s' h0 hi hs]
    constructor
    · intro hall
      have hi' : I s' := hall [i] s' (List.prefix_append [i] is) (run_cons_ok.mpr ⟨s', hs, rfl⟩)
      refine ⟨hi', (ih hj' hi' ht).mp fun u m hu hm => ?_⟩
      exact hall (i :: u) m (List.cons_prefix_cons.mpr ⟨rfl, hu⟩) (run_cons_ok.mpr ⟨s', hs, hm⟩)
    · intro ⟨hi', hrest⟩ u m hu hm
      cases u with
      | nil =>
        cases hm
        exact hi
      | cons k u =>
        obtain ⟨rfl, hpre⟩ := List.cons_prefix_cons.mp hu
        obtain ⟨s₁, hs₁, hm⟩ := run_cons_ok.mp hm
        rw [hs] at hs₁
        cases hs₁
        exact (ih hj' hi' ht).mpr hrest u m hpre hm

theorem meets_true (is : List ι) (s : σ) : Meets step (fun _ _ => True) is s := by
  induction is generalizing s with
  | nil => trivial
  | cons i is ih => exact ⟨trivial, fun s' _ => ih s'⟩

theorem Reachable.inv {I : σ → Prop} {start s : σ} (h0 : I start)
    (hstep : ∀ i s s', I s → step i s = .ok s' → I s') (h : Reachable step start s) : I s := by
  obtain ⟨is, hrun⟩ := h
  exact run_inv_of h0 (fun i s s' hi _ hs => hstep i s s' hi hs) (meets_true is start) hrun

theorem run_map {τ : Type*} {step' : ι → τ → Except ε τ} {f : σ → τ}
    (h : ∀ i s, (step i s).map f = step' i (f s)) (is : List ι) (s : σ) :
    (run step is s).map f = run step' is (f s) := by
  induction is generalizing s with
  | nil => rfl
  | cons i is ih =>
    rw [run, run, ← h i s]
    cases step i s with
    | error e => rfl
    | ok s' => exact ih s'

theorem last_iff {R : List ι → ι → Prop} {u : List ι} {i : ι} :
    (∀ v j, u ++ [i] = v ++ [j] → R v j) ↔ R u i := by
  constructor
  · exact fun h => h u i rfl
  · intro h v j hv
    obtain ⟨rfl, rfl⟩ : u = v ∧ i = j := by simpa using hv
    exact h

theorem ne_of_snoc {l u : List ι} {i : ι} (h : u ++ [i] <+: l) : u ≠ l := by
  intro heq
  have hlen := h.length_le
  rw [heq, List.length_append, List.length_singleton] at hlen
  omega

/-- Laws of prefixes. `Good` is what the law `P` leaves behind for the next step; in a good
position the law survives the next input exactly when `Q` holds of it. Then `P` holds of every
prefix exactly when `Q` holds at every step. -/
theorem prefix_iff {P : List ι → Prop} {Q : List ι → ι → Prop} (Good : List ι → Prop) (l : List ι)
    (h0 : P []) (g0 : Good [])
    (hstep : ∀ u i, u ++ [i] <+: l → Good u → (P (u ++ [i]) ↔ Q u i))
    (hgood : ∀ u i, u ++ [i] <+: l → Good u → P (u ++ [i]) → Good (u ++ [i])) :
    (∀ u, u <+: l → P u) ↔ ∀ u i, u ++ [i] <+: l → Q u i := by
  have snoc_left : ∀ {u : List ι} {i : ι}, u ++ [i] <+: l → u <+: l :=
    fun h => (List.prefix_append _ _).trans h
  constructor
  · intro hP
    have good : ∀ u, u <+: l → Good u := by
      intro u
      induction u using List.reverseRecOn with
      | nil => exact fun _ => g0
      | append_singleton u i ih => exact fun h => hgood u i h (ih (snoc_left h)) (hP _ h)
    exact fun u i h => (hstep u i h (good u (snoc_left h))).mp (hP _ h)
  · intro hQ
    have both : ∀ u, u <+: l → P u ∧ Good u := by
      intro u
      induction u using List.reverseRecOn with
      | nil => exact fun _ => ⟨h0, g0⟩
      | append_singleton u i ih =>
        intro h
        have hg := (ih (snoc_left h)).2
        have hp := (hstep u i h hg).mpr (hQ u i h)
        exact ⟨hp, hgood u i h hg hp⟩
    exact fun u h => (both u h).1

end LazyNet.StepRuns
