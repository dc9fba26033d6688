import Mathlib.Data.List.Basic
import Mathlib.Tactic.Common

/-! A sequence of frames sent as one stream, and how many of them a prefix of the stream
holds completely. -/
namespace LazyNet.Framing
variable {β : Type*}

/-- How many frames lie entirely inside the first `n` elements of the stream. -/
def completed : List (List β) → Nat → Nat
  | [], _ => 0
  | f :: fs, n => if f.length ≤ n then completed fs (n - f.length) + 1 else 0

def boundary (fs : List (List β)) (c : Nat) : Nat := (fs.take c).flatten.length

/-- The received part of the first frame that the first `n` elements do not complete. -/
def part (fs : List (List β)) (n : Nat) : List β :=
  (fs.flatten.take n).drop (boundary fs (completed fs n))

@[simp] theorem boundary_zero (fs : List (List β)) : boundary fs 0 = 0 := by simp [boundary]

theorem boundary_cons_succ (f : List β) (fs : List (List β)) (c : Nat) :
    boundary (f :: fs) (c + 1) = f.length + boundary fs c := by
  simp [boundary]

theorem boundary_completed_le (fs : List (List β)) (n : Nat) :
    boundary fs (completed fs n) ≤ n := by
  induction fs generalizing n with
  | nil => simp [boundary]
  | cons f fs ih =>
    rw [completed]
    split_ifs with h
    · have := ih (n - f.length)
      rw [boundary_cons_succ]
      omega
    · simp

theorem completed_le_length (fs : List (List β)) (n : Nat) : completed fs n ≤ fs.length := by
  induction fs generalizing n with
  | nil => simp [completed]
  | cons f fs ih =>
    rw [completed]
    split_ifs with h
    · have := ih (n - f.length)
      simp only [List.length_cons]
      omega
    · simp

/-- Counting again from the boundary reached: the frames completed by a longer prefix are those
of the shorter one and those completed past them. -/
theorem completed_from (fs : List (List β)) {n n' : Nat} (h : n ≤ n') :
    completed fs n' = completed fs n +
      completed (fs.drop (completed fs n)) (n' - boundary fs (completed fs n)) := by
  induction fs generalizing n n' with
  | nil => simp [completed]
  | cons f fs ih =>
    by_cases hf : f.length ≤ n
    · have hstep : completed fs (n' - f.length) = _ := ih (Nat.sub_le_sub_right h f.length)
      have hc : completed (f :: fs) n = completed fs (n - f.length) + 1 := by simp [completed, hf]
      have hc' : completed (f :: fs) n' = completed fs (n' - f.length) + 1 := by
        simp [completed, Nat.le_trans hf h]
      rw [hc, hc', hstep, boundary_cons_succ, List.drop_succ_cons, Nat.sub_sub]
      omega
    · have hc : completed (f :: fs) n = 0 := by simp [completed, hf]
      rw [hc]
      simp

theorem drop_boundary (fs : List (List β)) (c n : Nat) :
    (fs.flatten.take n).drop (boundary fs c) =
      (fs.drop c).flatten.take (n - boundary fs c) := by
  have hsplit : fs.flatten = (fs.take c).flatten ++ (fs.drop c).flatten := by
    rw [← List.flatten_append, List.take_append_drop]
  rw [List.drop_take, hsplit, boundary, List.drop_left]

theorem boundary_succ {fs rest : List (List β)} {c : Nat} {f : List β}
    (h : fs.drop c = f :: rest) : boundary fs (c + 1) = boundary fs c + f.length := by
  have hget : fs[c]? = some f := by rw [← List.head?_drop, h]; rfl
  simp [boundary, List.take_add_one, hget]

theorem completed_cons_of_le {f : List β} {fs : List (List β)} {n : Nat} (h : f.length ≤ n) :
    completed (f :: fs) n = completed fs (n - f.length) + 1 := by
  simp [completed, h]

theorem completed_cons_of_lt {f : List β} {fs : List (List β)} {n : Nat} (h : n < f.length) :
    completed (f :: fs) n = 0 := by
  simp [completed, Nat.not_le.mpr h]

theorem completed_all {fs : List (List β)} {n : Nat} (h : fs.flatten.length ≤ n) :
    completed fs n = fs.length := by
  induction fs generalizing n with
  | nil => rfl
  | cons f fs ih =>
    rw [List.flatten_cons, List.length_append] at h
    rw [completed_cons_of_le (by omega), ih (by omega), List.length_cons]

theorem take_eq (fs : List (List β)) (n : Nat) :
    fs.flatten.take n = (fs.take (completed fs n)).flatten ++ part fs n := by
  have hle := boundary_completed_le fs n
  have hsplit : fs.flatten = (fs.take (completed fs n)).flatten ++
      (fs.drop (completed fs n)).flatten := by
    rw [← List.flatten_append, List.take_append_drop]
  have hfront : (fs.flatten.take n).take (boundary fs (completed fs n)) =
      (fs.take (completed fs n)).flatten := by
    rw [List.take_take, Nat.min_eq_left hle, hsplit, boundary, List.take_left]
  rw [part, ← hfront, List.take_append_drop]

theorem part_short (fs : List (List β)) (n : Nat) :
    part fs n = [] ∨ ∃ f ∈ fs, part fs n <+: f ∧ (part fs n).length < f.length := by
  rw [part, drop_boundary]
  cases hrest : fs.drop (completed fs n) with
  | nil => simp
  | cons f rest =>
    right
    have hfrom := completed_from fs (Nat.le_refl n)
    rw [hrest] at hfrom
    have hlt : n - boundary fs (completed fs n) < f.length := by
      by_contra hle
      rw [completed_cons_of_le (Nat.le_of_not_lt hle)] at hfrom
      omega
    have hmem : f ∈ fs := List.mem_of_mem_drop (hrest ▸ List.mem_cons_self)
    refine ⟨f, hmem, ?_, ?_⟩
    · rw [List.flatten_cons, List.take_append_of_le_length (Nat.le_of_lt hlt)]
      exact List.take_prefix _ f
    · rw [List.length_take]
      omega

end LazyNet.Framing
