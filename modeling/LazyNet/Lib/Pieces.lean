import Mathlib.Tactic.Common

/-! Functions of the integers that change at finitely many points, and the pieces of an interval
between the changes. -/
namespace LazyNet.Pieces
variable {β : Type*}

structure StepFun (β : Type*) where
  /-- the value before the first change -/
  first : β
  /-- from where on the function has which value, in the order of the changes -/
  changes : List (Int × β)

def valueFrom (v : β) : List (Int × β) → Int → β
  | [], _ => v
  | (c, v') :: rest, t => if t < c then v else valueFrom v' rest t

def StepFun.value (f : StepFun β) (t : Int) : β := valueFrom f.first f.changes t

/-- The interval from `a` to `b`, cut at each change inside it. -/
def cut (b : Int) : Int → List Int → List (Int × Int)
  | a, [] => [(a, b)]
  | a, c :: cs =>
    if c ≤ a then cut b a cs
    else if b < c then [(a, b)]
    else (a, c - 1) :: cut b c cs

def StepFun.pieces (f : StepFun β) (a b : Int) : List (Int × Int) :=
  cut b a (f.changes.map Prod.fst)

theorem cut_covers {a b t : Int} (cs : List Int) (hab : a ≤ b) :
    (∃ p ∈ cut b a cs, p.1 ≤ t ∧ t ≤ p.2) ↔ a ≤ t ∧ t ≤ b := by
  induction cs generalizing a with
  | nil => simp [cut]
  | cons c cs ih =>
    rw [cut]
    split_ifs with hc hb
    · exact ih hab
    · simp
    · simp only [List.mem_cons, exists_eq_or_imp]
      rw [ih (by omega)]
      omega

theorem cut_bounds {a b : Int} {cs : List Int} (hab : a ≤ b) {p : Int × Int}
    (hp : p ∈ cut b a cs) : a ≤ p.1 ∧ p.1 ≤ p.2 ∧ p.2 ≤ b := by
  induction cs generalizing a with
  | nil =>
    rw [cut, List.mem_singleton] at hp
    rw [hp]
    exact ⟨Int.le_refl a, hab, Int.le_refl b⟩
  | cons c cs ih =>
    rw [cut] at hp
    split_ifs at hp with hc hb
    · exact ih hab hp
    · rw [List.mem_singleton] at hp
      rw [hp]
      exact ⟨Int.le_refl a, hab, Int.le_refl b⟩
    · cases List.mem_cons.mp hp with
      | inl heq =>
        rw [heq]
        simp only
        omega
      | inr hrest =>
        have h := ih (by omega) hrest
        omega

theorem cut_constant {a b t : Int} {v : β} {changes : List (Int × β)} {p : Int × Int}
    (hab : a ≤ b) (hp : p ∈ cut b a (changes.map Prod.fst)) (h1 : p.1 ≤ t) (h2 : t ≤ p.2) :
    valueFrom v changes t = valueFrom v changes p.1 := by
  induction changes generalizing a v with
  | nil => rfl
  | cons change changes ih =>
    obtain ⟨c, v'⟩ := change
    rw [List.map_cons, cut] at hp
    rw [valueFrom, valueFrom]
    split_ifs at hp with hc hb
    · have hge := (cut_bounds hab hp).1
      rw [if_neg (by omega), if_neg (by omega)]
      exact ih hab hp
    · rw [List.mem_singleton] at hp
      rw [hp] at h1 h2 ⊢
      rw [if_pos (by simp only at h2 ⊢; omega), if_pos (by simp only; omega)]
    · cases List.mem_cons.mp hp with
      | inl heq =>
        rw [heq] at h1 h2 ⊢
        rw [if_pos (by simp only at h2; omega), if_pos (by simp only; omega)]
      | inr hrest =>
        have hge := (cut_bounds (by omega) hrest).1
        rw [if_neg (by omega), if_neg (by omega)]
        exact ih (by omega) hrest

theorem StepFun.pieces_bounds {f : StepFun β} {a b : Int} (hab : a ≤ b) {p : Int × Int}
    (hp : p ∈ f.pieces a b) : a ≤ p.1 ∧ p.1 ≤ p.2 ∧ p.2 ≤ b := cut_bounds hab hp

theorem StepFun.pieces_constant {f : StepFun β} {a b t : Int} (hab : a ≤ b) {p : Int × Int}
    (hp : p ∈ f.pieces a b) (h1 : p.1 ≤ t) (h2 : t ≤ p.2) : f.value t = f.value p.1 :=
  cut_constant hab hp h1 h2

theorem StepFun.exists_piece (f : StepFun β) {a b : Int} (hab : a ≤ b) {P : Int → Prop} :
    (∃ t, a ≤ t ∧ t ≤ b ∧ P t) ↔ ∃ p ∈ f.pieces a b, ∃ t, p.1 ≤ t ∧ t ≤ p.2 ∧ P t := by
  constructor
  · intro ⟨t, hat, htb, hP⟩
    obtain ⟨p, hp, h1, h2⟩ := (cut_covers (f.changes.map Prod.fst) hab).mpr ⟨hat, htb⟩
    exact ⟨p, hp, t, h1, h2, hP⟩
  · intro ⟨p, hp, t, h1, h2, hP⟩
    obtain ⟨hat, htb⟩ := (cut_covers (f.changes.map Prod.fst) hab).mp ⟨p, hp, h1, h2⟩
    exact ⟨t, hat, htb, hP⟩

end LazyNet.Pieces
