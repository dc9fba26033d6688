import Mathlib.Algebra.GroupWithZero.Nat
import Std.Data.ExtTreeMap
import Mathlib.Algebra.BigOperators.Group.List.Basic
import Mathlib.Data.List.Nodup
import Mathlib.Tactic.Common

/-! Ordered maps with the access that inserts a default, and tables filled by a loop in which
a later write to a key or an index replaces the earlier one. -/
namespace LazyNet.Tables
open Std

abbrev OrdMap (κ β : Type*) [Ord κ] := ExtTreeMap κ β compare

section Writes
variable {κ α : Type*} [DecidableEq κ]

def lastFor (k : α → κ) (a : κ) (l : List α) : Option α :=
  (l.filter (fun x => k x = a)).getLast?

theorem lastFor_cons (k : α → κ) (a : κ) (x : α) (l : List α) :
    lastFor k a (x :: l) = (lastFor k a l).or (if k x = a then some x else none) := by
  by_cases hx : k x = a
  · cases h : l.filter (fun x => k x = a) with
    | nil => simp [lastFor, hx, h]
    | cons y ys => simp [lastFor, hx, h, List.getLast?_cons]
  · simp [lastFor, hx]

theorem lastFor_isSome {k : α → κ} {a : κ} {l : List α} :
    (lastFor k a l).isSome ↔ a ∈ l.map k := by
  induction l with
  | nil => simp [lastFor]
  | cons x l ih =>
    rw [lastFor_cons, Option.isSome_or, Bool.or_eq_true, ih, List.map_cons, List.mem_cons]
    by_cases hx : k x = a
    · simp [hx]
    · simp [hx, Ne.symm hx]

theorem lastFor_key {k : α → κ} {a : κ} {l : List α} {x : α} (h : lastFor k a l = some x) :
    k x = a := by
  have hx := List.mem_of_getLast? h
  simpa using (List.mem_filter.mp hx).2

theorem lastFor_eq_some_iff {k : α → κ} {a : κ} {l : List α} (hnd : (l.map k).Nodup) {x : α} :
    lastFor k a l = some x ↔ x ∈ l ∧ k x = a := by
  induction l with
  | nil => simp [lastFor]
  | cons y l ih =>
    rw [List.map_cons, List.nodup_cons] at hnd
    rw [lastFor_cons, Option.or_eq_some_iff, ih hnd.2, List.mem_cons]
    constructor
    · rintro (⟨hx, hk⟩ | ⟨-, hy⟩)
      · exact ⟨.inr hx, hk⟩
      · split_ifs at hy with hk
        cases hy
        exact ⟨.inl rfl, hk⟩
    · rintro ⟨rfl | hx, hk⟩
      · refine .inr ⟨?_, if_pos hk⟩
        cases hl : lastFor k a l with
        | none => rfl
        | some z =>
          have hmem : a ∈ l.map k := lastFor_isSome.mp (by rw [hl]; rfl)
          rw [← hk] at hmem
          exact absurd hmem hnd.1
      · exact .inl ⟨hx, hk⟩

theorem lastFor_perm {k : α → κ} {l l' : List α} (hnd : (l.map k).Nodup) (h : l.Perm l') (a : κ) :
    lastFor k a l = lastFor k a l' := by
  have hnd' : (l'.map k).Nodup := (h.map k).nodup hnd
  refine Option.ext fun x => ?_
  rw [lastFor_eq_some_iff hnd, lastFor_eq_some_iff hnd', h.mem_iff]

theorem lastFor_map_congr {β : Type*} {R : α → α → Prop} {k : α → κ} {v : α → β}
    (hk : ∀ x y, R x y → k x = k y) (hv : ∀ x y, R x y → v x = v y) {l l' : List α}
    (h : List.Forall₂ R l l') (a : κ) :
    (lastFor k a l).map v = (lastFor k a l').map v := by
  induction h with
  | nil => rfl
  | @cons x y l l' hxy _ ih =>
    rw [lastFor_cons, lastFor_cons, Option.map_or, Option.map_or, ih, hk x y hxy]
    split_ifs
    · rw [Option.map_some, Option.map_some, hv x y hxy]
    · rfl

theorem foldl_set_get {β : Type*} {n : Nat} (k : α → Fin n) (v : α → β) (l : List α)
    (t : Vector β n) (i : Fin n) :
    (l.foldl (fun t x => t.set (k x) (v x)) t)[i] = ((lastFor k i l).map v).getD t[i] := by
  induction l generalizing t with
  | nil => simp [lastFor]
  | cons x l ih =>
    rw [List.foldl_cons, ih, lastFor_cons]
    cases lastFor k i l with
    | some y => simp
    | none =>
      by_cases hx : k x = i
      · subst hx; simp
      · have hv : (k x : Nat) ≠ i := fun h => hx (Fin.ext h)
        simp [hx, Vector.getElem_set_ne _ _ hv]

end Writes

section Access
variable {κ β : Type*} [Ord κ] [TransOrd κ] {m : OrdMap κ β} {k : κ}

theorem mem_iff_get : k ∈ m ↔ ∃ v, m[k]? = some v := by
  rw [ExtTreeMap.mem_iff_isSome_getElem?, Option.isSome_iff_exists]

theorem get_none_iff : m[k]? = none ↔ k ∉ m := by
  rw [ExtTreeMap.mem_iff_isSome_getElem?]; simp

/-- The element that access by subscript finds or creates: the value under the key, after
inserting `d` there on a miss. -/
def slot (m : OrdMap κ β) (k : κ) (d : β) : β × OrdMap κ β :=
  match m[k]? with
  | some v => (v, m)
  | none => (d, m.insert k d)

theorem slot_of_get {v : β} (h : m[k]? = some v) (d : β) : slot m k d = (v, m) := by
  simp [slot, h]

theorem slot_of_notMem (h : k ∉ m) (d : β) : slot m k d = (d, m.insert k d) := by
  simp [slot, get_none_iff.mpr h]

theorem size_erase_of_mem (h : k ∈ m) : (m.erase k).size + 1 = m.size := by
  have hpos : m.size ≠ 0 := by
    intro h0
    rw [← ExtTreeMap.eq_empty_iff_size_eq_zero] at h0
    rw [h0] at h
    simp at h
  rw [ExtTreeMap.size_erase, if_pos (ExtTreeMap.contains_iff_mem.mpr h)]
  omega

theorem size_insert_of_notMem (h : k ∉ m) (v : β) : (m.insert k v).size = m.size + 1 := by
  rw [ExtTreeMap.size_insert, if_neg (mt ExtTreeMap.contains_iff_mem.mp h)]

theorem size_insert_of_mem (h : k ∈ m) (v : β) : (m.insert k v).size = m.size := by
  rw [ExtTreeMap.size_insert, if_pos (ExtTreeMap.contains_iff_mem.mpr h)]

theorem notMem_erase {a : κ} (h : k ∉ m) : k ∉ m.erase a :=
  mt ExtTreeMap.mem_of_mem_erase h

/-- What `begin` points to: the element under the least key. -/
def first (m : OrdMap κ β) : Option (κ × β) := m.toList.head?

theorem first_none_iff : first m = none ↔ m = ∅ := by
  rw [first, List.head?_eq_none_iff, ExtTreeMap.toList_eq_nil_iff]

end Access

section Maps
variable {κ β α : Type*} [Ord κ] [TransOrd κ] [LawfulEqOrd κ] {m : OrdMap κ β} {k : κ}

theorem mem_keys : k ∈ m.toList.map Prod.fst ↔ k ∈ m := by
  rw [List.mem_map, mem_iff_get]
  constructor
  · rintro ⟨p, hp, rfl⟩
    exact ⟨p.2, ExtTreeMap.mem_toList_iff_getElem?_eq_some.mp hp⟩
  · rintro ⟨v, hv⟩
    exact ⟨(k, v), ExtTreeMap.mem_toList_iff_getElem?_eq_some.mpr hv, rfl⟩

theorem mem_values {v : β} : v ∈ m.toList.map Prod.snd ↔ ∃ k : κ, m[k]? = some v := by
  rw [List.mem_map]
  constructor
  · rintro ⟨p, hp, rfl⟩
    exact ⟨p.1, ExtTreeMap.mem_toList_iff_getElem?_eq_some.mp hp⟩
  · rintro ⟨k, hk⟩
    exact ⟨(k, v), ExtTreeMap.mem_toList_iff_getElem?_eq_some.mpr hk, rfl⟩

theorem forall_get_iff {P : κ → β → Prop} :
    (∀ (k : κ) (v : β), m[k]? = some v → P k v) ↔ ∀ e ∈ m.toList, P e.1 e.2 := by
  constructor
  · exact fun h e he => h e.1 e.2 (ExtTreeMap.mem_toList_iff_getElem?_eq_some.mp he)
  · exact fun h k v hv => h (k, v) (ExtTreeMap.mem_toList_iff_getElem?_eq_some.mpr hv)

theorem nodup_keys (m : OrdMap κ β) : (m.toList.map Prod.fst).Nodup := by
  rw [List.Nodup, List.pairwise_map]
  refine (ExtTreeMap.distinct_keys_toList (t := m)).imp ?_
  intro a b h heq
  exact h (compare_eq_iff_eq.mpr heq)

theorem first_some {v : β} (h : first m = some (k, v)) :
    m[k]? = some v ∧ ∀ a ∈ m, a ≠ k → compare k a = .lt := by
  have hmem : (k, v) ∈ m.toList := List.mem_of_head? h
  refine ⟨ExtTreeMap.mem_toList_iff_getElem?_eq_some.mp hmem, fun a ha hne => ?_⟩
  obtain ⟨w, hw⟩ := mem_iff_get.mp ha
  have hin := ExtTreeMap.mem_toList_iff_getElem?_eq_some.mpr hw
  have hord := ExtTreeMap.ordered_keys_toList (t := m)
  cases hl : m.toList with
  | nil =>
    rw [hl] at hin
    exact absurd hin List.not_mem_nil
  | cons p rest =>
    rw [first, hl] at h
    cases h
    rw [hl] at hin hord
    cases List.mem_cons.mp hin with
    | inl heq => exact absurd (congrArg Prod.fst heq) hne
    | inr hrest => exact (List.pairwise_cons.mp hord).1 _ hrest

theorem notMem_insert {a : κ} (h : k ∉ m) (hne : a ≠ k) (v : β) : k ∉ m.insert a v := by
  intro hmem
  cases ExtTreeMap.mem_insert.mp hmem with
  | inl heq => exact hne (compare_eq_iff_eq.mp heq)
  | inr hold => exact h hold

variable [DecidableEq κ]

theorem get_insert (m : OrdMap κ β) (k a : κ) (v : β) :
    (m.insert k v)[a]? = if k = a then some v else m[a]? := by
  simp [ExtTreeMap.getElem?_insert]

theorem get_erase (m : OrdMap κ β) (k a : κ) :
    (m.erase k)[a]? = if k = a then none else m[a]? := by
  simp [ExtTreeMap.getElem?_erase]

theorem insertIfNew_of_notMem (h : k ∉ m) (v : β) : m.insertIfNew k v = m.insert k v := by
  apply ExtTreeMap.ext_getElem?
  intro a
  rw [ExtTreeMap.getElem?_insertIfNew, ExtTreeMap.getElem?_insert]
  simp [h]

theorem erase_insert_of_notMem {v : β} (h : k ∉ m) : (m.insert k v).erase k = m := by
  apply ExtTreeMap.ext_getElem?
  intro a
  by_cases hk : k = a
  · subst hk
    simp [get_none_iff.mpr h]
  · simp [get_erase, get_insert, hk]

/-- Filling a map in a loop leaves under each key the value of the last element with that key,
and the old value where there is none. -/
theorem foldl_insert_get (k : α → κ) (v : α → β) (l : List α) (m : OrdMap κ β) (a : κ) :
    (l.foldl (fun m x => m.insert (k x) (v x)) m)[a]? = ((lastFor k a l).map v).or m[a]? := by
  induction l generalizing m with
  | nil => simp [lastFor]
  | cons x l ih =>
    rw [List.foldl_cons, ih, get_insert, lastFor_cons]
    cases lastFor k a l with
    | some y => simp
    | none => by_cases hx : k x = a <;> simp [hx]

end Maps

section Pairs
variable {κ β : Type*} [Ord κ] [TransOrd κ] [Ord β] [TransOrd β] {m : OrdMap κ β}
  {n : OrdMap β κ} {k : κ} {b : β}

/-- Each map leads back to where the other came from. -/
def Inverses (m : OrdMap κ β) (n : OrdMap β κ) : Prop :=
  ∀ (k : κ) (b : β), m[k]? = some b ↔ n[b]? = some k

theorem Inverses.symm (h : Inverses m n) : Inverses n m := fun b k => (h k b).symm

variable [LawfulEqOrd κ] [DecidableEq κ]

theorem Inverses.not_insert (h : Inverses m n) (hk : k ∉ m) : ¬ Inverses (m.insert k b) n := by
  intro h'
  have hback : n[b]? = some k := (h' k b).mp (by rw [get_insert, if_pos rfl])
  exact hk (mem_iff_get.mpr ⟨b, (h k b).mpr hback⟩)

variable [LawfulEqOrd β] [DecidableEq β]

theorem Inverses.insert_iff (h : Inverses m n) :
    Inverses (m.insert k b) (n.insert b k) ↔
      (∀ b', m[k]? = some b' → b' = b) ∧ ∀ k', n[b]? = some k' → k' = k := by
  constructor
  · intro h'
    constructor
    · intro b' hb'
      by_contra hne
      have hold : (n.insert b k)[b']? = some k := by
        rw [get_insert, if_neg (Ne.symm hne)]
        exact (h k b').mp hb'
      have hnew := (h' k b').mpr hold
      rw [get_insert, if_pos rfl] at hnew
      cases hnew
      exact hne rfl
    · intro k' hk'
      by_contra hne
      have hold : (m.insert k b)[k']? = some b := by
        rw [get_insert, if_neg (Ne.symm hne)]
        exact (h k' b).mpr hk'
      have hnew := (h' k' b).mp hold
      rw [get_insert, if_pos rfl] at hnew
      cases hnew
      exact hne rfl
  · intro ⟨hk, hb⟩ k' b'
    rw [get_insert, get_insert]
    by_cases hkk : k = k'
    · by_cases hbb : b = b'
      · simp [hkk, hbb]
      · rw [if_pos hkk, if_neg hbb, ← h k' b', ← hkk]
        constructor
        · intro heq
          cases heq
          exact absurd rfl hbb
        · intro hold
          exact absurd (hk b' hold).symm hbb
    · by_cases hbb : b = b'
      · rw [if_neg hkk, if_pos hbb, h k' b', ← hbb]
        constructor
        · intro hold
          exact absurd (hb k' hold).symm hkk
        · intro heq
          cases heq
          exact absurd rfl hkk
      · rw [if_neg hkk, if_neg hbb]
        exact h k' b'

end Pairs

section Sums
variable {κ β : Type*} [Ord κ] [TransOrd κ] [LawfulEqOrd κ] {f g : β → Nat} {m : OrdMap κ β}
  {k : κ} {v : β}

def total (f : β → Nat) (m : OrdMap κ β) : Nat := (m.toList.map fun p => f p.2).sum

theorem nodup_toList (m : OrdMap κ β) : m.toList.Nodup := List.Nodup.of_map _ (nodup_keys m)

theorem total_congr (h : ∀ (k : κ) (v : β), m[k]? = some v → f v = g v) :
    total f m = total g m := by
  rw [total, total]
  congr 1
  refine List.map_congr_left fun p hp => ?_
  exact h p.1 p.2 (ExtTreeMap.mem_toList_iff_getElem?_eq_some.mp hp)

variable [DecidableEq κ]

theorem toList_insert_perm (h : k ∉ m) (v : β) :
    (m.insert k v).toList.Perm ((k, v) :: m.toList) := by
  have hnew : (k, v) ∉ m.toList := by
    rw [ExtTreeMap.mem_toList_iff_getElem?_eq_some, get_none_iff.mpr h]
    simp
  rw [List.perm_ext_iff_of_nodup (nodup_toList _) (List.nodup_cons.mpr ⟨hnew, nodup_toList m⟩)]
  intro (a, b)
  rw [List.mem_cons, ExtTreeMap.mem_toList_iff_getElem?_eq_some,
    ExtTreeMap.mem_toList_iff_getElem?_eq_some, get_insert]
  split_ifs with hk
  · subst hk
    simp [get_none_iff.mpr h, eq_comm]
  · simp [Ne.symm hk]

theorem total_insert_of_notMem (h : k ∉ m) (v : β) :
    total f (m.insert k v) = total f m + f v := by
  rw [total, ((toList_insert_perm h v).map _).sum_eq, List.map_cons, List.sum_cons, Nat.add_comm]
  rfl

theorem insert_erase_of_get (h : m[k]? = some v) : (m.erase k).insert k v = m := by
  apply ExtTreeMap.ext_getElem?
  intro a
  rw [get_insert, get_erase]
  split_ifs with ha
  · rw [← ha, h]
  · rfl

theorem total_erase (h : m[k]? = some v) : total f (m.erase k) + f v = total f m := by
  have hk : k ∉ m.erase k := by simp
  rw [← total_insert_of_notMem hk v, insert_erase_of_get h]

theorem insert_erase (m : OrdMap κ β) (k : κ) (v : β) :
    (m.erase k).insert k v = m.insert k v := by
  apply ExtTreeMap.ext_getElem?
  intro a
  rw [get_insert, get_insert, get_erase]
  split_ifs <;> rfl

theorem total_insert_iff {v : β} (hv : f v = 0) :
    total f (m.insert k v) = total f m ↔ ∀ b, m[k]? = some b → f b = 0 := by
  have hk : k ∉ m.erase k := by simp
  rw [← insert_erase, total_insert_of_notMem hk, hv, Nat.add_zero]
  cases h : m[k]? with
  | none =>
    have hsame : m.erase k = m := by
      apply ExtTreeMap.ext_getElem?
      intro a
      rw [get_erase]
      split_ifs with ha
      · rw [← ha, h]
      · rfl
    simp [hsame]
  | some b =>
    have herase := total_erase (f := f) h
    constructor
    · intro heq b' hb'
      cases hb'
      omega
    · intro hz
      rw [hz b rfl] at herase
      omega

theorem total_change (h : m[k]? = some v)
    (hfg : ∀ (a : κ) (b : β), a ≠ k → m[a]? = some b → f b = g b) :
    total g m + f v = total f m + g v := by
  have hrest : total f (m.erase k) = total g (m.erase k) := by
    refine total_congr fun a b hab => ?_
    rw [get_erase] at hab
    split_ifs at hab with ha
    exact hfg a b (Ne.symm ha) hab
  have hf := total_erase (f := f) h
  have hg := total_erase (f := g) h
  omega

end Sums

end LazyNet.Tables
