import Mathlib.Algebra.GroupWithZero.Nat
import Mathlib.Data.List.Basic
import Mathlib.Tactic.Common

/-! Machine words in memory on a little-endian host, the byte swap to network
order, and reads that may run past the bytes that are known to be there. -/
namespace LazyNet.Words

/-- The difference of two `size_t` offsets into one allocation; it wraps when the second one
lies beyond the first. -/
def offsetDiff (e b : Nat) : Nat := if b ≤ e then e - b else 2 ^ 64 - (b - e)

theorem offsetDiff_of_le {e b : Nat} (h : b ≤ e) : offsetDiff e b = e - b := by
  simp [offsetDiff, h]

def store16 (v : UInt16) : List UInt8 := [v.toUInt8, (v / 256).toUInt8]

def load16 (b0 b1 : UInt8) : UInt16 := b0.toUInt16 + 256 * b1.toUInt16

def store32 (v : UInt32) : List UInt8 :=
  [v.toUInt8, (v / 256).toUInt8, (v / 65536).toUInt8, (v / 16777216).toUInt8]

def load32 (b0 b1 b2 b3 : UInt8) : UInt32 :=
  b0.toUInt32 + 256 * b1.toUInt32 + 65536 * b2.toUInt32 + 16777216 * b3.toUInt32

/-- Host order to network order; the same swap serves both directions. -/
def htonl (v : UInt32) : UInt32 :=
  load32 (v / 16777216).toUInt8 (v / 65536).toUInt8 (v / 256).toUInt8 v.toUInt8

def stringBytes (s : String) : List UInt8 := s.toList.map fun c => UInt8.ofNat c.toNat

def loadAt (mem : Nat → UInt8) (p : Nat) : UInt32 :=
  load32 (mem p) (mem (p + 1)) (mem (p + 2)) (mem (p + 3))

def Holds (mem : Nat → UInt8) (p : Nat) (bytes : List UInt8) : Prop :=
  ∀ i, (hi : i < bytes.length) → mem (p + i) = bytes[i]

@[simp] theorem store16_length (v : UInt16) : (store16 v).length = 2 := rfl

theorem load16_store (v : UInt16) : load16 v.toUInt8 (v / 256).toUInt8 = v := by
  have h := v.toNat_lt
  apply UInt16.toNat_inj.mp
  simp only [load16, UInt16.toNat_add, UInt16.toNat_mul, UInt8.toNat_toUInt16,
    UInt16.toNat_toUInt8, UInt16.toNat_div, UInt16.reduceToNat]
  omega

@[simp] theorem store32_length (v : UInt32) : (store32 v).length = 4 := rfl

theorem load32_toNat (b0 b1 b2 b3 : UInt8) :
    (load32 b0 b1 b2 b3).toNat =
      b0.toNat + 256 * b1.toNat + 65536 * b2.toNat + 16777216 * b3.toNat := by
  have h0 := b0.toNat_lt
  have h1 := b1.toNat_lt
  have h2 := b2.toNat_lt
  have h3 := b3.toNat_lt
  simp only [load32, UInt32.toNat_add, UInt32.toNat_mul, UInt8.toNat_toUInt32,
    UInt32.reduceToNat]
  omega

theorem load32_store (v : UInt32) :
    load32 v.toUInt8 (v / 256).toUInt8 (v / 65536).toUInt8 (v / 16777216).toUInt8 = v := by
  have h := v.toNat_lt
  apply UInt32.toNat_inj.mp
  simp only [load32_toNat, UInt32.toNat_toUInt8, UInt32.toNat_div, UInt32.reduceToNat]
  omega

theorem holds_append {mem : Nat → UInt8} {p : Nat} {u v : List UInt8} :
    Holds mem p (u ++ v) ↔ Holds mem p u ∧ Holds mem (p + u.length) v := by
  constructor
  · intro h
    constructor
    · intro i hi
      rw [h i (by rw [List.length_append]; omega), List.getElem_append_left hi]
    · intro i hi
      rw [Nat.add_assoc, h (u.length + i) (by rw [List.length_append]; omega),
        List.getElem_append_right (by omega)]
      simp only [Nat.add_sub_cancel_left]
  · intro h i hi
    by_cases hu : i < u.length
    · rw [h.1 i hu, List.getElem_append_left hu]
    · have hv := h.2 (i - u.length) (by rw [List.length_append] at hi; omega)
      rw [List.getElem_append_right (by omega), ← hv]
      congr 1
      omega

theorem loadAt_of_holds {mem : Nat → UInt8} {p : Nat} {v : UInt32}
    (h : Holds mem p (store32 v)) : loadAt mem p = v := by
  have h0 := h 0 (by simp)
  have h1 := h 1 (by simp)
  have h2 := h 2 (by simp)
  have h3 := h 3 (by simp)
  simp only [store32, List.getElem_cons_zero, List.getElem_cons_succ, Nat.add_zero] at h0 h1 h2 h3
  rw [loadAt, h0, h1, h2, h3, load32_store]

theorem store_load32 (b0 b1 b2 b3 : UInt8) :
    store32 (load32 b0 b1 b2 b3) = [b0, b1, b2, b3] := by
  have h0 := b0.toNat_lt
  have h1 := b1.toNat_lt
  have h2 := b2.toNat_lt
  have h3 := b3.toNat_lt
  simp only [store32, List.cons.injEq, ← UInt8.toNat_inj, UInt32.toNat_toUInt8, UInt32.toNat_div,
    load32_toNat, UInt32.reduceToNat, and_true]
  omega

theorem htonl_htonl (v : UInt32) : htonl (htonl v) = v := by
  have h := store_load32 (v / 16777216).toUInt8 (v / 65536).toUInt8 (v / 256).toUInt8 v.toUInt8
  simp only [store32, List.cons.injEq, and_true] at h
  obtain ⟨h0, h1, h2, h3⟩ := h
  rw [htonl, htonl, h0, h1, h2, h3, load32_store]

/-- What a reader finds from the start of `known` on: the known bytes, and past them
whatever `junk` holds. -/
def spill (known : List UInt8) (junk : Nat → UInt8) (i : Nat) : UInt8 :=
  known.getD i (junk (i - known.length))

theorem spill_of_lt {known : List UInt8} {junk : Nat → UInt8} {i : Nat} (h : i < known.length) :
    spill known junk i = known[i] := by
  simp [spill, h]

theorem holds_spill (known more : List UInt8) (junk : Nat → UInt8) :
    Holds (spill (known ++ more) junk) 0 known := by
  intro i hi
  rw [Nat.zero_add, spill_of_lt (by rw [List.length_append]; omega),
    List.getElem_append_left hi]

theorem spill_drop {known : List UInt8} {junk : Nat → UInt8} {k : Nat} (hk : k ≤ known.length)
    (i : Nat) : spill known junk (k + i) = spill (known.drop k) junk i := by
  have hsub : k + i - known.length = i - (known.drop k).length := by
    simp only [List.length_drop]; omega
  simp only [spill, List.getD_eq_getElem?_getD, List.getElem?_drop, hsub]

theorem counter_succ_iff {c : UInt64} : (c + 1).toNat = c.toNat + 1 ↔ c + 1 ≠ 0 := by
  have hlt := c.toNat_lt
  rw [Ne, ← UInt64.toNat_inj, UInt64.toNat_add]
  simp only [UInt64.reduceToNat]
  omega

theorem counter_succ_ne (c : UInt64) : (c + 1).toNat ≠ c.toNat := by
  have hlt := c.toNat_lt
  rw [UInt64.toNat_add]
  simp only [UInt64.reduceToNat]
  omega

theorem counter_ne_zero {c : UInt64} (h : 0 < c.toNat) : c ≠ 0 := by
  intro hzero
  rw [hzero] at h
  exact Nat.lt_irrefl 0 h

theorem counter_pred {c : UInt64} (h : c ≠ 0) : (c - 1).toNat + 1 = c.toNat := by
  have hlt := c.toNat_lt
  rw [Ne, ← UInt64.toNat_inj] at h
  rw [UInt64.toNat_sub]
  simp only [UInt64.reduceToNat] at h ⊢
  omega

theorem counter_pred_ne (c : UInt64) : (c - 1).toNat ≠ c.toNat := by
  have hlt := c.toNat_lt
  rw [UInt64.toNat_sub]
  simp only [UInt64.reduceToNat]
  omega

end LazyNet.Words
