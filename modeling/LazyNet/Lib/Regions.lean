import LazyNet.Lib.Words

/-! The memory around an allocation, addressed from the start of the allocation, and which
addresses have been written. -/
namespace LazyNet.Regions
open LazyNet.Words

structure Region where
  bytes : Int → UInt8
  /-- the addresses written since the record was last cleared -/
  written : List Int

namespace Region

def write (m : Region) (p : Int) (data : List UInt8) : Region where
  bytes i := if p ≤ i then data.getD (i - p).toNat (m.bytes i) else m.bytes i
  written := m.written ++ (List.range data.length).map fun (k : Nat) => p + k

def clearRecord (m : Region) : Region := { m with written := [] }

def slice (m : Region) (n : Nat) : List UInt8 := (List.range n).map fun (i : Nat) => m.bytes i

theorem mem_written_write {m : Region} {p i : Int} {data : List UInt8} :
    i ∈ (m.write p data).written ↔ i ∈ m.written ∨ p ≤ i ∧ i < p + data.length := by
  simp only [write, List.mem_append, List.mem_map, List.mem_range]
  refine or_congr_right ⟨fun ⟨k, hk, h⟩ => by omega, fun h => ⟨(i - p).toNat, ?_, ?_⟩⟩ <;> omega

theorem slice_congr {m m' : Region} {n : Nat} (h : m.bytes = m'.bytes) :
    m.slice n = m'.slice n := by
  simp only [slice, h]

theorem slice_write_above {m : Region} {n p : Nat} (h : n ≤ p) (data : List UInt8) :
    (m.write p data).slice n = m.slice n := by
  refine List.map_congr_left fun i hi => ?_
  have hlt : ¬ (p : Int) ≤ (i : Int) := by
    have := List.mem_range.mp hi
    omega
  simp only [write, if_neg hlt]

theorem slice_write (m : Region) (p : Nat) (data : List UInt8) :
    (m.write p data).slice (p + data.length) = m.slice p ++ data := by
  rw [slice, List.range_add, List.map_append]
  congr 1
  · exact slice_write_above (Nat.le_refl p) data
  · apply List.ext_getElem
    · simp
    · intro i hi hd
      simp [write, hd]

theorem write_comm {m : Region} {p q : Int} {u v : List UInt8} (h : p + u.length ≤ q) :
    ((m.write q v).write p u).bytes = ((m.write p u).write q v).bytes := by
  funext i
  simp only [write]
  by_cases hq : q ≤ i
  · have hp : p ≤ i := by omega
    have hu : u.length ≤ (i - p).toNat := by omega
    simp only [hq, hp, if_true]
    simp only [List.getD_eq_getElem?_getD, List.getElem?_eq_none hu, Option.getD_none]
  · simp only [hq, if_false]

end Region

end LazyNet.Regions
