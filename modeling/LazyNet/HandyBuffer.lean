import LazyNet.Lib.Words

/-! The byte buffer of handy: one allocation with a read offset and a write offset, which
makes room by moving its bytes to the front or into a larger allocation. -/
namespace LazyNet.HandyBuffer
open LazyNet.Words

structure Buffer where
  buf_ : List UInt8 := []
  b_ : Nat := 0
  e_ : Nat := 0
  cap_ : Nat := 0
  exp_ : Nat := 512
  deriving DecidableEq, Repr

namespace Buffer

def size (x : Buffer) : Nat := offsetDiff x.e_ x.b_
def empty (x : Buffer) : Bool := x.e_ == x.b_
def space (x : Buffer) : Nat := offsetDiff x.cap_ x.e_
def clear (x : Buffer) : Buffer := { x with buf_ := [], cap_ := 0, b_ := 0, e_ := 0 }
def addSize (x : Buffer) (len : Nat) : Buffer := { x with e_ := x.e_ + len }

def content (x : Buffer) : List UInt8 := (x.buf_.take x.e_).drop x.b_

def moveHead (x : Buffer) : Buffer :=
  { x with buf_ := x.content ++ x.buf_.drop x.content.length, e_ := x.size, b_ := 0 }

/-- Copy the content to the start of a new allocation. The bytes after it are left as they
come from `new`; no reader gets to them before they are written. -/
def expand (x : Buffer) (len : Nat) : Buffer :=
  let ncap := max x.exp_ (max (2 * x.cap_) (x.size + len))
  { x with
    buf_ := x.content ++ List.replicate (ncap - x.content.length) 0
    e_ := x.size
    b_ := 0
    cap_ := ncap }

def makeRoom (x : Buffer) (len : Nat) : Buffer :=
  if x.e_ + len ≤ x.cap_ then x
  else if x.size + len < x.cap_ / 2 then x.moveHead
  else x.expand len

/-- The overload of `makeRoom` that `handleRead` calls: room for one more read. -/
def makeReadRoom (x : Buffer) : Buffer := if x.space < x.exp_ then x.expand 0 else x

def write (x : Buffer) (p : Nat) (bytes : List UInt8) : Buffer :=
  { x with buf_ := x.buf_.take p ++ bytes ++ x.buf_.drop (p + bytes.length) }

def append (x : Buffer) (bytes : List UInt8) : Buffer :=
  let r := x.makeRoom bytes.length
  (r.addSize bytes.length).write r.e_ bytes

def appendValue (x : Buffer) (v : UInt32) : Buffer := x.append (store32 v)

def consume (x : Buffer) (len : Nat) : Buffer :=
  let x := { x with b_ := x.b_ + len }
  if x.size = 0 then x.clear else x

/-- Both buffers after `absorb`. An empty one takes over the allocation of the other, and each
keeps its own `exp_`. -/
def absorb (x buf : Buffer) : Buffer × Buffer :=
  if x.size = 0 then ({ buf with exp_ := x.exp_ }, { x with exp_ := buf.exp_ })
  else (x.append buf.content, buf.clear)

/-- The memory around the allocation as a reader sees it. From `end()` on the bytes are not
the buffer's; whatever is found there is given by `junk`, counted from `end()`. -/
def mem (x : Buffer) (junk : Nat → UInt8) : Nat → UInt8 := spill (x.buf_.take x.e_) junk

/-- The offsets are in order and the storage has the size that is recorded for it. -/
structure Ok (x : Buffer) : Prop where
  b_le : x.b_ ≤ x.e_
  e_le : x.e_ ≤ x.cap_
  storage : x.buf_.length = x.cap_

theorem ok_default : Ok {} := ⟨Nat.le_refl 0, Nat.le_refl 0, rfl⟩

theorem Ok.size_eq {x : Buffer} (h : x.Ok) : x.size = x.e_ - x.b_ := offsetDiff_of_le h.b_le

theorem Ok.content_length {x : Buffer} (h : x.Ok) : x.content.length = x.size := by
  have he := h.e_le
  have hs := h.storage
  simp only [content, List.length_drop, List.length_take, h.size_eq]
  omega

theorem Ok.empty_iff {x : Buffer} (h : x.Ok) : x.empty = true ↔ x.content = [] := by
  have hb := h.b_le
  rw [← List.length_eq_zero_iff, h.content_length, h.size_eq]
  simp only [empty, beq_iff_eq]
  omega

theorem Ok.moveHead {x : Buffer} (h : x.Ok) : x.moveHead.Ok := by
  have hb := h.b_le
  have he := h.e_le
  have hs := h.storage
  have hl := h.content_length
  rw [h.size_eq] at hl
  refine ⟨Nat.zero_le _, ?_, ?_⟩
  · simp only [Buffer.moveHead, h.size_eq]; omega
  · simp only [Buffer.moveHead, List.length_append, List.length_drop, hl]; omega

theorem Ok.content_moveHead {x : Buffer} (h : x.Ok) : x.moveHead.content = x.content := by
  have hl := h.content_length
  conv_lhs => rw [content]
  simp [Buffer.moveHead, ← hl]

theorem Ok.expand {x : Buffer} (h : x.Ok) (len : Nat) : (x.expand len).Ok := by
  have hl := h.content_length
  refine ⟨Nat.zero_le _, ?_, ?_⟩
  · simp only [Buffer.expand]; omega
  · simp only [Buffer.expand, List.length_append, List.length_replicate, hl]; omega

theorem Ok.content_expand {x : Buffer} (h : x.Ok) (len : Nat) :
    (x.expand len).content = x.content := by
  have hl := h.content_length
  conv_lhs => rw [content]
  simp [Buffer.expand, ← hl]

theorem Ok.makeRoom {x : Buffer} (h : x.Ok) (len : Nat) :
    (x.makeRoom len).Ok ∧ (x.makeRoom len).content = x.content ∧
      (x.makeRoom len).e_ + len ≤ (x.makeRoom len).cap_ := by
  unfold Buffer.makeRoom
  split_ifs with hin hmove
  · exact ⟨h, rfl, hin⟩
  · refine ⟨h.moveHead, h.content_moveHead, ?_⟩
    simp only [Buffer.moveHead]; omega
  · refine ⟨h.expand len, h.content_expand len, ?_⟩
    simp only [Buffer.expand]; omega

theorem Ok.makeReadRoom {x : Buffer} (h : x.Ok) :
    x.makeReadRoom.Ok ∧ x.makeReadRoom.content = x.content := by
  unfold Buffer.makeReadRoom
  split_ifs
  · exact ⟨h.expand 0, h.content_expand 0⟩
  · exact ⟨h, rfl⟩

theorem Ok.write_end {x : Buffer} (h : x.Ok) {bytes : List UInt8}
    (hroom : x.e_ + bytes.length ≤ x.cap_) :
    ((x.addSize bytes.length).write x.e_ bytes).Ok ∧
      ((x.addSize bytes.length).write x.e_ bytes).content = x.content ++ bytes := by
  have hb := h.b_le
  have hs := h.storage
  have htake : (x.buf_.take x.e_).length = x.e_ := by rw [List.length_take]; omega
  constructor
  · refine ⟨?_, hroom, ?_⟩
    · simp only [write, addSize]; omega
    · simp only [write, addSize, List.length_append, List.length_take, List.length_drop]; omega
  · have hfront : (x.buf_.take x.e_ ++ bytes ++ x.buf_.drop (x.e_ + bytes.length)).take
        (x.e_ + bytes.length) = x.buf_.take x.e_ ++ bytes := by
      rw [List.take_left' (by rw [List.length_append, htake])]
    simp only [content, write, addSize, hfront]
    rw [List.drop_append_of_le_length (by omega)]

theorem Ok.append {x : Buffer} (h : x.Ok) (bytes : List UInt8) :
    (x.append bytes).Ok ∧ (x.append bytes).content = x.content ++ bytes := by
  obtain ⟨hok, hc, hroom⟩ := h.makeRoom bytes.length
  have hw := hok.write_end hroom
  rw [hc] at hw
  exact hw

theorem Ok.write {x : Buffer} (h : x.Ok) {k : Nat} {bytes : List UInt8}
    (hk : k + bytes.length ≤ x.size) :
    (x.write (x.b_ + k) bytes).Ok ∧ (x.write (x.b_ + k) bytes).content =
      x.content.take k ++ bytes ++ x.content.drop (k + bytes.length) := by
  have hb := h.b_le
  have he := h.e_le
  have hs := h.storage
  rw [h.size_eq] at hk
  constructor
  · refine ⟨hb, he, ?_⟩
    simp only [Buffer.write, List.length_append, List.length_take, List.length_drop]
    omega
  · apply List.ext_getElem?
    intro i
    simp only [content, Buffer.write, List.getElem?_drop, List.getElem?_take,
      List.getElem?_append, List.length_append, List.length_take, List.length_drop]
    grind

theorem Ok.write_over {x : Buffer} (h : x.Ok) {u old v bytes : List UInt8}
    (hc : x.content = u ++ (old ++ v)) (hlen : bytes.length = old.length) :
    (x.write (x.b_ + u.length) bytes).Ok ∧
      (x.write (x.b_ + u.length) bytes).content = u ++ (bytes ++ v) := by
  have hroom : u.length + bytes.length ≤ x.size := by
    rw [← h.content_length, hc, List.length_append, List.length_append]
    omega
  obtain ⟨hok, hw⟩ := h.write hroom
  have hdrop : x.content.drop (u.length + bytes.length) = v := by
    rw [hc, ← List.append_assoc]
    exact List.drop_left' (by rw [List.length_append, hlen])
  refine ⟨hok, ?_⟩
  rw [hw, hdrop, hc, List.take_left, List.append_assoc]

theorem Ok.consume {x : Buffer} (h : x.Ok) {len : Nat} (hlen : len ≤ x.size) :
    (x.consume len).Ok ∧ (x.consume len).content = x.content.drop len := by
  have hb := h.b_le
  have he := h.e_le
  have hs := h.storage
  have hl := h.content_length
  rw [h.size_eq] at hlen hl
  have hnew : ({ x with b_ := x.b_ + len } : Buffer).size = x.e_ - x.b_ - len := by
    simp only [size]
    rw [offsetDiff_of_le (by omega)]
    omega
  simp only [Buffer.consume, hnew]
  split_ifs with hz
  · refine ⟨⟨Nat.le_refl 0, Nat.le_refl 0, rfl⟩, ?_⟩
    rw [List.drop_eq_nil_of_le (by omega)]
    rfl
  · refine ⟨⟨?_, he, hs⟩, ?_⟩
    · simp only; omega
    · simp only [content, List.drop_drop]

theorem Ok.size_consume {x : Buffer} (h : x.Ok) {len : Nat} (hlen : len ≤ x.size) :
    (x.consume len).size = x.size - len := by
  obtain ⟨hok, hc⟩ := h.consume hlen
  rw [← hok.content_length, hc, List.length_drop, h.content_length]

theorem Ok.size_eq_zero {x : Buffer} (h : x.Ok) : x.size = 0 ↔ x.content = [] := by
  rw [← h.content_length, List.length_eq_zero_iff]

theorem Ok.absorb {x buf : Buffer} (h : x.Ok) (hbuf : buf.Ok) :
    ((x.absorb buf).1.Ok ∧ (x.absorb buf).1.content = x.content ++ buf.content) ∧
      (x.absorb buf).2.Ok ∧ (x.absorb buf).2.content = [] := by
  rw [Buffer.absorb]
  split_ifs with hz
  · have hnone : x.content = [] := h.size_eq_zero.mp hz
    rw [hnone]
    exact ⟨⟨⟨hbuf.b_le, hbuf.e_le, hbuf.storage⟩, rfl⟩, ⟨h.b_le, h.e_le, h.storage⟩, hnone⟩
  · exact ⟨h.append buf.content, ⟨Nat.le_refl 0, Nat.le_refl 0, rfl⟩, rfl⟩

theorem Ok.mem_eq {x : Buffer} (h : x.Ok) (junk : Nat → UInt8) {k : Nat} (hk : k ≤ x.size)
    (i : Nat) : x.mem junk (x.b_ + k + i) = spill (x.content.drop k) junk i := by
  have hb := h.b_le
  have he := h.e_le
  have hs := h.storage
  rw [h.size_eq] at hk
  have hle : x.b_ + k ≤ (x.buf_.take x.e_).length := by rw [List.length_take]; omega
  rw [mem, spill_drop hle, content, List.drop_drop]

end Buffer
end LazyNet.HandyBuffer
