import LazyNet.Lib.Regions
import LazyNet.Lib.StepRuns

/-! The store buffer of a session and its read callback: datagrams are received in place behind
a length word, and a full buffer is swapped for the next one. -/
namespace LazyNet.StreamBuffer
open LazyNet.Words LazyNet.Regions LazyNet.StepRuns

def BUFSIZE : Nat := 10 * 1024 * 1024
def LOWATER : Nat := 1470
def kUdpPacketSize : Nat := 4096

structure StreamBuf where
  buf_ : Region
  next_ : Region
  b_ : Nat := 2
  e_ : Nat := BUFSIZE

namespace StreamBuf

def cap (x : StreamBuf) : Nat := offsetDiff x.e_ x.b_

def consume (x : StreamBuf) (len : Nat) : StreamBuf :=
  { x with
    buf_ := x.buf_.write ((x.b_ : Int) - 2) (store16 (UInt16.ofNat len))
    b_ := (x.b_ + len + 2) % 2 ^ 64 }

def isFull (x : StreamBuf) : Bool := x.cap < LOWATER

def resetBuf (x : StreamBuf) : StreamBuf :=
  { x with buf_ := x.next_.clearRecord, next_ := x.buf_, b_ := 0 }

end StreamBuf

/-- What `recvfrom` can deliver: it cuts a datagram to the size it was asked for. -/
structure Datagram where
  bytes : List UInt8
  len_le : bytes.length ≤ kUdpPacketSize

namespace Datagram

def rn (d : Datagram) : Nat := d.bytes.length

def record (d : Datagram) : List UInt8 := store16 (UInt16.ofNat d.rn) ++ d.bytes

end Datagram

/-- The result of one `recvfrom`, `none` where it fails. -/
abbrev Receive := Option Datagram

structure Recording where
  buf_ : StreamBuf
  sinceSwap : List Datagram

/-- The callback up to `buf_.consume(rn)`. -/
def receive (a : Receive) (x : Recording) : Recording :=
  match a with
  | none => x
  | some d =>
    let buf := { x.buf_ with buf_ := x.buf_.buf_.write x.buf_.b_ d.bytes }
    { buf_ := buf.consume d.rn, sinceSwap := x.sinceSwap ++ [d] }

def onRead (a : Receive) (x : Recording) : Recording :=
  match a with
  | none => x
  | some d =>
    let y := receive (some d) x
    if y.buf_.isFull then { buf_ := y.buf_.resetBuf, sinceSwap := [] } else y

/-- A new session, with anything in the memory of its two allocations. -/
def fresh (mem next : Int → UInt8) : Recording :=
  { buf_ := { buf_ := ⟨mem, []⟩, next_ := ⟨next, []⟩ }, sinceSwap := [] }

def after (x : Recording) (u : List Receive) : Recording := u.foldl (fun x a => onRead a x) x

def taken : Receive → Nat
  | none => 0
  | some d => d.rn + 2

def used (u : List Receive) : Nat := (u.map taken).sum

def records (ds : List Datagram) : List UInt8 := ds.flatMap Datagram.record

def readRecords : Nat → List UInt8 → List (List UInt8)
  | fuel + 1, b0 :: b1 :: rest =>
    let len := (load16 b0 b1).toNat
    rest.take len :: readRecords fuel (rest.drop len)
  | _, _ => []

theorem Datagram.record_eq (d : Datagram) : d.record = (UInt16.ofNat d.rn).toUInt8 ::
    (UInt16.ofNat d.rn / 256).toUInt8 :: d.bytes := by
  simp [record, store16]

theorem Datagram.toNat_rn (d : Datagram) : (UInt16.ofNat d.rn).toNat = d.bytes.length := by
  have h := d.len_le
  rw [kUdpPacketSize] at h
  rw [UInt16.toNat_ofNat', rn]
  omega

theorem length_le_records (ds : List Datagram) : ds.length ≤ (records ds).length := by
  induction ds with
  | nil => simp
  | cons d ds ih =>
    simp only [records, List.flatMap_cons, List.length_append, List.length_cons,
      d.record_eq] at ih ⊢
    omega

theorem readRecords_records {ds : List Datagram} {fuel : Nat} (h : ds.length ≤ fuel) :
    readRecords fuel (records ds) = ds.map Datagram.bytes := by
  induction ds generalizing fuel with
  | nil => cases fuel <;> rfl
  | cons d ds ih =>
    obtain ⟨fuel, rfl⟩ : ∃ n, fuel = n + 1 := ⟨fuel - 1, by simp at h; omega⟩
    have hbytes : records (d :: ds) = (UInt16.ofNat d.rn).toUInt8 ::
        (UInt16.ofNat d.rn / 256).toUInt8 :: (d.bytes ++ records ds) := by
      simp [records, d.record_eq]
    rw [hbytes, readRecords, load16_store, d.toNat_rn, List.take_left, List.drop_left,
      ih (by simpa using h), List.map_cons]

theorem used_snoc (u : List Receive) (a : Receive) : used (u ++ [a]) = used u + taken a := by
  simp [used]

theorem after_snoc (x : Recording) (u : List Receive) (a : Receive) :
    after x (u ++ [a]) = onRead a (after x u) := by
  simp [after]

/-- The records of the datagrams since the swap fill the buffer up to the next length word,
reading them gives the datagrams, and nothing was written outside the allocation. -/
structure Framed (x : Recording) : Prop where
  inside : ∀ i ∈ x.buf_.buf_.written, 0 ≤ i ∧ i < x.buf_.e_
  content : x.buf_.buf_.slice (x.buf_.b_ - 2) = records x.sinceSwap
  readBack : readRecords (x.buf_.b_ - 2) (x.buf_.buf_.slice (x.buf_.b_ - 2)) =
    x.sinceSwap.map Datagram.bytes

theorem framed_of {x : Recording} (hin : ∀ i ∈ x.buf_.buf_.written, 0 ≤ i ∧ i < x.buf_.e_)
    (hc : x.buf_.buf_.slice (x.buf_.b_ - 2) = records x.sinceSwap) : Framed x := by
  refine ⟨hin, hc, ?_⟩
  have hlen : (records x.sinceSwap).length = x.buf_.b_ - 2 := by
    rw [← hc]; simp [Region.slice]
  rw [hc]
  exact readRecords_records (hlen ▸ length_le_records _)

theorem framed_fresh (mem next : Int → UInt8) : Framed (fresh mem next) :=
  framed_of (fun i hi => absurd hi (by simp [fresh])) rfl

theorem framed_swapped {x : StreamBuf} : Framed { buf_ := x.resetBuf, sinceSwap := [] } :=
  framed_of (fun i hi => absurd hi (by simp [StreamBuf.resetBuf, Region.clearRecord])) rfl

section Receive
variable {x : Recording} {d : Datagram}

theorem receive_b (h : x.buf_.b_ + d.rn + 2 < 2 ^ 64) :
    (receive (some d) x).buf_.b_ = x.buf_.b_ + d.rn + 2 := Nat.mod_eq_of_lt h

theorem mem_written_receive {i : Int} : i ∈ (receive (some d) x).buf_.buf_.written ↔
    i ∈ x.buf_.buf_.written ∨ (x.buf_.b_ : Int) - 2 ≤ i ∧ i < x.buf_.b_ + d.rn := by
  have hjoin : (x.buf_.b_ : Int) - 2 ≤ i ∧ i < x.buf_.b_ + d.rn ↔
      (x.buf_.b_ : Int) ≤ i ∧ i < x.buf_.b_ + d.bytes.length ∨
        (x.buf_.b_ : Int) - 2 ≤ i ∧ i < (x.buf_.b_ : Int) - 2 + (2 : Nat) := by
    rw [Datagram.rn]
    omega
  simp only [receive, StreamBuf.consume, Region.mem_written_write, store16_length]
  rw [hjoin, or_assoc]

theorem receive_framed (hx : Framed x) (hb : 2 ≤ x.buf_.b_)
    (hlt : x.buf_.b_ + d.rn + 2 < 2 ^ 64) (hfit : x.buf_.b_ + d.rn ≤ x.buf_.e_) :
    Framed (receive (some d) x) := by
  apply framed_of
  · intro i hi
    cases mem_written_receive.mp hi with
    | inl hold => exact hx.inside i hold
    | inr hnew =>
      have he : (receive (some d) x).buf_.e_ = x.buf_.e_ := rfl
      omega
  · have hword : ((x.buf_.b_ : Int) - 2) = ((x.buf_.b_ - 2 : Nat) : Int) := by omega
    have hcomm := Region.write_comm (m := x.buf_.buf_) (p := ((x.buf_.b_ - 2 : Nat) : Int))
      (q := x.buf_.b_) (u := store16 (UInt16.ofNat d.rn)) (v := d.bytes)
      (by rw [store16_length]; omega)
    have hslice := Region.slice_write x.buf_.buf_ (x.buf_.b_ - 2) (store16 (UInt16.ofNat d.rn))
    rw [store16_length, Nat.sub_add_cancel hb, hx.content] at hslice
    rw [receive_b hlt, Nat.add_sub_cancel]
    simp only [receive, StreamBuf.consume, hword]
    rw [Region.slice_congr hcomm, Datagram.rn, Region.slice_write, ← Datagram.rn, hslice]
    simp [records, Datagram.record]

theorem isFull_of_le {x : StreamBuf} (h : x.b_ ≤ x.e_) :
    x.isFull = true ↔ x.e_ - x.b_ < LOWATER := by
  simp [StreamBuf.isFull, StreamBuf.cap, offsetDiff_of_le h]

/-- Past the end the room wraps around and looks large. -/
theorem isFull_of_gt {x : StreamBuf} (h : x.e_ < x.b_) (hb : x.b_ ≤ x.e_ + 2) :
    x.isFull = false := by
  have hle : ¬ x.b_ ≤ x.e_ := Nat.not_le.mpr h
  simp only [StreamBuf.isFull, StreamBuf.cap, offsetDiff, hle, if_false, LOWATER,
    decide_eq_false_iff_not]
  omega

theorem onRead_kept (h : (receive (some d) x).buf_.isFull = false) :
    onRead (some d) x = receive (some d) x := by
  simp [onRead, h]

theorem onRead_swapped (h : (receive (some d) x).buf_.isFull = true) :
    onRead (some d) x = { buf_ := (receive (some d) x).buf_.resetBuf, sinceSwap := [] } := by
  simp [onRead, h]

theorem onRead_e (a : Receive) (x : Recording) : (onRead a x).buf_.e_ = x.buf_.e_ := by
  cases a with
  | none => rfl
  | some d =>
    simp only [onRead]
    split_ifs <;> rfl

theorem onRead_b (hle : x.buf_.b_ + d.rn + 2 ≤ x.buf_.e_) (he : x.buf_.e_ < 2 ^ 64) :
    (onRead (some d) x).buf_.b_ =
      if x.buf_.e_ - (x.buf_.b_ + d.rn + 2) < LOWATER then 0 else x.buf_.b_ + d.rn + 2 := by
  have hb := receive_b (x := x) (d := d) (by omega)
  have hend : (receive (some d) x).buf_.e_ = x.buf_.e_ := rfl
  have hfull := isFull_of_le (x := (receive (some d) x).buf_) (by omega)
  rw [hb, hend] at hfull
  split_ifs with h
  · rw [onRead_swapped (hfull.mpr h)]
    rfl
  · rw [onRead_kept (by simpa using hfull.not.mpr h), hb]

end Receive

section Filling
variable (mem next : Int → UInt8) {u : List Receive}

theorem after_e (x : Recording) (u : List Receive) : (after x u).buf_.e_ = x.buf_.e_ := by
  induction u using List.reverseRecOn with
  | nil => rfl
  | append_singleton u a ih => rw [after_snoc, onRead_e, ih]

theorem after_b (h : used u + 2 ≤ BUFSIZE - LOWATER) :
    (after (fresh mem next) u).buf_.b_ = used u + 2 := by
  induction u using List.reverseRecOn with
  | nil => rfl
  | append_singleton u a ih =>
    have he : (after (fresh mem next) u).buf_.e_ = BUFSIZE := after_e _ u
    rw [used_snoc] at h ⊢
    have hb := ih (by omega)
    rw [after_snoc]
    cases a with
    | none => exact hb
    | some d =>
      simp only [taken, BUFSIZE, LOWATER] at h he ⊢
      rw [onRead_b (by omega) (by omega), if_neg (by rw [LOWATER]; omega), hb]
      omega

end Filling

section Framing
variable {ds u : List Receive} {x : Recording}

def Fits (x : Recording) (ds : List Receive) : Prop :=
  ∀ u d, u ++ [some d] <+: ds → (after x u).buf_.b_ + d.rn ≤ (after x u).buf_.e_

/-- The state that the callbacks `u` lead to is framed, and so was the one before the swap that
the last of them may have ended with. -/
def FramedAt (x : Recording) (u : List Receive) : Prop :=
  Framed (after x u) ∧ ∀ v a, u = v ++ [a] → Framed (receive a (after x v))

/-- Where the write position of a fresh buffer has got to: before the low water mark, past the
end of the allocation, or at the start of the next one. -/
inductive Position (u : List Receive) (b : Nat) : Prop where
  | filling (hb : b = used u + 2) (hroom : used u + 2 ≤ BUFSIZE - LOWATER)
  | beyond (hb : b = used u + 2) (hover : BUFSIZE < used u + 2)
  | swapped (hb : b = 0) (hlow : BUFSIZE - LOWATER < used u + 2)

structure Placed (u : List Receive) (x : Recording) : Prop where
  framed : Framed x
  e_eq : x.buf_.e_ = BUFSIZE
  position : Position u x.buf_.b_

theorem placed_none (h : Placed u x) : Placed (u ++ [none]) (onRead none x) := by
  have hused : used (u ++ [none]) = used u := used_snoc u none
  refine ⟨h.framed, h.e_eq, ?_⟩
  cases h.position with
  | filling hb hroom => exact .filling (by rw [hused]; exact hb) (by rw [hused]; exact hroom)
  | beyond hb hover => exact .beyond (by rw [hused]; exact hb) (by rw [hused]; exact hover)
  | swapped hb hlow => exact .swapped hb (by rw [hused]; exact hlow)

theorem placed_filling {d : Datagram} (h : Placed u x) (hb : x.buf_.b_ = used u + 2)
    (hroom : used u + 2 ≤ BUFSIZE - LOWATER) (hfit : x.buf_.b_ + d.rn ≤ x.buf_.e_) :
    Framed (receive (some d) x) ∧ Placed (u ++ [some d]) (onRead (some d) x) := by
  have he := h.e_eq
  have hused : used (u ++ [some d]) = used u + (d.rn + 2) := used_snoc u (some d)
  simp only [BUFSIZE, LOWATER] at he hroom
  have hlt : x.buf_.b_ + d.rn + 2 < 2 ^ 64 := by omega
  have hf := receive_framed h.framed (by omega) hlt hfit
  have hpos := receive_b (d := d) hlt
  have hend : (receive (some d) x).buf_.e_ = x.buf_.e_ := rfl
  refine ⟨hf, ?_⟩
  cases hfull : (receive (some d) x).buf_.isFull with
  | true =>
    have hle : (receive (some d) x).buf_.b_ ≤ (receive (some d) x).buf_.e_ := by
      by_contra hgt
      rw [isFull_of_gt (by omega) (by omega)] at hfull
      cases hfull
    have hlow := (isFull_of_le hle).mp hfull
    rw [onRead_swapped hfull]
    refine ⟨framed_swapped, h.e_eq, .swapped rfl ?_⟩
    simp only [BUFSIZE, LOWATER] at hlow ⊢
    omega
  | false =>
    rw [onRead_kept hfull]
    refine ⟨hf, h.e_eq, ?_⟩
    by_cases hle : (receive (some d) x).buf_.b_ ≤ (receive (some d) x).buf_.e_
    · have hlow := (isFull_of_le hle).not.mp (by simp [hfull])
      refine .filling (by omega) ?_
      simp only [BUFSIZE, LOWATER] at hlow ⊢
      omega
    · refine .beyond (by omega) ?_
      simp only [BUFSIZE]
      omega

/-- At the start of an allocation the length word lands in front of it. -/
theorem not_framed_at_start {d : Datagram} (hb : x.buf_.b_ = 0) :
    ¬ Framed (receive (some d) x) := by
  intro h
  have hbefore := h.inside (-2) (mem_written_receive.mpr (.inr (by omega)))
  omega

theorem framedAt_snoc {a : Receive} (hfits : ∀ d, a = some d →
      (after x u).buf_.b_ + d.rn ≤ (after x u).buf_.e_) (h : Placed u (after x u)) :
    (FramedAt x (u ++ [a]) ↔ a = none ∨ used u + 2 ≤ BUFSIZE - LOWATER) ∧
    (FramedAt x (u ++ [a]) → Placed (u ++ [a]) (after x (u ++ [a]))) := by
  have hat : FramedAt x (u ++ [a]) ↔
      Framed (onRead a (after x u)) ∧ Framed (receive a (after x u)) := by
    rw [FramedAt, after_snoc]
    exact and_congr_right fun _ => last_iff
  rw [hat, after_snoc]
  cases a with
  | none =>
    have hp := placed_none h
    exact ⟨⟨fun _ => .inl rfl, fun _ => ⟨hp.framed, h.framed⟩⟩, fun _ => hp⟩
  | some d =>
    have hfit := hfits d rfl
    cases h.position with
    | filling hb hroom =>
      obtain ⟨hf, hp⟩ := placed_filling h hb hroom hfit
      exact ⟨⟨fun _ => .inr hroom, fun _ => ⟨hp.framed, hf⟩⟩, fun _ => hp⟩
    | beyond hb hover =>
      have he := h.e_eq
      omega
    | swapped hb hlow =>
      have hnot := not_framed_at_start (d := d) hb
      refine ⟨⟨fun hr => absurd hr.2 hnot, fun hor => ?_⟩, fun hr => absurd hr.2 hnot⟩
      cases hor with
      | inl hnone => cases hnone
      | inr hroom => omega

theorem placed_fresh (mem next : Int → UInt8) : Placed [] (fresh mem next) :=
  ⟨framed_fresh mem next, rfl, .filling rfl (by decide)⟩

/-- The records are framed at every point of a run exactly when no datagram comes after those
that leave less than the low water mark of the first buffer. -/
theorem framed_throughout_iff (mem next : Int → UInt8) (ds : List Receive)
    (hfits : Fits (fresh mem next) ds) :
    (∀ u, u <+: ds → FramedAt (fresh mem next) u) ↔
      ∀ u a, u ++ [a] <+: ds → a = none ∨ used u + 2 ≤ BUFSIZE - LOWATER := by
  have hstart : FramedAt (fresh mem next) [] :=
    ⟨framed_fresh mem next, fun v a h => by simp at h⟩
  refine prefix_iff (fun u => Placed u (after (fresh mem next) u)) ds hstart
    (placed_fresh mem next) ?_ ?_
  · intro u a h hu
    exact (framedAt_snoc (fun d hd => hfits u d (hd ▸ h)) hu).1
  · intro u a h hu
    exact (framedAt_snoc (fun d hd => hfits u d (hd ▸ h)) hu).2

theorem fits_snoc {d : Datagram} (h : Fits x ds)
    (hfit : (after x ds).buf_.b_ + d.rn ≤ (after x ds).buf_.e_) : Fits x (ds ++ [some d]) := by
  intro u d' hu
  cases List.prefix_concat_iff.mp hu with
  | inl heq =>
    obtain ⟨rfl, rfl⟩ : u = ds ∧ d' = d := by simpa using heq
    exact hfit
  | inr hold => exact h u d' hold

theorem used_le (h : u <+: ds) : used u ≤ used ds := by
  obtain ⟨v, rfl⟩ := h
  simp [used]

theorem fits_of_used (mem next : Int → UInt8) (h : used ds + 2 ≤ BUFSIZE - LOWATER) :
    Fits (fresh mem next) ds := by
  intro u d ⟨v, hv⟩
  have he : (after (fresh mem next) u).buf_.e_ = BUFSIZE := after_e _ u
  have hused : used ds = used u + (d.rn + 2) + used v := by
    rw [← hv]
    simp [used, taken, Nat.add_assoc]
  rw [after_b mem next (by omega), he]
  simp only [BUFSIZE, LOWATER] at h ⊢
  omega

def zeros (n : Nat) (h : n ≤ kUdpPacketSize) : Datagram := ⟨List.replicate n 0, by simpa using h⟩

theorem rn_zeros (n : Nat) (h : n ≤ kUdpPacketSize) : (zeros n h).rn = n := List.length_replicate

def fullRun : List Receive := List.replicate 2558 (some (zeros 4096 (by decide)))

theorem used_fullRun : used fullRun = 2558 * 4098 := by
  rw [used, fullRun, List.map_replicate, List.sum_replicate_nat, taken, rn_zeros]

/-- One more datagram swaps the buffer, and the next one has its length word written in front
of the new buffer. -/
theorem length_word_before_buffer :
    let x := fresh (fun _ => 0) (fun _ => 0)
    let ds := fullRun ++ [some (zeros 2000 (by decide))] ++ [some (zeros 10 (by decide))]
    Fits x ds ∧ ¬ ∀ u, u <+: ds → FramedAt x u := by
  intro x ds
  have hb := after_b (fun _ => 0) (fun _ => 0) (u := fullRun) (by rw [used_fullRun]; decide)
  have he : (after x fullRun).buf_.e_ = BUFSIZE := after_e x fullRun
  rw [used_fullRun] at hb
  have hswap : (after x (fullRun ++ [some (zeros 2000 (by decide))])).buf_.b_ = 0 := by
    rw [after_snoc, onRead_b] <;> simp only [x, hb, he, rn_zeros] <;> decide
  constructor
  · refine fits_snoc (fits_snoc (fits_of_used _ _ (by rw [used_fullRun]; decide)) ?_) ?_
    · simp only [x, hb, he, rn_zeros]
      decide
    · rw [hswap, after_e, rn_zeros]
      decide
  · intro hall
    exact not_framed_at_start hswap ((hall ds (List.prefix_refl _)).2 _ _ rfl)

theorem framed_throughout_fullRun :
    let x := fresh (fun _ => 0) (fun _ => 0)
    Fits x (fullRun ++ [none]) ∧ ∀ u, u <+: fullRun ++ [none] → FramedAt x u := by
  intro x
  have hused : used (fullRun ++ [none]) = 2558 * 4098 := by
    rw [used_snoc, used_fullRun]
    rfl
  have hfits : Fits x (fullRun ++ [none]) := fits_of_used _ _ (by rw [hused]; decide)
  refine ⟨hfits, (framed_throughout_iff _ _ _ hfits).mpr fun u a hu => .inr ?_⟩
  have hle := used_le ((List.prefix_append u [a]).trans hu)
  rw [hused] at hle
  simp only [BUFSIZE, LOWATER]
  omega

end Framing

section Room
variable {x : Recording} {ds u : List Receive} {a : Receive}

def HasRoom (x : Recording) : Prop := x.buf_.b_ + kUdpPacketSize ≤ x.buf_.e_

/-- The write position is not past the end, so `cap()` does not wrap around. -/
def EndsInside (x : Recording) : Prop := x.buf_.b_ ≤ x.buf_.e_

def RoomThroughout (x : Recording) (ds : List Receive) : Prop :=
  ∀ u a, u ++ [a] <+: ds → HasRoom (after x u) ∧ EndsInside (receive a (after x u))

/-- The record that the receive adds ends inside the buffer; and unless the run ends here, what
is left behind it is less than the low water mark or at least a whole packet. -/
def LandsClear (x : Recording) (ds u : List Receive) (a : Receive) : Prop :=
  let p := (after x u).buf_.b_ + taken a
  p ≤ BUFSIZE ∧ (u ++ [a] ≠ ds → BUFSIZE - p < LOWATER ∨ kUdpPacketSize ≤ BUFSIZE - p)

theorem landsClear_iff (he : (after x u).buf_.e_ = BUFSIZE) (h : HasRoom (after x u)) :
    LandsClear x ds u a ↔ EndsInside (receive a (after x u)) ∧
      (u ++ [a] ≠ ds → HasRoom (after x (u ++ [a]))) := by
  rw [after_snoc]
  simp only [HasRoom, he] at h
  cases a with
  | none =>
    simp only [LandsClear, EndsInside, HasRoom, taken, receive, onRead, he, Nat.add_zero]
    simp only [BUFSIZE, LOWATER, kUdpPacketSize] at h ⊢
    omega
  | some d =>
    have hrn : d.rn ≤ kUdpPacketSize := d.len_le
    simp only [BUFSIZE, kUdpPacketSize] at h hrn
    have hb := receive_b (x := after x u) (d := d) (by omega)
    have hend : (receive (some d) (after x u)).buf_.e_ = BUFSIZE := he
    have hnext := onRead_b (x := after x u) (d := d)
    rw [LandsClear, EndsInside, HasRoom, hb, hend, onRead_e, he, taken]
    rw [he] at hnext
    refine and_congr_right fun hp => imp_congr_right fun _ => ?_
    rw [hnext hp (by decide)]
    split_ifs with hlow <;> simp only [BUFSIZE, LOWATER, kUdpPacketSize] at hp hlow ⊢ <;> omega

/-- After the callbacks `u` of the run: the last one ended inside the buffer, and if another one
follows it has room. -/
def LandedAt (x : Recording) (ds u : List Receive) : Prop :=
  (∀ v a, u = v ++ [a] → EndsInside (receive a (after x v))) ∧
    (u ≠ ds → HasRoom (after x u))

theorem roomThroughout_iff_landed :
    RoomThroughout x ds ↔ ∀ u, u <+: ds → LandedAt x ds u := by
  constructor
  · intro hroom u ⟨v, hv⟩
    constructor
    · intro w a hw
      exact (hroom w a ⟨v, hw ▸ hv⟩).2
    · intro hne
      cases v with
      | nil => exact absurd (by simpa using hv) hne
      | cons a v => exact (hroom u a ⟨v, by simpa using hv⟩).1
  · intro hall u a h
    have hu := hall u ((List.prefix_append u [a]).trans h)
    exact ⟨hu.2 (ne_of_snoc h), last_iff.mp (hall _ h).1⟩

/-- A receive has room throughout a run exactly when every callback lands clear of the gap
between the low water mark and the packet size. -/
theorem roomThroughout_iff (mem next : Int → UInt8) (ds : List Receive) :
    RoomThroughout (fresh mem next) ds ↔
      ∀ u a, u ++ [a] <+: ds → LandsClear (fresh mem next) ds u a := by
  have hstart : HasRoom (fresh mem next) := show 2 + kUdpPacketSize ≤ BUFSIZE by decide
  rw [roomThroughout_iff_landed]
  refine prefix_iff (fun u => u ≠ ds → HasRoom (after (fresh mem next) u)) ds
    ⟨fun v a h => by simp at h, fun _ => hstart⟩ (fun _ => hstart) ?_ ?_
  · intro u a h hu
    have he : (after (fresh mem next) u).buf_.e_ = BUFSIZE := after_e _ u
    rw [landsClear_iff he (hu (ne_of_snoc h))]
    exact and_congr_left fun _ => last_iff
  · exact fun u a _ _ hp => hp.2

/-- After the full datagrams 3074 bytes are left: too few for a receive, and too many to swap. -/
theorem receive_without_room :
    ¬ RoomThroughout (fresh (fun _ => 0) (fun _ => 0))
      (fullRun ++ [some (zeros 4096 (by decide))]) := by
  intro h
  have hroom := (h fullRun _ (List.prefix_refl _)).1
  rw [HasRoom, after_e, after_b _ _ (by rw [used_fullRun]; decide), used_fullRun] at hroom
  exact absurd hroom (by decide)

end Room

end LazyNet.StreamBuffer
