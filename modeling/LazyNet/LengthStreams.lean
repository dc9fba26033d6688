import LazyNet.HandyCodecs
import Mathlib.Data.List.GetD

/-! What the length codec finds in a stream: the messages of its frames, and what it makes of
headers that no frame has. -/
namespace LazyNet.HandyCodecs
open LazyNet.Words LazyNet.HandyBuffer LazyNet.Decoders LazyNet.Framing LazyNet.StepRuns

namespace LengthCodec

def header (len : UInt32) : List UInt8 := magic ++ store32 (htonl len)

def frame (msg : List UInt8) : List UInt8 := header (UInt32.ofNat msg.length) ++ msg

/-- The message behind a header; with a negative length, the slice reaches past the data. -/
def body (data : List UInt8) : Option (List UInt8) :=
  if length data < 0 then none else some ((data.drop 8).take (length data).toNat)

def find (data : List UInt8) : Outcome (Option (List UInt8)) :=
  if data.length < 8 then .more
  else if data.take 4 ≠ magic then .bad
  else
    let len := length data
    if 1024 * 1024 < len ∨ len < -8 then .bad
    else if len = -8 ∨ (data.length : Int) < len + 8 then .more
    else .message (len + 8).toNat (body data)

/-- A header with the length -8 is taken for a message that is not complete, whatever follows. -/
def Stuck (data : List UInt8) : Prop :=
  8 ≤ data.length ∧ data.take 4 = magic ∧ length data = -8

def Counted (data : List UInt8) : Prop := data.length < 2147483648 ∨ Stuck data

@[simp] theorem header_length (len : UInt32) : (header len).length = 8 := rfl

@[simp] theorem frame_length (msg : List UInt8) : (frame msg).length = msg.length + 8 := by
  rw [frame, List.length_append, header_length, Nat.add_comm]

theorem encode_content {buf : Buffer} (h : buf.Ok) (msg : List UInt8) :
    (encode msg buf).Ok ∧ (encode msg buf).content = buf.content ++ frame msg := by
  obtain ⟨h₁, hc₁⟩ := h.append magic
  obtain ⟨h₂, hc₂⟩ := h₁.append (store32 (htonl (UInt32.ofNat msg.length)))
  obtain ⟨h₃, hc₃⟩ := h₂.append msg
  refine ⟨h₃, hc₃.trans ?_⟩
  rw [hc₂, hc₁]
  simp only [frame, header, List.append_assoc]

theorem length_bounds (data : List UInt8) :
    -2147483648 ≤ length data ∧ length data < 2147483648 := by
  have hle := Int32.le_toInt (htonl (load32 (data.getD 4 0) (data.getD 5 0) (data.getD 6 0)
    (data.getD 7 0))).toInt32
  have hlt := Int32.toInt_lt (htonl (load32 (data.getD 4 0) (data.getD 5 0) (data.getD 6 0)
    (data.getD 7 0))).toInt32
  rw [length]
  omega

theorem length_append {u : List UInt8} (v : List UInt8) (h : 8 ≤ u.length) :
    length (u ++ v) = length u := by
  simp only [length]
  rw [List.getD_append _ _ _ _ (by omega), List.getD_append _ _ _ _ (by omega),
    List.getD_append _ _ _ _ (by omega), List.getD_append _ _ _ _ (by omega)]

theorem length_header (len : UInt32) (v : List UInt8) :
    length (header len ++ v) = len.toInt32.toInt := by
  rw [length_append v (Nat.le_of_eq (header_length len).symm)]
  have hload : length (header len) = (htonl (load32 (htonl len).toUInt8 (htonl len / 256).toUInt8
    (htonl len / 65536).toUInt8 (htonl len / 16777216).toUInt8)).toInt32.toInt := rfl
  rw [hload, load32_store, htonl_htonl]

theorem eq_header {data : List UInt8} (h : 8 ≤ data.length) (hm : data.take 4 = magic) :
    ∃ len, data = header len ++ data.drop 8 ∧ length data = len.toInt32.toInt := by
  have hsize : ((data.drop 4).take 4).length = 4 := by
    rw [List.length_take, List.length_drop]
    omega
  obtain ⟨b0, b1, b2, b3, hb⟩ := List.length_eq_four.mp hsize
  have hword : store32 (htonl (htonl (load32 b0 b1 b2 b3))) = [b0, b1, b2, b3] := by
    rw [htonl_htonl, store_load32]
  have hdata : data = header (htonl (load32 b0 b1 b2 b3)) ++ data.drop 8 := by
    conv_lhs => rw [← List.take_append_drop 4 data, ← List.take_append_drop 4 (data.drop 4)]
    rw [hm, hb, ← hword, List.drop_drop, header, List.append_assoc]
  refine ⟨_, hdata, ?_⟩
  conv_lhs => rw [hdata]
  exact length_header _ _

theorem take_magic {u v : List UInt8} (h : 8 ≤ u.length) : (u ++ v).take 4 = u.take 4 :=
  List.take_append_of_le_length (by omega)

theorem tryDecode_header {data : List UInt8} (h8 : ¬ data.length < 8) (hm : data.take 4 = magic)
    (hlen : length data ≤ 1048576) : tryDecode data =
      if length data + 8 ≤ toInt data.length then
        (length data + 8, { start := 8, size := toSize (length data) })
      else (0, {}) := by
  have hok : ¬ (1024 * 1024 < length data ∨ data.take 4 ≠ magic) := by
    rintro (hbig | hbad)
    · omega
    · exact hbad hm
  simp only [tryDecode, if_neg h8, if_neg hok]

theorem outcome_of_eq {data : List UInt8} {r : Int} {x : Slice}
    (h : tryDecode data = (r, x)) : outcome lengthCodec data =
      if r < 0 then .bad else if r = 0 then .more else .message (toSize r) (x.read data) := by
  have hr : lengthCodec.tryDecode data = (r, x) := h
  simp only [outcome, hr]

theorem read_eq {data : List UInt8} (hsize : data.length < 2147483648)
    (hlow : -2147483648 ≤ length data) (hfit : length data + 8 ≤ data.length) :
    Slice.read data { start := 8, size := toSize (length data) } = body data := by
  rw [Slice.read, body]
  by_cases hneg : length data < 0
  · rw [if_pos hneg, if_neg]
    simp only [toSize]
    omega
  · have hcast : toSize (length data) = (length data).toNat := by
      rw [toSize]
      omega
    rw [if_neg hneg, hcast, if_pos]
    simp only
    omega

theorem outcome_header {data : List UInt8} (h8 : ¬ data.length < 8) (hm : data.take 4 = magic)
    (hlen : length data ≤ 1048576) (hdata : data.length < 2147483648) :
    outcome lengthCodec data =
      if length data < -8 then .bad
      else if length data = -8 ∨ (data.length : Int) < length data + 8 then .more
      else .message (length data + 8).toNat (body data) := by
  have hlow := (length_bounds data).1
  have hr := tryDecode_header h8 hm hlen
  rw [toInt_of_lt hdata] at hr
  by_cases hfit : length data + 8 ≤ data.length
  · rw [if_pos hfit] at hr
    rw [outcome_of_eq hr, read_eq hdata hlow hfit]
    by_cases hneg : length data < -8
    · rw [if_pos (by omega), if_pos hneg]
    · rw [if_neg (by omega : ¬ length data + 8 < 0), if_neg hneg]
      by_cases hzero : length data = -8
      · rw [if_pos (by omega), if_pos (.inl hzero)]
      · have hcast : toSize (length data + 8) = (length data + 8).toNat := by
          rw [toSize]
          omega
        rw [if_neg (by omega), if_neg (by omega), hcast]
  · rw [if_neg hfit] at hr
    rw [outcome_of_eq hr, if_neg (by omega), if_pos rfl, if_neg (by omega), if_pos (by omega)]

theorem outcome_stuck {data : List UInt8} (h : Stuck data) : outcome lengthCodec data = .more := by
  have hr := tryDecode_header (Nat.not_lt.mpr h.1) h.2.1 (by rw [h.2.2]; decide)
  rw [h.2.2] at hr
  split_ifs at hr
  · rw [outcome_of_eq hr]
    rfl
  · rw [outcome_of_eq hr]
    rfl

theorem find_short {data : List UInt8} (h : data.length < 8) : find data = .more := if_pos h

theorem find_magic {data : List UInt8} (h8 : ¬ data.length < 8) (hm : data.take 4 ≠ magic) :
    find data = .bad := by
  rw [find, if_neg h8, if_pos hm]

theorem find_header {data : List UInt8} (h8 : ¬ data.length < 8) (hm : data.take 4 = magic) :
    find data =
      if 1048576 < length data ∨ length data < -8 then .bad
      else if length data = -8 ∨ (data.length : Int) < length data + 8 then .more
      else .message (length data + 8).toNat (body data) := by
  rw [find, if_neg h8, if_neg (not_not_intro hm)]
  rfl

theorem find_stuck {data : List UInt8} (h : Stuck data) : find data = .more := by
  rw [find_header (Nat.not_lt.mpr h.1) h.2.1, if_neg (by rw [h.2.2]; decide),
    if_pos (.inl h.2.2)]

/-- While the sizes are sizes that `int` holds, that is what the codec does. -/
theorem agrees : Agrees lengthCodec find Counted := by
  constructor
  · intro data hdata
    obtain hlt | hstuck := hdata
    · by_cases h8 : data.length < 8
      · have hr : tryDecode data = (0, {}) := if_pos h8
        rw [outcome_of_eq hr, find_short h8]
        rfl
      · by_cases hbad : 1024 * 1024 < length data ∨ data.take 4 ≠ magic
        · have hr : tryDecode data = (-1, {}) := by simp only [tryDecode, if_neg h8, if_pos hbad]
          have hrefused : outcome lengthCodec data = .bad := outcome_of_eq hr
          rw [hrefused]
          by_cases hm : data.take 4 = magic
          · have hbig : 1048576 < length data := by
              obtain hbig | hne := hbad
              · exact hbig
              · exact absurd hm hne
            rw [find_header h8 hm, if_pos (.inl hbig)]
          · rw [find_magic h8 hm]
        · obtain ⟨hbig, hm⟩ : ¬ 1024 * 1024 < length data ∧ data.take 4 = magic := by
            simpa using hbad
          have hlen : length data ≤ 1048576 := by omega
          rw [outcome_header h8 hm hlen hlt, find_header h8 hm]
          by_cases hneg : length data < -8
          · rw [if_pos hneg, if_pos (.inr hneg)]
          · rw [if_neg hneg, if_neg (by omega : ¬ (1048576 < length data ∨ length data < -8))]
    · rw [outcome_stuck hstuck, find_stuck hstuck]
  · intro s n m hs hfind
    obtain hlt | hstuck := hs
    · left
      rw [List.length_drop]
      omega
    · rw [find_stuck hstuck] at hfind
      cases hfind

theorem body_append {u v : List UInt8} (h8 : 8 ≤ u.length) (hfit : length u + 8 ≤ u.length) :
    body (u ++ v) = body u := by
  rw [body, body, length_append v h8]
  by_cases hneg : length u < 0
  · rw [if_pos hneg, if_pos hneg]
  · rw [if_neg hneg, if_neg hneg, List.drop_append_of_le_length h8,
      List.take_append_of_le_length (by rw [List.length_drop]; omega)]

theorem stable : Stable find fun _ => True := by
  have hmore : ∀ {u : List UInt8}, find u ≠ .more → ¬ u.length < 8 :=
    fun h h8 => h (find_short h8)
  refine ⟨fun _ _ _ => trivial, fun _ _ _ _ _ => trivial, ?_, ?_, ?_⟩
  · intro s n m _ h
    have h8 := hmore (u := s) (by rw [h]; simp)
    by_cases hm : s.take 4 = magic
    · rw [find_header h8 hm] at h
      split_ifs at h with hbad hwait
      cases h
      omega
    · rw [find_magic h8 hm] at h
      cases h
  · intro u v n m _ h
    have h8 := hmore (u := u) (by rw [h]; simp)
    have h8' : ¬ (u ++ v).length < 8 := by rw [List.length_append]; omega
    by_cases hm : u.take 4 = magic
    · have hlen := length_append v (Nat.le_of_not_lt h8)
      rw [find_header h8 hm] at h
      rw [find_header h8' ((take_magic (Nat.le_of_not_lt h8)).trans hm), hlen]
      split_ifs at h with hbad hwait
      rw [if_neg hbad, if_neg (by rw [List.length_append]; omega), ← h,
        body_append (Nat.le_of_not_lt h8) (by omega)]
    · rw [find_magic h8 hm] at h
      cases h
  · intro u v _ h
    have h8 := hmore (u := u) (by rw [h]; simp)
    have h8' : ¬ (u ++ v).length < 8 := by rw [List.length_append]; omega
    by_cases hm : u.take 4 = magic
    · have hlen := length_append v (Nat.le_of_not_lt h8)
      rw [find_header h8 hm] at h
      rw [find_header h8' ((take_magic (Nat.le_of_not_lt h8)).trans hm), hlen]
      split_ifs at h with hbad hwait
      exact if_pos hbad
    · apply find_magic h8'
      rw [take_magic (Nat.le_of_not_lt h8)]
      exact hm

theorem find_nil : find [] = .more := find_short (by decide)

/-- What waits is short, or will wait for ever. -/
theorem counted_of_more {r bytes : List UInt8} (h : find r = .more)
    (hbytes : bytes.length ≤ 1073741824) : Counted (r ++ bytes) := by
  by_cases h8 : r.length < 8
  · left
    rw [List.length_append]
    omega
  · by_cases hm : r.take 4 = magic
    · rw [find_header h8 hm] at h
      split_ifs at h with hbad hwait
      by_cases hzero : length r = -8
      · right
        have hle := Nat.le_of_not_lt h8
        refine ⟨?_, (take_magic hle).trans hm, (length_append bytes hle).trans hzero⟩
        rw [List.length_append]
        omega
      · left
        rw [List.length_append]
        omega
    · rw [find_magic h8 hm] at h
      cases h

theorem suits {arrivals : List Arrival} (h : Bursts arrivals) (s : List UInt8) :
    Suits find Counted s arrivals :=
  fun _ _ _ hdec a ha _ => counted_of_more hdec.waits (h a ha)

def Fits (msg : List UInt8) : Prop := msg.length ≤ 1048576

instance (msg : List UInt8) : Decidable (Fits msg) := inferInstanceAs (Decidable (_ ≤ _))

theorem find_frame {msg : List UInt8} (hlen : msg.length < 2147483648) {u : List UInt8}
    (hu : u.take 8 = header (UInt32.ofNat msg.length)) :
    length u = msg.length ∧ u.take 4 = magic := by
  have hsplit : u = header (UInt32.ofNat msg.length) ++ u.drop 8 := by
    rw [← hu, List.take_append_drop]
  constructor
  · rw [hsplit, length_header, UInt32.toInt32_ofNat']
    exact Int32.toInt_ofNat_of_lt hlen
  · rw [hsplit]
    rfl

theorem carries {msg : List UInt8} (h : Fits msg) :
    Carries find (fun _ => True) frame some msg := by
  rw [Fits] at h
  constructor
  · intro v _
    have hu : (frame msg ++ v).take 8 = header (UInt32.ofNat msg.length) := by
      rw [frame, List.append_assoc]
      exact List.take_left' (header_length _)
    obtain ⟨hlen, hm⟩ := find_frame (by omega) hu
    have hbody : body (frame msg ++ v) = some msg := by
      rw [body, hlen, if_neg (by omega), frame, List.append_assoc,
        List.drop_left' (header_length _), Int.toNat_natCast, List.take_left]
    have hsize : (frame msg ++ v).length = msg.length + 8 + v.length := by
      rw [List.length_append, frame_length]
    rw [find_header (by omega) hm, hlen, if_neg (by omega), if_neg (by omega), hbody,
      frame_length]
    congr 1
  · intro u _ hu hlt
    rw [frame_length] at hlt
    by_cases h8 : u.length < 8
    · exact find_short h8
    · have htake : u.take 8 = header (UInt32.ofNat msg.length) := by
        obtain ⟨v, hv⟩ := hu
        have hle := Nat.le_of_not_lt h8
        have hfront : (u ++ v).take 8 = u.take 8 := List.take_append_of_le_length hle
        rw [← hfront, hv, frame]
        exact List.take_left' (header_length _)
      obtain ⟨hlen, hm⟩ := find_frame (by omega) htake
      rw [find_header h8 hm, hlen, if_neg (by omega), if_pos (by omega)]

theorem find_long {msg v : List UInt8} (hlong : ¬ Fits msg) (hlen : msg.length < 2147483648)
    {u : List UInt8} (hu : u <+: frame msg ++ v) :
    find u = if u.length < 8 then .more else .bad := by
  by_cases h8 : u.length < 8
  · rw [if_pos h8, find_short h8]
  · rw [Fits] at hlong
    have htake : u.take 8 = header (UInt32.ofNat msg.length) := by
      obtain ⟨w, hw⟩ := hu
      have hfront : (u ++ w).take 8 = u.take 8 :=
        List.take_append_of_le_length (Nat.le_of_not_lt h8)
      rw [← hfront, hw, frame, List.append_assoc]
      exact List.take_left' (header_length _)
    obtain ⟨hlength, hm⟩ := find_frame hlen htake
    rw [if_neg h8, find_header h8 hm, hlength, if_pos (by omega)]

theorem ofNat_toInt {len : UInt32} (h : 0 ≤ len.toInt32.toInt) :
    UInt32.ofNat len.toInt32.toInt.toNat = len := by
  have hcast : ((len.toInt32.toInt.toNat : Nat) : Int) = len.toInt32.toInt := Int.toNat_of_nonneg h
  have hlt := Int32.toInt_lt len.toInt32
  have hword : (UInt32.ofNat len.toInt32.toInt.toNat).toInt32 = len.toInt32 := by
    rw [UInt32.toInt32_ofNat', ← Int32.toInt_inj, Int32.toInt_ofNat_of_lt (by omega), hcast]
  rw [← UInt32.toUInt32_toInt32 (UInt32.ofNat _), hword, UInt32.toUInt32_toInt32]

theorem find_some {s b : List UInt8} {n : Nat} (h : find s = .message n (some b)) :
    Fits b ∧ s = frame b ++ s.drop n := by
  have h8 : ¬ s.length < 8 := by
    intro hshort
    rw [find_short hshort] at h
    cases h
  have hm : s.take 4 = magic := by
    by_contra hne
    rw [find_magic h8 hne] at h
    cases h
  obtain ⟨len, hs, hlen⟩ := eq_header (Nat.le_of_not_lt h8) hm
  rw [find_header h8 hm] at h
  split_ifs at h with hbad hwait
  injection h with hn hb
  rw [body] at hb
  split_ifs at hb with hneg
  injection hb with hb
  have hdrop : (s.drop 8).length = s.length - 8 := List.length_drop
  have hsize : b.length = (length s).toNat := by
    rw [← hb, List.length_take]
    omega
  have hword : UInt32.ofNat b.length = len := by
    rw [hsize, hlen]
    exact ofNat_toInt (by omega)
  have hrest : s.drop n = (s.drop 8).drop b.length := by
    rw [List.drop_drop, hsize, ← hn]
    congr 1
    omega
  refine ⟨by rw [Fits, hsize]; omega, ?_⟩
  have hbody : b = (s.drop 8).take b.length := by rw [hsize, hb]
  rw [hrest, frame, hword, List.append_assoc]
  conv_rhs => rw [hbody, List.length_take, Nat.min_eq_left (by omega), List.take_append_drop]
  exact hs

theorem find_none_iff {s : List UInt8} : (∃ n, find s = .message n none) ↔
    ∃ len v, s = header len ++ v ∧ -8 < len.toInt32.toInt ∧ len.toInt32.toInt < 0 := by
  constructor
  · intro ⟨n, h⟩
    have h8 : ¬ s.length < 8 := by
      intro hshort
      rw [find_short hshort] at h
      cases h
    have hm : s.take 4 = magic := by
      by_contra hne
      rw [find_magic h8 hne] at h
      cases h
    obtain ⟨len, hs, hlen⟩ := eq_header (Nat.le_of_not_lt h8) hm
    rw [find_header h8 hm] at h
    split_ifs at h with hbad hwait
    injection h with hn hb
    rw [body] at hb
    split_ifs at hb with hneg
    exact ⟨len, s.drop 8, hs, by omega, by omega⟩
  · rintro ⟨len, v, rfl, hlow, hneg⟩
    have hsize : (header len ++ v).length = 8 + v.length := by
      rw [List.length_append, header_length]
    have hlen := length_header len v
    have hm : (header len ++ v).take 4 = magic := rfl
    rw [find_header (by omega) hm, hlen, if_neg (by omega), if_neg (by omega), body, hlen,
      if_pos hneg]
    exact ⟨_, rfl⟩

theorem decodes_none {s : List UInt8} {ms : List (Option (List UInt8))} {e : Ending UInt8}
    (h : Decodes find s ms e) (hnone : none ∈ ms) :
    ∃ sent : List (List UInt8), (∀ msg ∈ sent, Fits msg) ∧
      ∃ u, s = (sent.map frame).flatten ++ u ∧ ∃ n, find u = .message n none := by
  induction h with
  | more => cases hnone
  | bad => cases hnone
  | message hdec hrest ih =>
    rename_i s n m ms e
    cases m with
    | none => exact ⟨[], by simp, s, rfl, n, hdec⟩
    | some b =>
      obtain ⟨hfits, hs⟩ := find_some hdec
      have hin : none ∈ ms := by simpa using hnone
      obtain ⟨sent, hall, u, hu, hfind⟩ := ih hin
      refine ⟨b :: sent, ?_, u, ?_, hfind⟩
      · intro msg hmsg
        cases List.mem_cons.mp hmsg with
        | inl heq => exact heq ▸ hfits
        | inr htail => exact hall msg htail
      · rw [List.map_cons, List.flatten_cons, List.append_assoc, ← hu]
        exact hs

theorem reads_find {arrivals : List Arrival} (h : Bursts arrivals) :
    ∃ e, Decodes find (stream arrivals) (reads lengthCodec arrivals).received e ∧
      (reads lengthCodec arrivals).state_ =
        (if e = .stopped ∨ Ended arrivals then .Closed else .Connected) ∧
      ∀ r, e = .waiting r → ¬ Ended arrivals →
        (reads lengthCodec arrivals).input_.content = r :=
  reads_decodes stable agrees find_nil arrivals trivial (suits h _)

end LengthCodec

open LengthCodec

/-- Whatever bytes arrive, how they are cut makes no difference to a connection that reads with the
length codec: neither to the messages that it gets, nor to when it is closed, nor to what waits. -/
theorem length_cuts {arrivals arrivals' : List Arrival} (h : Bursts arrivals)
    (h' : Bursts arrivals') (hstream : stream arrivals = stream arrivals')
    (hended : Ended arrivals ↔ Ended arrivals') :
    (reads lengthCodec arrivals).received = (reads lengthCodec arrivals').received ∧
      (reads lengthCodec arrivals).state_ = (reads lengthCodec arrivals').state_ ∧
      ((reads lengthCodec arrivals).state_ = .Connected →
        (reads lengthCodec arrivals).input_.content =
          (reads lengthCodec arrivals').input_.content) := by
  obtain ⟨e, hdec, hstate, hrest⟩ := reads_find h
  obtain ⟨e', hdec', hstate', hrest'⟩ := reads_find h'
  rw [← hstream] at hdec'
  obtain ⟨hmsgs, rfl⟩ := hdec.unique hdec'
  have hsame : (reads lengthCodec arrivals).state_ = (reads lengthCodec arrivals').state_ := by
    rw [hstate, hstate']
    simp only [hended]
  refine ⟨hmsgs, hsame, fun hopen => ?_⟩
  rw [hstate] at hopen
  split_ifs at hopen with hclosed
  cases e with
  | stopped => exact absurd (.inl rfl) hclosed
  | waiting r =>
    have hgoing : ¬ Ended arrivals := fun hend => hclosed (.inr hend)
    rw [hrest r rfl hgoing, hrest' r rfl (mt hended.mpr hgoing)]

theorem hi_in_two_cuts :
    let whole : List Arrival := [{ bytes := frame [104, 105] ++ header 4294967295 }]
    let halves : List Arrival := [{ bytes := magic ++ [0, 0] },
      { bytes := [0, 2, 104, 105, 109, 66] }, { bytes := [100, 84, 255, 255, 255, 255] }]
    (reads lengthCodec whole).received = (reads lengthCodec halves).received ∧
      (reads lengthCodec whole).state_ = (reads lengthCodec halves).state_ ∧
      ((reads lengthCodec whole).state_ = .Connected →
        (reads lengthCodec whole).input_.content = (reads lengthCodec halves).input_.content) := by
  intro whole halves
  have hwhole : Bursts whole := by simp [whole, Bursts]
  have hhalves : Bursts halves := by simp [halves, Bursts, magic, stringBytes]
  exact length_cuts hwhole hhalves (by decide) (by decide)

/-- The callback is given a slice that reaches past the input exactly if the stream brings, behind
frames whose messages the codec takes, a header with a length between -7 and -1. -/
theorem overread_iff {arrivals : List Arrival} (h : Bursts arrivals) :
    none ∈ (reads lengthCodec arrivals).received ↔
      ∃ (sent : List (List UInt8)) (len : UInt32) (v : List UInt8), (∀ msg ∈ sent, Fits msg) ∧
        -8 < len.toInt32.toInt ∧ len.toInt32.toInt < 0 ∧
        stream arrivals = (sent.map frame).flatten ++ (header len ++ v) := by
  obtain ⟨e, hdec, -, -⟩ := reads_find h
  constructor
  · intro hnone
    obtain ⟨sent, hall, u, hu, hfind⟩ := decodes_none hdec hnone
    obtain ⟨len, v, rfl, hlow, hneg⟩ := find_none_iff.mp hfind
    exact ⟨sent, len, v, hall, hlow, hneg, hu⟩
  · rintro ⟨sent, len, v, hall, hlow, hneg, hs⟩
    obtain ⟨n, hfind⟩ := find_none_iff.mpr ⟨len, v, rfl, hlow, hneg⟩
    obtain ⟨ms, e', hrest⟩ := stable.decodes (s := (header len ++ v).drop n) trivial
    have hframes := stable.frames (fun msg hmsg => carries (hall msg hmsg)) trivial
      (.message hfind hrest)
    rw [hs] at hdec
    rw [(hdec.unique hframes).1]
    simp

theorem minus_one_overread :
    let arrivals : List Arrival := [{ bytes := frame [104, 105] ++ header 4294967295 }]
    none ∈ (reads lengthCodec arrivals).received ↔
      ∃ (sent : List (List UInt8)) (len : UInt32) (v : List UInt8), (∀ msg ∈ sent, Fits msg) ∧
        -8 < len.toInt32.toInt ∧ len.toInt32.toInt < 0 ∧
        stream arrivals = (sent.map frame).flatten ++ (header len ++ v) :=
  overread_iff (by simp [Bursts])

end LazyNet.HandyCodecs
