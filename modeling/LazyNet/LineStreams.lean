import LazyNet.HandyCodecs
import Mathlib.Data.List.Infix

/-! What the line codec finds in a stream: its finished lines. -/
namespace LazyNet.HandyCodecs
open LazyNet.HandyBuffer LazyNet.Decoders LazyNet.Framing

namespace LineCodec

def frame (msg : List UInt8) : List UInt8 := msg ++ [13, 10]

def chomp (line : List UInt8) : List UInt8 :=
  if line.getLast? = some 13 then line.dropLast else line

def find (data : List UInt8) : Outcome (Option (List UInt8)) :=
  if 10 ∈ data then
    .message ((data.takeWhile (· ≠ 10)).length + 1) (some (chomp (data.takeWhile (· ≠ 10))))
  else .more

/-- No line begins with the byte that the codec takes for a message of its own. -/
def Plain (s : List UInt8) : Prop := s.head? ≠ some 4 ∧ ¬ [10, 4] <:+: s

def Counted (data : List UInt8) : Prop := data.length < 2147483648 ∧ Plain data

section Lines
variable {line rest data s u v : List UInt8}

theorem takeWhile_line (h : 10 ∉ line) :
    (line ++ 10 :: rest).takeWhile (· ≠ 10) = line := by
  rw [List.takeWhile_append_of_pos]
  · simp
  · intro c hc
    simpa using fun heq : c = 10 => h (heq ▸ hc)

theorem find_line (h : 10 ∉ line) :
    find (line ++ 10 :: rest) = .message (line.length + 1) (some (chomp line)) := by
  rw [find, if_pos (by simp), takeWhile_line h]

theorem find_more (h : 10 ∉ data) : find data = .more := if_neg h

theorem find_nil : find [] = .more := find_more List.not_mem_nil

theorem line_of_find {n : Nat} {m : Option (List UInt8)} (h : find s = .message n m) :
    ∃ line rest, s = line ++ 10 :: rest ∧ 10 ∉ line ∧ n = line.length + 1 ∧
      m = some (chomp line) := by
  by_cases hmem : (10 : UInt8) ∈ s
  · obtain ⟨line, rest, rfl, hline⟩ := List.eq_append_cons_of_mem hmem
    rw [find_line hline] at h
    injection h with hn hm
    exact ⟨line, rest, rfl, hline, hn.symm, hm.symm⟩
  · rw [find_more hmem] at h
    cases h

theorem drop_line : (line ++ 10 :: rest).drop (line.length + 1) = rest := by
  rw [← List.drop_drop, List.drop_left]
  rfl

theorem encode_content {buf : Buffer} (h : buf.Ok) (msg : List UInt8) :
    (encode msg buf).Ok ∧ (encode msg buf).content = buf.content ++ frame msg := by
  obtain ⟨h₁, hc₁⟩ := h.append msg
  obtain ⟨h₂, hc₂⟩ := h₁.append [13, 10]
  refine ⟨h₂, hc₂.trans ?_⟩
  rw [hc₁, frame, List.append_assoc]

theorem scan_none (h : 10 ∉ rest) (i : Nat) : scan data rest i = (0, {}) := by
  induction rest generalizing i with
  | nil => rfl
  | cons c rest ih =>
    rw [List.mem_cons, not_or] at h
    rw [scan, if_neg (Ne.symm h.1)]
    exact ih h.2 (i + 1)

theorem scan_line (h : 10 ∉ line) (i : Nat) : scan data (line ++ 10 :: rest) i =
    if 0 < i + line.length ∧ data[i + line.length - 1]? = some 13 then
      (toInt (i + line.length + 1), { size := i + line.length - 1 })
    else (toInt (i + line.length + 1), { size := i + line.length }) := by
  induction line generalizing i with
  | nil => rw [List.nil_append, scan, if_pos rfl, List.length_nil, i.add_zero]
  | cons c line ih =>
    rw [List.mem_cons, not_or] at h
    rw [List.cons_append, scan, if_neg (Ne.symm h.1), ih h.2 (i + 1), List.length_cons]
    have hi : i + 1 + line.length = i + (line.length + 1) := by omega
    rw [hi]

theorem ends_iff : (0 < line.length ∧ (line ++ 10 :: rest)[line.length - 1]? = some 13) ↔
    line.getLast? = some 13 := by
  rw [List.getLast?_eq_getElem?]
  constructor
  · intro ⟨hpos, hget⟩
    rwa [List.getElem?_append_left (by omega)] at hget
  · intro hget
    have hlt : line.length - 1 < line.length := List.getElem?_eq_some_iff.mp hget |>.1
    exact ⟨by omega, by rwa [List.getElem?_append_left hlt]⟩

theorem tryDecode_line (h : 10 ∉ line) (hsize : line.length < 2147483647) :
    tryDecode (line ++ 10 :: rest) =
      ((line.length : Int) + 1, { size := (chomp line).length }) := by
  have hnot : ¬ ((line ++ 10 :: rest).length = 1 ∧ (line ++ 10 :: rest)[0]? = some 4) := by
    intro ⟨hone, hfour⟩
    rw [List.length_append, List.length_cons] at hone
    have hnil : line = [] := List.eq_nil_of_length_eq_zero (by omega)
    rw [hnil] at hfour
    cases hfour
  have hcast : toInt (line.length + 1) = line.length + 1 := toInt_of_lt (by omega)
  rw [tryDecode, if_neg hnot, scan_line h, chomp]
  simp only [Nat.zero_add, ends_iff, hcast]
  split_ifs
  · rw [List.length_dropLast]
  · rfl

theorem chomp_eq_take : chomp line = line.take (chomp line).length := by
  rw [chomp]
  split_ifs
  · rw [List.length_dropLast, List.dropLast_eq_take]
  · rw [List.take_length]

theorem outcome_line (h : 10 ∉ line) (hsize : line.length < 2147483647) :
    outcome lineCodec (line ++ 10 :: rest) =
      .message (line.length + 1) (some (chomp line)) := by
  have hr : lineCodec.tryDecode (line ++ 10 :: rest) =
      ((line.length : Int) + 1, { size := (chomp line).length }) := tryDecode_line h hsize
  have hcast : toSize ((line.length : Int) + 1) = line.length + 1 := by
    rw [toSize]
    omega
  have hle : (chomp line).length ≤ line.length := by
    rw [chomp_eq_take, List.length_take]
    exact Nat.min_le_right _ _
  have hread : Slice.read (line ++ 10 :: rest) { size := (chomp line).length } =
      some (chomp line) := by
    rw [Slice.read, if_pos (by rw [List.length_append]; simp only; omega)]
    simp only [List.drop_zero]
    rw [List.take_append_of_le_length hle, ← chomp_eq_take]
  simp only [outcome, hr]
  rw [if_neg (by omega), if_neg (by omega), hcast, hread]

theorem outcome_more (h : 10 ∉ data) (hplain : Plain data) : outcome lineCodec data = .more := by
  have hnot : ¬ (data.length = 1 ∧ data[0]? = some 4) := by
    intro ⟨_, hfour⟩
    rw [← List.head?_eq_getElem?] at hfour
    exact hplain.1 hfour
  have hr : lineCodec.tryDecode data = (0, {}) := (if_neg hnot).trans (scan_none h 0)
  simp only [outcome, hr]
  rfl

theorem break_iff (h : 10 ∉ line) : [10, 4] <:+: line ++ 10 :: rest ↔
    rest.head? = some 4 ∨ [10, 4] <:+: rest := by
  constructor
  · rintro ⟨a, b, hab⟩
    rw [List.append_assoc] at hab
    obtain ⟨c, hline, hc⟩ | ⟨c, ha, hc⟩ := List.append_eq_append_iff.mp hab
    · cases c with
      | nil =>
        injection hc with _ hrest
        exact .inl (by rw [← hrest]; rfl)
      | cons x c =>
        injection hc with hx hrest
        rw [hline, ← hx] at h
        exact absurd (by simp) h
    · cases c with
      | nil =>
        injection hc with _ hrest
        exact .inl (by rw [hrest]; rfl)
      | cons x c =>
        injection hc with _ hrest
        exact .inr ⟨c, b, by rw [hrest, List.append_assoc]; rfl⟩
  · rintro (hhead | hin)
    · cases rest with
      | nil => cases hhead
      | cons c rest =>
        cases hhead
        exact ⟨line, rest, by simp⟩
    · exact hin.trans ⟨line ++ [10], [], by simp⟩

theorem Plain.left (h : Plain (u ++ v)) : Plain u := by
  refine ⟨fun hhead => h.1 ?_, fun hin => h.2 (hin.trans (List.prefix_append u v).isInfix)⟩
  rw [List.head?_append, hhead]
  rfl

theorem Plain.beginning (h : Plain s) (hu : u <+: s) : Plain u := by
  obtain ⟨v, rfl⟩ := hu
  exact h.left

theorem Plain.behind (h : Plain (line ++ 10 :: rest)) (hline : 10 ∉ line) : Plain rest := by
  have hnot := mt (break_iff hline).mpr h.2
  rw [not_or] at hnot
  exact hnot

theorem agrees : Agrees lineCodec find Counted := by
  constructor
  · intro s hs
    by_cases hmem : (10 : UInt8) ∈ s
    · obtain ⟨line, rest, rfl, hline⟩ := List.eq_append_cons_of_mem hmem
      have hsize := hs.1
      rw [List.length_append, List.length_cons] at hsize
      rw [find_line hline, outcome_line hline (by omega)]
    · rw [find_more hmem, outcome_more hmem hs.2]
  · intro s n m hs hfind
    obtain ⟨line, rest, rfl, hline, rfl, -⟩ := line_of_find hfind
    have hsize := hs.1
    rw [List.length_append, List.length_cons] at hsize
    rw [drop_line]
    exact ⟨by omega, hs.2.behind hline⟩

theorem stable : Stable find Plain := by
  refine ⟨fun u v h => h.left, ?_, ?_, ?_, ?_⟩
  · intro s n m hs hfind
    obtain ⟨line, rest, rfl, hline, rfl, -⟩ := line_of_find hfind
    rw [drop_line]
    exact hs.behind hline
  · intro s n m _ hfind
    obtain ⟨line, rest, rfl, -, rfl, -⟩ := line_of_find hfind
    rw [List.length_append, List.length_cons]
    omega
  · intro u v n m _ hfind
    obtain ⟨line, rest, rfl, hline, rfl, rfl⟩ := line_of_find hfind
    rw [List.append_assoc, List.cons_append]
    exact find_line hline
  · intro u v _ hbad
    rw [find] at hbad
    split_ifs at hbad

theorem decodes_lines {ms : List (Option (List UInt8))} {e : Ending UInt8}
    (h : Decodes find s ms e) :
    ms = (s.splitOn 10).dropLast.map (fun line => some (chomp line)) ∧
      ∃ r, e = .waiting r ∧ (s.splitOn 10).getLast? = some r := by
  induction h with
  | more hdec =>
    rename_i s
    have hmem : (10 : UInt8) ∉ s := by
      intro hmem
      rw [find, if_pos hmem] at hdec
      cases hdec
    rw [List.splitOn_eq_singleton hmem]
    exact ⟨rfl, s, rfl, rfl⟩
  | bad hdec =>
    rw [find] at hdec
    split_ifs at hdec
  | message hdec hrest ih =>
    obtain ⟨line, rest, rfl, hline, rfl, rfl⟩ := line_of_find hdec
    rw [drop_line] at ih
    obtain ⟨hms, r, he, hlast⟩ := ih
    rw [List.splitOn_append_cons_self_of_not_mem hline,
      List.dropLast_cons_of_ne_nil (List.splitOn_ne_nil 10 rest), List.map_cons, hms]
    refine ⟨rfl, r, he, ?_⟩
    rw [List.getLast?_cons, hlast]
    rfl

/-- The lines are shorter than a gigabyte. -/
def ShortLines (s : List UInt8) : Prop := ∀ w, w <:+: s → 10 ∉ w → w.length < 1073741824

theorem not_mem_of_more (h : find s = .more) : 10 ∉ s := by
  intro hmem
  rw [find, if_pos hmem] at h
  cases h

theorem ShortLines.waiting (h : ShortLines s) {ms : List (Option (List UInt8))}
    (hu : u <+: s) {r : List UInt8} (hdec : Decodes find u ms (.waiting r)) :
    r.length < 1073741824 :=
  h r (hdec.suffix.isInfix.trans hu.isInfix) (not_mem_of_more hdec.waits)

theorem suits {arrivals : List Arrival} (h : Bursts arrivals) (hplain : Plain s)
    (hshort : ∀ u ms r, u <+: s → Decodes find u ms (.waiting r) → r.length < 1073741824) :
    Suits find Counted s arrivals := by
  intro u ms r hdec a ha hu
  refine ⟨?_, stable.waiting hdec (hplain.beginning hu)⟩
  have hline := hshort u ms r ((List.prefix_append u a.bytes).trans hu) hdec
  have hbytes := h a ha
  rw [List.length_append]
  omega

theorem chomp_frame {msg : List UInt8} : chomp (msg ++ [13]) = msg := by
  rw [chomp, List.getLast?_concat, if_pos rfl, List.dropLast_concat]

theorem frame_append (msg v : List UInt8) : frame msg ++ v = (msg ++ [13]) ++ 10 :: v := by
  simp [frame]

theorem carries {msg : List UInt8} (h : 10 ∉ msg) : Carries find Plain frame some msg := by
  have hline : (10 : UInt8) ∉ msg ++ [13] := by simpa using h
  constructor
  · intro v _
    rw [frame_append, find_line hline, chomp_frame]
    simp [frame]
  · intro u _ hu hlt
    have hfront : u <+: msg ++ [13] := by
      have hsplit : frame msg = (msg ++ [13]) ++ [10] := by simp [frame]
      rw [hsplit] at hu hlt
      rw [List.length_append, List.length_singleton] at hlt
      exact List.prefix_of_prefix_length_le hu (List.prefix_append _ _) (by omega)
    exact find_more fun hmem => hline (hfront.subset hmem)

end Lines

end LineCodec

open LineCodec

/-- A text whose lines do not begin with the byte 4 comes to the callback line by line, however it
is cut: the finished lines, each without its line break, and the last one when it is finished. -/
theorem line_reads {arrivals : List Arrival} (h : Bursts arrivals)
    (hplain : Plain (stream arrivals)) (hshort : ShortLines (stream arrivals)) :
    (reads lineCodec arrivals).received =
        ((stream arrivals).splitOn 10).dropLast.map (fun line => some (chomp line)) ∧
      (reads lineCodec arrivals).state_ = (if Ended arrivals then .Closed else .Connected) ∧
      (¬ Ended arrivals → ((stream arrivals).splitOn 10).getLast? =
        some (reads lineCodec arrivals).input_.content) := by
  obtain ⟨e, hdec, hstate, hrest⟩ :=
    reads_decodes stable agrees find_nil arrivals hplain
      (suits h hplain fun _ _ _ hu hdec => hshort.waiting hu hdec)
  obtain ⟨hms, r, rfl, hlast⟩ := decodes_lines hdec
  refine ⟨hms, by simpa using hstate, fun hgoing => ?_⟩
  rw [hrest r rfl hgoing, hlast]

theorem two_lines_read :
    let arrivals : List Arrival := [{ bytes := [104, 105, 13] }, { bytes := [10, 10, 98, 4] }]
    (reads lineCodec arrivals).received =
        ((stream arrivals).splitOn 10).dropLast.map (fun line => some (chomp line)) ∧
      (reads lineCodec arrivals).state_ = (if Ended arrivals then .Closed else .Connected) ∧
      (¬ Ended arrivals → ((stream arrivals).splitOn 10).getLast? =
        some (reads lineCodec arrivals).input_.content) := by
  intro arrivals
  have hbursts : Bursts arrivals := by simp [arrivals, Bursts]
  have hplain : Plain (stream arrivals) := by
    constructor <;> decide
  have hshort : ShortLines (stream arrivals) := by
    intro w hw _
    exact hw.length_le.trans_lt (by decide)
  exact line_reads hbursts hplain hshort

end LazyNet.HandyCodecs
