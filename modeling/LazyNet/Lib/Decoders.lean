import LazyNet.Lib.Framing

/-! A stream that a decoder cuts into messages, looking at the elements that wait at its front. -/
namespace LazyNet.Decoders
open LazyNet.Framing
variable {β μ : Type*}

inductive Outcome (μ : Type*) where
  /-- they are not a message yet -/
  | more
  | bad
  /-- the first `n` of them are the message `m` -/
  | message (n : Nat) (m : μ)
  deriving DecidableEq, Repr

inductive Ending (β : Type*) where
  /-- these elements wait for more -/
  | waiting (rest : List β)
  /-- the decoder has refused what it found -/
  | stopped
  deriving DecidableEq, Repr

/-- The decoder finds the messages `ms` in the stream and comes to the end `e`. -/
inductive Decodes (dec : List β → Outcome μ) : List β → List μ → Ending β → Prop
  | more {s : List β} (h : dec s = .more) : Decodes dec s [] (.waiting s)
  | bad {s : List β} (h : dec s = .bad) : Decodes dec s [] .stopped
  | message {s : List β} {n : Nat} {m : μ} {ms : List μ} {e : Ending β}
      (h : dec s = .message n m) (hrest : Decodes dec (s.drop n) ms e) : Decodes dec s (m :: ms) e

/-- On the streams of `P`, what is found in a stream stays when more elements come. -/
structure Stable (dec : List β → Outcome μ) (P : List β → Prop) : Prop where
  initial : ∀ u v, P (u ++ v) → P u
  rest : ∀ s n m, P s → dec s = .message n m → P (s.drop n)
  fits : ∀ s n m, P s → dec s = .message n m → 0 < n ∧ n ≤ s.length
  message : ∀ u v n m, P (u ++ v) → dec u = .message n m → dec (u ++ v) = .message n m
  bad : ∀ u v, P (u ++ v) → dec u = .bad → dec (u ++ v) = .bad

variable {dec : List β → Outcome μ} {P : List β → Prop}

theorem Decodes.unique {s : List β} {ms ms' : List μ} {e e' : Ending β}
    (h : Decodes dec s ms e) (h' : Decodes dec s ms' e') : ms = ms' ∧ e = e' := by
  induction h generalizing ms' with
  | more hdec =>
    cases h' with
    | more => exact ⟨rfl, rfl⟩
    | bad hdec' => rw [hdec] at hdec'; cases hdec'
    | message hdec' => rw [hdec] at hdec'; cases hdec'
  | bad hdec =>
    cases h' with
    | more hdec' => rw [hdec] at hdec'; cases hdec'
    | bad => exact ⟨rfl, rfl⟩
    | message hdec' => rw [hdec] at hdec'; cases hdec'
  | message hdec _ ih =>
    cases h' with
    | more hdec' => rw [hdec] at hdec'; cases hdec'
    | bad hdec' => rw [hdec] at hdec'; cases hdec'
    | message hdec' hrest' =>
      rw [hdec] at hdec'
      cases hdec'
      have hi := ih hrest'
      exact ⟨by rw [hi.1], hi.2⟩

theorem Decodes.waits {s r : List β} {ms : List μ} (h : Decodes dec s ms (.waiting r)) :
    dec r = .more := by
  generalize he : Ending.waiting r = e at h
  induction h with
  | more hdec => cases he; exact hdec
  | bad => cases he
  | message _ _ ih => exact ih he

theorem Decodes.suffix {s r : List β} {ms : List μ} (h : Decodes dec s ms (.waiting r)) :
    r <:+ s := by
  generalize he : Ending.waiting r = e at h
  induction h with
  | more => cases he; exact List.suffix_rfl
  | bad => cases he
  | message _ _ ih => exact (ih he).trans (List.drop_suffix _ _)

theorem Stable.decodes (hd : Stable dec P) {s : List β} (hs : P s) :
    ∃ ms e, Decodes dec s ms e := by
  induction hlen : s.length using Nat.strongRecOn generalizing s with
  | ind k ih =>
    cases hdec : dec s with
    | more => exact ⟨[], .waiting s, .more hdec⟩
    | bad => exact ⟨[], .stopped, .bad hdec⟩
    | message n m =>
      have hn := hd.fits s n m hs hdec
      have hlt : (s.drop n).length < k := by
        rw [List.length_drop]
        omega
      obtain ⟨ms, e, h⟩ := ih (s.drop n).length hlt (hd.rest s n m hs hdec) rfl
      exact ⟨m :: ms, e, .message hdec h⟩

theorem Stable.append (hd : Stable dec P) {u v r : List β} {ms ms' : List μ} {e : Ending β}
    (h : Decodes dec u ms (.waiting r)) (hP : P (u ++ v)) (h' : Decodes dec (r ++ v) ms' e) :
    Decodes dec (u ++ v) (ms ++ ms') e := by
  generalize he : Ending.waiting r = e₀ at h
  induction h with
  | more => cases he; exact h'
  | bad => cases he
  | message hdec hrest ih =>
    rename_i s n m ms₀ e₁
    have hn := hd.fits s n m (hd.initial s v hP) hdec
    have hmsg := hd.message s v n m hP hdec
    have hdrop : (s ++ v).drop n = s.drop n ++ v := List.drop_append_of_le_length hn.2
    apply Decodes.message hmsg
    rw [hdrop]
    apply ih _ he
    rw [← hdrop]
    exact hd.rest (s ++ v) n m hP hmsg

theorem Stable.append_stopped (hd : Stable dec P) {u v : List β} {ms : List μ}
    (h : Decodes dec u ms .stopped) (hP : P (u ++ v)) : Decodes dec (u ++ v) ms .stopped := by
  generalize he : Ending.stopped = e at h
  induction h with
  | more => cases he
  | bad hdec => exact .bad (hd.bad _ v hP hdec)
  | message hdec hrest ih =>
    rename_i s n m ms₀ e₁
    have hn := hd.fits s n m (hd.initial s v hP) hdec
    have hmsg := hd.message s v n m hP hdec
    have hdrop : (s ++ v).drop n = s.drop n ++ v := List.drop_append_of_le_length hn.2
    apply Decodes.message hmsg
    rw [hdrop]
    apply ih _ he
    rw [← hdrop]
    exact hd.rest (s ++ v) n m hP hmsg

theorem Stable.waiting (hd : Stable dec P) {u v r : List β} {ms : List μ}
    (h : Decodes dec u ms (.waiting r)) (hP : P (u ++ v)) : P (r ++ v) := by
  generalize he : Ending.waiting r = e at h
  induction h with
  | more => cases he; exact hP
  | bad => cases he
  | message hdec hrest ih =>
    rename_i s n m ms₀ e₁
    have hn := hd.fits s n m (hd.initial s v hP) hdec
    have hdrop : (s ++ v).drop n = s.drop n ++ v := List.drop_append_of_le_length hn.2
    apply ih _ he
    rw [← hdrop]
    exact hd.rest (s ++ v) n m hP (hd.message s v n m hP hdec)

variable {α : Type*} {frame : α → List β} {value : α → μ} {ms : List α}

/-- The frame of `m` is taken for the message `value m`, and no earlier than it is complete. -/
structure Carries (dec : List β → Outcome μ) (P : List β → Prop) (frame : α → List β)
    (value : α → μ) (m : α) : Prop where
  whole : ∀ v, P (frame m ++ v) → dec (frame m ++ v) = .message (frame m).length (value m)
  part : ∀ u, P u → u <+: frame m → u.length < (frame m).length → dec u = .more

theorem Stable.drop_frames (hd : Stable dec P) (hc : ∀ m ∈ ms, Carries dec P frame value m)
    {v : List β} (hP : P ((ms.map frame).flatten ++ v)) : P v := by
  induction ms with
  | nil => exact hP
  | cons m ms ih =>
    simp only [List.map_cons, List.flatten_cons, List.append_assoc] at hP
    have hrest := hd.rest _ _ _ hP ((hc m List.mem_cons_self).whole _ hP)
    rw [List.drop_left] at hrest
    exact ih (fun m' hm' => hc m' (List.mem_cons_of_mem m hm')) hrest

theorem Stable.frames (hd : Stable dec P) (hc : ∀ m ∈ ms, Carries dec P frame value m)
    {v : List β} {ms' : List μ} {e : Ending β} (hP : P ((ms.map frame).flatten ++ v))
    (h : Decodes dec v ms' e) :
    Decodes dec ((ms.map frame).flatten ++ v) (ms.map value ++ ms') e := by
  induction ms with
  | nil => exact h
  | cons m ms ih =>
    simp only [List.map_cons, List.flatten_cons, List.cons_append, List.append_assoc] at hP ⊢
    have hwhole := (hc m List.mem_cons_self).whole _ hP
    have hrest := hd.rest _ _ _ hP hwhole
    apply Decodes.message hwhole
    rw [List.drop_left] at hrest ⊢
    exact ih (fun m' hm' => hc m' (List.mem_cons_of_mem m hm')) hrest

theorem Stable.frames_take (hd : Stable dec P) (hnil : dec [] = .more)
    (hc : ∀ m ∈ ms, Carries dec P frame value m) (n : Nat)
    (hP : P ((ms.map frame).flatten.take n)) :
    Decodes dec ((ms.map frame).flatten.take n)
      ((ms.take (completed (ms.map frame) n)).map value) (.waiting (part (ms.map frame) n)) := by
  rw [take_eq, ← List.map_take] at hP ⊢
  have hmore : dec (part (ms.map frame) n) = .more := by
    obtain hnone | ⟨f, hf, hpre, hlt⟩ := part_short (ms.map frame) n
    · rw [hnone]
      exact hnil
    · obtain ⟨m, hm, rfl⟩ := List.mem_map.mp hf
      apply (hc m hm).part _ _ hpre hlt
      have hlast := hd.drop_frames (fun m' hm' => hc m' (List.mem_of_mem_take hm')) hP
      exact hlast
  have h := hd.frames (fun m hm => hc m (List.mem_of_mem_take hm)) hP (.more hmore)
  rwa [List.append_nil] at h

end LazyNet.Decoders
