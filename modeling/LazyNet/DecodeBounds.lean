import LazyNet.DSServer

/-! What decoding does to the buffer on arbitrary bytes: when the parser is kept inside the
received bytes, and which frames are removed. -/
namespace LazyNet.DecodeBounds
open LazyNet.Words LazyNet.HandyBuffer LazyNet.ExternalMsgCodec LazyNet.MsDsProtocol
open LazyNet.DSServer
variable {Message : Type} (pb : Protobuf Message) (junk : Nat → UInt8) (r : Registry)

/-- The parser got a range of received bytes, and the buffer is in order again after losing
nothing or one complete frame. -/
def StaysInside (x : Buffer) (d : Decoded Message) : Prop :=
  (∀ p n, d.parsed = some (p, n) → 0 ≤ n ∧ x.b_ ≤ p ∧ p + n ≤ x.e_) ∧ d.buf.Ok ∧
    ∃ k, k ≤ x.size ∧ d.buf.size = x.size - k ∧ (k = 0 ∨ k = headSize + d.info.length.toNat)

/-- The head at the start of the buffer asks for no parsing, or for a body that is there
and whose length is a positive `int`. -/
def BodyPresent (x : Buffer) (h : BaseHead) : Prop :=
  h.length = 0 ∨ pb.generated (r.getType h.cmd).1 = false ∨
    (h.length.toNat < 2 ^ 31 ∧ headSize + h.length.toNat ≤ x.size)

variable {pb junk r}

theorem toInt_of_lt {v : UInt32} (h : v.toNat < 2 ^ 31) : toInt v = v.toNat := by
  rw [toInt, if_pos h]

theorem toInt_neg {v : UInt32} (h : ¬ v.toNat < 2 ^ 31) : toInt v < 0 := by
  have hlt := v.toNat_lt
  rw [toInt, if_neg h]
  omega

theorem staysInside_untouched {x : Buffer} (hx : x.Ok) {d : Decoded Message}
    (hp : d.parsed = none) (hbuf : d.buf = x) : StaysInside x d := by
  refine ⟨fun p n h => ?_, hbuf ▸ hx, 0, Nat.zero_le _, by rw [hbuf, Nat.sub_zero], .inl rfl⟩
  rw [hp] at h
  cases h

theorem range_iff {x : Buffer} {h : BaseHead} {rest : List UInt8} (hs : Starts x h rest) :
    (0 ≤ toInt h.length ∧ x.b_ ≤ x.b_ + headSize ∧
      ((x.b_ + headSize : Nat) : Int) + toInt h.length ≤ x.e_) ↔
    (h.length.toNat < 2 ^ 31 ∧ headSize + h.length.toNat ≤ x.size) := by
  have hb := hs.ok.b_le
  rw [hs.ok.size_eq]
  by_cases hlt : h.length.toNat < 2 ^ 31
  · rw [toInt_of_lt hlt]
    omega
  · have hneg := toInt_neg hlt
    omega

theorem staysInside_of_present {x : Buffer} (hx : x.Ok) (info : BaseHead)
    (hbody : 20 ≤ x.size → BodyPresent pb r x (loadHead (x.mem junk) x.b_)) :
    StaysInside x (decode pb junk r x info) := by
  by_cases hsz : x.size < 20
  · rw [decode_short pb junk r info hsz]
    exact staysInside_untouched hx rfl rfl
  obtain ⟨h, hs⟩ := starts_of_size hx hsz
  have hs20 : headSize ≤ x.size := Nat.not_lt.mp hsz
  have hpresent := hbody hs20
  rw [hs.loadHead junk, BodyPresent] at hpresent
  by_cases h0 : h.length = 0
  · rw [hs.decode_bodiless pb junk r info h0]
    exact ⟨by simp, (hx.consume hs20).1, headSize, hs20, hx.size_consume hs20, by simp [h0]⟩
  by_cases hg : pb.generated (r.getType h.cmd).1 = true
  swap
  · rw [hs.decode_untyped pb junk r info h0 (by simpa using hg)]
    exact staysInside_untouched hx rfl rfl
  have hin := hpresent.resolve_left h0 |>.resolve_left (by simp [hg])
  cases hp : pb.parsePartial (r.getType h.cmd).1 (spill (x.content.drop headSize) junk)
      (toInt h.length) with
  | none =>
    rw [hs.decode_unparsed pb junk r info h0 hg hp]
    refine ⟨fun p n hpn => ?_, hx, 0, Nat.zero_le _, rfl, .inl rfl⟩
    cases hpn
    exact (range_iff hs).mpr hin
  | some m =>
    rw [hs.decode_parsed pb junk r info h0 hg hp]
    refine ⟨fun p n hpn => ?_, (hx.consume hin.2).1, _, hin.2, hx.size_consume hin.2, .inr rfl⟩
    cases hpn
    exact (range_iff hs).mpr hin

theorem present_of_staysInside {x : Buffer} (hx : x.Ok) (info : BaseHead)
    (hin : StaysInside x (decode pb junk r x info)) (hs20 : 20 ≤ x.size) :
    BodyPresent pb r x (loadHead (x.mem junk) x.b_) := by
  obtain ⟨h, hs⟩ := starts_of_size hx (Nat.not_lt.mpr hs20)
  rw [hs.loadHead junk, BodyPresent]
  by_cases h0 : h.length = 0
  · exact .inl h0
  by_cases hg : pb.generated (r.getType h.cmd).1 = true
  swap
  · exact .inr (.inl (by simpa using hg))
  -- the parser gets the same range whether it accepts it or not
  have hparsed : (decode pb junk r x info).parsed = some (x.b_ + headSize, toInt h.length) := by
    cases hp : pb.parsePartial (r.getType h.cmd).1 (spill (x.content.drop headSize) junk)
        (toInt h.length) with
    | none => rw [hs.decode_unparsed pb junk r info h0 hg hp]
    | some m => rw [hs.decode_parsed pb junk r info h0 hg hp]
  exact .inr (.inr ((range_iff hs).mp (hin.1 _ _ hparsed)))

/-- Decoding stays inside the buffer exactly when the body it goes to parse is there. -/
theorem decode_staysInside_iff {x : Buffer} (hx : x.Ok) (info : BaseHead) :
    StaysInside x (decode pb junk r x info) ↔
      (20 ≤ x.size → BodyPresent pb r x (loadHead (x.mem junk) x.b_)) :=
  ⟨present_of_staysInside hx info, staysInside_of_present hx info⟩

def filled (bytes : List UInt8) : Buffer :=
  { buf_ := bytes, b_ := 0, e_ := bytes.length, cap_ := bytes.length }

theorem filled_ok (bytes : List UInt8) : (filled bytes).Ok :=
  ⟨Nat.zero_le _, Nat.le_refl _, rfl⟩

theorem filled_starts (h : BaseHead) (rest : List UInt8) :
    Starts (filled (headBytes h ++ rest)) h rest := by
  refine ⟨filled_ok _, ?_⟩
  simp only [filled, Buffer.content, List.take_length, List.drop_zero]

/-- A body of 1000 bytes is announced and two are there: the parser is sent past the end. -/
theorem long_length_leaves_buffer :
    let x := filled (headBytes { cmd := MSG_MS_DS_DSREGISTERACK, length := 1000 } ++ [0x08, 5])
    x.Ok ∧ ¬ StaysInside x
      (decode ackProtobuf (fun _ => 0) (Registry.ofPairs initAdmin) x {}) := by
  refine ⟨filled_ok _, fun h => ?_⟩
  have hrange := h.1 20 1000 (by decide)
  exact absurd hrange.2.2 (by decide)

theorem ack_staysInside_iff :
    let x := filled (headBytes { cmd := MSG_MS_DS_DSREGISTERACK, length := 2 } ++ [0x08, 5])
    StaysInside x (decode ackProtobuf (fun _ => 0) (Registry.ofPairs initAdmin) x {}) ↔
      (20 ≤ x.size → BodyPresent ackProtobuf (Registry.ofPairs initAdmin) x
        (loadHead (x.mem fun _ => 0) x.b_)) :=
  decode_staysInside_iff (filled_ok _) {}

/-- The frame at the start cannot become a message: its command is not registered, the
registered name has no generated type, or the body does not parse. -/
inductive Bad (pb : Protobuf Message) (junk : Nat → UInt8) (r : Registry) (h : BaseHead)
    (rest : List UInt8) : Prop where
  | unregistered (hr : r.cmd2Type_[h.cmd]? = none)
  | ungenerated (name : String) (hr : r.cmd2Type_[h.cmd]? = some name)
      (hg : pb.generated name = false)
  | unparsed (name : String) (hr : r.cmd2Type_[h.cmd]? = some name)
      (hp : pb.parsePartial name (spill rest junk) (toInt h.length) = none)

theorem bad_iff {h : BaseHead} {rest : List UInt8} :
    Bad pb junk r h rest ↔ pb.generated (r.getType h.cmd).1 = false ∨
      pb.parsePartial (r.getType h.cmd).1 (spill rest junk) (toInt h.length) = none := by
  cases hr : r.cmd2Type_[h.cmd]? with
  | none =>
    have hg : pb.generated (r.getType h.cmd).1 = false := by
      rw [Registry.getType_unknown hr]
      exact pb.generated_empty
    exact ⟨fun _ => .inl hg, fun _ => .unregistered hr⟩
  | some name =>
    have ht : (r.getType h.cmd).1 = name := by simp [Registry.getType, Tables.slot_of_get hr]
    rw [ht]
    constructor
    · intro hbad
      cases hbad with
      | unregistered hn => rw [hr] at hn; cases hn
      | ungenerated name' hn hg => rw [hr] at hn; cases hn; exact .inl hg
      | unparsed name' hn hp => rw [hr] at hn; cases hn; exact .inr hp
    · intro h
      cases h with
      | inl hg => exact .ungenerated name hr hg
      | inr hp => exact .unparsed name hr hp

theorem decode_good {x : Buffer} {h : BaseHead} {rest : List UInt8} (hs : Starts x h rest)
    (h0 : h.length ≠ 0) (hgood : ¬ Bad pb junk r h rest) (info : BaseHead) :
    ∃ m, decode pb junk r x info =
      { msg := some m, info := h, buf := x.consume (headSize + h.length.toNat),
        registry := (r.getType h.cmd).2, parsed := some (x.b_ + headSize, toInt h.length) } := by
  rw [bad_iff, not_or, Bool.not_eq_false] at hgood
  obtain ⟨m, hm⟩ := Option.ne_none_iff_exists'.mp hgood.2
  exact ⟨m, hs.decode_parsed pb junk r info h0 hgood.1 hm⟩

theorem decode_bad {x : Buffer} {h : BaseHead} {rest : List UInt8} (hs : Starts x h rest)
    (h0 : h.length ≠ 0) (hbad : Bad pb junk r h rest) (info : BaseHead) :
    (decode pb junk r x info).msg = none ∧ (decode pb junk r x info).info = h ∧
      (decode pb junk r x info).buf = x := by
  by_cases hg : pb.generated (r.getType h.cmd).1 = true
  · have hp := (bad_iff.mp hbad).resolve_left (by simp [hg])
    rw [hs.decode_unparsed pb junk r info h0 hg hp]
    exact ⟨rfl, rfl, rfl⟩
  · rw [hs.decode_untyped pb junk r info h0 (by simpa using hg)]
    exact ⟨rfl, rfl, rfl⟩

section CompleteFrame
variable {x : Buffer} {h : BaseHead} {body w : List UInt8}

theorem content_of_complete (hs : Starts x h (body ++ w)) (hb : body.length = h.length.toNat) :
    (x.consume (headSize + h.length.toNat)).content = w := by
  have hlen : h.length.toNat ≤ (body ++ w).length := by rw [List.length_append]; omega
  rw [(hs.consume hlen).2, ← hb, List.drop_left]

theorem content_ne_rest (hs : Starts x h (body ++ w)) : x.content ≠ w := by
  intro hw
  have hl := congrArg List.length hw
  rw [hs.content] at hl
  simp only [List.length_append, headBytes_length, headSize] at hl
  omega

theorem decode_removes_iff (hs : Starts x h (body ++ w)) (hb : body.length = h.length.toNat)
    (info : BaseHead) :
    (decode pb junk r x info).buf.content = w ↔
      h.length = 0 ∨ ¬ Bad pb junk r h (body ++ w) := by
  by_cases h0 : h.length = 0
  · have hc := content_of_complete hs hb
    rw [hs.decode_bodiless pb junk r info h0]
    simp only [h0, UInt32.toNat_zero, Nat.add_zero] at hc
    exact ⟨fun _ => .inl h0, fun _ => hc⟩
  by_cases hbad : Bad pb junk r h (body ++ w)
  · rw [(decode_bad hs h0 hbad info).2.2]
    exact ⟨fun hw => absurd hw (content_ne_rest hs),
      fun hor => absurd hbad (hor.resolve_left h0)⟩
  · obtain ⟨m, hd⟩ := decode_good hs h0 hbad info
    rw [hd]
    exact ⟨fun _ => .inr hbad, fun _ => content_of_complete hs hb⟩

/-- The callback completes and removes exactly a complete frame when it has a body and is
not bad: a bad frame with a body blocks the stream, and one without ends in `handle`. -/
theorem onRead_removes_iff (hs : Starts x h (body ++ w)) (hb : body.length = h.length.toNat)
    (handled : List (BaseHead × Message)) :
    (∃ l, onRead pb junk ⟨r, x, handled⟩ = .ok l ∧ l.input_.content = w) ↔
      h.length ≠ 0 ∧ ¬ Bad pb junk r h (body ++ w) := by
  have hsz : ¬ x.size < 20 := by rw [hs.size_eq]; simp [headSize]
  rw [onRead_decoded (show ¬ (⟨r, x, handled⟩ : Link Message).input_.size < 20 from hsz)]
  by_cases h0 : h.length = 0
  · simp only [hs.decode_bodiless pb junk r {} h0]
    simp [h0, handle]
  by_cases hbad : Bad pb junk r h (body ++ w)
  · obtain ⟨d1, d2, d3⟩ := decode_bad hs h0 hbad {}
    simp only [d1, d2, d3]
    simp [h0, hbad, content_ne_rest hs]
  · obtain ⟨m, hd⟩ := decode_good hs h0 hbad {}
    simp only [hd]
    simp [h0, hbad, handle, content_of_complete hs hb]

/-- Which complete frames are removed, by `decode` alone and by the whole callback. -/
theorem frame_removed_iff (hs : Starts x h (body ++ w)) (hb : body.length = h.length.toNat)
    (handled : List (BaseHead × Message)) :
    ((decode pb junk r x {}).buf.content = w ↔ h.length = 0 ∨ ¬ Bad pb junk r h (body ++ w)) ∧
    ((∃ l, onRead pb junk ⟨r, x, handled⟩ = .ok l ∧ l.input_.content = w) ↔
      h.length ≠ 0 ∧ ¬ Bad pb junk r h (body ++ w)) :=
  ⟨decode_removes_iff hs hb {}, onRead_removes_iff hs hb handled⟩

/-- A frame of an unknown command in front of a valid one: neither `decode` nor the callback
takes it out. -/
theorem unknown_command_blocks :
    let r := Registry.ofPairs initAdmin
    let h : BaseHead := { cmd := 0x999, length := 2 }
    let w := headBytes { cmd := MSG_MS_DS_DSREGISTERACK, length := 2 } ++ [0x08, 5]
    let x := filled (headBytes h ++ ([1, 2] ++ w))
    Bad ackProtobuf (fun _ => 0) r h ([1, 2] ++ w) ∧
      (decode ackProtobuf (fun _ => 0) r x {}).buf.content ≠ w ∧
      ¬ ∃ l, onRead ackProtobuf (fun _ => 0) ⟨r, x, []⟩ = .ok l ∧ l.input_.content = w := by
  intro r h w x
  have hbad : Bad ackProtobuf (fun _ => 0) r h ([1, 2] ++ w) := .unregistered (by decide)
  have hs : Starts x h ([1, 2] ++ w) := filled_starts _ _
  refine ⟨hbad, fun hw => ?_, fun hw => ?_⟩
  · exact ((decode_removes_iff hs (by decide) {}).mp hw).resolve_left (by decide) hbad
  · exact ((onRead_removes_iff hs (by decide) []).mp hw).2 hbad

theorem unknown_command_removed_iff :
    let r := Registry.ofPairs initAdmin
    let h : BaseHead := { cmd := 0x999, length := 2 }
    let x := filled (headBytes h ++ ([1, 2] ++ [7]))
    ((decode ackProtobuf (fun _ => 0) r x {}).buf.content = [7] ↔
      h.length = 0 ∨ ¬ Bad ackProtobuf (fun _ => 0) r h ([1, 2] ++ [7])) ∧
    ((∃ l, onRead ackProtobuf (fun _ => 0) ⟨r, x, []⟩ = .ok l ∧ l.input_.content = [7]) ↔
      h.length ≠ 0 ∧ ¬ Bad ackProtobuf (fun _ => 0) r h ([1, 2] ++ [7])) :=
  frame_removed_iff (filled_starts _ _) (by decide) []

end CompleteFrame

end LazyNet.DecodeBounds
