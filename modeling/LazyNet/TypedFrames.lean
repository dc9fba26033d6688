import LazyNet.CodecRoundTrip
import LazyNet.CommandTables

/-! All three encoders append one frame to whatever is queued. The frame of `encode(msg, buf)`
names its type and has no head; this is about that frame too, and about what the decoder, which
reads a head from every frame, makes of it. -/
namespace LazyNet.TypedFrames
open LazyNet.Words LazyNet.HandyBuffer LazyNet.ExternalMsgCodec LazyNet.MsDsProtocol
open LazyNet.CodecRoundTrip
variable {Message : Type} (pb : Protobuf Message) (msg : Message)

def nameBytes : List UInt8 := stringBytes (pb.full_name msg)

def typedBody : List UInt8 :=
  store32 (UInt32.ofNat (nameBytes pb msg).length) ++ nameBytes pb msg ++ pb.serialize msg

def typedLength : Nat := 8 + (nameBytes pb msg).length + (pb.serialize msg).length

def typedFrame : List UInt8 := store32 (UInt32.ofNat (typedLength pb msg)) ++ typedBody pb msg

theorem frame_length (word : UInt32) :
    (store32 word ++ typedBody pb msg).length = typedLength pb msg := by
  simp only [typedBody, typedLength, List.length_append, store32_length]
  omega

variable {pb msg}

theorem typedLength_lt (hfit : pb.NamesFit) (msg : Message) : typedLength pb msg < 2 ^ 32 := by
  have hname := hfit msg
  have hsize := pb.byteSize_lt msg
  rw [typedLength, nameBytes]
  omega

/-- The length goes over the zero that was put in its place, wherever the frame has been moved
meanwhile. -/
theorem encodeTyped_appends (pb : Protobuf Message) (msg : Message) {x : Buffer} (hx : x.Ok) :
    (encodeTyped pb msg x).Ok ∧
      (encodeTyped pb msg x).content = x.content ++ typedFrame pb msg := by
  obtain ⟨h1, c1⟩ := appendValue_ok hx 0
  obtain ⟨h2, c2⟩ := appendValue_ok h1 (UInt32.ofNat (nameBytes pb msg).length)
  obtain ⟨h3, c3⟩ := h2.append (nameBytes pb msg)
  obtain ⟨h4, c4⟩ := h3.append (pb.serialize msg)
  rw [nameBytes] at h2 c2 h3 c3 h4 c4
  simp only [encodeTyped]
  generalize (((x.appendValue 0).appendValue _).append _).append _ = y at h4 c4
  have hcontent : y.content = x.content ++ (store32 0 ++ typedBody pb msg) := by
    rw [c4, c3, c2, c1]
    simp only [typedBody, nameBytes, List.append_assoc]
  have hsize : y.size = x.size + typedLength pb msg := by
    rw [← h4.content_length, hcontent, List.length_append, hx.content_length, frame_length]
  have hdiff : offsetDiff y.size x.size = typedLength pb msg := by
    rw [hsize, offsetDiff_of_le (Nat.le_add_right _ _), Nat.add_sub_cancel_left]
  rw [hdiff, ← hx.content_length]
  exact h4.write_over hcontent rfl

/-- Whatever is queued and whatever is done to make room, each encoder leaves the content as it
was with its own frame behind it. The length that is patched in stands at the start of that frame
and is the length of all of it. -/
theorem encoders_append (hfit : pb.NamesFit) (r : Registry) {x : Buffer} (hx : x.Ok) :
    (∀ call : EncodeCall Message, (call.run pb (r, x)).2.Ok ∧
      (call.run pb (r, x)).2.content =
        x.content ++ frameOf pb (r.getCmd (nameOf pb call)).1 call) ∧
    ∀ msg, (encodeTyped pb msg x).Ok ∧ ∃ word,
      (encodeTyped pb msg x).content = x.content ++ (store32 word ++ typedBody pb msg) ∧
      word.toNat = (store32 word ++ typedBody pb msg).length := by
  constructor
  · intro call
    cases call with
    | message msg err para1 para2 => exact encodeMessage_appends pb r msg err para1 para2 hx
    | name typeName err para1 para2 => exact encodeName_appends r typeName err para1 para2 hx
  · intro msg
    obtain ⟨hok, hc⟩ := encodeTyped_appends pb msg hx
    refine ⟨hok, UInt32.ofNat (typedLength pb msg), hc, ?_⟩
    have hlt := typedLength_lt hfit msg
    rw [frame_length, UInt32.toNat_ofNat']
    exact Nat.mod_eq_of_lt hlt

theorem encoders_append_behind_queued :
    let x : Buffer := { buf_ := [9, 1, 2, 9], b_ := 1, e_ := 3, cap_ := 4 }
    (∀ call : EncodeCall (Fin 128), (call.run ackProtobuf (Registry.ofPairs initAdmin, x)).2.Ok ∧
      (call.run ackProtobuf (Registry.ofPairs initAdmin, x)).2.content = x.content ++
        frameOf ackProtobuf
          ((Registry.ofPairs initAdmin).getCmd (nameOf ackProtobuf call)).1 call) ∧
    ∀ msg, (encodeTyped ackProtobuf msg x).Ok ∧ ∃ word,
      (encodeTyped ackProtobuf msg x).content =
        x.content ++ (store32 word ++ typedBody ackProtobuf msg) ∧
      word.toNat = (store32 word ++ typedBody ackProtobuf msg).length := by
  have hfit : ackProtobuf.NamesFit := by
    intro m
    have hlen : (stringBytes "MS_DS.DSRegisterACK").length + 8 < 2 ^ 31 := by decide
    exact hlen
  exact encoders_append hfit (Registry.ofPairs initAdmin) ⟨by decide, by decide, rfl⟩

def ParsesTyped (pb : Protobuf Message) : Prop :=
  ∀ name data size m, pb.parsePartial name data size = some m → pb.full_name m = name

structure GivesBack (d : Decoded Message) (msg : Message) (w : List UInt8) : Prop where
  msg : d.msg = some msg
  ok : d.buf.Ok
  rest : d.buf.content = w

/-- The bytes from the 21st of a typed frame on, where the decoder looks for a body. -/
def afterTwenty (pb : Protobuf Message) (msg : Message) (w : List UInt8) (junk : Nat → UInt8) :
    Nat → UInt8 :=
  spill ((nameBytes pb msg ++ pb.serialize msg ++ w).drop 12) junk

/-- The first words of a typed frame happen to be a head for what follows: the length of the
name, in the other byte order, is what there is after twenty bytes; the length of the frame, in
the other byte order, is the command of the type; and there is the message after twenty bytes. -/
structure Coincides (pb : Protobuf Message) (r : Registry) (msg : Message) (w : List UInt8)
    (junk : Nat → UInt8) : Prop where
  length : (htonl (UInt32.ofNat (nameBytes pb msg).length)).toNat + 12 =
    (nameBytes pb msg).length + (pb.serialize msg).length
  command : r.cmd2Type_[htonl (UInt32.ofNat (typedLength pb msg))]? = some (pb.full_name msg)
  body : (nameBytes pb msg).length = 12 ∨
    pb.parsePartial (pb.full_name msg) (afterTwenty pb msg w junk)
      (toInt (htonl (UInt32.ofNat (nameBytes pb msg).length))) = some msg

theorem store32_injective {u v : UInt32} (h : store32 u = store32 v) : u = v := by
  simp only [store32, List.cons.injEq, and_true] at h
  obtain ⟨h0, h1, h2, h3⟩ := h
  rw [← load32_store u, ← load32_store v, h0, h1, h2, h3]

theorem head_of_words {x : Buffer} {h : BaseHead} {rest l : List UInt8} {u v : UInt32}
    (hs : Starts x h rest) (hc : x.content = store32 u ++ (store32 v ++ l)) :
    h.cmd = htonl u ∧ h.length = htonl v ∧ rest = l.drop 12 := by
  have hhead := hs.content
  rw [hc, headBytes] at hhead
  simp only [List.append_assoc] at hhead
  obtain ⟨hcmd, hhead⟩ := List.append_inj hhead rfl
  obtain ⟨hlength, hhead⟩ := List.append_inj hhead rfl
  refine ⟨?_, ?_, ?_⟩
  · rw [store32_injective hcmd, htonl_htonl]
  · rw [store32_injective hlength, htonl_htonl]
  · rw [hhead]
    rfl

theorem size_of_consume_ok {x : Buffer} (hx : x.Ok) {k : Nat} (hk : k < 2 ^ 64)
    (h : (x.consume k).Ok) : k ≤ x.size := by
  have hb := hx.b_le
  rw [hx.size_eq]
  by_contra hlt
  have hnot : ¬ x.b_ + k ≤ x.e_ := by omega
  have hne : ({ x with b_ := x.b_ + k } : Buffer).size ≠ 0 := by
    simp only [Buffer.size, offsetDiff, if_neg hnot]
    omega
  have hle := h.b_le
  simp only [Buffer.consume, if_neg hne] at hle
  exact hnot hle

theorem typedFrame_content {x : Buffer} {w : List UInt8}
    (hc : x.content = typedFrame pb msg ++ w) :
    x.content = store32 (UInt32.ofNat (typedLength pb msg)) ++
      (store32 (UInt32.ofNat (nameBytes pb msg).length) ++
        (nameBytes pb msg ++ pb.serialize msg ++ w)) := by
  rw [hc, typedFrame, typedBody]
  simp only [List.append_assoc]

theorem typedFrame_size {x : Buffer} (hx : x.Ok) {w : List UInt8}
    (hc : x.content = typedFrame pb msg ++ w) : x.size = typedLength pb msg + w.length := by
  rw [← hx.content_length, hc, List.length_append, typedFrame, frame_length]

section Decoding
variable {r : Registry} {x : Buffer} {w : List UInt8} {junk : Nat → UInt8}

theorem length_ne_zero (h : (htonl (UInt32.ofNat (nameBytes pb msg).length)).toNat + 12 =
    (nameBytes pb msg).length + (pb.serialize msg).length)
    (hg : pb.generated (pb.full_name msg) = true) :
    htonl (UInt32.ofNat (nameBytes pb msg).length) ≠ 0 := by
  intro hzero
  have hname : (nameBytes pb msg).length ≠ 0 := by
    intro hnil
    simp only [nameBytes, stringBytes, List.length_map, List.length_eq_zero_iff] at hnil
    have hempty : pb.full_name msg = "" := String.toList_eq_nil_iff.mp hnil
    rw [hempty, pb.generated_empty] at hg
    cases hg
  have hword : UInt32.ofNat (nameBytes pb msg).length = 0 := by
    rw [← htonl_htonl (UInt32.ofNat _), hzero]
    rfl
  have hmod := congrArg UInt32.toNat hword
  rw [UInt32.toNat_ofNat', UInt32.toNat_zero] at hmod
  rw [hzero, UInt32.toNat_zero] at h
  omega

theorem coincides_of_givesBack (htyped : ParsesTyped pb) (hx : x.Ok)
    (hc : x.content = typedFrame pb msg ++ w) {info : BaseHead}
    (hd : GivesBack (decode pb junk r x info) msg w) : Coincides pb r msg w junk := by
  obtain ⟨h, hs, h0, hg, hp⟩ := starts_of_decode_some hx hd.msg
  obtain ⟨hcmd, hlength, hrest⟩ := head_of_words hs (typedFrame_content hc)
  rw [hs.decode_parsed pb junk r info h0 hg hp] at hd
  have hlt := h.length.toNat_lt
  have hfits := size_of_consume_ok hx (by rw [headSize]; omega) hd.ok
  have hleft := congrArg List.length hd.rest
  rw [(hx.consume hfits).2, List.length_drop, hx.content_length] at hleft
  have hsize := typedFrame_size hx hc
  have htype := htyped _ _ _ _ hp
  refine ⟨?_, ?_, .inr ?_⟩
  · rw [← hlength]
    rw [typedLength] at hsize
    simp only [headSize] at hfits hleft
    omega
  · rw [← hcmd, htype]
    exact Registry.getType_generated hg
  · rw [← htype] at hp
    rw [afterTwenty, ← hrest, ← hlength]
    exact hp

theorem givesBack_of_coincides (hpb : pb.Inverts) (hg : pb.generated (pb.full_name msg) = true)
    (hx : x.Ok) (hc : x.content = typedFrame pb msg ++ w) (info : BaseHead)
    (h : Coincides pb r msg w junk) : GivesBack (decode pb junk r x info) msg w := by
  have hsize := typedFrame_size hx hc
  have hlen := h.length
  have hsz : ¬ x.size < 20 := by
    rw [hsize, typedLength]
    omega
  obtain ⟨head, hs⟩ := starts_of_size hx hsz
  obtain ⟨hcmd, hlength, hrest⟩ := head_of_words hs (typedFrame_content hc)
  have hname : (r.getType head.cmd).1 = pb.full_name msg := by
    rw [hcmd]
    simp [Registry.getType, Tables.slot_of_get h.command]
  have h0 : head.length ≠ 0 := by
    rw [hlength]
    exact length_ne_zero hlen hg
  have hparse : pb.parsePartial (r.getType head.cmd).1 (spill (x.content.drop headSize) junk)
      (toInt head.length) = some msg := by
    rw [hname, hrest, hlength]
    cases h.body with
    | inl htwelve =>
      have hbytes := pb.byteSize_lt msg
      have hlen' : (htonl (UInt32.ofNat (nameBytes pb msg).length)).toNat =
          (pb.serialize msg).length := by omega
      rw [toInt, hlen', if_pos hbytes, List.append_assoc, List.drop_left' htwelve]
      exact hpb msg _ (holds_spill _ w junk)
    | inr hbody => exact hbody
  have hroom : headSize + head.length.toNat = typedLength pb msg := by
    rw [hlength, headSize, typedLength]
    omega
  have hfits : headSize + head.length.toNat ≤ x.size := by
    rw [hroom, hsize]
    omega
  obtain ⟨hok, hleft⟩ := hx.consume hfits
  rw [hs.decode_parsed pb junk r info h0 (by rw [hname]; exact hg) hparse]
  refine ⟨rfl, hok, ?_⟩
  rw [hleft, hroom, hc]
  exact List.drop_left' (frame_length pb msg _)

end Decoding

def ServerTables (r : Registry) : Prop :=
  ∃ lookups : List RegistryCall, (∀ call ∈ lookups, call.isLookup = true) ∧
    r = lookups.foldl (fun r call => call.run r) (Registry.ofPairs initAdmin)

theorem lookup_type {call : RegistryCall} (hl : call.isLookup = true) {r : Registry} {cmd : UInt32}
    {type : String} (h : (call.run r).cmd2Type_[cmd]? = some type) (hne : type ≠ "") :
    r.cmd2Type_[cmd]? = some type := by
  cases call with
  | onCodec cmd' type' => cases hl
  | getCmd typeName => exact h
  | getType cmd' =>
    by_cases hmem : cmd' ∈ r.cmd2Type_
    · rw [RegistryCall.run, getType_known hmem] at h
      exact h
    · simp only [RegistryCall.run, Registry.getType, Tables.slot_of_notMem hmem,
        Tables.get_insert] at h
      split_ifs at h
      · cases h
        exact absurd rfl hne
      · exact h

theorem lookups_type {lookups : List RegistryCall} (hl : ∀ call ∈ lookups, call.isLookup = true)
    {r : Registry} {cmd : UInt32} {type : String}
    (h : (lookups.foldl (fun r call => call.run r) r).cmd2Type_[cmd]? = some type)
    (hne : type ≠ "") : r.cmd2Type_[cmd]? = some type := by
  induction lookups generalizing r with
  | nil => exact h
  | cons call lookups ih =>
    have hrest := ih (fun c hc => hl c (List.mem_cons_of_mem call hc)) h
    exact lookup_type (hl call List.mem_cons_self) hrest hne

theorem ofPairs_type {pairs : List (UInt32 × String)} {cmd : UInt32} {type : String}
    (h : (Registry.ofPairs pairs).cmd2Type_[cmd]? = some type) : (cmd, type) ∈ pairs := by
  induction pairs using List.reverseRecOn with
  | nil => simp [Registry.ofPairs] at h
  | append_singleton pairs p ih =>
    have hlast : Registry.ofPairs (pairs ++ [p]) = (Registry.ofPairs pairs).onCodec p.1 p.2 := by
      simp [Registry.ofPairs]
    rw [hlast, Registry.onCodec, Tables.get_insert] at h
    rw [List.mem_append, List.mem_singleton]
    split_ifs at h with heq
    · cases h
      exact .inr (by rw [← heq])
    · exact .inl (ih h)

theorem no_command_coincides : ∀ p ∈ initAdmin,
    htonl (UInt32.ofNat (20 + (htonl (UInt32.ofNat (stringBytes p.2).length)).toNat)) ≠ p.1 := by
  decide

theorem server_never_coincides {r : Registry} (hr : ServerTables r) {w : List UInt8}
    {junk : Nat → UInt8} (hg : pb.generated (pb.full_name msg) = true) :
    ¬ Coincides pb r msg w junk := by
  intro h
  obtain ⟨lookups, hl, rfl⟩ := hr
  have hne : pb.full_name msg ≠ "" := by
    intro hempty
    rw [hempty, pb.generated_empty] at hg
    cases hg
  have hmem := ofPairs_type (lookups_type hl h.command hne)
  have hlen := h.length
  have htotal : typedLength pb msg =
      20 + (htonl (UInt32.ofNat (nameBytes pb msg).length)).toNat := by
    rw [typedLength]
    omega
  have hno := no_command_coincides _ hmem
  rw [htotal, nameBytes] at hno
  exact hno rfl

/-- A typed frame with anything behind it decodes to its message, as the frame with a head always
does, exactly when its first words happen to be a head for what follows; with the tables of the
server they never are. -/
theorem typed_frame_decodes_iff (hpb : pb.Inverts) (htyped : ParsesTyped pb) {r : Registry}
    {cmd : UInt32} {msg : Message} (hr : r.Knows cmd (pb.full_name msg))
    (hg : pb.generated (pb.full_name msg) = true) (hne : pb.serialize msg ≠ []) {x y : Buffer}
    {w : List UInt8} (hx : x.Ok) (hxc : x.content = (encodeTyped pb msg {}).content ++ w)
    (hy : y.Ok) (hyc : y.content = (encodeMessage pb r msg 0 0 0 {}).2.content ++ w)
    (junk : Nat → UInt8) (info : BaseHead) :
    (GivesBack (decode pb junk r x info) msg w ∧ GivesBack (decode pb junk r y info) msg w ↔
      Coincides pb r msg w junk) ∧
    (ServerTables r → ¬ GivesBack (decode pb junk r x info) msg w) := by
  have htypedFrame : x.content = typedFrame pb msg ++ w := by
    rw [hxc, (encodeTyped_appends pb msg Buffer.ok_default).2]
    rfl
  have hhead : Starts y (messageHead pb cmd msg 0 0 0) (pb.serialize msg ++ w) := by
    refine ⟨hy, ?_⟩
    rw [hyc, (encodeMessage_ok pb hr 0 0 0 Buffer.ok_default).2.2, ← List.append_assoc]
    rfl
  have hboth : GivesBack (decode pb junk r y info) msg w := by
    obtain ⟨hmsg, -, -, hok, hrest⟩ := decode_message hpb hr hg hne hhead junk info
    exact ⟨hmsg, hok, hrest⟩
  refine ⟨⟨fun h => ?_, fun h => ?_⟩, fun hserver h => ?_⟩
  · exact coincides_of_givesBack htyped hx htypedFrame h.1
  · exact ⟨givesBack_of_coincides hpb hg hx htypedFrame info h, hboth⟩
  · exact server_never_coincides hserver hg (coincides_of_givesBack htyped hx htypedFrame h)

/-- The server's answer with group id 5, encoded with its type name: the decoder takes its length
for a command that nobody registered. -/
theorem typed_ack_not_decoded :
    let r := Registry.ofPairs initAdmin
    let x := encodeTyped ackProtobuf 5 {}
    let d := decode ackProtobuf (fun _ => 0) r x {}
    r.Knows MSG_MS_DS_DSREGISTERACK (ackProtobuf.full_name 5) ∧ x.Ok ∧
      d.info.cmd = 0x1D000000 ∧ d.msg = none ∧ d.buf.size = x.size ∧ ¬ GivesBack d 5 [] := by
  intro r x d
  have hknows : r.Knows MSG_MS_DS_DSREGISTERACK (ackProtobuf.full_name 5) :=
    ⟨by decide, by decide⟩
  have hmsg : d.msg = none := by decide
  refine ⟨hknows, (encodeTyped_appends ackProtobuf 5 Buffer.ok_default).1, by decide, hmsg,
    by decide, fun h => ?_⟩
  have hback := h.msg
  rw [hmsg] at hback
  cases hback

theorem ackProtobuf_parsesTyped : ParsesTyped ackProtobuf := by
  intro name data size m h
  simp only [ackProtobuf] at h
  split_ifs at h with hname
  exact hname.1.symm

theorem typed_ack_decodes_iff :
    let r := Registry.ofPairs initAdmin
    let x := (encodeTyped ackProtobuf 5 {}).append [7]
    let y := (encodeMessage ackProtobuf r 5 0 0 0 {}).2.append [7]
    (GivesBack (decode ackProtobuf (fun _ => 0) r x {}) 5 [7] ∧
      GivesBack (decode ackProtobuf (fun _ => 0) r y {}) 5 [7] ↔
      Coincides ackProtobuf r 5 [7] fun _ => 0) ∧
    (ServerTables r → ¬ GivesBack (decode ackProtobuf (fun _ => 0) r x {}) 5 [7]) := by
  intro r x y
  have hknows : r.Knows MSG_MS_DS_DSREGISTERACK (ackProtobuf.full_name 5) :=
    ⟨by decide, by decide⟩
  have htyped := (encodeTyped_appends ackProtobuf 5 Buffer.ok_default).1.append [7]
  have hhead := (encodeMessage_ok ackProtobuf hknows 0 0 0 Buffer.ok_default).2.1.append [7]
  exact typed_frame_decodes_iff ackProtobuf_inverts ackProtobuf_parsesTyped hknows (by decide)
    (by decide) htyped.1 htyped.2 hhead.1 hhead.2 (fun _ => 0) {}

end LazyNet.TypedFrames
