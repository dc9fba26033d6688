import LazyNet.MsDsProtocol
import Mathlib.Data.List.Forall2

/-! Decoding what the encoders wrote: any mix of message frames and bare commands on one
buffer comes back frame by frame, in order. -/
namespace LazyNet.CodecRoundTrip
open LazyNet.Words LazyNet.HandyBuffer LazyNet.ExternalMsgCodec LazyNet.MsDsProtocol
variable {Message : Type} (pb : Protobuf Message) (pairs : List (UInt32 × String))

/-- What a call must be given for the decoder to undo it: a registered name, and for a message
a generated type and a body. -/
def Encodable : EncodeCall Message → Prop
  | .message msg _ _ _ =>
    (∃ cmd, (cmd, pb.full_name msg) ∈ pairs) ∧ pb.generated (pb.full_name msg) = true ∧
      pb.serialize msg ≠ []
  | .name typeName _ _ _ => ∃ cmd, (cmd, typeName) ∈ pairs

def frameOf (cmd : UInt32) : EncodeCall Message → List UInt8
  | .message msg err para1 para2 =>
    headBytes (messageHead pb cmd msg err para1 para2) ++ pb.serialize msg
  | .name _ err para1 para2 => headBytes { cmd, length := 0, err, para1, para2 }

def nameOf : EncodeCall Message → String
  | .message msg _ _ _ => pb.full_name msg
  | .name typeName _ _ _ => typeName

structure Round (Message : Type) where
  msg : Option Message
  info : BaseHead
  consumed : Nat

/-- `while (!buf.empty()) decode(buf, info);` for at most `fuel` rounds. -/
def decodeLoop (junk : Nat → Nat → UInt8) :
    Nat → Registry → Buffer → Option (List (Round Message) × Buffer)
  | fuel, r, buf =>
    if buf.empty then some ([], buf)
    else match fuel with
      | 0 => none
      | fuel + 1 =>
        let d := decode pb (junk fuel) r buf {}
        (decodeLoop junk fuel d.registry d.buf).map fun out =>
          (⟨d.msg, d.info, buf.size - d.buf.size⟩ :: out.1, out.2)

def RoundOf (call : EncodeCall Message) (d : Round Message) : Prop :=
  match call with
  | .message msg err para1 para2 =>
    ∃ cmd, (cmd, pb.full_name msg) ∈ pairs ∧ d.msg = some msg ∧
      d.info = ⟨cmd, UInt32.ofNat (pb.serialize msg).length, err, para1, para2⟩ ∧
      d.consumed = 20 + (pb.serialize msg).length
  | .name typeName err para1 para2 =>
    ∃ cmd, (cmd, typeName) ∈ pairs ∧ d.msg = none ∧ d.info = ⟨cmd, 0, err, para1, para2⟩ ∧
      d.consumed = 20

theorem messageHead_length (cmd : UInt32) (msg : Message) (err para1 para2 : UInt32) :
    (messageHead pb cmd msg err para1 para2).length.toNat = (pb.serialize msg).length := by
  have h := pb.byteSize_lt msg
  simp only [messageHead, UInt32.toNat_ofNat']
  omega

theorem messageHead_toInt (cmd : UInt32) (msg : Message) (err para1 para2 : UInt32) :
    toInt (messageHead pb cmd msg err para1 para2).length = (pb.serialize msg).length := by
  have h := pb.byteSize_lt msg
  rw [toInt, messageHead_length, if_pos h]

theorem messageHead_length_ne (cmd : UInt32) {msg : Message} (err para1 para2 : UInt32)
    (h : pb.serialize msg ≠ []) : (messageHead pb cmd msg err para1 para2).length ≠ 0 := by
  intro h0
  have hl := messageHead_length pb cmd msg err para1 para2
  rw [h0] at hl
  exact h (List.length_eq_zero_iff.mp hl.symm)

variable {pb pairs}

theorem decode_message (hpb : pb.Inverts) {r : Registry} {cmd : UInt32} {msg : Message}
    (hr : r.Knows cmd (pb.full_name msg)) (hg : pb.generated (pb.full_name msg) = true)
    (hne : pb.serialize msg ≠ []) {err para1 para2 : UInt32} {x : Buffer} {w : List UInt8}
    (hs : Starts x (messageHead pb cmd msg err para1 para2) (pb.serialize msg ++ w))
    (junk : Nat → UInt8) (info : BaseHead) :
    let d := decode pb junk r x info
    d.msg = some msg ∧ d.info = messageHead pb cmd msg err para1 para2 ∧ d.registry = r ∧
      d.buf.Ok ∧ d.buf.content = w := by
  have hparse : pb.parsePartial (pb.full_name msg) (spill (pb.serialize msg ++ w) junk)
      (pb.serialize msg).length = some msg := hpb msg _ (holds_spill _ w junk)
  have hlen : (pb.serialize msg).length ≤ (pb.serialize msg ++ w).length := by
    rw [List.length_append]; omega
  have hc := hs.consume hlen
  have hd := hs.decode_parsed pb junk r info (messageHead_length_ne pb cmd err para1 para2 hne)
    (by rw [messageHead, hr.getType]; exact hg)
    (by rw [messageHead_toInt, messageHead, hr.getType]; exact hparse)
  rw [messageHead_length] at hd
  simp only [hd]
  refine ⟨trivial, trivial, ?_, hc.1, ?_⟩
  · rw [messageHead, hr.getType]
  · rw [hc.2, List.drop_left]

theorem decode_name (pb : Protobuf Message) (r : Registry) {h : BaseHead} (h0 : h.length = 0)
    {x : Buffer} {w : List UInt8} (hs : Starts x h w) (junk : Nat → UInt8) (info : BaseHead) :
    let d := decode pb junk r x info
    d.msg = none ∧ d.info = h ∧ d.registry = r ∧ d.buf.Ok ∧ d.buf.content = w := by
  have hc := hs.consume (Nat.zero_le w.length)
  simp only [hs.decode_bodiless pb junk r info h0]
  exact ⟨trivial, trivial, trivial, hc.1, by simpa using hc.2⟩

theorem run_call {r : Registry} {cmd : UInt32} {call : EncodeCall Message}
    (hr : r.Knows cmd (nameOf pb call)) {x : Buffer} (hx : x.Ok) :
    (call.run pb (r, x)).1 = r ∧ (call.run pb (r, x)).2.Ok ∧
      (call.run pb (r, x)).2.content = x.content ++ frameOf pb cmd call := by
  cases call with
  | message msg err para1 para2 => exact encodeMessage_ok pb hr err para1 para2 hx
  | name typeName err para1 para2 => exact encodeName_ok hr err para1 para2 hx

def Commands (pb : Protobuf Message) (r : Registry) (calls : List (EncodeCall Message))
    (cmds : List UInt32) : Prop :=
  List.Forall₂ (fun call cmd => r.Knows cmd (nameOf pb call)) calls cmds

def frames (pb : Protobuf Message) (calls : List (EncodeCall Message)) (cmds : List UInt32) :
    List (List UInt8) :=
  List.zipWith (fun call cmd => frameOf pb cmd call) calls cmds

theorem encodeAll_content {r : Registry} {calls : List (EncodeCall Message)} {cmds : List UInt32}
    (hr : Commands pb r calls cmds) {x : Buffer} (hx : x.Ok) :
    (encodeAll pb calls (r, x)).1 = r ∧ (encodeAll pb calls (r, x)).2.Ok ∧
      (encodeAll pb calls (r, x)).2.content = x.content ++ (frames pb calls cmds).flatten := by
  induction hr generalizing x with
  | nil => simpa [encodeAll, frames] using hx
  | @cons call cmd calls cmds h _ ih =>
    obtain ⟨h1, h2, h3⟩ := run_call h hx
    have hpair : call.run pb (r, x) = (r, (call.run pb (r, x)).2) := Prod.ext h1 rfl
    have hall : encodeAll pb (call :: calls) (r, x) =
        encodeAll pb calls (r, (call.run pb (r, x)).2) := by
      rw [encodeAll, List.foldl_cons, hpair]
      rfl
    obtain ⟨i1, i2, i3⟩ := ih h2
    rw [hall]
    refine ⟨i1, i2, ?_⟩
    rw [i3, h3]
    simp [frames]

theorem decode_call (hpb : pb.Inverts) {r : Registry} {call : EncodeCall Message} {cmd : UInt32}
    (henc : Encodable pb pairs call) (hr : r.Knows cmd (nameOf pb call))
    (hmem : (cmd, nameOf pb call) ∈ pairs) {x : Buffer} (hx : x.Ok) {w : List UInt8}
    (hc : x.content = frameOf pb cmd call ++ w) (junk : Nat → UInt8) :
    let d := decode pb junk r x {}
    RoundOf pb pairs call ⟨d.msg, d.info, x.size - d.buf.size⟩ ∧ d.registry = r ∧
      d.buf.Ok ∧ d.buf.content = w := by
  have consumed : ∀ {y : Buffer} {n : Nat}, y.Ok → y.content = w →
      (frameOf pb cmd call).length = n → x.size - y.size = n := by
    intro y n hy hyc hn
    rw [← hx.content_length, ← hy.content_length, hc, hyc, List.length_append, hn]
    omega
  cases call with
  | message msg err para1 para2 =>
    have hs : Starts x (messageHead pb cmd msg err para1 para2) (pb.serialize msg ++ w) :=
      ⟨hx, by rw [hc, frameOf, List.append_assoc]⟩
    obtain ⟨d1, d2, d3, d4, d5⟩ := decode_message hpb hr henc.2.1 henc.2.2 hs junk {}
    refine ⟨⟨cmd, hmem, d1, d2, consumed d4 d5 ?_⟩, d3, d4, d5⟩
    simp [frameOf, headSize]
  | name typeName err para1 para2 =>
    have hs : Starts x { cmd, length := 0, err, para1, para2 } w := ⟨hx, hc⟩
    obtain ⟨d1, d2, d3, d4, d5⟩ := decode_name pb r rfl hs junk {}
    exact ⟨⟨cmd, hmem, d1, d2, consumed d4 d5 rfl⟩, d3, d4, d5⟩

theorem frameOf_ne_nil (cmd : UInt32) (call : EncodeCall Message) : frameOf pb cmd call ≠ [] := by
  intro h
  have hl := congrArg List.length h
  cases call <;> simp [frameOf, headSize] at hl

theorem decodeLoop_frames (hpb : pb.Inverts) {r : Registry} (junk : Nat → Nat → UInt8)
    {calls : List (EncodeCall Message)} {cmds : List UInt32}
    (henc : ∀ call ∈ calls, Encodable pb pairs call)
    (hr : List.Forall₂ (fun call cmd => r.Knows cmd (nameOf pb call) ∧
      (cmd, nameOf pb call) ∈ pairs) calls cmds)
    {fuel : Nat} (hfuel : calls.length ≤ fuel) {x : Buffer} (hx : x.Ok)
    (hc : x.content = (frames pb calls cmds).flatten) :
    ∃ rounds y, decodeLoop pb junk fuel r x = some (rounds, y) ∧ y.empty = true ∧
      List.Forall₂ (RoundOf pb pairs) calls rounds := by
  induction hr generalizing fuel x with
  | nil =>
    have he : x.empty = true := hx.empty_iff.mpr hc
    exact ⟨[], x, by unfold decodeLoop; simp [he], he, .nil⟩
  | @cons call cmd calls cmds h _ ih =>
    obtain ⟨fuel, rfl⟩ : ∃ n, fuel = n + 1 := ⟨fuel - 1, by simp at hfuel; omega⟩
    have hc' : x.content = frameOf pb cmd call ++ (frames pb calls cmds).flatten := by
      rw [hc]; simp [frames]
    have hne : ¬ x.empty = true := by
      rw [hx.empty_iff, hc']
      simp [frameOf_ne_nil]
    obtain ⟨hround, hreg, hok, hrest⟩ :=
      decode_call hpb (henc call List.mem_cons_self) h.1 h.2 hx hc' (junk fuel)
    obtain ⟨rounds, y, hrun, hempty, hall⟩ := ih
      (fun c hcall => henc c (List.mem_cons_of_mem _ hcall)) (by simpa using hfuel) hok hrest
    refine ⟨_ :: rounds, y, ?_, hempty, .cons hround hall⟩
    unfold decodeLoop
    simp [hne, hreg, hrun]

theorem commands_of_pairs (hcmd : (pairs.map Prod.fst).Nodup) (hname : (pairs.map Prod.snd).Nodup)
    {calls : List (EncodeCall Message)} (henc : ∀ call ∈ calls, Encodable pb pairs call) :
    ∃ cmds, List.Forall₂ (fun call cmd => (Registry.ofPairs pairs).Knows cmd (nameOf pb call) ∧
      (cmd, nameOf pb call) ∈ pairs) calls cmds := by
  induction calls with
  | nil => exact ⟨[], .nil⟩
  | cons call calls ih =>
    obtain ⟨cmds, hcmds⟩ := ih fun c hc => henc c (List.mem_cons_of_mem _ hc)
    have hcall := henc call List.mem_cons_self
    have hmem : ∃ cmd, (cmd, nameOf pb call) ∈ pairs := by
      cases call with
      | message msg err para1 para2 => exact hcall.1
      | name typeName err para1 para2 => exact hcall
    obtain ⟨cmd, hmem⟩ := hmem
    exact ⟨cmd :: cmds, .cons ⟨Registry.knows_ofPairs hcmd hname hmem, hmem⟩ hcmds⟩

/-- Decoding until the buffer is empty gives back every encoder call, in order, each from
exactly its own frame. -/
theorem decodeLoop_encodeAll (hpb : pb.Inverts)
    (hcmd : (pairs.map Prod.fst).Nodup) (hname : (pairs.map Prod.snd).Nodup)
    (calls : List (EncodeCall Message)) (henc : ∀ call ∈ calls, Encodable pb pairs call)
    (junk : Nat → Nat → UInt8) (fuel : Nat) (hfuel : calls.length ≤ fuel) :
    let out := encodeAll pb calls (Registry.ofPairs pairs, {})
    ∃ rounds y, decodeLoop pb junk fuel out.1 out.2 = some (rounds, y) ∧ y.empty = true ∧
      List.Forall₂ (RoundOf pb pairs) calls rounds := by
  obtain ⟨cmds, hcmds⟩ := commands_of_pairs hcmd hname henc
  have hr : Commands pb (Registry.ofPairs pairs) calls cmds := hcmds.imp fun _ _ h => h.1
  obtain ⟨h1, h2, h3⟩ := encodeAll_content hr Buffer.ok_default
  have h3' : (encodeAll pb calls (Registry.ofPairs pairs, {})).2.content =
      (frames pb calls cmds).flatten := h3
  intro out
  rw [show out.1 = Registry.ofPairs pairs from h1]
  exact decodeLoop_frames hpb junk henc hcmds hfuel h2 h3'

theorem decodeLoop_ack_bye :
    let calls := [.message 5 0 1 2, .name "MS_DS.Bye" 0 3 4]
    let out := encodeAll ackProtobuf calls (Registry.ofPairs initAdmin, {})
    ∃ rounds y, decodeLoop ackProtobuf (fun _ _ => 0) 2 out.1 out.2 = some (rounds, y) ∧
      y.empty = true ∧ List.Forall₂ (RoundOf ackProtobuf initAdmin) calls rounds := by
  refine decodeLoop_encodeAll ackProtobuf_inverts initAdmin_distinct.1 initAdmin_distinct.2
    [.message 5 0 1 2, .name "MS_DS.Bye" 0 3 4] ?_ (fun _ _ => 0) 2 (by decide)
  simp only [List.mem_cons, List.not_mem_nil, or_false, forall_eq_or_imp, forall_eq]
  exact ⟨⟨⟨MSG_MS_DS_DSREGISTERACK, by decide⟩, by decide, by decide⟩,
    MSG_DS_MS_STORE_FINISH, by decide⟩

end LazyNet.CodecRoundTrip
