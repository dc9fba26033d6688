import LazyNet.HandyBuffer
import LazyNet.Lib.Tables
import Mathlib.Data.List.Induction

/-! The frame codec of the MS link: a 20-byte head in network order, then the serialized
message. Heads without a body stand for a bare command. -/
namespace LazyNet.ExternalMsgCodec
open LazyNet.Words LazyNet.Tables LazyNet.HandyBuffer

structure BaseHead where
  cmd : UInt32 := 0
  length : UInt32 := 0
  err : UInt32 := 0
  para1 : UInt32 := 0
  para2 : UInt32 := 0
  deriving DecidableEq, Repr

def headSize : Nat := 20

/-- What the codec calls in the protobuf library. -/
structure Protobuf (Message : Type) where
  /-- `GetDescriptor()->full_name()` -/
  full_name : Message → String
  /-- what `SerializeToArray` writes; `ByteSize()` is its length -/
  serialize : Message → List UInt8
  /-- `ByteSize()` is an `int` -/
  byteSize_lt : ∀ m, (serialize m).length < 2 ^ 31
  /-- `FindMessageTypeByName` and `GetPrototype` know a type of this name -/
  generated : String → Bool
  /-- no message type has the empty name -/
  generated_empty : generated "" = false
  /-- `ParsePartialFromArray(data, size)` into a new message of the named type -/
  parsePartial : String → (Nat → UInt8) → Int → Option Message

def Protobuf.Inverts {Message : Type} (pb : Protobuf Message) : Prop :=
  ∀ m data, Holds data 0 (pb.serialize m) →
    pb.parsePartial (pb.full_name m) data (pb.serialize m).length = some m

/-- A type name is part of a file descriptor, whose size is an `int` too. With the tags and
lengths around it the descriptor takes at least eight bytes more. -/
def Protobuf.NamesFit {Message : Type} (pb : Protobuf Message) : Prop :=
  ∀ m, (stringBytes (pb.full_name m)).length + 8 < 2 ^ 31

structure Registry where
  cmd2Type_ : OrdMap UInt32 String := ∅
  type2Cmd_ : OrdMap String UInt32 := ∅

namespace Registry

def onCodec (r : Registry) (cmd : UInt32) (type : String) : Registry :=
  { cmd2Type_ := r.cmd2Type_.insert cmd type, type2Cmd_ := r.type2Cmd_.insert type cmd }

/-- The lookup goes through `operator[]` and leaves a zero command under an unknown name. -/
def getCmd (r : Registry) (typeName : String) : UInt32 × Registry :=
  let (cmd, t) := slot r.type2Cmd_ typeName 0
  (cmd, { r with type2Cmd_ := t })

def getType (r : Registry) (cmd : UInt32) : String × Registry :=
  let (name, t) := slot r.cmd2Type_ cmd ""
  (name, { r with cmd2Type_ := t })

def ofPairs (pairs : List (UInt32 × String)) : Registry :=
  pairs.foldl (fun r p => r.onCodec p.1 p.2) {}

def Knows (r : Registry) (cmd : UInt32) (name : String) : Prop :=
  r.type2Cmd_[name]? = some cmd ∧ r.cmd2Type_[cmd]? = some name

end Registry

variable {Message : Type}

/-- The head in memory order, every word swapped by `htonl`. -/
def headBytes (h : BaseHead) : List UInt8 :=
  store32 (htonl h.cmd) ++ store32 (htonl h.length) ++ store32 (htonl h.err) ++
    store32 (htonl h.para1) ++ store32 (htonl h.para2)

/-- The five `appendValue` calls that both encoders with a head make. -/
def appendHead (buf : Buffer) (h : BaseHead) : Buffer :=
  ((((buf.appendValue (htonl h.cmd)).appendValue (htonl h.length)).appendValue
    (htonl h.err)).appendValue (htonl h.para1)).appendValue (htonl h.para2)

/-- `encode(Message*, err, para1, para2, buf)` -/
def encodeMessage (pb : Protobuf Message) (r : Registry) (msg : Message)
    (err para1 para2 : UInt32) (buf : Buffer) : Registry × Buffer :=
  let (cmd, r) := r.getCmd (pb.full_name msg)
  let info : BaseHead :=
    { cmd, length := UInt32.ofNat (pb.serialize msg).length, err, para1, para2 }
  (r, (appendHead buf info).append (pb.serialize msg))

/-- `encode(string, err, para1, para2, buf)` -/
def encodeName (r : Registry) (msg : String) (err para1 para2 : UInt32) (buf : Buffer) :
    Registry × Buffer :=
  let (cmd, r) := r.getCmd msg
  (r, appendHead buf { cmd, length := 0, err, para1, para2 })

/-- `encode(Message*, buf)`. The length of the frame is patched in at the end, in host order, at an
offset from `begin()` that was taken before the room for the rest was made. -/
def encodeTyped (pb : Protobuf Message) (msg : Message) (buf : Buffer) : Buffer :=
  let offset := buf.size
  let typeName := stringBytes (pb.full_name msg)
  let buf := buf.appendValue 0
  let buf := buf.appendValue (UInt32.ofNat typeName.length)
  let buf := buf.append typeName
  let buf := buf.append (pb.serialize msg)
  buf.write (buf.b_ + offset) (store32 (UInt32.ofNat (offsetDiff buf.size offset)))

inductive EncodeCall (Message : Type) where
  | message (msg : Message) (err para1 para2 : UInt32)
  | name (typeName : String) (err para1 para2 : UInt32)
  deriving DecidableEq, Repr

def EncodeCall.run (pb : Protobuf Message) :
    EncodeCall Message → Registry × Buffer → Registry × Buffer
  | .message msg err para1 para2, (r, buf) => encodeMessage pb r msg err para1 para2 buf
  | .name typeName err para1 para2, (r, buf) => encodeName r typeName err para1 para2 buf

def encodeAll (pb : Protobuf Message) (calls : List (EncodeCall Message))
    (rb : Registry × Buffer) : Registry × Buffer :=
  calls.foldl (fun rb call => call.run pb rb) rb

def loadHead (mem : Nat → UInt8) (p : Nat) : BaseHead :=
  { cmd := htonl (loadAt mem p)
    length := htonl (loadAt mem (p + 4))
    err := htonl (loadAt mem (p + 8))
    para1 := htonl (loadAt mem (p + 12))
    para2 := htonl (loadAt mem (p + 16)) }

def toInt (v : UInt32) : Int := if v.toNat < 2 ^ 31 then v.toNat else v.toNat - 2 ^ 32

structure Decoded (Message : Type) where
  msg : Option Message
  info : BaseHead
  buf : Buffer
  registry : Registry
  /-- the offset and the size that were handed to the parser, if it was called -/
  parsed : Option (Nat × Int)

def decode (pb : Protobuf Message) (junk : Nat → UInt8) (r : Registry) (buf : Buffer)
    (info : BaseHead) : Decoded Message :=
  if buf.size < 20 then
    { msg := none, info, buf, registry := r, parsed := none }
  else
    let p := buf.b_
    let info := loadHead (buf.mem junk) p
    if info.length = 0 then
      { msg := none, info, buf := buf.consume (headSize + info.length.toNat), registry := r,
        parsed := none }
    else
      let (typeName, r) := r.getType info.cmd
      if pb.generated typeName then
        let size := toInt info.length
        let parsed := some (p + headSize, size)
        match pb.parsePartial typeName (fun i => buf.mem junk (p + headSize + i)) size with
        -- a body that does not parse is left in the buffer
        | none => { msg := none, info, buf, registry := r, parsed }
        | some msg =>
          { msg := some msg, info, buf := buf.consume (headSize + info.length.toNat),
            registry := r, parsed }
      else
        -- so is a frame of a type that cannot be created
        { msg := none, info, buf, registry := r, parsed := none }

def msgComplete (buf : Buffer) : Bool := 20 ≤ buf.size

@[simp] theorem headBytes_length (h : BaseHead) : (headBytes h).length = headSize := rfl

theorem Registry.Knows.getCmd {r : Registry} {cmd : UInt32} {name : String}
    (h : r.Knows cmd name) : r.getCmd name = (cmd, r) := by
  simp [Registry.getCmd, slot_of_get h.1]

theorem Registry.Knows.getType {r : Registry} {cmd : UInt32} {name : String}
    (h : r.Knows cmd name) : r.getType cmd = (name, r) := by
  simp [Registry.getType, slot_of_get h.2]

theorem Registry.getType_unknown {r : Registry} {cmd : UInt32} (h : r.cmd2Type_[cmd]? = none) :
    (r.getType cmd).1 = "" := by
  simp [Registry.getType, slot, h]

theorem Registry.getType_generated {pb : Protobuf Message} {r : Registry} {cmd : UInt32}
    (h : pb.generated (r.getType cmd).1 = true) : r.cmd2Type_[cmd]? = some (r.getType cmd).1 := by
  cases hr : r.cmd2Type_[cmd]? with
  | none =>
    rw [Registry.getType_unknown hr, pb.generated_empty] at h
    cases h
  | some name => simp [Registry.getType, slot_of_get hr]

theorem Registry.knows_ofPairs {pairs : List (UInt32 × String)}
    (hcmd : (pairs.map Prod.fst).Nodup) (hname : (pairs.map Prod.snd).Nodup)
    {p : UInt32 × String} (hp : p ∈ pairs) : (Registry.ofPairs pairs).Knows p.1 p.2 := by
  induction pairs using List.reverseRecOn with
  | nil => cases hp
  | append_singleton pairs q ih =>
    simp only [List.map_append, List.map_cons, List.map_nil, List.nodup_append,
      List.mem_singleton, forall_eq] at hcmd hname
    have hlast : Registry.ofPairs (pairs ++ [q]) = (Registry.ofPairs pairs).onCodec q.1 q.2 := by
      simp [Registry.ofPairs]
    rw [hlast]
    cases List.mem_append.mp hp with
    | inl hold =>
      obtain ⟨h1, h2⟩ := ih hcmd.1 hname.1 hold
      have hc : p.1 ≠ q.1 := hcmd.2.2 _ (List.mem_map_of_mem hold)
      have hn : p.2 ≠ q.2 := hname.2.2 _ (List.mem_map_of_mem hold)
      constructor
      · simp [Registry.onCodec, get_insert, Ne.symm hn, h1]
      · simp [Registry.onCodec, get_insert, Ne.symm hc, h2]
    | inr hnew =>
      rw [List.mem_singleton] at hnew
      subst hnew
      constructor <;> simp [Registry.onCodec]

theorem appendValue_ok {x : Buffer} (h : x.Ok) (v : UInt32) :
    (x.appendValue v).Ok ∧ (x.appendValue v).content = x.content ++ store32 v :=
  h.append (store32 v)

theorem appendHead_ok {x : Buffer} (h : x.Ok) (info : BaseHead) :
    (appendHead x info).Ok ∧ (appendHead x info).content = x.content ++ headBytes info := by
  obtain ⟨h1, c1⟩ := appendValue_ok h (htonl info.cmd)
  obtain ⟨h2, c2⟩ := appendValue_ok h1 (htonl info.length)
  obtain ⟨h3, c3⟩ := appendValue_ok h2 (htonl info.err)
  obtain ⟨h4, c4⟩ := appendValue_ok h3 (htonl info.para1)
  obtain ⟨h5, c5⟩ := appendValue_ok h4 (htonl info.para2)
  refine ⟨h5, ?_⟩
  rw [appendHead, c5, c4, c3, c2, c1]
  simp [headBytes, List.append_assoc]

def messageHead (pb : Protobuf Message) (cmd : UInt32) (msg : Message)
    (err para1 para2 : UInt32) : BaseHead :=
  { cmd, length := UInt32.ofNat (pb.serialize msg).length, err, para1, para2 }

theorem encodeMessage_appends (pb : Protobuf Message) (r : Registry) (msg : Message)
    (err para1 para2 : UInt32) {x : Buffer} (h : x.Ok) :
    (encodeMessage pb r msg err para1 para2 x).2.Ok ∧
    (encodeMessage pb r msg err para1 para2 x).2.content = x.content ++
      (headBytes (messageHead pb (r.getCmd (pb.full_name msg)).1 msg err para1 para2) ++
        pb.serialize msg) := by
  have hhead := appendHead_ok h (messageHead pb (r.getCmd (pb.full_name msg)).1 msg err para1 para2)
  have happ := hhead.1.append (pb.serialize msg)
  refine ⟨happ.1, ?_⟩
  rw [← List.append_assoc, ← hhead.2, ← happ.2]
  rfl

theorem encodeName_appends (r : Registry) (name : String) (err para1 para2 : UInt32) {x : Buffer}
    (h : x.Ok) :
    (encodeName r name err para1 para2 x).2.Ok ∧
    (encodeName r name err para1 para2 x).2.content =
      x.content ++ headBytes { cmd := (r.getCmd name).1, length := 0, err, para1, para2 } :=
  appendHead_ok h { cmd := (r.getCmd name).1, length := 0, err, para1, para2 }

theorem encodeMessage_ok (pb : Protobuf Message) {r : Registry} {msg : Message} {cmd : UInt32}
    (hr : r.Knows cmd (pb.full_name msg)) (err para1 para2 : UInt32) {x : Buffer} (h : x.Ok) :
    (encodeMessage pb r msg err para1 para2 x).1 = r ∧
    (encodeMessage pb r msg err para1 para2 x).2.Ok ∧
    (encodeMessage pb r msg err para1 para2 x).2.content =
      x.content ++ (headBytes (messageHead pb cmd msg err para1 para2) ++ pb.serialize msg) := by
  have happ := encodeMessage_appends pb r msg err para1 para2 h
  rw [hr.getCmd] at happ
  exact ⟨by simp only [encodeMessage, hr.getCmd], happ⟩

theorem encodeName_ok {r : Registry} {name : String} {cmd : UInt32} (hr : r.Knows cmd name)
    (err para1 para2 : UInt32) {x : Buffer} (h : x.Ok) :
    (encodeName r name err para1 para2 x).1 = r ∧
    (encodeName r name err para1 para2 x).2.Ok ∧
    (encodeName r name err para1 para2 x).2.content =
      x.content ++ headBytes { cmd, length := 0, err, para1, para2 } := by
  have happ := encodeName_appends r name err para1 para2 h
  rw [hr.getCmd] at happ
  exact ⟨by simp only [encodeName, hr.getCmd], happ⟩

theorem loadHead_of_holds {mem : Nat → UInt8} {p : Nat} {h : BaseHead}
    (hm : Holds mem p (headBytes h)) : loadHead mem p = h := by
  simp only [headBytes, holds_append, List.length_append, store32_length, Nat.reduceAdd] at hm
  obtain ⟨⟨⟨⟨h0, h1⟩, h2⟩, h3⟩, h4⟩ := hm
  simp only [loadHead, loadAt_of_holds h0, loadAt_of_holds h1, loadAt_of_holds h2,
    loadAt_of_holds h3, loadAt_of_holds h4, htonl_htonl]

structure Starts (x : Buffer) (h : BaseHead) (rest : List UInt8) : Prop where
  ok : x.Ok
  content : x.content = headBytes h ++ rest

section Frame
variable {x : Buffer} {h : BaseHead} {rest : List UInt8}

theorem Starts.size_eq (hs : Starts x h rest) : x.size = headSize + rest.length := by
  rw [← hs.ok.content_length, hs.content, List.length_append, headBytes_length]

theorem Starts.loadHead (hs : Starts x h rest) (junk : Nat → UInt8) :
    loadHead (x.mem junk) x.b_ = h := by
  apply loadHead_of_holds
  intro i hi
  have hm := hs.ok.mem_eq junk (Nat.zero_le _) i
  have hh := holds_spill (headBytes h) rest junk i hi
  rw [Nat.zero_add] at hh
  rwa [Nat.add_zero, List.drop_zero, hs.content, hh] at hm

theorem Starts.body (hs : Starts x h rest) (junk : Nat → UInt8) (i : Nat) :
    x.mem junk (x.b_ + headSize + i) = spill rest junk i := by
  have hm := hs.ok.mem_eq junk (by rw [hs.size_eq]; omega : headSize ≤ x.size) i
  rwa [hs.content, List.drop_left' (headBytes_length h)] at hm

theorem Starts.body_fun (hs : Starts x h rest) (junk : Nat → UInt8) :
    (fun i => x.mem junk (x.b_ + headSize + i)) = spill rest junk :=
  funext (hs.body junk)

theorem Starts.consume (hs : Starts x h rest) {len : Nat} (hlen : len ≤ rest.length) :
    (x.consume (headSize + len)).Ok ∧
      (x.consume (headSize + len)).content = rest.drop len := by
  have hc := hs.ok.consume (by rw [hs.size_eq]; omega : headSize + len ≤ x.size)
  rw [hs.content, ← List.drop_drop, List.drop_left' (headBytes_length h)] at hc
  exact hc

variable (pb : Protobuf Message) (junk : Nat → UInt8) (r : Registry) (info : BaseHead)

theorem decode_short {x : Buffer} (hx : x.size < 20) :
    decode pb junk r x info =
      { msg := none, info, buf := x, registry := r, parsed := none } := by
  simp [decode, hx]

theorem Starts.decode_bodiless (hs : Starts x h rest) (h0 : h.length = 0) :
    decode pb junk r x info =
      { msg := none, info := h, buf := x.consume headSize, registry := r, parsed := none } := by
  have hsz : ¬ x.size < 20 := by rw [hs.size_eq]; simp [headSize]
  simp [decode, hsz, hs.loadHead junk, h0]

theorem Starts.decode_untyped (hs : Starts x h rest) (h0 : h.length ≠ 0)
    (ht : pb.generated (r.getType h.cmd).1 = false) :
    decode pb junk r x info =
      { msg := none, info := h, buf := x, registry := (r.getType h.cmd).2, parsed := none } := by
  have hsz : ¬ x.size < 20 := by rw [hs.size_eq]; simp [headSize]
  simp [decode, hsz, hs.loadHead junk, h0, ht]

theorem Starts.decode_unparsed (hs : Starts x h rest) (h0 : h.length ≠ 0)
    (ht : pb.generated (r.getType h.cmd).1 = true)
    (hp : pb.parsePartial (r.getType h.cmd).1 (spill rest junk) (toInt h.length) = none) :
    decode pb junk r x info =
      { msg := none, info := h, buf := x, registry := (r.getType h.cmd).2,
        parsed := some (x.b_ + headSize, toInt h.length) } := by
  have hsz : ¬ x.size < 20 := by rw [hs.size_eq]; simp [headSize]
  simp [decode, hsz, hs.loadHead junk, h0, ht, hs.body_fun junk, hp]

theorem Starts.decode_parsed (hs : Starts x h rest) (h0 : h.length ≠ 0)
    (ht : pb.generated (r.getType h.cmd).1 = true) {m : Message}
    (hp : pb.parsePartial (r.getType h.cmd).1 (spill rest junk) (toInt h.length) = some m) :
    decode pb junk r x info =
      { msg := some m, info := h, buf := x.consume (headSize + h.length.toNat),
        registry := (r.getType h.cmd).2,
        parsed := some (x.b_ + headSize, toInt h.length) } := by
  have hsz : ¬ x.size < 20 := by rw [hs.size_eq]; simp [headSize]
  simp [decode, hsz, hs.loadHead junk, h0, ht, hs.body_fun junk, hp]

end Frame

theorem consume_exp (x : Buffer) (len : Nat) : (x.consume len).exp_ = x.exp_ := by
  simp only [Buffer.consume]
  split_ifs <;> rfl

theorem decode_exp (pb : Protobuf Message) (junk : Nat → UInt8) (r : Registry) (x : Buffer)
    (info : BaseHead) : (decode pb junk r x info).buf.exp_ = x.exp_ := by
  simp only [decode]
  split_ifs
  · rfl
  · exact consume_exp x _
  · split
    · rfl
    · exact consume_exp x _
  · rfl

theorem exists_word {l : List UInt8} (h : 4 ≤ l.length) :
    ∃ v, l = store32 (htonl v) ++ l.drop 4 := by
  match l, h with
  | b0 :: b1 :: b2 :: b3 :: rest, _ =>
    exact ⟨htonl (load32 b0 b1 b2 b3), by rw [htonl_htonl, store_load32]; rfl⟩

theorem starts_of_size {x : Buffer} (hx : x.Ok) (hsz : ¬ x.size < 20) :
    ∃ h, Starts x h (x.content.drop headSize) := by
  have hl := hx.content_length
  obtain ⟨cmd, h0⟩ := exists_word (l := x.content) (by omega)
  obtain ⟨length, h1⟩ := exists_word (l := x.content.drop 4) (by simp; omega)
  obtain ⟨err, h2⟩ := exists_word (l := x.content.drop 8) (by simp; omega)
  obtain ⟨para1, h3⟩ := exists_word (l := x.content.drop 12) (by simp; omega)
  obtain ⟨para2, h4⟩ := exists_word (l := x.content.drop 16) (by simp; omega)
  refine ⟨{ cmd, length, err, para1, para2 }, hx, ?_⟩
  simp only [List.drop_drop, Nat.reduceAdd] at h1 h2 h3 h4
  conv_lhs => rw [h0, h1, h2, h3, h4]
  simp only [headBytes, headSize, List.append_assoc]

theorem starts_of_decode_some {pb : Protobuf Message} {junk : Nat → UInt8} {r : Registry}
    {info : BaseHead} {x : Buffer} (hx : x.Ok) {m : Message}
    (hd : (decode pb junk r x info).msg = some m) :
    ∃ h, Starts x h (x.content.drop headSize) ∧ h.length ≠ 0 ∧
      pb.generated (r.getType h.cmd).1 = true ∧
      pb.parsePartial (r.getType h.cmd).1 (spill (x.content.drop headSize) junk)
        (toInt h.length) = some m := by
  by_cases hsz : x.size < 20
  · rw [decode_short pb junk r info hsz] at hd
    cases hd
  obtain ⟨h, hs⟩ := starts_of_size hx hsz
  by_cases h0 : h.length = 0
  · rw [hs.decode_bodiless pb junk r info h0] at hd
    cases hd
  by_cases hg : pb.generated (r.getType h.cmd).1 = true
  swap
  · rw [hs.decode_untyped pb junk r info h0 (by simpa using hg)] at hd
    cases hd
  cases hp : pb.parsePartial (r.getType h.cmd).1 (spill (x.content.drop headSize) junk)
      (toInt h.length) with
  | none =>
    rw [hs.decode_unparsed pb junk r info h0 hg hp] at hd
    cases hd
  | some m' =>
    rw [hs.decode_parsed pb junk r info h0 hg hp] at hd
    cases hd
    exact ⟨h, hs, h0, hg, hp⟩

end LazyNet.ExternalMsgCodec
