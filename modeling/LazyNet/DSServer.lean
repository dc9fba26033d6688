import LazyNet.CodecRoundTrip

/-! The receiving side of the MS link: the read loop of the connection and the `onRead`
callback that decodes one frame and hands it to the dispatcher. -/
namespace LazyNet.DSServer
open LazyNet.Words LazyNet.HandyBuffer LazyNet.ExternalMsgCodec
variable {Message : Type}

inductive Fault where
  /-- `msg->GetDescriptor()` on a null message -/
  | nullMessage
  deriving DecidableEq, Repr

structure Link (Message : Type) where
  registry : Registry
  input_ : Buffer
  /-- the heads and messages given to `ExternalMsgDispatcher::handle`, oldest first -/
  handled : List (BaseHead × Message)

def handle (info : BaseHead) (msg : Option Message) (l : Link Message) :
    Except Fault (Link Message) :=
  match msg with
  | none => .error .nullMessage
  | some m => .ok { l with handled := l.handled ++ [(info, m)] }

def onRead (pb : Protobuf Message) (junk : Nat → UInt8) (l : Link Message) :
    Except Fault (Link Message) :=
  if msgComplete l.input_ then
    let d := decode pb junk l.registry l.input_ {}
    let l := { l with registry := d.registry, input_ := d.buf }
    if d.msg.isSome || d.info.length == 0 then handle d.info d.msg l
    else .ok l
  else .ok l

/-- The reads of `handleRead`: each takes what the socket has and the room holds, and the
read that finds the socket drained ends the loop. -/
def readInput : Nat → Buffer → List UInt8 → Buffer
  | 0, x, _ => x
  | fuel + 1, x, bytes =>
    let r := x.makeReadRoom
    if bytes = [] then r
    else
      let rd := min r.space bytes.length
      readInput fuel ((r.addSize rd).write r.e_ (bytes.take rd)) (bytes.drop rd)

def onDrained (pb : Protobuf Message) (junk : Nat → UInt8) (l : Link Message) :
    Except Fault (Link Message) :=
  if l.input_.size ≠ 0 then onRead pb junk l else .ok l

/-- `handleRead` on a connected socket that holds `bytes` and is then drained. -/
def handleRead (pb : Protobuf Message) (bytes : List UInt8) (junk : Nat → UInt8)
    (l : Link Message) : Except Fault (Link Message) :=
  onDrained pb junk { l with input_ := readInput (bytes.length + 1) l.input_ bytes }

theorem space_makeReadRoom {x : Buffer} (h : x.Ok) (hexp : 0 < x.exp_) :
    0 < x.makeReadRoom.space ∧ x.makeReadRoom.exp_ = x.exp_ := by
  have hb := h.b_le
  have he := h.e_le
  unfold Buffer.makeReadRoom
  split_ifs with hroom
  · refine ⟨?_, rfl⟩
    simp only [Buffer.space, Buffer.expand, h.size_eq]
    rw [offsetDiff_of_le (by omega)]
    omega
  · exact ⟨by omega, rfl⟩

theorem readInput_ok {fuel : Nat} {x : Buffer} {bytes : List UInt8} (h : x.Ok)
    (hexp : 0 < x.exp_) (hfuel : bytes.length < fuel) :
    (readInput fuel x bytes).Ok ∧ (readInput fuel x bytes).content = x.content ++ bytes ∧
      0 < (readInput fuel x bytes).exp_ := by
  induction fuel generalizing x bytes with
  | zero => omega
  | succ fuel ih =>
    obtain ⟨hr, hc⟩ := h.makeReadRoom
    obtain ⟨hs, hx⟩ := space_makeReadRoom h hexp
    have hle := hr.e_le
    rw [readInput]
    split_ifs with hnil
    · subst hnil
      exact ⟨hr, by simp [hc], by rw [hx]; exact hexp⟩
    · have hpos : 0 < bytes.length := List.length_pos_iff.mpr hnil
      rw [Buffer.space, offsetDiff_of_le hle] at hs ⊢
      generalize hn : min (x.makeReadRoom.cap_ - x.makeReadRoom.e_) bytes.length = rd
      have htake : (bytes.take rd).length = rd := by rw [List.length_take]; omega
      have hw := hr.write_end (by omega : x.makeReadRoom.e_ + (bytes.take rd).length ≤ _)
      rw [htake] at hw
      have hi := ih hw.1 (by simpa [Buffer.write, Buffer.addSize, hx] using hexp)
        (by rw [List.length_drop]; omega : (bytes.drop rd).length < fuel)
      refine ⟨hi.1, ?_, hi.2.2⟩
      rw [hi.2.1, hw.2, hc, List.append_assoc, List.take_append_drop]

variable {pb : Protobuf Message} {junk : Nat → UInt8} {l : Link Message}

theorem onDrained_short (h : l.input_.size < 20) : onDrained pb junk l = .ok l := by
  simp [onDrained, onRead, msgComplete, Nat.not_le.mpr h]

theorem onDrained_onRead (h : ¬ l.input_.size < 20) : onDrained pb junk l = onRead pb junk l := by
  simp only [onDrained]
  rw [if_pos (by omega)]

theorem onRead_decoded (h : ¬ l.input_.size < 20) :
    onRead pb junk l =
      let d := decode pb junk l.registry l.input_ {}
      if d.msg.isSome || d.info.length == 0 then
        handle d.info d.msg { l with registry := d.registry, input_ := d.buf }
      else .ok { l with registry := d.registry, input_ := d.buf } := by
  simp [onRead, msgComplete, Nat.not_lt.mp h]

theorem onDrained_cases {l' : Link Message} (h : onDrained pb junk l = .ok l') :
    l' = l ∨ l'.registry = (decode pb junk l.registry l.input_ {}).registry ∧
      l'.input_ = (decode pb junk l.registry l.input_ {}).buf := by
  by_cases hsz : l.input_.size < 20
  · rw [onDrained_short hsz] at h
    cases h
    exact .inl rfl
  · right
    rw [onDrained_onRead hsz, onRead_decoded hsz] at h
    simp only at h
    split_ifs at h
    · cases hm : (decode pb junk l.registry l.input_ {}).msg with
      | none =>
        rw [hm] at h
        cases h
      | some m =>
        rw [hm] at h
        cases h
        exact ⟨rfl, rfl⟩
    · cases h
      exact ⟨rfl, rfl⟩

end LazyNet.DSServer
