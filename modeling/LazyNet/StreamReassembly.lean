import LazyNet.DecodeBounds
import LazyNet.Lib.Framing
import LazyNet.Lib.StepRuns

/-! Message frames cut into arbitrary chunks by TCP. The callback decodes one frame a chunk and
looks only for the head; the chunks on which that reassembles the stream are characterised. -/
namespace LazyNet.StreamReassembly
open LazyNet.Words LazyNet.HandyBuffer LazyNet.ExternalMsgCodec LazyNet.MsDsProtocol
open LazyNet.CodecRoundTrip LazyNet.DSServer LazyNet.DecodeBounds LazyNet.Framing LazyNet.StepRuns
variable {Message : Type}

structure Sent (Message : Type) where
  msg : Message
  err : UInt32
  para1 : UInt32
  para2 : UInt32

def Sent.call (s : Sent Message) : EncodeCall Message := .message s.msg s.err s.para1 s.para2

def wire (pb : Protobuf Message) (r : Registry) (msgs : List (Sent Message)) : List UInt8 :=
  (encodeAll pb (msgs.map Sent.call) (r, {})).2.content

def Sent.head (pb : Protobuf Message) (r : Registry) (s : Sent Message) : BaseHead :=
  messageHead pb (r.getCmd (pb.full_name s.msg)).1 s.msg s.err s.para1 s.para2

def Sent.frame (pb : Protobuf Message) (r : Registry) (s : Sent Message) : List UInt8 :=
  headBytes (s.head pb r) ++ pb.serialize s.msg

abbrev framed (pb : Protobuf Message) (r : Registry) (msgs : List (Sent Message)) :
    List (List UInt8) :=
  msgs.map (Sent.frame pb r)

/-- A chunk of the stream, and what lies in memory past the end of the input buffer when the
callback runs on it. -/
structure Arrival where
  bytes : List UInt8
  junk : Nat → UInt8

def received (u : List Arrival) : Nat := (u.map fun a => a.bytes.length).sum

def receive (pb : Protobuf Message) : List Arrival → Link Message → Except Fault (Link Message) :=
  run fun a => handleRead pb a.bytes a.junk

def expected (pb : Protobuf Message) (r : Registry) (msgs : List (Sent Message)) (n : Nat) :
    List (BaseHead × Message) :=
  (msgs.take (completed (framed pb r msgs) n)).map fun s => (s.head pb r, s.msg)

/-- After these chunks the dispatcher has been given exactly the completed messages. -/
def Reassembled (pb : Protobuf Message) (r : Registry) (msgs : List (Sent Message))
    (u : List Arrival) : Prop :=
  ∃ l, receive pb u ⟨r, {}, []⟩ = .ok l ∧ l.handled = expected pb r msgs (received u)

/-- The chunk that brings the stream from `n` to `n'` bytes completes at most one frame; and if
it completes none but the head of the next frame is there, the parser refuses the received part
of its body followed by what lies in memory behind it. -/
def Tolerated (pb : Protobuf Message) (r : Registry) (msgs : List (Sent Message))
    (n n' : Nat) (junk : Nat → UInt8) : Prop :=
  let fs := framed pb r msgs
  completed fs n' ≤ completed fs n + 1 ∧
    (completed fs n' = completed fs n → ∀ s, msgs[completed fs n]? = some s →
      headSize ≤ (part fs n').length →
        pb.parsePartial (pb.full_name s.msg) (spill ((part fs n').drop headSize) junk)
          (pb.serialize s.msg).length = none)

def Sendable (pb : Protobuf Message) (r : Registry) (s : Sent Message) : Prop :=
  r.Knows (r.getCmd (pb.full_name s.msg)).1 (pb.full_name s.msg) ∧
    pb.generated (pb.full_name s.msg) = true ∧ pb.serialize s.msg ≠ []

section Wire
variable {pb : Protobuf Message} {r : Registry}

theorem frame_length (pb : Protobuf Message) (r : Registry) (s : Sent Message) :
    (s.frame pb r).length = headSize + (pb.serialize s.msg).length := by
  simp [Sent.frame]

theorem wire_eq {msgs : List (Sent Message)} (h : ∀ s ∈ msgs, Sendable pb r s) :
    wire pb r msgs = (framed pb r msgs).flatten := by
  have hr : Commands pb r (msgs.map Sent.call)
      (msgs.map fun s => (r.getCmd (pb.full_name s.msg)).1) := by
    induction msgs with
    | nil => exact .nil
    | cons s msgs ih =>
      exact .cons (h s List.mem_cons_self).1 (ih fun t ht => h t (List.mem_cons_of_mem _ ht))
  have hc := (encodeAll_content hr Buffer.ok_default).2.2
  have hz : frames pb (msgs.map Sent.call) (msgs.map fun s => (r.getCmd (pb.full_name s.msg)).1) =
      framed pb r msgs := by
    simp only [frames, List.zipWith_map, List.zipWith_self]
    rfl
  rw [hz] at hc
  exact hc

theorem received_snoc (u : List Arrival) (a : Arrival) :
    received (u ++ [a]) = received u + a.bytes.length := by
  simp [received]

theorem received_eq (u : List Arrival) : received u = (u.flatMap Arrival.bytes).length := by
  simp [received, List.length_flatMap]

end Wire

/-- The state in which a chunk finds the link while all is well: the buffer holds the received
part of the first frame that is not complete, and the completed ones are handled. -/
structure InStep (pb : Protobuf Message) (r : Registry) (msgs : List (Sent Message)) (n : Nat)
    (l : Link Message) : Prop where
  registry : l.registry = r
  ok : l.input_.Ok
  exp : 0 < l.input_.exp_
  content : l.input_.content = part (framed pb r msgs) n
  handled : l.handled = expected pb r msgs n

section Step
variable {pb : Protobuf Message} {r : Registry} {msgs : List (Sent Message)} {n n' : Nat}
  {l : Link Message}

theorem expected_length (pb : Protobuf Message) (r : Registry) (msgs : List (Sent Message))
    (n : Nat) :
    (expected pb r msgs n).length = completed (framed pb r msgs) n := by
  have h := completed_le_length (framed pb r msgs) n
  rw [List.length_map] at h
  rw [expected, List.length_map, List.length_take, Nat.min_eq_left h]

theorem expected_congr (h : completed (framed pb r msgs) n' =
    completed (framed pb r msgs) n) : expected pb r msgs n' = expected pb r msgs n := by
  rw [expected, expected, h]

theorem expected_succ {s : Sent Message}
    (hs : msgs[completed (framed pb r msgs) n]? = some s)
    (h : completed (framed pb r msgs) n' =
      completed (framed pb r msgs) n + 1) :
    expected pb r msgs n' = expected pb r msgs n ++ [(s.head pb r, s.msg)] := by
  rw [expected, expected, h, List.take_add_one, hs]
  simp

theorem InStep.buffered (hl : InStep pb r msgs n l)
    (hc : completed (framed pb r msgs) n' = completed (framed pb r msgs) n)
    {x : Buffer} (hok : x.Ok) (hexp : 0 < x.exp_)
    (hx : x.content = part (framed pb r msgs) n') :
    InStep pb r msgs n' { l with input_ := x } :=
  ⟨hl.registry, hok, hexp, hx, by rw [expected_congr hc]; exact hl.handled⟩

/-- A step keeps the dispatcher right exactly on a tolerated chunk, and then stays in step. -/
def StepLaw (pb : Protobuf Message) (r : Registry) (msgs : List (Sent Message)) (n n' : Nat)
    (junk : Nat → UInt8) (out : Except Fault (Link Message)) : Prop :=
  ((∃ l, out = .ok l ∧ l.handled = expected pb r msgs n') ↔ Tolerated pb r msgs n n' junk) ∧
    ∀ l, out = .ok l → l.handled = expected pb r msgs n' → InStep pb r msgs n' l

variable {junk : Nat → UInt8}

theorem stepLaw_quiet (hl : InStep pb r msgs n l)
    (hc : completed (framed pb r msgs) n' = completed (framed pb r msgs) n)
    {x : Buffer} (hok : x.Ok) (hexp : 0 < x.exp_)
    (hx : x.content = part (framed pb r msgs) n') (ht : Tolerated pb r msgs n n' junk) :
    StepLaw pb r msgs n n' junk (.ok { l with input_ := x }) := by
  have hin := hl.buffered hc hok hexp hx
  refine ⟨⟨fun _ => ht, fun _ => ⟨_, rfl, hin.handled⟩⟩, fun l' h _ => ?_⟩
  cases h
  exact hin

theorem stepLaw_early (hl : InStep pb r msgs n l)
    (hc : completed (framed pb r msgs) n' = completed (framed pb r msgs) n)
    {l' : Link Message} {e : BaseHead × Message} (hh : l'.handled = l.handled ++ [e])
    (ht : ¬ Tolerated pb r msgs n n' junk) : StepLaw pb r msgs n n' junk (.ok l') := by
  have hne : l'.handled ≠ expected pb r msgs n' := by
    intro h
    have hlen := congrArg List.length h
    rw [hh, hl.handled, expected_congr hc, List.length_append, List.length_singleton] at hlen
    omega
  constructor
  · refine ⟨fun ⟨l'', h, h'⟩ => ?_, fun h => absurd h ht⟩
    cases h
    exact absurd h' hne
  · intro l'' h h'
    cases h
    exact absurd h' hne

theorem stepLaw_message (hl : InStep pb r msgs n l) {s : Sent Message}
    (hs : msgs[completed (framed pb r msgs) n]? = some s)
    (hc : completed (framed pb r msgs) n <
      completed (framed pb r msgs) n')
    {l' : Link Message} (hr : l'.registry = r) (hok : l'.input_.Ok) (hexp : 0 < l'.input_.exp_)
    (hh : l'.handled = l.handled ++ [(s.head pb r, s.msg)])
    (hx : l'.input_.content = ((framed pb r msgs).flatten.take n').drop
      (boundary (framed pb r msgs) (completed (framed pb r msgs) n + 1))) :
    StepLaw pb r msgs n n' junk (.ok l') := by
  generalize hfs : framed pb r msgs = fs at *
  have hone : l'.handled = expected pb r msgs n' ↔ completed fs n' = completed fs n + 1 := by
    constructor
    · intro h
      have hlen := congrArg List.length h
      rw [hh, hl.handled, List.length_append, List.length_singleton, expected_length,
        expected_length, hfs] at hlen
      omega
    · intro h
      rw [← hfs] at hs h
      rw [hh, hl.handled, expected_succ hs h]
  have htol : Tolerated pb r msgs n n' junk ↔ completed fs n' = completed fs n + 1 := by
    simp only [Tolerated, hfs]
    constructor
    · intro h
      omega
    · intro h
      exact ⟨by omega, fun h' => by omega⟩
  constructor
  · rw [htol, ← hone]
    constructor
    · intro h
      obtain ⟨l'', h, h'⟩ := h
      cases h
      exact h'
    · exact fun h => ⟨l', rfl, h⟩
  · intro l'' h h'
    cases h
    refine ⟨hr, hok, hexp, ?_, h'⟩
    rw [hfs, part, hone.mp h', hx]

theorem pending_eq (msgs : List (Sent Message)) (n n' : Nat) :
    let fs := framed pb r msgs
    (fs.flatten.take n').drop (boundary fs (completed fs n)) =
      ((msgs.drop (completed fs n)).map (Sent.frame pb r)).flatten.take
        (n' - boundary fs (completed fs n)) := by
  intro fs
  rw [drop_boundary, List.map_drop]

/-- A frame that is completely there is decoded, whatever follows it. -/
theorem law_complete (hpb : pb.Inverts) (hl : InStep pb r msgs n l) {s : Sent Message}
    (hsend : Sendable pb r s) (hs : msgs[completed (framed pb r msgs) n]? = some s)
    (hc : completed (framed pb r msgs) n < completed (framed pb r msgs) n')
    {x : Buffer} (hok : x.Ok) (hexp : 0 < x.exp_) (hsz : ¬ x.size < 20) {w : List UInt8}
    (hx : x.content = s.frame pb r ++ w)
    (hw : w = ((framed pb r msgs).flatten.take n').drop
      (boundary (framed pb r msgs) (completed (framed pb r msgs) n + 1))) :
    StepLaw pb r msgs n n' junk (onDrained pb junk { l with input_ := x }) := by
  have hstart : Starts x (s.head pb r) (pb.serialize s.msg ++ w) :=
    ⟨hok, by rw [hx, Sent.frame, List.append_assoc]⟩
  obtain ⟨d1, d2, d3, d4, d5⟩ := decode_message hpb hsend.1 hsend.2.1 hsend.2.2 hstart junk {}
  have hd := decode_exp pb junk r x {}
  rw [onDrained_onRead hsz, onRead_decoded hsz]
  simp only [hl.registry, d1, handle, Option.isSome_some, Bool.true_or, if_true]
  refine stepLaw_message hl hs hc d3 d4 (by rw [hd]; exact hexp) ?_ (by rw [d5, hw])
  simp only [d2]
  rfl

/-- With only a part of the body there the parser reads on past the end of the buffer, and what
it makes of that decides. -/
theorem law_partial (hl : InStep pb r msgs n l) {s : Sent Message} (hsend : Sendable pb r s)
    (hs : msgs[completed (framed pb r msgs) n]? = some s)
    (hc : completed (framed pb r msgs) n' = completed (framed pb r msgs) n)
    {x : Buffer} (hexp : 0 < x.exp_) (hsz : ¬ x.size < 20)
    (hstart : Starts x (s.head pb r) (x.content.drop headSize))
    (hpart : x.content = part (framed pb r msgs) n') :
    StepLaw pb r msgs n n' junk (onDrained pb junk { l with input_ := x }) := by
  have hget : r.getType (s.head pb r).cmd = (pb.full_name s.msg, r) := hsend.1.getType
  have hint : toInt (s.head pb r).length = (pb.serialize s.msg).length :=
    messageHead_toInt pb _ s.msg s.err s.para1 s.para2
  have hne : (s.head pb r).length ≠ 0 :=
    messageHead_length_ne pb _ s.err s.para1 s.para2 hsend.2.2
  have hlen : headSize ≤ (part (framed pb r msgs) n').length := by
    rw [← hpart, hstart.ok.content_length, headSize]
    omega
  rw [onDrained_onRead hsz, onRead_decoded hsz]
  cases hp : pb.parsePartial (pb.full_name s.msg) (spill (x.content.drop headSize) junk)
      (pb.serialize s.msg).length with
  | none =>
    have hd := hstart.decode_unparsed pb junk r {} hne (by rw [hget]; exact hsend.2.1)
      (by rw [hget, hint]; exact hp)
    have hquiet : StepLaw pb r msgs n n' junk (.ok { l with input_ := x }) := by
      refine stepLaw_quiet hl hc hstart.ok hexp hpart ⟨by omega, fun _ s' hs' _ => ?_⟩
      rw [hs] at hs'
      cases hs'
      rw [← hpart]
      exact hp
    simp only [hl.registry, hd, hget, Option.isSome_none, Bool.false_or, beq_iff_eq, hne,
      if_false] at hquiet ⊢
    exact hquiet
  | some m =>
    have hd := hstart.decode_parsed pb junk r {} hne (by rw [hget]; exact hsend.2.1)
      (by rw [hget, hint]; exact hp)
    simp only [hl.registry, hd, handle, Option.isSome_some, Bool.true_or, if_true]
    refine stepLaw_early hl hc rfl fun ht => ?_
    have hnone := ht.2 hc s hs hlen
    rw [← hpart, hp] at hnone
    cases hnone

/-- The law of one chunk: the callback on the buffer that the read loop has filled. -/
theorem step_law (hpb : pb.Inverts) (hmsgs : ∀ s ∈ msgs, Sendable pb r s)
    (hl : InStep pb r msgs n l) (hn : n ≤ n')
    (htotal : n' ≤ (framed pb r msgs).flatten.length)
    {x : Buffer} (hok : x.Ok) (hexp : 0 < x.exp_)
    (hx : x.content = ((framed pb r msgs).flatten.take n').drop
      (boundary (framed pb r msgs) (completed (framed pb r msgs) n))) :
    StepLaw pb r msgs n n' junk (onDrained pb junk { l with input_ := x }) := by
  have hfrom := completed_from (framed pb r msgs) hn
  have hpend := hx.trans (pending_eq msgs n n')
  have hxlen : x.size = n' - boundary (framed pb r msgs) (completed (framed pb r msgs) n) := by
    rw [← hok.content_length, hx, List.length_drop, List.length_take, Nat.min_eq_left htotal]
  generalize hk : n' - boundary (framed pb r msgs) (completed (framed pb r msgs) n) = k at *
  -- while nothing new is complete, the buffer is the received part of the next frame
  have hpart : completed (framed pb r msgs) n' = completed (framed pb r msgs) n →
      x.content = part (framed pb r msgs) n' := by
    intro h
    rw [part, h, hx]
  cases hrest : msgs.drop (completed (framed pb r msgs) n) with
  | nil =>
    rw [← List.map_drop, hrest] at hfrom
    rw [hrest] at hpend
    have hc : completed (framed pb r msgs) n' = completed (framed pb r msgs) n := hfrom
    have hsz : x.size = 0 := by rw [← hok.content_length, hpend]; simp
    have hnone : msgs[completed (framed pb r msgs) n]? = none := by
      rw [← List.head?_drop, hrest]; rfl
    rw [onDrained_short (by simp only [hsz]; omega)]
    refine stepLaw_quiet hl hc hok hexp (hpart hc) ⟨by omega, fun _ s hs => ?_⟩
    rw [hnone] at hs
    cases hs
  | cons s rest =>
    have hs : msgs[completed (framed pb r msgs) n]? = some s := by
      rw [← List.head?_drop, hrest]; rfl
    have hsend := hmsgs s (List.mem_of_getElem? hs)
    have hdrop : (framed pb r msgs).drop (completed (framed pb r msgs) n) =
        s.frame pb r :: rest.map (Sent.frame pb r) := by rw [← List.map_drop, hrest, List.map_cons]
    rw [hrest, List.map_cons, List.flatten_cons] at hpend
    rw [hdrop] at hfrom
    have hframe := frame_length pb r s
    by_cases h20 : x.size < 20
    · -- too short for a head: the callback does not decode
      rw [completed_cons_of_lt (by rw [hframe, headSize]; omega), Nat.add_zero] at hfrom
      rw [onDrained_short h20]
      refine stepLaw_quiet hl hfrom hok hexp (hpart hfrom) ⟨by omega, fun _ s' _ hlen => ?_⟩
      rw [← hpart hfrom, hok.content_length, headSize] at hlen
      omega
    by_cases hfull : (s.frame pb r).length ≤ k
    · rw [completed_cons_of_le hfull] at hfrom
      rw [List.take_append, List.take_of_length_le hfull] at hpend
      refine law_complete hpb hl hsend hs (by omega) hok hexp h20 hpend ?_
      rw [boundary_succ hdrop, ← List.drop_drop, ← hx, hpend, List.drop_left]
    · rw [completed_cons_of_lt (by omega), Nat.add_zero] at hfrom
      have htake : (headBytes (s.head pb r)).take k = headBytes (s.head pb r) :=
        List.take_of_length_le (by rw [headBytes_length, headSize]; omega)
      refine law_partial hl hsend hs hfrom hexp h20 ⟨hok, ?_⟩ (hpart hfrom)
      rw [hpend, Sent.frame, List.append_assoc, List.take_append, htake,
        List.drop_left' (headBytes_length _)]

theorem handleRead_law (junk : Nat → UInt8) (hpb : pb.Inverts) (hmsgs : ∀ s ∈ msgs, Sendable pb r s)
    (hl : InStep pb r msgs n l) {bytes : List UInt8}
    (hold : n ≤ (framed pb r msgs).flatten.length)
    (hnew : (framed pb r msgs).flatten.take n' = (framed pb r msgs).flatten.take n ++ bytes)
    (hn' : n' = n + bytes.length) (htotal : n' ≤ (framed pb r msgs).flatten.length) :
    StepLaw pb r msgs n n' junk (handleRead pb bytes junk l) := by
  obtain ⟨hok, hcontent, hexp⟩ := readInput_ok hl.ok hl.exp (Nat.lt_succ_self bytes.length)
  refine step_law hpb hmsgs hl (by omega) htotal hok hexp ?_
  have hle := boundary_completed_le (framed pb r msgs) n
  rw [hcontent, hl.content, hnew, part, List.drop_append_of_le_length]
  rwa [List.length_take, Nat.min_eq_left hold]

end Step

section Chunks
variable {pb : Protobuf Message} {r : Registry} {msgs : List (Sent Message)}
  {arrivals u : List Arrival}

theorem bytes_eq_take {bytes : List UInt8} (hw : arrivals.flatMap Arrival.bytes = bytes)
    (h : u <+: arrivals) :
    u.flatMap Arrival.bytes = bytes.take (received u) ∧ received u ≤ bytes.length := by
  obtain ⟨v, rfl⟩ := h
  rw [← hw, List.flatMap_append, received_eq, List.take_left]
  exact ⟨rfl, by rw [List.length_append]; omega⟩

theorem inStep_start (pb : Protobuf Message) (r : Registry) (msgs : List (Sent Message)) :
    InStep pb r msgs 0 ⟨r, {}, []⟩ := by
  have hempty : ∀ s : Sent Message, 0 < (s.frame pb r).length := by
    intro s
    rw [frame_length, headSize]
    omega
  have hzero : completed (framed pb r msgs) 0 = 0 := by
    cases msgs with
    | nil => rfl
    | cons s msgs => exact completed_cons_of_lt (hempty s)
  exact ⟨rfl, Buffer.ok_default, Nat.zero_lt_succ 511, by simp [part, Buffer.content],
    by simp [expected, hzero]⟩

theorem reassembled_snoc {a : Arrival} {l : Link Message}
    (hl : receive pb u ⟨r, {}, []⟩ = .ok l) :
    Reassembled pb r msgs (u ++ [a]) ↔ ∃ l', handleRead pb a.bytes a.junk l = .ok l' ∧
      l'.handled = expected pb r msgs (received (u ++ [a])) := by
  simp only [Reassembled, receive, run_snoc_ok]
  constructor
  · intro ⟨l', ⟨m, hm, hstep⟩, hh⟩
    rw [receive, hm] at hl
    cases hl
    exact ⟨l', hstep, hh⟩
  · intro ⟨l', hstep, hh⟩
    exact ⟨l', ⟨l, hl, hstep⟩, hh⟩

def Positioned (pb : Protobuf Message) (r : Registry) (msgs : List (Sent Message))
    (u : List Arrival) : Prop :=
  ∃ l, receive pb u ⟨r, {}, []⟩ = .ok l ∧ InStep pb r msgs (received u) l

theorem positioned_law (hpb : pb.Inverts) (hmsgs : ∀ s ∈ msgs, Sendable pb r s)
    (hw : arrivals.flatMap Arrival.bytes = wire pb r msgs) {a : Arrival}
    (h : u ++ [a] <+: arrivals) (hu : Positioned pb r msgs u) :
    (Reassembled pb r msgs (u ++ [a]) ↔
      Tolerated pb r msgs (received u) (received (u ++ [a])) a.junk) ∧
    (Reassembled pb r msgs (u ++ [a]) → Positioned pb r msgs (u ++ [a])) := by
  obtain ⟨l, hrun, hin⟩ := hu
  rw [wire_eq hmsgs] at hw
  have hold := bytes_eq_take hw ((List.prefix_append u [a]).trans h)
  have hnew := bytes_eq_take hw h
  have hlaw := handleRead_law a.junk hpb hmsgs hin hold.2
    (by rw [← hnew.1, ← hold.1]; simp) (received_snoc u a) hnew.2
  rw [reassembled_snoc hrun]
  refine ⟨hlaw.1, fun ⟨l', hstep, hh⟩ => ?_⟩
  exact ⟨l', run_snoc_ok.mpr ⟨l, hrun, hstep⟩, hlaw.2 l' hstep hh⟩

/-- After every chunk the dispatcher has been given exactly the completed messages, if and only
if every chunk is one that the callback tolerates. -/
theorem reassembled_iff_tolerated (hpb : pb.Inverts) {pairs : List (UInt32 × String)}
    (hcmd : (pairs.map Prod.fst).Nodup) (hname : (pairs.map Prod.snd).Nodup)
    (hmsgs : ∀ s ∈ msgs, Encodable pb pairs s.call)
    (hw : arrivals.flatMap Arrival.bytes = wire pb (Registry.ofPairs pairs) msgs) :
    (∀ u, u <+: arrivals → Reassembled pb (Registry.ofPairs pairs) msgs u) ↔
      ∀ u a, u ++ [a] <+: arrivals → Tolerated pb (Registry.ofPairs pairs) msgs (received u)
        (received (u ++ [a])) a.junk := by
  have hsend : ∀ s ∈ msgs, Sendable pb (Registry.ofPairs pairs) s := by
    intro s hs
    obtain ⟨⟨cmd, hmem⟩, hgen, hne⟩ := hmsgs s hs
    have hknows := Registry.knows_ofPairs hcmd hname hmem
    exact ⟨by rw [hknows.getCmd]; exact hknows, hgen, hne⟩
  have hstart := inStep_start pb (Registry.ofPairs pairs) msgs
  refine prefix_iff (Positioned pb (Registry.ofPairs pairs) msgs) arrivals
    ⟨_, rfl, hstart.handled⟩ ⟨_, rfl, hstart⟩ ?_ ?_
  · exact fun u a h hu => (positioned_law hpb hsend hw h hu).1
  · exact fun u a h hu => (positioned_law hpb hsend hw h hu).2

end Chunks

def twoAcks : List (Sent (Fin 128)) := [⟨⟨5, by decide⟩, 0, 1, 2⟩, ⟨⟨7, by decide⟩, 0, 3, 4⟩]

theorem twoAcks_encodable : ∀ s ∈ twoAcks, Encodable ackProtobuf initAdmin s.call := by
  have hreg : (MSG_MS_DS_DSREGISTERACK, "MS_DS.DSRegisterACK") ∈ initAdmin := by decide
  have hgen : messageTypes.contains "MS_DS.DSRegisterACK" = true := by decide
  exact fun s _ => ⟨⟨_, hreg⟩, hgen, by simp [ackProtobuf]⟩

/-- Both frames arrive in one chunk, and only the first message is handed out. -/
theorem two_frames_in_one_chunk :
    let r := Registry.ofPairs initAdmin
    let chunk : Arrival := ⟨wire ackProtobuf r twoAcks, fun _ => 0⟩
    ¬ Reassembled ackProtobuf r twoAcks [chunk] := by
  intro r chunk ⟨l, hrun, hh⟩
  have hone : (receive ackProtobuf [chunk] ⟨r, {}, []⟩).map (fun l => l.handled.length) =
      .ok 1 := by decide
  have htwo : (expected ackProtobuf r twoAcks (received [chunk])).length = 2 := by decide
  rw [hrun] at hone
  rw [← hh] at htwo
  simp only [Except.map, Except.ok.injEq] at hone
  omega

theorem twoAcks_iff_tolerated :
    let r := Registry.ofPairs initAdmin
    let chunks : List Arrival := [⟨(wire ackProtobuf r twoAcks).take 9, fun _ => 0⟩,
      ⟨(wire ackProtobuf r twoAcks).drop 9, fun _ => 0⟩]
    (∀ u, u <+: chunks → Reassembled ackProtobuf r twoAcks u) ↔
      ∀ u a, u ++ [a] <+: chunks → Tolerated ackProtobuf r twoAcks (received u)
        (received (u ++ [a])) a.junk :=
  reassembled_iff_tolerated ackProtobuf_inverts initAdmin_distinct.1 initAdmin_distinct.2
    twoAcks_encodable (by simp [List.take_append_drop])

end LazyNet.StreamReassembly
