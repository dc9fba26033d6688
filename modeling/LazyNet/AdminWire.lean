import LazyNet.AdminRuns
import LazyNet.PlanChecks
import LazyNet.Registration

/-! The server from bytes to bytes: what arrives on the connection, in pieces of any sizes, has the
manager do what the messages say, and what the manager sends is queued in frames. -/
namespace LazyNet.AdminLoop
open LazyNet.Words LazyNet.Tables LazyNet.HandyBuffer LazyNet.ExternalMsgCodec
open LazyNet.MsDsProtocol LazyNet.DSServer LazyNet.DecodeBounds LazyNet.Streams
open LazyNet.CodecRoundTrip LazyNet.MsAgent LazyNet.StepRuns

/-- A message that a frame can carry: it has a body, and the parser makes the message of it. -/
structure Carried (p : Parser) (msg : MsDsMessage) : Prop where
  body : p.serialize msg ≠ []
  inverts : ∀ data, Holds data 0 (p.serialize msg) →
    p.parsePartial (p.full_name msg) data (p.serialize msg).length = some msg

def outFrame (p : Parser) (call : EncodeCall ReadyStoreStreamInfo) : List UInt8 :=
  match call with
  | .message .. => frameOf p.toProtobuf MSG_DS_MS_INVITE_CAMERA (outgoing call)
  | .name .. => frameOf p.toProtobuf MSG_DS_MS_STORE_FINISH (outgoing call)

def Proper : EncodeCall ReadyStoreStreamInfo → Prop
  | .message .. => True
  | .name typeName _ _ _ => typeName = "MS_DS.Bye"

/-- The input after the reads of one wake-up. -/
def arrived (x : Buffer) (bytes : List UInt8) : Buffer := readInput (bytes.length + 1) x bytes

/-- What each event on the connection does, from one state of the input buffer to the next:
`Deliveries p input events calls rest`. Each wake-up finds too little for a head, or a frame whose
body the parser refuses without a look past the allocation, or a whole frame, which is taken out
and handed over. A cut that leaves the parser a part of a body that it accepts is none of these. -/
inductive Deliveries (p : Parser) : Buffer → List Event → List Call → Buffer → Prop where
  | done (input : Buffer) : Deliveries p input [] [] input
  | check {input rest : Buffer} {events : List Event} {calls : List Call} (tm_wday : Fin 7)
    (tm_hour : Fin 24) (takes : Nat → Nat) (next : Deliveries p input events calls rest) :
    Deliveries p input (.check tm_wday tm_hour takes :: events)
      (.check tm_wday tm_hour :: calls) rest
  | writable {input rest : Buffer} {events : List Event} {calls : List Call} (n : Nat)
    (next : Deliveries p input events calls rest) :
    Deliveries p input (.writable n :: events) calls rest
  | short {input rest : Buffer} {bytes : List UInt8} {events : List Event} {calls : List Call}
    (junk : Nat → UInt8) (h : (arrived input bytes).size < headSize)
    (next : Deliveries p (arrived input bytes) events calls rest) :
    Deliveries p input (.received bytes junk :: events) calls rest
  | refused {input rest : Buffer} {bytes part : List UInt8} {events : List Event}
    {calls : List Call} (junk : Nat → UInt8) {head : BaseHead} {name : String}
    (hname : (head.cmd, name) ∈ initAdmin) (h0 : head.length ≠ 0)
    (hc : (arrived input bytes).content = headBytes head ++ part)
    (hparse : p.parsePartial name (spill part junk) (toInt head.length) = none)
    (hreads : (arrived input bytes).b_ + headSize +
      p.reads name (spill part junk) (toInt head.length) ≤ (arrived input bytes).cap_)
    (next : Deliveries p (arrived input bytes) events calls rest) :
    Deliveries p input (.received bytes junk :: events) calls rest
  | whole {input rest : Buffer} {bytes after : List UInt8} {events : List Event}
    {calls : List Call} (junk : Nat → UInt8) {cmd : UInt32} {msg : MsDsMessage}
    {err para1 para2 : UInt32} (hname : (cmd, msg.type.full_name) ∈ initAdmin)
    (hm : Carried p msg)
    (hc : (arrived input bytes).content =
      frameOf p.toProtobuf cmd (.message msg err para1 para2) ++ after)
    (next : Deliveries p ((arrived input bytes).consume (headSize + (p.serialize msg).length))
      events calls rest) :
    Deliveries p input (.received bytes junk :: events)
      ((callOf (messageHead p.toProtobuf cmd msg err para1 para2) msg).toList ++ calls) rest

structure Serving (x : DSServer) : Prop where
  linked : StreamMgr.Linked x.streamMgr_
  state : x.msAgent_.state_ = .Connected
  conn : x.msAgent_.msConn_ = true
  knows : ∀ q ∈ initAdmin, x.msAgent_.link.registry.Knows q.1 q.2
  input : Ordered x.msAgent_
  output : x.msAgent_.output_.Ok

section Codec
variable {p : Parser} {msg : MsDsMessage} {r : Registry} {cmd err para1 para2 : UInt32}
  {x : Buffer} {after : List UInt8}

theorem starts_carried (hx : x.Ok)
    (hc : x.content = frameOf p.toProtobuf cmd (.message msg err para1 para2) ++ after) :
    Starts x (messageHead p.toProtobuf cmd msg err para1 para2) (p.serialize msg ++ after) :=
  ⟨hx, by rw [hc, frameOf, List.append_assoc]⟩

theorem decode_carried (hp : p.Generated) (hr : r.Knows cmd msg.type.full_name)
    (hm : Carried p msg) (hx : x.Ok)
    (hc : x.content = frameOf p.toProtobuf cmd (.message msg err para1 para2) ++ after)
    (junk : Nat → UInt8) :
    let d := decode p.toProtobuf junk r x {}
    d.msg = some msg ∧ d.info = messageHead p.toProtobuf cmd msg err para1 para2 ∧
      d.registry = r ∧ d.buf = x.consume (headSize + (p.serialize msg).length) := by
  have hs := starts_carried hx hc
  have hlen : (messageHead p.toProtobuf cmd msg err para1 para2).length.toNat =
      (p.serialize msg).length := messageHead_length p.toProtobuf cmd msg err para1 para2
  have hd := hs.decode_parsed p.toProtobuf junk r {}
    (messageHead_length_ne p.toProtobuf cmd err para1 para2 hm.body)
    (by rw [messageHead, hr.getType]; exact hp.known msg.type)
    (by
      rw [messageHead_toInt, messageHead, hr.getType, ← hp.named msg]
      exact hm.inverts _ (holds_spill (p.serialize msg) after junk))
  rw [hlen] at hd
  simp only [hd]
  refine ⟨trivial, trivial, ?_, trivial⟩
  rw [messageHead, hr.getType]

theorem present_carried (hx : x.Ok)
    (hc : x.content = frameOf p.toProtobuf cmd (.message msg err para1 para2) ++ after)
    (junk : Nat → UInt8) :
    BodyPresent p.toProtobuf r x (loadHead (x.mem junk) x.b_) := by
  have hs := starts_carried hx hc
  have hlen := messageHead_length p.toProtobuf cmd msg err para1 para2
  have hlt := p.byteSize_lt msg
  rw [hs.loadHead junk]
  refine .inr (.inr ⟨by rw [hlen]; exact hlt, ?_⟩)
  rw [hlen, hs.size_eq, List.length_append]
  omega

end Codec

/-- What the server has done between two states in which its connection was up: the calls that
the manager made, and the frames of what it sent after those that were queued before. -/
structure Progress (p : Parser) (x y : DSServer) (evs : List Streams.Event) : Prop where
  serving : Serving y
  since : StreamMgr.Since x.streamMgr_ y.streamMgr_ evs
  frames : y.msAgent_.current.frames =
    x.msAgent_.current.frames ++ (sends evs).map (outFrame p)
  sequence : sequence y.msAgent_ =
    sequence x.msAgent_ ++ ((sends evs).map (outFrame p)).flatten

/-- The server ends these events as its manager ends the calls, and has queued what that sends. -/
structure Follows (p : Parser) (ret : Nat → Int) (register : MsDsMessage) (x : DSServer)
    (events : List Event) (calls : List Call) (rest : Buffer) : Prop where
  faults : ∀ f, run (Streams.step ret) calls x.streamMgr_ = .error f →
    run (step p ret register) events x = .error (.manager f)
  completes : ∀ m, run (Streams.step ret) calls x.streamMgr_ = .ok m →
    ∃ y evs, run (step p ret register) events x = .ok y ∧ y.streamMgr_ = m ∧
      Progress p x y evs ∧ y.msAgent_.link.input_ = rest

section Following
variable {p : Parser} {ret : Nat → Int} {register : MsDsMessage} {x y z : DSServer}
  {junk : Nat → UInt8} {bytes : List UInt8} {l : Link MsDsMessage}

theorem sends_append (evs evs' : List Streams.Event) :
    sends (evs ++ evs') = sends evs ++ sends evs' := List.filterMap_append

theorem Progress.refl (hx : Serving x) : Progress p x x [] :=
  ⟨hx, .refl _, (List.append_nil _).symm, (List.append_nil _).symm⟩

theorem Progress.trans {evs evs' : List Streams.Event} (h : Progress p x y evs)
    (h' : Progress p y z evs') : Progress p x z (evs ++ evs') := by
  refine ⟨h'.serving, h.since.trans h'.since, ?_, ?_⟩
  · rw [h'.frames, h.frames, sends_append, List.map_append, List.append_assoc]
  · rw [h'.sequence, h.sequence, sends_append, List.map_append, List.flatten_append,
      List.append_assoc]

theorem Follows.cons {event : Event} {events : List Event} {calls calls' : List Call}
    {input rest : Buffer} (first : Follows p ret register x [event] calls input)
    (next : ∀ y, Serving y → y.msAgent_.link.input_ = input →
      Follows p ret register y events calls' rest) :
    Follows p ret register x (event :: events) (calls ++ calls') rest := by
  have hsplit : run (step p ret register) (event :: events) x =
      run (step p ret register) [event] x >>= run (step p ret register) events :=
    run_append [event] events x
  constructor
  · intro f hf
    rw [run_append] at hf
    cases hrun : run (Streams.step ret) calls x.streamMgr_ with
    | error f' =>
      rw [hrun] at hf
      cases hf
      rw [hsplit, first.faults f hrun]
      rfl
    | ok m =>
      obtain ⟨y, evs, hy, hmgr, hprog, hinput⟩ := first.completes m hrun
      rw [hrun, ← hmgr] at hf
      rw [hsplit, hy]
      exact (next y hprog.serving hinput).faults f hf
  · intro m hm
    obtain ⟨m₁, hm₁, hrest⟩ := run_append_ok.mp hm
    obtain ⟨y, evs, hy, hmgr, hprog, hinput⟩ := first.completes m₁ hm₁
    rw [← hmgr] at hrest
    obtain ⟨z, evs', hz, hmgr', hprog', hrest'⟩ :=
      (next y hprog.serving hinput).completes m hrest
    refine ⟨z, evs ++ evs', ?_, hmgr', hprog.trans hprog', hrest'⟩
    rw [hsplit, hy]
    exact hz

theorem log_of_quiet {calls : List Call} (hcalls : ∀ call ∈ calls, isCheck call = false)
    {m m' : StreamMgr} (h : run (Streams.step ret) calls m = .ok m') : m'.log = m.log := by
  induction calls generalizing m with
  | nil =>
    cases h
    rfl
  | cons call calls ih =>
    obtain ⟨m₁, hstep, hrest⟩ := run_cons_ok.mp h
    rw [ih (fun c hc => hcalls c (List.mem_cons_of_mem call hc)) hrest]
    cases call with
    | update msg =>
      cases hstep
      exact (StreamMgr.updateStorePlan_frame msg m).2.2.2
    | ack s p1 p2 err =>
      obtain ⟨t, task, rfl⟩ := startStream_frame hstep
      rfl
    | check tm_wday tm_hour => exact absurd (hcalls _ List.mem_cons_self) (by simp [isCheck])

theorem follows_net (hp : p.Generated) (hx : Serving x) {event : Event}
    {action : MsAgent.Action MsDsMessage} (hevent : event.action? = some action)
    (hover : ∀ junk l, callback action x.msAgent_ = some (junk, l) → overreads p junk l = false)
    {a : Agent MsDsMessage} {msgs : List (BaseHead × MsDsMessage)}
    (hadv : MsAgent.advance p.toProtobuf register action x.msAgent_ = .ok a)
    (hmsgs : a.link.handled = x.msAgent_.link.handled ++ msgs)
    (hserving : ∀ m, StreamMgr.Linked m → Serving { msAgent_ := a, streamMgr_ := m })
    (hframes : a.current.frames = x.msAgent_.current.frames)
    (hsequence : sequence a = sequence x.msAgent_) :
    Follows p ret register x [event] (callsOf msgs) a.link.input_ := by
  have hread : (callback action x.msAgent_).any (fun c => overreads p c.1 c.2) = false := by
    cases hc : callback action x.msAgent_ with
    | none => rfl
    | some c => exact hover c.1 c.2 hc
  have hnet : x.net p register action =
      ((run (Streams.step ret) (callsOf msgs) x.streamMgr_).mapError Fault.manager).map
        fun m => { msAgent_ := a, streamMgr_ := m } := by
    simp only [DSServer.net, hasRoom_of_ordered hx.input, hread, hadv, hmsgs, List.drop_left,
      run_handle hp ret, Bool.not_true, Bool.false_eq_true, if_false]
  have hstep : run (step p ret register) [event] x =
      ((run (Streams.step ret) (callsOf msgs) x.streamMgr_).mapError Fault.manager).map
        fun m => { msAgent_ := a, streamMgr_ := m } := by
    rw [run, step_net hevent, hnet]
    cases run (Streams.step ret) (callsOf msgs) x.streamMgr_ with
    | error f => rfl
    | ok m => rfl
  constructor
  · intro f hf
    rw [hstep, hf]
    rfl
  · intro m hm
    have hlinked := linked_run hx.linked hm
    refine ⟨{ msAgent_ := a, streamMgr_ := m }, [], by rw [hstep, hm]; rfl, rfl, ?_, rfl⟩
    refine ⟨hserving m hlinked, ?_, by simp [hframes, sends], by simp [hsequence, sends]⟩
    rw [StreamMgr.Since, log_of_quiet (callsOf_isCheck msgs) hm, List.append_nil]

theorem follows_received (hp : p.Generated) (hx : Serving x) {input_ : Buffer}
    {msgs : List (BaseHead × MsDsMessage)} {calls : List Call} (hcalls : callsOf msgs = calls)
    (hover : overreads p junk (x.msAgent_.readAll bytes).link = false)
    (hl : onDrained p.toProtobuf junk (x.msAgent_.readAll bytes).link =
      .ok { x.msAgent_.link with input_, handled := x.msAgent_.link.handled ++ msgs })
    (hok : input_.Ok) :
    Follows p ret register x [.received bytes junk] calls input_ := by
  rw [← hcalls]
  have hadv : MsAgent.advance p.toProtobuf register (.received bytes junk) x.msAgent_ =
      .ok { x.msAgent_ with
        link := { x.msAgent_.link with
          input_, handled := x.msAgent_.link.handled ++ msgs } } := by
    rw [MsAgent.advance, if_pos hx.state, hl]
  have hexp : 0 < input_.exp_ := by
    have hsame := onDrained_exp hl
    exact Nat.lt_of_lt_of_eq (hx.input.readAll bytes).exp hsame.symm
  have hcall : ∀ junk' l, callback (.received bytes junk) x.msAgent_ = some (junk', l) →
      overreads p junk' l = false := by
    intro junk' l hc
    rw [callback, if_pos hx.state] at hc
    cases hc
    exact hover
  exact follows_net hp hx rfl hcall hadv rfl
    (fun m hm => ⟨hm, hx.state, hx.conn, hx.knows, ⟨hok, hexp⟩, hx.output⟩) rfl rfl

theorem follows_kept (hp : p.Generated) (hx : Serving x)
    (hover : overreads p junk (x.msAgent_.readAll bytes).link = false)
    (hl : onDrained p.toProtobuf junk (x.msAgent_.readAll bytes).link =
      .ok (x.msAgent_.readAll bytes).link) :
    Follows p ret register x [.received bytes junk] []
      (arrived x.msAgent_.link.input_ bytes) := by
  have hnone : callsOf [] = [] := rfl
  refine follows_received hp hx hnone hover (hl.trans ?_) (hx.input.readAll bytes).ok
  rw [List.append_nil]
  rfl

theorem follows_short (hp : p.Generated) (hx : Serving x)
    (h : (arrived x.msAgent_.link.input_ bytes).size < headSize) :
    Follows p ret register x [.received bytes junk] []
      (arrived x.msAgent_.link.input_ bytes) :=
  follows_kept hp hx (if_pos h) (onDrained_short h)

theorem follows_refused (hp : p.Generated) (hx : Serving x) {head : BaseHead} {name : String}
    {part : List UInt8} (hname : (head.cmd, name) ∈ initAdmin) (h0 : head.length ≠ 0)
    (hc : (arrived x.msAgent_.link.input_ bytes).content = headBytes head ++ part)
    (hparse : p.parsePartial name (spill part junk) (toInt head.length) = none)
    (hreads : (arrived x.msAgent_.link.input_ bytes).b_ + headSize +
      p.reads name (spill part junk) (toInt head.length) ≤
        (arrived x.msAgent_.link.input_ bytes).cap_) :
    Follows p ret register x [.received bytes junk] []
      (arrived x.msAgent_.link.input_ bytes) := by
  have hs : Starts (x.msAgent_.readAll bytes).link.input_ head part :=
    ⟨(hx.input.readAll bytes).ok, hc⟩
  have hsz : ¬ (x.msAgent_.readAll bytes).link.input_.size < 20 := by
    rw [hs.size_eq, headSize]
    omega
  have hget : (x.msAgent_.readAll bytes).link.registry.getType head.cmd =
      (name, (x.msAgent_.readAll bytes).link.registry) := (hx.knows _ hname).getType
  -- the name of the Bye is registered too, and has no generated type
  have hdecode : ∃ parsed, decode p.toProtobuf junk (x.msAgent_.readAll bytes).link.registry
        (x.msAgent_.readAll bytes).link.input_ {} =
      { msg := none, info := head, buf := (x.msAgent_.readAll bytes).link.input_,
        registry := (x.msAgent_.readAll bytes).link.registry, parsed } ∧
      (parsed = none ∨ parsed =
        some ((x.msAgent_.readAll bytes).link.input_.b_ + headSize, toInt head.length)) := by
    by_cases hg : p.generated name = true
    · rw [hs.decode_unparsed p.toProtobuf junk _ {} h0 (by rw [hget]; exact hg)
        (by rw [hget]; exact hparse), hget]
      exact ⟨_, rfl, .inr rfl⟩
    · rw [hs.decode_untyped p.toProtobuf junk _ {} h0
        (by rw [hget]; exact Bool.eq_false_iff.mpr hg), hget]
      exact ⟨_, rfl, .inl rfl⟩
  obtain ⟨parsed, hdecode, hparsed⟩ := hdecode
  have hb : (x.msAgent_.readAll bytes).link.input_.b_ + headSize ≤
      (x.msAgent_.readAll bytes).link.input_.cap_ := Nat.le_trans (Nat.le_add_right _ _) hreads
  have hover : overreads p junk (x.msAgent_.readAll bytes).link = false := by
    rw [overreads]
    simp only [if_neg hsz, hdecode, hs.loadHead junk, hget, Bool.or_eq_false_iff,
      decide_eq_false_iff_not, Nat.not_lt, hb, true_and]
    obtain rfl | rfl := hparsed
    · rfl
    · simp only [hs.body_fun junk, decide_eq_false_iff_not, Nat.not_lt]
      exact hreads
  refine follows_kept hp hx hover ?_
  rw [onDrained_onRead hsz, onRead_decoded hsz]
  simp [hdecode, h0]

theorem follows_whole (hp : p.Generated) (hx : Serving x) {cmd : UInt32} {msg : MsDsMessage}
    {err para1 para2 : UInt32} {after : List UInt8}
    (hname : (cmd, msg.type.full_name) ∈ initAdmin) (hm : Carried p msg)
    (hc : (arrived x.msAgent_.link.input_ bytes).content =
      frameOf p.toProtobuf cmd (.message msg err para1 para2) ++ after) :
    Follows p ret register x [.received bytes junk]
      (callOf (messageHead p.toProtobuf cmd msg err para1 para2) msg).toList
      ((arrived x.msAgent_.link.input_ bytes).consume
        (headSize + (p.serialize msg).length)) := by
  have hok : (x.msAgent_.readAll bytes).link.input_.Ok := (hx.input.readAll bytes).ok
  have hs := starts_carried hok hc
  have hsz : ¬ (x.msAgent_.readAll bytes).link.input_.size < 20 := by
    rw [hs.size_eq, headSize]
    omega
  have hknows : (x.msAgent_.readAll bytes).link.registry.Knows cmd msg.type.full_name :=
    hx.knows _ hname
  obtain ⟨d1, d2, d3, d4⟩ := decode_carried hp hknows hm hok hc junk
  have hl : onDrained p.toProtobuf junk (x.msAgent_.readAll bytes).link =
      .ok { x.msAgent_.link with
        input_ := (arrived x.msAgent_.link.input_ bytes).consume
          (headSize + (p.serialize msg).length)
        handled := x.msAgent_.link.handled ++
          [(messageHead p.toProtobuf cmd msg err para1 para2, msg)] } := by
    rw [onDrained_onRead hsz, onRead_decoded hsz]
    simp only [d1, d2, d3, d4, Option.isSome_some, Bool.true_or, if_true]
    rfl
  have hcalls : callsOf [(messageHead p.toProtobuf cmd msg err para1 para2, msg)] =
      (callOf (messageHead p.toProtobuf cmd msg err para1 para2) msg).toList := by
    rw [callsOf, List.filterMap_cons]
    cases callOf (messageHead p.toProtobuf cmd msg err para1 para2) msg <;> rfl
  refine follows_received hp hx hcalls ?_ hl (hs.consume ?_).1
  · exact overreads_of_present hp hok fun _ => present_carried hok hc junk
  · rw [List.length_append]
    exact Nat.le_add_right _ _

theorem follows_writable (hp : p.Generated) (hx : Serving x) (n : Nat) :
    Follows p ret register x [.writable n] [] x.msAgent_.link.input_ := by
  have hnone : ∀ junk l, callback (.writable n) x.msAgent_ = some (junk, l) →
      overreads p junk l = false := by
    intro junk l hc
    cases hc
  by_cases hw : x.msAgent_.channel_ = some { writeEnabled := true }
  · have hadv : MsAgent.advance p.toProtobuf register (.writable n) x.msAgent_ =
        .ok (x.msAgent_.handleWrite n) := by
      rw [MsAgent.advance, if_pos ⟨hx.state, hw⟩]
    obtain ⟨hok, hseq, hframes, -⟩ := handleWrite_sequence hx.output n
    have hsame : (x.msAgent_.handleWrite n).link.handled = x.msAgent_.link.handled ++ [] := by simp
    rw [← handleWrite_link (x := x.msAgent_) (n := n)]
    exact follows_net hp hx rfl hnone hadv hsame
      (fun m hm => ⟨hm, by simp [hx.state], by simp [hx.conn], by simpa using hx.knows,
        ⟨by simpa using hx.input.ok, by simpa using hx.input.exp⟩, hok⟩) hframes hseq
  · have hadv : MsAgent.advance p.toProtobuf register (.writable n) x.msAgent_ =
        .ok x.msAgent_ := by
      rw [MsAgent.advance, if_neg fun h => hw h.2]
    exact follows_net hp hx rfl hnone hadv (List.append_nil _).symm
      (fun m hm => ⟨hm, hx.state, hx.conn, hx.knows, hx.input, hx.output⟩) rfl rfl

theorem turn_proper {s : String} {wanted : Bool} {m m' : StreamMgr}
    (h : StreamMgr.Turn ret s wanted m m') {evs : List Streams.Event}
    (he : StreamMgr.Since m m' evs) : ∀ call ∈ sends evs, Proper call := by
  cases h with
  | kept hw hs =>
    rw [he.nil]
    exact fun call hcall => absurd hcall List.not_mem_nil
  | idle hw hs =>
    rw [he.nil]
    exact fun call hcall => absurd hcall List.not_mem_nil
  | stopped hw info ses hi hs =>
    have hevs : evs = _ := List.append_cancel_left (he.symm.trans rfl)
    rw [hevs]
    simp [sends, Proper]
  | created hw hs =>
    by_cases h0 : (StreamMgr.newSes ret m).1 = 0
    · rw [StreamMgr.createStream_refused h0] at he
      have hevs : evs = _ := List.append_cancel_left (he.symm.trans rfl)
      rw [hevs]
      simp [sends]
    · rw [StreamMgr.createStream_made h0] at he
      have hevs : evs = _ := List.append_cancel_left (he.symm.trans rfl)
      rw [hevs]
      simp [sends, Proper]

theorem turns_proper {d : Fin 8} {h : Fin 24} {plans : List Plan} {m m' : StreamMgr}
    (t : StreamMgr.Turns ret d h plans m m') {evs : List Streams.Event}
    (he : StreamMgr.Since m m' evs) : ∀ call ∈ sends evs, Proper call := by
  induction t generalizing evs with
  | nil m =>
    rw [he.nil]
    exact fun call hcall => absurd hcall List.not_mem_nil
  | cons first rest ih =>
    obtain ⟨evs₁, he₁⟩ := first.since
    obtain ⟨evs₂, he₂⟩ := rest.since
    rw [he.unique (he₁.trans he₂), sends_append]
    intro call hcall
    cases List.mem_append.mp hcall with
    | inl hfirst => exact turn_proper first he₁ call hfirst
    | inr hrest => exact ih he₂ call hrest

theorem encode_proper (hp : p.Generated) {a : Agent MsDsMessage}
    {call : EncodeCall ReadyStoreStreamInfo} (hcall : Proper call)
    (hknows : ∀ q ∈ initAdmin, a.link.registry.Knows q.1 q.2) :
    a.link.registry.Knows (a.link.registry.getCmd (nameOf p.toProtobuf (outgoing call))).1
        (nameOf p.toProtobuf (outgoing call)) ∧
      frameOf p.toProtobuf (a.link.registry.getCmd (nameOf p.toProtobuf (outgoing call))).1
        (outgoing call) = outFrame p call := by
  cases call with
  | message msg err para1 para2 =>
    have hk : a.link.registry.Knows MSG_DS_MS_INVITE_CAMERA "MS_DS.ReadyStoreStreamInfo" :=
      hknows (MSG_DS_MS_INVITE_CAMERA, "MS_DS.ReadyStoreStreamInfo") (by decide)
    have hname : nameOf p.toProtobuf (outgoing (.message msg err para1 para2)) =
        "MS_DS.ReadyStoreStreamInfo" := hp.named _
    rw [hname, hk.getCmd]
    exact ⟨hk, rfl⟩
  | name typeName err para1 para2 =>
    have hk : a.link.registry.Knows MSG_DS_MS_STORE_FINISH "MS_DS.Bye" :=
      hknows (MSG_DS_MS_STORE_FINISH, "MS_DS.Bye") (by decide)
    have hname : nameOf p.toProtobuf (outgoing (.name typeName err para1 para2)) =
        "MS_DS.Bye" := hcall
    rw [hname, hk.getCmd]
    exact ⟨hk, rfl⟩

/-- What is sent while the connection is up is queued in order, however much of it the socket
takes at once. -/
structure Queued (a a' : Agent MsDsMessage) (new : List (List UInt8)) : Prop where
  state : a'.state_ = .Connected
  conn : a'.msConn_ = true
  link : a'.link = a.link
  output : a'.output_.Ok
  frames : a'.current.frames = a.current.frames ++ new
  sequence : sequence a' = sequence a ++ new.flatten

theorem queued_send (hp : p.Generated) {a : Agent MsDsMessage} (hstate : a.state_ = .Connected)
    (hconn : a.msConn_ = true) (hknows : ∀ q ∈ initAdmin, a.link.registry.Knows q.1 q.2)
    (hout : a.output_.Ok) {call : EncodeCall ReadyStoreStreamInfo} (hcall : Proper call)
    (n : Nat) :
    Queued a ((a.encode p.toProtobuf (outgoing call)).sendOutput n) [outFrame p call] := by
  obtain ⟨hk, hframe⟩ := encode_proper hp hcall hknows
  obtain ⟨hreg, hok, hc⟩ := run_call hk hout
  obtain ⟨hok', hseq, hframes, -⟩ :=
    sendOutput_sequence (x := a.encode p.toProtobuf (outgoing call)) hok n
  refine ⟨by simp [hstate], by simp [Agent.encode, hconn], ?_, hok', hframes.trans ?_,
    hseq.trans ?_⟩
  · rw [sendOutput_link, Agent.encode]
    simp only [hreg]
  · simp only [Agent.encode, if_pos hstate, hframe]
  · have hcur : (a.encode p.toProtobuf (outgoing call)).current.written = a.current.written := by
      simp only [Agent.encode, if_pos hstate]
    rw [MsAgent.sequence, hcur, MsAgent.sequence, List.flatten_singleton, ← hframe,
      List.append_assoc, ← hc]
    rfl

theorem queued_all (hp : p.Generated) (register : MsDsMessage) {a : Agent MsDsMessage}
    (hstate : a.state_ = .Connected) (hconn : a.msConn_ = true)
    (hknows : ∀ q ∈ initAdmin, a.link.registry.Knows q.1 q.2)
    (hout : a.output_.Ok) (takes : Nat → Nat) {calls : List (EncodeCall ReadyStoreStreamInfo)}
    (hcalls : ∀ call ∈ calls, Proper call) :
    ∃ a', run (MsAgent.advance p.toProtobuf register) (sendAll takes calls) a = .ok a' ∧
      Queued a a' (calls.map (outFrame p)) := by
  induction calls generalizing takes a with
  | nil =>
    exact ⟨a, rfl, hstate, hconn, rfl, hout, (List.append_nil _).symm, (List.append_nil _).symm⟩
  | cons call calls ih =>
    have first := queued_send hp hstate hconn hknows hout (hcalls call List.mem_cons_self) (takes 0)
    obtain ⟨a', ha', rest⟩ := ih first.state first.conn (by rw [first.link]; exact hknows)
      first.output (fun i => takes (i + 1)) fun c hc => hcalls c (List.mem_cons_of_mem call hc)
    refine ⟨a', ?_, rest.state, rest.conn, rest.link.trans first.link, rest.output, ?_, ?_⟩
    · rw [sendAll, List.mapIdx_cons]
      refine run_cons_ok.mpr ⟨_, ?_, ha'⟩
      rw [MsAgent.advance, if_pos hconn]
    · rw [rest.frames, first.frames, List.append_assoc]
      rfl
    · rw [rest.sequence, first.sequence, List.append_assoc]
      simp

theorem follows_check (hp : p.Generated) (hx : Serving x) (tm_wday : Fin 7) (tm_hour : Fin 24)
    (takes : Nat → Nat) :
    Follows p ret register x [.check tm_wday tm_hour takes] [.check tm_wday tm_hour]
      x.msAgent_.link.input_ := by
  obtain ⟨m, hm, t⟩ := StreamMgr.checkStorePlan_turns ret hx.linked tm_wday tm_hour
  obtain ⟨evs, he⟩ := t.since
  have hnew : m.log.drop x.streamMgr_.log.length = evs := by rw [he, List.drop_left]
  obtain ⟨a, ha, hq⟩ := queued_all hp register hx.state hx.conn hx.knows hx.output takes
    (turns_proper t he)
  have hcheck : x.check p ret register tm_wday tm_hour takes =
      .ok { msAgent_ := a, streamMgr_ := m } := by
    simp only [DSServer.check, hm, hnew, ha]
  have hcall : run (Streams.step ret) [.check tm_wday tm_hour] x.streamMgr_ = .ok m :=
    run_cons_ok.mpr ⟨m, hm, rfl⟩
  constructor
  · intro f hf
    rw [hcall] at hf
    cases hf
  · intro m' hm'
    rw [hcall] at hm'
    cases hm'
    refine ⟨{ msAgent_ := a, streamMgr_ := m }, evs, run_cons_ok.mpr ⟨_, hcheck, rfl⟩, rfl,
      ⟨?_, he, hq.frames, hq.sequence⟩, by rw [hq.link]⟩
    exact ⟨t.linked hx.linked, hq.state, hq.conn, by rw [hq.link]; exact hx.knows,
      ⟨by rw [hq.link]; exact hx.input.ok, by rw [hq.link]; exact hx.input.exp⟩, hq.output⟩

/-- While the connection is up, in whatever pieces the frames of the MS arrive, as long as the
parser takes no part of a body for a whole one, and whenever the timer goes off, the server does
what its manager does at these messages and checks: it ends where that ends, in a fault or with the
same plans and sessions, and the frames of what the manager sends are queued, in order and complete,
behind what was queued before. -/
theorem server_follows_messages (p : Parser) (hp : p.Generated) (ret : Nat → Int)
    (register : MsDsMessage) (x : DSServer) (events : List Event) (calls : List Call)
    (rest : Buffer) (hx : Serving x)
    (h : Deliveries p x.msAgent_.link.input_ events calls rest) :
    Follows p ret register x events calls rest := by
  generalize hinput : x.msAgent_.link.input_ = input at h
  induction h generalizing x with
  | done input =>
    refine ⟨fun f hf => ?_, fun m hm => ?_⟩
    · cases hf
    · cases hm
      exact ⟨x, [], rfl, rfl, .refl hx, hinput⟩
  | check tm_wday tm_hour takes _ ih =>
    subst hinput
    exact (follows_check hp hx tm_wday tm_hour takes).cons ih
  | writable n _ ih =>
    subst hinput
    exact (follows_writable hp hx n).cons ih
  | short junk hlen _ ih =>
    subst hinput
    exact (follows_short hp hx hlen).cons ih
  | refused junk hname h0 hc hparse hreads _ ih =>
    subst hinput
    exact (follows_refused hp hx hname h0 hc hparse hreads).cons ih
  | whole junk hname hm hc _ ih =>
    subst hinput
    exact (follows_whole hp hx hname hm hc).cons ih

/-- The server once its connection is up, with the whole registration sent. -/
def served : DSServer :=
  { msAgent_ := (registerToMS (Registry.ofPairs initAdmin)).established msDsProtobuf
      (.dsRegister (some "1.1.1.1") (some 1) (some 7)) 33 }

theorem serving_served : Serving served := by
  have hknows : ∀ q ∈ initAdmin, (Registry.ofPairs initAdmin).Knows q.1 q.2 :=
    fun q hq => Registry.knows_ofPairs initAdmin_distinct.1 initAdmin_distinct.2 hq
  have hout := encoded (x := opened (registerToMS (Registry.ofPairs initAdmin))) msDsProtobuf
    Buffer.ok_default (hknows (MSG_MS_DS_DSREGISTER, "MS_DS.DSRegister") (by decide))
    (.message (.dsRegister (some "1.1.1.1") (some 1) (some 7)) 0 0 0) 33
  refine ⟨StreamMgr.linked_start, rfl, rfl, fun q hq => ?_, ⟨Buffer.ok_default, by decide⟩,
    hout.1⟩
  exact knows_run (hknows q hq) _ _

end Following

theorem carried_of_latin1 {msg : MsDsMessage} (h : ∀ s ∈ msg.strings, Latin1 s)
    (hshort : msg.serialize.length < 2 ^ 31) (hbody : msg.serialize ≠ []) :
    Carried msDsParser msg := by
  have hser : msDsParser.serialize msg = msg.serialize := if_pos hshort
  refine ⟨by rw [hser]; exact hbody, fun data hdata => ?_⟩
  rw [hser] at hdata ⊢
  have hbytes : (List.range msg.serialize.length).map data = msg.serialize := by
    apply List.ext_getElem
    · simp
    · intro i hi hi'
      have hget := hdata i hi'
      rw [Nat.zero_add] at hget
      simpa using hget
  have hparse := parsePartial_serialize h (by omega)
  simp only [msDsParser, msDsProtobuf, Int.toNat_natCast, hbytes]
  rw [if_pos (Int.natCast_nonneg _)]
  exact hparse

theorem mondayPlan_carried : Carried msDsParser (.storePlan mondayPlan) := by
  refine carried_of_latin1 (fun s hs => ?_) (by decide) (by decide)
  have hone : s = "s" := by simpa [MsDsMessage.strings, mondayPlan, StreamPlanInfo.strings] using hs
  rw [hone]
  intro c hc
  have hchar : c = 's' := by simpa using hc
  rw [hchar]
  decide

def mondayFrame : List UInt8 :=
  frameOf msDsProtobuf MSG_MS_DS_STOREPLAN (.message (.storePlan mondayPlan) 0 0 0)

/-- The plan arrives in three pieces, a part of the head, a part of the body and the rest, and then
the timer goes off. -/
def mondayPieces (tm_wday : Fin 7) (tm_hour : Fin 24) : List Event :=
  [.received (mondayFrame.take 9) fun _ => 0,
    .received ((mondayFrame.drop 9).take 20) fun _ => 0,
    .received (mondayFrame.drop 29) fun _ => 0,
    .check tm_wday tm_hour fun _ => 7]

theorem mondayPieces_deliveries :
    Deliveries msDsParser {} (mondayPieces 1 9) [.update mondayPlan, .check 1 9] {} := by
  let first : Buffer := arrived {} (mondayFrame.take 9)
  let second : Buffer := arrived first ((mondayFrame.drop 9).take 20)
  let size : Nat := headSize + (msDsParser.serialize (.storePlan mondayPlan)).length
  have hmem : (MSG_MS_DS_STOREPLAN, (MsDsMessage.storePlan mondayPlan).type.full_name) ∈
      initAdmin := by decide
  have hend : (arrived second (mondayFrame.drop 29)).consume size = {} := by decide
  have hcheck : Deliveries msDsParser ((arrived second (mondayFrame.drop 29)).consume size)
      [.check 1 9 fun _ => 7] [.check 1 9] {} := by
    rw [hend]
    exact .check 1 9 _ (.done {})
  have hframe : (arrived second (mondayFrame.drop 29)).content =
      frameOf msDsProtobuf MSG_MS_DS_STOREPLAN (.message (.storePlan mondayPlan) 0 0 0) ++ [] := by
    decide
  have hwhole := Deliveries.whole (fun _ => 0) hmem mondayPlan_carried hframe hcheck
  have hpart : second.content =
      headBytes (messageHead msDsProtobuf MSG_MS_DS_STOREPLAN (.storePlan mondayPlan) 0 0 0) ++
        (mondayFrame.drop 20).take 9 := by decide
  have hrefused := Deliveries.refused (fun _ => 0) hmem (by decide) hpart (by decide) (by decide)
    hwhole
  exact .short (fun _ => 0) (by decide) hrefused

theorem server_follows_mondayPlan :
    Follows msDsParser (fun _ => 0) (.dsRegister (some "1.1.1.1") (some 1) (some 7)) served
      (mondayPieces 1 9) [.update mondayPlan, .check 1 9] {} :=
  server_follows_messages _ msDsParser_generated _ _ served _ _ {} serving_served
    mondayPieces_deliveries

end LazyNet.AdminLoop
