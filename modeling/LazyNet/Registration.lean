import LazyNet.MsAgent
import LazyNet.PlanChecks

/-! What is written on each connection to the MS. The output buffer outlives the connections, and
the checks encode their frames into it whether there is one or not. -/
namespace LazyNet.MsAgent
open LazyNet.Words LazyNet.Tables LazyNet.HandyBuffer LazyNet.ExternalMsgCodec
open LazyNet.MsDsProtocol LazyNet.CodecRoundTrip LazyNet.DSServer LazyNet.StepRuns
variable {Message : Type}

def registerFrame (pb : Protobuf Message) (register : Message) : List UInt8 :=
  frameOf pb MSG_MS_DS_DSREGISTER (.message register 0 0 0)

/-- Nothing was written, or what was is the beginning of the frames that were queued on this
connection, the registration before all others. -/
def RegistersFirst (reg : List UInt8) (t : Traffic) : Prop :=
  t.written <+: t.frames.flatten ∧ (t.written ≠ [] → t.frames.head? = some reg)

section Encoding
variable {pb : Protobuf Message} {x : Agent Message} {n : Nat}

theorem run_appends (pb : Protobuf Message) (r : Registry) (call : EncodeCall Message)
    {b : Buffer} (hb : b.Ok) : (call.run pb (r, b)).2.Ok ∧ (call.run pb (r, b)).2.content =
      b.content ++ frameOf pb (r.getCmd (nameOf pb call)).1 call := by
  cases call with
  | message msg err para1 para2 =>
    obtain ⟨hok, hc⟩ := appendHead_ok hb
      (messageHead pb (r.getCmd (pb.full_name msg)).1 msg err para1 para2)
    obtain ⟨hok', hc'⟩ := hok.append (pb.serialize msg)
    refine ⟨hok', hc'.trans ?_⟩
    rw [hc, List.append_assoc]
    rfl
  | name typeName err para1 para2 => exact appendHead_ok hb _

theorem knows_getCmd {r : Registry} {cmd : UInt32} {name : String} (h : r.Knows cmd name)
    (other : String) : (r.getCmd other).2.Knows cmd name := by
  by_cases hmem : other ∈ r.type2Cmd_
  · obtain ⟨v, hv⟩ := mem_iff_get.mp hmem
    simpa [Registry.getCmd, slot_of_get hv] using h
  · have hne : other ≠ name := fun heq => hmem (mem_iff_get.mpr ⟨cmd, heq ▸ h.1⟩)
    refine ⟨?_, h.2⟩
    simp [Registry.getCmd, slot_of_notMem hmem, get_insert, hne, h.1]

theorem knows_getType {r : Registry} {cmd : UInt32} {name : String} (h : r.Knows cmd name)
    (other : UInt32) : (r.getType other).2.Knows cmd name := by
  by_cases hmem : other ∈ r.cmd2Type_
  · obtain ⟨v, hv⟩ := mem_iff_get.mp hmem
    simpa [Registry.getType, slot_of_get hv] using h
  · have hne : other ≠ cmd := fun heq => hmem (mem_iff_get.mpr ⟨name, heq ▸ h.2⟩)
    refine ⟨h.1, ?_⟩
    simp [Registry.getType, slot_of_notMem hmem, get_insert, hne, h.2]

theorem knows_run {r : Registry} {cmd : UInt32} {name : String} (h : r.Knows cmd name)
    (call : EncodeCall Message) (b : Buffer) : (call.run pb (r, b)).1.Knows cmd name := by
  cases call with
  | message msg err para1 para2 => exact knows_getCmd h _
  | name typeName err para1 para2 => exact knows_getCmd h _

theorem knows_decode (pb : Protobuf Message) {r : Registry} {cmd : UInt32} {name : String}
    (h : r.Knows cmd name) (junk : Nat → UInt8) (b : Buffer) (info : BaseHead) :
    (decode pb junk r b info).registry.Knows cmd name := by
  simp only [decode]
  split_ifs
  · exact h
  · exact h
  · split
    · exact knows_getType h _
    · exact knows_getType h _
  · exact knows_getType h _

theorem knows_onDrained {l l' : Link Message} {cmd : UInt32} {name : String}
    (h : l.registry.Knows cmd name) {junk : Nat → UInt8} (hl : onDrained pb junk l = .ok l') :
    l'.registry.Knows cmd name := by
  cases onDrained_cases hl with
  | inl hsame => rwa [hsame]
  | inr hdecoded =>
    rw [hdecoded.1]
    exact knows_decode pb h junk l.input_ {}

def sequence (x : Agent Message) : List UInt8 := x.current.written ++ x.output_.content

theorem isend_sequence (hx : x.output_.Ok) (n : Nat) :
    (x.isend n).output_.Ok ∧ sequence (x.isend n) = sequence x := by
  obtain ⟨hok, hc⟩ := hx.consume (Nat.min_le_right n x.output_.size)
  refine ⟨hok, ?_⟩
  simp only [sequence, Agent.isend, hc]
  rw [List.append_assoc, List.take_append_drop]

theorem sendOutput_sequence (hx : x.output_.Ok) (n : Nat) :
    (x.sendOutput n).output_.Ok ∧ sequence (x.sendOutput n) = sequence x ∧
      (x.sendOutput n).current.frames = x.current.frames ∧ (x.sendOutput n).past = x.past := by
  obtain ⟨hok, hseq⟩ := isend_sequence hx n
  simp only [Agent.sendOutput]
  split
  · exact ⟨hx, rfl, rfl, rfl⟩
  · split_ifs
    · exact ⟨hok, hseq, rfl, rfl⟩
    · exact ⟨hok, hseq, rfl, rfl⟩
    · exact ⟨hx, rfl, rfl, rfl⟩

theorem handleWrite_sequence (hx : x.output_.Ok) (n : Nat) :
    (x.handleWrite n).output_.Ok ∧ sequence (x.handleWrite n) = sequence x ∧
      (x.handleWrite n).current.frames = x.current.frames ∧ (x.handleWrite n).past = x.past := by
  obtain ⟨hok, hseq⟩ := isend_sequence hx n
  simp only [Agent.handleWrite]
  split_ifs
  · exact ⟨hok, hseq, rfl, rfl⟩
  · exact ⟨hok, hseq, rfl, rfl⟩

end Encoding

/-- The registration is encoded under its own command, and what the handshake finds was not queued
on its connection. -/
structure Encodes (x : Agent Message) : Prop where
  ok : x.output_.Ok
  knows : x.link.registry.Knows MSG_MS_DS_DSREGISTER "MS_DS.DSRegister"
  fresh : x.state_ = .Handshaking → x.current.frames = []

/-- A connection is established on an empty buffer, and nothing is written before it is. -/
def Undisturbed : Action Message → Agent Message → Prop
  | .established _, x => x.state_ = .Handshaking → x.output_.content = []
  | .send _ n, x => x.state_ = .Handshaking → n = 0
  | _, _ => True

structure Ordered (reg : List UInt8) (x : Agent Message) : Prop where
  past : ∀ t ∈ x.past, RegistersFirst reg t
  connected : x.state_ = .Connected →
    sequence x = x.current.frames.flatten ∧ x.current.frames.head? = some reg
  unwritten : x.state_ = .Handshaking → x.current.written = []
  current : x.state_ ≠ .Connected → RegistersFirst reg x.current
  closed : x.state_ ≠ .Connected → x.state_ ≠ .Handshaking → x.channel_ = none

section Steps
variable {pb : Protobuf Message} {register : Message} {x x' : Agent Message}
  {action : Action Message} {reg : List UInt8}

def opened (x : Agent Message) : Agent Message :=
  { x with state_ := .Connected, channel_ := some { writeEnabled := false } }

theorem established_sends (pb : Protobuf Message) (register : Message) (x : Agent Message)
    (n : Nat) : ∃ y, y = ((opened x).encode pb (.message register 0 0 0)).sendOutput n ∧
      x.established pb register n = { y with msConn_ := true } := ⟨_, rfl, rfl⟩

theorem encoded (pb : Protobuf Message) (hok : x.output_.Ok) {cmd : UInt32} {name : String}
    (hk : x.link.registry.Knows cmd name) (call : EncodeCall Message) (n : Nat) :
    ((x.encode pb call).sendOutput n).output_.Ok ∧
      ((x.encode pb call).sendOutput n).link.registry.Knows cmd name := by
  have happ := (run_appends pb x.link.registry call hok).1
  refine ⟨(sendOutput_sequence happ n).1, ?_⟩
  rw [sendOutput_link]
  exact knows_run hk call x.output_

theorem encodes_step (he : Encodes x) (h : advance pb register action x = .ok x') :
    Encodes x' := by
  cases advance_cases h with
  | quiet => exact he
  | established n hs =>
    obtain ⟨y, hy, heq⟩ := established_sends pb register x n
    have hsent := encoded (x := opened x) pb he.ok he.knows (.message register 0 0 0) n
    have hfresh : (x.established pb register n).state_ = .Handshaking →
        (x.established pb register n).current.frames = [] := fun hh => by simp at hh
    rw [← hy] at hsent
    rw [heq] at hfresh ⊢
    exact ⟨hsent.1, hsent.2, hfresh⟩
  | refused junk hs link hl =>
    exact ⟨he.ok, knows_onDrained he.knows hl, fun hh => by cases hh⟩
  | received bytes junk hs link hl =>
    refine ⟨he.ok, knows_onDrained (l := (x.readAll bytes).link) he.knows hl, fun hh => ?_⟩
    cases hs.symm.trans hh
  | dropped bytes junk hs link hl =>
    exact ⟨he.ok, knows_onDrained (l := (x.readAll bytes).link) he.knows hl, fun hh => by cases hh⟩
  | writable n hs =>
    obtain ⟨hok, -, -, -⟩ := handleWrite_sequence he.ok n
    refine ⟨hok, by rw [handleWrite_link]; exact he.knows, fun hh => ?_⟩
    rw [handleWrite_state] at hh
    cases hs.symm.trans hh
  | timer hs => exact ⟨he.ok, he.knows, fun _ => rfl⟩
  | send call n =>
    obtain ⟨hok, hk⟩ := encoded pb he.ok he.knows call n
    refine ⟨hok, hk, fun hh => ?_⟩
    rw [sendOutput_state, encode_state] at hh
    have happ := (run_appends pb x.link.registry call he.ok).1
    rw [(sendOutput_sequence (x := x.encode pb call) happ n).2.2.1]
    have hne : ¬ x.state_ = .Connected := by
      intro hc
      cases hh.symm.trans hc
    simp only [Agent.encode, if_neg hne]
    exact he.fresh hh

theorem encodes_start :
    Encodes (registerToMS (Registry.ofPairs initAdmin) : Agent Message) := by
  have hmem : (MSG_MS_DS_DSREGISTER, "MS_DS.DSRegister") ∈ initAdmin := by decide
  exact ⟨Buffer.ok_default,
    Registry.knows_ofPairs initAdmin_distinct.1 initAdmin_distinct.2 hmem, fun _ => rfl⟩

theorem established_sequence (he : Encodes x) (hname : pb.full_name register = "MS_DS.DSRegister")
    (hs : x.state_ = .Handshaking) (n : Nat) :
    sequence (x.established pb register n) = sequence x ++ registerFrame pb register ∧
    (x.established pb register n).current.frames = [registerFrame pb register] ∧
    (x.established pb register n).past = x.past := by
  obtain ⟨happ, hc⟩ := run_appends pb x.link.registry (.message register 0 0 0) he.ok
  have hcmd : x.link.registry.getCmd (nameOf pb (.message register 0 0 0)) =
      (MSG_MS_DS_DSREGISTER, x.link.registry) := by
    rw [nameOf, hname]
    exact he.knows.getCmd
  rw [hcmd] at hc
  obtain ⟨y, hy, heq⟩ := established_sends pb register x n
  have hsent := sendOutput_sequence (x := (opened x).encode pb (.message register 0 0 0)) happ n
  rw [← hy] at hsent
  obtain ⟨-, hseq, hframes, hpast⟩ := hsent
  rw [heq]
  refine ⟨hseq.trans ?_, hframes.trans ?_, hpast⟩
  · simp only [sequence, Agent.encode, opened, if_true]
    rw [hc, ← List.append_assoc]
    rfl
  · simp only [Agent.encode, opened, if_true, hcmd, he.fresh hs, List.nil_append]
    rfl

theorem RegistersFirst.of_sequence {t : Traffic} {queued : List UInt8}
    (h : t.written ++ queued = t.frames.flatten) (hhead : t.frames.head? = some reg) :
    RegistersFirst reg t := ⟨⟨queued, h⟩, fun _ => hhead⟩

theorem registersFirst_unwritten {t : Traffic} (h : t.written = []) : RegistersFirst reg t := by
  refine ⟨?_, fun hne => absurd h hne⟩
  rw [h]
  exact List.nil_prefix

theorem Ordered.all (ho : Ordered reg x) : ∀ t ∈ x.past ++ [x.current], RegistersFirst reg t := by
  intro t ht
  rw [List.mem_append, List.mem_singleton] at ht
  cases ht with
  | inl hpast => exact ho.past t hpast
  | inr hcur =>
    rw [hcur]
    by_cases hs : x.state_ = .Connected
    · obtain ⟨hseq, hhead⟩ := ho.connected hs
      exact .of_sequence hseq hhead
    · exact ho.current hs

theorem Ordered.connecting (ho : Ordered reg x) : Ordered reg x.connect := by
  refine ⟨ho.all, fun hs => ?_, fun _ => rfl, fun _ => registersFirst_unwritten rfl,
    fun _ hs => absurd rfl hs⟩
  cases hs

theorem Ordered.ending (ho : Ordered reg x) (hs : x'.state_ ≠ .Connected)
    (hs' : x'.state_ ≠ .Handshaking) (hchan : x'.channel_ = none) (hpast : x'.past = x.past)
    (hcur : x'.current = x.current) : Ordered reg x' := by
  refine ⟨by rw [hpast]; exact ho.past, fun h => absurd h hs, fun h => absurd h hs',
    fun _ => ?_, fun _ _ => hchan⟩
  rw [hcur]
  exact ho.all x.current (List.mem_append_right _ List.mem_cons_self)

theorem Ordered.moving (ho : Ordered reg x) (hs : x.state_ = .Connected)
    (added : List (List UInt8)) (hstate : x'.state_ = .Connected) (hpast : x'.past = x.past)
    (hframes : x'.current.frames = x.current.frames ++ added)
    (hseq : sequence x' = sequence x ++ added.flatten) : Ordered reg x' := by
  obtain ⟨hold, hhead⟩ := ho.connected hs
  refine ⟨by rw [hpast]; exact ho.past, fun _ => ⟨?_, ?_⟩, fun h => ?_,
    fun h => absurd hstate h, fun h => absurd hstate h⟩
  · rw [hseq, hold, hframes, List.flatten_append]
  · rw [hframes]
    cases hf : x.current.frames with
    | nil =>
      rw [hf] at hhead
      cases hhead
    | cons frame frames =>
      rw [hf] at hhead
      exact hhead
  · cases hstate.symm.trans h

theorem ordered_send (ho : Ordered reg x) (he : Encodes x) {call : EncodeCall Message} {n : Nat}
    (hn : x.state_ = .Handshaking → n = 0) :
    Ordered reg ((x.encode pb call).sendOutput n) := by
  obtain ⟨happ, hc⟩ := run_appends pb x.link.registry call he.ok
  obtain ⟨-, hseq, hframes, hpast⟩ := sendOutput_sequence (x := x.encode pb call) happ n
  have hstate : ((x.encode pb call).sendOutput n).state_ = x.state_ := by simp
  by_cases hs : x.state_ = .Connected
  · refine ho.moving hs [frameOf pb (x.link.registry.getCmd (nameOf pb call)).1 call]
      (hstate.trans hs) hpast (hframes.trans ?_) (hseq.trans ?_)
    · simp only [Agent.encode, if_pos hs]
    · simp only [sequence, Agent.encode, if_pos hs]
      rw [hc, List.append_assoc]
      simp
  · have hcur : (x.encode pb call).current = x.current := by
      simp only [Agent.encode, if_neg hs]
    by_cases hs' : x.state_ = .Handshaking
    · have hwritten : ((x.encode pb call).sendOutput n).current.written = [] := by
        rw [hn hs']
        simp only [Agent.sendOutput]
        split
        · rw [hcur]
          exact ho.unwritten hs'
        · split_ifs <;> simp [Agent.isend, hcur, ho.unwritten hs']
      refine ⟨by rw [hpast]; exact ho.past, fun h => absurd (hstate.symm.trans h) hs,
        fun _ => hwritten, fun _ => registersFirst_unwritten hwritten,
        fun _ h => absurd (hstate.trans hs') h⟩
    · have hsame : (x.encode pb call).sendOutput n = x.encode pb call := by
        have hchan : (x.encode pb call).channel_ = none := ho.closed hs hs'
        simp only [Agent.sendOutput, hchan]
      rw [hsame]
      have hended : Ordered reg (x.encode pb call) :=
        ho.ending hs hs' (ho.closed hs hs') rfl hcur
      exact hended

theorem ordered_step (hname : pb.full_name register = "MS_DS.DSRegister") (he : Encodes x)
    (ho : Ordered (registerFrame pb register) x) (hu : Undisturbed action x)
    (h : advance pb register action x = .ok x') : Ordered (registerFrame pb register) x' := by
  cases advance_cases h with
  | quiet => exact ho
  | established n hs =>
    obtain ⟨hseq, hframes, hpast⟩ := established_sequence he hname hs n
    have hnothing : sequence x = [] := by
      rw [sequence, ho.unwritten hs, hu hs]
      rfl
    have hstate : (x.established pb register n).state_ = .Connected := established_state
    refine ⟨by rw [hpast]; exact ho.past, fun _ => ⟨?_, by rw [hframes]; rfl⟩, fun h => ?_,
      fun h => absurd hstate h, fun h => absurd hstate h⟩
    · rw [hseq, hnothing, hframes]
      simp
    · cases hstate.symm.trans h
  | refused junk hs link hl => exact ho.ending (by simp) (by simp) rfl rfl rfl
  | received bytes junk hs link hl =>
    exact ho.moving hs [] hs rfl (by simp) (by simp [sequence])
  | dropped bytes junk hs link hl => exact ho.ending (by simp) (by simp) rfl rfl rfl
  | writable n hs =>
    obtain ⟨-, hseq, hframes, hpast⟩ := handleWrite_sequence he.ok n
    exact ho.moving hs [] (by simp [hs]) hpast (by simp [hframes]) (by simp [hseq])
  | timer hs => exact ho.connecting
  | send call n => exact ordered_send ho he hu

theorem ordered_start (registry : Registry) :
    Ordered reg (registerToMS registry : Agent Message) := by
  have hfresh : Ordered reg ({ link := { registry, input_ := {}, handled := [] } }
      : Agent Message) := by
    refine ⟨fun t ht => absurd ht List.not_mem_nil, fun hs => ?_, fun _ => rfl,
      fun _ => registersFirst_unwritten rfl, fun _ _ => rfl⟩
    cases hs
  exact hfresh.connecting

theorem encodes_of_reachable (h : Reachable (advance pb register)
    (registerToMS (Registry.ofPairs initAdmin)) x) : Encodes x :=
  h.inv encodes_start fun _ _ _ he hs => encodes_step he hs

theorem sendOutput_all (hx : x.output_.Ok) (hchan : x.channel_ ≠ none) :
    (x.sendOutput x.output_.size).output_.content = [] := by
  have hsize := hx.content_length
  cases hc : x.channel_ with
  | none => exact absurd hc hchan
  | some channel =>
    by_cases h0 : x.output_.size = 0
    · have hnil : x.output_.content = [] := List.length_eq_zero_iff.mp (hsize.trans h0)
      simpa [Agent.sendOutput, hc, h0] using hnil
    · obtain ⟨hok, hrest⟩ := hx.consume (Nat.le_refl x.output_.size)
      rw [List.drop_eq_nil_of_le hsize.le] at hrest
      have h0' : (x.output_.consume x.output_.size).size = 0 := by
        rw [← hok.content_length, hrest]
        rfl
      simp [Agent.sendOutput, hc, h0, Agent.isend, h0', hrest]

/-- A connection begins with its registration, whatever part of it the socket takes, exactly when
it is established with nothing written and nothing queued. -/
theorem established_first_iff (he : Encodes x) (hname : pb.full_name register = "MS_DS.DSRegister")
    (hs : x.state_ = .Handshaking) :
    (∀ n, RegistersFirst (registerFrame pb register) (x.established pb register n).current) ↔
      x.current.written = [] ∧ x.output_.content = [] := by
  constructor
  · intro hfirst
    obtain ⟨happ, -⟩ := run_appends pb x.link.registry (.message register 0 0 0) he.ok
    let n := ((EncodeCall.message register 0 0 0).run pb (x.link.registry, x.output_)).2.size
    obtain ⟨hseq, hframes, -⟩ := established_sequence he hname hs n
    have hall : (x.established pb register n).output_.content = [] := by
      obtain ⟨y, hy, heq⟩ := established_sends pb register x n
      have hsent := sendOutput_all (x := (opened x).encode pb (.message register 0 0 0)) happ
        (by simp [Agent.encode, opened])
      rw [heq]
      exact (congrArg (fun y => y.output_.content) hy).trans hsent
    have hwritten : (x.established pb register n).current.written =
        sequence x ++ registerFrame pb register := by
      rw [← hseq, sequence, hall, List.append_nil]
    have hle := (hfirst n).1.length_le
    rw [hwritten, hframes, List.flatten_cons, List.flatten_nil, List.append_nil,
      List.length_append] at hle
    have hnil : sequence x = [] := List.length_eq_zero_iff.mp (by omega)
    exact List.append_eq_nil_iff.mp hnil
  · intro ⟨hwritten, hcontent⟩ n
    obtain ⟨hseq, hframes, -⟩ := established_sequence he hname hs n
    have hall : sequence (x.established pb register n) =
        (x.established pb register n).current.frames.flatten := by
      rw [hseq, hframes, sequence, hwritten, hcontent]
      simp
    exact .of_sequence hall (by rw [hframes]; rfl)

end Steps

/-- In a run that establishes its connections on an empty buffer, the registration comes first on
each of them; and a connection begins with it exactly when it is established so. -/
theorem registers_first_when_undisturbed (pb : Protobuf Message) (register : Message)
    (hname : pb.full_name register = "MS_DS.DSRegister") :
    (∀ actions x, run (advance pb register) actions (registerToMS (Registry.ofPairs initAdmin)) =
      .ok x →
      Meets (advance pb register) Undisturbed actions
        (registerToMS (Registry.ofPairs initAdmin)) →
      ∀ t ∈ x.past ++ [x.current], RegistersFirst (registerFrame pb register) t) ∧
    ∀ x, Reachable (advance pb register) (registerToMS (Registry.ofPairs initAdmin)) x →
      x.state_ = .Handshaking →
        ((∀ n, RegistersFirst (registerFrame pb register) (x.established pb register n).current) ↔
          x.current.written = [] ∧ x.output_.content = []) := by
  constructor
  · intro actions x hrun hmeets
    have hinv : Encodes x ∧ Ordered (registerFrame pb register) x :=
      run_inv_of (I := fun x => Encodes x ∧ Ordered (registerFrame pb register) x)
        ⟨encodes_start, ordered_start _⟩
        (fun _ _ _ hi hu hstep =>
          ⟨encodes_step hi.1 hstep, ordered_step hname hi.1 hi.2 hu hstep⟩) hmeets hrun
    exact hinv.2.all
  · intro x hreach hs
    exact established_first_iff (encodes_of_reachable hreach) hname hs

theorem registers_first_second_time :
    (∃ x, run (advance registerProtobuf 7) [.established 20, .writable 20,
      .dropped [] (fun _ => 0), .timer, .established 20]
        (registerToMS (Registry.ofPairs initAdmin)) = .ok x ∧
      ∀ t ∈ x.past ++ [x.current], RegistersFirst (registerFrame registerProtobuf 7) t) ∧
    ((∀ n, RegistersFirst (registerFrame registerProtobuf 7)
      ((registerToMS (Registry.ofPairs initAdmin)).established registerProtobuf 7 n).current) ↔
      (registerToMS (Registry.ofPairs initAdmin) : Agent (Fin 128)).current.written = [] ∧
        (registerToMS (Registry.ofPairs initAdmin) : Agent (Fin 128)).output_.content = []) := by
  have hmeets : Meets (advance registerProtobuf 7) Undisturbed [.established 20, .writable 20,
      .dropped [] (fun _ => 0), .timer, .established 20]
        (registerToMS (Registry.ofPairs initAdmin)) := by
    refine ⟨fun _ => rfl, fun x₁ h₁ => ⟨trivial, fun x₂ h₂ => ⟨trivial, fun x₃ h₃ =>
      ⟨trivial, fun x₄ h₄ => ⟨fun _ => ?_, fun _ _ => trivial⟩⟩⟩⟩⟩
    cases h₁
    cases h₂
    cases h₃
    cases h₄
    rfl
  have hstate : (run (advance registerProtobuf 7) [.established 20, .writable 20,
      .dropped [] (fun _ => 0), .timer, .established 20]
        (registerToMS (Registry.ofPairs initAdmin))).map Agent.state_ = .ok .Connected := by rfl
  obtain ⟨x, hx, -⟩ := map_ok_iff.mp hstate
  obtain ⟨hrun, hexact⟩ := registers_first_when_undisturbed registerProtobuf 7 rfl
  exact ⟨⟨x, hx, hrun _ _ hx hmeets⟩, hexact _ ⟨[], rfl⟩ rfl⟩

/-- A connection drops with a part of its registration in the buffer, and that part goes out
before the next registration. -/
theorem register_tail_comes_first : ∃ x,
    run (advance registerProtobuf 7) [.established 20, .dropped [] (fun _ => 0), .timer,
      .established 100] (registerToMS (Registry.ofPairs initAdmin)) = .ok x ∧
    x.current.written = (registerFrame registerProtobuf 7).drop 20 ++
      registerFrame registerProtobuf 7 ∧
    ¬ RegistersFirst (registerFrame registerProtobuf 7) x.current := by
  have hcurrent : (run (advance registerProtobuf 7) [.established 20,
      .dropped [] (fun _ => 0), .timer, .established 100]
        (registerToMS (Registry.ofPairs initAdmin))).map Agent.current =
      .ok ⟨[registerFrame registerProtobuf 7], (registerFrame registerProtobuf 7).drop 20 ++
        registerFrame registerProtobuf 7⟩ := by rfl
  obtain ⟨x, hx, hcur⟩ := map_ok_iff.mp hcurrent
  refine ⟨x, hx, by rw [hcur], fun hfirst => ?_⟩
  rw [hcur] at hfirst
  exact absurd hfirst.1.length_le (by decide)

end LazyNet.MsAgent
