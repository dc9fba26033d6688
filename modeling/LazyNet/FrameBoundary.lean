import LazyNet.MsAgent

/-! The input buffer across reconnects. A drop hands what is left in it to the read callback once
more, and a new connection goes on with what that leaves. -/
namespace LazyNet.MsAgent
open LazyNet.Words LazyNet.Tables LazyNet.HandyBuffer LazyNet.ExternalMsgCodec
open LazyNet.MsDsProtocol LazyNet.DSServer LazyNet.DecodeBounds LazyNet.StepRuns
variable {Message : Type}

def LastFrame (pb : Protobuf Message) (junk : Nat → UInt8) (r : Registry) (bytes : List UInt8) :
    Prop :=
  bytes = [] ∨ ∃ h body, bytes = headBytes h ++ body ∧ body.length = h.length.toNat ∧
    h.length ≠ 0 ∧ ¬ Bad pb junk r h body

section Callback
variable {pb : Protobuf Message} {junk : Nat → UInt8} {l : Link Message} {h : BaseHead}
  {rest : List UInt8}

theorem head_unique {x : Buffer} {h' : BaseHead} {rest' : List UInt8} (hs : Starts x h rest)
    (hs' : Starts x h' rest') : h' = h ∧ rest' = rest := by
  have hhead : h' = h := (hs'.loadHead fun _ => 0).symm.trans (hs.loadHead fun _ => 0)
  have hcontent := hs.content.symm.trans hs'.content
  rw [hhead] at hcontent
  exact ⟨hhead, (List.append_cancel_left hcontent).symm⟩

theorem lastFrame_iff {r : Registry} {x : Buffer} (hs : Starts x h rest) :
    LastFrame pb junk r x.content ↔
      rest.length = h.length.toNat ∧ h.length ≠ 0 ∧ ¬ Bad pb junk r h rest := by
  constructor
  · intro hlast
    cases hlast with
    | inl hnil =>
      have hlen := hs.ok.content_length
      rw [hnil, hs.size_eq] at hlen
      simp only [List.length_nil, headSize] at hlen
      omega
    | inr hframe =>
      obtain ⟨h', body, hcontent, hbody, h0, hgood⟩ := hframe
      obtain ⟨rfl, rfl⟩ := head_unique hs ⟨hs.ok, hcontent⟩
      exact ⟨hbody, h0, hgood⟩
  · rintro ⟨hbody, h0, hgood⟩
    exact .inr ⟨h, rest, hs.content, hbody, h0, hgood⟩

theorem size_consume_iff {x : Buffer} (hs : Starts x h rest) :
    (x.consume (headSize + h.length.toNat)).size = 0 ↔ rest.length = h.length.toNat := by
  have hsize := hs.size_eq
  by_cases hle : h.length.toNat ≤ rest.length
  · rw [hs.ok.size_consume (by omega), hsize]
    omega
  · -- the read offset has passed the end, and the difference of the two wraps
    have hlt := h.length.toNat_lt
    have hb := hs.ok.b_le
    rw [hs.ok.size_eq] at hsize
    have hwrap : ({ x with b_ := x.b_ + (headSize + h.length.toNat) } : Buffer).size ≠ 0 := by
      simp only [Buffer.size, offsetDiff]
      rw [if_neg (by omega)]
      omega
    rw [Buffer.consume]
    simp only [hwrap, if_false]
    exact ⟨False.elim, fun h' => absurd h' (by omega)⟩

theorem onDrained_empties_iff (hx : l.input_.Ok) :
    (∃ l', onDrained pb junk l = .ok l' ∧ l'.input_.size = 0) ↔
      LastFrame pb junk l.registry l.input_.content := by
  by_cases hsz : l.input_.size < 20
  · rw [onDrained_short hsz]
    have hlen := hx.content_length
    constructor
    · intro ⟨l', hl', h0⟩
      cases hl'
      exact .inl (List.length_eq_zero_iff.mp (hlen.trans h0))
    · intro hlast
      cases hlast with
      | inl hnil =>
        rw [hnil] at hlen
        exact ⟨l, rfl, hlen.symm⟩
      | inr hframe =>
        obtain ⟨h, body, hcontent, -⟩ := hframe
        rw [hcontent, List.length_append, headBytes_length, headSize] at hlen
        omega
  · obtain ⟨h, hs⟩ := starts_of_size hx hsz
    rw [onDrained_onRead hsz, onRead_decoded hsz, lastFrame_iff hs]
    by_cases h0 : h.length = 0
    · simp only [hs.decode_bodiless pb junk l.registry {} h0]
      simp [h0, handle]
    by_cases hbad : Bad pb junk l.registry h (l.input_.content.drop headSize)
    · obtain ⟨d1, d2, d3⟩ := decode_bad hs h0 hbad {}
      have hne : l.input_.size ≠ 0 := by omega
      simp only [d1, d2, d3]
      simp [h0, hbad, hne]
    · obtain ⟨m, hd⟩ := decode_good hs h0 hbad {}
      have hsize := size_consume_iff hs
      simp only [hd]
      simp [h0, hbad, handle, hsize]

end Callback

def DropsCleanly (pb : Protobuf Message) : Action Message → Agent Message → Prop
  | .dropped bytes junk, x => x.state_ = .Connected →
    x.link.input_.Ok ∧ LastFrame pb junk x.link.registry (x.link.input_.content ++ bytes)
  | _, _ => True

/-- The input makes room for reads, and it is empty while there is no connection. -/
structure Rested (x : Agent Message) : Prop where
  exp_pos : 0 < x.link.input_.exp_
  empty : x.state_ ≠ .Connected → x.link.input_.size = 0

section Runs
variable {pb : Protobuf Message} {register : Message} {junk : Nat → UInt8} {l l' : Link Message}
  {x x' : Agent Message} {action : Action Message}

theorem readInput_exp {fuel : Nat} {b : Buffer} {bytes : List UInt8} :
    (readInput fuel b bytes).exp_ = b.exp_ := by
  have hroom : ∀ b : Buffer, b.makeReadRoom.exp_ = b.exp_ := by
    intro b
    unfold Buffer.makeReadRoom
    split_ifs <;> rfl
  induction fuel generalizing b bytes with
  | zero => rfl
  | succ fuel ih =>
    rw [readInput]
    split_ifs
    · exact hroom b
    · rw [ih]
      exact hroom b

theorem onDrained_exp (h : onDrained pb junk l = .ok l') :
    l'.input_.exp_ = l.input_.exp_ := by
  cases onDrained_cases h with
  | inl hsame => rw [hsame]
  | inr hdecoded =>
    rw [hdecoded.2]
    exact decode_exp pb junk l.registry l.input_ {}

theorem onDrained_empty (h : l.input_.size = 0) : onDrained pb junk l = .ok l :=
  onDrained_short (by omega)

theorem dropped_empties_iff (hexp : 0 < x.link.input_.exp_) (hx : x.link.input_.Ok)
    (bytes : List UInt8) :
    (∃ l', onDrained pb junk (x.readAll bytes).link = .ok l' ∧ l'.input_.size = 0) ↔
      LastFrame pb junk x.link.registry (x.link.input_.content ++ bytes) := by
  obtain ⟨hok, hcontent, -⟩ := readInput_ok hx hexp (Nat.lt_succ_self bytes.length)
  have hiff : _ ↔ LastFrame pb junk x.link.registry (x.readAll bytes).link.input_.content :=
    onDrained_empties_iff hok
  rwa [show (x.readAll bytes).link.input_.content = x.link.input_.content ++ bytes from hcontent]
    at hiff

/-- The reconnect and the handshake leave the input as the drop left it. -/
theorem run_reconnect {bytes : List UInt8} {link : Link Message} (hs : x.state_ = .Connected)
    (hl : onDrained pb junk (x.readAll bytes).link = .ok link) (n : Nat) :
    run (advance pb register) [.dropped bytes junk, .timer, .established n] x =
      .ok (({ x.readAll bytes with link, state_ := .Closed, channel_ := none }
        : Agent Message).connect.established pb register n) := by
  have hne : ¬ (x.readAll bytes).state_ = .Handshaking := by
    intro hh
    cases hs.symm.trans hh
  simp [run, advance, hs, Agent.cleanup, hl, hne, Agent.connect, bind, Except.bind]

theorem rested_step (hr : Rested x) (hc : DropsCleanly pb action x)
    (h : advance pb register action x = .ok x') : Rested x' := by
  cases advance_cases h with
  | quiet => exact hr
  | established n hs =>
    refine ⟨?_, fun hne => ?_⟩
    · simpa using hr.exp_pos
    · simp at hne
  | refused junk hs link hl =>
    have h0 : x.link.input_.size = 0 := hr.empty (by rw [hs]; decide)
    rw [onDrained_empty h0] at hl
    cases hl
    exact ⟨hr.exp_pos, fun _ => h0⟩
  | received bytes junk hs link hl =>
    refine ⟨?_, fun hne => absurd hs hne⟩
    rw [onDrained_exp hl]
    exact Nat.lt_of_lt_of_eq hr.exp_pos readInput_exp.symm
  | dropped bytes junk hs link hl =>
    obtain ⟨hok, hlast⟩ := hc hs
    obtain ⟨l', hl', h0⟩ := (dropped_empties_iff hr.exp_pos hok bytes).mpr hlast
    cases hl.symm.trans hl'
    refine ⟨?_, fun _ => h0⟩
    rw [onDrained_exp hl]
    exact Nat.lt_of_lt_of_eq hr.exp_pos readInput_exp.symm
  | writable n hs => exact ⟨by simpa using hr.exp_pos, fun hne => by simp [hs] at hne⟩
  | timer hs =>
    refine ⟨hr.exp_pos, fun _ => hr.empty fun hconn => ?_⟩
    rw [hconn] at hs
    cases hs with
    | inl h => cases h
    | inr h => cases h
  | send call n => exact ⟨by simpa using hr.exp_pos, fun hne => by
      simpa using hr.empty (by simpa using hne)⟩

theorem rested_start (registry : Registry) :
    Rested (registerToMS registry : Agent Message) := ⟨show 0 < 512 by decide, fun _ => rfl⟩

theorem exp_step (h : advance pb register action x = .ok x') :
    x'.link.input_.exp_ = x.link.input_.exp_ := by
  cases advance_cases h with
  | quiet => rfl
  | established n hs => simp
  | refused junk hs link hl => exact onDrained_exp hl
  | received bytes junk hs link hl => exact (onDrained_exp hl).trans readInput_exp
  | dropped bytes junk hs link hl => exact (onDrained_exp hl).trans readInput_exp
  | writable n hs => simp
  | timer hs => rfl
  | send call n => simp

theorem exp_of_reachable {registry : Registry}
    (h : Reachable (advance pb register) (registerToMS registry) x) :
    0 < x.link.input_.exp_ :=
  h.inv (I := fun x => 0 < x.link.input_.exp_) (show 0 < 512 by decide) fun _ _ _ hexp hs => by
    rw [exp_step hs]
    exact hexp

end Runs

/-- In a run whose drops are clean, every connection is entered with an empty input; and a
connection that is dropped and comes back at once is entered with an empty input exactly when
the drop was clean. -/
theorem entered_empty_when_clean (pb : Protobuf Message) (register : Message)
    (registry : Registry) :
    (∀ actions x n x', run (advance pb register) actions (registerToMS registry) = .ok x →
      Meets (advance pb register) (DropsCleanly pb) actions (registerToMS registry) →
      x.state_ = .Handshaking → advance pb register (.established n) x = .ok x' →
        x'.state_ = .Connected ∧ x'.link.input_.size = 0) ∧
    ∀ x bytes junk n, Reachable (advance pb register) (registerToMS registry) x →
      x.state_ = .Connected → x.link.input_.Ok →
        ((∃ x', run (advance pb register) [.dropped bytes junk, .timer, .established n] x =
          .ok x' ∧ x'.state_ = .Connected ∧ x'.link.input_.size = 0) ↔
          LastFrame pb junk x.link.registry (x.link.input_.content ++ bytes)) := by
  constructor
  · intro actions x n x' hrun hmeets hs h
    have hr : Rested x := run_inv_of (rested_start registry)
      (fun _ _ _ hr hc hstep => rested_step hr hc hstep) hmeets hrun
    simp only [advance, hs, if_true, Except.ok.injEq] at h
    rw [← h, established_state, established_input]
    exact ⟨rfl, hr.empty (by rw [hs]; decide)⟩
  · intro x bytes junk n hreach hs hx
    rw [← dropped_empties_iff (exp_of_reachable hreach) hx bytes]
    constructor
    · rintro ⟨x', hrun, -, h0⟩
      obtain ⟨x₁, hdrop, -⟩ := run_cons_ok.mp hrun
      simp only [advance, hs, if_true] at hdrop
      obtain ⟨link, hl, -⟩ := cleanup_cases hdrop
      rw [run_reconnect hs hl n] at hrun
      cases hrun
      rw [established_input] at h0
      exact ⟨link, hl, h0⟩
    · rintro ⟨link, hl, h0⟩
      refine ⟨_, run_reconnect hs hl n, established_state, ?_⟩
      rw [established_input]
      exact h0

def registered : Agent (Fin 128) :=
  (registerToMS (Registry.ofPairs initAdmin)).established registerProtobuf 7 33

theorem entered_empty_second_time :
    (∃ x x', run (advance registerProtobuf 7) [.established 33, .dropped [] (fun _ => 0), .timer]
      (registerToMS (Registry.ofPairs initAdmin)) = .ok x ∧
      advance registerProtobuf 7 (.established 33) x = .ok x' ∧
        x'.state_ = .Connected ∧ x'.link.input_.size = 0) ∧
    ((∃ x', run (advance registerProtobuf 7)
      [.dropped [0, 0, 6] (fun _ => 0), .timer, .established 33] registered =
        .ok x' ∧ x'.state_ = .Connected ∧ x'.link.input_.size = 0) ↔
      LastFrame registerProtobuf (fun _ => 0) registered.link.registry
        (registered.link.input_.content ++ [0, 0, 6])) := by
  have hmeets : Meets (advance registerProtobuf 7) (DropsCleanly registerProtobuf)
      [.established 33, .dropped [] (fun _ => 0), .timer]
      (registerToMS (Registry.ofPairs initAdmin)) := by
    refine ⟨trivial, fun x hx => ?_⟩
    obtain rfl : registered = x := Except.ok.inj hx
    exact ⟨fun _ => ⟨Buffer.ok_default, .inl rfl⟩, fun _ _ => ⟨trivial, fun _ _ => trivial⟩⟩
  obtain ⟨hclean, hexact⟩ :=
    entered_empty_when_clean registerProtobuf 7 (Registry.ofPairs initAdmin)
  exact ⟨⟨_, _, rfl, rfl, hclean _ _ _ _ rfl hmeets rfl rfl⟩,
    hexact registered _ _ _ ⟨[.established 33], rfl⟩ rfl Buffer.ok_default⟩

/-- A connection drops after three bytes of a head, and they stand before what the next one
brings. -/
theorem partial_head_survives :
    (run (advance registerProtobuf 7) [.established 33, .dropped [0, 0, 6] (fun _ => 0), .timer,
      .established 33] (registerToMS (Registry.ofPairs initAdmin))).map
        (fun x => (x.state_, x.link.input_.content)) = .ok (.Connected, [0, 0, 6]) := by
  rfl

end LazyNet.MsAgent
