import LazyNet.ConnOutput

/-! What holds of the sending side of a connection over whole runs: the bytes on the socket and
those that wait, when these are watched for, and how they get to the socket. -/
namespace LazyNet.ConnOutput
open LazyNet.HandyBuffer LazyNet.StepRuns
open LazyNet.MsAgent (State Channel Agent)
variable {x y : TcpConn} {action : Action} {script : List Wrote}

def InOrder : Action → TcpConn → Prop
  | .sendBuffer _ buf, x => buf.1.content = [] ∨ x.output_.content = [] ∨
    x.channel_ ≠ some { writeEnabled := false }
  | _, _ => True

instance : ∀ (action : Action) (x : TcpConn), Decidable (InOrder action x)
  | .sendBuffer _ _, _ => inferInstanceAs (Decidable (_ ∨ _))
  | .send _ _, _ => .isTrue trivial
  | .sendOutput _, _ => .isTrue trivial
  | .append _, _ => .isTrue trivial
  | .sendMsg _ _, _ => .isTrue trivial
  | .handshake, _ => .isTrue trivial
  | .writable _, _ => .isTrue trivial
  | .afterWritable, _ => .isTrue trivial
  | .cleanup, _ => .isTrue trivial

/-- What a call does with `new` bytes that are handed over: none of all the bytes is lost or
doubled, and when `P` holds they stay in order. -/
structure Effect (P : Prop) (x y : TcpConn) (new : List UInt8) : Prop where
  ok : y.output_.Ok
  accepted : y.accepted = x.accepted ++ new
  perm : (y.written ++ y.output_.content).Perm (x.written ++ x.output_.content ++ new)
  order : P → y.written ++ y.output_.content = x.written ++ x.output_.content ++ new

section Bytes
variable {P : Prop} {new : List UInt8}

theorem Effect.of_eq (hok : y.output_.Ok) (haccepted : y.accepted = x.accepted ++ new)
    (h : y.written ++ y.output_.content = x.written ++ x.output_.content ++ new) :
    Effect P x y new :=
  ⟨hok, haccepted, .of_eq h, fun _ => h⟩

theorem Effect.same (hx : x.output_.Ok) : Effect P x x [] := .of_eq hx (by simp) (by simp)

theorem flushed (script : List Wrote) (hx : x.output_.Ok) : Effect P x (x.flush script) [] := by
  obtain ⟨hok, hcontent, hwritten, -, -, haccepted⟩ := flush_effect script hx
  refine .of_eq hok (by rw [haccepted, List.append_nil]) ?_
  rw [hwritten, hcontent, List.append_assoc, List.take_append_drop, List.append_nil]

theorem sentOutput (script : List Wrote) (hx : x.output_.Ok) :
    Effect P x (x.sendOutput script) [] := by
  cases hc : x.channel_ with
  | none =>
    rw [TcpConn.sendOutput, hc]
    exact .same hx
  | some channel =>
    obtain ⟨hok, hcontent, hwritten, -, -, -, haccepted⟩ := sendOutput_effect script hx hc
    refine .of_eq hok (by rw [haccepted, List.append_nil]) ?_
    rw [hwritten, hcontent, List.append_assoc, List.take_append_drop, List.append_nil]

theorem appended (bytes : List UInt8) (hx : x.output_.Ok) :
    Effect P x (x.append bytes) bytes := by
  obtain ⟨hok, hcontent⟩ := hx.append bytes
  refine .of_eq hok rfl ?_
  rw [List.append_assoc, ← hcontent]
  rfl

theorem sent (script : List Wrote) (bytes : List UInt8) (hx : x.output_.Ok) :
    Effect P x (x.send script bytes) (if x.channel_.isSome then bytes else []) := by
  cases hc : x.channel_ with
  | none =>
    rw [TcpConn.send, hc]
    exact .same hx
  | some channel =>
    obtain ⟨hok, hcontent, hwritten, -, -, haccepted⟩ := send_effect script bytes hx hc
    refine .of_eq hok haccepted ?_
    rw [hwritten, hcontent]
    by_cases hnone : x.output_.content = []
    · simp [hnone, List.append_assoc]
    · simp [hnone, List.append_assoc]

theorem sentBuffer (script : List Wrote) (buf : { buf : Buffer // buf.Ok }) (hx : x.output_.Ok) :
    Effect (InOrder (.sendBuffer script buf) x) x (x.sendBuffer script buf.1).2
      (if x.channel_.isSome then buf.1.content else []) := by
  cases hc : x.channel_ with
  | none =>
    rw [TcpConn.sendBuffer, hc]
    exact .same hx
  | some channel =>
    obtain ⟨writeEnabled⟩ := channel
    cases writeEnabled with
    | true =>
      obtain ⟨-, -, hok, hcontent⟩ := absorb_effect
        (x := { x with accepted := x.accepted ++ buf.1.content }) hx buf.2
      rw [sendBuffer_watched script hx buf.2 hc]
      refine .of_eq hok rfl ?_
      rw [hcontent, ← List.append_assoc]
      rfl
    | false =>
      obtain ⟨hok, -, haccepted, hwritten, hcontent, -, -⟩ := sendBuffer_idle script hx buf.2 hc
      refine ⟨hok, haccepted, ?_, fun ho => ?_⟩
      · have hnew : ∀ k, x.written ++ x.output_.content ++ buf.1.content =
            x.written ++ (x.output_.content ++ buf.1.content.take k ++ buf.1.content.drop k) := by
          simp
        rw [Option.isSome_some, if_pos rfl, hwritten, hcontent, hnew, List.append_assoc,
          ← List.append_assoc (buf.1.content.take _)]
        exact (List.perm_append_comm.append_right _).append_left _
      · rw [hwritten, hcontent]
        obtain hnone | hnone | hchannel := ho
        · simp [hnone]
        · simp [hnone, List.append_assoc]
        · exact absurd hc hchannel

theorem sentMsg (script : List Wrote) (frame : List UInt8) (hx : x.output_.Ok) :
    Effect P x (x.sendMsg script frame) frame := by
  have happend := appended (P := True) frame hx
  have hsend := sentOutput (P := True) script happend.ok
  refine .of_eq hsend.ok ?_ ?_
  · rw [TcpConn.sendMsg, hsend.accepted, happend.accepted, List.append_nil]
  · rw [TcpConn.sendMsg, hsend.order trivial, happend.order trivial, List.append_nil]

def handed : Action → TcpConn → List UInt8
  | .sendBuffer _ buf, x => if x.channel_.isSome then buf.1.content else []
  | .send _ bytes, x => if x.channel_.isSome then bytes else []
  | .append bytes, _ => bytes
  | .sendMsg _ frame, _ => frame
  | _, _ => []

theorem step_effect (hx : x.output_.Ok) (h : step action x = .ok y) :
    Effect (InOrder action x) x y (handed action x) := by
  cases action with
  | sendBuffer script buf =>
    cases h
    exact sentBuffer script buf hx
  | send script bytes =>
    cases h
    exact sent script bytes hx
  | sendOutput script =>
    cases h
    exact sentOutput script hx
  | append bytes =>
    cases h
    exact appended bytes hx
  | sendMsg script frame =>
    cases h
    exact sentMsg script frame hx
  | handshake =>
    cases h
    split_ifs
    · exact .of_eq hx (by simp [handed, TcpConn.handleHandshake, TcpConn.enableWrite])
        (by simp [handed, TcpConn.handleHandshake, TcpConn.enableWrite])
    · exact .same hx
  | writable script =>
    rw [step] at h
    split_ifs at h
    · cases hc : x.channel_ with
      | none =>
        rw [TcpConn.handleWrite, hc] at h
        cases h
      | some channel =>
        rw [TcpConn.handleWrite, hc] at h
        cases h
        have hflush := flushed (P := InOrder (.writable script) x) script hx
        exact ⟨hflush.ok, hflush.accepted, hflush.perm, hflush.order⟩
    · cases h
      exact .same hx
  | afterWritable =>
    rw [step, TcpConn.afterWritable] at h
    split_ifs at h
    · cases hc : x.channel_ with
      | none =>
        simp only [hc] at h
        cases h
      | some channel =>
        simp only [hc] at h
        cases h
        split_ifs
        · exact .of_eq hx (by simp [handed, TcpConn.enableWrite])
            (by simp [handed, TcpConn.enableWrite])
        · exact .of_eq hx (by simp [handed]) (by simp [handed])
    · cases h
      exact .of_eq hx (by simp [handed]) (by simp [handed])
    · cases h
      exact .same hx
  | cleanup =>
    cases h
    exact .of_eq hx (by simp [handed, TcpConn.cleanup]) (by simp [handed, TcpConn.cleanup])

/-- Two bytes are handed over, of which the socket takes one; then a buffer with two more, while
the socket is full; then all that waits is sent. -/
def twoSends : List Action :=
  [.handshake, .send [.bytes 1, .full] [1, 2],
    .sendBuffer [.full] ⟨Buffer.append {} [3, 4], (Buffer.ok_default.append [3, 4]).1⟩,
    .writable [.bytes 2, .interrupted, .bytes 9], .afterWritable]

/-- A buffer overtakes bytes that were handed over before: `send` meets an error, so that nobody
watches for the rest of its bytes. -/
example : (run step [.handshake, .send [.bytes 1, .failed] [1, 2],
    .sendBuffer [.bytes 9] ⟨Buffer.append {} [3, 4], (Buffer.ok_default.append [3, 4]).1⟩]
      attached).map (fun x => (x.written, x.output_.content)) = .ok ([1, 3, 4], [2]) := by
  decide

end Bytes

def Watched (x : TcpConn) : Prop :=
  x.state_ = .Connected → x.output_.content ≠ [] → x.channel_ = some { writeEnabled := true }

instance (x : TcpConn) : Decidable (Watched x) := inferInstanceAs (Decidable (_ → _ → _))

/-- `send` sends everything or finds the socket full, what is written into the output buffer finds
it watched, and nothing waits when the handshake is done. -/
def Steady : Action → TcpConn → Prop
  | .send script bytes, x => x.state_ = .Connected → x.output_.content = [] →
    x.channel_ = some { writeEnabled := true } ∨
      (isend script bytes.length).1 = bytes.length ∨ (isend script bytes.length).2 = true
  | .append bytes, x => x.state_ = .Connected →
    bytes = [] ∨ x.channel_ = some { writeEnabled := true }
  | .handshake, x => x.state_ = .Handshaking → x.output_.content = []
  | _, _ => True

instance : ∀ (action : Action) (x : TcpConn), Decidable (Steady action x)
  | .send _ _, _ => inferInstanceAs (Decidable (_ → _ → _ ∨ _))
  | .append _, _ => inferInstanceAs (Decidable (_ → _ ∨ _))
  | .handshake, _ => inferInstanceAs (Decidable (_ → _))
  | .sendBuffer _ _, _ => .isTrue trivial
  | .sendOutput _, _ => .isTrue trivial
  | .sendMsg _ _, _ => .isTrue trivial
  | .writable _, _ => .isTrue trivial
  | .afterWritable, _ => .isTrue trivial
  | .cleanup, _ => .isTrue trivial

structure Sound (x : TcpConn) : Prop where
  ok : x.output_.Ok
  handshaking : x.state_ = .Handshaking → x.channel_ = some { writeEnabled := true }
  idle : x.state_ = .Handshaking → x.writing = false
  connected : x.state_ = .Connected → ∃ channel, x.channel_ = some channel
  opened : ∀ channel, x.channel_ = some channel → x.state_ = .Handshaking ∨ x.state_ = .Connected

section Watching
variable {channel : Channel}

theorem Sound.of_channel (hx : Sound x) (hc : x.channel_ = some channel) (hok : y.output_.Ok)
    (hstage : y.stage = x.stage)
    (hchannel : y.channel_ = x.channel_ ∨ y.channel_ = some { writeEnabled := true }) :
    Sound y := by
  obtain ⟨hstate, hwriting⟩ : y.state_ = x.state_ ∧ y.writing = x.writing :=
    ⟨congrArg Prod.fst hstage, congrArg Prod.snd hstage⟩
  refine ⟨hok, fun hs => ?_, fun hs => hwriting.trans (hx.idle (hstate ▸ hs)), fun _ => ?_,
    fun _ _ => hstate ▸ hx.opened channel hc⟩
  · obtain heq | heq := hchannel
    · rw [heq]
      exact hx.handshaking (hstate ▸ hs)
    · exact heq
  · obtain heq | heq := hchannel
    · exact ⟨channel, heq.trans hc⟩
    · exact ⟨_, heq⟩

theorem channel_of_ite {b : Bool} {c c' : Option Channel}
    (h : c' = if b = true then some { writeEnabled := true } else c) :
    c' = c ∨ c' = some { writeEnabled := true } := by
  cases b with
  | true => exact .inr h
  | false => exact .inl h

theorem Sound.sendOutput (hx : Sound x) (script : List Wrote) : Sound (x.sendOutput script) := by
  cases hc : x.channel_ with
  | none =>
    rw [TcpConn.sendOutput, hc]
    exact hx
  | some channel =>
    obtain ⟨hok, -, -, hrest, hdone, hstate, -⟩ := sendOutput_effect script hx.ok hc
    refine hx.of_channel hc hok hstate ?_
    by_cases hnone : x.output_.content.drop (isend script x.output_.content.length).1 = []
    · exact .inl (hdone hnone)
    · exact .inr (hrest hnone)

theorem Sound.append (hx : Sound x) (bytes : List UInt8) : Sound (x.append bytes) :=
  ⟨(hx.ok.append bytes).1, hx.handshaking, hx.idle, hx.connected, hx.opened⟩

theorem sound_step (action : Action) (x y : TcpConn) (hx : Sound x) (h : step action x = .ok y) :
    Sound y := by
  cases action with
  | sendBuffer script buf =>
    cases h
    have hok := (sentBuffer script buf hx.ok).ok
    cases hc : x.channel_ with
    | none =>
      rw [TcpConn.sendBuffer, hc]
      exact hx
    | some channel =>
      obtain ⟨writeEnabled⟩ := channel
      cases writeEnabled with
      | true =>
        rw [sendBuffer_watched script hx.ok buf.2 hc] at hok ⊢
        exact hx.of_channel hc hok rfl (.inl rfl)
      | false =>
        obtain ⟨-, hstate, -, -, -, hrest, hdone⟩ := sendBuffer_idle script hx.ok buf.2 hc
        refine hx.of_channel hc hok hstate ?_
        by_cases hnone : buf.1.content.drop (isend script buf.1.content.length).1 = []
        · exact .inl (hdone hnone)
        · exact .inr (hrest hnone)
  | send script bytes =>
    cases h
    have hok := (sent (P := True) script bytes hx.ok).ok
    cases hc : x.channel_ with
    | none =>
      rw [TcpConn.send, hc]
      exact hx
    | some channel =>
      obtain ⟨-, -, -, hchannel, hstate, -⟩ := send_effect script bytes hx.ok hc
      exact hx.of_channel hc hok hstate (channel_of_ite hchannel)
  | sendOutput script =>
    cases h
    exact hx.sendOutput script
  | append bytes =>
    cases h
    exact hx.append bytes
  | sendMsg script frame =>
    cases h
    exact (hx.append frame).sendOutput script
  | handshake =>
    cases h
    split_ifs
    · exact ⟨hx.ok, fun hs => State.noConfusion hs, fun hs => State.noConfusion hs,
        fun _ => ⟨_, rfl⟩, fun _ _ => .inr rfl⟩
    · exact hx
  | writable script =>
    rw [step] at h
    split_ifs at h with hs
    · obtain ⟨channel, hc⟩ := hx.connected hs
      rw [TcpConn.handleWrite, hc] at h
      cases h
      obtain ⟨hok, -, -, hchannel, hstage, -⟩ := flush_effect script hx.ok
      have hstate : (x.flush script).state_ = x.state_ := congrArg Prod.fst hstage
      have hnot : (x.flush script).state_ ≠ .Handshaking := by simp [hstate, hs]
      refine ⟨hok, fun hs' => absurd hs' hnot, fun hs' => absurd hs' hnot, fun _ => ?_,
        fun _ _ => .inr (hstate.trans hs)⟩
      simp only [hchannel]
      split_ifs
      · exact ⟨_, rfl⟩
      · exact ⟨_, hc⟩
    · cases h
      exact hx
  | afterWritable =>
    rw [step, TcpConn.afterWritable] at h
    split_ifs at h with hw
    · have hnot : x.state_ ≠ .Handshaking := by
        intro hs
        rw [hx.idle hs] at hw
        cases hw
      cases hc : x.channel_ with
      | none =>
        simp only [hc] at h
        cases h
      | some channel =>
        simp only [hc] at h
        cases h
        split_ifs
        · exact ⟨hx.ok, fun hs => absurd hs hnot, fun hs => absurd hs hnot, fun _ => ⟨_, rfl⟩,
            fun _ _ => hx.opened channel hc⟩
        · exact ⟨hx.ok, fun hs => absurd hs hnot, fun hs => absurd hs hnot, fun _ => ⟨_, rfl⟩,
            fun _ _ => hx.opened channel hc⟩
    · cases h
      exact ⟨hx.ok, hx.handshaking, fun _ => rfl, hx.connected, hx.opened⟩
    · cases h
      exact hx
  | cleanup =>
    cases h
    have hstate : x.cleanup.state_ ≠ .Handshaking ∧ x.cleanup.state_ ≠ .Connected := by
      rw [TcpConn.cleanup]
      split_ifs <;> simp
    exact ⟨hx.ok, fun hs => absurd hs hstate.1, fun hs => absurd hs hstate.1,
      fun hs => absurd hs hstate.2, fun channel hc => absurd hc (by simp [TcpConn.cleanup])⟩

theorem sound_attached : Sound attached :=
  ⟨Buffer.ok_default, fun _ => rfl, fun _ => rfl, fun _ => ⟨_, rfl⟩, fun _ _ => .inl rfl⟩

/-- `writablecb_` has not closed the connection, or has left bytes that wait. -/
def Known : Action → TcpConn → Prop
  | .afterWritable, x => x.writing = true → x.output_.content = [] → x.channel_ ≠ none
  | _, _ => True

theorem step_ok_iff (hx : Sound x) (action : Action) :
    (∃ y, step action x = .ok y) ↔ Known action x := by
  cases action with
  | writable script =>
    refine ⟨fun _ => trivial, fun _ => ?_⟩
    rw [step]
    split_ifs with hs
    · obtain ⟨channel, hc⟩ := hx.connected hs
      exact ⟨_, by rw [TcpConn.handleWrite, hc]⟩
    · exact ⟨_, rfl⟩
  | afterWritable =>
    rw [step, TcpConn.afterWritable]
    split_ifs with hw he
    · have hnone := hx.ok.empty_iff.mp he
      simp only
      cases hc : x.channel_ with
      | none => simp [Known, hw, hnone, hc]
      | some channel => simp [Known, hw, hnone, hc]
    · have hsome : x.output_.content ≠ [] := mt hx.ok.empty_iff.mpr he
      simp [Known, hsome]
    · simp [Known, hw]
  | sendBuffer script buf => exact ⟨fun _ => trivial, fun _ => ⟨_, rfl⟩⟩
  | send script bytes => exact ⟨fun _ => trivial, fun _ => ⟨_, rfl⟩⟩
  | sendOutput script => exact ⟨fun _ => trivial, fun _ => ⟨_, rfl⟩⟩
  | append bytes => exact ⟨fun _ => trivial, fun _ => ⟨_, rfl⟩⟩
  | sendMsg script frame => exact ⟨fun _ => trivial, fun _ => ⟨_, rfl⟩⟩
  | handshake => exact ⟨fun _ => trivial, fun _ => ⟨_, rfl⟩⟩
  | cleanup => exact ⟨fun _ => trivial, fun _ => ⟨_, rfl⟩⟩

/-- Sending goes well whatever the socket does and whenever the connection ends, unless it is
`writablecb_` that ends it, with nothing left to send. -/
theorem output_fails_iff (actions : List Action) :
    (∃ x, run step actions attached = .ok x) ↔ Meets step Known actions attached :=
  run_ok_iff (A := fun _ _ => True) (fun action _ hx _ => step_ok_iff hx action)
    (fun action x y hx _ h => sound_step action x y hx h) sound_attached
    (meets_true actions attached)

theorem watched_of_rest {P : Prop} (hrest : y.output_.content ≠ [] →
    y.channel_ = some { writeEnabled := true }) (hp : P) : Watched y ↔ P :=
  ⟨fun _ => hp, fun _ _ => hrest⟩

theorem watched_of_state {P : Prop} (hstate : y.state_ ≠ .Connected) (hp : P) : Watched y ↔ P :=
  ⟨fun _ => hp, fun _ hs => absurd hs hstate⟩

theorem sendOutput_rest (script : List Wrote) (hx : x.output_.Ok) (hc : x.channel_ = some channel)
    (hsome : (x.sendOutput script).output_.content ≠ []) :
    (x.sendOutput script).channel_ = some { writeEnabled := true } := by
  obtain ⟨-, hcontent, -, hrest, -⟩ := sendOutput_effect script hx hc
  exact hrest (hcontent ▸ hsome)

theorem sendBuffer_watched_iff (buf : { buf : Buffer // buf.Ok }) (hx : Sound x) (hw : Watched x)
    (hs : x.state_ = .Connected) (hsome : (x.sendBuffer script buf.1).2.output_.content ≠ []) :
    (x.sendBuffer script buf.1).2.channel_ = some { writeEnabled := true } := by
  obtain ⟨channel, hc⟩ := hx.connected hs
  obtain ⟨writeEnabled⟩ := channel
  cases writeEnabled with
  | true =>
    rw [sendBuffer_watched script hx.ok buf.2 hc]
    exact hc
  | false =>
    obtain ⟨-, -, -, -, hcontent, hrest, -⟩ := sendBuffer_idle script hx.ok buf.2 hc
    -- nothing waited before, as it was not watched for
    have hnone : x.output_.content = [] := by
      by_contra hwait
      have := hw hs hwait
      rw [hc] at this
      simp at this
    rw [hcontent, hnone, List.nil_append] at hsome
    exact hrest hsome

@[simp] theorem isend_state {bytes : List UInt8} : (x.isend script bytes).2.state_ = x.state_ := rfl

@[simp] theorem enableWrite_state {enable : Bool} : (x.enableWrite enable).state_ = x.state_ := rfl

@[simp] theorem append_state {bytes : List UInt8} : (x.append bytes).state_ = x.state_ := rfl

@[simp] theorem flush_state : (x.flush script).state_ = x.state_ := rfl

@[simp] theorem sendOutput_state : (x.sendOutput script).state_ = x.state_ := by
  rw [TcpConn.sendOutput]
  split
  · rfl
  · simp only
    split_ifs <;> simp

@[simp] theorem send_state {bytes : List UInt8} : (x.send script bytes).state_ = x.state_ := by
  rw [TcpConn.send]
  split
  · rfl
  · simp only
    split_ifs <;> simp

@[simp] theorem sendBuffer_state {buf : Buffer} :
    (x.sendBuffer script buf).2.state_ = x.state_ := by
  rw [TcpConn.sendBuffer]
  split
  · rfl
  · simp only [TcpConn.queueRest, TcpConn.sendRest, TcpConn.absorb]
    split_ifs <;> simp

theorem state_of_step (h : step action x = .ok y) (hy : y.state_ = .Connected) :
    x.state_ = .Connected ∨ action = .handshake := by
  cases action with
  | handshake => exact .inr rfl
  | cleanup =>
    cases h
    simp only [TcpConn.cleanup] at hy
    split_ifs at hy
  | writable script =>
    rw [step] at h
    split_ifs at h with hs
    · exact .inl hs
    · cases h
      exact .inl hy
  | afterWritable =>
    rw [step, TcpConn.afterWritable] at h
    split_ifs at h
    · cases hc : x.channel_ with
      | none =>
        simp only [hc] at h
        cases h
      | some channel =>
        simp only [hc] at h
        cases h
        split_ifs at hy
        · exact .inl hy
        · exact .inl hy
    · cases h
      exact .inl hy
    · cases h
      exact .inl hy
  | sendBuffer script buf =>
    cases h
    exact .inl (by simpa using hy)
  | send script bytes =>
    cases h
    exact .inl (by simpa using hy)
  | sendOutput script =>
    cases h
    exact .inl (by simpa using hy)
  | append bytes =>
    cases h
    exact .inl (by simpa using hy)
  | sendMsg script frame =>
    cases h
    exact .inl (by simpa [TcpConn.sendMsg] using hy)

theorem send_watched_iff (hx : Sound x) (hw : Watched x) (hs : x.state_ = .Connected)
    (script : List Wrote) (bytes : List UInt8) :
    Watched (x.send script bytes) ↔ Steady (.send script bytes) x := by
  obtain ⟨channel, hc⟩ := hx.connected hs
  obtain ⟨-, hcontent, -, hchannel, -, -⟩ := send_effect script bytes hx.ok hc
  rw [Watched, send_state, hcontent, hchannel, Steady]
  by_cases hnone : x.output_.content = []
  · have hle := isend_le script bytes.length
    have hall : bytes.drop (isend script bytes.length).1 = [] ↔
        (isend script bytes.length).1 = bytes.length := by
      rw [List.drop_eq_nil_iff]
      omega
    cases hfull : (isend script bytes.length).2 with
    | true => simp [hnone, hs, hfull]
    | false =>
      simp only [hnone, hs, hfull, if_true, List.nil_append, ne_eq, hall, true_imp_iff,
        Bool.false_eq_true, if_false, or_false]
      tauto
  · simp [hnone, hs, hw hs hnone]

theorem append_watched_iff (hx : Sound x) (hw : Watched x) (hs : x.state_ = .Connected)
    (bytes : List UInt8) : Watched (x.append bytes) ↔ Steady (.append bytes) x := by
  have hcontent : (x.append bytes).output_.content = x.output_.content ++ bytes :=
    (hx.ok.append bytes).2
  have hchannel : (x.append bytes).channel_ = x.channel_ := rfl
  rw [Watched, append_state, hcontent, hchannel, Steady]
  by_cases hnone : x.output_.content = []
  · simp only [hnone, hs, List.nil_append, true_imp_iff, ne_eq]
    tauto
  · simp [hnone, hs, hw hs hnone]

theorem watched_step (action : Action) (x y : TcpConn) (hx : Sound x) (hw : Watched x)
    (h : step action x = .ok y) : Watched y ↔ Steady action x := by
  by_cases hs : x.state_ = .Connected
  · obtain ⟨channel, hc⟩ := hx.connected hs
    cases action with
    | sendBuffer script buf =>
      cases h
      exact watched_of_rest (sendBuffer_watched_iff buf hx hw hs) trivial
    | send script bytes =>
      cases h
      exact send_watched_iff hx hw hs script bytes
    | sendOutput script =>
      cases h
      exact watched_of_rest (sendOutput_rest script hx.ok hc) trivial
    | append bytes =>
      cases h
      exact append_watched_iff hx hw hs bytes
    | sendMsg script frame =>
      cases h
      exact watched_of_rest (sendOutput_rest script (hx.append frame).ok hc) trivial
    | handshake =>
      have hnot : x.state_ ≠ .Handshaking := by simp [hs]
      rw [step, if_neg hnot] at h
      cases h
      exact ⟨fun _ hhand => absurd hhand hnot, fun _ => hw⟩
    | writable script =>
      rw [step, if_pos hs, TcpConn.handleWrite, hc] at h
      cases h
      obtain ⟨-, hcontent, -, hchannel, -⟩ := flush_effect script hx.ok
      refine watched_of_rest (fun hsome => ?_) trivial
      simp only [hcontent] at hsome
      have hwait : x.output_.content ≠ [] := by
        intro hnone
        simp [hnone] at hsome
      simp only [hchannel, hw hs hwait, ite_self]
    | afterWritable =>
      rw [step, TcpConn.afterWritable] at h
      split_ifs at h with hwriting he
      · have hnone := hx.ok.empty_iff.mp he
        simp only [hc] at h
        cases h
        refine watched_of_rest (fun hsome => absurd ?_ hsome) trivial
        split_ifs <;> exact hnone
      · cases h
        exact watched_of_rest (fun hsome => hw hs hsome) trivial
      · cases h
        exact watched_of_rest (fun hsome => hw hs hsome) trivial
    | cleanup =>
      cases h
      refine watched_of_state ?_ trivial
      simp only [TcpConn.cleanup]
      split_ifs <;> simp
  · by_cases hhand : action = .handshake
    · subst hhand
      rw [step] at h
      split_ifs at h with hstart
      · cases h
        simp only [Watched, TcpConn.handleHandshake, TcpConn.enableWrite, Steady, hstart]
        simp
      · cases h
        exact ⟨fun _ heq => absurd heq hstart, fun _ => hw⟩
    · have hy : y.state_ ≠ .Connected := by
        intro heq
        obtain hold | hold := state_of_step h heq
        · exact hs hold
        · exact hhand hold
      refine watched_of_state hy ?_
      cases action with
      | send script bytes => exact fun heq => absurd heq hs
      | append bytes => exact fun heq => absurd heq hs
      | handshake => exact absurd rfl hhand
      | sendBuffer script buf => trivial
      | sendOutput script => trivial
      | sendMsg script frame => trivial
      | writable script => trivial
      | afterWritable => trivial
      | cleanup => trivial

theorem inOrder_of_watched (hx : Sound x) (hw : Watched x) (action : Action) :
    InOrder action x := by
  cases action with
  | sendBuffer script buf =>
    by_cases hnone : x.output_.content = []
    · exact .inr (.inl hnone)
    · refine .inr (.inr fun hc => ?_)
      have htrue : x.channel_ = some { writeEnabled := true } := by
        obtain hs | hs := hx.opened _ hc
        · exact hx.handshaking hs
        · exact hw hs hnone
      rw [hc] at htrue
      simp at htrue
  | send script bytes => trivial
  | sendOutput script => trivial
  | append bytes => trivial
  | sendMsg script frame => trivial
  | handshake => trivial
  | writable script => trivial
  | afterWritable => trivial
  | cleanup => trivial

/-- In every run: whatever waits is watched for at all times, so that the poller will have it sent,
exactly if no `send` breaks off with an error, nothing is written into the output buffer behind
its back, and nothing waits when the handshake is done. Then the bytes are in the order of the
calls, too. -/
theorem output_watched_iff (actions : List Action) (h : run step actions attached = .ok x) :
    ((∀ u y, u <+: actions → run step u attached = .ok y → Watched y) ↔
      Meets step Steady actions attached) ∧
    (Meets step Steady actions attached → x.written ++ x.output_.content = x.accepted) := by
  have hstart : Watched attached := fun hs => State.noConfusion hs
  refine ⟨keeps_iff watched_step sound_step sound_attached hstart h, fun hmeets => ?_⟩
  refine (run_inv_of (C := Steady)
    (I := fun x => (Sound x ∧ Watched x) ∧ x.written ++ x.output_.content = x.accepted)
    ⟨⟨sound_attached, hstart⟩, rfl⟩ ?_ hmeets h).2
  intro action x x' hx hsteady hstep
  obtain ⟨⟨hsound, hwatched⟩, horder⟩ := hx
  have heffect := step_effect hsound.ok hstep
  refine ⟨⟨sound_step action x x' hsound hstep,
    (watched_step action x x' hsound hwatched hstep).mpr hsteady⟩, ?_⟩
  rw [heffect.order (inOrder_of_watched hsound hwatched action), horder, heffect.accepted]

theorem twoSends_watched_iff : ∃ x, run step twoSends attached = .ok x ∧
    ((∀ u y, u <+: twoSends → run step u attached = .ok y → Watched y) ↔
      Meets step Steady twoSends attached) ∧
    (Meets step Steady twoSends attached → x.written ++ x.output_.content = x.accepted) := by
  obtain ⟨x, hx⟩ : ∃ x, run step twoSends attached = .ok x := ⟨_, rfl⟩
  exact ⟨x, hx, output_watched_iff twoSends hx⟩

def Takes (script : List Wrote) : Prop := ∀ len, 0 < len → 0 < (isend script len).1

theorem takes_bytes {n : Nat} (hn : 0 < n) (rest : List Wrote) : Takes (.bytes n :: rest) := by
  intro len hlen
  cases len with
  | zero => omega
  | succ len =>
    rw [isend]
    split_ifs with hz
    · omega
    · simp only
      omega

def turn (script : List Wrote) : List Action := [.writable script, .afterWritable]

theorem turn_effect (script : List Wrote) (hx : Sound x) (hs : x.state_ = .Connected) :
    let k := (isend script x.output_.content.length).1
    ∃ y, run step (turn script) x = .ok y ∧ Sound y ∧ y.state_ = .Connected ∧
      y.output_.content = x.output_.content.drop k ∧
      y.written = x.written ++ x.output_.content.take k := by
  intro k
  obtain ⟨y, hy⟩ := (step_ok_iff hx (.writable script)).mpr trivial
  have hsound := sound_step _ x y hx hy
  have hwrite : y = { x.flush script with writing := true } := by
    obtain ⟨channel, hc⟩ := hx.connected hs
    rw [step, if_pos hs, TcpConn.handleWrite, hc] at hy
    cases hy
    rfl
  have hyconn : y.state_ = .Connected := by
    rw [hwrite]
    exact hs
  obtain ⟨-, hcontent, hwritten, -⟩ := flush_effect script hx.ok
  have hknown : Known .afterWritable y := by
    intro _ _
    obtain ⟨channel, hc⟩ := hsound.connected hyconn
    simp [hc]
  obtain ⟨z, hz⟩ := (step_ok_iff hsound .afterWritable).mpr hknown
  have hstay : z.state_ = y.state_ ∧ z.output_ = y.output_ ∧ z.written = y.written := by
    rw [step, TcpConn.afterWritable] at hz
    split_ifs at hz
    · obtain ⟨channel, hc⟩ := hsound.connected hyconn
      simp only [hc] at hz
      cases hz
      split_ifs <;> exact ⟨rfl, rfl, rfl⟩
    · cases hz
      exact ⟨rfl, rfl, rfl⟩
    · cases hz
      exact ⟨rfl, rfl, rfl⟩
  refine ⟨z, run_cons_ok.mpr ⟨y, hy, run_cons_ok.mpr ⟨z, hz, rfl⟩⟩, sound_step _ y z hsound hz,
    hstay.1.trans hyconn, ?_, ?_⟩
  · rw [hstay.2.1, hwrite]
    exact hcontent
  · rw [hstay.2.2, hwrite]
    exact hwritten

theorem drains (hx : Sound x) (hs : x.state_ = .Connected) (scripts : List (List Wrote))
    (htakes : ∀ script ∈ scripts, Takes script)
    (hn : x.output_.content.length ≤ scripts.length) :
    ∃ y, run step (scripts.flatMap turn) x = .ok y ∧ y.output_.content = [] ∧
      y.written = x.written ++ x.output_.content := by
  induction scripts generalizing x with
  | nil =>
    have hnone : x.output_.content = [] := List.eq_nil_of_length_eq_zero (Nat.le_zero.mp hn)
    exact ⟨x, rfl, hnone, by rw [hnone, List.append_nil]⟩
  | cons script scripts ih =>
    obtain ⟨x₁, hrun, hx₁, hs₁, hcontent, hwritten⟩ := turn_effect script hx hs
    have hless : x₁.output_.content.length ≤ scripts.length := by
      rw [hcontent, List.length_drop]
      have := htakes script List.mem_cons_self x.output_.content.length
      simp only [List.length_cons] at hn
      omega
    obtain ⟨y, hrest, hempty, hall⟩ :=
      ih hx₁ hs₁ (fun script hin => htakes script (List.mem_cons_of_mem _ hin)) hless
    refine ⟨y, ?_, hempty, ?_⟩
    · rw [List.flatMap_cons]
      exact run_append_ok.mpr ⟨x₁, hrun, hrest⟩
    · rw [hall, hwritten, hcontent, List.append_assoc, List.take_append_drop]

/-- Whatever has gone before: however little the socket takes at a time, as many turns as there are
bytes that wait bring all of them to it, in order. -/
theorem output_drains (before : List Action) (h : run step before attached = .ok x)
    (hs : x.state_ = .Connected) (scripts : List (List Wrote))
    (htakes : ∀ script ∈ scripts, Takes script)
    (hn : x.output_.content.length ≤ scripts.length) :
    ∃ y, run step (scripts.flatMap turn) x = .ok y ∧ y.output_.content = [] ∧
      y.written = x.written ++ x.output_.content := by
  have hx : Sound x := run_inv_of (C := fun _ _ => True) sound_attached
    (fun action x y hx _ hstep => sound_step action x y hx hstep) (meets_true before attached) h
  exact drains hx hs scripts htakes hn

theorem four_bytes_drain : ∃ x y,
    run step [.handshake, .send [.full] [1, 2, 3, 4]] attached = .ok x ∧
      run step ([[.bytes 1, .full], [.interrupted, .bytes 2, .failed], [.bytes 9],
        [.bytes 1]].flatMap turn) x = .ok y ∧ y.output_.content = [] ∧
      y.written = x.written ++ x.output_.content := by
  obtain ⟨x, hx, hs, hn⟩ : ∃ x, run step [.handshake, .send [.full] [1, 2, 3, 4]] attached = .ok x ∧
      x.state_ = .Connected ∧ x.output_.content.length = 4 := ⟨_, rfl, rfl, rfl⟩
  suffices htakes : ∀ script ∈ [[Wrote.bytes 1, .full], [.interrupted, .bytes 2, .failed],
      [.bytes 9], [.bytes 1]], Takes script by
    obtain ⟨y, hy⟩ := output_drains _ hx hs [[.bytes 1, .full], [.interrupted, .bytes 2, .failed],
      [.bytes 9], [.bytes 1]] htakes hn.le
    exact ⟨x, y, hx, hy⟩
  · intro script hscript
    have hinterrupted : Takes [.interrupted, .bytes 2, .failed] := by
      intro len hlen
      cases len with
      | zero => omega
      | succ len => exact takes_bytes (by decide) _ (len + 1) hlen
    simp only [List.mem_cons, List.not_mem_nil, or_false] at hscript
    obtain rfl | rfl | rfl | rfl := hscript
    · exact takes_bytes (by decide) _
    · exact hinterrupted
    · exact takes_bytes (by decide) _
    · exact takes_bytes (by decide) _

end Watching

def ofAgent {Message : Type} (a : Agent Message) : TcpConn :=
  { state_ := a.state_
    channel_ := a.channel_
    output_ := a.output_
    written := a.current.written }

section Agents
variable {Message : Type} {a : Agent Message}

theorem ofAgent_flush (script : List Wrote) (ha : a.output_.Ok) :
    ofAgent (a.isend (isend script a.output_.content.length).1) =
      { (ofAgent a).flush script with channel_ := a.channel_ } := by
  have hle : (isend script a.output_.content.length).1 ≤ a.output_.size :=
    ha.content_length ▸ isend_le script a.output_.content.length
  have hmin : min (isend script a.output_.content.length).1 a.output_.size =
      (isend script a.output_.content.length).1 := Nat.min_eq_left hle
  simp only [ofAgent, Agent.isend, hmin, TcpConn.flush, TcpConn.isend]

theorem flush_channel (script : List Wrote) (hx : x.output_.Ok)
    (hz : (x.flush script).output_.size = 0) : (x.flush script).channel_ = x.channel_ := by
  obtain ⟨hok, hcontent, -, hchannel, -⟩ := flush_effect script hx
  have hrest := hok.size_eq_zero.mp hz
  rw [hcontent, List.drop_eq_nil_iff] at hrest
  rw [hchannel]
  refine if_neg fun hfull => ?_
  have := isend_full hfull
  omega

/-- The agent's `sendOutput`, which is told only how much the socket takes, is the one that goes
through the single writes. -/
theorem agent_sendOutput (script : List Wrote) (ha : a.output_.Ok) :
    ofAgent (a.sendOutput (isend script a.output_.content.length).1) =
      (ofAgent a).sendOutput script := by
  cases hc : a.channel_ with
  | none =>
    have hnone : (ofAgent a).channel_ = none := hc
    simp only [Agent.sendOutput, hc, TcpConn.sendOutput, hnone]
  | some channel =>
    have hsome : (ofAgent a).channel_ = some channel := hc
    simp only [Agent.sendOutput, hc, TcpConn.sendOutput, hsome]
    by_cases hz : a.output_.size = 0
    · have hz' : (ofAgent a).output_.size = 0 := hz
      simp [hz, hz']
    · have hz' : (ofAgent a).output_.size ≠ 0 := hz
      have hflush := ofAgent_flush script ha
      have hout : (a.isend (isend script a.output_.content.length).1).output_ =
          ((ofAgent a).flush script).output_ := congrArg TcpConn.output_ hflush
      rw [if_pos hz, if_pos hz']
      by_cases hrest : ((ofAgent a).flush script).output_.size = 0
      · have hchannel := flush_channel (x := ofAgent a) script ha hrest
        rw [if_neg (by simpa [hout] using hrest), if_neg (by simpa using hrest), hflush]
        rw [show a.channel_ = ((ofAgent a).flush script).channel_ from hchannel.symm]
      · rw [if_pos (hout ▸ hrest), if_pos hrest]
        exact congrArg (TcpConn.enableWrite true) hflush

theorem agent_handleWrite (script : List Wrote) (ha : a.output_.Ok) (hs : a.state_ = .Connected)
    (hc : a.channel_ = some { writeEnabled := true }) :
    run step (turn script) (ofAgent a) =
      .ok (ofAgent (a.handleWrite (isend script a.output_.content.length).1)) := by
  have hs' : (ofAgent a).state_ = .Connected := hs
  have hc' : (ofAgent a).channel_ = some { writeEnabled := true } := hc
  let b := a.isend (isend script a.output_.content.length).1
  have hflush : (ofAgent a).flush script = ofAgent b := by
    obtain ⟨-, -, -, hchannel, -⟩ := flush_effect (x := ofAgent a) script ha
    rw [hc', ite_self] at hchannel
    rw [ofAgent_flush script ha, hc, ← hchannel]
  have hwrite : step (.writable script) (ofAgent a) = .ok { ofAgent b with writing := true } := by
    rw [step, if_pos hs', TcpConn.handleWrite, hc', hflush]
  have hb : (ofAgent b).channel_ = some { writeEnabled := true } := hc
  have hafter : step .afterWritable { ofAgent b with writing := true } =
      .ok (ofAgent (a.handleWrite (isend script a.output_.content.length).1)) := by
    simp only [step, TcpConn.afterWritable, if_true, Agent.handleWrite, hb]
    by_cases he : b.output_.empty = true
    · have he' : (ofAgent b).output_.empty = true := he
      rw [if_pos he', if_pos he]
      rfl
    · have he' : ¬ (ofAgent b).output_.empty = true := he
      rw [if_neg he', if_neg he]
      exact congrArg Except.ok (show { ofAgent b with channel_ := some ⟨true⟩ } = ofAgent b by
        rw [← hb])
  exact run_cons_ok.mpr ⟨_, hwrite, run_cons_ok.mpr ⟨_, hafter, rfl⟩⟩

end Agents

end LazyNet.ConnOutput
