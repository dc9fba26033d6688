import LazyNet.DecodeBounds

/-! The dispatcher behind the `onRead` callback: one callback a message type, looked up through
the descriptor of the message that it is given. -/
namespace LazyNet.Dispatcher
open LazyNet.Words LazyNet.Tables LazyNet.HandyBuffer LazyNet.ExternalMsgCodec
open LazyNet.MsDsProtocol LazyNet.DSServer LazyNet.DecodeBounds
variable {Message σ : Type}

/-- The callbacks that `onMsg` stored. A descriptor stands as the full name of its type, and `σ`
is what the callbacks work on. -/
structure ExternalMsgDispatcher (Message σ : Type) where
  protocbs_ : OrdMap String (BaseHead → Message → σ → σ) := ∅

namespace ExternalMsgDispatcher

def onMsg (d : ExternalMsgDispatcher Message σ) (descriptor : String)
    (cb : BaseHead → Message → σ → σ) : ExternalMsgDispatcher Message σ :=
  { protocbs_ := d.protocbs_.insert descriptor cb }

def handle (pb : Protobuf Message) (d : ExternalMsgDispatcher Message σ) (info : BaseHead)
    (msg : Option Message) (s : σ) : Except Fault σ :=
  match msg with
  | none => .error .nullMessage
  | some m =>
    match d.protocbs_[pb.full_name m]? with
    | some cb => .ok (cb info m s)
    -- an unknown message type is logged
    | none => .ok s

end ExternalMsgDispatcher

/-- The `onRead` callback with the dispatcher that it calls. -/
def onReadDispatch (pb : Protobuf Message) (d : ExternalMsgDispatcher Message σ)
    (junk : Nat → UInt8) (r : Registry) (input : Buffer) (s : σ) :
    Except Fault (Registry × Buffer × σ) :=
  if msgComplete input then
    let x := decode pb junk r input {}
    if x.msg.isSome || x.info.length == 0 then
      (d.handle pb x.info x.msg s).map fun s => (x.registry, x.buf, s)
    else .ok (x.registry, x.buf, s)
  else .ok (r, input, s)

variable (pb : Protobuf Message) (d : ExternalMsgDispatcher Message σ) (junk : Nat → UInt8)
  (r : Registry) {x : Buffer} {h : BaseHead} {rest : List UInt8}

theorem handle_message (info : BaseHead) (m : Message) (s : σ) :
    ∃ s', d.handle pb info (some m) s = .ok s' := by
  simp only [ExternalMsgDispatcher.handle]
  split
  · exact ⟨_, rfl⟩
  · exact ⟨_, rfl⟩

/-- Whatever the callbacks do, the input is treated as by the callback that only records what it
hands out, and the two fault together. -/
theorem onReadDispatch_onRead (handled : List (BaseHead × Message)) (s : σ) :
    (onReadDispatch pb d junk r x s).map (fun out => (out.1, out.2.1)) =
      (onRead pb junk ⟨r, x, handled⟩).map fun l => (l.registry, l.input_) := by
  simp only [onReadDispatch, onRead]
  split_ifs with h20 hgiven
  · cases hm : (decode pb junk r x {}).msg with
    | none => rfl
    | some m =>
      obtain ⟨s', hs'⟩ := handle_message pb d (decode pb junk r x {}).info m s
      rw [hs']
      rfl
  · rfl
  · rfl

theorem onReadDispatch_short (hx : x.size < 20) (s : σ) :
    onReadDispatch pb d junk r x s = .ok (r, x, s) := by
  simp [onReadDispatch, msgComplete, Nat.not_le.mpr hx]

/-- A head without a body is decoded to a null message, and this is dispatched. -/
theorem onReadDispatch_bodiless (hs : Starts x h rest) (h0 : h.length = 0) (s : σ) :
    onReadDispatch pb d junk r x s = .error .nullMessage := by
  have hsz : 20 ≤ x.size := by rw [hs.size_eq]; simp [headSize]
  simp [onReadDispatch, msgComplete, hsz, hs.decode_bodiless pb junk r {} h0, h0,
    ExternalMsgDispatcher.handle, Except.map]

theorem onReadDispatch_body (hs : Starts x h rest) (h0 : h.length ≠ 0) (s : σ) :
    ∃ out, onReadDispatch pb d junk r x s = .ok out := by
  have hsz : 20 ≤ x.size := by rw [hs.size_eq]; simp [headSize]
  by_cases hbad : Bad pb junk r h rest
  · obtain ⟨h1, h2, -⟩ := decode_bad hs h0 hbad {}
    exact ⟨_, by simp [onReadDispatch, msgComplete, hsz, h1, h2, h0]; rfl⟩
  · obtain ⟨m, hd⟩ := decode_good hs h0 hbad {}
    obtain ⟨s', hs'⟩ := handle_message pb d h m s
    exact ⟨_, by simp [onReadDispatch, msgComplete, hsz, hd, hs', Except.map]; rfl⟩

/-- With any callbacks, the dispatcher is given a real message or nothing at all exactly when the
buffer does not start with a head of length zero. -/
theorem dispatched_message_iff (hx : x.Ok) (s : σ) :
    onReadDispatch pb d junk r x s ≠ .error .nullMessage ↔
      (20 ≤ x.size → (loadHead (x.mem junk) x.b_).length ≠ 0) := by
  by_cases hsz : x.size < 20
  · rw [onReadDispatch_short pb d junk r hsz]
    exact ⟨fun _ h => absurd hsz (Nat.not_lt.mpr h), fun _ h => by cases h⟩
  obtain ⟨h, hs⟩ := starts_of_size hx hsz
  rw [hs.loadHead junk]
  by_cases h0 : h.length = 0
  · rw [onReadDispatch_bodiless pb d junk r hs h0]
    exact ⟨fun h => absurd rfl h, fun h' => absurd h0 (h' (Nat.not_lt.mp hsz))⟩
  · obtain ⟨out, hout⟩ := onReadDispatch_body pb d junk r hs h0 s
    rw [hout]
    exact ⟨fun _ _ => h0, fun _ h => by cases h⟩

variable {r} in
theorem encoded_name_null {name : String} {cmd : UInt32} (hr : r.Knows cmd name)
    (err para1 para2 : UInt32) (s : σ) :
    onReadDispatch pb d junk r (encodeName r name err para1 para2 {}).2 s =
      .error .nullMessage := by
  obtain ⟨-, hok, hc⟩ := encodeName_ok hr err para1 para2 Buffer.ok_default
  exact onReadDispatch_bodiless pb d junk r ⟨hok, by rw [hc]; exact (List.append_nil _).symm⟩ rfl s

/-- A Bye, as the encoder writes it, arrives. -/
theorem bye_dispatched_as_null :
    let r := Registry.ofPairs initAdmin
    onReadDispatch ackProtobuf ({} : ExternalMsgDispatcher (Fin 128) Unit) (fun _ => 0) r
      (encodeName r "MS_DS.Bye" 0 1 2 {}).2 () = .error .nullMessage := by
  intro r
  have hmem : (MSG_DS_MS_STORE_FINISH, "MS_DS.Bye") ∈ initAdmin := by decide
  have hknows := Registry.knows_ofPairs initAdmin_distinct.1 initAdmin_distinct.2 hmem
  exact encoded_name_null _ _ _ hknows 0 1 2 ()

theorem ack_dispatched_message_iff :
    let x := filled (headBytes { cmd := MSG_MS_DS_DSREGISTERACK, length := 2 } ++ [0x08, 5])
    onReadDispatch ackProtobuf ({} : ExternalMsgDispatcher (Fin 128) Unit) (fun _ => 0)
      (Registry.ofPairs initAdmin) x () ≠ .error .nullMessage ↔
      (20 ≤ x.size → (loadHead (x.mem fun _ => 0) x.b_).length ≠ 0) :=
  dispatched_message_iff _ _ _ _ (filled_ok _) ()

end LazyNet.Dispatcher
