import LazyNet.LengthStreams
import LazyNet.LineStreams
import LazyNet.OutputRuns
import Mathlib.Data.List.TakeWhile

/-! Messages from one connection to another: sent with `sendMsg` on the one, through the socket as
it takes them, and read with the same codec on the other. -/
namespace LazyNet.MessageRuns
open LazyNet.HandyBuffer LazyNet.Decoders LazyNet.Framing LazyNet.StepRuns
open LazyNet.HandyCodecs
open LazyNet.ConnOutput (Wrote Fault attached)

inductive Call where
  | sendMsg (script : List Wrote) (msg : List UInt8)
  | sendOutput (script : List Wrote)
  | handshake
  | writable (script : List Wrote)
  | afterWritable
  | cleanup
  deriving DecidableEq, Repr

def sendMsg (codec : CodecBase) (script : List Wrote) (msg : List UInt8)
    (x : ConnOutput.TcpConn) : ConnOutput.TcpConn :=
  { x with output_ := codec.encode msg x.output_ }.sendOutput script

def step (codec : CodecBase) : Call → ConnOutput.TcpConn → Except Fault ConnOutput.TcpConn
  | .sendMsg script msg, x => .ok (sendMsg codec script msg x)
  | .sendOutput script, x => ConnOutput.step (.sendOutput script) x
  | .handshake, x => ConnOutput.step .handshake x
  | .writable script, x => ConnOutput.step (.writable script) x
  | .afterWritable, x => ConnOutput.step .afterWritable x
  | .cleanup, x => ConnOutput.step .cleanup x

def Call.messages : Call → List (List UInt8)
  | .sendMsg _ msg => [msg]
  | _ => []

def messages (calls : List Call) : List (List UInt8) := calls.flatMap Call.messages

def Encodes (codec : CodecBase) (frame : List UInt8 → List UInt8) : Prop :=
  ∀ (buf : Buffer) (msg : List UInt8), buf.Ok →
    (codec.encode msg buf).Ok ∧ (codec.encode msg buf).content = buf.content ++ frame msg

theorem encodes_length : Encodes lengthCodec LengthCodec.frame :=
  fun _ msg h => LengthCodec.encode_content h msg

theorem encodes_line : Encodes lineCodec LineCodec.frame :=
  fun _ msg h => LineCodec.encode_content h msg

section Sending
variable {codec : CodecBase} {frame : List UInt8 → List UInt8} {x y : ConnOutput.TcpConn}

theorem event_effect (action : ConnOutput.Action) (hx : x.output_.Ok)
    (h : ConnOutput.step action x = .ok y) (ho : ConnOutput.InOrder action x)
    (hnew : ConnOutput.handed action x = []) :
    y.output_.Ok ∧ y.written ++ y.output_.content = x.written ++ x.output_.content ++ [] := by
  have heffect := ConnOutput.step_effect hx h
  exact ⟨heffect.ok, hnew ▸ heffect.order ho⟩

theorem call_effect (he : Encodes codec frame) (c : Call) (hx : x.output_.Ok)
    (h : step codec c x = .ok y) :
    y.output_.Ok ∧ y.written ++ y.output_.content =
      x.written ++ x.output_.content ++ (c.messages.map frame).flatten := by
  cases c with
  | sendMsg script msg =>
    cases h
    obtain ⟨hok, hcontent⟩ := he x.output_ msg hx
    have hsend := ConnOutput.sentOutput (P := True) (x := { x with
      output_ := codec.encode msg x.output_ }) script hok
    refine ⟨hsend.ok, (hsend.order trivial).trans ?_⟩
    simp [hcontent, Call.messages]
  | sendOutput script => exact event_effect (.sendOutput script) hx h trivial rfl
  | handshake => exact event_effect .handshake hx h trivial rfl
  | writable script => exact event_effect (.writable script) hx h trivial rfl
  | afterWritable => exact event_effect .afterWritable hx h trivial rfl
  | cleanup => exact event_effect .cleanup hx h trivial rfl

theorem run_frames (he : Encodes codec frame) (calls : List Call) (hx : x.output_.Ok)
    (h : run (step codec) calls x = .ok y) : y.written ++ y.output_.content =
      x.written ++ x.output_.content ++ ((messages calls).map frame).flatten := by
  induction calls generalizing x with
  | nil =>
    cases h
    simp [messages]
  | cons c calls ih =>
    obtain ⟨z, hz, hrest⟩ := run_cons_ok.mp h
    obtain ⟨hok, hbytes⟩ := call_effect he c hx hz
    rw [ih hok hrest, hbytes]
    simp [messages, List.append_assoc]

theorem written_frames (he : Encodes codec frame) {calls : List Call}
    (h : run (step codec) calls attached = .ok x) :
    x.written <+: ((messages calls).map frame).flatten := by
  have hrun := run_frames he calls Buffer.ok_default h
  exact ⟨x.output_.content, hrun⟩

end Sending

section Lengths
open LazyNet.HandyCodecs.LengthCodec
variable {ms : List (List UInt8)}

/-- The messages before the first one that the codec refuses. -/
def accepted (ms : List (List UInt8)) : List (List UInt8) := ms.takeWhile fun msg => Fits msg

theorem accepted_fits {msg : List UInt8} (h : msg ∈ accepted ms) : Fits msg := by
  simpa using List.mem_takeWhile_imp h

theorem refused_next {msg : List UInt8} {rest : List (List UInt8)}
    (h : ms.dropWhile (fun msg => Fits msg) = msg :: rest) : ¬ Fits msg := by
  have hhead := List.head?_dropWhile_not (fun msg => decide (Fits msg)) ms
  rw [h] at hhead
  simpa using hhead

theorem decodes_take (hlen : ∀ msg ∈ ms, msg.length < 2147483648) {n : Nat}
    (hn : n ≤ ((ms.map frame).flatten).length) :
    ∃ e, Decodes find ((ms.map frame).flatten.take n)
      (((accepted ms).take (completed ((accepted ms).map frame) n)).map some) e ∧
      (e = .stopped ↔ (accepted ms).length < ms.length ∧
        ((accepted ms).map frame).flatten.length + 8 ≤ n) := by
  have hc : ∀ msg ∈ accepted ms, Carries find (fun _ => True) frame some msg :=
    fun msg hmsg => carries (accepted_fits hmsg)
  have hms : accepted ms ++ ms.dropWhile (fun msg => Fits msg) = ms :=
    List.takeWhile_append_dropWhile
  have hbytes : (ms.map frame).flatten = ((accepted ms).map frame).flatten ++
      ((ms.dropWhile fun msg => Fits msg).map frame).flatten := by
    rw [← List.flatten_append, ← List.map_append, hms]
  by_cases hfront : n ≤ ((accepted ms).map frame).flatten.length
  · refine ⟨.waiting (part ((accepted ms).map frame) n), ?_, ?_⟩
    · rw [hbytes, List.take_append_of_le_length hfront]
      exact stable.frames_take find_nil hc n trivial
    · constructor
      · intro hstop
        cases hstop
      · omega
  · have hsize : (completed ((accepted ms).map frame) n) = (accepted ms).length := by
      rw [completed_all (by omega), List.length_map]
    rw [hbytes, List.length_append] at hn
    rw [hbytes, List.take_append, List.take_of_length_le (by omega), hsize, List.take_length]
    generalize hu : ((ms.dropWhile fun msg => Fits msg).map frame).flatten.take
      (n - ((accepted ms).map frame).flatten.length) = u
    have hulen : u.length = n - ((accepted ms).map frame).flatten.length := by
      rw [← hu, List.length_take]
      omega
    cases hrest : ms.dropWhile (fun msg => Fits msg) with
    | nil =>
      simp only [hrest, List.map_nil, List.flatten_nil, List.length_nil] at hn
      omega
    | cons msg rest =>
      have hmem : msg ∈ ms := by
        rw [← hms, hrest]
        simp
      have hprefix : u <+: frame msg ++ (rest.map frame).flatten := by
        rw [← hu, hrest]
        exact List.take_prefix _ _
      have hfind := find_long (refused_next hrest) (hlen msg hmem) hprefix
      have hshort : (accepted ms).length < ms.length := by
        conv_rhs => rw [← hms, hrest, List.length_append, List.length_cons]
        omega
      split_ifs at hfind with h8
      · have h := stable.frames hc trivial (.more hfind)
        rw [List.append_nil] at h
        refine ⟨_, h, ?_⟩
        constructor
        · intro hstop
          cases hstop
        · omega
      · have h := stable.frames hc trivial (.bad hfind)
        rw [List.append_nil] at h
        refine ⟨_, h, ?_⟩
        constructor
        · omega
        · exact fun _ => rfl

/-- Messages of any number that are sent with the length codec: the other side gets those whose
frames have arrived whole, each once and in order, however much the socket takes at a time and
however the bytes are cut. When the header of one arrives that is longer than the codec takes, the
connection is closed, and neither this message nor any behind it is received. -/
theorem length_messages_arrive {calls : List Call} {x : ConnOutput.TcpConn}
    (h : run (step lengthCodec) calls attached = .ok x)
    (hlen : ∀ msg ∈ messages calls, msg.length < 2147483648) {arrivals : List Arrival}
    (hread : stream arrivals <+: x.written) (hbursts : Bursts arrivals) :
    let taken := accepted (messages calls)
    let n := (stream arrivals).length
    (reads lengthCodec arrivals).received =
        (taken.take (completed (taken.map frame) n)).map some ∧
      (reads lengthCodec arrivals).state_ =
        (if (taken.length < (messages calls).length ∧ (taken.map frame).flatten.length + 8 ≤ n) ∨
          Ended arrivals then .Closed else .Connected) := by
  intro taken n
  have hprefix := hread.trans (written_frames encodes_length h)
  have hstream : stream arrivals = ((messages calls).map frame).flatten.take n :=
    List.prefix_iff_eq_take.mp hprefix
  obtain ⟨e, hdec, hstop⟩ := decodes_take hlen hprefix.length_le
  obtain ⟨e', hdec', hstate, -⟩ := reads_find hbursts
  rw [hstream] at hdec'
  obtain ⟨hmsgs, rfl⟩ := hdec'.unique hdec
  refine ⟨hmsgs, ?_⟩
  rw [hstate]
  simp only [hstop]
  rfl

/-- Two messages, of which the socket takes the first three bytes at once. -/
def hiBye : List Call :=
  [.handshake, .sendMsg [.bytes 3, .full] [104, 105], .sendMsg [.full] [98, 121, 101],
    .writable [.bytes 9, .interrupted, .bytes 9], .afterWritable]

theorem hi_bye_arrive : ∃ x, run (step lengthCodec) hiBye attached = .ok x ∧
    let arrivals : List Arrival := [{ bytes := x.written.take 5 },
      { bytes := (x.written.take 20).drop 5, ended := true }]
    let taken := accepted (messages hiBye)
    let n := (stream arrivals).length
    (reads lengthCodec arrivals).received =
        (taken.take (completed (taken.map frame) n)).map some ∧
      (reads lengthCodec arrivals).state_ =
        (if (taken.length < (messages hiBye).length ∧
          (taken.map frame).flatten.length + 8 ≤ n) ∨ Ended arrivals
        then .Closed else .Connected) := by
  obtain ⟨x, hx, hw⟩ : ∃ x, run (step lengthCodec) hiBye attached = .ok x ∧
      x.written = frame [104, 105] ++ frame [98, 121, 101] := ⟨_, rfl, rfl⟩
  refine ⟨x, hx, ?_⟩
  rw [hw]
  apply length_messages_arrive hx
  · simp [hiBye, messages, Call.messages]
  · rw [hw]
    decide
  · rw [Bursts]
    decide

end Lengths

section Lines
open LazyNet.HandyCodecs.LineCodec
variable {ms : List (List UInt8)}

theorem head_frame (msg v : List UInt8) (h : msg.head? ≠ some 4) :
    (frame msg ++ v).head? ≠ some 4 := by
  cases msg with
  | nil => simp [frame]
  | cons c msg => simpa [frame] using h

theorem plain_frames (h : ∀ msg ∈ ms, 10 ∉ msg ∧ msg.head? ≠ some 4) :
    Plain (ms.map frame).flatten := by
  induction ms with
  | nil => exact ⟨by simp, by decide⟩
  | cons msg ms ih =>
    have hmsg := h msg List.mem_cons_self
    have hrest := ih fun msg' hin => h msg' (List.mem_cons_of_mem msg hin)
    rw [List.map_cons, List.flatten_cons]
    refine ⟨head_frame msg _ hmsg.2, ?_⟩
    have hline : (10 : UInt8) ∉ msg ++ [13] := by simpa using hmsg.1
    rw [frame_append, break_iff hline]
    rintro (hhead | hin)
    · exact hrest.1 hhead
    · exact hrest.2 hin

/-- Messages that are single lines, and do not begin with the byte 4, arrive through the line codec
as they were sent: each once and in order, as soon as its frame is there. -/
theorem line_messages_arrive {calls : List Call} {x : ConnOutput.TcpConn}
    (h : run (step lineCodec) calls attached = .ok x)
    (hmsg : ∀ msg ∈ messages calls, 10 ∉ msg ∧ msg.head? ≠ some 4)
    (hlen : ∀ msg ∈ messages calls, msg.length < 1073741822) {arrivals : List Arrival}
    (hread : stream arrivals <+: x.written) (hbursts : Bursts arrivals) :
    (reads lineCodec arrivals).received = ((messages calls).take
        (completed ((messages calls).map frame) (stream arrivals).length)).map some ∧
      (reads lineCodec arrivals).state_ = (if Ended arrivals then .Closed else .Connected) := by
  have hprefix := hread.trans (written_frames encodes_line h)
  have hplain : Plain (stream arrivals) := (plain_frames hmsg).beginning hprefix
  -- every beginning of the stream is frames, and a part of the next one
  have hdecodes : ∀ u, u <+: stream arrivals → Decodes find u
      (((messages calls).take (completed ((messages calls).map frame) u.length)).map some)
      (.waiting (part ((messages calls).map frame) u.length)) := by
    intro u hu
    have hframes := stable.frames_take find_nil (fun msg hin => carries (hmsg msg hin).1) u.length
      (List.prefix_iff_eq_take.mp (hu.trans hprefix) ▸ hplain.beginning hu)
    rwa [← List.prefix_iff_eq_take.mp (hu.trans hprefix)] at hframes
  have hshort : ∀ u ms r, u <+: stream arrivals → Decodes find u ms (.waiting r) →
      r.length < 1073741824 := by
    intro u ms r hu hdec
    obtain ⟨-, heq⟩ := hdec.unique (hdecodes u hu)
    injection heq with heq
    obtain hnone | ⟨f, hf, -, hlt⟩ := part_short ((messages calls).map frame) u.length
    · rw [heq, hnone]
      decide
    · obtain ⟨msg, hin, rfl⟩ := List.mem_map.mp hf
      have hsize := hlen msg hin
      rw [heq]
      simp only [frame, List.length_append, List.length_cons, List.length_nil] at hlt
      omega
  obtain ⟨e, hdec, hstate, -⟩ :=
    reads_decodes stable agrees find_nil arrivals hplain (suits hbursts hplain hshort)
  obtain ⟨hms, rfl⟩ := hdec.unique (hdecodes _ List.prefix_rfl)
  exact ⟨hms, by simpa using hstate⟩

theorem hi_bye_lines : ∃ x, run (step lineCodec) hiBye attached = .ok x ∧
    let arrivals : List Arrival := [{ bytes := x.written.take 5 }, { bytes := x.written.drop 5 }]
    (reads lineCodec arrivals).received = ((messages hiBye).take
        (completed ((messages hiBye).map frame) (stream arrivals).length)).map some ∧
      (reads lineCodec arrivals).state_ = (if Ended arrivals then .Closed else .Connected) := by
  obtain ⟨x, hx, hw⟩ : ∃ x, run (step lineCodec) hiBye attached = .ok x ∧
      x.written = frame [104, 105] ++ frame [98, 121, 101] := ⟨_, rfl, rfl⟩
  refine ⟨x, hx, ?_⟩
  rw [hw]
  apply line_messages_arrive hx
  · simp [hiBye, messages, Call.messages]
  · simp [hiBye, messages, Call.messages]
  · rw [hw]
    decide
  · rw [Bursts]
    decide

end Lines

end LazyNet.MessageRuns
