import LazyNet.MsAgent

/-! The sending side of a `TcpConn`: what is handed to it goes to the socket as far as that takes
it, and waits in the output buffer for the rest. -/
namespace LazyNet.ConnOutput
open LazyNet.HandyBuffer LazyNet.StepRuns
open LazyNet.MsAgent (State Channel)

inductive Wrote where
  | bytes (n : Nat)
  /-- `EINTR` -/
  | interrupted
  /-- `EAGAIN` -/
  | full
  | failed
  deriving DecidableEq, Repr

/-- The loop of `isend` over `len` bytes: how many it sends, and whether it ends because the
socket is full. The outcomes are used up one by one; after the last one the socket is full. -/
def isend : List Wrote → Nat → Nat × Bool
  | _, 0 => (0, false)
  | [], _ + 1 => (0, true)
  | .bytes n :: rest, len + 1 =>
    let wd := min n (len + 1)
    -- a write of nothing counts as an error
    if wd = 0 then (0, false)
    else (wd + (isend rest (len + 1 - wd)).1, (isend rest (len + 1 - wd)).2)
  | .interrupted :: rest, len + 1 => isend rest (len + 1)
  | .full :: _, _ + 1 => (0, true)
  | .failed :: _, _ + 1 => (0, false)

structure TcpConn where
  state_ : State := .Handshaking
  channel_ : Option Channel := some { writeEnabled := true }
  output_ : Buffer := {}
  /-- `handleWrite` has called `writablecb_`, which has not returned yet -/
  writing : Bool := false
  /-- the bytes that the socket has taken -/
  written : List UInt8 := []
  /-- the bytes that were handed over, in the order of the calls -/
  accepted : List UInt8 := []
  deriving DecidableEq, Repr

inductive Fault where
  /-- `channel_` is used after `cleanup` -/
  | nullChannel
  deriving DecidableEq, Repr

namespace TcpConn

def enableWrite (enable : Bool) (x : TcpConn) : TcpConn :=
  { x with channel_ := some { writeEnabled := enable } }

def isend (script : List Wrote) (bytes : List UInt8) (x : TcpConn) : Nat × TcpConn :=
  let r := ConnOutput.isend script bytes.length
  (r.1, { x with
    written := x.written ++ bytes.take r.1
    channel_ := if r.2 then some { writeEnabled := true } else x.channel_ })

/-- `output_.absorb(buf)`, and what is left of `buf`. -/
def absorb (buf : Buffer) (x : TcpConn) : Buffer × TcpConn :=
  let r := x.output_.absorb buf
  (r.2, { x with output_ := r.1 })

def sendRest (script : List Wrote) (r : Buffer × TcpConn) : Buffer × TcpConn :=
  if r.1.size ≠ 0 then
    let s := r.2.isend script r.1.content
    (r.1.consume s.1, s.2)
  else r

def queueRest (r : Buffer × TcpConn) : Buffer × TcpConn :=
  if r.1.size ≠ 0 then
    let s := r.2.absorb r.1
    (s.1, s.2.enableWrite true)
  else r

/-- `send(Buffer&)`, with a buffer that is not `output_`. Also gives what is left of it. -/
def sendBuffer (script : List Wrote) (buf : Buffer) (x : TcpConn) : Buffer × TcpConn :=
  match x.channel_ with
  -- a warning is logged
  | none => (buf, x)
  | some channel =>
    let x := { x with accepted := x.accepted ++ buf.content }
    queueRest (sendRest script (if channel.writeEnabled then x.absorb buf else (buf, x)))

/-- `send(const char*, size_t)`. -/
def send (script : List Wrote) (bytes : List UInt8) (x : TcpConn) : TcpConn :=
  match x.channel_ with
  | none => x
  | some _ =>
    let x := { x with accepted := x.accepted ++ bytes }
    let s := if x.output_.empty then x.isend script bytes else (0, x)
    let x := s.2
    let rest := bytes.drop s.1
    if rest ≠ [] then { x with output_ := x.output_.append rest } else x

def flush (script : List Wrote) (x : TcpConn) : TcpConn :=
  let s := x.isend script x.output_.content
  { s.2 with output_ := x.output_.consume s.1 }

/-- `send(output_)`, where `absorb` is called with the buffer itself and does nothing. -/
def sendOutput (script : List Wrote) (x : TcpConn) : TcpConn :=
  match x.channel_ with
  | none => x
  | some _ =>
    let x := if x.output_.size ≠ 0 then x.flush script else x
    if x.output_.size ≠ 0 then x.enableWrite true else x

def append (bytes : List UInt8) (x : TcpConn) : TcpConn :=
  { x with output_ := x.output_.append bytes, accepted := x.accepted ++ bytes }

/-- `frame` is what the codec makes of the message. -/
def sendMsg (script : List Wrote) (frame : List UInt8) (x : TcpConn) : TcpConn :=
  (x.append frame).sendOutput script

def handleHandshake (x : TcpConn) : TcpConn :=
  { x.enableWrite false with state_ := .Connected }

/-- `handleWrite` on a connection, up to the call of `writablecb_`. -/
def handleWrite (script : List Wrote) (x : TcpConn) : Except Fault TcpConn :=
  match x.channel_ with
  | none => .error .nullChannel
  | some _ => .ok { x.flush script with writing := true }

/-- The rest of `handleWrite`, after `writablecb_` has returned. -/
def afterWritable (x : TcpConn) : Except Fault TcpConn :=
  let x := { x with writing := false }
  if x.output_.empty then
    match x.channel_ with
    | none => .error .nullChannel
    | some channel => .ok (if channel.writeEnabled then x.enableWrite false else x)
  else .ok x

def cleanup (x : TcpConn) : TcpConn :=
  { x with
    state_ := if x.state_ = .Handshaking then .Failed else .Closed
    channel_ := none }

end TcpConn

inductive Action where
  | sendBuffer (script : List Wrote) (buf : { buf : Buffer // buf.Ok })
  | send (script : List Wrote) (bytes : List UInt8)
  | sendOutput (script : List Wrote)
  | append (bytes : List UInt8)
  | sendMsg (script : List Wrote) (frame : List UInt8)
  | handshake
  | writable (script : List Wrote)
  | afterWritable
  | cleanup

/-- An event that cannot occur in the state changes nothing. -/
def step : Action → TcpConn → Except Fault TcpConn
  | .sendBuffer script buf, x => .ok (x.sendBuffer script buf).2
  | .send script bytes, x => .ok (x.send script bytes)
  | .sendOutput script, x => .ok (x.sendOutput script)
  | .append bytes, x => .ok (x.append bytes)
  | .sendMsg script frame, x => .ok (x.sendMsg script frame)
  | .handshake, x => .ok (if x.state_ = .Handshaking then x.handleHandshake else x)
  | .writable script, x => if x.state_ = .Connected then x.handleWrite script else .ok x
  | .afterWritable, x => if x.writing then x.afterWritable else .ok x
  | .cleanup, x => .ok x.cleanup

def TcpConn.stage (x : TcpConn) : State × Bool := (x.state_, x.writing)

def attached : TcpConn := {}

section Loop
variable {script : List Wrote} {len : Nat}

theorem isend_le (script : List Wrote) (len : Nat) : (isend script len).1 ≤ len := by
  induction script, len using isend.induct with
  | case1 script => simp [isend]
  | case2 len => simp [isend]
  | case3 len n rest wd hwd => simp [isend, wd, hwd]
  | case4 len n rest wd hwd ih =>
    rw [isend, if_neg hwd]
    simp only [wd] at ih ⊢
    omega
  | case5 len rest ih => simpa [isend] using ih
  | case6 len rest => simp [isend]
  | case7 len rest => simp [isend]

/-- A socket that is full has not taken everything. -/
theorem isend_full (h : (isend script len).2 = true) : (isend script len).1 < len := by
  induction script, len using isend.induct with
  | case1 script => simp [isend] at h
  | case2 len => simp [isend]
  | case3 len n rest wd hwd => simp [isend, wd, hwd] at h
  | case4 len n rest wd hwd ih =>
    rw [isend, if_neg hwd] at h ⊢
    have := ih h
    simp only [wd] at this ⊢
    omega
  | case5 len rest ih =>
    rw [isend] at h ⊢
    exact ih h
  | case6 len rest => simp [isend]
  | case7 len rest => simp [isend] at h

end Loop

section Calls
variable {x : TcpConn} {script : List Wrote} {channel : Channel} {bytes : List UInt8}

theorem absorb_effect (hx : x.output_.Ok) {buf : Buffer} (hbuf : buf.Ok) :
    (x.absorb buf).1.Ok ∧ (x.absorb buf).1.content = [] ∧
      (x.absorb buf).2.output_.Ok ∧
      (x.absorb buf).2.output_.content = x.output_.content ++ buf.content := by
  obtain ⟨⟨hok, hcontent⟩, hrok, hrest⟩ := hx.absorb hbuf
  exact ⟨hrok, hrest, hok, hcontent⟩

theorem isend_zero (script : List Wrote) : isend script 0 = (0, false) := by
  cases script <;> simp [isend]

theorem sendRest_effect (script : List Wrote) {r : Buffer × TcpConn} (hr : r.1.Ok) :
    let s := isend script r.1.content.length
    let r' := TcpConn.sendRest script r
    r'.1.Ok ∧ r'.1.content = r.1.content.drop s.1 ∧
      r'.2.written = r.2.written ++ r.1.content.take s.1 ∧
      r'.2.channel_ = (if s.2 then some { writeEnabled := true } else r.2.channel_) ∧
      r'.2.output_ = r.2.output_ ∧ r'.2.stage = r.2.stage ∧
      r'.2.accepted = r.2.accepted := by
  intro s r'
  by_cases hz : r.1.size = 0
  · have hsame : r' = r := if_neg (by simpa using hz)
    have hnone := hr.size_eq_zero.mp hz
    have hs : s = (0, false) := by
      rw [← isend_zero script]
      exact congrArg (isend script) (by rw [hnone]; rfl)
    rw [hsame, hs, hnone]
    simpa [hnone] using hr
  · have hnew : r' = (r.1.consume s.1, (r.2.isend script r.1.content).2) :=
      if_pos (by simpa using hz)
    have hle : s.1 ≤ r.1.size := hr.content_length ▸ isend_le script r.1.content.length
    obtain ⟨hok, hcontent⟩ := hr.consume hle
    rw [hnew]
    exact ⟨hok, hcontent, rfl, rfl, rfl, rfl, rfl⟩

theorem queueRest_effect {r : Buffer × TcpConn} (hr : r.1.Ok) (ho : r.2.output_.Ok) :
    let x' := (TcpConn.queueRest r).2
    x'.output_.Ok ∧ x'.output_.content = r.2.output_.content ++ r.1.content ∧
      x'.channel_ = (if r.1.content = [] then r.2.channel_ else some { writeEnabled := true }) ∧
      x'.written = r.2.written ∧ x'.stage = r.2.stage ∧ x'.accepted = r.2.accepted := by
  intro x'
  by_cases hz : r.1.size = 0
  · have hsame : x' = r.2 := congrArg Prod.snd (if_neg (by simpa using hz))
    have hnone := hr.size_eq_zero.mp hz
    rw [hsame, hnone]
    simpa using ho
  · have hnew : x' = (r.2.absorb r.1).2.enableWrite true :=
      congrArg Prod.snd (if_pos (by simpa using hz))
    obtain ⟨-, -, hok, hcontent⟩ := absorb_effect ho hr
    have hsome : r.1.content ≠ [] := mt hr.size_eq_zero.mpr hz
    rw [hnew, if_neg hsome]
    exact ⟨hok, hcontent, rfl, rfl, rfl, rfl⟩

theorem sendBuffer_watched (script : List Wrote) (hx : x.output_.Ok) {buf : Buffer}
    (hbuf : buf.Ok) (hc : x.channel_ = some { writeEnabled := true }) :
    (x.sendBuffer script buf).2 =
      ({ x with accepted := x.accepted ++ buf.content }.absorb buf).2 := by
  obtain ⟨hok, hrest, -⟩ := absorb_effect
    (x := { x with accepted := x.accepted ++ buf.content }) hx hbuf
  have hzero := hok.size_eq_zero.mpr hrest
  obtain ⟨state_, channel_, output_, writing, written, accepted⟩ := x
  cases hc
  have hsend : TcpConn.sendBuffer script buf
      ⟨state_, some ⟨true⟩, output_, writing, written, accepted⟩ =
      TcpConn.queueRest (TcpConn.sendRest script (TcpConn.absorb buf
        ⟨state_, some ⟨true⟩, output_, writing, written, accepted ++ buf.content⟩)) := rfl
  rw [hsend, TcpConn.sendRest, if_neg (by simpa using hzero), TcpConn.queueRest,
    if_neg (by simpa using hzero)]

theorem sendBuffer_idle (script : List Wrote) (hx : x.output_.Ok) {buf : Buffer} (hbuf : buf.Ok)
    (hc : x.channel_ = some { writeEnabled := false }) :
    let k := (isend script buf.content.length).1
    let y := (x.sendBuffer script buf).2
    y.output_.Ok ∧ y.stage = x.stage ∧ y.accepted = x.accepted ++ buf.content ∧
      y.written = x.written ++ buf.content.take k ∧
      y.output_.content = x.output_.content ++ buf.content.drop k ∧
      (buf.content.drop k ≠ [] → y.channel_ = some { writeEnabled := true }) ∧
      (buf.content.drop k = [] → y.channel_ = x.channel_) := by
  intro k y
  obtain ⟨state_, channel_, output_, writing, written, accepted⟩ := x
  cases hc
  have hsend : y = (TcpConn.queueRest (TcpConn.sendRest script (buf,
      ⟨state_, some ⟨false⟩, output_, writing, written, accepted ++ buf.content⟩))).2 := rfl
  obtain ⟨hok, hcontent, hwritten, hchannel, hout, hstate, haccepted⟩ :=
    sendRest_effect script
      (r := (buf, ⟨state_, some ⟨false⟩, output_, writing, written, accepted ++ buf.content⟩)) hbuf
  obtain ⟨hok', hcontent', hchannel', hwritten', hstate', haccepted'⟩ :=
    queueRest_effect hok (hout ▸ hx)
  rw [hsend, hcontent', hwritten', hstate', haccepted', hchannel', hout, hcontent, hwritten,
    hstate, haccepted, hchannel]
  refine ⟨hok', rfl, rfl, rfl, rfl, fun hne => if_neg hne, fun hnone => ?_⟩
  rw [if_pos hnone]
  -- a socket that is full has left something
  refine if_neg fun hfull => ?_
  have hlt := isend_full hfull
  rw [List.drop_eq_nil_iff] at hnone
  simp only at hlt
  omega

theorem flush_effect (script : List Wrote) (hx : x.output_.Ok) :
    let s := isend script x.output_.content.length
    let y := x.flush script
    y.output_.Ok ∧ y.output_.content = x.output_.content.drop s.1 ∧
      y.written = x.written ++ x.output_.content.take s.1 ∧
      y.channel_ = (if s.2 then some { writeEnabled := true } else x.channel_) ∧
      y.stage = x.stage ∧ y.accepted = x.accepted := by
  intro s y
  have hle : s.1 ≤ x.output_.size := hx.content_length ▸ isend_le script x.output_.content.length
  obtain ⟨hok, hcontent⟩ := hx.consume hle
  exact ⟨hok, hcontent, rfl, rfl, rfl, rfl⟩

theorem sendOutput_effect (script : List Wrote) (hx : x.output_.Ok)
    (hc : x.channel_ = some channel) :
    let k := (isend script x.output_.content.length).1
    let y := x.sendOutput script
    y.output_.Ok ∧ y.output_.content = x.output_.content.drop k ∧
      y.written = x.written ++ x.output_.content.take k ∧
      (x.output_.content.drop k ≠ [] → y.channel_ = some { writeEnabled := true }) ∧
      (x.output_.content.drop k = [] → y.channel_ = x.channel_) ∧
      y.stage = x.stage ∧ y.accepted = x.accepted := by
  intro k y
  have hy : y = x.sendOutput script := rfl
  simp only [TcpConn.sendOutput, hc] at hy
  by_cases hz : x.output_.size = 0
  · have hnone := hx.size_eq_zero.mp hz
    have hsame : y = x := by simpa [hz] using hy
    rw [hsame, hnone]
    simpa [hnone] using hx
  · rw [if_pos hz] at hy
    obtain ⟨hok, hcontent, hwritten, hchannel, hstate, haccepted⟩ := flush_effect script hx
    by_cases hrest : x.output_.content.drop k = []
    · have hz' : (x.flush script).output_.size = 0 := hok.size_eq_zero.mpr (hcontent.trans hrest)
      have hfull : (isend script x.output_.content.length).2 ≠ true := by
        intro hfull
        have hlt := isend_full hfull
        rw [List.drop_eq_nil_iff] at hrest
        omega
      rw [if_neg (by simpa using hz')] at hy
      rw [hy, hchannel, if_neg hfull]
      exact ⟨hok, hcontent, hwritten, fun hne => absurd hrest hne, fun _ => rfl, hstate, haccepted⟩
    · have hz' : (x.flush script).output_.size ≠ 0 := by
        rw [ne_eq, hok.size_eq_zero, hcontent]
        exact hrest
      rw [if_pos hz'] at hy
      rw [hy]
      exact ⟨hok, hcontent, hwritten, fun _ => rfl, fun hnone => absurd hnone hrest, hstate,
        haccepted⟩

theorem send_effect (script : List Wrote) (bytes : List UInt8) (hx : x.output_.Ok)
    (hc : x.channel_ = some channel) :
    let s := if x.output_.content = [] then isend script bytes.length else (0, false)
    let y := x.send script bytes
    y.output_.Ok ∧ y.output_.content = x.output_.content ++ bytes.drop s.1 ∧
      y.written = x.written ++ bytes.take s.1 ∧
      y.channel_ = (if s.2 then some { writeEnabled := true } else x.channel_) ∧
      y.stage = x.stage ∧ y.accepted = x.accepted ++ bytes := by
  intro s y
  have hy : y = x.send script bytes := rfl
  let x₁ : Nat × TcpConn :=
    if x.output_.empty then
      { x with accepted := x.accepted ++ bytes }.isend script bytes
    else (0, { x with accepted := x.accepted ++ bytes })
  have hx₁ : x₁.1 = s.1 ∧ x₁.2.output_ = x.output_ ∧ x₁.2.written = x.written ++ bytes.take s.1 ∧
      x₁.2.channel_ = (if s.2 then some { writeEnabled := true } else x.channel_) ∧
      x₁.2.stage = x.stage ∧ x₁.2.accepted = x.accepted ++ bytes := by
    by_cases he : x.output_.content = []
    · have hs : s = isend script bytes.length := if_pos he
      have h₁ : x₁ = { x with accepted := x.accepted ++ bytes }.isend script bytes :=
        if_pos (hx.empty_iff.mpr he)
      rw [h₁, hs]
      exact ⟨rfl, rfl, rfl, rfl, rfl, rfl⟩
    · have hs : s = (0, false) := if_neg he
      have h₁ : x₁ = (0, { x with accepted := x.accepted ++ bytes }) :=
        if_neg (mt hx.empty_iff.mp he)
      rw [h₁, hs]
      simp [TcpConn.stage]
  obtain ⟨hfst, hout, hwritten, hchannel, hstate, haccepted⟩ := hx₁
  have hsend : y = if bytes.drop x₁.1 ≠ [] then
      { x₁.2 with output_ := x₁.2.output_.append (bytes.drop x₁.1) } else x₁.2 := by
    rw [hy, TcpConn.send]
    split
    · rename_i hnone
      rw [hc] at hnone
      cases hnone
    · rfl
  rw [hfst, hout] at hsend
  by_cases hrest : bytes.drop s.1 = []
  · rw [if_neg (by simpa using hrest)] at hsend
    rw [hsend, hrest, List.append_nil, hout]
    exact ⟨hx, rfl, hwritten, hchannel, hstate, haccepted⟩
  · rw [if_pos hrest] at hsend
    obtain ⟨hok, hcontent⟩ := hx.append (bytes.drop s.1)
    rw [hsend]
    exact ⟨hok, hcontent, hwritten, hchannel, hstate, haccepted⟩

end Calls

end LazyNet.ConnOutput
