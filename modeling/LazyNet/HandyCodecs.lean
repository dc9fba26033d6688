import LazyNet.ConnOutput
import LazyNet.DSServer
import LazyNet.Lib.Decoders

/-! The codecs of handy, and the receiving side of a `TcpConn` that reads messages with one. -/
namespace LazyNet.HandyCodecs
open LazyNet.Words LazyNet.HandyBuffer LazyNet.Decoders
open LazyNet.DSServer (readInput)
open LazyNet.MsAgent (State)

/-- Where a slice of the data starts, and the size that it gives. -/
structure Slice where
  start : Nat := 0
  size : Nat := 0
  deriving DecidableEq, Repr

/-- What is read through the slice, or nothing when it reaches past the data. -/
def Slice.read (data : List UInt8) (x : Slice) : Option (List UInt8) :=
  if x.start + x.size ≤ data.length then some ((data.drop x.start).take x.size) else none

def toInt (n : Nat) : Int := Int.bmod n 4294967296

def toSize (n : Int) : Nat := (n % 18446744073709551616).toNat

structure CodecBase where
  tryDecode : List UInt8 → Int × Slice
  encode : List UInt8 → Buffer → Buffer

namespace LineCodec

/-- The loop from `i` on, where `rest` is what the data holds from there. -/
def scan (data : List UInt8) : List UInt8 → Nat → Int × Slice
  | [], _ => (0, {})
  | c :: rest, i =>
    if c = 10 then
      if 0 < i ∧ data[i - 1]? = some 13 then (toInt (i + 1), { size := i - 1 })
      else (toInt (i + 1), { size := i })
    else scan data rest (i + 1)

def tryDecode (data : List UInt8) : Int × Slice :=
  if data.length = 1 ∧ data[0]? = some 4 then (1, { size := 1 }) else scan data data 0

def encode (msg : List UInt8) (buf : Buffer) : Buffer := (buf.append msg).append [13, 10]

end LineCodec

namespace LengthCodec

def magic : List UInt8 := stringBytes "mBdT"

def length (data : List UInt8) : Int :=
  (htonl (load32 (data.getD 4 0) (data.getD 5 0) (data.getD 6 0) (data.getD 7 0))).toInt32.toInt

def tryDecode (data : List UInt8) : Int × Slice :=
  if data.length < 8 then (0, {})
  else
    let len := length data
    if 1024 * 1024 < len ∨ data.take 4 ≠ magic then (-1, {})
    else if len + 8 ≤ toInt data.length then (len + 8, { start := 8, size := toSize len })
    else (0, {})

def encode (msg : List UInt8) (buf : Buffer) : Buffer :=
  ((buf.append magic).appendValue (htonl (UInt32.ofNat msg.length))).append msg

end LengthCodec

def lineCodec : CodecBase := ⟨LineCodec.tryDecode, LineCodec.encode⟩
def lengthCodec : CodecBase := ⟨LengthCodec.tryDecode, LengthCodec.encode⟩

/-- The receiving side of a connection on which `onMsg` was called. -/
structure TcpConn where
  state_ : State := .Connected
  /-- `channel_->fd()` is not -1 -/
  fdOpen : Bool := true
  input_ : Buffer := {}
  /-- what the callback was called with; nothing stands for a slice that reaches past the input -/
  received : List (Option (List UInt8)) := []
  deriving DecidableEq, Repr

namespace TcpConn

/-- The callback that `onMsg` sets. Closing the channel runs `handleRead` again, which finds the
descriptor gone and ends in `cleanup`. -/
def onMsg (codec : CodecBase) : Nat → TcpConn → TcpConn
  | 0, con => con
  | fuel + 1, con =>
    let r := codec.tryDecode con.input_.content
    if r.1 < 0 then
      if con.fdOpen then
        let con := { con with fdOpen := false, input_ := con.input_.makeReadRoom }
        { (if con.input_.size ≠ 0 then onMsg codec fuel con else con) with state_ := .Closed }
      else con
    else if r.1 = 0 then con
    else
      onMsg codec fuel { con with
        received := con.received ++ [r.2.read con.input_.content]
        input_ := con.input_.consume (toSize r.1) }

def readcb (codec : CodecBase) (con : TcpConn) : TcpConn :=
  if con.input_.size ≠ 0 then onMsg codec (con.input_.size + 2) con else con

def cleanup (codec : CodecBase) (con : TcpConn) : TcpConn :=
  { con.readcb codec with state_ := .Closed, fdOpen := false }

end TcpConn

structure Arrival where
  bytes : List UInt8
  /-- the peer has closed the connection behind them, or it is broken -/
  ended : Bool := false
  deriving DecidableEq, Repr

namespace TcpConn

def handleRead (codec : CodecBase) (con : TcpConn) (a : Arrival) : TcpConn :=
  if con.state_ = .Connected then
    let con := { con with input_ := readInput (a.bytes.length + 1) con.input_ a.bytes }
    if a.ended then con.cleanup codec else con.readcb codec
  else con

end TcpConn

def reads (codec : CodecBase) (arrivals : List Arrival) : TcpConn :=
  arrivals.foldl (TcpConn.handleRead codec) {}

def stream : List Arrival → List UInt8
  | [] => []
  | a :: arrivals => if a.ended then a.bytes else a.bytes ++ stream arrivals

def Ended (arrivals : List Arrival) : Prop := ∃ a ∈ arrivals, a.ended = true

instance (arrivals : List Arrival) : Decidable (Ended arrivals) :=
  inferInstanceAs (Decidable (∃ a ∈ arrivals, a.ended = true))

/-- At most a gigabyte is there to be read at a time. -/
def Bursts (arrivals : List Arrival) : Prop := ∀ a ∈ arrivals, a.bytes.length ≤ 1073741824

def outcome (codec : CodecBase) (data : List UInt8) : Outcome (Option (List UInt8)) :=
  let r := codec.tryDecode data
  if r.1 < 0 then .bad
  else if r.1 = 0 then .more
  else .message (toSize r.1) (r.2.read data)

theorem toInt_of_lt {n : Nat} (h : n < 2147483648) : toInt n = n := by
  unfold toInt
  apply Int.bmod_eq_of_le
  · omega
  · omega

section Reading
variable {codec : CodecBase} {con : TcpConn}

theorem consume_exp (x : Buffer) (len : Nat) : (x.consume len).exp_ = x.exp_ := by
  unfold Buffer.consume
  simp only
  split_ifs <;> rfl

theorem onMsg_more (h : outcome codec con.input_.content = .more) (fuel : Nat) :
    con.onMsg codec fuel = con := by
  cases fuel with
  | zero => rfl
  | succ fuel =>
    rw [outcome] at h
    split_ifs at h with hneg hzero
    simp only [TcpConn.onMsg, if_neg hneg, if_pos hzero]

theorem onMsg_gone (h : outcome codec con.input_.content = .bad) (hfd : con.fdOpen = false)
    (fuel : Nat) : con.onMsg codec fuel = con := by
  cases fuel with
  | zero => rfl
  | succ fuel =>
    rw [outcome] at h
    split_ifs at h with hneg hzero
    simp [TcpConn.onMsg, if_pos hneg, hfd]

theorem onMsg_bad (hok : con.input_.Ok) (h : outcome codec con.input_.content = .bad)
    (hfd : con.fdOpen = true) (fuel : Nat) :
    con.onMsg codec (fuel + 1) = { con with
      fdOpen := false, input_ := con.input_.makeReadRoom, state_ := .Closed } := by
  have hneg : (codec.tryDecode con.input_.content).1 < 0 := by
    rw [outcome] at h
    split_ifs at h with hneg hzero
    exact hneg
  let con₁ : TcpConn := { con with fdOpen := false, input_ := con.input_.makeReadRoom }
  have hsame : con₁.input_.content = con.input_.content := hok.makeReadRoom.2
  have hagain : con₁.onMsg codec fuel = con₁ := onMsg_gone (hsame ▸ h) rfl fuel
  simp only [TcpConn.onMsg, if_pos hneg, if_pos hfd]
  rw [hagain, ite_self]

theorem onMsg_message {n : Nat} {m : Option (List UInt8)}
    (h : outcome codec con.input_.content = .message n m) (fuel : Nat) :
    con.onMsg codec (fuel + 1) = TcpConn.onMsg codec fuel { con with
      received := con.received ++ [m], input_ := con.input_.consume n } := by
  rw [outcome] at h
  split_ifs at h with hneg hzero
  cases h
  simp only [TcpConn.onMsg, if_neg hneg, if_neg hzero]

/-- What the callback leaves when the input decodes to the messages `ms` and the end `e`. -/
structure Read (con con' : TcpConn) (ms : List (Option (List UInt8))) (e : Ending UInt8) :
    Prop where
  received : con'.received = con.received ++ ms
  state : con'.state_ = if e = .stopped ∧ con.fdOpen = true then .Closed else con.state_
  waiting : ∀ r, e = .waiting r → con'.fdOpen = con.fdOpen ∧ con'.input_.Ok ∧
    con'.input_.content = r ∧ con'.input_.exp_ = con.input_.exp_

theorem Read.same (hok : con.input_.Ok) : Read con con [] (.waiting con.input_.content) :=
  ⟨(List.append_nil _).symm, by simp, fun r hr => by cases hr; exact ⟨rfl, hok, rfl, rfl⟩⟩

variable {dec : List UInt8 → Outcome (Option (List UInt8))} {P Q : List UInt8 → Prop}

structure Agrees (codec : CodecBase) (dec : List UInt8 → Outcome (Option (List UInt8)))
    (Q : List UInt8 → Prop) : Prop where
  outcome : ∀ s, Q s → outcome codec s = dec s
  rest : ∀ s n m, Q s → dec s = .message n m → Q (s.drop n)

theorem onMsg_decodes (hd : Stable dec P) (ha : Agrees codec dec Q) (hok : con.input_.Ok)
    (hP : P con.input_.content) (hQ : Q con.input_.content)
    {ms : List (Option (List UInt8))} {e : Ending UInt8}
    (h : Decodes dec con.input_.content ms e) {fuel : Nat} (hfuel : con.input_.size < fuel) :
    Read con (con.onMsg codec fuel) ms e := by
  generalize hs : con.input_.content = s at h
  have hsame := ha.outcome _ hQ
  rw [hs] at hsame
  induction h generalizing con fuel with
  | more hdec =>
    subst hs
    rw [onMsg_more (hsame.trans hdec)]
    exact .same hok
  | bad hdec =>
    subst hs
    obtain ⟨fuel, rfl⟩ := Nat.exists_eq_succ_of_ne_zero (Nat.ne_of_gt (Nat.zero_lt_of_lt hfuel))
    cases hfd : con.fdOpen with
    | true =>
      rw [onMsg_bad hok (hsame.trans hdec) hfd]
      exact ⟨(List.append_nil _).symm, by simp [hfd], fun r hr => by cases hr⟩
    | false =>
      rw [onMsg_gone (hsame.trans hdec) hfd]
      exact ⟨(List.append_nil _).symm, by simp [hfd], fun r hr => by cases hr⟩
  | message hdec hrest ih =>
    rename_i s n m ms e
    subst hs
    obtain ⟨fuel, rfl⟩ := Nat.exists_eq_succ_of_ne_zero (Nat.ne_of_gt (Nat.zero_lt_of_lt hfuel))
    have hn := hd.fits _ n m hP hdec
    rw [hok.content_length] at hn
    have hcon := hok.consume hn.2
    have hQ' := ha.rest _ n m hQ hdec
    let con₁ : TcpConn := { con with
      received := con.received ++ [m], input_ := con.input_.consume n }
    have hless : con₁.input_.size < fuel := by
      have hsize : con₁.input_.size = con.input_.size - n := hok.size_consume hn.2
      omega
    have hi : Read con₁ (con₁.onMsg codec fuel) ms e := ih hcon.1
      (hcon.2 ▸ hd.rest _ n m hP hdec) (hcon.2 ▸ hQ') hless hcon.2 (ha.outcome _ hQ')
    rw [onMsg_message (hsame.trans hdec)]
    refine ⟨hi.received.trans (List.append_assoc _ _ _), hi.state, fun r hr => ?_⟩
    obtain ⟨hfd, hok', hc, hexp⟩ := hi.waiting r hr
    exact ⟨hfd, hok', hc, hexp.trans (consume_exp _ n)⟩

theorem readcb_decodes (hd : Stable dec P) (ha : Agrees codec dec Q) (hnil : dec [] = .more)
    (hok : con.input_.Ok) (hP : P con.input_.content) (hQ : Q con.input_.content)
    {ms : List (Option (List UInt8))} {e : Ending UInt8}
    (h : Decodes dec con.input_.content ms e) : Read con (con.readcb codec) ms e := by
  rw [TcpConn.readcb]
  split_ifs with hz
  · exact onMsg_decodes hd ha hok hP hQ h (by omega)
  · have hc : con.input_.content = [] := hok.size_eq_zero.mp (by simpa using hz)
    have hmore : dec con.input_.content = .more := hc ▸ hnil
    obtain ⟨rfl, rfl⟩ := h.unique (.more hmore)
    exact .same hok

structure Follows (dec : List UInt8 → Outcome (Option (List UInt8))) (con : TcpConn)
    (s : List UInt8) (e : Ending UInt8) : Prop where
  decodes : Decodes dec s con.received e
  connected : ∀ r, e = .waiting r → con.state_ = .Connected ∧ con.fdOpen = true ∧
    con.input_.Ok ∧ con.input_.content = r ∧ 0 < con.input_.exp_
  closed : e = .stopped → con.state_ = .Closed

theorem follows_start (hnil : dec [] = .more) : Follows dec {} [] (.waiting []) :=
  ⟨.more hnil, fun r hr => by cases hr; exact ⟨rfl, rfl, Buffer.ok_default, rfl, by decide⟩,
    fun hstop => by cases hstop⟩

variable {s bytes : List UInt8} {e : Ending UInt8}

theorem Follows.input (hd : Stable dec P) (ha : Agrees codec dec Q) (hnil : dec [] = .more)
    {r : List UInt8} (h : Follows dec con s (.waiting r)) (hP : P (s ++ bytes))
    (hQ : Q (r ++ bytes)) :
    let con₁ := { con with input_ := readInput (bytes.length + 1) con.input_ bytes }
    ∃ e', Follows dec (con₁.readcb codec) (s ++ bytes) e' := by
  intro con₁
  obtain ⟨hstate, hfd, hok, hc, hexp⟩ := h.connected r rfl
  obtain ⟨hok₁, hc₁, hexp₁⟩ :=
    DSServer.readInput_ok hok hexp (Nat.lt_succ_self bytes.length)
  have hP₁ : P (r ++ bytes) := hd.waiting h.decodes hP
  have hcontent : con₁.input_.content = r ++ bytes := by rw [← hc]; exact hc₁
  obtain ⟨ms, e', hrest⟩ := hd.decodes hP₁
  have hread : Read con₁ (con₁.readcb codec) ms e' :=
    readcb_decodes hd ha hnil hok₁ (hcontent ▸ hP₁) (hcontent ▸ hQ) (hcontent ▸ hrest)
  refine ⟨e', ?_, ?_, ?_⟩
  · rw [hread.received]
    exact hd.append h.decodes hP hrest
  · intro r' hr'
    obtain ⟨hfd', hok', hc', hexp'⟩ := hread.waiting r' hr'
    refine ⟨?_, hfd'.trans hfd, hok', hc', hexp' ▸ hexp₁⟩
    rw [hread.state, hr']
    simpa using hstate
  · intro hstop
    rw [hread.state]
    exact if_pos ⟨hstop, hfd⟩

theorem handleRead_gone (h : con.state_ ≠ .Connected) (arrivals : List Arrival) :
    arrivals.foldl (TcpConn.handleRead codec) con = con := by
  induction arrivals with
  | nil => rfl
  | cons a arrivals ih => rw [List.foldl_cons, TcpConn.handleRead, if_neg h, ih]

/-- Whatever waits when one of the arrivals comes, it and the arrival are data of `Q`. -/
def Suits (dec : List UInt8 → Outcome (Option (List UInt8))) (Q : List UInt8 → Prop)
    (s : List UInt8) (arrivals : List Arrival) : Prop :=
  ∀ u ms r, Decodes dec u ms (.waiting r) →
    ∀ a ∈ arrivals, u ++ a.bytes <+: s → Q (r ++ a.bytes)

theorem Follows.arrivals (hd : Stable dec P) (ha : Agrees codec dec Q) (hnil : dec [] = .more)
    (arrivals : List Arrival) (h : Follows dec con s e) (hP : P (s ++ stream arrivals))
    (hQ : Suits dec Q (s ++ stream arrivals) arrivals) :
    let con' := arrivals.foldl (TcpConn.handleRead codec) con
    ∃ e', Decodes dec (s ++ stream arrivals) con'.received e' ∧
      con'.state_ = (if e' = .stopped ∨ Ended arrivals then .Closed else .Connected) ∧
      ∀ r, e' = .waiting r → ¬ Ended arrivals → con'.input_.content = r := by
  induction arrivals generalizing con s e with
  | nil =>
    refine ⟨e, by simpa [stream] using h.decodes, ?_, fun r hr _ => (h.connected r hr).2.2.2.1⟩
    cases e with
    | waiting r => simpa [Ended] using (h.connected r rfl).1
    | stopped => simpa using h.closed rfl
  | cons a arrivals ih =>
    cases e with
    | stopped =>
      have hclosed := h.closed rfl
      intro con'
      have hsame : con' = con := handleRead_gone (by simp [hclosed]) (a :: arrivals)
      rw [hsame]
      exact ⟨.stopped, hd.append_stopped h.decodes hP, by simpa using hclosed,
        fun r hr => by cases hr⟩
    | waiting r =>
      have hstate := (h.connected r rfl).1
      have hinitial : s ++ a.bytes <+: s ++ stream (a :: arrivals) := by
        rw [stream]
        split_ifs
        · exact List.prefix_rfl
        · rw [← List.append_assoc]
          exact List.prefix_append _ _
      have hdata : Q (r ++ a.bytes) := hQ s _ r h.decodes a List.mem_cons_self hinitial
      rw [List.foldl_cons, TcpConn.handleRead, if_pos hstate]
      cases hend : a.ended with
      | true =>
        have hstream : stream (a :: arrivals) = a.bytes := by rw [stream, if_pos hend]
        have hended : Ended (a :: arrivals) := ⟨a, List.mem_cons_self, hend⟩
        rw [hstream] at hP ⊢
        obtain ⟨e', h'⟩ := h.input hd ha hnil hP hdata
        rw [if_pos rfl, handleRead_gone (by simp [TcpConn.cleanup])]
        exact ⟨e', h'.decodes, by simp [TcpConn.cleanup, hended], fun _ _ hn => absurd hended hn⟩
      | false =>
        have hstream : stream (a :: arrivals) = a.bytes ++ stream arrivals := by
          rw [stream, if_neg (by simp [hend])]
        have hended : Ended (a :: arrivals) ↔ Ended arrivals := by simp [Ended, hend]
        rw [hstream, ← List.append_assoc] at hP hQ ⊢
        obtain ⟨e', h'⟩ := h.input hd ha hnil (hd.initial _ _ hP) hdata
        simp only [if_neg Bool.false_ne_true, hended]
        exact ih h' hP fun u ms r hdec a' ha' => hQ u ms r hdec a' (.tail a ha')

theorem reads_decodes (hd : Stable dec P) (ha : Agrees codec dec Q) (hnil : dec [] = .more)
    (arrivals : List Arrival) (hP : P (stream arrivals))
    (hQ : Suits dec Q (stream arrivals) arrivals) :
    ∃ e, Decodes dec (stream arrivals) (reads codec arrivals).received e ∧
      (reads codec arrivals).state_ =
        (if e = .stopped ∨ Ended arrivals then .Closed else .Connected) ∧
      ∀ r, e = .waiting r → ¬ Ended arrivals → (reads codec arrivals).input_.content = r :=
  (follows_start hnil).arrivals hd ha hnil arrivals hP hQ

end Reading

end LazyNet.HandyCodecs
