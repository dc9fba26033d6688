import LazyNet.AdminLoop
import LazyNet.FrameBoundary

/-! What the server does over whole runs: the manager goes through the calls that the messages and
the timer bring about, in their order, and nothing is sent before there is a connection. -/
namespace LazyNet.AdminLoop
open LazyNet.Words LazyNet.Tables LazyNet.HandyBuffer LazyNet.ExternalMsgCodec
open LazyNet.MsDsProtocol LazyNet.DSServer LazyNet.DecodeBounds LazyNet.Streams
open LazyNet.MsAgent LazyNet.StepRuns

section Agents
variable {Message : Type} {pb : Protobuf Message} {register : Message} {junk : Nat → UInt8}
  {l l' : Link Message} {a a' : Agent Message} {action : MsAgent.Action Message}

theorem onDrained_handled (h : onDrained pb junk l = .ok l') :
    ∃ msgs, l'.handled = l.handled ++ msgs := by
  by_cases hsz : l.input_.size < 20
  · rw [onDrained_short hsz] at h
    cases h
    exact ⟨[], (List.append_nil _).symm⟩
  · rw [onDrained_onRead hsz, onRead_decoded hsz] at h
    simp only at h
    split_ifs at h
    · cases hm : (decode pb junk l.registry l.input_ {}).msg with
      | none =>
        rw [hm] at h
        cases h
      | some m =>
        rw [hm] at h
        cases h
        exact ⟨_, rfl⟩
    · cases h
      exact ⟨[], (List.append_nil _).symm⟩

theorem advance_handled (h : MsAgent.advance pb register action a = .ok a') :
    ∃ msgs, a'.link.handled = a.link.handled ++ msgs := by
  cases advance_cases h with
  | quiet => exact ⟨[], (List.append_nil _).symm⟩
  | established n hs => exact ⟨[], by simp [Agent.established, Agent.encode]⟩
  | refused junk hs link hl => exact onDrained_handled hl
  | received bytes junk hs link hl => exact onDrained_handled (l := (a.readAll bytes).link) hl
  | dropped bytes junk hs link hl => exact onDrained_handled (l := (a.readAll bytes).link) hl
  | writable n hs => exact ⟨[], by simp⟩
  | timer hs => exact ⟨[], (List.append_nil _).symm⟩
  | send call n => exact ⟨[], by simp [Agent.encode]⟩

@[simp] theorem sendOutput_msConn (n : Nat) : (a.sendOutput n).msConn_ = a.msConn_ := by
  simp only [Agent.sendOutput]
  split
  · rfl
  · split_ifs <;> rfl

@[simp] theorem handleWrite_msConn (n : Nat) : (a.handleWrite n).msConn_ = a.msConn_ := by
  simp only [Agent.handleWrite]
  split_ifs <;> rfl

theorem advance_msConn (h : MsAgent.advance pb register action a = .ok a') (ha : a.msConn_ = true) :
    a'.msConn_ = true := by
  cases advance_cases h with
  | quiet => exact ha
  | established n hs => rfl
  | refused junk hs link hl => exact ha
  | received bytes junk hs link hl => exact ha
  | dropped bytes junk hs link hl => exact ha
  | writable n hs => simpa using ha
  | timer hs => exact ha
  | send call n => simpa [Agent.encode] using ha

theorem cleanup_error {f : MsAgent.Fault} (h : a.cleanup pb junk = .error f) :
    f = .dispatch .nullMessage := by
  simp only [Agent.cleanup] at h
  split at h
  case h_1 fault _ =>
    cases fault
    cases h
    rfl
  case h_2 => cases h

theorem advance_error {f : MsAgent.Fault} (h : MsAgent.advance pb register action a = .error f)
    (hsend : ∀ call n, action = .send call n → a.msConn_ = true) :
    f = .dispatch .nullMessage := by
  cases action with
  | established n =>
    rw [MsAgent.advance] at h
    split_ifs at h
  | refused junk =>
    rw [MsAgent.advance] at h
    split_ifs at h
    exact cleanup_error h
  | received bytes junk =>
    rw [MsAgent.advance] at h
    split_ifs at h
    split at h
    case h_1 fault _ =>
      cases fault
      cases h
      rfl
    case h_2 => cases h
  | dropped bytes junk =>
    rw [MsAgent.advance] at h
    split_ifs at h
    exact cleanup_error h
  | writable n =>
    rw [MsAgent.advance] at h
    split_ifs at h
  | timer =>
    rw [MsAgent.advance] at h
    split_ifs at h
  | send call n =>
    rw [MsAgent.advance, if_pos (hsend call n rfl)] at h
    cases h

end Agents

section Manager
variable {ret : Nat → Int} {m m' : StreamMgr}

def callsOf (msgs : List (BaseHead × MsDsMessage)) : List Call :=
  msgs.filterMap fun p => callOf p.1 p.2

theorem run_handle {p : Parser} (hp : p.Generated) (ret : Nat → Int)
    (msgs : List (BaseHead × MsDsMessage)) (m : StreamMgr) :
    run (handle p) msgs m = (run (Streams.step ret) (callsOf msgs) m).mapError .manager := by
  induction msgs generalizing m with
  | nil => rfl
  | cons q msgs ih =>
    rw [run, handle_callOf hp ret q.1 q.2 m, callsOf, List.filterMap_cons]
    cases hc : callOf q.1 q.2 with
    | none => exact ih m
    | some call =>
      simp only [run]
      cases Streams.step ret call m with
      | error fault => rfl
      | ok m' => exact ih m'

theorem step_error (hm : StreamMgr.Linked m) {call : Call} {f : Streams.Fault}
    (h : Streams.step ret call m = .error f) : f = .nullSession := by
  cases call with
  | update msg => cases h
  | check tm_wday tm_hour =>
    obtain ⟨m', hrun, -⟩ := StreamMgr.checkStorePlan_turns ret hm tm_wday tm_hour
    rw [Streams.step, hrun] at h
    cases h
  | ack s p1 p2 err =>
    have hcall : ∀ (m : StreamMgr) (id : UInt64) (task : Nat → Sessions.StoreTask)
        (f : Streams.Fault), m.callSession id task = .error f → f = .nullSession := by
      intro m id task f hf
      rw [StreamMgr.callSession] at hf
      split at hf
      · cases hf
        rfl
      · cases hf
    simp only [Streams.step, StreamMgr.startStream] at h
    split_ifs at h with herr
    · simp only [bind, Except.bind] at h
      split at h
      · cases h
        exact hcall _ _ _ _ ‹_›
      · cases h
    · exact hcall _ _ _ _ h

theorem linked_run (hm : StreamMgr.Linked m) {calls : List Call}
    (h : run (Streams.step ret) calls m = .ok m') : StreamMgr.Linked m' :=
  run_inv_of hm (fun _ _ _ hl _ hs => StreamMgr.linked_step hl hs) (meets_true calls m) h

theorem run_step_error (hm : StreamMgr.Linked m) {calls : List Call} {f : Streams.Fault}
    (h : run (Streams.step ret) calls m = .error f) : f = .nullSession := by
  obtain ⟨i, s, hs, -, hf⟩ := run_error (A := fun _ _ => True)
    (fun _ _ _ hl _ hs => StreamMgr.linked_step hl hs) hm (meets_true calls m) h
  exact step_error hs hf

end Manager

section Steps
variable {p : Parser} {ret : Nat → Int} {register : MsDsMessage} {x x' : DSServer}
  {action : MsAgent.Action MsDsMessage}

theorem step_net {event : Event} (h : event.action? = some action) (x : DSServer) :
    step p ret register event x = x.net p register action := by
  cases event with
  | check tm_wday tm_hour takes => cases h
  | _ =>
    cases h
    rfl

theorem action_not_send {event : Event} (h : event.action? = some action)
    (call : EncodeCall MsDsMessage) (n : Nat) : action ≠ .send call n := by
  rintro rfl
  cases event <;> cases h

theorem net_ok (hp : p.Generated) (ret : Nat → Int) (h : x.net p register action = .ok x') :
    ∃ msgs, MsAgent.advance p.toProtobuf register action x.msAgent_ = .ok x'.msAgent_ ∧
      x'.msAgent_.link.handled = x.msAgent_.link.handled ++ msgs ∧
      run (Streams.step ret) (callsOf msgs) x.streamMgr_ = .ok x'.streamMgr_ := by
  rw [DSServer.net] at h
  split_ifs at h
  split at h
  · cases h
  · rename_i agent hagent
    obtain ⟨msgs, hmsgs⟩ := advance_handled hagent
    obtain ⟨m, hm, heq⟩ := map_ok_iff.mp h
    cases heq
    refine ⟨msgs, hagent, hmsgs, ?_⟩
    rw [hmsgs, List.drop_left, run_handle hp ret] at hm
    cases hrun : run (Streams.step ret) (callsOf msgs) x.streamMgr_ with
    | error fault =>
      rw [hrun] at hm
      cases hm
    | ok m' =>
      rw [hrun] at hm
      cases hm
      rfl

theorem check_ok {tm_wday : Fin 7} {tm_hour : Fin 24} {takes : Nat → Nat}
    (h : x.check p ret register tm_wday tm_hour takes = .ok x') :
    x.streamMgr_.checkStorePlan ret tm_wday tm_hour = .ok x'.streamMgr_ ∧
      run (MsAgent.advance p.toProtobuf register)
        (sendAll takes (sends (x'.streamMgr_.log.drop x.streamMgr_.log.length))) x.msAgent_ =
          .ok x'.msAgent_ := by
  rw [DSServer.check] at h
  split at h
  · cases h
  · rename_i m hm
    simp only at h
    split at h
    · cases h
    · rename_i agent hagent
      cases h
      exact ⟨hm, hagent⟩

theorem sendAll_frame (takes : Nat → Nat) {calls : List (EncodeCall ReadyStoreStreamInfo)}
    {a a' : Agent MsDsMessage}
    (h : run (MsAgent.advance p.toProtobuf register) (sendAll takes calls) a = .ok a') :
    a'.link.handled = a.link.handled ∧ a'.link.input_ = a.link.input_ ∧
      a'.msConn_ = a.msConn_ := by
  induction calls generalizing takes a with
  | nil =>
    cases h
    exact ⟨rfl, rfl, rfl⟩
  | cons call calls ih =>
    rw [sendAll, List.mapIdx_cons] at h
    obtain ⟨a₁, hstep, hrest⟩ := run_cons_ok.mp h
    obtain ⟨hhandled, hinput, hconn⟩ := ih (fun i => takes (i + 1)) hrest
    rw [hhandled, hinput, hconn]
    rw [MsAgent.advance] at hstep
    split_ifs at hstep
    cases hstep
    exact ⟨by simp [Agent.encode], by simp [Agent.encode], by simp [Agent.encode]⟩

def isCheck : Call → Bool
  | .check .. => true
  | _ => false

def Event.check? : Event → Option Call
  | .check tm_wday tm_hour _ => some (.check tm_wday tm_hour)
  | _ => none

theorem Event.net_or_check (event : Event) :
    (∃ action, event.action? = some action ∧ event.check? = none) ∨
      ∃ tm_wday tm_hour takes, event = .check tm_wday tm_hour takes := by
  cases event with
  | check tm_wday tm_hour takes => exact .inr ⟨tm_wday, tm_hour, takes, rfl⟩
  | _ => exact .inl ⟨_, rfl, rfl⟩

theorem callsOf_isCheck (msgs : List (BaseHead × MsDsMessage)) :
    ∀ call ∈ callsOf msgs, isCheck call = false := by
  intro call hcall
  obtain ⟨p, -, hp⟩ := List.mem_filterMap.mp hcall
  cases hmsg : p.2 with
  | storePlan msg =>
    rw [hmsg] at hp
    cases hp
    rfl
  | readyStoreStreamInfoACK streamid_ =>
    rw [hmsg] at hp
    cases hp
    rfl
  | dsRegister ip_ port_ pid_ => rw [hmsg] at hp; cases hp
  | dsRegisterACK gid_ => rw [hmsg] at hp; cases hp
  | storeTimePhrase m => rw [hmsg] at hp; cases hp
  | streamPlanInfo m => rw [hmsg] at hp; cases hp
  | readyStoreStreamInfo a b => rw [hmsg] at hp; cases hp
  | systemInfo m => rw [hmsg] at hp; cases hp

theorem filter_callsOf (msgs : List (BaseHead × MsDsMessage)) :
    (callsOf msgs).filter isCheck = [] ∧
      (callsOf msgs).filter (fun call => !isCheck call) = callsOf msgs := by
  have h := callsOf_isCheck msgs
  refine ⟨List.filter_eq_nil_iff.mpr fun call hcall => ?_,
    List.filter_eq_self.mpr fun call hcall => ?_⟩
  · rw [h call hcall]
    exact Bool.false_ne_true
  · rw [h call hcall]
    rfl

theorem step_calls (hp : p.Generated) {event : Event}
    (h : step p ret register event x = .ok x') :
    ∃ calls msgs, run (Streams.step ret) calls x.streamMgr_ = .ok x'.streamMgr_ ∧
      x'.msAgent_.link.handled = x.msAgent_.link.handled ++ msgs ∧
      calls.filter (fun call => !isCheck call) = callsOf msgs ∧
      calls.filter isCheck = event.check?.toList := by
  obtain ⟨action, haction, hcheck⟩ | ⟨tm_wday, tm_hour, takes, rfl⟩ := event.net_or_check
  · rw [step_net haction] at h
    obtain ⟨msgs, -, hmsgs, hrun⟩ := net_ok hp ret h
    refine ⟨callsOf msgs, msgs, hrun, hmsgs, (filter_callsOf msgs).2, ?_⟩
    rw [hcheck, (filter_callsOf msgs).1]
    rfl
  · obtain ⟨hcheck, hsend⟩ := check_ok h
    refine ⟨[.check tm_wday tm_hour], [], run_cons_ok.mpr ⟨_, hcheck, rfl⟩, ?_, rfl, rfl⟩
    rw [(sendAll_frame takes hsend).1, List.append_nil]

end Steps

section Runs
variable {p : Parser} {ret : Nat → Int} {register : MsDsMessage} {x x' : DSServer}
  {events : List Event}

theorem run_calls (hp : p.Generated) (h : run (step p ret register) events x = .ok x') :
    ∃ calls msgs, run (Streams.step ret) calls x.streamMgr_ = .ok x'.streamMgr_ ∧
      x'.msAgent_.link.handled = x.msAgent_.link.handled ++ msgs ∧
      calls.filter (fun call => !isCheck call) = callsOf msgs ∧
      calls.filter isCheck = events.filterMap Event.check? := by
  induction events generalizing x with
  | nil =>
    cases h
    exact ⟨[], [], rfl, (List.append_nil _).symm, rfl, rfl⟩
  | cons event events ih =>
    obtain ⟨x₁, hstep, hrest⟩ := run_cons_ok.mp h
    obtain ⟨calls₁, msgs₁, hrun₁, hmsgs₁, hnet₁, hcheck₁⟩ := step_calls hp hstep
    obtain ⟨calls, msgs, hrun, hmsgs, hnet, hcheck⟩ := ih hrest
    refine ⟨calls₁ ++ calls, msgs₁ ++ msgs, run_append_ok.mpr ⟨_, hrun₁, hrun⟩,
      by rw [hmsgs, hmsgs₁, List.append_assoc], ?_, ?_⟩
    · rw [List.filter_append, hnet₁, hnet, callsOf, callsOf, callsOf, List.filterMap_append]
    · rw [List.filter_append, hcheck₁, hcheck]
      cases event <;> rfl

/-- In every run of the server, over any number of connections, the manager goes through some run
of its own: its checks are those of the timer, one for each tick, and its other calls are what the
messages say that were handed to the dispatcher, each once and in the order of their arrival. -/
theorem server_refines_manager (p : Parser) (hp : p.Generated) (ret : Nat → Int)
    (register : MsDsMessage) (events : List Event) (x : DSServer)
    (h : run (step p ret register) events start = .ok x) :
    ∃ calls, run (Streams.step ret) calls {} = .ok x.streamMgr_ ∧
      calls.filter (fun call => !isCheck call) = callsOf x.msAgent_.link.handled ∧
      calls.filter isCheck = events.filterMap Event.check? := by
  obtain ⟨calls, msgs, hrun, hmsgs, hnet, hcheck⟩ := run_calls hp h
  refine ⟨calls, hrun, ?_, hcheck⟩
  rw [hnet, hmsgs]
  rfl

/-- A parser that looks at all of its bytes. -/
def msDsParser : Parser := { msDsProtobuf with reads := fun _ _ size => size.toNat }

theorem msDsParser_generated : msDsParser.Generated where
  named _ := rfl
  known type := by simp [msDsParser, msDsProtobuf, FindMessageTypeByName_full_name]
  within _ _ _ _ := Nat.le_refl _

def mondayPlan : StorePlan where
  streamplaninfo := [{
    streamid_ := some "s"
    expireddays_ := some 7
    storetimephrase := [{ weekday_ := some .MON, storetime_ := some 512 }]
    cameraip_ := none
    cameraport_ := none
    streamtype_ := none
    coderate_ := none
    framerate_ := none
    moreinformation_ := none }]
  empty_ := some false

/-- The plan arrives, and then the timer goes off. -/
def mondayRun (tm_wday : Fin 7) (tm_hour : Fin 24) : List Event :=
  [.established 9,
    .received (CodecRoundTrip.frameOf msDsProtobuf MSG_MS_DS_STOREPLAN
      (.message (.storePlan mondayPlan) 0 0 0)) fun _ => 0,
    .check tm_wday tm_hour fun _ => 7]

theorem mondayRun_ok :
    ∃ x, run (step msDsParser (fun _ => 0) (.dsRegister (some "1.1.1.1") (some 1) (some 7)))
      (mondayRun 1 9) start = .ok x :=
  ⟨_, rfl⟩

theorem mondayRun_refines_manager :
    ∃ x calls, run (step msDsParser (fun _ => 0) (.dsRegister (some "1.1.1.1") (some 1) (some 7)))
        (mondayRun 1 9) start = .ok x ∧
      run (Streams.step fun _ => 0) calls {} = .ok x.streamMgr_ ∧
      calls.filter (fun call => !isCheck call) = callsOf x.msAgent_.link.handled ∧
      calls.filter isCheck = (mondayRun 1 9).filterMap Event.check? := by
  obtain ⟨x, hx⟩ := mondayRun_ok
  obtain ⟨calls, hcalls⟩ := server_refines_manager _ msDsParser_generated _ _ _ x hx
  exact ⟨x, calls, hx, hcalls⟩

structure Fresh (x : DSServer) : Prop where
  manager : x.streamMgr_ = {}
  input : x.msAgent_.link.input_.size = 0
  state : x.msAgent_.state_ ≠ .Connected

/-- The manager is in order, and it has the connection as soon as it can have anything to send. -/
structure Sound (x : DSServer) : Prop where
  linked : StreamMgr.Linked x.streamMgr_
  connected : x.msAgent_.msConn_ = true ∨ Fresh x

theorem check_fresh (ret : Nat → Int) (tm_wday : Fin 7) (tm_hour : Fin 24) :
    StreamMgr.checkStorePlan ret tm_wday tm_hour {} = .ok {} := rfl

theorem Fresh.check (hf : Fresh x) (p : Parser) (ret : Nat → Int) (tm_wday : Fin 7)
    (tm_hour : Fin 24) (takes : Nat → Nat) :
    x.check p ret register tm_wday tm_hour takes = .ok x := by
  rw [DSServer.check, hf.manager, check_fresh]
  rw [← hf.manager]
  simp only [List.drop_length]
  rfl

theorem Fresh.net (hp : p.Generated) (hf : Fresh x) {action : MsAgent.Action MsDsMessage}
    (h : x.net p register action = .ok x') (hsend : ∀ call n, action ≠ .send call n) :
    x'.msAgent_.msConn_ = true ∨ Fresh x' := by
  obtain ⟨msgs, hadv, hmsgs, hrun⟩ := net_ok hp (fun _ => 0) h
  obtain ⟨agent, mgr⟩ := x'
  obtain ⟨a, m⟩ := x
  have hsame : agent.link = a.link → agent.state_ ≠ .Connected → Fresh ⟨agent, mgr⟩ := by
    intro hlink hstate
    simp only [hlink, List.self_eq_append_right] at hmsgs
    subst hmsgs
    cases hrun
    exact ⟨hf.manager, (congrArg (·.input_.size) hlink).trans hf.input, hstate⟩
  simp only at hadv
  cases advance_cases hadv with
  | quiet => exact .inr (hsame rfl hf.state)
  | established n hs => exact .inl rfl
  | refused junk hs link hl =>
    rw [onDrained_empty hf.input] at hl
    cases hl
    exact .inr (hsame rfl (by simp))
  | received bytes junk hs link hl => exact absurd hs hf.state
  | dropped bytes junk hs link hl => exact absurd hs hf.state
  | writable n hs => exact absurd hs hf.state
  | timer hs => exact .inr (hsame rfl (by simp [Agent.connect]))
  | send call n => exact absurd rfl (hsend call n)

theorem Sound.net (hp : p.Generated) (hx : Sound x) {action : MsAgent.Action MsDsMessage}
    (h : x.net p register action = .ok x') (hsend : ∀ call n, action ≠ .send call n) :
    Sound x' := by
  obtain ⟨msgs, hadv, hmsgs, hrun⟩ := net_ok hp (fun _ => 0) h
  refine ⟨linked_run hx.linked hrun, ?_⟩
  cases hx.connected with
  | inl hconn => exact .inl (advance_msConn hadv hconn)
  | inr hf => exact hf.net hp h hsend

theorem Sound.check (hx : Sound x) {tm_wday : Fin 7} {tm_hour : Fin 24} {takes : Nat → Nat}
    (h : x.check p ret register tm_wday tm_hour takes = .ok x') : Sound x' := by
  cases hx.connected with
  | inl hconn =>
    obtain ⟨hcheck, hsend⟩ := check_ok h
    refine ⟨?_, .inl ?_⟩
    · have hstep : Streams.step ret (.check tm_wday tm_hour) x.streamMgr_ = .ok x'.streamMgr_ :=
        hcheck
      exact StreamMgr.linked_step hx.linked hstep
    · rw [(sendAll_frame takes hsend).2.2, hconn]
  | inr hf =>
    rw [hf.check] at h
    cases h
    exact hx

theorem sound_step (hp : p.Generated) (event : Event) (x x' : DSServer) (hx : Sound x)
    (h : step p ret register event x = .ok x') : Sound x' := by
  obtain ⟨action, haction, -⟩ | ⟨tm_wday, tm_hour, takes, rfl⟩ := event.net_or_check
  · rw [step_net haction] at h
    exact hx.net hp h (action_not_send haction)
  · exact hx.check h

theorem sound_start : Sound start :=
  ⟨StreamMgr.linked_start, .inr ⟨rfl, rfl, by decide⟩⟩

theorem sendAll_ok (p : Parser) (register : MsDsMessage) {a : Agent MsDsMessage}
    (ha : a.msConn_ = true) (takes : Nat → Nat)
    (calls : List (EncodeCall ReadyStoreStreamInfo)) :
    ∃ a', run (MsAgent.advance p.toProtobuf register) (sendAll takes calls) a = .ok a' := by
  induction calls generalizing takes a with
  | nil => exact ⟨a, rfl⟩
  | cons call calls ih =>
    let a₁ := (a.encode p.toProtobuf (outgoing call)).sendOutput (takes 0)
    have hstep : MsAgent.advance p.toProtobuf register (.send (outgoing call) (takes 0)) a =
        .ok a₁ := by
      rw [MsAgent.advance, if_pos ha]
    obtain ⟨a', ha'⟩ := ih (a := a₁) (by simpa [a₁, Agent.encode] using ha) fun i => takes (i + 1)
    refine ⟨a', ?_⟩
    rw [sendAll, List.mapIdx_cons]
    exact run_cons_ok.mpr ⟨a₁, hstep, ha'⟩

theorem check_error (hx : Sound x) {tm_wday : Fin 7} {tm_hour : Fin 24} {takes : Nat → Nat}
    {f : Fault} : x.check p ret register tm_wday tm_hour takes ≠ .error f := by
  intro h
  cases hx.connected with
  | inl hconn =>
    obtain ⟨m, hm, -⟩ := StreamMgr.checkStorePlan_turns ret hx.linked tm_wday tm_hour
    obtain ⟨a, ha⟩ := sendAll_ok p register hconn takes
      (sends (m.log.drop x.streamMgr_.log.length))
    simp only [DSServer.check, hm, ha] at h
    cases h
  | inr hf =>
    rw [hf.check] at h
    cases h

end Runs

section Memory
variable {p : Parser} {ret : Nat → Int} {register : MsDsMessage} {x x' : DSServer}
  {a a' : Agent MsDsMessage} {action : MsAgent.Action MsDsMessage} {events : List Event}

structure Ordered (a : Agent MsDsMessage) : Prop where
  ok : a.link.input_.Ok
  exp : 0 < a.link.input_.exp_

/-- The read callback of the event, if it is called, finds no frame whose body is handed to the
parser and is yet to come, as a whole or in part. -/
def Whole (p : Parser) (event : Event) (x : DSServer) : Prop :=
  ∀ action junk l, event.action? = some action → callback action x.msAgent_ = some (junk, l) →
    20 ≤ l.input_.size →
      BodyPresent p.toProtobuf l.registry l.input_ (loadHead (l.input_.mem junk) l.input_.b_)

theorem roomy_of_ok (fuel : Nat) {x : Buffer} (h : x.Ok) (bytes : List UInt8) :
    roomy fuel x bytes = true := by
  induction fuel generalizing x bytes with
  | zero => rfl
  | succ fuel ih =>
    have hr := h.makeReadRoom.1
    have he := hr.e_le
    have hb := h.b_le
    rw [roomy, if_neg (by simp; omega)]
    split_ifs with hnil
    · rfl
    · simp only [Buffer.space, offsetDiff_of_le he]
      generalize hn : min (x.makeReadRoom.cap_ - x.makeReadRoom.e_) bytes.length = rd
      have htake : (bytes.take rd).length = rd := by rw [List.length_take]; omega
      have hw := hr.write_end (by omega : x.makeReadRoom.e_ + (bytes.take rd).length ≤ _)
      rw [htake] at hw
      exact ih hw.1 (bytes.drop rd)

theorem hasRoom_of_ordered (h : Ordered a) (action : MsAgent.Action MsDsMessage) :
    hasRoom action a = true := by
  cases action with
  | received bytes junk => simp [hasRoom, roomy_of_ok _ h.ok]
  | dropped bytes junk => simp [hasRoom, roomy_of_ok _ h.ok]
  | _ => rfl

theorem Ordered.readAll (h : Ordered a) (bytes : List UInt8) : Ordered (a.readAll bytes) := by
  obtain ⟨hok, -, hexp⟩ := readInput_ok h.ok h.exp (Nat.lt_succ_self bytes.length)
  exact ⟨hok, hexp⟩

theorem callback_of_ordered (h : Ordered a) {junk : Nat → UInt8} {l : Link MsDsMessage}
    (hc : callback action a = some (junk, l)) : l.input_.Ok ∧ 0 < l.input_.exp_ := by
  cases action with
  | refused junk =>
    rw [callback] at hc
    split_ifs at hc
    cases hc
    exact ⟨h.ok, h.exp⟩
  | received bytes junk =>
    rw [callback] at hc
    split_ifs at hc
    cases hc
    exact ⟨(h.readAll bytes).ok, (h.readAll bytes).exp⟩
  | dropped bytes junk =>
    rw [callback] at hc
    split_ifs at hc
    cases hc
    exact ⟨(h.readAll bytes).ok, (h.readAll bytes).exp⟩
  | _ => cases hc

theorem overreads_of_present (hp : p.Generated) {junk : Nat → UInt8} {l : Link MsDsMessage}
    (hl : l.input_.Ok) (hbody : 20 ≤ l.input_.size →
      BodyPresent p.toProtobuf l.registry l.input_ (loadHead (l.input_.mem junk) l.input_.b_)) :
    overreads p junk l = false := by
  have hin : StaysInside l.input_ (decode p.toProtobuf junk l.registry l.input_ {}) :=
    staysInside_of_present hl {} hbody
  have hsize := hl.size_eq
  have he := hl.e_le
  rw [overreads]
  split_ifs with hsz
  · rfl
  · rw [Bool.or_eq_false_iff, decide_eq_false_iff_not, headSize]
    refine ⟨by omega, ?_⟩
    cases hparsed : (decode p.toProtobuf junk l.registry l.input_ {}).parsed with
    | none => rfl
    | some range =>
      obtain ⟨start, size⟩ := range
      obtain ⟨h0, -, hend⟩ := hin.1 start size hparsed
      have hreads := hp.within
        (l.registry.getType (loadHead (l.input_.mem junk) l.input_.b_).cmd).1
        (fun i => l.input_.mem junk (start + i)) size h0
      simp only [decide_eq_false_iff_not]
      omega

theorem ordered_drained {junk : Nat → UInt8} {l l' : Link MsDsMessage} (hl : l.input_.Ok)
    (hexp : 0 < l.input_.exp_) (hbody : 20 ≤ l.input_.size →
      BodyPresent p.toProtobuf l.registry l.input_ (loadHead (l.input_.mem junk) l.input_.b_))
    (h : onDrained p.toProtobuf junk l = .ok l') : l'.input_.Ok ∧ 0 < l'.input_.exp_ := by
  obtain rfl | ⟨-, hbuf⟩ := onDrained_cases h
  · exact ⟨hl, hexp⟩
  · rw [hbuf, decode_exp]
    exact ⟨(staysInside_of_present hl {} hbody).2.1, hexp⟩

theorem ordered_advance (h : Ordered a)
    (hbody : ∀ junk l, callback action a = some (junk, l) → 20 ≤ l.input_.size →
      BodyPresent p.toProtobuf l.registry l.input_ (loadHead (l.input_.mem junk) l.input_.b_))
    (hadv : MsAgent.advance p.toProtobuf register action a = .ok a') : Ordered a' := by
  cases advance_cases hadv with
  | quiet => exact h
  | established n hs => exact ⟨by simpa using h.ok, by simpa using h.exp⟩
  | refused junk hs link hl =>
    have hc : callback (.refused junk) a = some (junk, a.link) := if_pos hs
    obtain ⟨hok, hexp⟩ := ordered_drained h.ok h.exp (hbody _ _ hc) hl
    exact ⟨hok, hexp⟩
  | received bytes junk hs link hl =>
    have hc : callback (.received bytes junk) a = some (junk, (a.readAll bytes).link) := if_pos hs
    obtain ⟨hok, hexp⟩ := callback_of_ordered h hc
    obtain ⟨hok, hexp⟩ := ordered_drained hok hexp (hbody _ _ hc) hl
    exact ⟨hok, hexp⟩
  | dropped bytes junk hs link hl =>
    have hc : callback (.dropped bytes junk) a = some (junk, (a.readAll bytes).link) := if_pos hs
    obtain ⟨hok, hexp⟩ := callback_of_ordered h hc
    obtain ⟨hok, hexp⟩ := ordered_drained hok hexp (hbody _ _ hc) hl
    exact ⟨hok, hexp⟩
  | writable n hs => exact ⟨by simpa using h.ok, by simpa using h.exp⟩
  | timer hs => exact ⟨h.ok, h.exp⟩
  | send call n => exact ⟨by simpa using h.ok, by simpa using h.exp⟩

theorem ordered_step (hp : p.Generated) (event : Event) (x x' : DSServer)
    (hx : Ordered x.msAgent_) (hw : Whole p event x)
    (h : step p ret register event x = .ok x') : Ordered x'.msAgent_ := by
  obtain ⟨action, haction, -⟩ | ⟨tm_wday, tm_hour, takes, rfl⟩ := event.net_or_check
  · rw [step_net haction] at h
    obtain ⟨msgs, hadv, -, -⟩ := net_ok hp ret h
    exact ordered_advance hx (fun junk l hc => hw action junk l haction hc) hadv
  · obtain ⟨-, hinput, -⟩ := sendAll_frame takes (check_ok h).2
    exact ⟨by rw [hinput]; exact hx.ok, by rw [hinput]; exact hx.exp⟩

theorem net_error (hp : p.Generated) (hx : Sound x) {f : Fault}
    (h : x.net p register action = .error f) (hsend : ∀ call n, action ≠ .send call n) :
    f = .agent (.dispatch .nullMessage) ∨ f = .manager .nullSession ∨
      f = .badAlloc ∧ hasRoom action x.msAgent_ = false ∨
      f = .overread ∧ ∃ c, callback action x.msAgent_ = some c ∧ overreads p c.1 c.2 = true := by
  rw [DSServer.net] at h
  split_ifs at h with hroom hread
  · cases h
    exact .inr (.inr (.inl ⟨rfl, by simpa using hroom⟩))
  · cases h
    rw [Option.any_eq_true] at hread
    exact .inr (.inr (.inr ⟨rfl, hread⟩))
  · split at h
    · rename_i fault hfault
      cases h
      rw [advance_error hfault fun call n heq => absurd heq (hsend call n)]
      exact .inl rfl
    · simp only [run_handle hp fun _ => 0] at h
      cases hrun : run (Streams.step fun _ => 0) (callsOf (List.drop _ _)) x.streamMgr_ with
      | error fault =>
        rw [hrun] at h
        cases h
        exact .inr (.inl (congrArg Fault.manager (run_step_error hx.linked hrun)))
      | ok m =>
        rw [hrun] at h
        cases h

theorem step_error_cases (hp : p.Generated) (hx : Sound x) {event : Event} {f : Fault}
    (h : step p ret register event x = .error f) :
    f = .agent (.dispatch .nullMessage) ∨ f = .manager .nullSession ∨
      (f = .overread ∨ f = .badAlloc) ∧ ¬ (Ordered x.msAgent_ ∧ Whole p event x) := by
  obtain ⟨action, haction, -⟩ | ⟨tm_wday, tm_hour, takes, rfl⟩ := event.net_or_check
  swap
  · exact absurd h (check_error hx)
  rw [step_net haction] at h
  obtain hf | hf | ⟨hf, hroom⟩ | ⟨hf, ⟨junk, l⟩, hc, hread⟩ :=
    net_error hp hx h (action_not_send haction)
  · exact .inl hf
  · exact .inr (.inl hf)
  · refine .inr (.inr ⟨.inr hf, fun ⟨hok, _⟩ => ?_⟩)
    rw [hasRoom_of_ordered hok action] at hroom
    cases hroom
  · refine .inr (.inr ⟨.inl hf, fun ⟨hok, hw⟩ => ?_⟩)
    have hnone : overreads p junk l = false :=
      overreads_of_present hp (callback_of_ordered hok hc).1 (hw action junk l haction hc)
    rw [hnone] at hread
    cases hread

def strayAnswer : List UInt8 :=
  CodecRoundTrip.frameOf msDsProtobuf MSG_DS_MS_INVITE_CAMERA_ACK
    (.message (.readyStoreStreamInfoACK (some "s")) 0 1 2)

def strayRun : List Event := [.established 9, .received strayAnswer fun _ => 0]

theorem strayRun_error :
    run (step msDsParser (fun _ => 0) (.dsRegister (some "1.1.1.1") (some 1) (some 7))) strayRun
      start = .error (.manager .nullSession) := rfl

end Memory

end LazyNet.AdminLoop
