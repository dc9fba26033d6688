import LazyNet.PlanChecks
import LazyNet.CodecRoundTrip

/-! The two words of a Bye. The entry of a stream keeps them from a good answer on, and
`byeStream` hands them to the encoder in the places of the error and of the first word. -/
namespace LazyNet.Streams
open LazyNet.Tables LazyNet.HandyBuffer LazyNet.ExternalMsgCodec LazyNet.MsDsProtocol
open LazyNet.CodecRoundTrip LazyNet.Sessions LazyNet.StepRuns StreamMgr

def decodedHead (pb : Protobuf ReadyStoreStreamInfo) (junk : Nat → UInt8)
    (call : EncodeCall ReadyStoreStreamInfo) : BaseHead :=
  let sent := call.run pb (Registry.ofPairs initAdmin, {})
  (decode pb junk sent.1 sent.2 {}).info

/-- A Bye that went out for a stream, and the words of the last good answer for the stream since
its session was created. -/
structure Bye where
  streamid : String
  call : EncodeCall ReadyStoreStreamInfo
  accepted : Option (UInt32 × UInt32)
  deriving DecidableEq, Repr

def Bye.Right (pb : Protobuf ReadyStoreStreamInfo) (junk : Nat → UInt8) (bye : Bye) : Prop :=
  ∃ p1 p2, bye.accepted = some (p1, p2) ∧ (decodedHead pb junk bye.call).err = 0 ∧
    (decodedHead pb junk bye.call).para1 = p1 ∧ (decodedHead pb junk bye.call).para2 = p2

structure Ledger where
  mgr : StreamMgr := {}
  accepted : OrdMap String (UInt32 × UInt32) := ∅
  byes : List Bye := []

def forgetWords (accepted : OrdMap String (UInt32 × UInt32)) :
    Event → OrdMap String (UInt32 × UInt32)
  | .newStoreSes streamid _ _ sesId => if sesId ≠ 0 then accepted.erase streamid else accepted
  | .send _ => accepted

def byeCalls (evs : List Event) : List (EncodeCall ReadyStoreStreamInfo) :=
  evs.filterMap fun
    | .send (.name "MS_DS.Bye" err para1 para2) => some (.name "MS_DS.Bye" err para1 para2)
    | _ => none

/-- What the manager did for a stream is entered in the account. -/
def Ledger.enter (x : Ledger) (streamid : String) (m : StreamMgr) : Ledger :=
  let evs := m.log.drop x.mgr.log.length
  { mgr := m
    accepted := evs.foldl forgetWords x.accepted
    byes := x.byes ++
      (byeCalls evs).map fun call => { streamid, call, accepted := x.accepted[streamid]? } }

def Ledger.round (ret : Nat → Int) (curDay : Fin 8) (curHour : Fin 24) (plan : Plan) (x : Ledger) :
    Except Fault Ledger :=
  (checkPlan ret curDay curHour plan x.mgr).map (x.enter plan.streamId)

/-- A call of the manager, or one round of the loop of `stopAllStream`. -/
inductive LedgerCall where
  | call (c : Call)
  | stop (streamid : String)
  deriving DecidableEq, Repr

def Ledger.step (ret : Nat → Int) : LedgerCall → Ledger → Except Fault Ledger
  | .call (.update msg), x => .ok { x with mgr := x.mgr.updateStorePlan msg }
  | .call (.ack streamid p1 p2 err), x => do
    let m ← x.mgr.startStream streamid p1 p2 err
    .ok { x with
      mgr := m
      accepted := if err = 0 then x.accepted.insert streamid (p1, p2) else x.accepted }
  | .call (.check tm_wday tm_hour), x => do
    let x ← run (Ledger.round ret (getCurDay tm_wday) tm_hour)
      (x.mgr.curPlans_.toList.map Prod.snd) x
    let m ← sweepDelPlans x.mgr
    .ok { x with mgr := m }
  -- the loop takes streams that have an entry
  | .stop streamid, x =>
    if streamid ∈ x.mgr.storeSess_ then (stopStream streamid x.mgr).map (x.enter streamid)
    else .ok x

def ByesRight (pb : Protobuf ReadyStoreStreamInfo) (junk : Nat → UInt8) (x : Ledger) : Prop :=
  ∀ bye ∈ x.byes, bye.Right pb junk

/-- The stops for which a Bye comes out right: of streams whose last good answer had zeros. -/
def StopsZero : LedgerCall → Ledger → Prop
  | .call (.check tm_wday tm_hour), x => ∀ (s : String) (plan : Plan),
    x.mgr.curPlans_[s]? = some plan → plan.wanted (getCurDay tm_wday) tm_hour = false →
      s ∈ x.mgr.storeSess_ → x.accepted[s]? = some (0, 0)
  | .stop streamid, x => streamid ∈ x.mgr.storeSess_ → x.accepted[streamid]? = some (0, 0)
  | .call (.update _), _ => True
  | .call (.ack _ _ _ _), _ => True

theorem decodedHead_bye (pb : Protobuf ReadyStoreStreamInfo) (junk : Nat → UInt8)
    (p1 p2 p3 : UInt32) : decodedHead pb junk (.name "MS_DS.Bye" p1 p2 p3) =
      { cmd := MSG_DS_MS_STORE_FINISH, length := 0, err := p1, para1 := p2, para2 := p3 } := by
  have hmem : (MSG_DS_MS_STORE_FINISH, "MS_DS.Bye") ∈ initAdmin := by decide
  have hr := Registry.knows_ofPairs initAdmin_distinct.1 initAdmin_distinct.2 hmem
  obtain ⟨hreg, hok, hcontent⟩ := encodeName_ok hr p1 p2 p3 Buffer.ok_default
  have hempty : ({} : Buffer).content = [] := rfl
  rw [hempty, List.nil_append] at hcontent
  have hs : Starts (encodeName (Registry.ofPairs initAdmin) "MS_DS.Bye" p1 p2 p3 {}).2
      { cmd := MSG_DS_MS_STORE_FINISH, length := 0, err := p1, para1 := p2, para2 := p3 } [] :=
    ⟨hok, by rw [hcontent, List.append_nil]⟩
  rw [decodedHead, EncodeCall.run]
  exact (decode_name pb _ (by rfl) hs junk {}).2.1

def Bye.ofEntry (streamid : String) (info : StoreSesInfo) (accepted : Option (UInt32 × UInt32)) :
    Bye :=
  { streamid, call := .name "MS_DS.Bye" info.para1 info.para2 0, accepted }

/-- The words of an entry go out one place too early, with a zero behind them. -/
theorem bye_right_iff {pb : Protobuf ReadyStoreStreamInfo} {junk : Nat → UInt8} {s : String}
    {info : StoreSesInfo} {accepted : Option (UInt32 × UInt32)}
    (h : (info.para1, info.para2) = accepted.getD (0, 0)) :
    (Bye.ofEntry s info accepted).Right pb junk ↔ accepted = some (0, 0) := by
  simp only [Bye.Right, Bye.ofEntry, decodedHead_bye]
  constructor
  · intro ⟨q1, q2, hacc, herr, hpara1, hpara2⟩
    rw [hacc, Option.getD_some, Prod.mk.injEq] at h
    rw [hacc, ← h.1, herr, ← hpara2]
  · intro hacc
    rw [hacc, Option.getD_some, Prod.mk.injEq] at h
    exact ⟨0, 0, hacc, h.1, h.2, rfl⟩

theorem ledger_step_mgr (ret : Nat → Int) (c : Call) (x : Ledger) :
    (Ledger.step ret (.call c) x).map Ledger.mgr = Streams.step ret c x.mgr := by
  cases c with
  | update msg => rfl
  | ack streamid p1 p2 err =>
    rw [Ledger.step, Streams.step]
    cases startStream streamid p1 p2 err x.mgr <;> rfl
  | check tm_wday tm_hour =>
    have hround : ∀ plan (y : Ledger),
        (Ledger.round ret (getCurDay tm_wday) tm_hour plan y).map Ledger.mgr =
          checkPlan ret (getCurDay tm_wday) tm_hour plan y.mgr := by
      intro plan y
      rw [Ledger.round]
      cases checkPlan ret (getCurDay tm_wday) tm_hour plan y.mgr <;> rfl
    have hrounds := run_map hround (x.mgr.curPlans_.toList.map Prod.snd) x
    rw [Ledger.step, Streams.step, checkStorePlan, checkPlans, ← hrounds]
    cases run (Ledger.round ret (getCurDay tm_wday) tm_hour)
      (x.mgr.curPlans_.toList.map Prod.snd) x with
    | error fault => rfl
    | ok y =>
      simp only [Except.map, bind, Except.bind]
      cases sweepDelPlans y.mgr <;> rfl

theorem ledger_run_mgr (ret : Nat → Int) (calls : List Call) (x : Ledger) :
    (run (Ledger.step ret) (calls.map .call) x).map Ledger.mgr = run (step ret) calls x.mgr := by
  induction calls generalizing x with
  | nil => rfl
  | cons c calls ih =>
    rw [List.map_cons, run, run, ← ledger_step_mgr ret c x]
    cases Ledger.step ret (.call c) x with
    | error fault => rfl
    | ok y => exact ih y

structure WordsKept (x : Ledger) : Prop where
  linked : Linked x.mgr
  words : ∀ (s : String) (info : StoreSesInfo), x.mgr.storeSess_[s]? = some info →
    (info.para1, info.para2) = x.accepted[s]?.getD (0, 0)

section Rounds
variable {ret : Nat → Int} {x x' : Ledger} {s : String} {info : StoreSesInfo} {ses : StoreSession}

theorem enter_since {m : StreamMgr} {evs : List Event} (h : Since x.mgr m evs) :
    x.enter s m =
      { mgr := m
        accepted := evs.foldl forgetWords x.accepted
        byes := x.byes ++ (byeCalls evs).map fun call =>
          { streamid := s, call, accepted := x.accepted[s]? } } := by
  rw [Since] at h
  simp only [Ledger.enter, h, List.drop_left]

theorem enter_same (x : Ledger) (s : String) : x.enter s x.mgr = x := by
  rw [enter_since (.refl x.mgr)]
  simp [byeCalls]

/-- What entering the work of a round leaves: the words are kept, the other streams are as they
were, and a Bye is noted when the stream was stopped. -/
structure RoundEntered (s : String) (wanted : Bool) (x x' : Ledger) : Prop where
  kept : WordsKept x'
  plans : x'.mgr.curPlans_ = x.mgr.curPlans_
  frame : ∀ a, a ≠ s → x'.mgr.storeSess_[a]? = x.mgr.storeSess_[a]? ∧
    x'.accepted[a]? = x.accepted[a]?
  stopped : wanted = false → ∀ info, x.mgr.storeSess_[s]? = some info →
    x'.byes = x.byes ++ [.ofEntry s info x.accepted[s]?]
  other : wanted = true ∨ s ∉ x.mgr.storeSess_ → x'.byes = x.byes

theorem enter_stopped (h : WordsKept x) (hi : x.mgr.storeSess_[s]? = some info) :
    RoundEntered s false x (x.enter s (x.mgr.stopped s info ses)) := by
  have hmem : s ∈ x.mgr.storeSess_ := mem_iff_get.mpr ⟨info, hi⟩
  have hsince : Since x.mgr (x.mgr.stopped s info ses)
      [.send (.name "MS_DS.Bye" info.para1 info.para2 0)] := rfl
  rw [enter_since hsince]
  refine ⟨⟨h.linked.stopped s info ses, fun a i ha => ?_⟩, rfl, fun a ha => ?_, fun _ i hi' => ?_,
    fun hcase => ?_⟩
  · simp only [StreamMgr.stopped, get_erase] at ha
    split_ifs at ha
    exact h.words a i ha
  · simp only [StreamMgr.stopped, get_erase, if_neg (Ne.symm ha)]
    exact ⟨trivial, rfl⟩
  · cases hi.symm.trans hi'
    rfl
  · cases hcase with
    | inl hw => cases hw
    | inr hs => exact absurd hmem hs

theorem enter_created (h : WordsKept x) (hs : s ∉ x.mgr.storeSess_) (ret : Nat → Int) :
    RoundEntered s true x (x.enter s (createStream ret s x.mgr)) := by
  have hlinked : Linked (createStream ret s x.mgr) := h.linked.created s
  have hplans := (createStream_plans ret s x.mgr).1
  by_cases h0 : (newSes ret x.mgr).1 = 0
  · have hsince : Since x.mgr (createStream ret s x.mgr)
        [.newStoreSes s x.mgr.port_ x.mgr.sesServicePtr_.made 0] := by
      rw [Since, createStream_refused h0]
    rw [enter_since hsince]
    refine ⟨⟨hlinked, fun a i ha => ?_⟩, hplans, fun a ha => ⟨createStream_frame ha, rfl⟩,
      fun hw => (by cases hw), fun _ => ?_⟩
    · rw [createStream_refused h0] at ha
      exact h.words a i ha
    · simp [byeCalls]
  · have hsince : Since x.mgr (createStream ret s x.mgr)
        [.newStoreSes s x.mgr.port_ x.mgr.sesServicePtr_.made (newSes ret x.mgr).1,
          .send (.message { streamid := s, recvcameraport := toString x.mgr.port_ } 0 0 0)] := by
      rw [Since, createStream_made h0]
    have hforget : [Event.newStoreSes s x.mgr.port_ x.mgr.sesServicePtr_.made
        (newSes ret x.mgr).1,
        .send (.message { streamid := s, recvcameraport := toString x.mgr.port_ } 0 0 0)].foldl
          forgetWords x.accepted = x.accepted.erase s := by
      simp [forgetWords, h0]
    rw [enter_since hsince, hforget]
    refine ⟨⟨hlinked, fun a i ha => ?_⟩, hplans, fun a ha => ⟨createStream_frame ha, ?_⟩,
      fun hw => (by cases hw), fun _ => ?_⟩
    · simp only [get_erase]
      cases createStream_entry ha with
      | inl hold =>
        have hne : s ≠ a := fun heq => hs (heq ▸ mem_iff_get.mpr ⟨i, hold⟩)
        rw [if_neg hne]
        exact h.words a i hold
      | inr hmade =>
        obtain ⟨-, rfl, rfl⟩ := hmade
        rw [if_pos rfl]
        rfl
    · simp only [get_erase, if_neg (Ne.symm ha)]
    · simp [byeCalls]

theorem round_entered (h : WordsKept x) (ret : Nat → Int) (plan : Plan) (d : Fin 8)
    (hour : Fin 24) :
    ∃ x', Ledger.round ret d hour plan x = .ok x' ∧
      RoundEntered plan.streamId (plan.wanted d hour) x x' := by
  obtain ⟨m', hrun, turn⟩ := checkPlan_turn ret h.linked plan d hour
  refine ⟨x.enter plan.streamId m', by rw [Ledger.round, hrun]; rfl, ?_⟩
  cases turn with
  | kept hw hs =>
    rw [enter_same, hw]
    exact ⟨h, rfl, fun _ _ => ⟨rfl, rfl⟩, fun hf => (by cases hf), fun _ => rfl⟩
  | created hw hs =>
    rw [hw]
    exact enter_created h hs ret
  | stopped hw info ses hi hses =>
    rw [hw]
    exact enter_stopped h hi
  | idle hw hs =>
    rw [enter_same]
    exact ⟨h, rfl, fun _ _ => ⟨rfl, rfl⟩, fun _ info hi => absurd (mem_iff_get.mpr ⟨info, hi⟩) hs,
      fun _ => rfl⟩

variable {pb : Protobuf ReadyStoreStreamInfo} {junk : Nat → UInt8}

theorem byesRight_snoc {bye : Bye} (h : x'.byes = x.byes ++ [bye]) :
    ByesRight pb junk x' ↔ ByesRight pb junk x ∧ bye.Right pb junk := by
  simp [ByesRight, h, or_imp, forall_and]

theorem byesRight_same (h : x'.byes = x.byes) : ByesRight pb junk x' ↔ ByesRight pb junk x := by
  rw [ByesRight, ByesRight, h]

theorem RoundEntered.byesRight_iff {wanted : Bool} (h : WordsKept x)
    (hr : RoundEntered s wanted x x') : ByesRight pb junk x' ↔ ByesRight pb junk x ∧
      (wanted = false → s ∈ x.mgr.storeSess_ → x.accepted[s]? = some (0, 0)) := by
  by_cases hcase : wanted = false ∧ s ∈ x.mgr.storeSess_
  · obtain ⟨hw, hs⟩ := hcase
    obtain ⟨info, hi⟩ := mem_iff_get.mp hs
    rw [byesRight_snoc (hr.stopped hw info hi), bye_right_iff (h.words s info hi)]
    exact and_congr_right fun _ => ⟨fun hacc _ _ => hacc, fun hacc => hacc hw hs⟩
  · have hother : wanted = true ∨ s ∉ x.mgr.storeSess_ := by
      cases wanted with
      | true => exact .inl rfl
      | false => exact .inr fun hs => hcase ⟨rfl, hs⟩
    rw [byesRight_same (hr.other hother)]
    exact ⟨fun hb => ⟨hb, fun hw hs => absurd ⟨hw, hs⟩ hcase⟩, fun hb => hb.1⟩

theorem rounds_entered (pb : Protobuf ReadyStoreStreamInfo) (junk : Nat → UInt8)
    (h : WordsKept x) (ret : Nat → Int) (d : Fin 8) (hour : Fin 24) {plans : List Plan}
    (hnd : (plans.map Plan.streamId).Nodup) :
    ∃ x', run (Ledger.round ret d hour) plans x = .ok x' ∧ WordsKept x' ∧
      (ByesRight pb junk x' ↔ ByesRight pb junk x ∧ ∀ plan ∈ plans,
        plan.wanted d hour = false → plan.streamId ∈ x.mgr.storeSess_ →
          x.accepted[plan.streamId]? = some (0, 0)) := by
  induction plans generalizing x with
  | nil => exact ⟨x, rfl, h, by simp⟩
  | cons plan plans ih =>
    rw [List.map_cons, List.nodup_cons] at hnd
    obtain ⟨x₁, hstep, hr⟩ := round_entered h ret plan d hour
    obtain ⟨x', hrun, hkept, hiff⟩ := ih hr.kept hnd.2
    refine ⟨x', run_cons_ok.mpr ⟨x₁, hstep, hrun⟩, hkept, ?_⟩
    rw [hiff, hr.byesRight_iff h, List.forall_mem_cons, and_assoc]
    refine and_congr_right fun _ => and_congr_right fun _ => forall₂_congr fun other hmem => ?_
    have hne : other.streamId ≠ plan.streamId :=
      fun heq => hnd.1 (heq ▸ List.mem_map_of_mem hmem)
    obtain ⟨hsess, hacc⟩ := hr.frame other.streamId hne
    rw [hacc, mem_iff_get, hsess, ← mem_iff_get]

theorem ledger_check (pb : Protobuf ReadyStoreStreamInfo) (junk : Nat → UInt8)
    (h : WordsKept x) (ret : Nat → Int) (tm_wday : Fin 7) (tm_hour : Fin 24) :
    ∃ x', Ledger.step ret (.call (.check tm_wday tm_hour)) x = .ok x' ∧ WordsKept x' ∧
      (ByesRight pb junk x' ↔
        ByesRight pb junk x ∧ StopsZero (.call (.check tm_wday tm_hour)) x) := by
  obtain ⟨x', hrun, hkept, hiff⟩ :=
    rounds_entered pb junk h ret (getCurDay tm_wday) tm_hour h.linked.nodup_plans
  have hempty : x'.mgr.delPlans_.toList = [] := by
    rw [hkept.linked.noDel]
    rfl
  refine ⟨x', ?_, hkept, ?_⟩
  · rw [Ledger.step, hrun]
    simp [bind, Except.bind, sweepDelPlans, hempty]
  · rw [hiff, StopsZero]
    refine and_congr_right fun _ => ?_
    exact h.linked.forall_plans (P := fun s plan =>
      plan.wanted (getCurDay tm_wday) tm_hour = false → s ∈ x.mgr.storeSess_ →
        x.accepted[s]? = some (0, 0))

theorem ledger_stop (pb : Protobuf ReadyStoreStreamInfo) (junk : Nat → UInt8)
    (h : WordsKept x) (ret : Nat → Int) (s : String) :
    ∃ x', Ledger.step ret (.stop s) x = .ok x' ∧ WordsKept x' ∧
      (ByesRight pb junk x' ↔ ByesRight pb junk x ∧ StopsZero (.stop s) x) := by
  rw [Ledger.step, StopsZero]
  by_cases hs : s ∈ x.mgr.storeSess_
  · obtain ⟨info, hi⟩ := mem_iff_get.mp hs
    obtain ⟨ses, hses⟩ := h.linked.owned s info hi
    have hr : RoundEntered s false x (x.enter s (x.mgr.stopped s info ses)) := enter_stopped h hi
    refine ⟨_, ?_, hr.kept, ?_⟩
    · rw [if_pos hs, stopStream_ok hi hses]
      rfl
    · rw [hr.byesRight_iff h]
      simp
  · exact ⟨x, by rw [if_neg hs], h, by simp [hs]⟩

theorem WordsKept.inserted (h : WordsKept x) {e i : StoreSesInfo} {p1 p2 : UInt32} {a : String}
    (he : (e.para1, e.para2) = (p1, p2)) (ha : (x.mgr.storeSess_.insert s e)[a]? = some i) :
    (i.para1, i.para2) = (x.accepted.insert s (p1, p2))[a]?.getD (0, 0) := by
  rw [get_insert] at ha ⊢
  split_ifs at ha ⊢ with heq
  · cases ha
    exact he
  · exact h.words a i ha

theorem WordsKept.ack (h : WordsKept x) {p1 p2 err : UInt32} {m' : StreamMgr}
    (hrun : startStream s p1 p2 err x.mgr = .ok m') :
    WordsKept { x with
      mgr := m'
      accepted := if err = 0 then x.accepted.insert s (p1, p2) else x.accepted } := by
  refine ⟨h.linked.ack hrun, fun a i ha => ?_⟩
  by_cases hs : s ∈ x.mgr.storeSess_
  · obtain ⟨info, hi⟩ := mem_iff_get.mp hs
    obtain ⟨ses, hses⟩ := h.linked.owned s info hi
    by_cases he : err = 0
    · rw [he, startStream_good hi hses] at hrun
      cases hrun
      simp only [he, if_true]
      exact h.inserted rfl ha
    · rw [startStream_bad hi hses p1 p2 he] at hrun
      cases hrun
      simp only [StreamMgr.dropped, get_erase] at ha
      simp only [he, if_false]
      split_ifs at ha
      exact h.words a i ha
  · obtain ⟨ses, -, hcase⟩ := startStream_missing hs p1 p2 err hrun
    split_ifs at hcase with he
    · subst hcase
      simp only [he, if_true]
      exact h.inserted rfl ha
    · subst hcase
      simp only [he, if_false]
      exact h.words a i ha

theorem ledger_step (pb : Protobuf ReadyStoreStreamInfo) (junk : Nat → UInt8)
    (h : WordsKept x) (ret : Nat → Int) (c : LedgerCall) :
    (∀ x', Ledger.step ret c x = .ok x' → WordsKept x' ∧
      (ByesRight pb junk x' ↔ ByesRight pb junk x ∧ StopsZero c x)) ∧
    ((∃ x', Ledger.step ret c x = .ok x') ∨ StopsZero c x) := by
  cases c with
  | stop s =>
    obtain ⟨y, hrun, hkept, hiff⟩ := ledger_stop pb junk h ret s
    refine ⟨fun x' hx' => ?_, .inl ⟨y, hrun⟩⟩
    cases hrun.symm.trans hx'
    exact ⟨hkept, hiff⟩
  | call c =>
    cases c with
    | update msg =>
      refine ⟨fun x' hx' => ?_, .inr trivial⟩
      cases hx'
      refine ⟨⟨h.linked.update msg, fun s info hi => h.words s info ?_⟩, ?_⟩
      · rwa [(updateStorePlan_frame msg x.mgr).1] at hi
      · exact (and_iff_left trivial).symm
    | ack streamid p1 p2 err =>
      refine ⟨fun x' hx' => ?_, .inr trivial⟩
      obtain ⟨m', hm', heq⟩ := seq_ok_iff.mp hx'
      cases heq
      exact ⟨h.ack hm', (and_iff_left trivial).symm⟩
    | check tm_wday tm_hour =>
      obtain ⟨y, hrun, hkept, hiff⟩ := ledger_check pb junk h ret tm_wday tm_hour
      refine ⟨fun x' hx' => ?_, .inl ⟨y, hrun⟩⟩
      cases hrun.symm.trans hx'
      exact ⟨hkept, hiff⟩

end Rounds

/-- In a run every Bye carries the words of the last good answer, with no error, exactly when
every stream that is stopped was answered last with zeros. -/
theorem byes_right_throughout_iff (pb : Protobuf ReadyStoreStreamInfo) (junk : Nat → UInt8)
    (ret : Nat → Int) (calls : List LedgerCall) :
    (∀ u, u <+: calls → ∀ x, run (Ledger.step ret) u {} = .ok x → ByesRight pb junk x) ↔
      ∀ u c, u ++ [c] <+: calls → ∀ x, run (Ledger.step ret) u {} = .ok x → StopsZero c x := by
  have hempty : ByesRight pb junk {} := fun bye hbye => absurd hbye List.not_mem_nil
  have hstart : WordsKept {} := ⟨linked_start, fun s info hi => by simp at hi⟩
  refine prefix_iff (fun u => ∀ x, run (Ledger.step ret) u {} = .ok x →
    WordsKept x ∧ ByesRight pb junk x) calls ?_ ?_ ?_ ?_
  · intro x hx
    cases hx
    exact hempty
  · intro x hx
    cases hx
    exact ⟨hstart, hempty⟩
  · intro u c _ hgood
    constructor
    · intro hright x hx
      obtain ⟨h, -⟩ := hgood x hx
      obtain ⟨hstep, hor⟩ := ledger_step pb junk h ret c
      refine hor.elim (fun ⟨x', hx'⟩ => ?_) id
      exact ((hstep x' hx').2.mp (hright x' (run_snoc_ok.mpr ⟨x, hx, hx'⟩))).2
    · intro hstops x' hx'
      obtain ⟨x, hx, hstep⟩ := run_snoc_ok.mp hx'
      obtain ⟨h, hb⟩ := hgood x hx
      exact (((ledger_step pb junk h ret c).1 x' hstep).2).mpr ⟨hb, hstops x hx⟩
  · intro u c _ hgood hright x' hx'
    obtain ⟨x, hx, hstep⟩ := run_snoc_ok.mp hx'
    obtain ⟨h, -⟩ := hgood x hx
    exact ⟨((ledger_step pb junk h ret c).1 x' hstep).1, hright x' hx'⟩

/-- The camera answered with the words 1 and 2, and the Bye says error 1 and the words 2 and 0;
a session that was never answered gets a Bye too. -/
theorem bye_words_shifted :
    (∃ x, run (Ledger.step fun _ => 0) [.call (.update (mondayPlan "a" 9)), .call (.check 1 9),
        .call (.ack "a" 1 2 0), .call (.check 1 10)] {} = .ok x ∧
      x.byes = [{ streamid := "a", call := .name "MS_DS.Bye" 1 2 0, accepted := some (1, 2) }] ∧
      ∀ pb junk, ¬ ByesRight pb junk x) ∧
    (∃ x, run (Ledger.step fun _ => 0) [.call (.update (mondayPlan "a" 9)), .call (.check 1 9),
        .call (.check 1 10)] {} = .ok x ∧
      x.byes = [{ streamid := "a", call := .name "MS_DS.Bye" 0 0 0, accepted := none }] ∧
      ∀ pb junk, ¬ ByesRight pb junk x) := by
  have hshifted : (run (Ledger.step fun _ => 0) [.call (.update (mondayPlan "a" 9)),
      .call (.check 1 9), .call (.ack "a" 1 2 0), .call (.check 1 10)] {}).map Ledger.byes =
        .ok [{ streamid := "a", call := .name "MS_DS.Bye" 1 2 0, accepted := some (1, 2) }] := by
    decide
  have hunasked : (run (Ledger.step fun _ => 0) [.call (.update (mondayPlan "a" 9)),
      .call (.check 1 9), .call (.check 1 10)] {}).map Ledger.byes =
        .ok [{ streamid := "a", call := .name "MS_DS.Bye" 0 0 0, accepted := none }] := by
    decide
  obtain ⟨x, hx, hbyes⟩ := map_ok_iff.mp hshifted
  obtain ⟨y, hy, hbyes'⟩ := map_ok_iff.mp hunasked
  refine ⟨⟨x, hx, hbyes, fun pb junk hright => ?_⟩, ⟨y, hy, hbyes', fun pb junk hright => ?_⟩⟩
  · obtain ⟨p1, p2, -, herr, -⟩ := hright _ (hbyes ▸ List.mem_cons_self)
    rw [decodedHead_bye] at herr
    exact absurd herr (by decide)
  · obtain ⟨p1, p2, hacc, -⟩ := hright _ (hbyes' ▸ List.mem_cons_self)
    cases hacc

end LazyNet.Streams
