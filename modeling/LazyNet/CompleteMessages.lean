import LazyNet.DecodeBounds
import LazyNet.MsDsWire
import LazyNet.PlanChecks

/-! Required fields of decoded messages, and what a schedule entry without a weekday does to the
plan of its stream. -/
namespace LazyNet.CompleteMessages
open LazyNet.Words LazyNet.Tables LazyNet.WireFormat LazyNet.HandyBuffer LazyNet.ExternalMsgCodec
open LazyNet.MsDsProtocol LazyNet.Streams

/-- What the parser accepts it reads as `parsePartial` does. -/
def ReadsWire (pb : Protobuf MsDsMessage) : Prop :=
  ∀ name data size msg, pb.parsePartial name data size = some msg →
    parsePartial name ((List.range size.toNat).map data) = some msg

section Frames
variable (junk : Nat → UInt8) (r : Registry) (buf : Buffer)

def frameHead : BaseHead := loadHead (buf.mem junk) buf.b_

def frameType : String := (r.getType (frameHead junk buf).cmd).1

def bodyAt (i : Nat) : UInt8 := buf.mem junk (buf.b_ + headSize + i)

def frameBody : List UInt8 :=
  (List.range (toInt (frameHead junk buf).length).toNat).map (bodyAt junk buf)

structure Accepts (pb : Protobuf MsDsMessage) : Prop where
  head : 20 ≤ buf.size
  length : (frameHead junk buf).length ≠ 0
  generated : pb.generated (frameType junk r buf) = true
  parses : (pb.parsePartial (frameType junk r buf) (bodyAt junk buf)
    (toInt (frameHead junk buf).length)).isSome

end Frames

def Names (d : Fin 8) : List UInt8 → Prop :=
  Holding fun fs => ∃ x ∈ fs, x.number = 1 ∧ ∃ v, x.value.uint32 = some v ∧ v.toNat = d.val

/-- The phrases on the wire, in the data of a stream. -/
def phraseData (stream : List UInt8) : List (List UInt8) :=
  ((fields stream).map (allOf Value.message 3)).getD []

def streamData (body : List UInt8) : List (List UInt8) :=
  ((fields body).map (allOf Value.message 1)).getD []

/-- `timePhrase` after the first `i` turns of the loop in the constructor of a plan. -/
def scheduleAfter (info : StreamPlanInfo) (i : Nat) : Vector UInt32 8 :=
  (Plan.ofInfo { info with storetimephrase := info.storetimephrase.take i }).timePhrase

/-- A day is set only where a phrase on the wire names it, and the turn of a phrase that names
no day of the week changes nothing. -/
structure ScheduleExact (stream : List UInt8) (info : StreamPlanInfo) : Prop where
  named : ∀ d : Fin 8, 1 ≤ d → (Plan.ofInfo info).timePhrase.get d ≠ 0 →
    ∃ phrase ∈ phraseData stream, Names d phrase
  kept : ∀ i phrase, (phraseData stream)[i]? = some phrase →
    (∀ d : Fin 8, 1 ≤ d → ¬ Names d phrase) → scheduleAfter info (i + 1) = scheduleAfter info i

/-- A decoded message has its required fields, and each stream of a decoded store plan the
schedule that its data on the wire names. -/
structure OnlyComplete (d : Decoded MsDsMessage) (body : List UInt8) : Prop where
  initialized : ∀ msg, d.msg = some msg → msg.IsInitialized
  schedule : ∀ plan, d.msg = some (.storePlan plan) →
    List.Forall₂ ScheduleExact (streamData body) plan.streamplaninfo

theorem names_of_weekday {phrase : List UInt8} {sub : List Field} (hsub : fields phrase = some sub)
    {w : Weekday} (hw : (StoreTimePhrase.ofFields sub).weekday_ = some w) :
    Names w.number phrase := by
  obtain ⟨x, hx, hn, hread⟩ := lastOf_mem hw
  obtain ⟨v, hv, hday⟩ := Option.bind_eq_some_iff.mp hread
  exact ⟨sub, hsub, x, hx, hn, v, hv, Weekday.ofNumber_some hday⟩

theorem StoreTimePhrase.weekday_of_initialized {p : StoreTimePhrase} (h : p.IsInitialized) :
    p.weekday_ = some p.weekday := by
  simp only [StoreTimePhrase.IsInitialized, Bool.and_eq_true] at h
  obtain ⟨w, hw⟩ := Option.isSome_iff_exists.mp h.1
  rw [StoreTimePhrase.weekday, hw, Option.getD_some]

theorem one_le_number (w : Weekday) : 1 ≤ w.number := by cases w <;> decide

theorem scheduleExact_of_initialized {stream : List UInt8} {sub : List Field}
    {info : StreamPlanInfo} (hsub : fields stream = some sub)
    (hinfo : StreamPlanInfo.ofFields sub = some info) (hini : info.IsInitialized) :
    ScheduleExact stream info := by
  have hdata : phraseData stream = allOf Value.message 3 sub := by simp [phraseData, hsub]
  obtain ⟨phrases, hp, heq⟩ := Option.map_eq_some_iff.mp hinfo
  have hlist : info.storetimephrase = phrases := by rw [← heq]
  have hall : ∀ p ∈ phrases, p.IsInitialized := by
    simp only [StreamPlanInfo.IsInitialized, Bool.and_eq_true, List.all_eq_true] at hini
    rw [← hlist]
    exact hini.2
  -- a phrase that was read names its weekday on the wire
  have hnames : ∀ p ∈ phrases, ∀ phrase ps, fields phrase = some ps →
      some (StoreTimePhrase.ofFields ps) = some p → Names p.weekday.number phrase := by
    intro p hmem phrase ps hps hof
    cases hof
    exact names_of_weekday hps (StoreTimePhrase.weekday_of_initialized (hall _ hmem))
  constructor
  · intro d _ hne
    rw [timePhrase_ofInfo, hlist] at hne
    cases hlast : lastFor (fun p => p.weekday.number) d phrases with
    | none => simp [hlast] at hne
    | some p =>
      have hmem : p ∈ phrases := (List.mem_filter.mp (List.mem_of_getLast? hlast)).1
      obtain ⟨phrase, hphrase, ps, hps, hof⟩ := nested_mem hp hmem
      have hday := hnames p hmem phrase ps hps hof
      rw [lastFor_key hlast] at hday
      exact ⟨phrase, hdata ▸ hphrase, hday⟩
  · intro i phrase hi hno
    rw [hdata] at hi
    obtain ⟨p, hmem, ps, hps, hof⟩ := nested_get hp hi
    exact absurd (hnames p hmem phrase ps hps hof) (hno _ (one_le_number _))

theorem dayless_phrase_turn {info : StreamPlanInfo} {i : Nat} {p : StoreTimePhrase}
    (hi : info.storetimephrase[i]? = some p) (hp : p.weekday_ = none) :
    scheduleAfter info (i + 1) = (scheduleAfter info i).set 1 p.storetime := by
  have hday : p.weekday = .MON := by rw [StoreTimePhrase.weekday, hp, Option.getD_none]
  simp only [scheduleAfter, Plan.ofInfo, List.take_add_one, hi, Option.toList_some,
    List.foldl_append, List.foldl_cons, List.foldl_nil, hday]
  rfl

theorem schedule_of_initialized {name : String} {body : List UInt8} {plan : StorePlan}
    (h : parsePartial name body = some (.storePlan plan)) (hini : plan.IsInitialized) :
    List.Forall₂ ScheduleExact (streamData body) plan.streamplaninfo := by
  obtain ⟨type, -, h⟩ := Option.bind_eq_some_iff.mp h
  obtain ⟨fs, hfs, h⟩ := Option.bind_eq_some_iff.mp h
  have hdata : streamData body = allOf Value.message 1 fs := by simp [streamData, hfs]
  have hplan : StorePlan.ofFields fs = some plan := by
    cases type with
    | storePlan =>
      obtain ⟨plan', hplan, heq⟩ := Option.map_eq_some_iff.mp h
      cases heq
      exact hplan
    | streamPlanInfo =>
      obtain ⟨info, -, heq⟩ := Option.map_eq_some_iff.mp h
      cases heq
    | _ => cases h
  obtain ⟨infos, hi, heq⟩ := Option.map_eq_some_iff.mp hplan
  have hlist : plan.streamplaninfo = infos := by rw [← heq]
  have hall : ∀ info ∈ infos, info.IsInitialized := by
    simp only [StorePlan.IsInitialized, Bool.and_eq_true, List.all_eq_true] at hini
    rw [← hlist]
    exact hini.2
  rw [nested_eq_some, List.forall₂_iff_zip] at hi
  rw [hdata, hlist, List.forall₂_iff_zip]
  refine ⟨hi.1, fun hmem => ?_⟩
  obtain ⟨sub, hsub, hinfo⟩ := hi.2 hmem
  exact scheduleExact_of_initialized hsub hinfo (hall _ (List.of_mem_zip hmem).2)

theorem decode_msg {Message : Type} (pb : Protobuf Message) (junk : Nat → UInt8) (r : Registry)
    (buf : Buffer) (info : BaseHead) (msg : Message) :
    (decode pb junk r buf info).msg = some msg ↔
      20 ≤ buf.size ∧ (frameHead junk buf).length ≠ 0 ∧
        pb.generated (frameType junk r buf) = true ∧
        pb.parsePartial (frameType junk r buf) (bodyAt junk buf)
          (toInt (frameHead junk buf).length) = some msg := by
  simp only [decode]
  split_ifs with hsz h0 hg
  · simp [Nat.not_le.mpr hsz]
  · simp [frameHead, h0]
  · have hpre : (frameHead junk buf).length ≠ 0 ∧ pb.generated (frameType junk r buf) = true :=
      ⟨h0, hg⟩
    rw [and_iff_right (Nat.not_lt.mp hsz), and_iff_right hpre.1, and_iff_right hpre.2]
    split
    · next hp =>
      constructor
      · intro h
        cases h
      · intro h
        cases hp.symm.trans h
    · next m hp => exact ⟨fun h => hp.trans h, fun h => hp.symm.trans h⟩
  · simp [frameType, frameHead, hg]

variable {pb : Protobuf MsDsMessage}

/-- Decoding returns only complete messages exactly when every frame whose body the parser
accepts carries what its type requires. -/
theorem only_complete_iff (hpb : ReadsWire pb) (junk : Nat → UInt8) (r : Registry) (buf : Buffer)
    (info : BaseHead) :
    OnlyComplete (decode pb junk r buf info) (frameBody junk buf) ↔
      (Accepts junk r buf pb → WireComplete (frameType junk r buf) (frameBody junk buf)) := by
  have hwire : ∀ msg, (decode pb junk r buf info).msg = some msg →
      parsePartial (frameType junk r buf) (frameBody junk buf) = some msg :=
    fun msg h => hpb _ _ _ _ ((decode_msg ..).mp h).2.2.2
  constructor
  · rintro h ⟨hsz, h0, hg, hp⟩
    obtain ⟨msg, hmsg⟩ := Option.isSome_iff_exists.mp hp
    have hdec : (decode pb junk r buf info).msg = some msg :=
      (decode_msg ..).mpr ⟨hsz, h0, hg, hmsg⟩
    exact (initialized_iff (hwire msg hdec)).mp (h.initialized msg hdec)
  · intro h
    have hini : ∀ msg, (decode pb junk r buf info).msg = some msg → msg.IsInitialized := by
      intro msg hmsg
      obtain ⟨hsz, h0, hg, hp⟩ := (decode_msg ..).mp hmsg
      exact (initialized_iff (hwire msg hmsg)).mpr (h ⟨hsz, h0, hg, by rw [hp]; rfl⟩)
    exact ⟨hini, fun plan hplan => schedule_of_initialized (hwire _ hplan) (hini _ hplan)⟩

theorem msDsProtobuf_readsWire : ReadsWire msDsProtobuf := by
  intro name data size msg h
  simp only [msDsProtobuf] at h
  split_ifs at h
  exact h

/-- The store plan of stream a that sets Monday to nine o'clock and then has one more phrase, of
these bytes. -/
def mondayThen (phrase : List UInt8) : List UInt8 :=
  let stream := [0x0A, 1, 97, 0x10, 7, 0x1A, 5, 0x08, 1, 0x10, 0x80, 4, 0x1A] ++
    UInt8.ofNat phrase.length :: phrase
  0x0A :: UInt8.ofNat stream.length :: stream ++ [0x18, 0]

def planFrame (body : List UInt8) : Buffer :=
  DecodeBounds.filled
    (headBytes { cmd := MSG_MS_DS_STOREPLAN, length := UInt32.ofNat body.length } ++ body)

def decodePlan (phrase : List UInt8) : Decoded MsDsMessage :=
  decode msDsProtobuf (fun _ => 0) (Registry.ofPairs initAdmin) (planFrame (mondayThen phrase)) {}

/-- A second phrase without a weekday is decoded, and its time is that of Monday. -/
theorem dayless_phrase_sets_monday :
    (∃ plan info, (decodePlan [0x10, 7]).msg = some (.storePlan plan) ∧
      plan.streamplaninfo = [info] ∧ (Plan.ofInfo info).timePhrase[1] = 7) ∧
    ¬ OnlyComplete (decodePlan [0x10, 7])
      (frameBody (fun _ => 0) (planFrame (mondayThen [0x10, 7]))) := by
  have hdec : (decodePlan [0x10, 7]).msg = some (.storePlan
      { streamplaninfo := [{
          streamid_ := some "a"
          expireddays_ := some 7
          storetimephrase := [{ weekday_ := some .MON, storetime_ := some 512 },
            { weekday_ := none, storetime_ := some 7 }]
          cameraip_ := none
          cameraport_ := none
          streamtype_ := none
          coderate_ := none
          framerate_ := none
          moreinformation_ := none }]
        empty_ := some false }) := by decide
  refine ⟨⟨_, _, hdec, rfl, by decide⟩, fun h => ?_⟩
  exact absurd (h.initialized _ hdec) (by decide)

theorem tuesday_phrase_complete :
    OnlyComplete (decodePlan [0x08, 2, 0x10, 7])
      (frameBody (fun _ => 0) (planFrame (mondayThen [0x08, 2, 0x10, 7]))) := by
  refine (only_complete_iff msDsProtobuf_readsWire _ _ _ _).mpr fun _ => ?_
  have hany : (parsePartial
      (frameType (fun _ => 0) (Registry.ofPairs initAdmin)
        (planFrame (mondayThen [0x08, 2, 0x10, 7])))
      (frameBody (fun _ => 0) (planFrame (mondayThen [0x08, 2, 0x10, 7])))).any
        MsDsMessage.IsInitialized = true := by decide
  obtain ⟨msg, hmsg, hini⟩ := (Option.any_eq_true ..).mp hany
  exact (initialized_iff hmsg).mp hini

end LazyNet.CompleteMessages
