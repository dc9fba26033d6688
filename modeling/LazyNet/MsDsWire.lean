import LazyNet.Lib.WireFormat
import LazyNet.MsDsProtocol

/-! The generated code of the messages in `MS_DS.proto`: partial parsing from the wire format,
serialization, and the check for required fields. -/
namespace LazyNet.MsDsProtocol
open LazyNet.WireFormat LazyNet.ExternalMsgCodec

def Weekday.ofNumber (v : UInt32) : Option Weekday :=
  [Weekday.MON, .TUE, .WED, .THU, .FRI, .SAT, .SUN].find? fun w => w.number.val = v.toNat

/-- A value that is no weekday goes to the unknown fields. -/
def Weekday.read (v : Value) : Option Weekday := v.uint32.bind Weekday.ofNumber

theorem Weekday.ofNumber_some {v : UInt32} {w : Weekday} (h : Weekday.ofNumber v = some w) :
    v.toNat = w.number.val := by
  have hw := List.find?_some h
  simpa using (of_decide_eq_true hw).symm

structure SystemInfo where
  maxnetbandwidth_ : Option UInt32
  /-- the bits of the `double`, here and below -/
  currentnetbandwidth_ : Option UInt64
  currentnetbandwidthpercent_ : Option UInt64
  maxmemory_ : Option UInt64
  currentmemory_ : Option UInt64
  currentmemoryusagepercent_ : Option UInt64
  maxcpunumber_ : Option UInt32
  currentcpuusagepercent_ : Option UInt64
  deriving DecidableEq, Repr

inductive MessageType where
  | dsRegister | dsRegisterACK | storeTimePhrase | streamPlanInfo | storePlan
  | readyStoreStreamInfo | readyStoreStreamInfoACK | systemInfo
  deriving DecidableEq, Repr

def MessageType.full_name : MessageType → String
  | .dsRegister => "MS_DS.DSRegister"
  | .dsRegisterACK => "MS_DS.DSRegisterACK"
  | .storeTimePhrase => "MS_DS.StoreTimePhrase"
  | .streamPlanInfo => "MS_DS.StreamPlanInfo"
  | .storePlan => "MS_DS.StorePlan"
  | .readyStoreStreamInfo => "MS_DS.ReadyStoreStreamInfo"
  | .readyStoreStreamInfoACK => "MS_DS.ReadyStoreStreamInfoACK"
  | .systemInfo => "MS_DS.SystemInfo"

def FindMessageTypeByName (name : String) : Option MessageType :=
  [MessageType.dsRegister, .dsRegisterACK, .storeTimePhrase, .streamPlanInfo, .storePlan,
    .readyStoreStreamInfo, .readyStoreStreamInfoACK, .systemInfo].find? fun type =>
      type.full_name = name

/-- A message of one of the types, each field that may be absent as an option. -/
inductive MsDsMessage where
  | dsRegister (ip_ : Option String) (port_ pid_ : Option UInt32)
  | dsRegisterACK (gid_ : Option UInt32)
  | storeTimePhrase (m : StoreTimePhrase)
  | streamPlanInfo (m : StreamPlanInfo)
  | storePlan (m : StorePlan)
  | readyStoreStreamInfo (streamid_ recvcameraport_ : Option String)
  | readyStoreStreamInfoACK (streamid_ : Option String)
  | systemInfo (m : SystemInfo)
  deriving DecidableEq, Repr

def MsDsMessage.type : MsDsMessage → MessageType
  | .dsRegister .. => .dsRegister
  | .dsRegisterACK _ => .dsRegisterACK
  | .storeTimePhrase _ => .storeTimePhrase
  | .streamPlanInfo _ => .streamPlanInfo
  | .storePlan _ => .storePlan
  | .readyStoreStreamInfo .. => .readyStoreStreamInfo
  | .readyStoreStreamInfoACK _ => .readyStoreStreamInfoACK
  | .systemInfo _ => .systemInfo

theorem FindMessageTypeByName_full_name (type : MessageType) :
    FindMessageTypeByName type.full_name = some type := by
  cases type <;> decide

def StoreTimePhrase.ofFields (fs : List Field) : StoreTimePhrase where
  weekday_ := lastOf Weekday.read 1 fs
  storetime_ := lastOf Value.uint32 2 fs

def StreamPlanInfo.ofFields (fs : List Field) : Option StreamPlanInfo :=
  (nested (fun sub => some (StoreTimePhrase.ofFields sub)) 3 fs).map fun phrases =>
    { streamid_ := lastOf Value.string 1 fs
      expireddays_ := lastOf Value.uint32 2 fs
      storetimephrase := phrases
      cameraip_ := lastOf Value.string 4 fs
      cameraport_ := lastOf Value.string 5 fs
      streamtype_ := lastOf Value.string 6 fs
      coderate_ := lastOf Value.uint32 7 fs
      framerate_ := lastOf Value.float 8 fs
      moreinformation_ := lastOf Value.string 9 fs }

/-- The task ids and the camera name are passed over: nothing reads them. -/
def StorePlan.ofFields (fs : List Field) : Option StorePlan :=
  (nested StreamPlanInfo.ofFields 1 fs).map fun infos =>
    { streamplaninfo := infos, empty_ := lastOf Value.bool 3 fs }

def SystemInfo.ofFields (fs : List Field) : SystemInfo where
  maxnetbandwidth_ := lastOf Value.uint32 1 fs
  currentnetbandwidth_ := lastOf Value.double 2 fs
  currentnetbandwidthpercent_ := lastOf Value.double 3 fs
  maxmemory_ := lastOf Value.double 4 fs
  currentmemory_ := lastOf Value.double 5 fs
  currentmemoryusagepercent_ := lastOf Value.double 6 fs
  maxcpunumber_ := lastOf Value.uint32 7 fs
  currentcpuusagepercent_ := lastOf Value.double 8 fs

def MessageType.ofFields (fs : List Field) : MessageType → Option MsDsMessage
  | .dsRegister =>
    some (.dsRegister (lastOf Value.string 1 fs) (lastOf Value.uint32 2 fs)
      (lastOf Value.uint32 3 fs))
  | .dsRegisterACK => some (.dsRegisterACK (lastOf Value.uint32 1 fs))
  | .storeTimePhrase => some (.storeTimePhrase (StoreTimePhrase.ofFields fs))
  | .streamPlanInfo => (StreamPlanInfo.ofFields fs).map .streamPlanInfo
  | .storePlan => (StorePlan.ofFields fs).map .storePlan
  | .readyStoreStreamInfo =>
    some (.readyStoreStreamInfo (lastOf Value.string 1 fs) (lastOf Value.string 2 fs))
  | .readyStoreStreamInfoACK => some (.readyStoreStreamInfoACK (lastOf Value.string 1 fs))
  | .systemInfo => some (.systemInfo (SystemInfo.ofFields fs))

/-- What `ParsePartialFromArray` makes of the bytes if it accepts them. -/
def parsePartial (name : String) (bs : List UInt8) : Option MsDsMessage :=
  (FindMessageTypeByName name).bind fun type => (fields bs).bind fun fs => type.ofFields fs

section Serialize

def Weekday.write (w : Weekday) : Value := .varint (UInt64.ofNat w.number)

def StoreTimePhrase.toFields (m : StoreTimePhrase) : List Field :=
  fieldsOf Weekday.write 1 m.weekday_.toList ++ fieldsOf Value.ofUInt32 2 m.storetime_.toList

def StreamPlanInfo.toFields (m : StreamPlanInfo) : List Field :=
  fieldsOf Value.ofString 1 m.streamid_.toList ++
  fieldsOf Value.ofUInt32 2 m.expireddays_.toList ++
  fieldsOf (fun p => .bytes (p.toFields.flatMap Field.write)) 3 m.storetimephrase ++
  fieldsOf Value.ofString 4 m.cameraip_.toList ++
  fieldsOf Value.ofString 5 m.cameraport_.toList ++
  fieldsOf Value.ofString 6 m.streamtype_.toList ++
  fieldsOf Value.ofUInt32 7 m.coderate_.toList ++
  fieldsOf Value.fixed32 8 m.framerate_.toList ++
  fieldsOf Value.ofString 9 m.moreinformation_.toList

def StorePlan.toFields (m : StorePlan) : List Field :=
  fieldsOf (fun i => .bytes (i.toFields.flatMap Field.write)) 1 m.streamplaninfo ++
  fieldsOf Value.ofBool 3 m.empty_.toList

def SystemInfo.toFields (m : SystemInfo) : List Field :=
  fieldsOf Value.ofUInt32 1 m.maxnetbandwidth_.toList ++
  fieldsOf Value.fixed64 2 m.currentnetbandwidth_.toList ++
  fieldsOf Value.fixed64 3 m.currentnetbandwidthpercent_.toList ++
  fieldsOf Value.fixed64 4 m.maxmemory_.toList ++
  fieldsOf Value.fixed64 5 m.currentmemory_.toList ++
  fieldsOf Value.fixed64 6 m.currentmemoryusagepercent_.toList ++
  fieldsOf Value.ofUInt32 7 m.maxcpunumber_.toList ++
  fieldsOf Value.fixed64 8 m.currentcpuusagepercent_.toList

def MsDsMessage.toFields : MsDsMessage → List Field
  | .dsRegister ip_ port_ pid_ =>
    fieldsOf Value.ofString 1 ip_.toList ++ fieldsOf Value.ofUInt32 2 port_.toList ++
      fieldsOf Value.ofUInt32 3 pid_.toList
  | .dsRegisterACK gid_ => fieldsOf Value.ofUInt32 1 gid_.toList
  | .storeTimePhrase m => m.toFields
  | .streamPlanInfo m => m.toFields
  | .storePlan m => m.toFields
  | .readyStoreStreamInfo streamid_ recvcameraport_ =>
    fieldsOf Value.ofString 1 streamid_.toList ++ fieldsOf Value.ofString 2 recvcameraport_.toList
  | .readyStoreStreamInfoACK streamid_ => fieldsOf Value.ofString 1 streamid_.toList
  | .systemInfo m => m.toFields

def MsDsMessage.serialize (m : MsDsMessage) : List UInt8 := m.toFields.flatMap Field.write

/-- What the codec uses of the generated code, near enough for bytes that were serialized: of
others it also accepts some that the generated code rejects, a string that the end cuts short
among them. A message whose size is no `int` is not written. -/
def msDsProtobuf : Protobuf MsDsMessage where
  full_name m := m.type.full_name
  serialize m := if m.serialize.length < 2 ^ 31 then m.serialize else []
  byteSize_lt m := by
    split_ifs with h
    · exact h
    · decide
  generated name := (FindMessageTypeByName name).isSome
  generated_empty := by decide
  parsePartial name data size :=
    if 0 ≤ size then parsePartial name ((List.range size.toNat).map data) else none

end Serialize

section RoundTrip

def Latin1 (s : String) : Prop := ∀ c ∈ s.toList, c.toNat < 256

def StreamPlanInfo.strings (m : StreamPlanInfo) : List String :=
  m.streamid_.toList ++ m.cameraip_.toList ++ m.cameraport_.toList ++ m.streamtype_.toList ++
    m.moreinformation_.toList

def MsDsMessage.strings : MsDsMessage → List String
  | .dsRegister ip_ _ _ => ip_.toList
  | .streamPlanInfo m => m.strings
  | .storePlan m => m.streamplaninfo.flatMap StreamPlanInfo.strings
  | .readyStoreStreamInfo streamid_ recvcameraport_ => streamid_.toList ++ recvcameraport_.toList
  | .readyStoreStreamInfoACK streamid_ => streamid_.toList
  | _ => []

theorem string_ofString {s : String} (h : Latin1 s) : (Value.ofString s).string = some s := by
  have hmap : (s.toList.map fun c => UInt8.ofNat c.toNat).map (fun b => Char.ofNat b.toNat) =
      s.toList := by
    rw [List.map_map]
    refine (List.map_congr_left fun c hc => ?_).trans (List.map_id _)
    have hb : (UInt8.ofNat c.toNat).toNat = c.toNat := by
      rw [UInt8.toNat_ofNat']
      exact Nat.mod_eq_of_lt (h c hc)
    simp [hb]
  rw [Value.ofString, Value.string, hmap, String.ofList_toList]

theorem lastOf_string {n : Nat} {o : Option String} (h : ∀ s ∈ o.toList, Latin1 s) :
    lastOf Value.string n (fieldsOf Value.ofString n o.toList) = o :=
  lastOf_fieldsOf fun s hs => string_ofString (h s hs)

theorem lastOf_uint32 (n : Nat) (o : Option UInt32) :
    lastOf Value.uint32 n (fieldsOf Value.ofUInt32 n o.toList) = o :=
  lastOf_fieldsOf fun v _ => by simp [Value.ofUInt32, Value.uint32]

theorem lastOf_bool (n : Nat) (o : Option Bool) :
    lastOf Value.bool n (fieldsOf Value.ofBool n o.toList) = o :=
  lastOf_fieldsOf fun b _ => by cases b <;> rfl

theorem lastOf_float (n : Nat) (o : Option UInt32) :
    lastOf Value.float n (fieldsOf Value.fixed32 n o.toList) = o :=
  lastOf_fieldsOf fun _ _ => rfl

theorem lastOf_double (n : Nat) (o : Option UInt64) :
    lastOf Value.double n (fieldsOf Value.fixed64 n o.toList) = o :=
  lastOf_fieldsOf fun _ _ => rfl

theorem lastOf_weekday (n : Nat) (o : Option Weekday) :
    lastOf Weekday.read n (fieldsOf Weekday.write n o.toList) = o :=
  lastOf_fieldsOf fun w _ => by cases w <;> rfl

theorem fields_serialize {m : MsDsMessage} (h : m.serialize.length < 2 ^ 32) :
    fields m.serialize = some m.toFields := by
  refine fields_write (fits_of_length ?_ h)
  cases m <;> simp only [MsDsMessage.toFields, StoreTimePhrase.toFields, StreamPlanInfo.toFields,
    StorePlan.toFields, SystemInfo.toFields, fieldsOf, List.forall_mem_append,
    List.forall_mem_map] <;> simp

theorem StoreTimePhrase.ofFields_toFields (m : StoreTimePhrase) : ofFields m.toFields = m := by
  simp [ofFields, toFields, lastOf_append, lastOf_fieldsOf_ne, lastOf_weekday, lastOf_uint32]

theorem StreamPlanInfo.ofFields_toFields {m : StreamPlanInfo} (h : ∀ s ∈ m.strings, Latin1 s)
    (hlen : (MsDsMessage.streamPlanInfo m).serialize.length < 2 ^ 32) :
    ofFields m.toFields = some m := by
  have hphrases : nested (fun sub => some (StoreTimePhrase.ofFields sub)) 3 m.toFields =
      some m.storetimephrase := by
    refine nested_written (w := fun p => (MsDsMessage.storeTimePhrase p).serialize) ?_ hlen ?_
    · simp [toFields, allOf_append, allOf_fieldsOf_ne, allOf_message, MsDsMessage.serialize,
        MsDsMessage.toFields]
    · intro p _ hp
      rw [fields_serialize hp, Option.bind_some]
      exact congrArg some p.ofFields_toFields
  simp only [strings, List.forall_mem_append] at h
  obtain ⟨⟨⟨⟨h1, h4⟩, h5⟩, h6⟩, h9⟩ := h
  rw [ofFields, hphrases]
  simp [toFields, lastOf_append, lastOf_fieldsOf_ne, lastOf_uint32, lastOf_float,
    lastOf_string h1, lastOf_string h4, lastOf_string h5, lastOf_string h6, lastOf_string h9]

theorem StorePlan.ofFields_toFields {m : StorePlan}
    (h : ∀ i ∈ m.streamplaninfo, ∀ s ∈ i.strings, Latin1 s)
    (hlen : (MsDsMessage.storePlan m).serialize.length < 2 ^ 32) :
    ofFields m.toFields = some m := by
  have hinfos : nested StreamPlanInfo.ofFields 1 m.toFields = some m.streamplaninfo := by
    refine nested_written (w := fun i => (MsDsMessage.streamPlanInfo i).serialize) ?_ hlen ?_
    · simp [toFields, allOf_append, allOf_fieldsOf_ne, allOf_message, MsDsMessage.serialize,
        MsDsMessage.toFields]
    · intro i hi hshort
      rw [fields_serialize hshort, Option.bind_some]
      exact StreamPlanInfo.ofFields_toFields (h i hi) hshort
  rw [ofFields, hinfos]
  simp [toFields, lastOf_append, lastOf_fieldsOf_ne, lastOf_bool]

theorem parsePartial_serialize {m : MsDsMessage} (h : ∀ s ∈ m.strings, Latin1 s)
    (hlen : m.serialize.length < 2 ^ 32) :
    parsePartial m.type.full_name m.serialize = some m := by
  rw [parsePartial, FindMessageTypeByName_full_name, Option.bind_some, fields_serialize hlen,
    Option.bind_some]
  cases m with
  | storeTimePhrase m =>
    exact congrArg (fun p => some (MsDsMessage.storeTimePhrase p)) m.ofFields_toFields
  | streamPlanInfo m =>
    exact congrArg (Option.map MsDsMessage.streamPlanInfo) (StreamPlanInfo.ofFields_toFields h hlen)
  | storePlan m =>
    have hi : ∀ i ∈ m.streamplaninfo, ∀ s ∈ i.strings, Latin1 s :=
      fun i hi s hs => h s (List.mem_flatMap.mpr ⟨i, hi, hs⟩)
    exact congrArg (Option.map MsDsMessage.storePlan) (StorePlan.ofFields_toFields hi hlen)
  | systemInfo m =>
    simp [MsDsMessage.type, MsDsMessage.toFields, MessageType.ofFields, SystemInfo.ofFields,
      SystemInfo.toFields, lastOf_append, lastOf_fieldsOf_ne, lastOf_uint32, lastOf_double]
  | readyStoreStreamInfo streamid_ recvcameraport_ =>
    simp only [MsDsMessage.strings, List.forall_mem_append] at h
    simp [MsDsMessage.type, MsDsMessage.toFields, MessageType.ofFields, lastOf_append,
      lastOf_fieldsOf_ne, lastOf_string h.1, lastOf_string h.2]
  | dsRegister ip_ port_ pid_ =>
    simp [MsDsMessage.type, MsDsMessage.toFields, MessageType.ofFields, lastOf_append,
      lastOf_fieldsOf_ne, lastOf_uint32, lastOf_string h]
  | dsRegisterACK gid_ =>
    simp [MsDsMessage.type, MsDsMessage.toFields, MessageType.ofFields, lastOf_uint32]
  | readyStoreStreamInfoACK streamid_ =>
    simp [MsDsMessage.type, MsDsMessage.toFields, MessageType.ofFields, lastOf_string h]

end RoundTrip

section Initialized

def StoreTimePhrase.IsInitialized (m : StoreTimePhrase) : Bool :=
  m.weekday_.isSome && m.storetime_.isSome

def StreamPlanInfo.IsInitialized (m : StreamPlanInfo) : Bool :=
  m.streamid_.isSome && m.expireddays_.isSome &&
    m.storetimephrase.all StoreTimePhrase.IsInitialized

def StorePlan.IsInitialized (m : StorePlan) : Bool :=
  m.empty_.isSome && m.streamplaninfo.all StreamPlanInfo.IsInitialized

def SystemInfo.IsInitialized (m : SystemInfo) : Bool :=
  m.maxnetbandwidth_.isSome && m.currentnetbandwidth_.isSome &&
    m.currentmemoryusagepercent_.isSome && m.currentcpuusagepercent_.isSome

def MsDsMessage.IsInitialized : MsDsMessage → Bool
  | .dsRegister ip_ port_ pid_ => ip_.isSome && port_.isSome && pid_.isSome
  | .dsRegisterACK gid_ => gid_.isSome
  | .storeTimePhrase m => m.IsInitialized
  | .streamPlanInfo m => m.IsInitialized
  | .storePlan m => m.IsInitialized
  | .readyStoreStreamInfo streamid_ recvcameraport_ => streamid_.isSome && recvcameraport_.isSome
  | .readyStoreStreamInfoACK streamid_ => streamid_.isSome
  | .systemInfo m => m.IsInitialized

end Initialized

section Complete

def Holding (C : List Field → Prop) (data : List UInt8) : Prop :=
  ∃ fs, fields data = some fs ∧ C fs

def PhraseComplete (fs : List Field) : Prop := Carries Weekday.read 1 fs ∧ Carries Value.uint32 2 fs

def InfoComplete (fs : List Field) : Prop :=
  Carries Value.string 1 fs ∧ Carries Value.uint32 2 fs ∧
    ∀ data ∈ allOf Value.message 3 fs, Holding PhraseComplete data

def PlanComplete (fs : List Field) : Prop :=
  Carries Value.bool 3 fs ∧ ∀ data ∈ allOf Value.message 1 fs, Holding InfoComplete data

def MessageType.Complete (fs : List Field) : MessageType → Prop
  | .dsRegister =>
    Carries Value.string 1 fs ∧ Carries Value.uint32 2 fs ∧ Carries Value.uint32 3 fs
  | .dsRegisterACK => Carries Value.uint32 1 fs
  | .storeTimePhrase => PhraseComplete fs
  | .streamPlanInfo => InfoComplete fs
  | .storePlan => PlanComplete fs
  | .readyStoreStreamInfo => Carries Value.string 1 fs ∧ Carries Value.string 2 fs
  | .readyStoreStreamInfoACK => Carries Value.string 1 fs
  | .systemInfo =>
    Carries Value.uint32 1 fs ∧ Carries Value.double 2 fs ∧ Carries Value.double 6 fs ∧
      Carries Value.double 8 fs

/-- The bytes are a message of the named type with every required field, at every depth. -/
def WireComplete (name : String) (bs : List UInt8) : Prop :=
  ∃ type, FindMessageTypeByName name = some type ∧ Holding (type.Complete ·) bs

theorem initialized_phrase (fs : List Field) :
    (StoreTimePhrase.ofFields fs).IsInitialized ↔ PhraseComplete fs := by
  simp [StoreTimePhrase.IsInitialized, StoreTimePhrase.ofFields, PhraseComplete, lastOf_isSome]

theorem initialized_nested {α : Type} {g : List Field → Option α} {n : Nat} {fs : List Field}
    {ms : List α} {C : List Field → Prop} {ini : α → Bool}
    (h : nested g n fs = some ms) (hg : ∀ sub m, g sub = some m → (ini m ↔ C sub)) :
    ms.all ini ↔ ∀ data ∈ allOf Value.message n fs, Holding C data := by
  rw [nested_eq_some] at h
  generalize allOf Value.message n fs = l at h
  induction h with
  | nil => simp
  | @cons data m l ms hm _ ih =>
    obtain ⟨sub, hsub, hm⟩ := hm
    have hhead : Holding C data ↔ ini m := by
      rw [hg sub m hm]
      exact ⟨fun ⟨_, hs, hc⟩ => Option.some_inj.mp (hsub.symm.trans hs) ▸ hc,
        fun hc => ⟨sub, hsub, hc⟩⟩
    rw [List.all_cons, Bool.and_eq_true, ih, List.forall_mem_cons, hhead]

theorem initialized_info {fs : List Field} {info : StreamPlanInfo}
    (h : StreamPlanInfo.ofFields fs = some info) : info.IsInitialized ↔ InfoComplete fs := by
  obtain ⟨phrases, hp, heq⟩ := Option.map_eq_some_iff.mp h
  have hall : phrases.all StoreTimePhrase.IsInitialized ↔
      ∀ data ∈ allOf Value.message 3 fs, Holding PhraseComplete data :=
    initialized_nested hp fun sub p hs => Option.some_inj.mp hs ▸ initialized_phrase sub
  subst heq
  rw [InfoComplete, ← hall]
  simp [StreamPlanInfo.IsInitialized, lastOf_isSome, and_assoc]

theorem initialized_plan {fs : List Field} {plan : StorePlan}
    (h : StorePlan.ofFields fs = some plan) : plan.IsInitialized ↔ PlanComplete fs := by
  obtain ⟨infos, hi, heq⟩ := Option.map_eq_some_iff.mp h
  have hall : infos.all StreamPlanInfo.IsInitialized ↔
      ∀ data ∈ allOf Value.message 1 fs, Holding InfoComplete data :=
    initialized_nested hi fun sub i hs => initialized_info hs
  subst heq
  rw [PlanComplete, ← hall]
  simp [StorePlan.IsInitialized, lastOf_isSome]

theorem initialized_ofFields {type : MessageType} {fs : List Field} {msg : MsDsMessage}
    (h : type.ofFields fs = some msg) : msg.IsInitialized ↔ type.Complete fs := by
  cases type with
  | streamPlanInfo =>
    obtain ⟨info, hi, heq⟩ := Option.map_eq_some_iff.mp h
    subst heq
    exact initialized_info hi
  | storePlan =>
    obtain ⟨plan, hp, heq⟩ := Option.map_eq_some_iff.mp h
    subst heq
    exact initialized_plan hp
  | storeTimePhrase =>
    cases h
    exact initialized_phrase fs
  | _ =>
    cases h
    simp [MsDsMessage.IsInitialized, MessageType.Complete, SystemInfo.IsInitialized,
      SystemInfo.ofFields, lastOf_isSome, and_assoc]

theorem initialized_iff {name : String} {bs : List UInt8} {msg : MsDsMessage}
    (h : parsePartial name bs = some msg) : msg.IsInitialized ↔ WireComplete name bs := by
  obtain ⟨type, htype, h⟩ := Option.bind_eq_some_iff.mp h
  obtain ⟨fs, hfs, h⟩ := Option.bind_eq_some_iff.mp h
  rw [initialized_ofFields h]
  constructor
  · exact fun hc => ⟨type, htype, fs, hfs, hc⟩
  · rintro ⟨type', htype', fs', hfs', hc⟩
    rw [htype] at htype'
    rw [hfs] at hfs'
    cases htype'
    cases hfs'
    exact hc

end Complete

end LazyNet.MsDsProtocol
