import LazyNet.ExternalMsgCodec

/-! The messages of the MS link, the commands they are registered under, and the wire format of
the shortest one. -/
namespace LazyNet.MsDsProtocol
open LazyNet.Words LazyNet.ExternalMsgCodec

def MSG_MS_DS_STOREPLAN : UInt32 := 0x610
def MSG_MS_DS_DSREGISTER : UInt32 := 0x611
def MSG_MS_DS_DSREGISTERACK : UInt32 := 0x612
def MSG_DS_MS_INVITE_CAMERA : UInt32 := 0x1005
def MSG_DS_MS_INVITE_CAMERA_ACK : UInt32 := 0x1006
def MSG_DS_MS_STORE_FINISH : UInt32 := 0x1013

/-- The `onCodec` calls of `DSServer::initAdmin`, in order. -/
def initAdmin : List (UInt32 × String) :=
  [(MSG_MS_DS_DSREGISTER, "MS_DS.DSRegister"),
   (MSG_MS_DS_DSREGISTERACK, "MS_DS.DSRegisterACK"),
   (MSG_MS_DS_STOREPLAN, "MS_DS.StorePlan"),
   (MSG_DS_MS_INVITE_CAMERA, "MS_DS.ReadyStoreStreamInfo"),
   (MSG_DS_MS_INVITE_CAMERA_ACK, "MS_DS.ReadyStoreStreamInfoACK"),
   (MSG_DS_MS_STORE_FINISH, "MS_DS.Bye")]

/-- The message types of `MS_DS.proto`; a `Bye` is not among them. -/
def messageTypes : List String :=
  ["MS_DS.DSRegister", "MS_DS.DSRegisterACK", "MS_DS.StoreTimePhrase", "MS_DS.StreamPlanInfo",
   "MS_DS.StorePlan", "MS_DS.ReadyStoreStreamInfo", "MS_DS.ReadyStoreStreamInfoACK",
   "MS_DS.SystemInfo"]

theorem initAdmin_distinct :
    (initAdmin.map Prod.fst).Nodup ∧ (initAdmin.map Prod.snd).Nodup := by decide

structure ReadyStoreStreamInfo where
  streamid : String
  recvcameraport : String
  deriving DecidableEq, Repr

inductive Weekday where
  | MON | TUE | WED | THU | FRI | SAT | SUN
  deriving DecidableEq, Repr

def Weekday.number : Weekday → Fin 8
  | .MON => 1
  | .TUE => 2
  | .WED => 3
  | .THU => 4
  | .FRI => 5
  | .SAT => 6
  | .SUN => 7

/-- A field that the sender left out is `none`; its getter then reads the default. -/
structure StoreTimePhrase where
  weekday_ : Option Weekday
  storetime_ : Option UInt32
  deriving DecidableEq, Repr

def StoreTimePhrase.weekday (p : StoreTimePhrase) : Weekday := p.weekday_.getD .MON
def StoreTimePhrase.storetime (p : StoreTimePhrase) : UInt32 := p.storetime_.getD 0

structure StreamPlanInfo where
  streamid_ : Option String
  expireddays_ : Option UInt32
  storetimephrase : List StoreTimePhrase
  cameraip_ : Option String
  cameraport_ : Option String
  streamtype_ : Option String
  coderate_ : Option UInt32
  /-- the bits of the `float` -/
  framerate_ : Option UInt32
  moreinformation_ : Option String
  deriving DecidableEq, Repr

namespace StreamPlanInfo

def streamid (i : StreamPlanInfo) : String := i.streamid_.getD ""
def expireddays (i : StreamPlanInfo) : UInt32 := i.expireddays_.getD 0
def cameraip (i : StreamPlanInfo) : String := i.cameraip_.getD ""
def cameraport (i : StreamPlanInfo) : String := i.cameraport_.getD ""
def streamtype (i : StreamPlanInfo) : String := i.streamtype_.getD ""
def coderate (i : StreamPlanInfo) : UInt32 := i.coderate_.getD 0
def framerate (i : StreamPlanInfo) : UInt32 := i.framerate_.getD 0
def moreinformation (i : StreamPlanInfo) : String := i.moreinformation_.getD ""

end StreamPlanInfo

structure StorePlan where
  streamplaninfo : List StreamPlanInfo
  empty_ : Option Bool
  deriving DecidableEq, Repr

def StorePlan.empty (m : StorePlan) : Bool := m.empty_.getD false

/-- The wire format of `DSRegisterACK` for group ids that take one varint byte: the tag of
field 1, then the id. -/
def ackProtobuf : Protobuf (Fin 128) where
  full_name _ := "MS_DS.DSRegisterACK"
  serialize gid := [0x08, UInt8.ofNat gid]
  byteSize_lt _ := by simp
  generated name := messageTypes.contains name
  generated_empty := by decide
  parsePartial name data size :=
    if name = "MS_DS.DSRegisterACK" ∧ size = 2 ∧ data 0 = 0x08 then
      if h : (data 1).toNat < 128 then some ⟨(data 1).toNat, h⟩ else none
    else none

theorem ackProtobuf_inverts : ackProtobuf.Inverts := by
  intro gid data h
  have h0 : data 0 = 0x08 := h 0 (by simp [ackProtobuf])
  have h1 : data 1 = UInt8.ofNat gid := h 1 (by simp [ackProtobuf])
  have hgid : (UInt8.ofNat gid).toNat = gid := by
    rw [UInt8.toNat_ofNat']
    omega
  simp [ackProtobuf, h0, h1, hgid]

/-- The wire format of `DSRegister` for the address 1.1.1.1:1 and process ids that take one varint
byte: each tag before its field. -/
def registerProtobuf : Protobuf (Fin 128) where
  full_name _ := "MS_DS.DSRegister"
  serialize pid := [0x0A, 7, 49, 46, 49, 46, 49, 46, 49, 0x10, 1, 0x18, UInt8.ofNat pid]
  byteSize_lt _ := by simp
  generated name := messageTypes.contains name
  generated_empty := by decide
  parsePartial name data size :=
    if name = "MS_DS.DSRegister" ∧ size = 13 ∧ (List.range 12).map data =
        [0x0A, 7, 49, 46, 49, 46, 49, 46, 49, 0x10, 1, 0x18] then
      if h : (data 12).toNat < 128 then some ⟨(data 12).toNat, h⟩ else none
    else none

end LazyNet.MsDsProtocol
