import LazyNet.MsDsProtocol
import LazyNet.Lib.StepRuns

/-! The two tables of the codec over all calls that reach them. Commands and names are registered
as pairs, and are looked up through an access that inserts. -/
namespace LazyNet.ExternalMsgCodec
open LazyNet.Tables LazyNet.MsDsProtocol LazyNet.StepRuns

inductive RegistryCall where
  | onCodec (cmd : UInt32) (type : String)
  | getCmd (typeName : String)
  | getType (cmd : UInt32)
  deriving DecidableEq, Repr

def RegistryCall.run : RegistryCall → Registry → Registry
  | .onCodec cmd type, r => r.onCodec cmd type
  | .getCmd typeName, r => (r.getCmd typeName).2
  | .getType cmd, r => (r.getType cmd).2

def afterRegistryCalls (u : List RegistryCall) : Registry := u.foldl (fun r call => call.run r) {}

def passed (u : List RegistryCall) : List (UInt32 × String) :=
  u.filterMap fun
    | .onCodec cmd type => some (cmd, type)
    | .getCmd _ => none
    | .getType _ => none

def RegistryCall.isLookup : RegistryCall → Bool
  | .onCodec _ _ => false
  | .getCmd _ => true
  | .getType _ => true

/-- The tables hold registered pairs only, and each is the other read backwards. -/
structure Paired (r : Registry) (pairs : List (UInt32 × String)) : Prop where
  cmds : ∀ (cmd : UInt32) (type : String), r.cmd2Type_[cmd]? = some type → (cmd, type) ∈ pairs
  types : ∀ (type : String) (cmd : UInt32), r.type2Cmd_[type]? = some cmd → (cmd, type) ∈ pairs
  inverse : Inverses r.cmd2Type_ r.type2Cmd_

/-- A registration of a pair neither side of which is paired otherwise, or the lookup of what is
registered. -/
def KeepsPaired : RegistryCall → Registry → Prop
  | .onCodec cmd type, r =>
    (∀ type', r.cmd2Type_[cmd]? = some type' → type' = type) ∧
      ∀ cmd', r.type2Cmd_[type]? = some cmd' → cmd' = cmd
  | .getCmd typeName, r => typeName ∈ r.type2Cmd_
  | .getType cmd, r => cmd ∈ r.cmd2Type_

section Calls
variable {r : Registry} {pairs : List (UInt32 × String)} {u : List RegistryCall}

theorem afterRegistryCalls_snoc (u : List RegistryCall) (call : RegistryCall) :
    afterRegistryCalls (u ++ [call]) = call.run (afterRegistryCalls u) := by
  simp [afterRegistryCalls]

theorem passed_lookup {call : RegistryCall} (h : call.isLookup = true) :
    passed (u ++ [call]) = passed u := by
  cases call with
  | onCodec cmd type => cases h
  | getCmd typeName => simp [passed]
  | getType cmd => simp [passed]

theorem getCmd_known {typeName : String} (h : typeName ∈ r.type2Cmd_) :
    (r.getCmd typeName).2 = r := by
  obtain ⟨cmd, hcmd⟩ := mem_iff_get.mp h
  simp [Registry.getCmd, slot_of_get hcmd]

theorem getType_known {cmd : UInt32} (h : cmd ∈ r.cmd2Type_) : (r.getType cmd).2 = r := by
  obtain ⟨type, htype⟩ := mem_iff_get.mp h
  simp [Registry.getType, slot_of_get htype]

theorem paired_onCodec (h : Paired r pairs) (cmd : UInt32) (type : String) :
    Paired (r.onCodec cmd type) (pairs ++ [(cmd, type)]) ↔ KeepsPaired (.onCodec cmd type) r := by
  constructor
  · intro h'
    exact h.inverse.insert_iff.mp h'.inverse
  · intro hkeeps
    refine ⟨fun cmd' type' hget => ?_, fun type' cmd' hget => ?_, h.inverse.insert_iff.mpr hkeeps⟩
    · simp only [Registry.onCodec, get_insert] at hget
      rw [List.mem_append, List.mem_singleton]
      split_ifs at hget with heq
      · cases hget
        exact .inr (by rw [heq])
      · exact .inl (h.cmds cmd' type' hget)
    · simp only [Registry.onCodec, get_insert] at hget
      rw [List.mem_append, List.mem_singleton]
      split_ifs at hget with heq
      · cases hget
        exact .inr (by rw [heq])
      · exact .inl (h.types type' cmd' hget)

theorem paired_lookup (h : Paired r pairs) {call : RegistryCall} (hl : call.isLookup = true) :
    (Paired (call.run r) pairs ↔ KeepsPaired call r) ∧ (KeepsPaired call r → call.run r = r) := by
  cases call with
  | onCodec cmd type => cases hl
  | getCmd typeName =>
    refine ⟨⟨fun h' => ?_, fun hknown => ?_⟩, getCmd_known⟩
    · by_contra hnot
      simp only [RegistryCall.run, Registry.getCmd, slot_of_notMem hnot] at h'
      exact h.inverse.symm.not_insert hnot h'.inverse.symm
    · rw [RegistryCall.run, getCmd_known hknown]
      exact h
  | getType cmd =>
    refine ⟨⟨fun h' => ?_, fun hknown => ?_⟩, getType_known⟩
    · by_contra hnot
      simp only [RegistryCall.run, Registry.getType, slot_of_notMem hnot] at h'
      exact h.inverse.not_insert hnot h'.inverse
    · rw [RegistryCall.run, getType_known hknown]
      exact h

theorem paired_call (h : Paired (afterRegistryCalls u) (passed u)) (call : RegistryCall) :
    Paired (afterRegistryCalls (u ++ [call])) (passed (u ++ [call])) ↔
      KeepsPaired call (afterRegistryCalls u) := by
  rw [afterRegistryCalls_snoc]
  by_cases hl : call.isLookup = true
  · rw [passed_lookup hl]
    exact (paired_lookup h hl).1
  · cases call with
    | onCodec cmd type =>
      have hpassed : passed (u ++ [.onCodec cmd type]) = passed u ++ [(cmd, type)] := by
        simp [passed]
      rw [hpassed]
      exact paired_onCodec h cmd type
    | getCmd typeName => exact absurd rfl hl
    | getType cmd => exact absurd rfl hl

end Calls

/-- The tables stay paired, and no lookup changes them, exactly when no registration takes a side
of another pair and no lookup misses. -/
theorem paired_throughout_iff (calls : List RegistryCall) :
    ((∀ u, u <+: calls → Paired (afterRegistryCalls u) (passed u)) ∧
      ∀ u call, u ++ [call] <+: calls → call.isLookup = true →
        call.run (afterRegistryCalls u) = afterRegistryCalls u) ↔
    ∀ u call, u ++ [call] <+: calls → KeepsPaired call (afterRegistryCalls u) := by
  have hstart : Paired (afterRegistryCalls []) (passed []) :=
    ⟨fun cmd type h => by simp [afterRegistryCalls] at h,
      fun type cmd h => by simp [afterRegistryCalls] at h,
      fun cmd type => by simp [afterRegistryCalls]⟩
  have hiff : (∀ u, u <+: calls → Paired (afterRegistryCalls u) (passed u)) ↔
      ∀ u call, u ++ [call] <+: calls → KeepsPaired call (afterRegistryCalls u) :=
    prefix_iff (fun u => Paired (afterRegistryCalls u) (passed u)) calls hstart hstart
      (fun u call _ hu => paired_call hu call) (fun u call _ _ h => h)
  constructor
  · intro h
    exact hiff.mp h.1
  · intro h
    have hpaired := hiff.mpr h
    refine ⟨hpaired, fun u call hu hl => ?_⟩
    exact (paired_lookup (hpaired u ((List.prefix_append _ _).trans hu)) hl).2 (h u call hu)

/-- The registrations of the server, and the lookup that `decode` makes for a frame with command
7. -/
def strangeCommand : List RegistryCall :=
  initAdmin.map (fun p => .onCodec p.1 p.2) ++ [.getType 7]

theorem strange_command_registered :
    (afterRegistryCalls strangeCommand).cmd2Type_[(7 : UInt32)]? = some "" ∧
      ¬ Paired (afterRegistryCalls strangeCommand) (passed strangeCommand) := by
  have hget : (afterRegistryCalls strangeCommand).cmd2Type_[(7 : UInt32)]? = some "" := by decide
  refine ⟨hget, fun h => ?_⟩
  exact absurd (h.cmds 7 "" hget) (by decide)

end LazyNet.ExternalMsgCodec
