import LazyNet.PlanChecks
import LazyNet.Lib.Pieces

/-! The clock of a check. The day and the hour of the slot that it tests come from two readings,
and the slot of neither may be the one that is tested. -/
namespace LazyNet.Streams
open LazyNet.Pieces LazyNet.StepRuns
open StreamMgr

/-- A time zone: the seconds that local time is ahead, which change at certain instants. -/
abbrev Zone := StepFun Int

structure Tm where
  tm_wday : Fin 7
  tm_hour : Fin 24
  deriving DecidableEq, Repr

/-- The two fields that are read. The first of January 1970 was a Thursday. -/
def localtime (zone : Zone) (t : Int) : Tm :=
  let s := t + zone.value t
  { tm_wday := ⟨((s / 86400 + 4) % 7).toNat, by omega⟩
    tm_hour := ⟨(s / 3600 % 24).toNat, by omega⟩ }

/-- `checkStorePlan` where `time` gives `t₁` to `getCurDay` and `t₂` to `getCurHour`. -/
def checkStorePlanAt (ret : Nat → Int) (zone : Zone) (t₁ t₂ : Int) (m : StreamMgr) :
    Except Fault StreamMgr :=
  checkStorePlan ret (localtime zone t₁).tm_wday (localtime zone t₂).tm_hour m

def testedSlot (zone : Zone) (t₁ t₂ : Int) : Fin 8 × Fin 24 :=
  (getCurDay (localtime zone t₁).tm_wday, (localtime zone t₂).tm_hour)

def slotAt (zone : Zone) (t : Int) : Fin 8 × Fin 24 := testedSlot zone t t

/-- The slot that is tested is that of some instant between the two readings. -/
def TestsRealSlot (zone : Zone) (t₁ t₂ : Int) : Prop :=
  ∃ t, t₁ ≤ t ∧ t ≤ t₂ ∧ slotAt zone t = testedSlot zone t₁ t₂

def localHours (zone : Zone) (t : Int) : Int := (t + zone.value t) / 3600

/-- The hour count on the day of the first reading at the hour of the second. -/
def testedHours (zone : Zone) (t₁ t₂ : Int) : Int :=
  localHours zone t₁ / 24 * 24 + localHours zone t₂ % 24

/-- Between two changes of the zone local time counts through the hours, and it reaches the hour
of the week that is tested before the next change. -/
def SlotComesUp (zone : Zone) (t₁ t₂ : Int) : Prop :=
  ∃ p ∈ zone.pieces t₁ t₂, (testedHours zone t₁ t₂ - localHours zone p.1) % 168 ≤
    localHours zone p.2 - localHours zone p.1

theorem getCurDay_injective : Function.Injective getCurDay := by
  intro a b
  revert a b
  decide

variable {zone : Zone} {t t₁ t₂ : Int}

theorem localtime_wday (zone : Zone) (t : Int) : ((localtime zone t).tm_wday.val : Int) =
    (localHours zone t / 24 + 4) % 7 := by
  simp only [localtime, localHours]
  omega

theorem localtime_hour (zone : Zone) (t : Int) : ((localtime zone t).tm_hour.val : Int) =
    localHours zone t % 24 := by
  simp only [localtime, localHours]
  omega

theorem slotAt_eq_iff : slotAt zone t = testedSlot zone t₁ t₂ ↔
    (testedHours zone t₁ t₂ - localHours zone t) % 168 = 0 := by
  have hday := localtime_wday zone t
  have hday₁ := localtime_wday zone t₁
  have hhour := localtime_hour zone t
  have hhour₂ := localtime_hour zone t₂
  rw [slotAt, testedSlot, testedSlot, Prod.mk.injEq, getCurDay_injective.eq_iff, Fin.ext_iff,
    Fin.ext_iff, ← Int.natCast_inj, ← Int.natCast_inj, hday, hday₁, hhour, hhour₂, testedHours]
  omega

theorem hour_comes_up_iff {a b s o : Int} (hab : a ≤ b) :
    (∃ t, a ≤ t ∧ t ≤ b ∧ (s - (t + o) / 3600) % 168 = 0) ↔
      (s - (a + o) / 3600) % 168 ≤ (b + o) / 3600 - (a + o) / 3600 := by
  constructor
  · intro ⟨t, hat, htb, hs⟩
    omega
  · intro h
    -- the first second of that hour, unless the count starts inside of it
    refine ⟨max a (3600 * ((a + o) / 3600 + (s - (a + o) / 3600) % 168) - o), ?_, ?_, ?_⟩
    · omega
    · omega
    · omega

theorem testsRealSlot_on {a b s : Int} (hab : a ≤ b)
    (hconst : ∀ t, a ≤ t → t ≤ b → zone.value t = zone.value a) :
    (∃ t, a ≤ t ∧ t ≤ b ∧ (s - localHours zone t) % 168 = 0) ↔
      (s - localHours zone a) % 168 ≤ localHours zone b - localHours zone a := by
  have hb := hconst b hab (Int.le_refl b)
  rw [localHours, localHours, hb, ← hour_comes_up_iff hab]
  refine exists_congr fun t => and_congr_right fun hat => and_congr_right fun htb => ?_
  rw [localHours, hconst t hat htb]

theorem testsRealSlot_iff (zone : Zone) (h : t₁ ≤ t₂) :
    TestsRealSlot zone t₁ t₂ ↔ SlotComesUp zone t₁ t₂ := by
  simp only [TestsRealSlot, slotAt_eq_iff]
  rw [zone.exists_piece h]
  refine exists_congr fun p => and_congr_right fun hp => ?_
  exact testsRealSlot_on (zone.pieces_bounds h hp).2.1 fun t => zone.pieces_constant h hp

theorem checkStorePlanAt_real (h : TestsRealSlot zone t₁ t₂) :
    ∃ t, t₁ ≤ t ∧ t ≤ t₂ ∧ ∀ ret m,
      checkStorePlanAt ret zone t₁ t₂ m = checkStorePlanAt ret zone t t m := by
  obtain ⟨t, ht₁, ht₂, hslot⟩ := h
  rw [slotAt, testedSlot, testedSlot, Prod.mk.injEq, getCurDay_injective.eq_iff] at hslot
  refine ⟨t, ht₁, ht₂, fun ret m => ?_⟩
  rw [checkStorePlanAt, checkStorePlanAt, hslot.1, hslot.2]

/-- The slot that is tested is real exactly when it comes up between two changes of the zone. When
the zone does not change between the readings, that is when the hour of the second is not before
that of the first, or the second is a week later. -/
theorem tested_slot_real_iff (zone : Zone) (h : t₁ ≤ t₂) :
    (TestsRealSlot zone t₁ t₂ ↔ SlotComesUp zone t₁ t₂) ∧
    ((∀ t, t₁ ≤ t → t ≤ t₂ → zone.value t = zone.value t₁) →
      (TestsRealSlot zone t₁ t₂ ↔ localHours zone t₁ % 24 ≤ localHours zone t₂ % 24 ∨
        localHours zone t₁ / 24 + 7 ≤ localHours zone t₂ / 24)) := by
  refine ⟨testsRealSlot_iff zone h, fun hconst => ?_⟩
  have hmono : localHours zone t₁ ≤ localHours zone t₂ := by
    have hvalue := hconst t₂ h (Int.le_refl t₂)
    simp only [localHours, hvalue]
    omega
  simp only [TestsRealSlot, slotAt_eq_iff]
  rw [testsRealSlot_on h hconst, testedHours]
  omega

def greenwich : Zone := { first := 0, changes := [] }

/-- On a Monday the day is read in the last second, and the hour a second later: the check tests
the first hour of Monday, in which neither reading lies, and starts a stream that is planned for
that hour. -/
theorem midnight_tests_past_slot :
    let t₁ := 4 * 86400 + 86399
    let t₂ := 5 * 86400
    slotAt greenwich t₁ = (1, 23) ∧ slotAt greenwich t₂ = (2, 0) ∧
      testedSlot greenwich t₁ t₂ = (1, 0) ∧ ¬ TestsRealSlot greenwich t₁ t₂ ∧
      (checkStorePlanAt (fun _ => 0) greenwich t₁ t₂
        (updateStorePlan (mondayPlan "a" 0) {})).map (fun m => decide ("a" ∈ m.storeSess_)) =
        .ok true := by
  refine ⟨by decide, by decide, by decide, ?_, by decide⟩
  rintro ⟨t, ht₁, ht₂, hslot⟩
  obtain rfl | rfl : t = 4 * 86400 + 86399 ∨ t = 5 * 86400 := by omega
  · exact absurd hslot (by decide)
  · exact absurd hslot (by decide)

/-- A zone that goes an hour forward at one in the morning of the last Sunday of March 1996. -/
def summer : Zone := { first := 3600, changes := [(828234000, 7200)] }

theorem summer_slot_real_iff :
    (TestsRealSlot summer 828233999 828234000 ↔ SlotComesUp summer 828233999 828234000) ∧
    ((∀ t, 828233999 ≤ t → t ≤ 828234000 → summer.value t = summer.value 828233999) →
      (TestsRealSlot summer 828233999 828234000 ↔
        localHours summer 828233999 % 24 ≤ localHours summer 828234000 % 24 ∨
          localHours summer 828233999 / 24 + 7 ≤ localHours summer 828234000 / 24)) :=
  tested_slot_real_iff summer (by decide)

end LazyNet.Streams
