import Mathlib.Tactic.SplitIfs
import Thumos.Lib.GuardedRun
import Thumos.Security.Basic

/-!
# The wall clock

`ClockManager` keeps the last reading of each source with the tick at which it was
stored, and serves the first fresh one: GPS for 60 seconds, then NTP for 300.  A
reading that steps too far is refused, but only against the clock of the moment.
An NTP reading that arrives while GPS is fresh is stored without any check, and is
served when GPS has gone stale.

`Vetted` says that readings which are fresh together agree.  With it every clock
that is served continues the one served before.
-/

namespace Thumos

open GuardedRun Option

structure GpsTime where
  year : UInt16
  month : UInt8
  day : UInt8
  hour : UInt8
  minute : UInt8
  second : UInt8
  deriving DecidableEq

/-- The estimate of the source: 365 days and a quarter for a year, 30 for a month.
It is below `2 ^ 42`, so `u64` sums with it do not overflow. -/
def GpsTime.toEpochSecs (g : GpsTime) : Nat :=
  let yearsSinceEpoch := g.year.toNat - 1970
  let months := g.month.toNat - 1
  let days := g.day.toNat - 1
  let totalDays := yearsSinceEpoch * 365 + yearsSinceEpoch / 4 + months * 30 + days
  totalDays * 86400 + g.hour.toNat * 3600 + g.minute.toNat * 60 + g.second.toNat

inductive ClockSource where
  | gps
  | ntp
  | modemRtc
  | manual
  | none
  deriving DecidableEq, Repr

inductive SourceAuthentication where
  | unauthenticated
  | authenticated
  deriving DecidableEq, Repr

def ClockSource.authentication : ClockSource → SourceAuthentication
  | .gps | .ntp | .modemRtc | .manual | .none => .unauthenticated

abbrev gpsStaleThresholdMs : Nat := 60000
abbrev ntpStaleThresholdMs : Nat := 300000
abbrev maxStepSecs : Nat := 15 * 60
abbrev maxDisagreementSecs : Nat := 60

def absDiff (a b : Nat) : Nat := if a < b then b - a else a - b

theorem absDiff_eq_natAbs (a b : Nat) : absDiff a b = ((a : Int) - b).natAbs := by
  unfold absDiff
  split <;> omega

structure ClockManager where
  currentSource : ClockSource
  lastUpdate : Nat
  gpsTime : Option GpsTime
  ntpOffset : Option Int
  rtcEpoch : Option Nat
  manualEpoch : Option Nat
  gpsUpdateTick : Nat
  ntpUpdateTick : Nat
  rtcUpdateTick : Nat
  disputed : Bool
  deriving DecidableEq

namespace ClockManager

def new : ClockManager where
  currentSource := .none
  lastUpdate := 0
  gpsTime := none
  ntpOffset := none
  rtcEpoch := none
  manualEpoch := none
  gpsUpdateTick := 0
  ntpUpdateTick := 0
  rtcUpdateTick := 0
  disputed := false

def gpsIsFresh (m : ClockManager) (tick : Nat) : Bool :=
  m.gpsTime.isSome && decide (tick - m.gpsUpdateTick < gpsStaleThresholdMs)

def ntpIsFresh (m : ClockManager) (tick : Nat) : Bool :=
  m.ntpOffset.isSome && decide (tick - m.ntpUpdateTick < ntpStaleThresholdMs)

/-- The sum of an `i64` offset and the uptime, cast back to `u64`. -/
def ntpEpoch (offset : Int) (tick : Nat) : Nat := (((tick / 1000 : Nat) + offset) % 2 ^ 64).toNat

def gpsEpoch (m : ClockManager) (time : GpsTime) (tick : Nat) : Nat :=
  time.toEpochSecs + (tick - m.gpsUpdateTick) / 1000

def getWallClock (m : ClockManager) (tick : Nat) : Nat :=
  match m.gpsTime, m.gpsIsFresh tick with
  | some time, true => m.gpsEpoch time tick
  | _, _ =>
    match m.ntpOffset, m.ntpIsFresh tick with
    | some offset, true => ntpEpoch offset tick
    | _, _ =>
      match m.rtcEpoch with
      | some epoch => (epoch + (tick - m.rtcUpdateTick) / 1000) % 2 ^ 64
      | none =>
        match m.manualEpoch with
        | some epoch => epoch
        | none => 0

def authenticationPermits (m : ClockManager) (candidate : ClockSource) : Bool :=
  match m.currentSource.authentication, candidate.authentication with
  | .unauthenticated, _ => true
  | .authenticated, .authenticated => true
  | .authenticated, .unauthenticated => false

def stepIsPlausible (m : ClockManager) (epoch tick : Nat) : Bool :=
  if m.currentSource = .none then true
  else if !m.gpsIsFresh tick && !m.ntpIsFresh tick then true
  else
    let established := m.getWallClock tick
    if established = 0 then true else decide (absDiff established epoch ≤ maxStepSecs)

def checkAgreement (m : ClockManager) (tick : Nat) : ClockManager :=
  match m.gpsTime, m.ntpOffset with
  | some gps, some offset =>
    if !m.gpsIsFresh tick || !m.ntpIsFresh tick then m
    else
      { m with disputed :=
          decide (absDiff (m.gpsEpoch gps tick) (ntpEpoch offset tick) > maxDisagreementSecs) }
  | _, _ => m

def updateFromGps (m : ClockManager) (time : GpsTime) (tick : Nat) : Bool × ClockManager :=
  if tick < m.gpsUpdateTick then (false, m)
  else if !m.authenticationPermits .gps then (false, m)
  else if !m.stepIsPlausible time.toEpochSecs tick then (false, { m with disputed := true })
  else
    (true, { m with
      gpsTime := some time
      gpsUpdateTick := tick
      currentSource := .gps
      lastUpdate := tick }.checkAgreement tick)

def updateFromNtp (m : ClockManager) (offset : Int) (tick : Nat) : Bool × ClockManager :=
  if tick < m.ntpUpdateTick then (false, m)
  else if m.gpsIsFresh tick then
    -- the reading is recorded, but does not take the selection
    (false, { m with ntpOffset := some offset, ntpUpdateTick := tick }.checkAgreement tick)
  else if !m.authenticationPermits .ntp then (false, m)
  else if !m.stepIsPlausible (ntpEpoch offset tick) tick then (false, { m with disputed := true })
  else
    (true, { m with
      ntpOffset := some offset
      ntpUpdateTick := tick
      currentSource := .ntp
      lastUpdate := tick }.checkAgreement tick)

def updateFromRtc (m : ClockManager) (epoch tick : Nat) : Bool × ClockManager :=
  if tick < m.rtcUpdateTick then (false, m)
  else if m.gpsIsFresh tick || m.ntpIsFresh tick then (false, m)
  else if !m.authenticationPermits .modemRtc then (false, m)
  else if !m.stepIsPlausible epoch tick then (false, { m with disputed := true })
  else
    (true, { m with
      rtcEpoch := some epoch
      rtcUpdateTick := tick
      currentSource := .modemRtc
      lastUpdate := tick })

def evaluate (m : ClockManager) (tick : Nat) : ClockManager :=
  let m := m.checkAgreement tick
  if m.gpsIsFresh tick then { m with currentSource := .gps }
  else if m.ntpIsFresh tick then { m with currentSource := .ntp }
  else if m.rtcEpoch.isSome then { m with currentSource := .modemRtc }
  else if m.manualEpoch.isSome then { m with currentSource := .manual }
  else { m with currentSource := .none }

end ClockManager

open ClockManager

/-! ## Runs -/

inductive ClockCall where
  | gps (time : GpsTime) (tick : Nat)
  | ntp (offset : Int) (tick : Nat)
  | rtc (epoch tick : Nat)
  | evaluate (tick : Nat)

def ClockCall.tick : ClockCall → Nat
  | .gps _ tick => tick
  | .ntp _ tick => tick
  | .rtc _ tick => tick
  | .evaluate tick => tick

structure ClockRun where
  clock : ClockManager
  now : Nat

namespace ClockRun

def start : ClockRun := ⟨.new, 0⟩

/-- Whether a call accepted a reading, and the clock after it. -/
def call (r : ClockRun) : ClockCall → Bool × ClockManager
  | .gps time tick => r.clock.updateFromGps time tick
  | .ntp offset tick => r.clock.updateFromNtp offset tick
  | .rtc epoch tick => r.clock.updateFromRtc epoch tick
  | .evaluate tick => (false, r.clock.evaluate tick)

def step (r : ClockRun) (c : ClockCall) : ClockRun := ⟨(r.call c).2, c.tick⟩

/-- Ticks are `u64` and do not decrease, NTP offsets are `i64`. -/
def Timely (r : ClockRun) (c : ClockCall) : Prop :=
  r.now ≤ c.tick ∧ c.tick < 2 ^ 64 ∧ ∀ offset tick, c = .ntp offset tick →
    -(2 ^ 63) ≤ offset ∧ offset < 2 ^ 63

/-- Readings that are fresh together agree: an NTP reading that is stored is not
before the Unix epoch, one that arrives while GPS is fresh agrees with GPS, and a
GPS reading that is stored while NTP is fresh agrees with NTP. -/
def Vetted (r : ClockRun) : ClockCall → Prop
  | .gps time tick =>
    r.clock.stepIsPlausible time.toEpochSecs tick = true → r.clock.ntpIsFresh tick = true →
      ∀ offset, r.clock.ntpOffset = some offset →
        absDiff time.toEpochSecs (ClockManager.ntpEpoch offset tick) ≤ maxDisagreementSecs
  | .ntp offset tick =>
    (r.clock.gpsIsFresh tick = true ∨
        r.clock.stepIsPlausible (ClockManager.ntpEpoch offset tick) tick = true →
      0 ≤ (tick / 1000 : Nat) + offset) ∧
    (r.clock.gpsIsFresh tick = true → ∀ time, r.clock.gpsTime = some time →
      absDiff (r.clock.gpsEpoch time tick) (ClockManager.ntpEpoch offset tick) ≤
        maxDisagreementSecs)
  | .rtc _ _ => True
  | .evaluate _ => True

/-! ## What a call stores -/

structure SameReadings (m m' : ClockManager) : Prop where
  gpsTime : m'.gpsTime = m.gpsTime
  gpsUpdateTick : m'.gpsUpdateTick = m.gpsUpdateTick
  ntpOffset : m'.ntpOffset = m.ntpOffset
  ntpUpdateTick : m'.ntpUpdateTick = m.ntpUpdateTick

namespace SameReadings

variable {m m' : ClockManager}

theorem gpsIsFresh (h : SameReadings m m') (tick : Nat) :
    m'.gpsIsFresh tick = m.gpsIsFresh tick := by
  unfold ClockManager.gpsIsFresh
  rw [h.gpsTime, h.gpsUpdateTick]

theorem ntpIsFresh (h : SameReadings m m') (tick : Nat) :
    m'.ntpIsFresh tick = m.ntpIsFresh tick := by
  unfold ClockManager.ntpIsFresh
  rw [h.ntpOffset, h.ntpUpdateTick]

theorem gpsEpoch (h : SameReadings m m') (time : GpsTime) (tick : Nat) :
    m'.gpsEpoch time tick = m.gpsEpoch time tick := by
  unfold ClockManager.gpsEpoch
  rw [h.gpsUpdateTick]

end SameReadings

theorem sameReadings_checkAgreement (m : ClockManager) (tick : Nat) :
    SameReadings m (m.checkAgreement tick) := by
  unfold checkAgreement
  split
  · split <;> exact ⟨rfl, rfl, rfl, rfl⟩
  · exact ⟨rfl, rfl, rfl, rfl⟩

theorem sameReadings_evaluate (m : ClockManager) (tick : Nat) :
    SameReadings m (m.evaluate tick) := by
  obtain ⟨hgps, hgpsTick, hntp, hntpTick⟩ := sameReadings_checkAgreement m tick
  unfold evaluate
  dsimp only
  split_ifs <;> exact ⟨hgps, hgpsTick, hntp, hntpTick⟩

/-- Everything that a call can do to the readings of GPS and NTP. -/
inductive Stores (m : ClockManager) (c : ClockCall) : Bool → ClockManager → Prop
  | nothing {accepted : Bool} {m' : ClockManager} (h : SameReadings m m') :
      Stores m c accepted m'
  | gps {m' : ClockManager} (time : GpsTime) (tick : Nat) (hcall : c = .gps time tick)
      (hbelieved : m.stepIsPlausible time.toEpochSecs tick = true)
      (h : SameReadings { m with gpsTime := some time, gpsUpdateTick := tick } m') :
      Stores m c true m'
  | recorded {m' : ClockManager} (offset : Int) (tick : Nat) (hcall : c = .ntp offset tick)
      (hfresh : m.gpsIsFresh tick = true)
      (h : SameReadings { m with ntpOffset := some offset, ntpUpdateTick := tick } m') :
      Stores m c false m'
  | ntp {m' : ClockManager} (offset : Int) (tick : Nat) (hcall : c = .ntp offset tick)
      (hstale : m.gpsIsFresh tick = false)
      (hbelieved : m.stepIsPlausible (ClockManager.ntpEpoch offset tick) tick = true)
      (h : SameReadings { m with ntpOffset := some offset, ntpUpdateTick := tick } m') :
      Stores m c true m'

theorem stores_call (r : ClockRun) (c : ClockCall) :
    Stores r.clock c (r.call c).1 (r.call c).2 := by
  have hnothing : ∀ accepted m', SameReadings r.clock m' → Stores r.clock c accepted m' :=
    fun _ _ => .nothing
  cases c with
  | gps time tick =>
    unfold call updateFromGps
    dsimp only
    split_ifs with htick hpermits hbelieved
    · exact hnothing _ _ ⟨rfl, rfl, rfl, rfl⟩
    · exact hnothing _ _ ⟨rfl, rfl, rfl, rfl⟩
    · exact hnothing _ _ ⟨rfl, rfl, rfl, rfl⟩
    · refine .gps time tick rfl (by simpa using hbelieved) ?_
      obtain ⟨hgps, hgpsTick, hntp, hntpTick⟩ := sameReadings_checkAgreement _ tick
      exact ⟨hgps, hgpsTick, hntp, hntpTick⟩
  | ntp offset tick =>
    unfold call updateFromNtp
    dsimp only
    split_ifs with htick hfresh hpermits hbelieved
    · exact hnothing _ _ ⟨rfl, rfl, rfl, rfl⟩
    · exact .recorded offset tick rfl hfresh (sameReadings_checkAgreement _ tick)
    · exact hnothing _ _ ⟨rfl, rfl, rfl, rfl⟩
    · exact hnothing _ _ ⟨rfl, rfl, rfl, rfl⟩
    · refine .ntp offset tick rfl (eq_false_of_ne_true hfresh) (by simpa using hbelieved) ?_
      obtain ⟨hgps, hgpsTick, hntp, hntpTick⟩ := sameReadings_checkAgreement _ tick
      exact ⟨hgps, hgpsTick, hntp, hntpTick⟩
  | rtc epoch tick =>
    unfold call updateFromRtc
    dsimp only
    split_ifs <;> exact hnothing _ _ ⟨rfl, rfl, rfl, rfl⟩
  | evaluate tick => exact .nothing (sameReadings_evaluate r.clock tick)

/-! ## Readings that agree -/

/-- The invariant of vetted runs.  The last condition speaks about the tick at
which the later of the two readings was stored. -/
structure Agreeing (r : ClockRun) : Prop where
  gpsTick : r.clock.gpsUpdateTick ≤ r.now
  ntpTick : r.clock.ntpUpdateTick ≤ r.now
  range : ∀ offset, r.clock.ntpOffset = some offset →
    0 ≤ (r.clock.ntpUpdateTick / 1000 : Nat) + offset ∧ offset < 2 ^ 63
  agree : ∀ time offset, r.clock.gpsTime = some time → r.clock.ntpOffset = some offset →
    ∀ tick, tick = max r.clock.gpsUpdateTick r.clock.ntpUpdateTick →
      r.clock.gpsIsFresh tick = true → r.clock.ntpIsFresh tick = true →
      absDiff (r.clock.gpsEpoch time tick) (ClockManager.ntpEpoch offset tick) ≤
        maxDisagreementSecs

theorem agreeing_start : start.Agreeing :=
  ⟨Nat.le_refl _, Nat.le_refl _, nofun, nofun⟩

variable {r : ClockRun} {c : ClockCall}

theorem Agreeing.of_sameReadings {m' : ClockManager} {now : Nat} (h : r.Agreeing)
    (hsame : SameReadings r.clock m') (hnow : r.now ≤ now) : Agreeing ⟨m', now⟩ := by
  refine ⟨?_, ?_, fun offset hoffset => ?_, fun time offset htime hoffset tick htick => ?_⟩
  · dsimp only
    rw [hsame.gpsUpdateTick]
    exact Nat.le_trans h.gpsTick hnow
  · dsimp only
    rw [hsame.ntpUpdateTick]
    exact Nat.le_trans h.ntpTick hnow
  · dsimp only at hoffset ⊢
    rw [hsame.ntpUpdateTick]
    rw [hsame.ntpOffset] at hoffset
    exact h.range offset hoffset
  · dsimp only at htime hoffset htick ⊢
    rw [hsame.gpsTime] at htime
    rw [hsame.ntpOffset] at hoffset
    rw [hsame.gpsUpdateTick, hsame.ntpUpdateTick] at htick
    rw [hsame.gpsIsFresh, hsame.ntpIsFresh, hsame.gpsEpoch]
    exact h.agree time offset htime hoffset tick htick

theorem Agreeing.recordNtp {offset : Int} {tick : Nat} (h : r.Agreeing) (hnow : r.now ≤ tick)
    (hrange : offset < 2 ^ 63) (hvetted : r.Vetted (.ntp offset tick))
    (hstored : r.clock.gpsIsFresh tick = true ∨
      r.clock.stepIsPlausible (ClockManager.ntpEpoch offset tick) tick = true) :
    Agreeing ⟨{ r.clock with ntpOffset := some offset, ntpUpdateTick := tick }, tick⟩ := by
  refine ⟨Nat.le_trans h.gpsTick hnow, Nat.le_refl _, ?_, ?_⟩
  · intro offset' hoffset
    obtain rfl := some.inj hoffset
    exact ⟨hvetted.1 hstored, hrange⟩
  · intro time offset' htime hoffset tick' htick' hfresh _
    have hlater : tick' = tick := by
      rw [htick']
      exact Nat.max_eq_right (Nat.le_trans h.gpsTick hnow)
    obtain rfl := some.inj hoffset
    subst hlater
    exact hvetted.2 hfresh time htime

theorem Agreeing.step (h : r.Agreeing) (htimely : r.Timely c) (hvetted : r.Vetted c) :
    (r.step c).Agreeing := by
  obtain ⟨hnow, -, hrange⟩ := htimely
  have hstores := stores_call r c
  generalize (r.call c).1 = accepted at hstores
  cases hstores with
  | nothing hsame => exact h.of_sameReadings hsame hnow
  | gps time tick hcall hbelieved hsame =>
    subst hcall
    have hstored :
        Agreeing ⟨{ r.clock with gpsTime := some time, gpsUpdateTick := tick }, tick⟩ := by
      refine ⟨Nat.le_refl _, Nat.le_trans h.ntpTick hnow, h.range, ?_⟩
      intro time' offset htime hoffset tick' htick' _ hfresh
      have hlater : tick' = tick := by
        have hle := Nat.le_trans h.ntpTick hnow
        rw [htick']
        exact Nat.max_eq_left hle
      obtain rfl := some.inj htime
      subst hlater
      have hepoch : gpsEpoch
          { r.clock with gpsTime := some time, gpsUpdateTick := tick' } time tick' =
            time.toEpochSecs := by
        unfold gpsEpoch
        simp
      rw [hepoch]
      exact hvetted hbelieved hfresh offset hoffset
    exact hstored.of_sameReadings hsame (Nat.le_refl _)
  | recorded offset tick hcall hfresh hsame =>
    subst hcall
    exact (h.recordNtp hnow (hrange offset tick rfl).2 hvetted (.inl hfresh)).of_sameReadings hsame
      (Nat.le_refl _)
  | ntp offset tick hcall _ hbelieved hsame =>
    subst hcall
    exact (h.recordNtp hnow (hrange offset tick rfl).2 hvetted
      (.inr hbelieved)).of_sameReadings hsame
      (Nat.le_refl _)

/-! ## Calls that accept nothing -/

/-- From the tick `t` on nothing was accepted.  NTP readings may have been recorded
while GPS was fresh. -/
structure Kept (m : ClockManager) (t : Nat) (m' : ClockManager) : Prop where
  gpsTime : m'.gpsTime = m.gpsTime
  gpsUpdateTick : m'.gpsUpdateTick = m.gpsUpdateTick
  ntp : (m'.ntpOffset = m.ntpOffset ∧ m'.ntpUpdateTick = m.ntpUpdateTick) ∨
    (t ≤ m'.ntpUpdateTick ∧ m'.gpsIsFresh m'.ntpUpdateTick = true)

theorem kept_refl (m : ClockManager) (t : Nat) : Kept m t m := ⟨rfl, rfl, .inl ⟨rfl, rfl⟩⟩

variable {m : ClockManager}

theorem Kept.step {t : Nat} (h : Kept m t r.clock) (ht : t ≤ r.now) (htimely : r.Timely c)
    (hrefused : (r.call c).1 = false) : Kept m t (r.step c).clock := by
  have hstores := stores_call r c
  rw [hrefused] at hstores
  unfold ClockRun.step
  cases hstores with
  | nothing hsame =>
    refine ⟨hsame.gpsTime.trans h.gpsTime, hsame.gpsUpdateTick.trans h.gpsUpdateTick, ?_⟩
    rw [hsame.ntpOffset, hsame.ntpUpdateTick, hsame.gpsIsFresh]
    exact h.ntp
  | recorded offset tick hcall hfresh hsame =>
    subst hcall
    refine ⟨hsame.gpsTime.trans h.gpsTime, hsame.gpsUpdateTick.trans h.gpsUpdateTick, .inr ?_⟩
    rw [hsame.ntpUpdateTick, hsame.gpsIsFresh]
    exact ⟨Nat.le_trans ht htimely.1, hfresh⟩

/-! ## The clock that is served -/

theorem getWallClock_gps {tick : Nat} (h : m.gpsIsFresh tick = true) :
    ∃ time, m.gpsTime = some time ∧ tick - m.gpsUpdateTick < gpsStaleThresholdMs ∧
      m.getWallClock tick = m.gpsEpoch time tick := by
  have hfresh := h
  simp only [gpsIsFresh, Bool.and_eq_true, decide_eq_true_iff,
    isSome_iff_exists] at hfresh
  obtain ⟨⟨time, htime⟩, hlt⟩ := hfresh
  refine ⟨time, htime, hlt, ?_⟩
  unfold getWallClock
  rw [h, htime]

theorem getWallClock_ntp {tick : Nat} (hgps : m.gpsIsFresh tick = false)
    (h : m.ntpIsFresh tick = true) :
    ∃ offset, m.ntpOffset = some offset ∧ tick - m.ntpUpdateTick < ntpStaleThresholdMs ∧
      m.getWallClock tick = ntpEpoch offset tick := by
  have hfresh := h
  simp only [ntpIsFresh, Bool.and_eq_true, decide_eq_true_iff,
    isSome_iff_exists] at hfresh
  obtain ⟨⟨offset, hoffset⟩, hlt⟩ := hfresh
  refine ⟨offset, hoffset, hlt, ?_⟩
  unfold getWallClock
  rw [hgps, h, hoffset]
  cases m.gpsTime <;> rfl

theorem ntpEpoch_eq {offset : Int} {tick : Nat} (h : 0 ≤ (tick / 1000 : Nat) + offset)
    (hoffset : offset < 2 ^ 63) (htick : tick < 2 ^ 64) :
    (ntpEpoch offset tick : Int) = (tick / 1000 : Nat) + offset := by
  unfold ntpEpoch
  omega

theorem getWallClock_checkAgreement (m : ClockManager) (tick v : Nat) :
    (m.checkAgreement tick).getWallClock v = m.getWallClock v := by
  unfold checkAgreement
  split
  · split <;> rfl
  · rfl

theorem getWallClock_evaluate (m : ClockManager) (tick v : Nat) :
    (m.evaluate tick).getWallClock v = m.getWallClock v := by
  rw [← getWallClock_checkAgreement m tick v]
  unfold evaluate
  dsimp only
  split_ifs <;> rfl

theorem getWallClock_of_refused (hrefused : (r.call c).1 = false)
    (hstale : ∀ offset tick, c = .ntp offset tick → r.clock.gpsIsFresh tick = false) (v : Nat) :
    (r.step c).clock.getWallClock v = r.clock.getWallClock v := by
  unfold step
  cases c with
  | gps time tick =>
    unfold call updateFromGps at hrefused ⊢
    dsimp only at hrefused ⊢
    split_ifs at hrefused ⊢ <;> rfl
  | ntp offset tick =>
    unfold call updateFromNtp at hrefused ⊢
    dsimp only at hrefused ⊢
    rw [hstale offset tick rfl, if_neg Bool.false_ne_true] at hrefused ⊢
    split_ifs at hrefused ⊢ <;> rfl
  | rtc epoch tick =>
    unfold call updateFromRtc at hrefused ⊢
    dsimp only at hrefused ⊢
    split_ifs at hrefused ⊢ <;> rfl
  | evaluate tick => exact getWallClock_evaluate r.clock tick v

def gap (a b : Nat) : Nat := ((a : Int) - b).natAbs

theorem gap_gps {m m' : ClockManager} {t u : Nat} (hkept : Kept m t m')
    (hgut : m.gpsUpdateTick ≤ t) (htu : t ≤ u) (hu : m'.gpsIsFresh u = true) :
    gap (m'.getWallClock u) (m.getWallClock t + (u - t) / 1000) ≤ 1 := by
  obtain ⟨time, htime, hlt, hclock⟩ := getWallClock_gps hu
  rw [hkept.gpsTime] at htime
  rw [hkept.gpsUpdateTick] at hlt
  have ht : m.gpsIsFresh t = true := by
    unfold gpsIsFresh
    rw [htime]
    simp only [isSome_some, Bool.true_and, decide_eq_true_iff]
    omega
  obtain ⟨time', htime', -, hclock'⟩ := getWallClock_gps ht
  cases htime.symm.trans htime'
  rw [hclock, hclock']
  unfold gap gpsEpoch
  rw [hkept.gpsUpdateTick]
  omega

theorem div_add_bounds (a b : Nat) :
    a / 1000 + b / 1000 ≤ (a + b) / 1000 ∧ (a + b) / 1000 ≤ a / 1000 + b / 1000 + 1 := by
  omega

theorem gap_carried {base g w t u : Nat} {offset : Int} (hgw : g ≤ w) (hgt : g ≤ t) (htu : t ≤ u)
    (h : ((base + (w - g) / 1000 : Nat) - ((w / 1000 : Nat) + offset)).natAbs ≤ 60) :
    (((u / 1000 : Nat) + offset) - (base + (t - g) / 1000 + (u - t) / 1000 : Nat)).natAbs ≤ 62 := by
  have hw := div_add_bounds g (w - g)
  have ht := div_add_bounds g (t - g)
  have hu := div_add_bounds t (u - t)
  rw [Nat.add_sub_cancel' hgw] at hw
  rw [Nat.add_sub_cancel' hgt] at ht
  rw [Nat.add_sub_cancel' htu] at hu
  omega

theorem gap_ntp {r' : ClockRun} {t u : Nat} (hkept : Kept m t r'.clock) (hagree : r'.Agreeing)
    (hgut : m.gpsUpdateTick ≤ t) (hnut : m.ntpUpdateTick ≤ t) (htu : t ≤ u) (hnow : r'.now ≤ u)
    (hu64 : u < 2 ^ 64) (ht : m.gpsIsFresh t = true ∨ m.ntpIsFresh t = true)
    (hstale : r'.clock.gpsIsFresh u = false) (hu : r'.clock.ntpIsFresh u = true) :
    gap (r'.clock.getWallClock u) (m.getWallClock t + (u - t) / 1000) ≤ maxStepSecs + 1 := by
  obtain ⟨offset, hoffset, hlt, hclock⟩ := getWallClock_ntp hstale hu
  obtain ⟨hnonneg, hoffsetlt⟩ := hagree.range offset hoffset
  have hntpTick := hagree.ntpTick
  have hepoch := @ntpEpoch_eq offset u (by omega) hoffsetlt hu64
  cases hgps : m.gpsIsFresh t with
  | true =>
    -- both readings were fresh when the later one was stored
    obtain ⟨time, htime, hgpslt, hclock'⟩ := getWallClock_gps hgps
    have htime' : r'.clock.gpsTime = some time := hkept.gpsTime.trans htime
    have hgut' := hkept.gpsUpdateTick
    have hfreshgps : r'.clock.gpsIsFresh
        (max r'.clock.gpsUpdateTick r'.clock.ntpUpdateTick) = true := by
      obtain ⟨-, hsame⟩ | ⟨hlater, hfresh⟩ := hkept.ntp
      · unfold gpsIsFresh
        rw [htime']
        simp only [isSome_some, Bool.true_and, decide_eq_true_iff]
        omega
      · rwa [Nat.max_eq_right (by omega)]
    have hfreshntp : r'.clock.ntpIsFresh
        (max r'.clock.gpsUpdateTick r'.clock.ntpUpdateTick) = true := by
      unfold ntpIsFresh
      rw [hoffset]
      simp only [isSome_some, Bool.true_and, decide_eq_true_iff]
      omega
    have hdiff := hagree.agree time offset htime' hoffset _ rfl hfreshgps hfreshntp
    have hstored := @ntpEpoch_eq offset (max r'.clock.gpsUpdateTick r'.clock.ntpUpdateTick)
      (by omega) hoffsetlt (by omega)
    have hcarried := @gap_carried time.toEpochSecs r'.clock.gpsUpdateTick
      (max r'.clock.gpsUpdateTick r'.clock.ntpUpdateTick) t u offset (Nat.le_max_left _ _)
      (by omega) htu (by
        rw [← hstored]
        rwa [absDiff_eq_natAbs] at hdiff)
    rw [hclock, hclock']
    unfold gap gpsEpoch
    rw [hepoch, ← hgut']
    exact Nat.le_trans hcarried (by decide)
  | false =>
    -- GPS was stale already, so no reading was recorded
    have hntp : m.ntpIsFresh t = true := by
      obtain h | h := ht
      · exact absurd (hgps.symm.trans h) (by decide)
      · exact h
    obtain ⟨offset', hoffset', hlt', hclock'⟩ := getWallClock_ntp hgps hntp
    obtain ⟨hsame, htick⟩ | ⟨hlater, hfresh⟩ := hkept.ntp
    · rw [hsame, hoffset'] at hoffset
      obtain rfl := some.inj hoffset
      have hepoch' := @ntpEpoch_eq offset' t (by omega) hoffsetlt (by omega)
      rw [hclock, hclock']
      unfold gap
      omega
    · obtain ⟨time, htime, hgpslt, -⟩ := getWallClock_gps hfresh
      have hfresht : m.gpsIsFresh t = true := by
        unfold gpsIsFresh
        rw [← hkept.gpsTime, htime]
        simp only [isSome_some, Bool.true_and, decide_eq_true_iff]
        rw [hkept.gpsUpdateTick] at hgpslt
        omega
      exact absurd (hgps.symm.trans hfresht) (by decide)

/-- In every run in which readings that are fresh together agree: let GPS or NTP be
fresh at `t`, and let the calls from then on accept nothing.  As long as one of them
is fresh, the clock that is served at `u` is the one that was served at `t` and the
time since, up to the largest step and one second.  A reading that was refused, and
not recorded beside a fresh GPS, is never served. -/
theorem clock_continues (r : ClockRun)
    (hrun : Runs step (fun r c => r.Timely c ∧ r.Vetted c) start r) (t : Nat) (ht : r.now ≤ t)
    (hfresh : r.clock.gpsIsFresh t = true ∨ r.clock.ntpIsFresh t = true) (r' : ClockRun)
    (hcalls : Runs step (fun r c => (r.Timely c ∧ r.Vetted c) ∧ (r.call c).1 = false)
      ⟨r.clock, t⟩ r')
    (u : Nat) (hu : r'.now ≤ u) (hu64 : u < 2 ^ 64)
    (hfresh' : r'.clock.gpsIsFresh u = true ∨ r'.clock.ntpIsFresh u = true) :
    gap (r'.clock.getWallClock u) (r.clock.getWallClock t + (u - t) / 1000) ≤ maxStepSecs + 1 ∧
    ∀ c, (r.call c).1 = false →
      (∀ offset tick, c = .ntp offset tick → r.clock.gpsIsFresh tick = false) →
      ∀ v, (r.step c).clock.getWallClock v = r.clock.getWallClock v := by
  have hagree : r.Agreeing := hrun.invariant agreeing_start fun _ _ h hc => h.step hc.1 hc.2
  obtain ⟨hagree', hkept, htu⟩ : r'.Agreeing ∧ Kept r.clock t r'.clock ∧ t ≤ r'.now := by
    refine hcalls.invariant (I := fun s => s.Agreeing ∧ Kept r.clock t s.clock ∧ t ≤ s.now)
      ⟨hagree.of_sameReadings ⟨rfl, rfl, rfl, rfl⟩ ht, kept_refl _ _, Nat.le_refl _⟩ ?_
    rintro s c ⟨hs, hskept, hst⟩ ⟨⟨htimely, hvetted⟩, hrefused⟩
    exact ⟨hs.step htimely hvetted, hskept.step hst htimely hrefused,
      Nat.le_trans hst htimely.1⟩
  refine ⟨?_, fun c hrefused hstale v => getWallClock_of_refused hrefused hstale v⟩
  have hgut := Nat.le_trans hagree.gpsTick ht
  have hnut := Nat.le_trans hagree.ntpTick ht
  have htu' := Nat.le_trans htu hu
  cases hgps : r'.clock.gpsIsFresh u with
  | true => exact Nat.le_trans (gap_gps hkept hgut htu' hgps) (by decide)
  | false =>
    refine gap_ntp hkept hagree' hgut hnut htu' hu hu64 hfresh hgps ?_
    obtain h | h := hfresh'
    · exact absurd (hgps.symm.trans h) (by decide)
    · exact h

def newYear : GpsTime := ⟨2026, 1, 1, 0, 0, 0⟩

/-- A GPS reading, and beside it an NTP reading that is 2 s ahead and only recorded.  A minute
later GPS is stale and the NTP reading is served. -/
theorem clock_continues_handover :
    let r := start.step (.gps newYear 1000)
    let r' := ClockRun.step ⟨r.clock, 2000⟩ (.ntp (newYear.toEpochSecs + 1) 3000)
    r.clock.gpsIsFresh 2000 = true ∧ r'.clock.gpsIsFresh 62000 = false ∧
    r'.clock.ntpIsFresh 62000 = true ∧
    r'.clock.getWallClock 62000 = r.clock.getWallClock 2000 + (62000 - 2000) / 1000 + 2 ∧
    gap (r'.clock.getWallClock 62000) (r.clock.getWallClock 2000 + (62000 - 2000) / 1000) ≤
      maxStepSecs + 1 := by
  have hrun : Runs step (fun r c => r.Timely c ∧ r.Vetted c) start
      (start.step (.gps newYear 1000)) :=
    .event _ .start ⟨⟨by decide, by decide, nofun⟩, fun _ => nofun⟩
  have hcalls : Runs step (fun r c => (r.Timely c ∧ r.Vetted c) ∧ (r.call c).1 = false)
      ⟨(start.step (.gps newYear 1000)).clock, 2000⟩
      (ClockRun.step ⟨(start.step (.gps newYear 1000)).clock, 2000⟩
        (.ntp (newYear.toEpochSecs + 1) 3000)) := by
    refine .event _ .start ⟨⟨⟨by decide, by decide, ?_⟩, fun _ => by decide, ?_⟩, by decide +kernel⟩
    · intro offset tick h
      cases h
      decide
    · intro _ time htime
      cases htime
      decide
  exact ⟨by decide, by decide +kernel, by decide +kernel, by decide +kernel,
    (clock_continues _ hrun 2000 (by decide) (.inl (by decide)) _ hcalls 62000 (by decide)
      (by decide) (.inr (by decide +kernel))).1⟩

/-- GPS is fresh, and an NTP reading that is a year ahead is only recorded.  A minute
later it is served. -/
theorem clock_jumps :
    let r := start.step (.gps newYear 1000)
    let r' := ClockRun.step ⟨r.clock, 2000⟩ (.ntp (newYear.toEpochSecs + 31536000) 2000)
    r.clock.gpsIsFresh 2000 = true ∧
    (r.call (.ntp (newYear.toEpochSecs + 31536000) 2000)).1 = false ∧
    r'.clock.ntpIsFresh 62000 = true ∧
    maxStepSecs + 1 <
      gap (r'.clock.getWallClock 62000) (r.clock.getWallClock 2000 + (62000 - 2000) / 1000) := by
  decide +kernel

end ClockRun

end Thumos
