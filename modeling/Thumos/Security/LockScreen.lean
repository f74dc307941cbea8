import Mathlib.Tactic.SplitIfs
import Thumos.Security.Basic
import Thumos.Lib.GuardedRun

/-!
# The lock screen

The attempt counter, the throttle deadline, the lock mode and the flag for a
forced long sleep, with the entry points that change them.  A passphrase is
checked by a function that the caller passes in, a PIN by two records that the
screen holds.

A run is observed from outside (`Session`): how many checks in a row have
failed, the deadline that the last of them set, and what the callers were told.
The limits on guessing are statements about these observations.
-/

namespace Thumos

open GuardedRun Bool

inductive LockMode where
  | bootPassphrase
  | pinUnlock
  | locked
  deriving DecidableEq, Repr

inductive UnlockResult where
  | success
  | wrongPassphrase
  | wrongPin
  | duressDetected
  | throttled (waitSecs : Nat)
  | wipeTrigger
  | verifierUnavailable
  deriving DecidableEq, Repr

inductive Key where
  | num (digit : Fin 10)
  | star
  | hash
  | up
  | down
  | left
  | right
  | ok
  | lsk
  | rsk
  | call
  | end
  | power
  deriving DecidableEq, Repr

inductive ScreenAction where
  | none
  | duress
  | passphraseSubmitted
  deriving DecidableEq, Repr

/-- `PinVerifier::verify`: no answer if the derivation could not run. -/
abbrev PinVerifier := List UInt8 → Option Bool

abbrev maxPassphraseLen : Nat := 64
abbrev maxPinLen : Nat := 10
abbrev requiredPinLen : Nat := 6
abbrev forceLongSleepThreshold : Nat := 5
abbrev shortSleepTicks : Nat := 300

/-- `u32::MAX`, which stands for the wipe. -/
abbrev wipeDelay : Nat := 2 ^ 32 - 1

def throttleDelay (attempts : Nat) : Nat :=
  if attempts ≤ 2 then 0
  else if attempts ≤ 4 then 5
  else if attempts ≤ 6 then 30
  else if attempts ≤ 8 then 300
  else if attempts = 9 then 3600
  else wipeDelay

theorem throttleDelay_eq_wipeDelay_iff (attempts : Nat) :
    throttleDelay attempts = wipeDelay ↔ 10 ≤ attempts := by
  unfold throttleDelay
  constructor
  · intro h
    split_ifs at h <;> first | omega | cases h
  · intro h
    rw [if_neg (by omega), if_neg (by omega), if_neg (by omega), if_neg (by omega),
      if_neg (by omega)]

structure LockScreen where
  mode : LockMode
  pinBuffer : List UInt8
  pinLen : Nat
  passphraseBuffer : List UInt8
  passphraseLen : Nat
  attempts : Nat
  lastAttemptTick : Nat
  throttleUntilTick : Nat
  currentTick : Nat
  pin : Option PinVerifier
  duressPin : Option PinVerifier
  lockedAtTick : Nat
  lastResult : Option UnlockResult
  longSleepForced : Bool

/-- What a submission returns.  `checked` records whether a verifier was run on
the entered bytes. -/
structure Submission where
  result : UnlockResult
  screen : LockScreen
  checked : Bool

namespace Submission

def failed (sub : Submission) : Bool :=
  sub.checked &&
    (sub.result == .wrongPin || sub.result == .wrongPassphrase || sub.result == .wipeTrigger)

def passed (sub : Submission) : Bool :=
  sub.result == .success || sub.result == .duressDetected

end Submission

namespace LockScreen

def new (pin duressPin : Option PinVerifier) : LockScreen where
  mode := .bootPassphrase
  pinBuffer := List.replicate maxPinLen 0
  pinLen := 0
  passphraseBuffer := List.replicate maxPassphraseLen 0
  passphraseLen := 0
  attempts := 0
  lastAttemptTick := 0
  throttleUntilTick := 0
  currentTick := 0
  pin := pin
  duressPin := duressPin
  lockedAtTick := 0
  lastResult := none
  longSleepForced := false

def setLockedAt (s : LockScreen) (tick : Nat) : LockScreen := { s with lockedAtTick := tick }

def advanceTick (s : LockScreen) (tick : Nat) : LockScreen := { s with currentTick := tick }

def updateModeForSleep (s : LockScreen) (currentTick : Nat) : LockScreen :=
  let elapsed := currentTick - s.lockedAtTick
  if elapsed ≤ shortSleepTicks then { s with mode := .pinUnlock } else { s with mode := .locked }

def clearPin (s : LockScreen) : LockScreen :=
  { s with pinBuffer := s.pinBuffer.map fun _ => 0, pinLen := 0 }

def clearPassphrase (s : LockScreen) : LockScreen :=
  { s with passphraseBuffer := s.passphraseBuffer.map fun _ => 0, passphraseLen := 0 }

def clearInput (s : LockScreen) : LockScreen := s.clearPin.clearPassphrase

def isThrottled (s : LockScreen) (currentTick : Nat) : Bool :=
  decide (currentTick < s.throttleUntilTick)

def throttleRemaining (s : LockScreen) (currentTick : Nat) : Nat :=
  if currentTick ≥ s.throttleUntilTick then 0
  else
    let remaining := s.throttleUntilTick - currentTick
    if remaining > 2 ^ 32 - 1 then 2 ^ 32 - 1 else remaining

def onSuccess (s : LockScreen) (result : UnlockResult) : LockScreen :=
  { s with
    attempts := 0
    lastAttemptTick := 0
    throttleUntilTick := 0
    lastResult := some result
    longSleepForced := false }.clearInput

def onFailure (s : LockScreen) (currentTick : Nat) : UnlockResult × LockScreen :=
  let s := { s with attempts := (s.attempts + 1) % 2 ^ 32, lastAttemptTick := currentTick }
  let delay := throttleDelay s.attempts
  if delay = wipeDelay then
    (.wipeTrigger, { s with lastResult := some .wipeTrigger }.clearInput)
  else
    let s := { s with throttleUntilTick := saturatingAdd currentTick delay }
    let result := match s.mode with
      | .pinUnlock => UnlockResult.wrongPin
      | .bootPassphrase | .locked => UnlockResult.wrongPassphrase
    let s := if s.attempts ≥ forceLongSleepThreshold then
        { s with longSleepForced := true, mode := .locked }
      else s
    (result, { s with lastResult := some result }.clearInput)

/-- A submission before the deadline is not looked at. -/
def throttle (s : LockScreen) (currentTick : Nat) : Submission :=
  let result := UnlockResult.throttled (s.throttleRemaining currentTick)
  ⟨result, { s.clearInput with lastResult := some result }, false⟩

def fail (s : LockScreen) (currentTick : Nat) : Submission :=
  ⟨(s.onFailure currentTick).1, (s.onFailure currentTick).2, true⟩

def submitPassphraseWith (s : LockScreen) (currentTick : Nat) (verify : List UInt8 → Bool) :
    Submission :=
  if s.isThrottled currentTick then s.throttle currentTick
  else
    let entered := s.passphraseBuffer.take s.passphraseLen
    if verify entered then ⟨.success, s.onSuccess .success, true⟩ else s.fail currentTick

def submitPin (s : LockScreen) (currentTick : Nat) : Submission :=
  if s.isThrottled currentTick then s.throttle currentTick
  else if s.pinLen ≠ requiredPinLen then ⟨.wrongPin, s, false⟩
  else
    let entered := s.pinBuffer.take s.pinLen
    let duressCheck := s.duressPin.map fun v => v entered
    let realCheck := s.pin.map fun v => v entered
    -- a check that could not run is not a failed guess
    if duressCheck = some none ∨ realCheck = some none then
      ⟨.verifierUnavailable,
        { s with lastResult := some .verifierUnavailable }.clearInput, true⟩
    else if duressCheck = some (some true) then
      ⟨.duressDetected, s.onSuccess .duressDetected, true⟩
    else if realCheck = some (some true) then ⟨.success, s.onSuccess .success, true⟩
    else s.fail currentTick

def pushPinDigit (s : LockScreen) (digit : UInt8) : LockScreen :=
  if s.pinLen < maxPinLen then
    { s with pinBuffer := s.pinBuffer.set s.pinLen digit, pinLen := s.pinLen + 1 }
  else s

def pushPassphraseByte (s : LockScreen) (byte : UInt8) : LockScreen :=
  if s.passphraseLen < maxPassphraseLen then
    { s with
      passphraseBuffer := s.passphraseBuffer.set s.passphraseLen byte
      passphraseLen := s.passphraseLen + 1 }
  else s

def backspacePassphrase (s : LockScreen) : LockScreen :=
  if s.passphraseLen > 0 then { s with passphraseLen := s.passphraseLen - 1 } else s

def keyToDigit : Key → Option UInt8
  | .num digit => some (48 + UInt8.ofNat digit)
  | _ => none

def onPinKey (s : LockScreen) (key : Key) : ScreenAction × LockScreen :=
  match keyToDigit key with
  | some digit => (.none, s.pushPinDigit digit)
  | none =>
    match key with
    | .ok | .rsk =>
      let submission := s.submitPin s.currentTick
      match submission.result with
      | .duressDetected => (.duress, submission.screen)
      | _ => (.none, submission.screen)
    | .end => (.none, s.clearPin)
    | .left => (.none, if s.pinLen > 0 then { s with pinLen := s.pinLen - 1 } else s)
    | _ => (.none, s)

def onPassphraseKey (s : LockScreen) (key : Key) : ScreenAction × LockScreen :=
  match keyToDigit key with
  | some digit => (.none, s.pushPassphraseByte digit)
  | none =>
    match key with
    | .ok | .rsk => (.passphraseSubmitted, s)
    | .end => (.none, s.clearPassphrase)
    | .left => (.none, s.backspacePassphrase)
    | .star => (.none, s.pushPassphraseByte 42)
    | .hash => (.none, s.pushPassphraseByte 35)
    | _ => (.none, s)

def onKey (s : LockScreen) (key : Key) : ScreenAction × LockScreen :=
  match s.mode with
  | .pinUnlock => s.onPinKey key
  | .bootPassphrase | .locked => s.onPassphraseKey key

/-! ## What a submission does -/

variable {s s' : LockScreen} {tick : Nat} {sub : Submission}

/-- Two screens that differ in the entered bytes, the last result, the time of
the lock and the like, which no limit depends on. -/
structure Same (s s' : LockScreen) : Prop where
  mode : s'.mode = s.mode
  attempts : s'.attempts = s.attempts
  throttleUntilTick : s'.throttleUntilTick = s.throttleUntilTick
  currentTick : s'.currentTick = s.currentTick
  longSleepForced : s'.longSleepForced = s.longSleepForced

theorem Same.refl : Same s s := ⟨rfl, rfl, rfl, rfl, rfl⟩

theorem same_pushPinDigit (digit : UInt8) : Same s (s.pushPinDigit digit) := by
  unfold pushPinDigit
  split <;> exact ⟨rfl, rfl, rfl, rfl, rfl⟩

theorem same_pushPassphraseByte (byte : UInt8) : Same s (s.pushPassphraseByte byte) := by
  unfold pushPassphraseByte
  split <;> exact ⟨rfl, rfl, rfl, rfl, rfl⟩

theorem same_backspacePassphrase : Same s s.backspacePassphrase := by
  unfold backspacePassphrase
  split <;> exact ⟨rfl, rfl, rfl, rfl, rfl⟩

structure Fails (s : LockScreen) (tick n : Nat) (sub : Submission) : Prop where
  checked : sub.checked = true
  attempts : sub.screen.attempts = n
  currentTick : sub.screen.currentTick = s.currentTick
  wipes : 10 ≤ n → sub.result = .wipeTrigger ∧
    sub.screen.throttleUntilTick = s.throttleUntilTick ∧ sub.screen.mode = s.mode ∧
    sub.screen.longSleepForced = s.longSleepForced
  delays : n < 10 → (sub.result = .wrongPin ∨ sub.result = .wrongPassphrase) ∧
    sub.screen.throttleUntilTick = saturatingAdd tick (throttleDelay n)
  forces : n < 10 → 5 ≤ n → sub.screen.mode = .locked ∧ sub.screen.longSleepForced = true
  stays : n < 5 → sub.screen.mode = s.mode ∧ sub.screen.longSleepForced = s.longSleepForced

theorem fails_fail (s : LockScreen) (tick : Nat) :
    Fails s tick ((s.attempts + 1) % 2 ^ 32) (s.fail tick) := by
  have hdelay := throttleDelay_eq_wipeDelay_iff ((s.attempts + 1) % 2 ^ 32)
  by_cases hwipe : 10 ≤ (s.attempts + 1) % 2 ^ 32
  · have hfailure : s.onFailure tick = (.wipeTrigger,
        { s with
          attempts := (s.attempts + 1) % 2 ^ 32
          lastAttemptTick := tick
          lastResult := some .wipeTrigger }.clearInput) := by
      exact if_pos (hdelay.mpr hwipe)
    unfold fail
    rw [hfailure]
    exact ⟨rfl, rfl, rfl, fun _ => ⟨rfl, rfl, rfl, rfl⟩, fun h => by omega, fun h => by omega,
      fun h => by omega⟩
  · have hcond : ¬ throttleDelay ((s.attempts + 1) % 2 ^ 32) = wipeDelay :=
      fun hc => hwipe (hdelay.mp hc)
    have hresult : (s.onFailure tick).1 = .wrongPin ∨ (s.onFailure tick).1 = .wrongPassphrase := by
      unfold onFailure
      rw [if_neg hcond]
      cases s.mode with
      | pinUnlock => exact .inl rfl
      | bootPassphrase => exact .inr rfl
      | locked => exact .inr rfl
    by_cases hforce : (s.attempts + 1) % 2 ^ 32 ≥ forceLongSleepThreshold
    · refine ⟨rfl, ?_, ?_, fun h => absurd h hwipe, fun _ => ⟨hresult, ?_⟩, fun _ _ => ⟨?_, ?_⟩,
        fun h => absurd h (Nat.not_lt.mpr hforce)⟩ <;>
      · unfold fail onFailure
        dsimp only
        rw [if_neg hcond, if_pos hforce]
        rfl
    · refine ⟨rfl, ?_, ?_, fun h => absurd h hwipe, fun _ => ⟨hresult, ?_⟩,
        fun _ h => absurd h hforce, fun _ => ⟨?_, ?_⟩⟩ <;>
      · unfold fail onFailure
        dsimp only
        rw [if_neg hcond, if_neg hforce]
        rfl

/-- Everything that a submission can do.  Only after the deadline a secret is
checked. -/
inductive SubmitStep (s : LockScreen) (tick : Nat) : Submission → Prop
  | refused {sub : Submission} (hchecked : sub.checked = false)
      (hresult : sub.result = .wrongPin ∨ ∃ wait, sub.result = .throttled wait)
      (hsame : Same s sub.screen) : SubmitStep s tick sub
  | unavailable {sub : Submission} (htick : s.throttleUntilTick ≤ tick)
      (hresult : sub.result = .verifierUnavailable) (hsame : Same s sub.screen) :
      SubmitStep s tick sub
  | passed {result : UnlockResult} (htick : s.throttleUntilTick ≤ tick)
      (hresult : result = .success ∨ result = .duressDetected) :
      SubmitStep s tick ⟨result, s.onSuccess result, true⟩
  | failed {sub : Submission} (htick : s.throttleUntilTick ≤ tick)
      (hfails : Fails s tick ((s.attempts + 1) % 2 ^ 32) sub) : SubmitStep s tick sub

theorem submitStep_throttle : SubmitStep s tick (s.throttle tick) :=
  .refused rfl (.inr ⟨_, rfl⟩) ⟨rfl, rfl, rfl, rfl, rfl⟩

theorem throttleUntilTick_le (h : ¬ s.isThrottled tick = true) : s.throttleUntilTick ≤ tick := by
  simpa [isThrottled] using h

theorem submitPassphraseWith_spec (verify : List UInt8 → Bool) :
    SubmitStep s tick (s.submitPassphraseWith tick verify) := by
  unfold submitPassphraseWith
  dsimp only
  split
  next => exact submitStep_throttle
  next hopen =>
    have htick := throttleUntilTick_le hopen
    split
    next => exact .passed htick (.inl rfl)
    next => exact .failed htick (fails_fail s tick)

theorem Fails.failed {n : Nat} (h : Fails s tick n sub) : sub.failed = true := by
  unfold Submission.failed
  rw [h.checked]
  by_cases hwipe : 10 ≤ n
  · rw [(h.wipes hwipe).1]
    rfl
  · obtain hresult | hresult := (h.delays (Nat.lt_of_not_le hwipe)).1 <;> rw [hresult] <;> rfl

theorem Fails.not_passed {n : Nat} (h : Fails s tick n sub) : sub.passed = false := by
  unfold Submission.passed
  by_cases hwipe : 10 ≤ n
  · rw [(h.wipes hwipe).1]
    rfl
  · obtain hresult | hresult := (h.delays (Nat.lt_of_not_le hwipe)).1 <;> rw [hresult] <;> rfl

theorem submitPassphraseWith_rejects {verify : List UInt8 → Bool}
    (h : ∀ entered, verify entered = false) :
    (s.submitPassphraseWith tick verify).passed = false := by
  unfold submitPassphraseWith
  dsimp only
  split
  next => rfl
  next =>
    rw [h, if_neg Bool.false_ne_true]
    exact (fails_fail s tick).not_passed

theorem submitPassphraseWith_success {verify : List UInt8 → Bool}
    (h : (s.submitPassphraseWith tick verify).passed = true) :
    (s.submitPassphraseWith tick verify).result = .success := by
  unfold submitPassphraseWith at h ⊢
  dsimp only at h ⊢
  split at h
  next => cases h
  next hopen =>
    rw [if_neg hopen]
    split at h
    next haccepts => rw [if_pos haccepts]
    next => cases (fails_fail s tick).not_passed.symm.trans h

theorem submitPin_spec : SubmitStep s tick (s.submitPin tick) := by
  unfold submitPin
  dsimp only
  split
  next => exact submitStep_throttle
  next hopen =>
    have htick := throttleUntilTick_le hopen
    split
    next => exact .refused rfl (.inl rfl) .refl
    next =>
      split_ifs
      · exact .unavailable htick rfl ⟨rfl, rfl, rfl, rfl, rfl⟩
      · exact .passed htick (.inr rfl)
      · exact .passed htick (.inl rfl)
      · exact .failed htick (fails_fail s tick)

def submits (s : LockScreen) (key : Key) : Bool :=
  s.mode == .pinUnlock && (key == .ok || key == .rsk)

theorem onKey_of_submits {key : Key} (h : s.submits key = true) :
    (s.onKey key).2 = (s.submitPin s.currentTick).screen := by
  simp only [submits, and_eq_true, beq_iff_eq, or_eq_true] at h
  obtain ⟨hmode, hkey⟩ := h
  unfold onKey
  rw [hmode]
  obtain rfl | rfl := hkey <;>
  · unfold onPinKey keyToDigit
    dsimp only
    split <;> rfl

theorem onKey_of_not_submits {key : Key} (h : s.submits key = false) :
    Same s (s.onKey key).2 := by
  unfold onKey
  cases hmode : s.mode with
  | pinUnlock =>
    cases key with
    | num digit => exact same_pushPinDigit _
    | ok => simp [submits, hmode] at h
    | rsk => simp [submits, hmode] at h
    | left =>
      show Same s (if s.pinLen > 0 then _ else _)
      split <;> exact ⟨rfl, rfl, rfl, rfl, rfl⟩
    | _ => exact ⟨rfl, rfl, rfl, rfl, rfl⟩
  | bootPassphrase | locked =>
    cases key with
    | num digit => exact same_pushPassphraseByte _
    | left => exact same_backspacePassphrase
    | star => exact same_pushPassphraseByte _
    | hash => exact same_pushPassphraseByte _
    | _ => exact ⟨rfl, rfl, rfl, rfl, rfl⟩

end LockScreen

/-! ## Runs -/

inductive LockCall where
  | key (key : Key)
  | submitPin (tick : Nat)
  | submitPassphraseWith (tick : Nat) (verify : List UInt8 → Bool)
  | advanceTick (tick : Nat)
  | setLockedAt (tick : Nat)
  | updateModeForSleep (tick : Nat)

def LockCall.tick : LockCall → Option Nat
  | .key _ => none
  | .submitPin tick => some tick
  | .submitPassphraseWith tick _ => some tick
  | .advanceTick tick => some tick
  | .setLockedAt tick => some tick
  | .updateModeForSleep tick => some tick

def LockCall.isPassphrase : LockCall → Bool
  | .submitPassphraseWith _ _ => true
  | _ => false

/-- The screen, and what can be observed from outside: the last tick that a
caller passed, how many checks in a row have failed, the deadline that the last
failed one set, whether a wipe was requested, and whether five checks in a row
have failed since a passphrase last succeeded. -/
structure Session where
  screen : LockScreen
  now : Nat
  failures : Nat
  deadline : Nat
  wiped : Bool
  barred : Bool

namespace Session

open LockScreen

def start (pin duressPin : Option PinVerifier) : Session :=
  ⟨.new pin duressPin, 0, 0, 0, false, false⟩

def usedTick (s : Session) (c : LockCall) : Nat := c.tick.getD s.screen.currentTick

def submission (s : Session) : LockCall → Option Submission
  | .key key =>
    if s.screen.submits key then some (s.screen.submitPin s.screen.currentTick) else none
  | .submitPin tick => some (s.screen.submitPin tick)
  | .submitPassphraseWith tick verify => some (s.screen.submitPassphraseWith tick verify)
  | .advanceTick _ => none
  | .setLockedAt _ => none
  | .updateModeForSleep _ => none

def screenAfter (s : Session) : LockCall → LockScreen
  | .key key => (s.screen.onKey key).2
  | .submitPin tick => (s.screen.submitPin tick).screen
  | .submitPassphraseWith tick verify => (s.screen.submitPassphraseWith tick verify).screen
  | .advanceTick tick => s.screen.advanceTick tick
  | .setLockedAt tick => s.screen.setLockedAt tick
  | .updateModeForSleep tick => s.screen.updateModeForSleep tick

/-- The failed checks in a row after a submission.  A check that could not run
counts neither way. -/
def failuresAfter (s : Session) (sub : Submission) : Nat :=
  if sub.failed then s.failures + 1 else if sub.passed then 0 else s.failures

/-- The `n`-th failure in a row sets a deadline by the table of delays, the tenth
and later ones ask for a wipe instead. -/
def deadlineAfter (s : Session) (tick : Nat) (sub : Submission) : Nat :=
  if sub.failed ∧ s.failures + 1 < 10 then
    saturatingAdd tick (throttleDelay (s.failures + 1))
  else s.deadline

def barredAfter (s : Session) (c : LockCall) (sub : Submission) : Bool :=
  if c.isPassphrase ∧ sub.result = .success then false
  else s.barred || decide (5 ≤ s.failuresAfter sub)

def step (s : Session) (c : LockCall) : Session :=
  let now := c.tick.getD s.now
  match s.submission c with
  | none => { s with screen := s.screenAfter c, now := now }
  | some sub =>
    { screen := s.screenAfter c
      now := now
      failures := s.failuresAfter sub
      deadline := s.deadlineAfter (s.usedTick c) sub
      wiped := s.wiped || sub.result == .wipeTrigger
      barred := s.barredAfter c sub }

/-- The ticks that callers pass are `u64` and do not decrease. -/
def Timely (s : Session) (c : LockCall) : Prop :=
  ∀ tick, c.tick = some tick → s.now ≤ tick ∧ tick < 2 ^ 64

variable {s : Session} {c : LockCall} {sub : Submission}

theorem screenAfter_of_submission (h : s.submission c = some sub) :
    s.screenAfter c = sub.screen ∧ SubmitStep s.screen (s.usedTick c) sub := by
  cases c with
  | key key =>
    simp only [submission] at h
    split at h
    next hsubmits =>
      cases h
      exact ⟨onKey_of_submits hsubmits, submitPin_spec⟩
    next => cases h
  | submitPin tick =>
    cases h
    exact ⟨rfl, submitPin_spec⟩
  | submitPassphraseWith tick verify =>
    cases h
    exact ⟨rfl, submitPassphraseWith_spec verify⟩
  | advanceTick tick => cases h
  | setLockedAt tick => cases h
  | updateModeForSleep tick => cases h

theorem screenAfter_of_no_submission (h : s.submission c = none) :
    (s.screenAfter c).attempts = s.screen.attempts ∧
    (s.screenAfter c).throttleUntilTick = s.screen.throttleUntilTick ∧
    (s.screenAfter c).longSleepForced = s.screen.longSleepForced ∧
    ((s.screenAfter c).currentTick = s.screen.currentTick ∨
      c.tick = some (s.screenAfter c).currentTick) ∧
    ((s.screenAfter c).mode = s.screen.mode ∨ ∃ tick, c = .updateModeForSleep tick) := by
  cases c with
  | key key =>
    simp only [submission] at h
    split at h
    next => cases h
    next hsubmits =>
      have hsame := onKey_of_not_submits (eq_false_of_ne_true hsubmits)
      exact ⟨hsame.attempts, hsame.throttleUntilTick, hsame.longSleepForced,
        .inl hsame.currentTick, .inl hsame.mode⟩
  | submitPin tick => cases h
  | submitPassphraseWith tick verify => cases h
  | advanceTick tick => exact ⟨rfl, rfl, rfl, .inr rfl, .inl rfl⟩
  | setLockedAt tick => exact ⟨rfl, rfl, rfl, .inl rfl, .inl rfl⟩
  | updateModeForSleep tick =>
    unfold screenAfter updateModeForSleep
    dsimp only
    split <;> exact ⟨rfl, rfl, rfl, .inl rfl, .inr ⟨tick, rfl⟩⟩

/-! ### The counter and the deadline -/

structure Counted (s : Session) : Prop where
  attempts : s.screen.attempts = s.failures % 2 ^ 32
  deadline : s.deadline ≤ s.screen.throttleUntilTick ∨ s.deadline ≤ s.now
  current : s.screen.currentTick ≤ s.now
  now : s.now < 2 ^ 64

theorem counted_start (pin duressPin : Option PinVerifier) : (start pin duressPin).Counted :=
  ⟨rfl, .inr (Nat.le_refl _), Nat.le_refl _, Nat.two_pow_pos 64⟩

theorem Timely.now_le (h : s.Timely c) : s.now ≤ c.tick.getD s.now := by
  cases htick : c.tick with
  | none => exact Nat.le_refl _
  | some tick => exact (h tick htick).1

theorem Counted.usedTick_le (hcounted : s.Counted) : s.usedTick c ≤ c.tick.getD s.now := by
  unfold usedTick
  cases c.tick with
  | none => exact hcounted.current
  | some tick => exact Nat.le_refl _

theorem Counted.time_lt (hcounted : s.Counted) (h : s.Timely c) :
    c.tick.getD s.now < 2 ^ 64 := by
  cases htick : c.tick with
  | none => exact hcounted.now
  | some tick => exact (h tick htick).2

theorem Counted.deadline_le (hcounted : s.Counted) (htimely : s.Timely c)
    (htick : s.screen.throttleUntilTick ≤ s.usedTick c) : s.deadline ≤ c.tick.getD s.now := by
  obtain hdeadline | hdeadline := hcounted.deadline
  · exact Nat.le_trans hdeadline (Nat.le_trans htick hcounted.usedTick_le)
  · exact Nat.le_trans hdeadline htimely.now_le

/-- What callers observe of a submission. -/
inductive Observed (s : Session) (c : LockCall) (sub : Submission) : Session → Prop
  /-- No check, or one that could not run. -/
  | ignored (hsame : Same s.screen sub.screen) (hresult : sub.passed = false)
      (hwipe : sub.result ≠ .wipeTrigger)
      (hchecked : sub.checked = true → s.screen.throttleUntilTick ≤ s.usedTick c) :
      Observed s c sub
        ⟨sub.screen, c.tick.getD s.now, s.failures, s.deadline, s.wiped,
          s.barred || decide (5 ≤ s.failures)⟩
  | passed (hpassed : sub.passed = true) (hscreen : sub.screen = s.screen.onSuccess sub.result)
      (htick : s.screen.throttleUntilTick ≤ s.usedTick c) :
      Observed s c sub
        ⟨sub.screen, c.tick.getD s.now, 0, s.deadline, s.wiped,
          s.barred && !(c.isPassphrase && sub.result == .success)⟩
  | failed (hfails : Fails s.screen (s.usedTick c) ((s.screen.attempts + 1) % 2 ^ 32) sub)
      (htick : s.screen.throttleUntilTick ≤ s.usedTick c) :
      Observed s c sub
        ⟨sub.screen, c.tick.getD s.now, s.failures + 1,
          if s.failures + 1 < 10 then saturatingAdd (s.usedTick c) (throttleDelay (s.failures + 1))
          else s.deadline,
          s.wiped || sub.result == .wipeTrigger, s.barred || decide (5 ≤ s.failures + 1)⟩

theorem step_of_submission (h : s.submission c = some sub) : Observed s c sub (s.step c) := by
  obtain ⟨hscreen, hspec⟩ := screenAfter_of_submission h
  have hignored : sub.failed = false → sub.passed = false → sub.result ≠ .wipeTrigger →
      s.step c = ⟨sub.screen, c.tick.getD s.now, s.failures, s.deadline, s.wiped,
        s.barred || decide (5 ≤ s.failures)⟩ := by
    intro hfailed hpassed hwipe
    have hsuccess : sub.result ≠ .success := by
      intro hc
      rw [Submission.passed, hc] at hpassed
      cases hpassed
    simp [step, h, hscreen, failuresAfter, deadlineAfter, barredAfter, hfailed, hpassed, hwipe,
      hsuccess]
  cases hspec with
  | refused hchecked hresult hsame =>
    have hfailed : sub.failed = false := by rw [Submission.failed, hchecked, Bool.false_and]
    have hpassed : sub.passed = false := by
      obtain hresult | ⟨wait, hresult⟩ := hresult <;> rw [Submission.passed, hresult] <;> rfl
    have hwipe : sub.result ≠ .wipeTrigger := by
      obtain hresult | ⟨wait, hresult⟩ := hresult <;> rw [hresult] <;> nofun
    rw [hignored hfailed hpassed hwipe]
    exact .ignored hsame hpassed hwipe fun hc => absurd (hchecked.symm.trans hc) (by decide)
  | unavailable htick hresult hsame =>
    have hfailed : sub.failed = false := by
      rw [Submission.failed, hresult]
      exact and_false _
    have hpassed : sub.passed = false := by rw [Submission.passed, hresult]; rfl
    have hwipe : sub.result ≠ .wipeTrigger := by rw [hresult]; nofun
    rw [hignored hfailed hpassed hwipe]
    exact .ignored hsame hpassed hwipe fun _ => htick
  | @passed result htick hresult =>
    have hpassed : Submission.passed ⟨result, s.screen.onSuccess result, true⟩ = true := by
      obtain rfl | rfl := hresult <;> rfl
    have hstep : s.step c = ⟨s.screen.onSuccess result, c.tick.getD s.now, 0, s.deadline, s.wiped,
        s.barred && !(c.isPassphrase && result == .success)⟩ := by
      obtain rfl | rfl := hresult <;>
        cases hphrase : c.isPassphrase <;>
        simp [step, h, hscreen, failuresAfter, deadlineAfter, barredAfter, Submission.failed,
          Submission.passed, hphrase]
    rw [hstep]
    exact .passed hpassed rfl htick
  | failed htick hfails =>
    have hsuccess : sub.result ≠ .success := by
      intro hc
      have hpassed := hfails.not_passed
      rw [Submission.passed, hc] at hpassed
      cases hpassed
    have hstep : s.step c = ⟨sub.screen, c.tick.getD s.now, s.failures + 1,
        if s.failures + 1 < 10 then saturatingAdd (s.usedTick c) (throttleDelay (s.failures + 1))
        else s.deadline,
        s.wiped || sub.result == .wipeTrigger, s.barred || decide (5 ≤ s.failures + 1)⟩ := by
      simp [step, h, hscreen, failuresAfter, deadlineAfter, barredAfter, hfails.failed, hsuccess]
    rw [hstep]
    exact .failed hfails htick

theorem step_of_no_submission (h : s.submission c = none) :
    s.step c = { s with screen := s.screenAfter c, now := c.tick.getD s.now } := by
  unfold step
  rw [h]

theorem Counted.step (hcounted : s.Counted) (htimely : s.Timely c) : (s.step c).Counted := by
  have hnow := htimely.now_le
  have hlt := hcounted.time_lt htimely
  have hattempts := hcounted.attempts
  have hcurrent := Nat.le_trans hcounted.current hnow
  have hkept : s.deadline ≤ s.screen.throttleUntilTick ∨ s.deadline ≤ c.tick.getD s.now :=
    hcounted.deadline.imp id fun h => Nat.le_trans h hnow
  cases hsub : s.submission c with
  | none =>
    obtain ⟨hattempts', hthrottle, -, htick, -⟩ := screenAfter_of_no_submission hsub
    rw [step_of_no_submission hsub]
    refine ⟨hattempts'.trans hattempts, ?_, ?_, hlt⟩
    · dsimp only
      rw [hthrottle]
      exact hkept
    · dsimp only
      obtain htick | htick := htick
      · rw [htick]
        exact hcurrent
      · rw [htick]
        exact Nat.le_refl _
  | some sub =>
    have hobserved := step_of_submission hsub
    generalize s.step c = s' at hobserved ⊢
    cases hobserved with
    | ignored hsame =>
      refine ⟨hsame.attempts.trans hattempts, ?_,
        Nat.le_trans (Nat.le_of_eq hsame.currentTick) hcurrent, hlt⟩
      rw [hsame.throttleUntilTick]
      exact hkept
    | passed _ hscreen htick =>
      refine ⟨?_, .inr (hcounted.deadline_le htimely htick), ?_, hlt⟩
      · dsimp only
        rw [hscreen]
        rfl
      · dsimp only
        rw [hscreen]
        exact hcurrent
    | failed hfails htick =>
      refine ⟨?_, ?_, Nat.le_trans (Nat.le_of_eq hfails.currentTick) hcurrent, hlt⟩
      · dsimp only
        rw [hfails.attempts, hattempts]
        omega
      · dsimp only
        split
        next hfew =>
          have hcount : (s.screen.attempts + 1) % 2 ^ 32 = s.failures + 1 := by omega
          rw [hcount] at hfails
          rw [(hfails.delays hfew).2]
          exact .inl (Nat.le_refl _)
        next => exact .inr (hcounted.deadline_le htimely htick)

/-! ### Callers that respect the mode -/

/-- A PIN is submitted only in PIN mode, the tiered sleep does not touch the mode
while a long sleep is forced, and once a wipe was requested it is carried out,
so that no passphrase verifies any more. -/
def Respectful (s : Session) : LockCall → Prop
  | .submitPin _ => s.screen.mode = .pinUnlock
  | .submitPassphraseWith _ verify => s.wiped = true → ∀ entered, verify entered = false
  | .updateModeForSleep _ => s.screen.longSleepForced = false
  | .key _ => True
  | .advanceTick _ => True
  | .setLockedAt _ => True

structure Limited (s : Session) : Prop where
  forced : 5 ≤ s.failures → s.screen.mode = .locked ∧ s.screen.longSleepForced = true
  barred : s.barred = true → 5 ≤ s.failures
  wiped : s.wiped = true → 10 ≤ s.failures

theorem limited_start (pin duressPin : Option PinVerifier) : (start pin duressPin).Limited :=
  ⟨fun h => absurd h (Nat.not_succ_le_zero 4), nofun, nofun⟩

theorem Limited.isPassphrase (hlimited : s.Limited) (hrespect : s.Respectful c)
    (hsub : s.submission c = some sub) (hfailures : 5 ≤ s.failures) : c.isPassphrase = true := by
  have hmode := (hlimited.forced hfailures).1
  cases c with
  | key key =>
    simp [submission, submits, hmode] at hsub
  | submitPin tick => cases hmode.symm.trans hrespect
  | submitPassphraseWith tick verify => rfl
  | advanceTick tick => cases hsub
  | setLockedAt tick => cases hsub
  | updateModeForSleep tick => cases hsub

theorem Limited.not_passed (hlimited : s.Limited) (hrespect : s.Respectful c)
    (hsub : s.submission c = some sub) (hwiped : s.wiped = true) : sub.passed = false := by
  have hphrase := hlimited.isPassphrase hrespect hsub
    (Nat.le_trans (by decide) (hlimited.wiped hwiped))
  cases c with
  | submitPassphraseWith tick verify =>
    cases hsub
    exact submitPassphraseWith_rejects (hrespect hwiped)
  | _ => cases hphrase

theorem Limited.step (hlimited : s.Limited) (hcounted : s.Counted) (hrespect : s.Respectful c) :
    (s.step c).Limited := by
  cases hsub : s.submission c with
  | none =>
    obtain ⟨-, -, hlong, -, hmode⟩ := screenAfter_of_no_submission hsub
    rw [step_of_no_submission hsub]
    refine ⟨fun h => ?_, hlimited.barred, hlimited.wiped⟩
    obtain ⟨hlocked, hforced⟩ := hlimited.forced h
    refine ⟨?_, hlong.trans hforced⟩
    obtain hmode | ⟨tick, rfl⟩ := hmode
    · exact hmode.trans hlocked
    · exact absurd (hforced.symm.trans hrespect) (by decide)
  | some sub =>
    have hphrase := hlimited.isPassphrase hrespect hsub
    have hwipe := hlimited.not_passed hrespect hsub
    have hobserved := step_of_submission hsub
    generalize s.step c = s' at hobserved ⊢
    cases hobserved with
    | ignored hsame =>
      refine ⟨fun h => ?_, fun h => ?_, hlimited.wiped⟩
      · obtain ⟨hlocked, hforced⟩ := hlimited.forced h
        exact ⟨hsame.mode.trans hlocked, hsame.longSleepForced.trans hforced⟩
      · obtain h | h := or_eq_true_iff.mp h
        · exact hlimited.barred h
        · exact of_decide_eq_true h
    | passed hpassed hscreen htick =>
      refine ⟨fun h => absurd h (Nat.not_succ_le_zero 4), fun h => ?_, fun h => ?_⟩
      · -- while barred only a passphrase can have been accepted, and that lifts the bar
        obtain ⟨hbarred, hnot⟩ := and_eq_true_iff.mp h
        have hcall := hphrase (hlimited.barred hbarred)
        have hsuccess : sub.result = .success := by
          cases c with
          | submitPassphraseWith tick verify =>
            cases hsub
            exact submitPassphraseWith_success hpassed
          | _ => cases hcall
        rw [hcall, hsuccess] at hnot
        exact absurd hnot (by decide)
      · exact absurd (hpassed.symm.trans (hwipe h)) (by decide)
    | failed hfails htick =>
      have hattempts := hcounted.attempts
      refine ⟨fun h => ?_, fun h => ?_, fun h => ?_⟩
      · dsimp only at h ⊢
        have hkept : s.failures ≠ 4 →
            s.screen.mode = .locked ∧ s.screen.longSleepForced = true :=
          fun hne => hlimited.forced (by omega)
        -- the counter of the screen may have wrapped around
        by_cases hwipes : 10 ≤ (s.screen.attempts + 1) % 2 ^ 32
        · obtain ⟨-, -, hmode, hlong⟩ := hfails.wipes hwipes
          rw [hmode, hlong]
          exact hkept (by omega)
        · by_cases hforces : 5 ≤ (s.screen.attempts + 1) % 2 ^ 32
          · exact hfails.forces (Nat.lt_of_not_le hwipes) hforces
          · obtain ⟨hmode, hlong⟩ := hfails.stays (Nat.lt_of_not_le hforces)
            rw [hmode, hlong]
            exact hkept (by omega)
      · obtain h | h := or_eq_true_iff.mp h
        · exact Nat.le_succ_of_le (hlimited.barred h)
        · exact of_decide_eq_true h
      · obtain h | h := or_eq_true_iff.mp h
        · exact Nat.le_succ_of_le (hlimited.wiped h)
        · have hresult : sub.result = .wipeTrigger := by simpa using h
          dsimp only
          refine Decidable.byContradiction fun hfew => ?_
          have hdelays := (hfails.delays (by omega)).1
          rw [hresult] at hdelays
          exact absurd hdelays (by decide)

/-! ### The limits -/

/-- In every run of callers that respect the mode, and for every further call
that submits a secret: no secret is checked before the deadline that the previous
failure set, the tenth failed check in a row asks for a wipe, after that nothing
is accepted, and once five checks in a row have failed no PIN is checked or
accepted until a passphrase was. -/
theorem guess_limits (pin duressPin : Option PinVerifier) (s : Session)
    (hrun : Runs step (fun s c => s.Timely c ∧ s.Respectful c) (start pin duressPin) s)
    (c : LockCall) (hcall : s.Timely c ∧ s.Respectful c) (sub : Submission)
    (hsub : s.submission c = some sub) :
    (sub.checked = true → s.deadline ≤ c.tick.getD s.now) ∧
    (sub.failed = true → s.failures + 1 = 10 → sub.result = .wipeTrigger) ∧
    (s.wiped = true → sub.result ≠ .success) ∧
    (s.barred = true → c.isPassphrase = false → sub.checked = false ∧ sub.result ≠ .success) := by
  have hstate : s.Counted ∧ s.Limited :=
    hrun.invariant (I := fun s => s.Counted ∧ s.Limited)
      ⟨counted_start pin duressPin, limited_start pin duressPin⟩
      fun t c h hc => ⟨h.1.step hc.1, h.2.step h.1 hc.2⟩
  obtain ⟨hcounted, hlimited⟩ := hstate
  have hobserved := step_of_submission hsub
  generalize s.step c = s' at hobserved
  refine ⟨fun hchecked => ?_, fun hfailed hten => ?_, fun hwiped hc => ?_, fun hbarred hpin => ?_⟩
  · cases hobserved with
    | ignored _ _ _ htick => exact hcounted.deadline_le hcall.1 (htick hchecked)
    | passed _ _ htick => exact hcounted.deadline_le hcall.1 htick
    | failed _ htick => exact hcounted.deadline_le hcall.1 htick
  · have hattempts := hcounted.attempts
    obtain ⟨-, hspec⟩ := screenAfter_of_submission hsub
    cases hspec with
    | failed _ hfails => exact (hfails.wipes (by omega)).1
    | refused hchecked =>
      rw [Submission.failed, hchecked] at hfailed
      exact absurd hfailed Bool.false_ne_true
    | unavailable _ hresult =>
      rw [Submission.failed, hresult] at hfailed
      exact absurd hfailed (by simp)
    | passed _ hresult =>
      obtain rfl | rfl := hresult <;> exact absurd hfailed (by simp [Submission.failed])
  · have hpassed := hlimited.not_passed hcall.2 hsub hwiped
    rw [Submission.passed, hc] at hpassed
    exact absurd hpassed (by decide)
  · have hphrase := hlimited.isPassphrase hcall.2 hsub (hlimited.barred hbarred)
    exact absurd (hphrase.symm.trans hpin) (by decide)

def pinRecord (pin : List UInt8) : PinVerifier := fun entered => some (entered == pin)

def fiveWrong : List LockCall :=
  [0, 0, 0, 5, 10].map fun tick => .submitPassphraseWith tick fun _ => false

/-- Five wrong passphrases and then the right one. -/
theorem guess_limits_fiveWrong :
    let s := fiveWrong.foldl step (start (some (pinRecord [49])) none)
    (s.failures, s.deadline, s.barred) = (5, 40, true) ∧
    (s.submission (.submitPassphraseWith 40 fun _ => true)).isSome = true ∧
    ((s.screen.submitPassphraseWith 40 fun _ => true).checked = true → s.deadline ≤ 40) := by
  have hguarded : Guarded step (fun s c => s.Timely c ∧ s.Respectful c)
      (start (some (pinRecord [49])) none) fiveWrong := by
    refine ⟨⟨?_, nofun⟩, ⟨?_, nofun⟩, ⟨?_, nofun⟩, ⟨?_, nofun⟩, ⟨?_, nofun⟩, trivial⟩ <;>
    · intro tick htick
      cases htick
      decide
  have hrun := Runs.start.foldl hguarded
  refine ⟨by decide, rfl, ?_⟩
  refine (guess_limits (some (pinRecord [49])) none _ hrun
    (.submitPassphraseWith 40 fun _ => true) ⟨?_, ?_⟩ _ rfl).1
  · intro tick htick
    cases htick
    decide
  · intro hwiped
    cases hwiped

def pinTyped : Session :=
  (fiveWrong ++ [LockCall.updateModeForSleep 40, .advanceTick 40] ++
      [1, 2, 3, 4, 5, 6].map fun digit => LockCall.key (.num digit)).foldl step
    (start (some (pinRecord [49, 50, 51, 52, 53, 54])) none)

def tenWrong : Session :=
  (fiveWrong ++ [40, 70, 370, 670, 4270].map fun tick =>
      LockCall.submitPassphraseWith tick fun _ => false).foldl step (start none none)

/-- The tiered sleep offers the PIN again after five failures, and the PIN is
checked and accepted.  After ten failures the screen has asked for the wipe, and
still accepts the passphrase. -/
theorem guess_limits_bypassed :
    pinTyped.barred = true ∧
    (pinTyped.submission (.key .ok)).map (fun sub => (sub.checked, sub.result)) =
      some (true, .success) ∧
    tenWrong.wiped = true ∧
    (tenWrong.submission (.submitPassphraseWith 4270 fun _ => true)).map (fun sub => sub.result) =
      some .success := by
  decide +kernel

end Session

end Thumos
