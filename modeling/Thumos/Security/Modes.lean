import Mathlib.Logic.Function.Basic
import Thumos.Security.LockScreen

/-!
# Security modes and radios

The mode manager, and the radio states that its policy asks for.  A terminal marker
of a radio outlives every policy.  The key manager drops its keys on the way to
Sentinel and to Panic, and nothing here derives them again.
-/

namespace Thumos.Modes

open GuardedRun

/-! ## Radios -/

inductive Radio where
  | cellular | wifi | bluetooth | gps | fm | mesh
  deriving DecidableEq

inductive PowerState where
  | on | off | hardwareKilled | powerCutRequested
  deriving DecidableEq

def PowerState.isTerminal : PowerState → Bool
  | hardwareKilled | powerCutRequested => true
  | on | off => false

abbrev PowerManager := Radio → PowerState

namespace PowerManager

def new : PowerManager := fun _ => .off

def setState (pm : PowerManager) (radio : Radio) (state : PowerState) : PowerManager :=
  if (pm radio).isTerminal then pm else Function.update pm radio state

/-- A terminal marker for the radios of the set; all of them for `Radio::All`. -/
def mark (pm : PowerManager) (radios : Radio → Bool) (marker : PowerState) : PowerManager :=
  fun radio => if radios radio ∧ ¬(pm radio).isTerminal then marker else pm radio

def hardwareKill (pm : PowerManager) (radio : Option Radio) : PowerManager :=
  pm.mark (fun r => radio = none ∨ radio = some r) .hardwareKilled

def requestModemPowerCut (pm : PowerManager) : PowerManager :=
  pm.mark (· = .cellular) .powerCutRequested

end PowerManager

structure ModePolicy where
  cellularEnabled : Bool
  wifiEnabled : Bool
  bluetoothEnabled : Bool
  gpsEnabled : Bool
  meshEnabled : Bool
  sleepTier : SleepTier
  scanIntervalMs : Nat

def basePolicy : SecurityMode → ModePolicy
  | .daily => ⟨true, true, true, true, true, .short, 60000⟩
  | .sentinel => ⟨false, false, false, true, true, .long, 10000⟩
  | .panic => ⟨false, false, false, false, false, .long, 0⟩

def toState (enabled : Bool) : PowerState := if enabled then .on else .off

/-- The state that a policy asks of a radio.  FM is always off. -/
def ModePolicy.asks (policy : ModePolicy) : Radio → PowerState
  | .cellular => toState policy.cellularEnabled
  | .wifi => toState policy.wifiEnabled
  | .bluetooth => toState policy.bluetoothEnabled
  | .gps => toState policy.gpsEnabled
  | .mesh => toState policy.meshEnabled
  | .fm => .off

def applyModePolicy (policy : ModePolicy) (pm : PowerManager) : PowerManager :=
  [.cellular, .wifi, .bluetooth, .gps, .mesh, .fm].foldl
    (fun pm radio => pm.setState radio (policy.asks radio)) pm

theorem setState_apply (pm : PowerManager) (radio r : Radio) (state : PowerState) :
    pm.setState radio state r = if r = radio ∧ ¬(pm r).isTerminal then state else pm r := by
  unfold PowerManager.setState
  by_cases h : r = radio
  · subst h
    split <;> simp [*]
  · split <;> simp [h]

theorem applyModePolicy_apply (policy : ModePolicy) (pm : PowerManager) (radio : Radio) :
    applyModePolicy policy pm radio =
      if (pm radio).isTerminal then pm radio else policy.asks radio := by
  simp only [applyModePolicy, List.foldl_cons, List.foldl_nil, setState_apply]
  cases radio <;> cases h : (pm _).isTerminal <;> simp [h]

/-! ## Modes -/

def panicAbortWindowTicks : Nat := 1500

inductive ModeTransitionError where
  | pinRequired
  | pinMismatch
  | panicIsTerminal
  | abortWindowExpired
  | alreadyInMode
  | notInPanic
  | notProvisioned
  | verifierUnavailable
  deriving DecidableEq

structure PanicEvent where
  triggeredAt : Nat
  keysZeroized : Bool

structure Device where
  mode : SecurityMode := .daily
  covertLock : Bool := false
  panicInitiatedTick : Option Nat := none
  prePanicMode : SecurityMode := .daily
  lastPanicEvent : Option PanicEvent := none
  verifier : Option PinVerifier
  keys : KeyManager
  power : PowerManager

def hasKeys (k : KeyManager) : Bool :=
  k.primaryKeyDerived && k.dataKey.isSome && k.auditKey.isSome && k.csprngKey.isSome &&
    k.sessionKey.isSome

namespace Device

def effectivePolicy (d : Device) : ModePolicy :=
  let policy := basePolicy d.mode
  if d.covertLock then
    { policy with
      cellularEnabled := false, wifiEnabled := false, bluetoothEnabled := false,
      gpsEnabled := false }
  else policy

def applyRadioPolicy (d : Device) : Device :=
  { d with power := applyModePolicy d.effectivePolicy d.power }

def enterSentinel (d : Device) : Except ModeTransitionError Device :=
  if d.mode = .panic then .error .panicIsTerminal
  else if d.mode = .sentinel then .error .alreadyInMode
  else .ok { d with mode := .sentinel, keys := d.keys.setSleepTier .long }.applyRadioPolicy

def exitSentinel (d : Device) (pin : List UInt8) : Except ModeTransitionError Device :=
  if d.mode = .panic then .error .panicIsTerminal
  else if d.mode = .daily then .error .alreadyInMode
  else if pin = [] then .error .pinRequired
  else
    match d.verifier with
    | none => .error .notProvisioned
    | some verify =>
      match verify pin with
      | some true => .ok { d with mode := .daily }.applyRadioPolicy
      | some false => .error .pinMismatch
      | none => .error .verifierUnavailable

def activatePanic (d : Device) (currentTick : Nat) : Except ModeTransitionError Device :=
  if d.mode = .panic then .error .alreadyInMode
  else
    let keys := d.keys.zeroizeAll
    .ok { d with
      mode := .panic, prePanicMode := d.mode, panicInitiatedTick := some currentTick, keys,
      lastPanicEvent := some ⟨currentTick, !hasKeys keys⟩ }.applyRadioPolicy

def abortPanic (d : Device) (currentTick : Nat) : Except ModeTransitionError Device :=
  if d.mode ≠ .panic then .error .notInPanic
  else
    match d.panicInitiatedTick with
    | none => .error .abortWindowExpired
    | some initiated =>
      if currentTick - initiated > panicAbortWindowTicks then .error .abortWindowExpired
      else .ok { d with mode := d.prePanicMode, panicInitiatedTick := none }.applyRadioPolicy

def setCovertLock (d : Device) (active : Bool) : Device :=
  if d.covertLock ≠ active then { d with covertLock := active }.applyRadioPolicy else d

end Device

inductive Call where
  | enterSentinel
  | exitSentinel (pin : List UInt8)
  | activatePanic (currentTick : Nat)
  | abortPanic (currentTick : Nat)
  | toggleCovertLock
  | setCovertLock (active : Bool)
  | hardwareKill (radio : Option Radio)
  | requestModemPowerCut

def Device.call (d : Device) : Call → Except ModeTransitionError Device
  | .enterSentinel => d.enterSentinel
  | .exitSentinel pin => d.exitSentinel pin
  | .activatePanic currentTick => d.activatePanic currentTick
  | .abortPanic currentTick => d.abortPanic currentTick
  | .toggleCovertLock => .ok { d with covertLock := !d.covertLock }.applyRadioPolicy
  | .setCovertLock active => .ok (d.setCovertLock active)
  | .hardwareKill radio => .ok { d with power := d.power.hardwareKill radio }
  | .requestModemPowerCut => .ok { d with power := d.power.requestModemPowerCut }

def Device.next (d : Device) (c : Call) : Device := (d.call c).toOption.getD d

/-! ## Runs -/

inductive Step (d : Device) : Call → Device → Prop where
  | same {c : Call} : Step d c d
  | enter : d.mode = .daily → Step d .enterSentinel
      { d with mode := .sentinel, keys := d.keys.setSleepTier .long }.applyRadioPolicy
  | exit {pin : List UInt8} {verify : PinVerifier} : d.mode = .sentinel →
    d.verifier = some verify → verify pin = some true →
    Step d (.exitSentinel pin) { d with mode := .daily }.applyRadioPolicy
  | panic {start : Nat} {event : PanicEvent} : d.mode ≠ .panic → Step d (.activatePanic start)
      { d with
        mode := .panic, prePanicMode := d.mode, panicInitiatedTick := some start,
        keys := d.keys.zeroizeAll, lastPanicEvent := some event }.applyRadioPolicy
  | abort {tick start : Nat} : d.mode = .panic → d.panicInitiatedTick = some start →
    tick - start ≤ panicAbortWindowTicks → Step d (.abortPanic tick)
      { d with mode := d.prePanicMode, panicInitiatedTick := none }.applyRadioPolicy
  | covert {c : Call} {active : Bool} : Step d c { d with covertLock := active }.applyRadioPolicy
  | mark {c : Call} {radios : Radio → Bool} {marker : PowerState} : marker.isTerminal →
    Step d c { d with power := d.power.mark radios marker }

theorem step_next (d : Device) (c : Call) : Step d c (d.next c) := by
  cases c with
  | enterSentinel =>
    change Step d _ (d.enterSentinel.toOption.getD d)
    rw [Device.enterSentinel]
    split_ifs with hpanic hsentinel
    · exact .same
    · exact .same
    · refine .enter ?_
      cases hmode : d.mode <;> simp_all
  | exitSentinel pin =>
    change Step d _ ((d.exitSentinel pin).toOption.getD d)
    rw [Device.exitSentinel]
    split_ifs with hpanic hdaily
    · exact .same
    · exact .same
    · exact .same
    · split
      · exact .same
      next verify hverifier =>
        split
        next hpin =>
          refine .exit ?_ hverifier hpin
          cases hmode : d.mode <;> simp_all
        · exact .same
        · exact .same
  | activatePanic start =>
    change Step d _ ((d.activatePanic start).toOption.getD d)
    rw [Device.activatePanic]
    split_ifs with hpanic
    · exact .same
    · exact .panic hpanic
  | abortPanic tick =>
    change Step d _ ((d.abortPanic tick).toOption.getD d)
    rw [Device.abortPanic]
    split_ifs with hpanic
    · exact .same
    split
    · exact .same
    next start hstart =>
      split_ifs with hwindow
      · exact .same
      · exact .abort (not_not.mp hpanic) hstart (Nat.not_lt.mp hwindow)
  | toggleCovertLock => exact .covert
  | setCovertLock active =>
    change Step d _ (d.setCovertLock active)
    rw [Device.setCovertLock]
    split_ifs
    · exact .covert
    · exact .same
  | hardwareKill radio => exact .mark rfl
  | requestModemPowerCut => exact .mark rfl

/-- The device, whether a call has changed its mode or its lock, and the tick and the mode in which
the latest panic began. -/
structure Run where
  device : Device
  changed : Bool := false
  began : Option (Nat × SecurityMode) := none

def Run.step (r : Run) (c : Call) : Run where
  device := r.device.next c
  changed := r.changed || (r.device.next c).mode ≠ r.device.mode ||
    (r.device.next c).covertLock ≠ r.device.covertLock
  began :=
    match c with
    | .activatePanic start =>
      if r.device.mode ≠ .panic then some (start, r.device.mode) else r.began
    | _ => r.began

/-- Every radio without a marker is recorded as the policy asks. -/
def Device.Obeys (d : Device) : Prop :=
  ∀ radio, ¬(d.power radio).isTerminal → d.power radio = d.effectivePolicy.asks radio

def Device.origin (d : Device) : SecurityMode := if d.mode = .panic then d.prePanicMode else d.mode

/-- What the modes, the radios and the keys owe each other, now and at the next call. -/
structure InStep (r : Run) : Prop where
  radios : r.changed → r.device.Obeys
  tier : r.device.mode ≠ .daily → r.device.keys.sleepTier = r.device.effectivePolicy.sleepTier
  markers : ∀ c radio, (r.device.power radio).isTerminal →
    (r.device.next c).power radio = r.device.power radio
  pin : ∀ c, r.device.origin = .sentinel → (r.device.next c).origin ≠ .sentinel →
    ∃ pin verify, c = .exitSentinel pin ∧ r.device.verifier = some verify ∧ verify pin = some true
  abort : ∀ c, r.device.mode = .panic → (r.device.next c).mode ≠ .panic →
    ∃ tick start, c = .abortPanic tick ∧ r.began = some (start, (r.device.next c).mode) ∧
      tick - start ≤ panicAbortWindowTicks

variable {d d' : Device} {c : Call} {r : Run}

theorem obeys_applyRadioPolicy (d : Device) : d.applyRadioPolicy.Obeys := by
  intro radio hmarker
  change applyModePolicy d.effectivePolicy d.power radio = d.effectivePolicy.asks radio
  change ¬(applyModePolicy d.effectivePolicy d.power radio).isTerminal at hmarker
  rw [applyModePolicy_apply] at hmarker ⊢
  split_ifs at hmarker ⊢ with h
  · exact absurd h hmarker
  · rfl

theorem Step.power (h : Step d c d') (radio : Radio) (hmarker : (d.power radio).isTerminal) :
    d'.power radio = d.power radio := by
  cases h with
  | same => rfl
  | mark => exact if_neg fun h => h.2 hmarker
  | _ => exact (applyModePolicy_apply _ _ radio).trans (if_pos hmarker)

theorem Step.obeys (h : Step d c d')
    (hd : d'.mode ≠ d.mode ∨ d'.covertLock ≠ d.covertLock ∨ d.Obeys) : d'.Obeys := by
  cases h with
  | same => simpa using hd
  | mark hterminal =>
    have hd : d.Obeys := by simpa using hd
    intro radio hmarker
    change ¬(ite _ _ _ : PowerState).isTerminal at hmarker
    change ite _ _ _ = _
    split_ifs at hmarker ⊢
    · exact absurd hterminal hmarker
    · exact hd radio hmarker
  | _ => exact obeys_applyRadioPolicy _

theorem effectivePolicy_sleepTier (d : Device) :
    d.effectivePolicy.sleepTier = (basePolicy d.mode).sleepTier := by
  unfold Device.effectivePolicy
  split <;> rfl

def Device.Tiered (d : Device) : Prop := d.mode ≠ .daily → d.keys.sleepTier = .long

theorem Step.tiered (h : Step d c d') (hd : d.Tiered) : d'.Tiered := by
  cases h with
  | same | covert | mark => exact hd
  | enter | panic => exact fun _ => rfl
  | exit => exact fun hmode => absurd rfl hmode
  | abort hpanic => exact fun _ => hd (by rw [hpanic]; decide)

theorem Step.pin (h : Step d c d') (hd : d.origin = .sentinel) (hd' : d'.origin ≠ .sentinel) :
    ∃ pin verify, c = .exitSentinel pin ∧ d.verifier = some verify ∧ verify pin = some true := by
  cases h with
  | same | covert | mark => exact absurd hd hd'
  | enter => exact absurd rfl hd'
  | exit _ hverifier hpin => exact ⟨_, _, rfl, hverifier, hpin⟩
  | panic hmode => exact absurd ((if_neg hmode).symm.trans hd) hd'
  | abort hpanic =>
    rw [Device.origin, if_pos hpanic] at hd
    refine absurd ?_ hd'
    change ite (d.prePanicMode = .panic) d.prePanicMode d.prePanicMode = .sentinel
    rw [hd, ite_self]

structure Inv (r : Run) : Prop where
  radios : r.changed → r.device.Obeys
  tiered : r.device.Tiered
  began : r.device.mode = .panic → r.device.prePanicMode ≠ .panic ∧
    ∃ start, r.device.panicInitiatedTick = some start ∧
      r.began = some (start, r.device.prePanicMode)

theorem Inv.step (h : Inv r) (c : Call) : Inv (r.step c) := by
  have hstep := step_next r.device c
  refine ⟨fun hchanged => hstep.obeys ?_, hstep.tiered h.tiered, ?_⟩
  · simp only [Run.step, Bool.or_eq_true, decide_eq_true_eq] at hchanged
    rcases hchanged with (hold | hmode) | hlock
    · exact .inr (.inr (h.radios hold))
    · exact .inl hmode
    · exact .inr (.inl hlock)
  · simp only [Run.step]
    generalize r.device.next c = d' at hstep
    cases hstep with
    | panic hmode =>
      refine fun _ => ⟨hmode, _, rfl, ?_⟩
      dsimp only
      rw [if_pos hmode]
      rfl
    | enter | exit => exact nofun
    | abort hpanic => exact fun hmode => absurd hmode (h.began hpanic).1
    | same | covert | mark =>
      intro hpanic
      obtain ⟨hpre, start, hstart, hbegan⟩ := h.began hpanic
      refine ⟨hpre, start, hstart, ?_⟩
      split
      · exact (if_neg (not_not.mpr hpanic)).trans hbegan
      · exact hbegan

theorem Inv.inStep (h : Inv r) : InStep r where
  radios := h.radios
  tier hmode := by
    rw [h.tiered hmode, effectivePolicy_sleepTier]
    cases hmode' : r.device.mode with
    | daily => exact absurd hmode' hmode
    | _ => rfl
  markers c := (step_next r.device c).power
  pin c := (step_next r.device c).pin
  abort c hpanic hleft := by
    obtain ⟨-, start, hstart, hbegan⟩ := h.began hpanic
    have hstep := step_next r.device c
    generalize r.device.next c = d' at hstep hleft
    cases hstep with
    | abort _ hstart' hwindow =>
      cases hstart.symm.trans hstart'
      exact ⟨_, _, rfl, hbegan, hwindow⟩
    | enter hdaily => cases hdaily.symm.trans hpanic
    | exit hsentinel => cases hsentinel.symm.trans hpanic
    | panic hmode => exact absurd hpanic hmode
    | same | covert | mark => exact absurd hpanic hleft

/-- After every sequence of calls from a fresh mode manager: once a call has changed the mode or the
lock, the radios obey; markers stay; outside Daily the key manager is in the tier of the policy;
Sentinel is left for good only by a verified PIN; and a panic is left only in time, to the mode in
which it began. -/
theorem modes_in_step (verifier : Option PinVerifier) (keys : KeyManager) (power : PowerManager)
    (calls : List Call) :
      InStep (calls.foldl Run.step ⟨{ verifier, keys, power }, false, none⟩) := by
  suffices h : ∀ r, Inv r → Inv (calls.foldl Run.step r) by
    refine (h _ ⟨fun hchanged => ?_, fun hmode => absurd rfl hmode, fun hmode => ?_⟩).inStep
    · cases hchanged
    · cases hmode
  intro r h
  induction calls generalizing r with
  | nil => exact h
  | cons c calls ih => exact ih _ (h.step c)

/-- A fresh device that refuses a call has its radios off although the policy asks for them; and
after Sentinel the keys stay in the long tier although the policy of Daily has the short one. -/
theorem modes_out_of_step :
    let fresh : Device :=
      { verifier := some fun pin => some (pin == [1]), keys := .new, power := .new }
    (fresh.next (.setCovertLock false)).power .wifi = .off ∧
      (fresh.next (.setCovertLock false)).effectivePolicy.asks .wifi = .on ∧
      let d := ({ fresh with keys := { fresh.keys with sleepTier := .short } }.next
        .enterSentinel).next (.exitSentinel [1])
      d.mode = .daily ∧ d.keys.sleepTier = .long ∧ d.effectivePolicy.sleepTier = .short := by
  decide +kernel

end Thumos.Modes
