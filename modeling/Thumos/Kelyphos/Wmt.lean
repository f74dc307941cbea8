import Mathlib.Tactic.SplitIfs
import Thumos.Lib.GuardedRun

/-!
# Power of the radio chip

`WmtManager` switches the core supply of the connectivity chip and the
supplies of its four radios.  GPS and FM have one regulator between them, and
`disable_subsystem` switches it off without asking for the other one.
-/

namespace Thumos.Kelyphos
open GuardedRun

inductive Subsystem where
  | bt | fm | gps | wifi
  deriving DecidableEq

inductive PmicRegulator where
  | vcn18 | vcn28 | vcn33Bt | vcn33Wifi
  deriving DecidableEq

inductive PowerState where
  | off | on
  deriving DecidableEq

inductive PowerOnStep where
  | spmClockEnable | top1PowerOn | pollPowerAck | shadowPowerOn | clockEnable | delayMicros
  | pollShadowAck | releaseIso | releaseSwReset | disableAxiProtect | assertCpuReset
  | detectClockType | enableClockBuffer | enableAhbClock | pollChipId | releaseCpuReset
  | applyAcrSetting | done

inductive WmtError where
  | powerAckTimeout (step : Nat)
  | chipIdMismatch (expected got : BitVec 32)
  | axiProtectTimeout
  | alreadyPoweredOn
  | alreadyPoweredOff
  | subsystemStateConflict (subsystem : Subsystem) (state : String)
  | consysNotPoweredOn (subsystem : Subsystem)

namespace Subsystem

def all : List Subsystem := [.bt, .fm, .gps, .wifi]

theorem mem_all (s : Subsystem) : s ∈ all := by
  cases s <;> decide

instance (p : Subsystem → Prop) [DecidablePred p] : Decidable (∀ s, p s) :=
  decidable_of_iff (∀ s ∈ all, p s) ⟨fun h s => h s s.mem_all, fun h s _ => h s⟩

def mask : Subsystem → BitVec 8
  | bt => 1
  | fm => 2
  | gps => 4
  | wifi => 8

/-- `subsystem_regulator`. -/
def regulator : Subsystem → PmicRegulator
  | bt => .vcn33Bt
  | wifi => .vcn33Wifi
  | gps | fm => .vcn28

theorem regulator_ne_core (s : Subsystem) : s.regulator ≠ .vcn18 := by
  cases s <;> decide

end Subsystem

/-- What the register of a polling step shows at each read of it. -/
abbrev Hardware := PowerOnStep → Nat → BitVec 32

namespace PowerOnStep

def index : PowerOnStep → Nat
  | done => 0
  | s => s.ctorIdx + 1

def sequence : List PowerOnStep :=
  [spmClockEnable, top1PowerOn, pollPowerAck, shadowPowerOn, clockEnable, delayMicros,
    pollShadowAck, releaseIso, releaseSwReset, disableAxiProtect, assertCpuReset,
    detectClockType, enableClockBuffer, enableAhbClock, pollChipId, releaseCpuReset,
    applyAcrSetting]

/-- The `for` loops: one of the next `n` reads, from the `i`-th on, is `good`. -/
def poll (good : BitVec 32 → Bool) (reads : Nat → BitVec 32) : (n i : Nat) → Bool
  | 0, _ => false
  | n + 1, i => good (reads i) || poll good reads n (i + 1)

def execute (hw : Hardware) (iters : Nat) (s : PowerOnStep) : Except WmtError Unit :=
  match s with
  | pollPowerAck | pollShadowAck =>
    if poll (· &&& 2 != 0) (hw s) iters 0 then .ok () else .error (.powerAckTimeout s.index)
  | disableAxiProtect =>
    if poll (· &&& 0x6000 == 0) (hw s) iters 0 then .ok () else .error .axiProtectTimeout
  | pollChipId =>
    if poll (· == 0x0699) (hw s) iters 0 then .ok ()
    else .error (.chipIdMismatch 0x0699 (hw s iters))
  | _ => .ok ()

/-- The loop of `power_on`: the last step it came to, and how it ended. -/
def run (hw : Hardware) (iters : Nat) : List PowerOnStep → PowerOnStep × Except WmtError Unit
  | [] => (done, .ok ())
  | s :: rest =>
    match s.execute hw iters with
    | .error err => (s, .error err)
    | .ok () => run hw iters rest

end PowerOnStep

/-- `WmtManager`, with the regulators that are on. -/
structure WmtManager where
  power : PowerState
  powerOnStep : PowerOnStep
  subsystems : BitVec 8
  pollTimeoutIters : Nat
  supplied : PmicRegulator → Bool

namespace WmtManager

def new (iters : Nat) : WmtManager := ⟨.off, .spmClockEnable, 0, iters, fun _ => false⟩

variable (m : WmtManager)

def subsystemEnabled (s : Subsystem) : Bool := m.subsystems &&& s.mask != 0

def setRegulator (r : PmicRegulator) (on : Bool) : WmtManager :=
  { m with supplied := fun r' => if r' = r then on else m.supplied r' }

def powerOn (hw : Hardware) : WmtManager × Except WmtError Unit :=
  if m.power = .on then (m, .error .alreadyPoweredOn)
  else
    let m := m.setRegulator .vcn18 true
    match PowerOnStep.run hw m.pollTimeoutIters PowerOnStep.sequence with
    | (step, .error err) => ({ m with powerOnStep := step }.setRegulator .vcn18 false, .error err)
    | (step, .ok ()) => ({ m with powerOnStep := step, power := .on }, .ok ())

/-- A turn of the loop of `power_off`. -/
def dropSupply (s : Subsystem) : WmtManager :=
  if m.subsystemEnabled s then m.setRegulator s.regulator false else m

def powerOff : WmtManager × Except WmtError Unit :=
  if m.power = .off then (m, .error .alreadyPoweredOff)
  else
    ({ (Subsystem.all.foldl dropSupply m).setRegulator .vcn18 false with
      power := .off, subsystems := 0 }, .ok ())

def enableSubsystem (s : Subsystem) : WmtManager × Except WmtError Unit :=
  if m.power ≠ .on then (m, .error (.consysNotPoweredOn s))
  else if m.subsystemEnabled s then (m, .error (.subsystemStateConflict s "enabled"))
  else ({ m.setRegulator s.regulator true with subsystems := m.subsystems ||| s.mask }, .ok ())

def disableSubsystem (s : Subsystem) : WmtManager × Except WmtError Unit :=
  if m.subsystemEnabled s = false then (m, .error (.subsystemStateConflict s "disabled"))
  else ({ m.setRegulator s.regulator false with subsystems := m.subsystems &&& ~~~s.mask }, .ok ())

inductive Call where
  | powerOn (hw : Hardware)
  | powerOff
  | enable (s : Subsystem)
  | disable (s : Subsystem)

def call : Call → WmtManager
  | .powerOn hw => (m.powerOn hw).1
  | .powerOff => m.powerOff.1
  | .enable s => (m.enableSubsystem s).1
  | .disable s => (m.disableSubsystem s).1

/-- No radio goes while another one is fed by the same regulator. -/
def Alone : Call → Prop
  | .disable s => m.subsystemEnabled s → ∀ t ≠ s, t.regulator = s.regulator → ¬ m.subsystemEnabled t
  | _ => True

instance : DecidablePred m.Alone
  | .disable _ => by unfold Alone; infer_instance
  | .powerOn _ | .powerOff | .enable _ => isTrue trivial

structure FollowsUsers : Prop where
  needed : ∀ s, m.subsystemEnabled s → m.supplied s.regulator
  unneeded : ∀ r ≠ .vcn18, (∀ s, s.regulator = r → ¬ m.subsystemEnabled s) → ¬ m.supplied r
  core : m.supplied .vcn18 ↔ m.power = .on
  idle : m.power = .off → ∀ s, ¬ m.subsystemEnabled s

theorem mask_or (b : BitVec 8) (s t : Subsystem) :
    (b ||| s.mask) &&& t.mask != 0 ↔ t = s ∨ b &&& t.mask != 0 := by
  revert b
  cases s <;> cases t <;> decide +kernel

theorem mask_and_not (b : BitVec 8) (s t : Subsystem) :
    (b &&& ~~~s.mask) &&& t.mask != 0 ↔ t ≠ s ∧ b &&& t.mask != 0 := by
  revert b
  cases s <;> cases t <;> decide +kernel

variable {m}

theorem new_followsUsers (iters : Nat) : (new iters).FollowsUsers :=
  ⟨by simp [new, subsystemEnabled], by simp [new], by simp [new], by simp [new, subsystemEnabled]⟩

theorem FollowsUsers.powerOn (h : m.FollowsUsers) (hw : Hardware) :
    (m.powerOn hw).1.FollowsUsers := by
  unfold WmtManager.powerOn
  split_ifs with hon
  · exact h
  have hoff : m.power = .off := by
    cases hp : m.power with
    | off => rfl
    | on => exact absurd hp hon
  have hidle := h.idle hoff
  dsimp only
  split <;> refine ⟨fun s hs => absurd hs (hidle s), fun r hr hs => ?_, ?_, fun _ => hidle⟩
  · simpa [setRegulator, hr] using h.unneeded r hr hs
  · simp [setRegulator, hoff]
  · simpa [setRegulator, hr] using h.unneeded r hr hs
  · simp [setRegulator]

/-- The loop of `power_off` leaves on what no enabled radio of the list needs. -/
theorem supplied_foldl_dropSupply (l : List Subsystem) (r : PmicRegulator) (m : WmtManager) :
    (l.foldl dropSupply m).supplied r ↔
      m.supplied r ∧ ∀ s ∈ l, s.regulator = r → ¬ m.subsystemEnabled s := by
  induction l generalizing m with
  | nil => simp
  | cons s l ih =>
    have hsub : (m.dropSupply s).subsystemEnabled = m.subsystemEnabled := by
      unfold dropSupply
      split <;> rfl
    rw [List.foldl_cons, ih, hsub, List.forall_mem_cons, ← and_assoc]
    refine and_congr_left fun _ => ?_
    unfold dropSupply
    by_cases hs : m.subsystemEnabled s
    · by_cases hr : r = s.regulator
      · simp [hs, hr, setRegulator]
      · simp [hs, hr, setRegulator, Ne.symm hr]
    · simp [hs]

theorem FollowsUsers.powerOff (h : m.FollowsUsers) : m.powerOff.1.FollowsUsers := by
  unfold WmtManager.powerOff
  split_ifs
  · exact h
  refine ⟨by simp [subsystemEnabled], fun r hr _ => ?_, by simp [setRegulator],
    by simp [subsystemEnabled]⟩
  -- a regulator that is still on has an enabled user, and the loop came to it
  simp only [setRegulator, if_neg hr, supplied_foldl_dropSupply]
  exact fun ⟨hon, hall⟩ => h.unneeded r hr (fun s => hall s s.mem_all) hon

theorem FollowsUsers.enable (h : m.FollowsUsers) (s : Subsystem) :
    (m.enableSubsystem s).1.FollowsUsers := by
  unfold enableSubsystem
  split_ifs with hon
  · exact h
  · exact h
  refine ⟨fun t ht => ?_, fun r hr hall => ?_, ?_, fun hoff => absurd ?_ hon⟩
  · obtain rfl | ht := (mask_or _ _ _).1 ht
    · simp [setRegulator]
    · simp [setRegulator, h.needed t ht]
  · have hne : r ≠ s.regulator := fun heq => hall s heq.symm ((mask_or _ _ _).2 (.inl rfl))
    have hold := h.unneeded r hr fun t ht hen => hall t ht ((mask_or _ _ _).2 (.inr hen))
    simpa [setRegulator, hne] using hold
  · simpa [setRegulator, s.regulator_ne_core.symm] using h.core
  · exact fun heq => nomatch hoff.symm.trans heq

theorem FollowsUsers.disable (h : m.FollowsUsers) {s : Subsystem} (halone : m.Alone (.disable s)) :
    (m.disableSubsystem s).1.FollowsUsers := by
  unfold disableSubsystem
  split_ifs with hen
  · exact h
  have halone := halone (Bool.not_eq_false _ ▸ hen)
  refine ⟨fun t ht => ?_, fun r hr hall => ?_, ?_, fun hoff t ht => ?_⟩
  · obtain ⟨hts, ht⟩ := (mask_and_not _ _ _).1 ht
    have hne : t.regulator ≠ s.regulator := fun heq => halone t hts heq ht
    simpa [setRegulator, hne] using h.needed t ht
  · by_cases hs : r = s.regulator
    · simp [setRegulator, hs]
    have hold := h.unneeded r hr fun t ht hen =>
      hall t ht ((mask_and_not _ _ _).2 ⟨fun heq => hs (heq ▸ ht.symm), hen⟩)
    simpa [setRegulator, hs] using hold
  · simpa [setRegulator, s.regulator_ne_core.symm] using h.core
  · exact h.idle hoff t ((mask_and_not _ _ _).1 ht).2

/-- Supplies follow their users over every run of calls and all hardware, as
long as GPS and FM are not disabled under each other. -/
theorem supplies_follow_users (iters : Nat) (calls : List Call)
    (hcalls : Guarded call Alone (new iters) calls) :
    (calls.foldl call (new iters)).FollowsUsers := by
  refine (Runs.start.foldl hcalls).invariant (new_followsUsers iters) fun m c h hguard => ?_
  cases c with
  | powerOn hw => exact h.powerOn hw
  | powerOff => exact h.powerOff
  | enable s => exact h.enable s
  | disable s => exact h.disable hguard

def ready : Hardware
  | .pollChipId, _ => 0x0699
  | .disableAxiProtect, _ => 0
  | _, _ => 2

theorem supplies_follow_gps :
    ([.powerOn ready, .enable .gps, .disable .gps, .enable .fm].foldl call
      (new 1000)).FollowsUsers :=
  supplies_follow_users 1000 _ (by decide +kernel)

theorem fm_without_supply :
    let m := [Call.powerOn ready, .enable .gps, .enable .fm, .disable .gps].foldl call (new 1000)
    m.subsystemEnabled .fm ∧ ¬ m.supplied Subsystem.fm.regulator ∧ ¬ m.FollowsUsers := by
  intro m
  have hfm : m.subsystemEnabled .fm := by decide +kernel
  have hoff : ¬ m.supplied Subsystem.fm.regulator := by decide +kernel
  exact ⟨hfm, hoff, fun h => hoff (h.needed .fm hfm)⟩

end WmtManager

end Thumos.Kelyphos
