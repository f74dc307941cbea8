import Mathlib.Data.List.Induction
import Thumos.Security.Basic
import Thumos.Lib.GuardedRun

/-!
# The timer that reboots an idle device

`BfuTimer` counts the ticks since the last unlock and drops all keys when the
count reaches the threshold of the security mode.  A pause stops the count for
at most `MAX_PAUSE_TICKS` ticks, after which `tick` resumes it by itself.

Nothing limits how often a caller pauses.  The tick count of a run is the
elapsed count plus the ticks spent in pauses, and each call of `pause` can add
up to `MAX_PAUSE_TICKS` to the latter (`Timing`).
-/

namespace Thumos

open GuardedRun List

abbrev tickPeriodMs : Nat := 10

def maxPauseTicks : Nat := 5 * 60 * 1000 / tickPeriodMs

theorem maxPauseTicks_pos : 0 < maxPauseTicks := by decide

def thresholdForMode : SecurityMode → Nat
  | .daily => 4 * 60 * 60 * 1000 / tickPeriodMs
  | .sentinel => 30 * 60 * 1000 / tickPeriodMs
  | .panic => 0 / tickPeriodMs

theorem thresholdForMode_lt (mode : SecurityMode) : thresholdForMode mode < 2 ^ 63 := by
  cases mode <;> decide

inductive BfuAction where
  | none
  | reboot
  deriving DecidableEq, Repr

inductive BfuTimerState where
  | running
  | paused
  | expired
  deriving DecidableEq, Repr

structure BfuTimer where
  elapsedTicks : Nat
  thresholdTicks : Nat
  state : BfuTimerState
  mode : SecurityMode
  fired : Bool
  pausedTicks : Nat

namespace BfuTimer

def new (mode : SecurityMode) : BfuTimer where
  elapsedTicks := 0
  thresholdTicks := thresholdForMode mode
  state := .running
  mode := mode
  fired := false
  pausedTicks := 0

def expire (b : BfuTimer) (keys : KeyManager) : BfuAction × BfuTimer × KeyManager :=
  (.reboot, { b with state := .expired, fired := true }, keys.zeroizeAll.setSleepTier .long)

def tick (b : BfuTimer) (keys : KeyManager) : BfuAction × BfuTimer × KeyManager :=
  if b.fired then (.reboot, b, keys)
  else if b.state = .paused then
    let b := { b with pausedTicks := saturatingAdd b.pausedTicks 1 }
    -- a pause that lasts too long ends by itself
    if b.pausedTicks ≥ maxPauseTicks then
      (.none, { b with state := .running, pausedTicks := 0 }, keys)
    else (.none, b, keys)
  else if b.state ≠ .running then (.none, b, keys)
  else
    let b := { b with elapsedTicks := saturatingAdd b.elapsedTicks 1 }
    if b.elapsedTicks ≥ b.thresholdTicks then b.expire keys
    else (.none, b, keys)

def reset (b : BfuTimer) : BfuTimer :=
  { b with elapsedTicks := 0, state := .running, fired := false, pausedTicks := 0 }

def pause (b : BfuTimer) : BfuTimer :=
  if b.state = .running then { b with state := .paused, pausedTicks := 0 } else b

def resume (b : BfuTimer) : BfuTimer :=
  if b.state = .paused then { b with state := .running, pausedTicks := 0 } else b

def setMode (b : BfuTimer) (mode : SecurityMode) : BfuTimer :=
  { b with mode := mode, thresholdTicks := thresholdForMode mode }

end BfuTimer

/-! ## Runs without a reset -/

inductive BfuCall where
  | tick
  | pause
  | resume
  | setMode (mode : SecurityMode)
  deriving DecidableEq, Repr

structure GuardedKeys where
  timer : BfuTimer
  keys : KeyManager

namespace GuardedKeys

def answer (s : GuardedKeys) : BfuAction := (s.timer.tick s.keys).1

def step (s : GuardedKeys) : BfuCall → GuardedKeys
  | .tick => ⟨(s.timer.tick s.keys).2.1, (s.timer.tick s.keys).2.2⟩
  | .pause => { s with timer := s.timer.pause }
  | .resume => { s with timer := s.timer.resume }
  | .setMode mode => { s with timer := s.timer.setMode mode }

def unlocked (mode : SecurityMode) (keys : KeyManager) : GuardedKeys := ⟨.new mode, keys⟩

def after (mode : SecurityMode) (keys : KeyManager) (calls : List BfuCall) : GuardedKeys :=
  calls.foldl step (unlocked mode keys)

variable {s : GuardedKeys} {mode : SecurityMode} {keys : KeyManager} {calls : List BfuCall}

@[simp]
theorem after_append (later : List BfuCall) :
    after mode keys (calls ++ later) = later.foldl step (after mode keys calls) := by
  simp [after]

/-! ## What a tick does -/

inductive TickStep (s : GuardedKeys) : BfuAction → GuardedKeys → Prop
  | fired (h : s.timer.fired = true) : TickStep s .reboot s
  | waits (hfired : s.timer.fired = false) (h : s.timer.state = .paused)
      (hlt : s.timer.pausedTicks + 1 < maxPauseTicks) :
      TickStep s .none ⟨{ s.timer with pausedTicks := s.timer.pausedTicks + 1 }, s.keys⟩
  | resumes (hfired : s.timer.fired = false) (h : s.timer.state = .paused)
      (hle : maxPauseTicks ≤ s.timer.pausedTicks + 1) :
      TickStep s .none ⟨{ s.timer with state := .running, pausedTicks := 0 }, s.keys⟩
  | stuck (hfired : s.timer.fired = false) (h : s.timer.state = .expired) : TickStep s .none s
  | counts (hfired : s.timer.fired = false) (h : s.timer.state = .running)
      (hlt : s.timer.elapsedTicks + 1 < s.timer.thresholdTicks) :
      TickStep s .none ⟨{ s.timer with elapsedTicks := s.timer.elapsedTicks + 1 }, s.keys⟩
  | expires (hfired : s.timer.fired = false) (h : s.timer.state = .running)
      (hle : s.timer.thresholdTicks ≤ s.timer.elapsedTicks + 1) :
      TickStep s .reboot
        ⟨{ s.timer with
            elapsedTicks := s.timer.elapsedTicks + 1, state := .expired, fired := true },
          s.keys.zeroizeAll.setSleepTier .long⟩

theorem tick_spec (helapsed : s.timer.elapsedTicks < 2 ^ 63)
    (hpaused : s.timer.pausedTicks < 2 ^ 63) : TickStep s s.answer (s.step .tick) := by
  have helapsed' : saturatingAdd s.timer.elapsedTicks 1 = s.timer.elapsedTicks + 1 :=
    saturatingAdd_of_lt (by omega)
  have hpaused' : saturatingAdd s.timer.pausedTicks 1 = s.timer.pausedTicks + 1 :=
    saturatingAdd_of_lt (by omega)
  suffices h : ∀ r, s.timer.tick s.keys = r → TickStep s r.1 ⟨r.2.1, r.2.2⟩ from h _ rfl
  intro r hr
  unfold BfuTimer.tick at hr
  rw [helapsed', hpaused'] at hr
  dsimp only at hr
  split at hr
  next hfired =>
    subst hr
    exact .fired hfired
  next hfired =>
  have hfired := eq_false_of_ne_true hfired
  split at hr
  next hstate =>
    split at hr <;> subst hr
    next hle => exact .resumes hfired hstate hle
    next hlt => exact .waits hfired hstate (Nat.lt_of_not_le hlt)
  next hpaused =>
  split at hr
  next hrunning =>
    subst hr
    refine .stuck hfired ?_
    cases hstate : s.timer.state with
    | running => exact absurd hstate hrunning
    | paused => exact absurd hstate hpaused
    | expired => rfl
  next hrunning =>
    have hstate := Decidable.not_not.mp hrunning
    split at hr <;> subst hr
    next hle => exact .expires hfired hstate hle
    next hlt => exact .counts hfired hstate (Nat.lt_of_not_le hlt)

/-! ## Counting the ticks of a run -/

/-- A run of `ticks` ticks and `pauses` calls of `pause` has not expired yet:
each of its ticks was counted, or fell into one of the pauses. -/
structure Waiting (s : GuardedKeys) (ticks pauses : Nat) : Prop where
  fired : s.timer.fired = false
  running : s.timer.state = .running → ticks ≤ s.timer.elapsedTicks + pauses * maxPauseTicks
  paused : s.timer.state = .paused →
    ticks + maxPauseTicks ≤
      s.timer.elapsedTicks + s.timer.pausedTicks + pauses * maxPauseTicks
  alive : s.timer.state ≠ .expired
  elapsed : s.timer.elapsedTicks < 2 ^ 63
  short : s.timer.pausedTicks < maxPauseTicks

structure Expired (s : GuardedKeys) : Prop where
  fired : s.timer.fired = true
  state : s.timer.state = .expired
  keys : s.keys.Zeroized

structure Timing (s : GuardedKeys) (ticks pauses : Nat) : Prop where
  threshold : s.timer.thresholdTicks = thresholdForMode s.timer.mode
  phase : s.Expired ∨ s.Waiting ticks pauses

variable {ticks pauses : Nat}

theorem Expired.answer_eq (h : s.Expired) : s.answer = .reboot := by
  unfold answer BfuTimer.tick
  rw [if_pos h.fired]

theorem Expired.step (h : s.Expired) (c : BfuCall) : (s.step c).Expired := by
  cases c with
  | tick =>
    have hstep : s.step .tick = s := by
      unfold GuardedKeys.step BfuTimer.tick
      rw [if_pos h.fired]
    rwa [hstep]
  | pause =>
    have hstep : s.timer.pause = s.timer := by
      unfold BfuTimer.pause
      rw [h.state, if_neg (by decide)]
    refine ⟨?_, ?_, h.keys⟩
    · show s.timer.pause.fired = true
      rw [hstep, h.fired]
    · show s.timer.pause.state = .expired
      rw [hstep, h.state]
  | resume =>
    have hstep : s.timer.resume = s.timer := by
      unfold BfuTimer.resume
      rw [h.state, if_neg (by decide)]
    refine ⟨?_, ?_, h.keys⟩
    · show s.timer.resume.fired = true
      rw [hstep, h.fired]
    · show s.timer.resume.state = .expired
      rw [hstep, h.state]
  | setMode mode => exact ⟨h.fired, h.state, h.keys⟩

theorem Expired.foldl (h : s.Expired) (calls : List BfuCall) :
    (calls.foldl GuardedKeys.step s).Expired := by
  induction calls generalizing s with
  | nil => exact h
  | cons c calls ih => exact ih (h.step c)

/-! ### The calls one by one -/

section

variable (h : s.Timing ticks pauses)

include h

theorem Timing.tick : (s.step .tick).Timing (ticks + 1) pauses := by
  obtain hexpired | hwaiting := h.phase
  · have hstep : s.step .tick = s := by
      unfold GuardedKeys.step BfuTimer.tick
      rw [if_pos hexpired.fired]
    rw [hstep]
    exact ⟨h.threshold, .inl hexpired⟩
  · have hmode := thresholdForMode_lt s.timer.mode
    have hthreshold := h.threshold
    have helapsed := hwaiting.elapsed
    have hshort := hwaiting.short
    have hspec := tick_spec helapsed (Nat.lt_trans hshort (by decide))
    generalize s.step .tick = s' at hspec ⊢
    generalize s.answer = action at hspec
    cases hspec with
    | fired hfired => cases hfired.symm.trans hwaiting.fired
    | stuck _ hstate => exact absurd hstate hwaiting.alive
    | waits _ hstate hlt =>
      have hpaused := hwaiting.paused hstate
      refine ⟨hthreshold, .inr ⟨hwaiting.fired, fun hc => ?_, fun _ => ?_, hwaiting.alive,
        helapsed, hlt⟩⟩
      · cases hstate.symm.trans hc
      · dsimp only
        omega
    | resumes _ hstate hle =>
      have hpaused := hwaiting.paused hstate
      refine ⟨hthreshold, .inr ⟨hwaiting.fired, fun _ => ?_,
        nofun, nofun, helapsed, maxPauseTicks_pos⟩⟩
      dsimp only
      omega
    | counts _ hstate hlt =>
      have hrunning := hwaiting.running hstate
      refine ⟨hthreshold, .inr ⟨hwaiting.fired, fun _ => ?_, fun hc => ?_, hwaiting.alive,
        ?_, hshort⟩⟩
      · dsimp only
        omega
      · cases hstate.symm.trans hc
      · dsimp only
        omega
    | expires _ hstate hle =>
      exact ⟨hthreshold, .inl ⟨rfl, rfl, KeyManager.zeroized_setSleepTier_long _⟩⟩

theorem Timing.pause : (s.step .pause).Timing ticks (pauses + 1) := by
  obtain hexpired | hwaiting := h.phase
  · refine ⟨?_, .inl (hexpired.step .pause)⟩
    show s.timer.pause.thresholdTicks = thresholdForMode s.timer.pause.mode
    unfold BfuTimer.pause
    split <;> exact h.threshold
  · show Timing ⟨s.timer.pause, s.keys⟩ ticks (pauses + 1)
    unfold BfuTimer.pause
    split
    next hstate =>
      have hrunning := hwaiting.running hstate
      have hmul : (pauses + 1) * maxPauseTicks = pauses * maxPauseTicks + maxPauseTicks :=
        Nat.succ_mul _ _
      refine ⟨h.threshold, .inr ⟨hwaiting.fired, nofun, fun _ => ?_, nofun, hwaiting.elapsed,
        maxPauseTicks_pos⟩⟩
      dsimp only
      omega
    next hstate =>
      refine ⟨h.threshold, .inr ⟨hwaiting.fired, fun hc => absurd hc hstate, fun hc => ?_,
        hwaiting.alive, hwaiting.elapsed, hwaiting.short⟩⟩
      exact Nat.le_trans (hwaiting.paused hc)
        (Nat.add_le_add_left (Nat.mul_le_mul_right _ (Nat.le_succ pauses)) _)

theorem Timing.resume : (s.step .resume).Timing ticks pauses := by
  obtain hexpired | hwaiting := h.phase
  · refine ⟨?_, .inl (hexpired.step .resume)⟩
    show s.timer.resume.thresholdTicks = thresholdForMode s.timer.resume.mode
    unfold BfuTimer.resume
    split <;> exact h.threshold
  · show Timing ⟨s.timer.resume, s.keys⟩ ticks pauses
    unfold BfuTimer.resume
    split
    next hstate =>
      have hpaused := hwaiting.paused hstate
      have hshort := hwaiting.short
      refine ⟨h.threshold, .inr ⟨hwaiting.fired, fun _ => ?_, nofun, nofun, hwaiting.elapsed,
        maxPauseTicks_pos⟩⟩
      dsimp only
      omega
    next => exact ⟨h.threshold, .inr hwaiting⟩

theorem Timing.setMode (mode : SecurityMode) : (s.step (.setMode mode)).Timing ticks pauses := by
  refine ⟨rfl, ?_⟩
  obtain hexpired | hwaiting := h.phase
  · exact .inl (hexpired.step (.setMode mode))
  · exact .inr ⟨hwaiting.fired, hwaiting.running, hwaiting.paused, hwaiting.alive,
      hwaiting.elapsed, hwaiting.short⟩

theorem Timing.step (c : BfuCall) :
    (s.step c).Timing (ticks + [c].count .tick) (pauses + [c].count .pause) := by
  cases c with
  | tick => exact h.tick
  | pause => exact h.pause
  | resume => exact h.resume
  | setMode mode => exact h.setMode mode

end

theorem timing_after (mode : SecurityMode) (keys : KeyManager) (calls : List BfuCall) :
    (after mode keys calls).Timing (calls.count .tick) (calls.count .pause) := by
  induction calls using reverseRecOn with
  | nil =>
    refine ⟨rfl, .inr ⟨rfl, fun _ => Nat.zero_le _, nofun, nofun, Nat.two_pow_pos 63,
      maxPauseTicks_pos⟩⟩
  | append_singleton calls c ih =>
    rw [after_append, count_append, count_append]
    exact ih.step c

/-! ## Calls that cannot postpone the reboot -/

/-- No pause is in force when the threshold is reached already: `pause` is not
called then, and `set_mode` does not select such a threshold during a pause. -/
def Prompt (s : GuardedKeys) : BfuCall → Prop
  | .pause => s.timer.state = .running → s.timer.elapsedTicks < s.timer.thresholdTicks
  | .setMode mode => s.timer.state = .paused → s.timer.elapsedTicks < thresholdForMode mode
  | .tick => True
  | .resume => True

instance (s : GuardedKeys) (c : BfuCall) : Decidable (s.Prompt c) := by
  cases c <;> unfold Prompt <;> infer_instance

def Early (s : GuardedKeys) : Prop :=
  s.timer.state = .paused → s.timer.elapsedTicks < s.timer.thresholdTicks

theorem Early.step (hearly : s.Early) (htiming : s.Timing ticks pauses) {c : BfuCall}
    (hprompt : s.Prompt c) : (s.step c).Early := by
  obtain hexpired | hwaiting := htiming.phase
  · intro hc
    cases (hexpired.step c).state.symm.trans hc
  cases c with
  | tick =>
    have hspec := tick_spec hwaiting.elapsed (Nat.lt_trans hwaiting.short (by decide))
    generalize s.step .tick = s' at hspec ⊢
    generalize s.answer = action at hspec
    cases hspec with
    | fired => exact hearly
    | stuck => exact hearly
    | waits => exact hearly
    | resumes => exact nofun
    | counts _ hstate => exact fun hc => absurd (hstate.symm.trans hc) (by decide)
    | expires => exact nofun
  | pause =>
    show Early ⟨s.timer.pause, s.keys⟩
    unfold BfuTimer.pause
    split
    next hstate => exact fun _ => hprompt hstate
    next => exact hearly
  | resume =>
    show Early ⟨s.timer.resume, s.keys⟩
    unfold BfuTimer.resume
    split
    next => exact nofun
    next => exact hearly
  | setMode mode => exact hprompt

theorem early_after {calls : List BfuCall}
    (h : Guarded step Prompt (unlocked mode keys) calls) : (after mode keys calls).Early := by
  suffices hall : ∀ done, (after mode keys done).Early →
      Guarded step Prompt (after mode keys done) calls →
        (after mode keys (done ++ calls)).Early from
    hall [] nofun h
  clear h
  induction calls with
  | nil =>
    intro done hdone _
    rwa [append_nil]
  | cons c calls ih =>
    intro done hdone hguarded
    have hstep := hdone.step (timing_after mode keys done) hguarded.1
    have hrest := ih (done ++ [c])
    rw [after_append, append_assoc] at hrest
    exact hrest hstep hguarded.2

theorem Timing.reboots (h : s.Timing ticks pauses) (hstate : s.timer.state ≠ .paused)
    (hle : s.timer.thresholdTicks ≤ s.timer.elapsedTicks + 1) : s.answer = .reboot := by
  obtain hexpired | hwaiting := h.phase
  · exact hexpired.answer_eq
  · have hspec := tick_spec hwaiting.elapsed (Nat.lt_trans hwaiting.short (by decide))
    generalize s.step .tick = s' at hspec
    generalize s.answer = action at hspec ⊢
    cases hspec with
    | fired => rfl
    | expires => rfl
    | stuck _ hc => exact absurd hc hwaiting.alive
    | waits _ hc => exact absurd hc hstate
    | resumes _ hc => exact absurd hc hstate
    | counts _ _ hlt => omega

theorem Timing.expired_of_answer (h : s.Timing ticks pauses) (hanswer : s.answer = .reboot) :
    (s.step .tick).Expired := by
  obtain hexpired | hwaiting := h.phase
  · exact hexpired.step .tick
  · have hspec := tick_spec hwaiting.elapsed (Nat.lt_trans hwaiting.short (by decide))
    rw [hanswer] at hspec
    generalize s.step .tick = s' at hspec ⊢
    cases hspec with
    | fired hfired => cases hfired.symm.trans hwaiting.fired
    | expires => exact ⟨rfl, rfl, KeyManager.zeroized_setSleepTier_long _⟩

theorem foldl_quiet {calls : List BfuCall} (htick : .tick ∉ calls)
    (hmode : ∀ mode, .setMode mode ∉ calls) :
    (calls.foldl step s).timer.elapsedTicks = s.timer.elapsedTicks ∧
      (calls.foldl step s).timer.thresholdTicks = s.timer.thresholdTicks := by
  induction calls generalizing s with
  | nil => exact ⟨rfl, rfl⟩
  | cons c calls ih =>
    simp only [mem_cons, not_or] at htick hmode
    obtain ⟨helapsed, hthreshold⟩ :=
      @ih (s.step c) htick.2 fun mode => (hmode mode).2
    rw [foldl_cons, helapsed, hthreshold]
    cases c with
    | tick => exact absurd rfl htick.1
    | setMode mode => exact absurd rfl (hmode mode).1
    | pause =>
      show s.timer.pause.elapsedTicks = _ ∧ s.timer.pause.thresholdTicks = _
      unfold BfuTimer.pause
      split <;> exact ⟨rfl, rfl⟩
    | resume =>
      show s.timer.resume.elapsedTicks = _ ∧ s.timer.resume.thresholdTicks = _
      unfold BfuTimer.resume
      split <;> exact ⟨rfl, rfl⟩

/-- Let `before` be the calls since the last unlock, with at most one call of
`pause`, and no pause in force at a threshold that is reached already.  The tick
that comes next answers `Reboot` if it is the last one that the threshold of the
current mode and one pause allow, or if the mode was set to one whose threshold
was reached.  A tick that answers `Reboot` has dropped all keys, and every later
tick answers `Reboot` too. -/
theorem idle_lock_not_postponed (mode : SecurityMode) (keys : KeyManager)
    (before : List BfuCall) (hprompt : Guarded step Prompt (unlocked mode keys) before)
    (hpause : before.count .pause ≤ 1) :
    (thresholdForMode (after mode keys before).timer.mode + maxPauseTicks ≤
        (before ++ [BfuCall.tick]).count BfuCall.tick →
      (after mode keys before).answer = .reboot) ∧
    ((after mode keys before).answer = .reboot → ∀ later,
      (after mode keys (before ++ .tick :: later)).keys.Zeroized ∧
      (after mode keys (before ++ .tick :: later)).answer = .reboot) ∧
    (∀ pre selected between, before = pre ++ .setMode selected :: between →
      .tick ∉ between → (∀ other, .setMode other ∉ between) →
      thresholdForMode selected ≤ (after mode keys pre).timer.elapsedTicks →
      (after mode keys before).answer = .reboot) := by
  have htiming := timing_after mode keys before
  have hearly := early_after hprompt
  refine ⟨fun hticks => ?_, fun hanswer later => ?_, ?_⟩
  · rw [count_append] at hticks
    have hone : [BfuCall.tick].count BfuCall.tick = 1 := rfl
    rw [hone, ← htiming.threshold] at hticks
    obtain hexpired | hwaiting := htiming.phase
    · exact hexpired.answer_eq
    have hpauses : before.count .pause * maxPauseTicks ≤ maxPauseTicks := by
      have hmul := Nat.mul_le_mul_right maxPauseTicks hpause
      omega
    have hshort := hwaiting.short
    by_cases hstate : (after mode keys before).timer.state = .paused
    · -- the pause has not lasted long enough for so many ticks
      have hpaused := hwaiting.paused hstate
      have hbelow := hearly hstate
      omega
    · cases hcase : (after mode keys before).timer.state with
      | paused => exact absurd hcase hstate
      | expired => exact absurd hcase hwaiting.alive
      | running =>
        have hrunning := hwaiting.running hcase
        exact htiming.reboots hstate (by omega)
  · have hexpired := (htiming.expired_of_answer hanswer).foldl later
    rw [after_append]
    exact ⟨hexpired.keys, hexpired.answer_eq⟩
  · intro pre selected between heq htick hmode hle
    obtain ⟨helapsed, hthreshold⟩ :=
      @foldl_quiet ((after mode keys pre).step (.setMode selected)) between htick hmode
    have hbefore : after mode keys before =
        between.foldl step ((after mode keys pre).step (.setMode selected)) := by
      rw [heq, after_append, foldl_cons]
    rw [← hbefore] at helapsed hthreshold
    have hreached : (after mode keys before).timer.thresholdTicks ≤
        (after mode keys before).timer.elapsedTicks := by
      rw [helapsed, hthreshold]
      exact hle
    refine htiming.reboots (fun hc => ?_) (Nat.le_succ_of_le hreached)
    exact absurd (hearly hc) (Nat.not_lt.mpr hreached)

/-- In Panic mode the first tick after an unlock and a mode change reboots. -/
theorem idle_lock_not_postponed_panic :
    Guarded step Prompt (unlocked .daily .new) [.pause, .tick, .resume, .setMode .panic] ∧
    [BfuCall.pause, .tick, .resume, .setMode .panic].count .pause ≤ 1 ∧
    (after .daily .new [.pause, .tick, .resume, .setMode .panic]).answer = .reboot :=
  ⟨by decide, by decide,
    (idle_lock_not_postponed .daily .new [.pause, .tick, .resume, .setMode .panic] (by decide)
      (by decide)).2.2 [.pause, .tick, .resume] .panic [] rfl nofun nofun (by decide)⟩

/-- A caller that pauses again and again keeps the timer where it is. -/
theorem after_pausing (mode : SecurityMode) (keys : KeyManager) (n : Nat) :
    after mode keys (replicate n [.pause, .tick, .resume]).flatten = unlocked mode keys := by
  induction n with
  | zero => rfl
  | succ n ih =>
    have hcycle : [BfuCall.pause, .tick, .resume].foldl step (unlocked mode keys) =
        unlocked mode keys := rfl
    rw [replicate_succ, flatten_cons]
    unfold after at ih ⊢
    rw [foldl_append, hcycle, ih]

/-- With short pauses a run of any length does not reboot, here one of as many
ticks as the threshold and one pause allow.  And a mode with the threshold 0 that
is selected during a pause does not reboot at the next tick. -/
theorem idle_lock_postponed :
    (thresholdForMode .daily + maxPauseTicks ≤
        ((replicate 1470000 [BfuCall.pause, .tick, .resume]).flatten ++
          [BfuCall.tick]).count BfuCall.tick ∧
      (after .daily .new
        (replicate 1470000 [BfuCall.pause, .tick, .resume]).flatten).answer = .none) ∧
    (thresholdForMode .panic ≤ (after .daily .new [.pause]).timer.elapsedTicks ∧
      (after .daily .new [.pause, .setMode .panic]).answer = .none) := by
  refine ⟨⟨?_, ?_⟩, by decide, by decide⟩
  · have hcount : ∀ n, (replicate n [BfuCall.pause, .tick, .resume]).flatten.count
        BfuCall.tick = n := by
      intro n
      induction n with
      | zero => rfl
      | succ n ih =>
        rw [replicate_succ, flatten_cons, count_append, ih]
        exact Nat.add_comm 1 n
    rw [count_append, hcount]
    decide
  · rw [after_pausing]
    decide

end GuardedKeys

end Thumos
