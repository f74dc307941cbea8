import Thumos.Kernel.FutexRuns

/-!
# The scheduler

In every state that the machine reaches, no process but the current one is
running, and each call of `schedule` has picked a ready process, or has stayed
with PID 0 because no other process was ready.

The round of `schedule` starts after the current slot.  A ready process that is
passed over comes closer to the start of the round with every pick, so that
fewer than `MAX_PROCS` picks pass it over.  The measure is `turns`, the distance
in the round.
-/

namespace Thumos

namespace Kernel

open GuardedRun List

variable {k k' : Kernel} {p : Pid} {P : Process}

/-! ## The round -/

/-- The place of slot `p` in the round that starts after slot `c`; the slot `c`
itself is last. -/
def turns (c p : Pid) : Nat := (p - c - 1).val + 1

theorem turns_pos (c p : Pid) : 0 < turns c p := Nat.succ_pos _

theorem turns_le (c p : Pid) : turns c p ≤ maxProcs := (p - c - 1).isLt

theorem turns_self (c : Pid) : turns c c = maxProcs := by
  revert c
  decide

theorem turns_add {c p q : Pid} (hne : p ≠ q) (hle : turns c q ≤ turns c p) :
    turns q p + turns c q = turns c p := by
  revert c p q
  decide +kernel

theorem round_sorted (c : Pid) :
    ((range' 1 (maxProcs - 1)).map fun offset => c + Fin.ofNat maxProcs offset).Pairwise
      fun a b => turns c a < turns c b := by
  revert c
  decide

theorem turns_nextReady_le (hp : p ≠ k.current) (hready : k.isReady p) :
    turns k.current k.nextReady ≤ turns k.current p := by
  have hmem := mem_round.mpr hp
  have hsorted := round_sorted k.current
  rw [nextReady]
  cases hfind : find? k.isReady _ with
  | none => exact absurd hready (find?_eq_none.mp hfind p hmem)
  | some q =>
    obtain ⟨-, before, after, heq, hbefore⟩ := find?_eq_some_iff_append.mp hfind
    rw [heq] at hmem hsorted
    rcases mem_append.mp hmem with hb | hmem
    · simpa [hready] using hbefore p hb
    rcases mem_cons.mp hmem with rfl | ha
    · exact le_rfl
    · have hafter := rel_of_pairwise_cons (pairwise_append.mp hsorted).2.1 ha
      exact hafter.le

/-! ## The picks -/

/-- The number of the last picks at which the process in slot `p` was ready and
another was picked. -/
def bypassed (picks : List Pick) (p : Pid) : Nat :=
  (picks.takeWhile fun pick => pick.ready p && pick.next ≠ p).length

/-- The pick was of a ready process, or no process other than PID 0 was ready
and PID 0 went on. -/
def Pick.Proper (pick : Pick) : Prop :=
  pick.next ≠ pick.caller ∧ pick.ready pick.next ∨
    pick.caller = 0 ∧ pick.next = 0 ∧ ∀ p, p ≠ 0 → pick.ready p = false

structure Fair (k : Kernel) : Prop where
  solo : ∀ p P, k.procs p = some P → P.state = .running → p = k.current
  picked : ∀ pick ∈ k.picks, Pick.Proper pick
  bypass : ∀ p, bypassed k.picks p + turns k.current p ≤ maxProcs

theorem Fair.put {Q : Process} (h : Fair k) (hprocs : k'.procs = k.procs.put p Q)
    (hcurrent : k'.current = k.current) (hpicks : k'.picks = k.picks)
    (hQ : Q.state = .running → p = k.current) : Fair k' where
  solo := by
    rw [hprocs, hcurrent]
    intro q R hR hrun
    rcases Slots.put_eq_some.mp hR with ⟨rfl, rfl⟩ | ⟨-, hR⟩
    · exact hQ hrun
    · exact h.solo q R hR hrun
  picked := by
    rw [hpicks]
    exact h.picked
  bypass := by
    rw [hpicks, hcurrent]
    exact h.bypass

theorem bypassed_cons (pick : Pick) (picks : List Pick) (p : Pid) :
    bypassed (pick :: picks) p =
      if pick.ready p ∧ pick.next ≠ p then bypassed picks p + 1 else 0 := by
  rw [bypassed, takeWhile_cons]
  by_cases h : pick.ready p ∧ pick.next ≠ p
  · simp [h, bypassed]
  · rw [if_neg h]
    simp only [Bool.and_eq_true, decide_eq_true_eq, if_neg h, length_nil]

theorem scheduled_picks :
    k.scheduled.picks = ⟨k.current, k.scheduled.nextReady, k.scheduled.isReady⟩ :: k.picks :=
  rfl

theorem Fair.bypass_scheduled (h : Fair k) (p : Pid) :
    bypassed k.scheduled.picks p + turns k.scheduled.nextReady p ≤ maxProcs := by
  have hold := h.bypass p
  rw [scheduled_picks, bypassed_cons]
  split
  · rename_i hpassed
    obtain ⟨hready, hne⟩ := hpassed
    by_cases hp : p = k.current
    · -- the current process starts at the end of the round
      subst hp
      rw [turns_self] at hold
      have hadd := turns_add (c := k.current) (Ne.symm hne)
        (by rw [turns_self]; exact turns_le _ _)
      have hpos := turns_pos k.current k.scheduled.nextReady
      rw [turns_self] at hadd
      dsimp only at hadd hpos ⊢
      omega
    · have hle : turns k.current k.scheduled.nextReady ≤ turns k.current p :=
        turns_nextReady_le (k := k.scheduled) hp hready
      have hadd := turns_add (Ne.symm hne) hle
      have hpos := turns_pos k.current k.scheduled.nextReady
      dsimp only at hadd hpos ⊢
      omega
  · have := turns_le k.scheduled.nextReady p
    omega

theorem scheduled_running {Q : Process} (h : k.scheduled.procs p = some Q)
    (hrun : Q.state = .running) : k.procs p = some Q := by
  obtain ⟨P, hP, rfl⟩ := scheduled_eq_some.mp h
  rcases woken_state P with heq | ⟨-, heq⟩
  · rw [hP, woken_of_ne (by rw [← heq, hrun]; simp)]
  · rw [heq] at hrun
    cases hrun

theorem reschedule_current (hP : k.procs k.current = some P) :
    k.reschedule.current = k.scheduled.nextReady := by
  rcases nextReady_cases k.scheduled with ⟨heq, -⟩ | ⟨hne, hready⟩
  · have hstay : k.reschedule = k.scheduled := if_neg (not_not.mpr heq)
    rw [hstay, heq]
  · obtain ⟨Q, hQ, -⟩ := isReady_iff.mp hready
    have hswitch : k.reschedule = k.scheduled.switchTo k.scheduled.nextReady := if_pos hne
    rw [hswitch, switchTo_eq hne.symm (scheduled_procs_current hP) hQ]

theorem reschedule_picks (hP : k.procs k.current = some P) :
    k.reschedule.picks = k.scheduled.picks := by
  rcases reschedule_cases hP with ⟨heq, -⟩ | ⟨next, Q, -, -, -, heq⟩
  · rw [heq]
  · rw [heq, switched]

theorem Parked.proper_pick (h : Parked k) :
    Pick.Proper ⟨k.current, k.scheduled.nextReady, k.scheduled.isReady⟩ := by
  rcases nextReady_cases k.scheduled with ⟨heq, hnone⟩ | ⟨hne, hready⟩
  · have hzero : k.current = 0 := by
      by_contra h0
      exact h.nextReady_ne h0 heq
    refine .inr ⟨hzero, heq.trans hzero, fun p hp => ?_⟩
    exact Bool.eq_false_iff.mpr (hnone p (by rwa [scheduled_current, hzero]))
  · exact .inl ⟨hne, hready⟩

theorem Fair.reschedule (h : Fair k) (hparked : Parked k) : Fair k.reschedule := by
  obtain ⟨P, hP⟩ := hparked.occupied
  refine ⟨?_, ?_, ?_⟩
  · intro p R hR hrun
    rcases reschedule_cases hP with ⟨heq, -⟩ | ⟨next, Q, hne, hQ, -, heq⟩
    · rw [heq] at hR ⊢
      exact h.solo p R (scheduled_running hR hrun) hrun
    rw [heq] at hR ⊢
    by_contra hp
    have hp : p ≠ next := hp
    by_cases hcur : p = k.scheduled.current
    · -- the process that was current is not running any more
      subst hcur
      rw [switched_out (k := k.scheduled) hne] at hR
      cases hR
      split at hrun
      · cases hrun
      · contradiction
    · rw [switched_other hp hcur] at hR
      exact hcur (h.solo p R (scheduled_running hR hrun) hrun)
  · rw [reschedule_picks hP, scheduled_picks]
    exact forall_mem_cons.mpr ⟨hparked.proper_pick, h.picked⟩
  · rw [reschedule_picks hP, reschedule_current hP]
    exact h.bypass_scheduled

/-! ## Runs -/

theorem Sound.fair_move {π : Policy} {L : Prop} (h : Sound L k) (hfair : Fair k)
    (hmove : Move π k k') : Fair k' := by
  cases hmove with
  | aside | mail => exact ⟨hfair.solo, hfair.picked, hfair.bypass⟩
  | @touch p P P' files hp hP hlive hsame =>
    refine hfair.put rfl rfl rfl fun hrun => hfair.solo p P hP ?_
    rw [← hsame.state, hrun]
  | reschedule => exact hfair.reschedule h.toParked
  | sleep wakeTick h0 =>
    obtain ⟨P, hP⟩ := h.occupied
    rw [h.sleepUntil_eq h0 hP]
    have hasleep : Fair (k.asleep P wakeTick) := hfair.put rfl rfl rfl fun _ => rfl
    exact hasleep.reschedule (h.asleep h0 hP wakeTick)
  | @block P i addr h0 hP hi =>
    refine Fair.reschedule ?_ (h.toParked.block h0 hP (h.current_ne_blocked hP) hi)
    exact hfair.put rfl rfl rfl fun _ => rfl
  | @terminate p P hp hP =>
    rw [terminate_eq hP]
    exact hfair.put rfl rfl rfl (by simp)
  | exit status h0 hdie =>
    obtain ⟨P, hP⟩ := h.occupied
    have hdead : Fair (k.exitCleanup status) := by
      rw [exitCleanup_eq hP]
      exact hfair.put rfl rfl rfl fun _ => rfl
    exact hdead.reschedule (h.toParked.exitCleanup h0 status)
  | fault kind h0 hdie =>
    obtain ⟨P, hP⟩ := h.occupied
    obtain ⟨hparked, hcurrent⟩ := h.notifyFault h0 kind
    have hdead : Fair ((k.notifyFault k.current kind).exitCleanup (faultExitStatus kind)) := by
      obtain ⟨supervisor, heq⟩ := notifyFault_eq hP kind
      rw [heq, exitCleanup_eq (Slots.put_self ..)]
      exact hfair.put (Slots.put_put ..) rfl rfl fun _ => rfl
    exact hdead.reschedule (hparked.exitCleanup (by rwa [hcurrent]) _)
  | spawn root hslot hP => exact hfair.put rfl rfl rfl (by simp)
  | fork root hslot hP => exact hfair.put rfl rfl rfl (by simp)
  | reap hP hparent hdead hreap =>
    refine ⟨fun q Q hQ => hfair.solo q Q (Slots.clear_eq_some.mp hQ).2, hfair.picked,
      hfair.bypass⟩
  | @wake i w hw =>
    obtain ⟨P, hP, -⟩ := h.waiting i w hw
    rw [setState_eq (k := { k with waiters := k.waiters.clear i }) hP]
    exact hfair.put rfl rfl rfl (by simp)

theorem fair_boot (tableBase : Nat) : Fair (boot tableBase) where
  solo := by
    intro p P hP _
    exact (boot_procs.mp hP).1
  picked := by
    intro pick hpick
    cases hpick
  bypass := by
    intro p
    have := turns_le 0 p
    simpa [boot, bypassed] using this

theorem fair_of_runs {tableBase : Nat} (h : Runs step (fun _ _ => True) (boot tableBase) k) :
    Sound True k ∧ Fair k := by
  refine h.invariant (I := fun k => Sound True k ∧ Fair k)
    ⟨sound_boot tableBase, fair_boot tableBase⟩ fun k e hk _ => ?_
  exact hk.1.moves_keep hk.2 (hk.1.step_moves (respects_unrestricted k e)) id
    fun _ _ => Sound.fair_move

/-- In every state that the machine reaches, at most the current process is
running; every pick of another slot was of a ready process, and only PID 0 went
on, when nobody else was ready; and a process that is ready at each of a row of
picks is passed over at most `MAX_PROCS - 1` times. -/
theorem scheduler_fair {tableBase : Nat} (h : Runs step (fun _ _ => True) (boot tableBase) k) :
    (∀ p P, k.procs p = some P → P.state = .running → p = k.current) ∧
      (∀ pick ∈ k.picks, pick.next ≠ pick.caller ∧ pick.ready pick.next ∨
        pick.caller = 0 ∧ pick.next = 0 ∧ ∀ p, p ≠ 0 → pick.ready p = false) ∧
      ∀ p, (k.picks.takeWhile fun pick => pick.ready p && pick.next ≠ p).length ≤
        maxProcs - 1 := by
  obtain ⟨-, hfair⟩ := fair_of_runs h
  refine ⟨hfair.solo, hfair.picked, fun p => ?_⟩
  have hbound := hfair.bypass p
  have hpos := turns_pos k.current p
  rw [bypassed] at hbound
  omega

def threeTurns : List KernelEvent :=
  [.service (.launch none (some 1)), .service (.launch none (some 2)),
    .service .enableScheduling, .irq true none, .irq true none, .irq true none]

theorem scheduler_fair_threeTurns :
    ∃ k : Kernel, k.picks.map Pick.next = [0, 2, 1] ∧
      (∀ p P, k.procs p = some P → P.state = .running → p = k.current) ∧
      ∀ p, (k.picks.takeWhile fun pick => pick.ready p && pick.next ≠ p).length ≤ 15 := by
  have hrun : Runs step (fun _ _ => True) (boot 0) (threeTurns.foldl step (boot 0)) :=
    Runs.start.foldl (.of_forall (fun _ _ => trivial) _ _)
  obtain ⟨hsolo, -, hbypass⟩ := scheduler_fair hrun
  exact ⟨_, by decide +kernel, hsolo, hbypass⟩

/-! ## Sleeping -/

abbrev tickNanos : Nat := 10000000

abbrev requested (secs nanos : UInt32) : Nat := secs.toNat * 1000000000 + nanos.toNat

theorem sleepUntil_spec {q : Pid} (wakeTick : UInt64) (hP : k.procs k.current = some P)
    (hq : q ≠ k.current) (hready : k.isReady q) :
    ∃ Q, (k.sleepUntil wakeTick).procs k.current = some Q ∧
      ∀ ticks, (woken ticks Q).state = .ready ↔ wakeTick ≤ k.ticks ∨ wakeTick ≤ ticks := by
  have hother : (k.asleep P wakeTick).scheduled.isReady q := by
    obtain ⟨Q, hQ, hstate⟩ := isReady_iff.mp hready
    refine isReady_iff.mpr ⟨Q, ?_, hstate⟩
    have hkept : (k.asleep P wakeTick).procs q = some Q := (Slots.put_of_ne hq).trans hQ
    rw [scheduled_procs, hkept, Option.map_some, woken_of_ne (by rw [hstate]; decide)]
  rcases reschedule_cases (k := k.asleep P wakeTick) (Slots.put_self ..) with
    ⟨-, hnone⟩ | ⟨next, R, hne, -, -, heq⟩
  · exact absurd hother (hnone q hq)
  · have hsleep : k.sleepUntil wakeTick = (k.asleep P wakeTick).reschedule := by
      refine sleepUntil_of_ne hP ?_
      rcases nextReady_cases (k.asleep P wakeTick).scheduled with ⟨-, hnone⟩ | ⟨hne, -⟩
      · exact absurd hother (hnone q hq)
      · exact hne
    rw [hsleep, heq]
    refine ⟨_, switched_out hne, fun ticks => ?_⟩
    by_cases hnow : wakeTick ≤ k.ticks
    · simp [woken, hnow, asleep]
    · by_cases hlater : wakeTick ≤ ticks <;> simp [woken, hnow, hlater, asleep]

theorem nanosleepTicks_toNat {secs nanos : UInt32} (hnanos : nanos.toNat < 1000000000) :
    (nanosleepTicks secs nanos).toNat = (requested secs nanos + tickNanos - 1) / tickNanos := by
  have hsecs := secs.toNat_lt
  simp only [nanosleepTicks, UInt64.toNat_ofNat', requested, tickNanos]
  split_ifs <;> omega

theorem saturatingAdd_toNat (a b : UInt64) :
    (saturatingAdd a b).toNat = min (a.toNat + b.toNat) (2 ^ 64 - 1) := by
  rw [saturatingAdd]
  split
  · rw [UInt64.toNat_add]
    omega
  · have := a.toNat_lt
    show 2 ^ 64 - 1 = _
    omega

/-- A sleep of `ns` nanoseconds can start at `t`: what `ns` lacks to a whole number of ticks
covers what has gone by of the current tick, and the counter reaches the end. -/
def SleepFits (t ns : Nat) : Prop :=
  ns = 0 ∨ t % tickNanos ≤ (tickNanos - ns % tickNanos) % tickNanos ∧
    t + ns ≤ (2 ^ 64 - 1) * tickNanos

/-- The kernel wakes the sleeper at the tick `wake`, or at once if that is not to come. -/
theorem sleepFits_iff {t ns wake : Nat} (ht : t / tickNanos < 2 ^ 64)
    (hwake : wake = min (t / tickNanos + (ns + tickNanos - 1) / tickNanos) (2 ^ 64 - 1)) :
    (∀ t', t ≤ t' → t' / tickNanos < 2 ^ 64 →
      wake ≤ t / tickNanos ∨ wake ≤ t' / tickNanos → t + ns ≤ t') ↔ SleepFits t ns := by
  simp only [SleepFits, tickNanos] at *
  constructor
  · intro h
    by_cases hnow : wake ≤ t / 10000000
    · have := h t le_rfl ht (.inl hnow)
      omega
    · have := h (wake * 10000000) (by omega) (by omega) (.inr (by omega))
      omega
  · intro h t' hle ht' hwoken
    omega

/-- The caller of `sys_nanosleep` is not woken before its time if and only if the rounding
of the request to ticks covers what has gone by of the tick of the call. -/
theorem nanosleep_sleeps {q : Pid} {secs nanos : UInt32} {t : Nat}
    (hP : k.procs k.current = some P) (hq : q ≠ k.current) (hready : k.isReady q)
    (hnanos : nanos.toNat < 1000000000) (ht : t / tickNanos = k.ticks.toNat) :
    (∃ Q, (k.sysNanosleep (some (secs, nanos))).2.procs k.current = some Q ∧
      ∀ (k' : Kernel) (t' : Nat), t ≤ t' → t' / tickNanos = k'.ticks.toNat →
        k'.procs k.current = some Q → k'.scheduled.isReady k.current →
        t + requested secs nanos ≤ t') ↔ SleepFits t (requested secs nanos) := by
  rw [sysNanosleep, if_neg (by omega)]
  generalize hwake : saturatingAdd k.ticks (nanosleepTicks secs nanos) = wakeTick
  have hwake : wakeTick.toNat =
      min (t / tickNanos + (requested secs nanos + tickNanos - 1) / tickNanos) (2 ^ 64 - 1) := by
    rw [← hwake, saturatingAdd_toNat, nanosleepTicks_toNat hnanos, ht]
  rw [← sleepFits_iff (ht ▸ k.ticks.toNat_lt) hwake]
  obtain ⟨Q, hQ, hwoken⟩ := sleepUntil_spec wakeTick hP hq hready
  have hawake : ∀ k' : Kernel, k'.procs k.current = some Q → (k'.scheduled.isReady k.current ↔
      wakeTick.toNat ≤ t / tickNanos ∨ wakeTick.toNat ≤ k'.ticks.toNat) := by
    intro k' hQ'
    rw [isReady_iff, scheduled_procs, hQ', Option.map_some]
    simp only [Option.some.injEq, exists_eq_left', hwoken, UInt64.le_iff_toNat_le, ht]
  constructor
  · rintro ⟨Q', hQ', h⟩ t' hle ht' htick
    obtain rfl := Option.some.inj (hQ'.symm.trans hQ)
    -- The state after the call, when the counter has reached the tick of `t'`.
    have hcount : (UInt64.ofNat (t' / tickNanos)).toNat = t' / tickNanos :=
      UInt64.toNat_ofNat_of_lt' ht'
    let k' : Kernel := { k.sleepUntil wakeTick with ticks := .ofNat (t' / tickNanos) }
    have hready' := (hawake k' hQ).mpr (by rwa [hcount])
    exact h k' t' hle hcount.symm hQ hready'
  · intro h
    refine ⟨Q, hQ, fun k' t' hle ht' hQ' hready' => ?_⟩
    exact h t' hle (ht' ▸ k'.ticks.toNat_lt) (ht' ▸ (hawake k' hQ').mp hready')

def firstTurn : Kernel := (threeTurns.take 4).foldl step (boot 0)

/-- One tick, asked for at a tick. -/
theorem nanosleep_sleeps_firstTurn :
    ∃ Q, (firstTurn.sysNanosleep (some (0, 10000000))).2.procs 1 = some Q ∧
      ∀ (k' : Kernel) (t' : Nat), 10000000 ≤ t' → t' / tickNanos = k'.ticks.toNat →
        k'.procs 1 = some Q →
        k'.scheduled.isReady 1 → 20000000 ≤ t' := by
  have h : ∃ P, firstTurn.procs firstTurn.current = some P := ⟨_, rfl⟩
  obtain ⟨P, hP⟩ := h
  exact nanosleep_sleeps (q := 0) hP (by decide +kernel) (by decide +kernel) (by decide)
    (by decide +kernel) |>.mpr (.inr (by decide +kernel))

/-- The same, asked for a nanosecond before the next tick: that tick wakes the caller. -/
theorem nanosleep_early :
    firstTurn.isReady 0 ∧ 19999999 / tickNanos = firstTurn.ticks.toNat ∧
      ∃ k', k' = { (firstTurn.sysNanosleep (some (0, 10000000))).2 with ticks := 2 } ∧
        20000000 / tickNanos = k'.ticks.toNat ∧ k'.scheduled.isReady firstTurn.current ∧
        20000000 < 19999999 + requested 0 10000000 := by
  refine ⟨by decide +kernel, by decide +kernel, _, rfl, ?_⟩
  decide +kernel

end Kernel

end Thumos
