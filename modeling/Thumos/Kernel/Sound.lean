import Thumos.Lib.GuardedRun
import Thumos.Kernel.Moves

/-!
# The process table and the waiters

Two invariants of the machine.  PID 0 is there, runs or is ready to run and is
nobody's child, so that the scheduler always finds a successor for a process
that gives up the processor.  And the futex waiters are exactly the blocked
processes, one slot for each.

`Parked` leaves open what the current process does: it is what holds between
the moment at which a process stops running and the switch to its successor.
-/

namespace Thumos

namespace Kernel

open GuardedRun Slots Option

variable {k k' : Kernel} {p : Pid} {P P' : Process} {L : Prop}

structure Parked (k : Kernel) : Prop where
  kinit : ∃ P, k.procs 0 = some P ∧ P.parent = none ∧ P.signals.nextPending = none ∧
    P.state = if k.current = 0 then .running else .ready
  occupied : ∃ P, k.procs k.current = some P
  parent : ∀ p P, k.procs p = some P → P.parent ≠ some p
  waiting : ∀ i w, k.waiters i = some w → ∃ P, k.procs w.pid = some P ∧ P.state = .blocked ∧
    w.addressSpace = P.pageTable
  waits : ∀ p P, k.procs p = some P → P.state = .blocked → ∃ i w, k.waiters i = some w ∧ w.pid = p
  once : ∀ i j w w', k.waiters i = some w → k.waiters j = some w' → w.pid = w'.pid → i = j

/-- The invariant.  The current process is running or, if `L` allows it, was
killed and goes on. -/
structure Sound (L : Prop) (k : Kernel) : Prop extends Parked k where
  running : ∀ P, k.procs k.current = some P → P.state = .running ∨ L ∧ P.state = .dead

theorem Sound.current_ne_blocked (h : Sound L k) (hP : k.procs k.current = some P) :
    P.state ≠ .blocked := by
  rcases h.running P hP with hs | ⟨-, hs⟩ <;> simp [hs]

/-! ## Edits of one entry -/

section

variable (h : Parked k) (hp : p ≠ 0) (hP : k.procs p = some P)
  (hprocs : k'.procs = k.procs.put p P') (hcurrent : k'.current = k.current)

include h hp hP hprocs hcurrent

theorem Parked.put_table (hparent : P'.parent = P.parent) :
    (∃ P, k'.procs 0 = some P ∧ P.parent = none ∧ P.signals.nextPending = none ∧
        P.state = if k'.current = 0 then .running else .ready) ∧
      (∃ P, k'.procs k'.current = some P) ∧ ∀ q Q, k'.procs q = some Q → Q.parent ≠ some q := by
  rw [hprocs, hcurrent]
  refine ⟨?_, ?_, fun q Q hQ => ?_⟩
  · rw [put_of_ne hp.symm]
    exact h.kinit
  · by_cases hc : k.current = p
    · exact ⟨P', by rw [hc, put_self]⟩
    · rw [put_of_ne hc]
      exact h.occupied
  · rcases put_eq_some.mp hQ with ⟨rfl, rfl⟩ | ⟨-, hQ⟩
    · rw [hparent]
      exact h.parent q P hP
    · exact h.parent q Q hQ

theorem Parked.put (hwaiters : k'.waiters = k.waiters) (hparent : P'.parent = P.parent)
    (hblocked : P'.state = .blocked ↔ P.state = .blocked)
    (hspace : P.state = .blocked → P'.pageTable = P.pageTable) : Parked k' where
  kinit := (h.put_table hp hP hprocs hcurrent hparent).1
  occupied := (h.put_table hp hP hprocs hcurrent hparent).2.1
  parent := (h.put_table hp hP hprocs hcurrent hparent).2.2
  waiting := by
    rw [hprocs, hwaiters]
    intro i w hw
    obtain ⟨Q, hQ, hstate, hw'⟩ := h.waiting i w hw
    by_cases hq : w.pid = p
    · subst hq
      rw [hP] at hQ
      cases hQ
      exact ⟨P', put_self .., hblocked.mpr hstate, by rw [hw', hspace hstate]⟩
    · exact ⟨Q, by rw [put_of_ne hq, hQ], hstate, hw'⟩
  waits := by
    rw [hprocs, hwaiters]
    intro q Q hQ hstate
    rcases put_eq_some.mp hQ with ⟨rfl, rfl⟩ | ⟨-, hQ⟩
    · exact h.waits q P hP (hblocked.mp hstate)
    · exact h.waits q Q hQ hstate
  once := by
    rw [hwaiters]
    exact h.once

theorem Parked.die (hwaiters : k'.waiters = fun i => (k.waiters i).filter fun w => w.pid ≠ p)
    (hparent : P'.parent = P.parent) (hdead : P'.state = .dead) : Parked k' where
  kinit := (h.put_table hp hP hprocs hcurrent hparent).1
  occupied := (h.put_table hp hP hprocs hcurrent hparent).2.1
  parent := (h.put_table hp hP hprocs hcurrent hparent).2.2
  waiting := by
    rw [hprocs, hwaiters]
    intro i w hw
    obtain ⟨hw, hne⟩ := filter_eq_some_iff.mp hw
    have hne : w.pid ≠ p := of_decide_eq_true hne
    rw [put_of_ne hne]
    exact h.waiting i w hw
  waits := by
    rw [hprocs, hwaiters]
    intro q Q hQ hstate
    rcases put_eq_some.mp hQ with ⟨rfl, rfl⟩ | ⟨hq, hQ⟩
    · rw [hdead] at hstate
      cases hstate
    · obtain ⟨i, w, hw, rfl⟩ := h.waits q Q hQ hstate
      exact ⟨i, w, filter_eq_some_iff.mpr ⟨hw, decide_eq_true hq⟩, rfl⟩
  once := by
    rw [hwaiters]
    intro i j w w' hw hw'
    exact h.once i j w w' (filter_eq_some_iff.mp hw).1 (filter_eq_some_iff.mp hw').1

end

/-! ## The scheduler -/

theorem woken_state {ticks : UInt64} (P : Process) :
    (woken ticks P).state = P.state ∨ P.state = .sleeping ∧ (woken ticks P).state = .ready := by
  rw [woken]
  split
  · rename_i h
    exact .inr ⟨h.1, rfl⟩
  · exact .inl rfl

theorem woken_fields (ticks : UInt64) (P : Process) :
    (woken ticks P).parent = P.parent ∧ (woken ticks P).pageTable = P.pageTable ∧
      (woken ticks P).signals = P.signals := by
  rw [woken]
  split <;> exact ⟨rfl, rfl, rfl⟩

theorem scheduled_eq_some {Q : Process} :
    k.scheduled.procs p = some Q ↔ ∃ P, k.procs p = some P ∧ woken k.ticks P = Q := by
  rw [scheduled_procs, map_eq_some_iff]

theorem Parked.scheduled (h : Parked k) : Parked k.scheduled where
  kinit := by
    obtain ⟨P, hP, hparent, hpending, hstate⟩ := h.kinit
    refine ⟨P, scheduled_eq_some.mpr ⟨P, hP, woken_of_ne ?_⟩, hparent, hpending, hstate⟩
    rw [hstate]
    split <;> simp
  occupied := by
    obtain ⟨P, hP⟩ := h.occupied
    exact ⟨_, scheduled_eq_some.mpr ⟨P, hP, rfl⟩⟩
  parent := by
    intro q Q hQ
    obtain ⟨P, hP, rfl⟩ := scheduled_eq_some.mp hQ
    rw [(woken_fields ..).1]
    exact h.parent q P hP
  waiting := by
    intro i w hw
    obtain ⟨P, hP, hstate, hspace⟩ := h.waiting i w hw
    exact ⟨P, scheduled_eq_some.mpr ⟨P, hP, woken_of_ne (by simp [hstate])⟩, hstate, hspace⟩
  waits := by
    intro q Q hQ hstate
    obtain ⟨P, hP, rfl⟩ := scheduled_eq_some.mp hQ
    rcases woken_state P with heq | ⟨-, heq⟩
    · exact h.waits q P hP (heq ▸ hstate)
    · rw [heq] at hstate
      cases hstate
  once := h.once

theorem switchedOut_blocked (P : Process) :
    (if P.state = .running then ProcState.ready else P.state) = .blocked ↔ P.state = .blocked := by
  split
  · rename_i h
    simp [h]
  · exact .rfl

theorem Parked.switched {next : Pid} {Q : Process} (h : Parked k) (hP : k.procs k.current = some P)
    (hne : next ≠ k.current) (hQ : k.procs next = some Q) (hready : Q.state = .ready) :
    Sound L (k.switched P next Q) where
  kinit := by
    obtain ⟨P₀, hP₀, hparent, hpending, hstate⟩ := h.kinit
    by_cases hn : next = 0
    · subst hn
      rw [hQ] at hP₀
      cases hP₀
      exact ⟨_, switched_next, hparent, hpending, by simp [Kernel.switched]⟩
    · by_cases hc : k.current = 0
      · rw [← hc, hP] at hP₀
        cases hP₀
        have hout := switched_out (P := P) (Q := Q) hne
        rw [hc] at hout
        refine ⟨_, hout, hparent, hpending, ?_⟩
        simp [Kernel.switched, hn, hstate, hc]
      · refine ⟨P₀, ?_, hparent, hpending, by simpa [Kernel.switched, hn, hc] using hstate⟩
        rw [switched_other (Ne.symm hn) (Ne.symm hc), hP₀]
  occupied := ⟨_, switched_next⟩
  parent := by
    intro q R hR
    rcases put_eq_some.mp hR with ⟨rfl, rfl⟩ | ⟨-, hR⟩
    · exact h.parent q Q hQ
    · rcases put_eq_some.mp hR with ⟨rfl, rfl⟩ | ⟨-, hR⟩
      · exact h.parent _ P hP
      · exact h.parent q R hR
  waiting := by
    intro i w hw
    obtain ⟨R, hR, hstate, hspace⟩ := h.waiting i w hw
    have hw_next : w.pid ≠ next := by
      rintro rfl
      rw [hQ] at hR
      cases hR
      rw [hready] at hstate
      cases hstate
    by_cases hc : w.pid = k.current
    · rw [hc, hP] at hR
      cases hR
      have hout := switched_out (P := P) (Q := Q) hne
      rw [← hc] at hout
      exact ⟨_, hout, (switchedOut_blocked P).mpr hstate, hspace⟩
    · exact ⟨R, by rw [switched_other hw_next hc, hR], hstate, hspace⟩
  waits := by
    intro q R hR hstate
    rcases put_eq_some.mp hR with ⟨rfl, rfl⟩ | ⟨-, hR⟩
    · cases hstate
    · rcases put_eq_some.mp hR with ⟨rfl, rfl⟩ | ⟨-, hR⟩
      · exact h.waits _ P hP ((switchedOut_blocked P).mp hstate)
      · exact h.waits q R hR hstate
  once := h.once
  running := by
    intro R hR
    rcases put_eq_some.mp hR with ⟨-, rfl⟩ | ⟨hne', -⟩
    · exact .inl rfl
    · exact absurd rfl hne'

theorem Parked.reschedule (h : Parked k) : Sound L k.reschedule := by
  obtain ⟨P, hP⟩ := h.occupied
  rcases reschedule_cases hP with ⟨heq, hnone⟩ | ⟨next, Q, hne, hQ, hready, heq⟩
  · -- without a successor the current process is PID 0, which is running
    obtain ⟨P₀, hP₀, -, -, hstate⟩ := h.scheduled.kinit
    have hc : k.current = 0 := by
      by_contra hc
      refine hnone 0 (Ne.symm hc) (isReady_iff.mpr ⟨P₀, hP₀, ?_⟩)
      simpa [hc] using hstate
    rw [heq]
    refine { h.scheduled with running := fun R hR => .inl ?_ }
    rw [scheduled_current, hc, hP₀] at hR
    cases hR
    simpa [hc] using hstate
  · rw [heq]
    exact h.scheduled.switched (scheduled_procs_current hP) hne hQ hready

theorem Parked.nextReady_ne (h : Parked k) (h0 : k.current ≠ 0) :
    k.scheduled.nextReady ≠ k.current := by
  obtain ⟨P₀, hP₀, -, -, hstate⟩ := h.scheduled.kinit
  rcases nextReady_cases k.scheduled with ⟨-, hnone⟩ | ⟨hne, -⟩
  · refine absurd (isReady_iff.mpr ⟨P₀, hP₀, ?_⟩) (hnone 0 (Ne.symm h0))
    simpa [h0] using hstate
  · exact hne

/-! ## The moves -/

theorem Parked.insert {slot : Pid} (h : Parked k) (hslot : k.procs slot = none)
    (hprocs : k'.procs = k.procs.put slot P) (hcurrent : k'.current = k.current)
    (hwaiters : k'.waiters = k.waiters) (hparent : P.parent = some k.current)
    (hready : P.state = .ready) : Parked k' := by
  have hne : ∀ q Q, k.procs q = some Q → q ≠ slot := by
    rintro q Q hQ rfl
    rw [hslot] at hQ
    cases hQ
  obtain ⟨P₀, hP₀, hkinit⟩ := h.kinit
  obtain ⟨C, hC⟩ := h.occupied
  constructor
  · rw [hprocs, hcurrent, put_of_ne (hne 0 P₀ hP₀)]
    exact ⟨P₀, hP₀, hkinit⟩
  · rw [hprocs, hcurrent, put_of_ne (hne _ C hC)]
    exact ⟨C, hC⟩
  · rw [hprocs]
    intro q Q hQ
    rcases put_eq_some.mp hQ with ⟨rfl, rfl⟩ | ⟨-, hQ⟩
    · rw [hparent]
      exact fun heq => hne _ C hC (some.inj heq)
    · exact h.parent q Q hQ
  · rw [hprocs, hwaiters]
    intro i w hw
    obtain ⟨Q, hQ, hstate⟩ := h.waiting i w hw
    exact ⟨Q, by rw [put_of_ne (hne _ Q hQ), hQ], hstate⟩
  · rw [hprocs, hwaiters]
    intro q Q hQ hstate
    rcases put_eq_some.mp hQ with ⟨rfl, rfl⟩ | ⟨-, hQ⟩
    · rw [hready] at hstate
      cases hstate
    · exact h.waits q Q hQ hstate
  · rw [hwaiters]
    exact h.once

theorem Parked.reap (h : Parked k) (hP : k.procs p = some P) (hparent : P.parent = some k.current)
    (hdead : P.state = .dead) : Parked { k with procs := k.procs.clear p } := by
  have h0 : (0 : Pid) ≠ p := by
    rintro rfl
    obtain ⟨P₀, hP₀, hnone, -⟩ := h.kinit
    rw [hP] at hP₀
    cases hP₀
    rw [hparent] at hnone
    cases hnone
  have hc : k.current ≠ p := by
    rintro rfl
    exact h.parent _ P hP hparent
  constructor
  · change ∃ P, k.procs.clear p 0 = some P ∧ _
    rw [clear_of_ne h0]
    exact h.kinit
  · change ∃ P, k.procs.clear p k.current = some P
    rw [clear_of_ne hc]
    exact h.occupied
  · intro q Q hQ
    exact h.parent q Q (clear_eq_some.mp hQ).2
  · intro i w hw
    obtain ⟨Q, hQ, hstate, hspace⟩ := h.waiting i w hw
    refine ⟨Q, clear_eq_some.mpr ⟨?_, hQ⟩, hstate, hspace⟩
    rintro rfl
    rw [hP] at hQ
    cases hQ
    rw [hdead] at hstate
    cases hstate
  · intro q Q hQ hstate
    exact h.waits q Q (clear_eq_some.mp hQ).2 hstate
  · exact h.once

theorem Parked.block {i : Fin maxFutexWaiters} {addr : UInt32} (h : Parked k) (h0 : k.current ≠ 0)
    (hP : k.procs k.current = some P) (hstate : P.state ≠ .blocked) (hi : k.waiters i = none) :
    Parked { k with
      waiters := k.waiters.put i ⟨addr, P.pageTable, k.current⟩
      procs := k.procs.put k.current { P with state := .blocked } } := by
  have hother : ∀ j w, k.waiters j = some w → w.pid ≠ k.current := by
    intro j w hw heq
    obtain ⟨Q, hQ, hblocked, -⟩ := h.waiting j w hw
    rw [heq, hP] at hQ
    cases hQ
    exact hstate hblocked
  let k₁ := { k with procs := k.procs.put k.current { P with state := .blocked } }
  obtain ⟨hkinit, hoccupied, hparent⟩ := h.put_table h0 hP (show k₁.procs = _ from rfl) rfl rfl
  refine ⟨hkinit, hoccupied, hparent, ?_, ?_, ?_⟩
  · intro j w hw
    rcases put_eq_some.mp hw with ⟨rfl, rfl⟩ | ⟨-, hw⟩
    · exact ⟨_, put_self .., rfl, rfl⟩
    · obtain ⟨Q, hQ, hrest⟩ := h.waiting j w hw
      exact ⟨Q, (put_of_ne (hother j w hw)).trans hQ, hrest⟩
  · intro q Q hQ hblocked
    rcases put_eq_some.mp hQ with ⟨rfl, rfl⟩ | ⟨-, hQ⟩
    · exact ⟨i, _, put_self .., rfl⟩
    obtain ⟨j, w, hw, hpid⟩ := h.waits q Q hQ hblocked
    refine ⟨j, w, (put_of_ne ?_).trans hw, hpid⟩
    rintro rfl
    rw [hi] at hw
    cases hw
  · intro j j' w w' hw hw' hpid
    rcases put_eq_some.mp hw with ⟨hj, rfl⟩ | ⟨-, hold⟩
    · rcases put_eq_some.mp hw' with ⟨hj', -⟩ | ⟨-, hold'⟩
      · rw [hj, hj']
      · exact absurd hpid.symm (hother j' w' hold')
    · rcases put_eq_some.mp hw' with ⟨-, rfl⟩ | ⟨-, hold'⟩
      · exact absurd hpid (hother j w hold)
      · exact h.once j j' w w' hold hold' hpid

theorem Parked.wake {i : Fin maxFutexWaiters} {w : FutexWaiter} (h : Parked k)
    (hw : k.waiters i = some w) (hP : k.procs w.pid = some P) (hp : w.pid ≠ 0) :
    Parked { k with
      waiters := k.waiters.clear i
      procs := k.procs.put w.pid { P with state := .ready } } := by
  let k₁ := { k with procs := k.procs.put w.pid { P with state := .ready } }
  obtain ⟨hkinit, hoccupied, hparent⟩ := h.put_table hp hP (show k₁.procs = _ from rfl) rfl rfl
  refine ⟨hkinit, hoccupied, hparent, ?_, ?_, ?_⟩
  · intro j w' hw'
    obtain ⟨hj, hw'⟩ := clear_eq_some.mp hw'
    obtain ⟨Q, hQ, hrest⟩ := h.waiting j w' hw'
    refine ⟨Q, (put_of_ne ?_).trans hQ, hrest⟩
    exact fun heq => hj (h.once j i w' w hw' hw heq)
  · intro q Q hQ hblocked
    rcases put_eq_some.mp hQ with ⟨rfl, rfl⟩ | ⟨hq, hQ⟩
    · cases hblocked
    obtain ⟨j, w', hw', rfl⟩ := h.waits q Q hQ hblocked
    refine ⟨j, w', clear_eq_some.mpr ⟨?_, hw'⟩, rfl⟩
    rintro rfl
    rw [hw] at hw'
    cases hw'
    exact hq rfl
  · intro j j' w₁ w₂ hw₁ hw₂
    exact h.once j j' w₁ w₂ (clear_eq_some.mp hw₁).2 (clear_eq_some.mp hw₂).2

theorem Parked.exitCleanup (h : Parked k) (h0 : k.current ≠ 0) (status : Int) :
    Parked (k.exitCleanup status) := by
  obtain ⟨P, hP⟩ := h.occupied
  rw [exitCleanup_eq hP]
  exact h.die h0 hP rfl rfl rfl rfl rfl

theorem Sound.notifyFault (h : Sound L k) (h0 : k.current ≠ 0) (kind : FaultKind) :
    Parked (k.notifyFault k.current kind) ∧ (k.notifyFault k.current kind).current = k.current := by
  obtain ⟨P, hP⟩ := h.occupied
  have hstate := h.current_ne_blocked hP
  obtain ⟨supervisor, heq⟩ := notifyFault_eq hP kind
  rw [heq]
  exact ⟨h.toParked.put h0 hP rfl rfl rfl rfl (by simp [hstate]) fun hb => absurd hb hstate, rfl⟩

def asleep (k : Kernel) (P : Process) (wakeTick : UInt64) : Kernel :=
  { k with procs := k.procs.put k.current { P with wakeTick, state := .sleeping } }

theorem sleepUntil_of_ne (hP : k.procs k.current = some P) {wakeTick : UInt64}
    (hne : (k.asleep P wakeTick).scheduled.nextReady ≠ (k.asleep P wakeTick).current) :
    k.sleepUntil wakeTick = (k.asleep P wakeTick).reschedule := by
  have hmodify : (k.modify k.current fun P => { P with wakeTick, state := .sleeping }) =
      k.asleep P wakeTick := modify_eq hP _
  simp only [Kernel.sleepUntil, hmodify]
  exact (if_neg hne).trans (if_pos hne).symm

section

variable (h : Sound L k) (h0 : k.current ≠ 0) (hP : k.procs k.current = some P) (wakeTick : UInt64)

include h h0 hP wakeTick

theorem Sound.asleep : Parked (k.asleep P wakeTick) := by
  have hstate := h.current_ne_blocked hP
  exact h.toParked.put h0 hP rfl rfl rfl rfl (by simp [hstate]) fun hb => absurd hb hstate

theorem Sound.sleepUntil_eq : k.sleepUntil wakeTick = (k.asleep P wakeTick).reschedule :=
  sleepUntil_of_ne hP ((h.asleep h0 hP wakeTick).nextReady_ne h0)

end

theorem Sound.move {π : Policy} (h : Sound L k) (hmove : Move π k k') (hlinger : π.linger → L) :
    Sound L k' := by
  cases hmove with
  | aside | mail => exact ⟨⟨h.kinit, h.occupied, h.parent, h.waiting, h.waits, h.once⟩, h.running⟩
  | @touch p P P' files hp hP hlive hsame =>
    refine ⟨h.toParked.put hp hP rfl rfl rfl hsame.parent (by rw [hsame.state])
      (fun _ => hsame.pageTable), fun Q hQ => ?_⟩
    rcases put_eq_some.mp hQ with ⟨hc, rfl⟩ | ⟨-, hQ⟩
    · rw [hsame.state]
      exact h.running P (hc ▸ hP)
    · exact h.running Q hQ
  | reschedule => exact h.toParked.reschedule
  | sleep wakeTick h0 =>
    obtain ⟨P, hP⟩ := h.occupied
    rw [h.sleepUntil_eq h0 hP]
    exact (h.asleep h0 hP wakeTick).reschedule
  | block addr h0 hP hi =>
    exact (h.toParked.block h0 hP (h.current_ne_blocked hP) hi).reschedule
  | @terminate p P hp hP hlive hself =>
    rw [terminate_eq hP]
    refine ⟨h.toParked.die hp hP rfl rfl rfl rfl rfl, fun Q hQ => ?_⟩
    rcases put_eq_some.mp hQ with ⟨hc, rfl⟩ | ⟨-, hQ⟩
    · exact .inr ⟨hlinger (hself hc.symm), rfl⟩
    · exact h.running Q hQ
  | exit status h0 hdie => exact (h.toParked.exitCleanup h0 status).reschedule
  | fault kind h0 hdie =>
    obtain ⟨hparked, hcurrent⟩ := h.notifyFault h0 kind
    exact (hparked.exitCleanup (by rwa [hcurrent]) _).reschedule
  | @spawn P slot root hslot hP | @fork P slot root hslot hP =>
    refine ⟨h.toParked.insert hslot rfl rfl rfl rfl rfl, fun Q hQ => ?_⟩
    rcases put_eq_some.mp hQ with ⟨hc, -⟩ | ⟨-, hQ⟩
    · rw [← hc, hP] at hslot
      cases hslot
    · exact h.running Q hQ
  | @reap p P hP hparent hdead =>
    exact ⟨h.toParked.reap hP hparent hdead,
      fun Q hQ => h.running Q (clear_eq_some.mp hQ).2⟩
  | @wake i w hw =>
    obtain ⟨P, hP, hblocked, -⟩ := h.waiting i w hw
    have hp : w.pid ≠ 0 := by
      intro hzero
      obtain ⟨P₀, hP₀, -, -, hstate⟩ := h.kinit
      rw [← hzero, hP] at hP₀
      cases hP₀
      rw [hblocked] at hstate
      split at hstate <;> cases hstate
    rw [setState_eq (k := { k with waiters := k.waiters.clear i }) hP]
    refine ⟨h.toParked.wake hw hP hp, fun Q hQ => ?_⟩
    rcases put_eq_some.mp hQ with ⟨hc, -⟩ | ⟨-, hQ⟩
    · rw [← hc] at hP
      exact absurd hblocked (h.current_ne_blocked hP)
    · exact h.running Q hQ

theorem Sound.moves_keep {π : Policy} {I : Kernel → Prop} (h : Sound L k) (hI : I k)
    (hmoves : Moves π k k') (hlinger : π.linger → L)
    (hmove : ∀ k k', Sound L k → I k → Move π k k' → I k') : Sound L k' ∧ I k' := by
  induction hmoves with
  | refl => exact ⟨h, hI⟩
  | tail _ hm ih => exact ⟨ih.1.move hm hlinger, hmove _ _ ih.1 ih.2 hm⟩

theorem Sound.moves {π : Policy} (h : Sound L k) (hmoves : Moves π k k') (hlinger : π.linger → L) :
    Sound L k' :=
  (h.moves_keep (I := fun _ => True) trivial hmoves hlinger fun _ _ _ _ _ => trivial).1

/-! ## Runs -/

theorem boot_procs {tableBase : Nat} :
    (boot tableBase).procs p = some P ↔ p = 0 ∧ kinit tableBase = P := by
  simp [boot, put_eq_some]

theorem sound_boot (tableBase : Nat) : Sound L (boot tableBase) where
  kinit := ⟨_, boot_procs.mpr ⟨rfl, rfl⟩, rfl, rfl, rfl⟩
  occupied := ⟨_, boot_procs.mpr ⟨rfl, rfl⟩⟩
  parent := by
    intro q Q hQ
    obtain ⟨-, rfl⟩ := boot_procs.mp hQ
    simp [Kernel.kinit]
  waiting := by
    intro i w hw
    cases hw
  waits := by
    intro q Q hQ hblocked
    obtain ⟨-, rfl⟩ := boot_procs.mp hQ
    cases hblocked
  once := by
    intro i j w w' hw
    cases hw
  running := by
    intro Q hQ
    obtain ⟨-, rfl⟩ := boot_procs.mp hQ
    exact .inl rfl

theorem Sound.step_moves {π : Policy} {e : KernelEvent} (h : Sound L k) (hr : Respects π k e) :
    Moves π k (k.step e) := by
  obtain ⟨P, hP⟩ := h.occupied
  refine Kernel.step_moves hP (fun Q hQ => ?_) hr
  obtain ⟨P₀, hP₀, -, hpending, -⟩ := h.kinit
  rw [hQ] at hP₀
  cases hP₀
  exact hpending

end Kernel

end Thumos
