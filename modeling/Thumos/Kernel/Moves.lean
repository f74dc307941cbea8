import Thumos.Kernel.Syscall

/-!
# What a step can do

Every event of the machine is a chain of a few moves on the process table: a
process edits its own entry, the scheduler switches, a process sleeps, blocks,
dies, is created, is reaped or is woken.  Invariants of the machine are proved
move by move.

A `Policy` restricts the moves: whether a process may be marked dead while it
goes on running, which deaths may happen, and whether signals kill and messages
move.  `step_moves` says which policies an event respects.
-/

namespace Thumos

open Slots List

structure Process.SameLife (Q P : Process) : Prop where
  state : Q.state = P.state
  parent : Q.parent = P.parent
  exitStatus : Q.exitStatus = P.exitStatus
  pageTable : Q.pageTable = P.pageTable
  wakeTick : Q.wakeTick = P.wakeTick
  birth : Q.birth = P.birth
  creator : Q.creator = P.creator
  capabilities : Q.capabilities = P.capabilities

namespace Kernel

variable {k k' : Kernel} {p : Pid} {P : Process}

/-! ## The operations on an occupied slot -/

theorem modify_eq (h : k.procs p = some P) (f : Process → Process) :
    k.modify p f = { k with procs := k.procs.put p (f P) } := by
  rw [modify, h]

theorem setState_eq (h : k.procs p = some P) (state : ProcState) :
    k.setState p state = { k with procs := k.procs.put p { P with state } } :=
  modify_eq h _

theorem setFds_eq (h : k.procs p = some P) (v : FdView) :
    k.setFds p v =
      { k with procs := k.procs.put p { P with fds := v.table }, files := v.files } := by
  rw [setFds, modify_eq h]

def closedFds (k : Kernel) (P : Process) : FdView := FdView.closeAll ⟨P.fds, k.files⟩

theorem closeFds_eq (h : k.procs p = some P) :
    k.closeFds p = { k with
      procs := k.procs.put p { P with fds := (k.closedFds P).table }
      files := (k.closedFds P).files } := by
  rw [closeFds, h]
  exact setFds_eq h _

theorem terminate_eq (h : k.procs p = some P) :
    k.terminate p = { k with
      procs := k.procs.put p { P with state := .dead, fds := (k.closedFds P).table }
      files := (k.closedFds P).files
      waiters := fun i => (k.waiters i).filter fun w => w.pid ≠ p
      supervisor := k.supervisor.clearPid p } := by
  rw [terminate, setState_eq h, closeFds_eq (put_self ..)]
  simp [freeWaitersForPid, clearPid, closedFds]

theorem exitCleanup_eq (h : k.procs k.current = some P) (status : Int) :
    k.exitCleanup status = { k with
      procs := k.procs.put k.current
        { P with
          exitStatus := status, state := .dead, fds := (k.closedFds P).table, pageTable := 0 }
      files := (k.closedFds P).files
      waiters := fun i => (k.waiters i).filter fun w => w.pid ≠ k.current
      supervisor := k.supervisor.clearPid k.current
      inboxes := Function.update k.inboxes k.current [] } := by
  have hclear : (k.clearPid k.current).procs k.current = some P := h
  simp only [exitCleanup]
  rw [modify_eq hclear, closeFds_eq (put_self ..), modify_eq (put_self ..)]
  simp [freeWaitersForPid, clearPid, closedFds]

theorem notifyFault_eq (h : k.procs p = some P) (kind : FaultKind) :
    ∃ supervisor, k.notifyFault p kind = { k with
      procs := k.procs.put p { P with state := .dead, fds := (k.closedFds P).table }
      files := (k.closedFds P).files
      supervisor } := by
  simp only [notifyFault]
  rw [setState_eq h, closeFds_eq (put_self ..)]
  simp only [put_put]
  exact ⟨_, rfl⟩

/-! ## The scheduler -/

/-- The kernel after a call of `schedule`, which wakes the sleepers. -/
def scheduled (k : Kernel) : Kernel := k.schedule.2

@[simp] theorem scheduled_current : k.scheduled.current = k.current := rfl

def woken (ticks : UInt64) (P : Process) : Process :=
  if P.state = .sleeping ∧ P.wakeTick ≤ ticks then { P with state := .ready } else P

theorem scheduled_procs : k.scheduled.procs p = (k.procs p).map (woken k.ticks) := rfl

theorem scheduled_procs_current (hP : k.procs k.current = some P) :
    k.scheduled.procs k.scheduled.current = some (woken k.ticks P) := by
  rw [scheduled_procs, scheduled_current, hP]
  rfl

theorem woken_of_ne {ticks : UInt64} (h : P.state ≠ .sleeping) : woken ticks P = P :=
  if_neg fun hs => h hs.1

theorem isReady_iff : k.isReady p ↔ ∃ P, k.procs p = some P ∧ P.state = .ready := by
  simp [isReady, Option.any_eq_true]

theorem mem_round {q : Pid} :
    p ∈ (range' 1 (maxProcs - 1)).map (fun offset => q + Fin.ofNat maxProcs offset) ↔
      p ≠ q := by
  revert p q
  decide

theorem nextReady_cases (k : Kernel) :
    k.nextReady = k.current ∧ (∀ p, p ≠ k.current → ¬k.isReady p) ∨
      k.nextReady ≠ k.current ∧ k.isReady k.nextReady := by
  rw [nextReady]
  cases hfind : find? k.isReady _ with
  | none =>
    refine .inl ⟨rfl, fun p hp => ?_⟩
    exact find?_eq_none.mp hfind p (mem_round.mpr hp)
  | some next =>
    exact .inr ⟨mem_round.mp (mem_of_find?_eq_some hfind), find?_some hfind⟩

variable {next : Pid} {Q : Process}

theorem switchTo_eq (hne : k.current ≠ next) (hcur : k.procs k.current = some P)
    (hnext : k.procs next = some Q) :
    k.switchTo next = { k with
      procs := (k.procs.put k.current
        { P with state := if P.state = .running then .ready else P.state }).put next
          { Q with state := .running }
      current := next } := by
  have hQ : (k.procs.put k.current
      { P with state := if P.state = .running then .ready else P.state }) next = some Q := by
    rw [put_of_ne hne.symm, hnext]
  simp only [switchTo, if_neg hne, modify_eq hcur]
  rw [hQ]

def switched (k : Kernel) (P : Process) (next : Pid) (Q : Process) : Kernel :=
  { k with
    procs := (k.procs.put k.current
      { P with state := if P.state = .running then .ready else P.state }).put next
        { Q with state := .running }
    current := next }

@[simp] theorem switched_next :
    (k.switched P next Q).procs next = some { Q with state := .running } :=
  put_self ..

theorem switched_out (hne : next ≠ k.current) : (k.switched P next Q).procs k.current =
      some { P with state := if P.state = .running then .ready else P.state } :=
  (put_of_ne hne.symm).trans (put_self ..)

theorem switched_other (hnext : p ≠ next) (hcur : p ≠ k.current) :
    (k.switched P next Q).procs p = k.procs p :=
  (put_of_ne hnext).trans (put_of_ne hcur)

theorem reschedule_cases (hP : k.procs k.current = some P) :
    k.reschedule = k.scheduled ∧ (∀ p, p ≠ k.current → ¬k.scheduled.isReady p) ∨
      ∃ next Q, next ≠ k.current ∧ k.scheduled.procs next = some Q ∧ Q.state = .ready ∧
        k.reschedule = k.scheduled.switched (woken k.ticks P) next Q := by
  rcases nextReady_cases k.scheduled with ⟨heq, hnone⟩ | ⟨hne, hready⟩
  · refine .inl ⟨?_, hnone⟩
    exact if_neg (not_not.mpr heq)
  right
  obtain ⟨Q, hQ, hstate⟩ := isReady_iff.mp hready
  refine ⟨_, Q, hne, hQ, hstate, ?_⟩
  exact (if_pos hne).trans (switchTo_eq hne.symm (scheduled_procs_current hP) hQ)

theorem reschedule_procs (hP : k.procs k.current = some P) (p : Pid) :
    ∃ s, k.reschedule.procs p = (k.procs p).map fun P => { P with state := s } := by
  have hwoken : ∀ q, ∃ s, k.scheduled.procs q = (k.procs q).map fun P => { P with state := s } := by
    intro q
    rw [scheduled_procs]
    cases k.procs q with
    | none => exact ⟨.free, rfl⟩
    | some Q =>
      refine ⟨(woken k.ticks Q).state, congrArg some ?_⟩
      rw [woken]
      split <;> rfl
  rcases reschedule_cases hP with ⟨heq, -⟩ | ⟨next, Q, hne, hQ, -, heq⟩
  · rw [heq]
    exact hwoken p
  rw [heq]
  by_cases hnext : p = next
  · subst hnext
    obtain ⟨s, hs⟩ := hwoken p
    rw [hQ] at hs
    cases hk : k.procs p with
    | none => simp [hk] at hs
    | some R =>
      rw [hk] at hs
      cases hs
      exact ⟨.running, put_self ..⟩
  · by_cases hcur : p = k.current
    · subst hcur
      refine ⟨if (woken k.ticks P).state = .running then .ready else (woken k.ticks P).state, ?_⟩
      obtain ⟨s, hs⟩ := hwoken k.current
      rw [scheduled_procs, hP] at hs
      have hs' : woken k.ticks P = { P with state := s } := Option.some.inj hs
      rw [switched, hP]
      simp only [put_of_ne hne.symm, scheduled_current, put_self, hs', Option.map_some]
    · obtain ⟨s, hs⟩ := hwoken p
      refine ⟨s, ?_⟩
      rw [switched]
      simp only [put_of_ne hnext, scheduled_current, put_of_ne hcur, hs]

/-! ## Who dies -/

def lethal (k : Kernel) (p : Pid) (sig : Signal) : Bool :=
  p ≠ 0 && (k.procs p).any fun P => P.state ≠ .dead &&
    (sig = .sigkill || P.signals.handlers sig = .default && sig.defaultAction = .terminate)

def signalled (k : Kernel) : KernelEvent → Option Pid
  | .call (.kill pid signum) =>
    match Signal.fromU32 signum, pidOf pid with
    | some sig, some p =>
      if k.current ≠ 0 ∧ (p = k.current ∨ k.hasCapability capKill) ∧ k.lethal p sig then some p
      else none
    | _, _ => none
  | .call (.fd c) =>
    if k.lethal k.current .sigpipe ∧ (k.procs k.current).any fun P => c.breaksPipe ⟨P.fds, k.files⟩
    then some k.current else none
  | _ => none

def leaving (k : Kernel) : KernelEvent → Option Pid
  | .call (.exit status) => if k.current ≠ 0 ∧ status.toNat < 2 ^ 31 then some k.current else none
  | .call (.execve .lost) => if k.current ≠ 0 then some k.current else none
  | .fault _ => if k.current ≠ 0 then some k.current else none
  | .irq timer (some _) =>
    let k := if timer then k.timerTick else k
    if k.checkPendingSignal.isSome then some k.current else none
  | _ => none

def reaps : KernelEvent → Pid → Prop
  | .call (.waitpid pid), p => pidOf pid = some p
  | .service .reap, _ => True
  | .service (.reapOne q), p => p = q
  | _, _ => False

def mails : KernelEvent → Prop
  | .call (.send ..) => True
  | .call .recv => True
  | _ => False

/-! ## Moves -/

/-- What is allowed: a death of the running process that does not end its
running, a death, the reaping of a slot, a death by a signal, a message that is
sent or received. -/
structure Policy where
  linger : Prop
  mayDie : Kernel → Pid → Prop
  reaps : Pid → Prop
  kills : Prop
  mails : Prop

inductive Move (π : Policy) : Kernel → Kernel → Prop where
  | aside {k : Kernel} (ticks scheduling supervisor) :
      Move π k { k with ticks, scheduling, supervisor }
  | mail {k : Kernel} (inboxes) (h : π.mails) : Move π k { k with inboxes }
  | touch {k : Kernel} {p : Pid} {P : Process} (P' : Process) (files : Files) (hp : p ≠ 0)
      (h : k.procs p = some P) (hlive : p = k.current ∨ P.state ≠ .dead) (hsame : P'.SameLife P) :
      Move π k { k with procs := k.procs.put p P', files }
  | reschedule {k : Kernel} : Move π k k.reschedule
  | sleep {k : Kernel} (wakeTick : UInt64) (h : k.current ≠ 0) : Move π k (k.sleepUntil wakeTick)
  | block {k : Kernel} {P : Process} {i : Fin maxFutexWaiters} (addr : UInt32) (h : k.current ≠ 0)
      (hP : k.procs k.current = some P) (hi : k.waiters i = none) :
      Move π k (Kernel.reschedule { k with
        waiters := k.waiters.put i ⟨addr, P.pageTable, k.current⟩
        procs := k.procs.put k.current { P with state := .blocked } })
  | terminate {k : Kernel} {p : Pid} {P : Process} (hp : p ≠ 0) (h : k.procs p = some P)
      (hlive : P.state ≠ .dead) (hself : p = k.current → π.linger) (hdie : π.mayDie k p)
      (hkill : π.kills) :
      Move π k (k.terminate p)
  | exit {k : Kernel} (status : Int) (h : k.current ≠ 0) (hdie : π.mayDie k k.current) :
      Move π k (k.exitCurrent status)
  | fault {k : Kernel} (kind : FaultKind) (h : k.current ≠ 0) (hdie : π.mayDie k k.current) :
      Move π k (k.faultExitCurrent kind)
  | spawn {k : Kernel} {P : Process} {slot : Pid} (root : Nat) (h : k.procs slot = none)
      (hP : k.procs k.current = some P) :
      Move π k { k with
        procs := k.procs.put slot ⟨.ready, some k.current, 0, root, .new, 0, capForkDefault,
          .empty, k.births, P.birth⟩
        births := k.births + 1 }
  | fork {k : Kernel} {P : Process} {slot : Pid} (root : Nat) (h : k.procs slot = none)
      (hP : k.procs k.current = some P) :
      Move π k { k with
        procs := k.procs.put slot ⟨.ready, some k.current, 0, root,
          { P.signals with pending := fun _ => false }, 0, P.capabilities &&& capForkDefault,
          (FdView.forkTable P.fds k.files).table, k.births, P.birth⟩
        files := (FdView.forkTable P.fds k.files).files
        births := k.births + 1 }
  | reap {k : Kernel} {p : Pid} {P : Process} (h : k.procs p = some P)
      (hparent : P.parent = some k.current) (hdead : P.state = .dead) (hreap : π.reaps p) :
      Move π k { k with procs := k.procs.clear p }
  | wake {k : Kernel} {i : Fin maxFutexWaiters} {w : FutexWaiter} (h : k.waiters i = some w) :
      Move π k (({ k with waiters := k.waiters.clear i } : Kernel).setState w.pid .ready)

abbrev Moves (π : Policy) : Kernel → Kernel → Prop := Relation.ReflTransGen (Move π)

/-! ## Every event is a chain of moves -/

def SameParents (k k' : Kernel) : Prop :=
  ∀ p, (k'.procs p).map Process.parent = (k.procs p).map Process.parent

theorem SameParents.refl (k : Kernel) : SameParents k k := fun _ => rfl

theorem SameParents.put (h : k.procs p = some P) (hk' : k'.procs = k.procs.put p Q)
    (hQ : Q.parent = P.parent) : SameParents k k' := by
  intro q
  rw [hk']
  by_cases hq : q = p
  · subst hq
    simp [h, hQ]
  · simp [put_of_ne hq]

structure Respects (π : Policy) (k : Kernel) (e : KernelEvent) : Prop where
  linger : k.signalled e = some k.current → π.linger
  mayDie : ∀ k' p, SameParents k k' → k.signalled e = some p ∨ k.leaving e = some p → π.mayDie k' p
  reaps : ∀ p, reaps e p → π.reaps p
  kills : k.signalled e ≠ none → π.kills
  mails : mails e → π.mails

variable {π : Policy}

theorem deliverSignalTo_moves {sig : Signal} (hself : k.lethal p sig → p = k.current → π.linger)
    (hdie : k.lethal p sig → π.mayDie k p ∧ π.kills) :
    Moves π k (k.deliverSignalTo p sig).2 := by
  rw [deliverSignalTo]
  split
  · exact .refl
  rename_i hp
  split
  · exact .refl
  rename_i P hP
  split
  · exact .refl
  rename_i hlive
  have hmove : k.lethal p sig → Moves π k (k.terminate p) := fun hl =>
    .single (.terminate hp hP hlive (hself hl) (hdie hl).1 (hdie hl).2)
  have hlethal : (sig = .sigkill ∨ P.signals.handlers sig = .default ∧
      sig.defaultAction = .terminate) → k.lethal p sig := by
    intro h
    simp [lethal, hp, hP, hlive, h]
  split
  · rename_i hkill
    exact hmove (hlethal (.inl hkill))
  split
  · rw [modify_eq hP]
    exact .single (.touch _ _ hp hP (.inr hlive) ⟨rfl, rfl, rfl, rfl, rfl, rfl, rfl, rfl⟩)
  · exact .refl
  · rename_i hdefault
    split
    · rename_i hterm
      exact hmove (hlethal (.inr ⟨hdefault, hterm⟩))
    · exact .refl

theorem wakeLoop_moves (addr : UInt32) (maxWake space : Nat) (l : List (Fin maxFutexWaiters))
    (n : Nat) (k : Kernel) : Moves π k (wakeLoop addr maxWake space l n k).2 := by
  induction l generalizing n k with
  | nil => exact .refl
  | cons i rest ih =>
    rw [wakeLoop]
    split
    · exact .refl
    split
    · exact ih n k
    rename_i w hw
    split
    · exact .head (.wake hw) (ih _ _)
    · exact ih n k

theorem waitpid_moves (k : Kernel) (p : Pid) (hreap : π.reaps p) : Moves π k (k.waitpid p).2 := by
  rw [waitpid]
  split
  · exact .refl
  rename_i P hP
  split
  · exact .refl
  rename_i hparent
  split
  · exact .refl
  · rename_i hdead
    exact .single (.reap hP (not_not.mp hparent) (not_not.mp hdead) hreap)

theorem spawnUser_moves (k : Kernel) (root : Option Nat) : Moves π k (k.spawnUser root).2 := by
  unfold spawnUser
  split
  · rename_i hslot hP
    exact .single (.spawn _ (free_of_firstFree hslot) hP)
  · exact .refl

theorem fork_moves (k : Kernel) (root : Option Nat) : Moves π k (k.fork root).2 := by
  unfold fork
  split
  · rename_i hslot hP
    exact .single (.fork _ (free_of_firstFree hslot) hP)
  · exact .refl

theorem execReset_eq (hP : k.procs k.current = some P) :
    k.execReset = { k with
      procs := k.procs.put k.current
        { P with fds := (FdView.closeCloexec ⟨P.fds, k.files⟩).table, signals := .new }
      files := (FdView.closeCloexec ⟨P.fds, k.files⟩).files } := by
  rw [execReset, hP]
  simp only [setFds_eq hP]
  rw [modify_eq (put_self ..)]
  simp

theorem sysKill_moves {pid signum : UInt32} (h0 : k.current ≠ 0)
    (hr : Respects π k (.call (.kill pid signum))) : Moves π k (k.sysKill pid signum).2 := by
  rw [sysKill]
  split
  · exact .refl
  · split <;> exact .refl
  · rename_i sig p hsig hpid
    split
    · exact .refl
    split
    · exact .refl
    rename_i hcap
    have hsignalled : k.lethal p sig → k.signalled (.call (.kill pid signum)) = some p := by
      intro hl
      rw [signalled, hsig, hpid]
      refine if_pos ⟨h0, ?_, hl⟩
      by_cases hp : p = k.current
      · exact .inl hp
      · exact .inr (by simpa [hp] using hcap)
    refine deliverSignalTo_moves (fun hl hp => ?_) fun hl => ⟨?_, ?_⟩
    · exact hr.linger (hp ▸ hsignalled hl)
    · exact hr.mayDie k p (.refl k) (.inl (hsignalled hl))
    · exact hr.kills (by simp [hsignalled hl])

theorem lethal_setFds (hP : k.procs p = some P) (v : FdView) (sig : Signal) :
    (k.setFds p v).lethal p sig = k.lethal p sig := by
  simp [lethal, setFds_eq hP, hP]

theorem SameParents.setFds (hP : k.procs p = some P) (v : FdView) :
    SameParents k (k.setFds p v) := by
  rw [setFds_eq hP]
  exact .put hP rfl rfl

theorem sysFd_moves {c : FdCall} (h0 : k.current ≠ 0) (hP : k.procs k.current = some P)
    (hr : Respects π k (.call (.fd c))) : Moves π k (k.sysFd c).2 := by
  rw [sysFd, hP]
  dsimp only
  have htouch : Move π k (k.setFds k.current (c.run k.current ⟨P.fds, k.files⟩).2) := by
    rw [setFds_eq hP]
    exact .touch _ _ h0 hP (.inl rfl) ⟨rfl, rfl, rfl, rfl, rfl, rfl, rfl, rfl⟩
  split
  · rename_i hbreaks
    have hsignalled : k.lethal k.current .sigpipe →
        k.signalled (.call (.fd c)) = some k.current := by
      intro hl
      rw [signalled, hP]
      exact if_pos ⟨hl, hbreaks⟩
    refine .head htouch (deliverSignalTo_moves (fun hl _ => ?_) fun hl => ?_)
    · rw [lethal_setFds hP] at hl
      exact hr.linger (hsignalled hl)
    · rw [lethal_setFds hP] at hl
      exact ⟨hr.mayDie _ _ (.setFds hP _) (.inl (hsignalled hl)),
        hr.kills (by simp [hsignalled hl])⟩
  · exact .single htouch

theorem sysExecve_moves {answer : ExecAnswer} (h0 : k.current ≠ 0) (hP : k.procs k.current = some P)
    (hr : Respects π k (.call (.execve answer))) : Moves π k (k.sysExecve answer).2 := by
  have htouch : Move π k k.execReset := by
    rw [execReset_eq hP]
    exact .touch _ _ h0 hP (.inl rfl) ⟨rfl, rfl, rfl, rfl, rfl, rfl, rfl, rfl⟩
  cases answer with
  | refused err => exact .refl
  | replaced => exact .single htouch
  | lost =>
    refine .head htouch (.single (.exit 137 ?_ ?_))
    · rw [execReset_eq hP]
      exact h0
    · rw [execReset_eq hP]
      exact hr.mayDie _ _ (.put hP rfl rfl) (.inr (if_pos h0))

theorem dispatch_moves {c : Syscall} (h0 : k.current ≠ 0) (hP : k.procs k.current = some P)
    (hr : Respects π k (.call c)) : Moves π k (k.dispatch c).2 := by
  cases c with
  | exit status =>
    rw [dispatch]
    split
    · rename_i hstatus
      exact .single (.exit _ h0 (hr.mayDie k _ (.refl k) (.inr (if_pos ⟨h0, hstatus⟩))))
    · exact .refl
  | yield => exact .single .reschedule
  | sleep ms => exact .single (.sleep _ h0)
  | nanosleep ts =>
    rw [dispatch]
    unfold sysNanosleep
    split
    · exact .refl
    · split
      · exact .refl
      · exact .single (.sleep _ h0)
  | fork root =>
    have hmoves := fork_moves (π := π) k root
    rw [dispatch]
    split <;> simp_all
  | waitpid pid =>
    rw [dispatch]
    split
    · exact .refl
    · rename_i p hp
      have hmoves := waitpid_moves (π := π) k p (hr.reaps p hp)
      split <;> simp_all
  | execve answer => exact sysExecve_moves h0 hP hr
  | kill pid signum => exact sysKill_moves h0 hr
  | sigaction signum handler =>
    rw [dispatch, sysSigaction]
    split
    · exact .refl
    split
    · exact .refl
    · simp only [modify_eq hP]
      exact .single (.touch _ _ h0 hP (.inl rfl) ⟨rfl, rfl, rfl, rfl, rfl, rfl, rfl, rfl⟩)
  | fd c => exact sysFd_moves h0 hP hr
  | futex addr op val word =>
    rw [dispatch, sysFutex]
    split
    · unfold sysFutexWait
      split
      · exact .refl
      split
      · exact .refl
      split
      · rename_i i P' hslot hP'
        simp only [setState_eq (k := { k with
          waiters := k.waiters.put i ⟨addr, P'.pageTable, k.current⟩ }) hP']
        exact .single (.block addr h0 hP' (free_of_firstFree hslot))
      · exact .refl
    · split
      · rw [sysFutexWake]
        split
        · exact .refl
        · exact wakeLoop_moves ..
      · exact .refl
  | send dest tag payload =>
    rw [dispatch]
    unfold sysSend
    split
    · exact .refl
    split
    · exact .refl
    split
    · exact .refl
    · exact .refl
    · split
      · exact .refl
      · exact .single (.mail _ (hr.mails trivial))
  | recv =>
    rw [dispatch]
    unfold sysRecv
    split
    · exact .refl
    · exact .single (.mail _ (hr.mails trivial))

theorem serviceTurn_moves {t : ServiceTurn} (hreap : ∀ p, reaps (.service t) p → π.reaps p)
    (k : Kernel) : Moves π k (k.serviceTurn t) := by
  cases t with
  | launch path root =>
    have hmoves := spawnUser_moves (π := π) k root
    simp only [serviceTurn]
    split
    · rename_i heq
      rw [heq] at hmoves
      exact hmoves.tail (.aside ..)
    · rename_i heq _
      rw [heq] at hmoves
      exact hmoves
  | supervise root =>
    simp only [serviceTurn]
    split
    · exact .single (.aside ..)
    rename_i report supervisor _
    refine .head (.aside k.ticks k.scheduling (supervisor.decide report k.ticks.toNat).2) ?_
    have hmoves := spawnUser_moves (π := π)
      { k with supervisor := (supervisor.decide report k.ticks.toNat).2 } root
    split
    · split
      · rename_i heq
        rw [heq] at hmoves
        exact hmoves.tail (.aside ..)
      · rename_i heq
        rw [heq] at hmoves
        exact hmoves
    · exact .refl
  | reap =>
    rw [serviceTurn, reapDeadChildren]
    generalize finRange maxProcs = l
    induction l generalizing k with
    | nil => exact .refl
    | cons p rest ih => exact (waitpid_moves k p (hreap p trivial)).trans (ih _)
  | reapOne p => exact waitpid_moves k p (hreap p rfl)
  | enableScheduling => exact .single (.aside ..)

theorem timerTick_moves (k : Kernel) : Moves π k k.timerTick := by
  refine .head (.aside (k.ticks + 1) k.scheduling k.supervisor) ?_
  unfold timerTick
  dsimp only
  split
  · exact .single .reschedule
  · exact .refl

theorem timerTick_procs (hP : k.procs k.current = some P) (p : Pid) :
    ∃ s : ProcState → ProcState, k.timerTick.procs p =
      (k.procs p).map fun P => { P with state := s P.state } := by
  unfold timerTick
  dsimp only
  split
  · obtain ⟨s, hs⟩ := reschedule_procs (k := { k with ticks := k.ticks + 1 }) hP p
    exact ⟨fun _ => s, hs⟩
  · exact ⟨id, by simp⟩

/-- Every event is a chain of moves that a policy it respects allows.  PID 0
has no pending signal, so that no interrupt makes it fault. -/
theorem step_moves {e : KernelEvent} (hP : k.procs k.current = some P)
    (hidle : ∀ P, k.procs 0 = some P → P.signals.nextPending = none) (hr : Respects π k e) :
    Moves π k (k.step e) := by
  cases e with
  | call c =>
    rw [step]
    split
    · exact .refl
    · rename_i h0
      exact dispatch_moves h0 hP hr
  | service t =>
    rw [step]
    split
    · exact serviceTurn_moves hr.reaps k
    · exact .refl
  | fault kind =>
    rw [step]
    split
    · exact .refl
    · rename_i h0
      exact .single (.fault kind h0 (hr.mayDie k _ (.refl k) (.inr (if_pos h0))))
  | irq timer frame =>
    have htick : Moves π k (if timer then k.timerTick else k) ∧
        ∀ p, ∃ s : ProcState → ProcState, (if timer then k.timerTick else k).procs p =
          (k.procs p).map fun P => { P with state := s P.state } := by
      cases timer
      · exact ⟨.refl, fun p => ⟨id, by simp⟩⟩
      · exact ⟨timerTick_moves k, timerTick_procs hP⟩
    obtain ⟨hmoves, hprocs⟩ := htick
    have hdie : ∀ p, k.leaving (.irq timer frame) = some p →
        π.mayDie (if timer then k.timerTick else k) p := by
      intro p hp
      refine hr.mayDie _ p (fun q => ?_) (.inr hp)
      obtain ⟨s, hs⟩ := hprocs q
      rw [hs, Option.map_map]
      rfl
    have hleaving : k.leaving (.irq timer frame) = if frame.isSome ∧
        (if timer then k.timerTick else k).checkPendingSignal.isSome then
        some (if timer then k.timerTick else k).current else none := by
      cases frame <;> simp [leaving]
    rw [step]
    rw [hleaving] at hdie
    generalize (if timer then k.timerTick else k) = k₁ at *
    -- a process with a pending signal is not PID 0
    have h0 : k₁.checkPendingSignal.isSome → k₁.current ≠ 0 := by
      intro hsome hzero
      obtain ⟨s, hs⟩ := hprocs 0
      rw [checkPendingSignal, hzero, hs] at hsome
      cases hk : k.procs 0 with
      | none => simp [hk] at hsome
      | some Q => simp [hk, hidle Q hk] at hsome
    refine hmoves.trans ?_
    unfold deliverPending
    split
    · exact .refl
    · rename_i sig hsig
      obtain ⟨Q, hQ, -⟩ := Option.bind_eq_some_iff.mp hsig
      rw [modify_eq hQ]
      exact .single (.touch _ _ (h0 (by simp [hsig])) hQ (.inl rfl)
        ⟨rfl, rfl, rfl, rfl, rfl, rfl, rfl, rfl⟩)
    · rename_i sig addr hsig
      exact .single (.fault _ (h0 (by simp [hsig])) (hdie _ (by simp [hsig])))

end Kernel

end Thumos
