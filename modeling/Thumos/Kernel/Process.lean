import Thumos.Kernel.Services

/-!
# Processes, signals and the scheduler

The model of the process table of `process.rs`, of the signal states of
`signal.rs`, of the futex waiters of `futex.rs` and of the system calls of
`syscall.rs` that act on them.

PID 0 is the kernel's service loop.  It starts processes, reaps its children
and restarts supervised services, and makes no system call.  A system call runs
with interrupts masked, so that a step of the machine is a whole call, a fault,
or an interrupt with the context switch at its end.

What the memory management answers (whether an address space could be built,
whether a copy from user memory succeeds) is an argument of the calls.  `birth`,
`creator` and `picks` are histories: the number of a process in the order of
creation, the number of the process that created it, and the calls of `schedule`
so far.
-/

namespace Thumos

/-! ## Signals -/

inductive Signal where
  | sigkill
  | sigusr1
  | sigusr2
  | sigpipe
  | sigterm
  | sigchld
deriving DecidableEq

inductive DefaultAction where
  | terminate
  | ignore
deriving DecidableEq

inductive SignalAction where
  | default
  | ignore
  | handler (addr : UInt32)
deriving DecidableEq

namespace Signal

def fromU32 (n : UInt32) : Option Signal :=
  if n = 9 then some .sigkill
  else if n = 10 then some .sigusr1
  else if n = 12 then some .sigusr2
  else if n = 13 then some .sigpipe
  else if n = 15 then some .sigterm
  else if n = 17 then some .sigchld
  else none

def defaultAction : Signal → DefaultAction
  | .sigchld => .ignore
  | _ => .terminate

def canCatch : Signal → Bool
  | .sigkill => false
  | _ => true

def ascending : List Signal := [.sigkill, .sigusr1, .sigusr2, .sigpipe, .sigterm, .sigchld]

end Signal

structure SignalState where
  handlers : Signal → SignalAction
  pending : Signal → Bool

namespace SignalState

def new : SignalState := ⟨fun _ => .default, fun _ => false⟩

def setAction (s : SignalState) (sig : Signal) (action : SignalAction) : SignalState :=
  { s with handlers := Function.update s.handlers sig action }

def setPending (s : SignalState) (sig : Signal) : SignalState :=
  { s with pending := Function.update s.pending sig true }

def clearPending (s : SignalState) (sig : Signal) : SignalState :=
  { s with pending := Function.update s.pending sig false }

def nextPending (s : SignalState) : Option Signal := Signal.ascending.find? s.pending

end SignalState

/-! ## The process table -/

inductive ProcState where
  | free
  | ready
  | running
  | blocked
  | sleeping
  | dead
deriving DecidableEq

def capAll : UInt32 := 0x7F

def capKill : UInt32 := 0x4

def capIpcInit : UInt32 := 0x40

/-- `Capabilities::FORK_DEFAULT`: all but `MODEM`, `AUDIT` and `IPC_INIT`. -/
def capForkDefault : UInt32 := 0x1E

/-- `Process`, without its memory, registers, user and working directory. -/
structure Process where
  state : ProcState
  parent : Option Pid
  exitStatus : Int
  pageTable : Nat
  signals : SignalState
  wakeTick : UInt64
  capabilities : UInt32
  fds : FdTable
  birth : Nat
  creator : Nat

abbrev maxFutexWaiters : Nat := 32

structure FutexWaiter where
  addr : UInt32
  addressSpace : Nat
  pid : Pid
deriving DecidableEq

/-- A call of `schedule`: the process that was current, the slot that was
picked, and the slots that held a ready process. -/
structure Pick where
  caller : Pid
  next : Pid
  ready : Pid → Bool

/-- The kernel: the statics of the modelled files, the number of processes
created so far, and the picks of the scheduler, the last one first. -/
structure Kernel where
  procs : Slots maxProcs Process
  current : Pid
  ticks : UInt64
  scheduling : Bool
  files : Files
  waiters : Slots maxFutexWaiters FutexWaiter
  inboxes : Pid → List Message
  supervisor : Supervisor.State
  births : Nat
  picks : List Pick

namespace Kernel

/-- PID 0 as `process::init` makes it, in the kernel's address space. -/
def kinit (tableBase : Nat) : Process :=
  ⟨.running, none, 0, tableBase, .new, 0, capAll, .empty, 0, 0⟩

/-- `process::init`: PID 0 alone. -/
def boot (tableBase : Nat) : Kernel where
  procs := Slots.empty.put 0 (kinit tableBase)
  current := 0
  ticks := 0
  scheduling := false
  files := .boot
  waiters := .empty
  inboxes := fun _ => []
  supervisor := .new
  births := 1
  picks := []

def modify (k : Kernel) (p : Pid) (f : Process → Process) : Kernel :=
  match k.procs p with
  | none => k
  | some P => { k with procs := k.procs.put p (f P) }

def setState (k : Kernel) (p : Pid) (state : ProcState) : Kernel :=
  k.modify p fun P => { P with state }

/-- The table of process `p` and the shared tables become those of `v`. -/
def setFds (k : Kernel) (p : Pid) (v : FdView) : Kernel :=
  { k.modify p (fun P => { P with fds := v.table }) with files := v.files }

def closeFds (k : Kernel) (p : Pid) : Kernel :=
  match k.procs p with
  | none => k
  | some P => k.setFds p (FdView.closeAll ⟨P.fds, k.files⟩)

def freeWaitersForPid (k : Kernel) (p : Pid) : Kernel :=
  { k with waiters := fun i => (k.waiters i).filter fun w => w.pid ≠ p }

def clearPid (k : Kernel) (p : Pid) : Kernel := { k with supervisor := k.supervisor.clearPid p }

/-! ## Scheduling -/

/-- The first loop of `schedule`: sleepers whose tick has come are ready. -/
def wakeSleepers (k : Kernel) : Kernel :=
  { k with procs := fun p => (k.procs p).map fun P =>
      if P.state = .sleeping ∧ P.wakeTick ≤ k.ticks then { P with state := .ready } else P }

def isReady (k : Kernel) (p : Pid) : Bool := (k.procs p).any fun P => P.state = .ready

/-- The second loop of `schedule`: round robin from the slot after the current
one, which is last. -/
def nextReady (k : Kernel) : Pid :=
  (((List.range' 1 (maxProcs - 1)).map fun offset => k.current + Fin.ofNat maxProcs offset).find?
    k.isReady).getD k.current

def schedule (k : Kernel) : Pid × Kernel :=
  let k := k.wakeSleepers
  (k.nextReady, { k with picks := ⟨k.current, k.nextReady, k.isReady⟩ :: k.picks })

def switchTo (k : Kernel) (next : Pid) : Kernel :=
  if k.current = next then k
  else
    let k := k.modify k.current fun P =>
      { P with state := if P.state = .running then .ready else P.state }
    match k.procs next with
    | none => k
    | some P => { k with procs := k.procs.put next { P with state := .running }, current := next }

/-- A call of `schedule`, and of `switch_to` if another process was picked. -/
def reschedule (k : Kernel) : Kernel :=
  let (next, k) := k.schedule
  if next ≠ k.current then k.switchTo next else k

def saturatingAdd (a b : UInt64) : UInt64 :=
  if a.toNat + b.toNat < 2 ^ 64 then a + b else 0 - 1

/-- The end of `Sleep` and of `sys_nanosleep`: the caller sleeps until
`wakeTick`, unless no other process is ready. -/
def sleepUntil (k : Kernel) (wakeTick : UInt64) : Kernel :=
  -- `set_wake_tick`
  let k := k.modify k.current fun P => { P with wakeTick, state := .sleeping }
  let (next, k) := k.schedule
  if next = k.current then
    -- `clear_wake_tick`
    k.modify k.current fun P => { P with wakeTick := 0, state := .running }
  else k.switchTo next

/-! ## Death and reaping -/

/-- `exit_cleanup`, without the memory of the process. -/
def exitCleanup (k : Kernel) (status : Int) : Kernel :=
  let cur := k.current
  let k := k.clearPid cur
  let k := k.modify cur fun P => { P with exitStatus := status, state := .dead }
  let k := k.closeFds cur
  let k := k.modify cur fun P => { P with pageTable := 0 }
  let k := k.freeWaitersForPid cur
  { k with inboxes := Function.update k.inboxes cur [] }

def exitCurrent (k : Kernel) (status : Int) : Kernel := (k.exitCleanup status).reschedule

inductive FaultKind where
  | dataAbort (addr status : UInt32)
  | prefetchAbort (addr status : UInt32)
  | undefinedInstruction

def notifyFault (k : Kernel) (p : Pid) (kind : FaultKind) : Kernel :=
  let (tag, addr, status) : UInt8 × UInt32 × UInt32 := match kind with
    | .dataAbort addr status => (1, addr, status)
    | .prefetchAbort addr status => (2, addr, status)
    | .undefinedInstruction => (3, 0, 0)
  let k := (k.setState p .dead).closeFds p
  { k with supervisor := k.supervisor.reportFault p tag addr status }

def faultExitStatus : FaultKind → Int
  | .undefinedInstruction => 132
  | _ => 139

def faultExitCurrent (k : Kernel) (kind : FaultKind) : Kernel :=
  (k.notifyFault k.current kind).exitCurrent (faultExitStatus kind)

/-- The death that `deliver_signal_to` brings. -/
def terminate (k : Kernel) (p : Pid) : Kernel :=
  (((k.setState p .dead).closeFds p).freeWaitersForPid p).clearPid p

def deliverSignalTo (k : Kernel) (p : Pid) (sig : Signal) : UInt32 × Kernel :=
  if p = 0 then (EPERM, k)
  else match k.procs p with
  | none => (ESRCH, k)
  | some P =>
    if P.state = .dead then (ESRCH, k)
    else if sig = .sigkill then (0, k.terminate p)
    else match P.signals.handlers sig with
    | .handler _ => (0, k.modify p fun P => { P with signals := P.signals.setPending sig })
    | .ignore => (0, k)
    | .default =>
      match sig.defaultAction with
      | .terminate => (0, k.terminate p)
      | .ignore => (0, k)

/-- The exit status of a dead child, whose slot becomes free. -/
def waitpid (k : Kernel) (p : Pid) : Option Int × Kernel :=
  match k.procs p with
  | none => (none, k)
  | some P =>
    if P.parent ≠ some k.current then (none, k)
    else if P.state ≠ .dead then (none, k)
    else (some P.exitStatus, { k with procs := k.procs.clear p })

def reapDeadChildren (k : Kernel) : Kernel :=
  (List.finRange maxProcs).foldl (fun k p => (k.waitpid p).2) k

/-! ## Creation -/

/-- `spawn_user`; `root` is the table of the new address space, if one could be
built for the image. -/
def spawnUser (k : Kernel) (root : Option Nat) : Option Pid × Kernel :=
  match k.procs.firstFree, root, k.procs k.current with
  | some slot, some root, some P =>
    (some slot, { k with
      procs := k.procs.put slot ⟨.ready, some k.current, 0, root, .new, 0, capForkDefault,
        .empty, k.births, P.birth⟩
      births := k.births + 1 })
  | _, _, _ => (none, k)

/-- `fork`; `root` is the table of the copied address space, if it could be
copied. -/
def fork (k : Kernel) (root : Option Nat) : Option Pid × Kernel :=
  match k.procs.firstFree, root, k.procs k.current with
  | some slot, some root, some P =>
    let v := FdView.forkTable P.fds k.files
    (some slot, { k with
      procs := k.procs.put slot ⟨.ready, some k.current, 0, root,
        { P.signals with pending := fun _ => false }, 0, P.capabilities &&& capForkDefault,
        v.table, k.births, P.birth⟩
      files := v.files
      births := k.births + 1 })
  | _, _, _ => (none, k)

/-! ## Futexes -/

/-- `sys_futex_wait`; `word` is the word at `addr`, if it can be read. -/
def sysFutexWait (k : Kernel) (addr val : UInt32) (word : Option UInt32) : UInt32 × Kernel :=
  match word with
  | none => (EFAULT, k)
  | some word =>
    if word ≠ val then (EAGAIN, k)
    else match k.waiters.firstFree, k.procs k.current with
    | some i, some P =>
      let k := { k with waiters := k.waiters.put i ⟨addr, P.pageTable, k.current⟩ }
      (0, (k.setState k.current .blocked).reschedule)
    | _, _ => (ENOMEM, k)

/-- The loop of `wake_waiters_for_address_space` over the remaining slots. -/
def wakeLoop (addr : UInt32) (maxWake addressSpace : Nat) :
    List (Fin maxFutexWaiters) → Nat → Kernel → Nat × Kernel
  | [], woken, k => (woken, k)
  | i :: rest, woken, k =>
    if woken ≥ maxWake then (woken, k)
    else match k.waiters i with
    | none => wakeLoop addr maxWake addressSpace rest woken k
    | some w =>
      if w.addr = addr ∧ w.addressSpace = addressSpace then
        let k := { k with waiters := k.waiters.clear i }
        wakeLoop addr maxWake addressSpace rest (woken + 1) (k.setState w.pid .ready)
      else wakeLoop addr maxWake addressSpace rest woken k

def wakeWaitersForAddressSpace (k : Kernel) (addr : UInt32) (maxWake : UInt32)
    (addressSpace : Nat) : Nat × Kernel :=
  wakeLoop addr maxWake.toNat addressSpace (List.finRange maxFutexWaiters) 0 k

def sysFutexWake (k : Kernel) (addr maxWake : UInt32) : UInt32 × Kernel :=
  if addr = 0 then (0, k)
  else
    let addressSpace := (k.procs k.current).elim 0 Process.pageTable
    let (woken, k) := k.wakeWaitersForAddressSpace addr maxWake addressSpace
    (UInt32.ofNat woken, k)

def sysFutex (k : Kernel) (addr op val : UInt32) (word : Option UInt32) : UInt32 × Kernel :=
  if op = 0 then k.sysFutexWait addr val word
  else if op = 1 then k.sysFutexWake addr val
  else (EINVAL, k)

end Kernel

end Thumos
