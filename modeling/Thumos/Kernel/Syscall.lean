import Thumos.Kernel.Process

/-!
# The machine

System calls of the current process, faults, interrupts and the turns of PID
0's service loop, as the events of one machine.
-/

namespace Thumos

/-- What happens to an image that `sys_execve` was asked for: it is refused and
the caller goes on, it replaces the caller's, or the caller's is gone and the
new one could not be mapped. -/
inductive ExecAnswer where
  | refused (err : UInt32)
  | replaced
  | lost

inductive Syscall where
  | exit (status : UInt32)
  | yield
  | sleep (ms : UInt32)
  | nanosleep (ts : Option (UInt32 × UInt32))
  | fork (root : Option Nat)
  | waitpid (pid : UInt32)
  | execve (answer : ExecAnswer)
  | kill (pid signum : UInt32)
  | sigaction (signum handler : UInt32)
  | fd (c : FdCall)
  | futex (addr op val : UInt32) (word : Option UInt32)
  | send (dest tag : UInt32) (payload : Option (List UInt8))
  | recv

/-- What PID 0 does in its service loop: it starts a process, supervised under
a path or not, handles one fault report, reaps, or lets the scheduler run.
`reapOne` is one turn of the loop of `reap_dead_children`, which interrupts can
separate from the next. -/
inductive ServiceTurn where
  | launch (path : Option String) (root : Option Nat)
  | supervise (root : Option Nat)
  | reap
  | reapOne (p : Pid)
  | enableScheduling

/-- A step of the machine.  `frame` is the address at which a signal frame
could not be written, if that happens. -/
inductive KernelEvent where
  | call (c : Syscall)
  | service (t : ServiceTurn)
  | fault (kind : Kernel.FaultKind)
  | irq (timer : Bool) (frame : Option UInt32)

namespace Kernel

/-! ## System calls -/

def pidOf (n : UInt32) : Option Pid := if h : n.toNat < maxProcs then some ⟨n.toNat, h⟩ else none

def currentCapabilities (k : Kernel) : UInt32 :=
  (k.procs k.current).elim capForkDefault Process.capabilities

/-- `capability::check` -/
def hasCapability (k : Kernel) (cap : UInt32) : Bool := k.currentCapabilities &&& cap == cap

def sysKill (k : Kernel) (pid signum : UInt32) : UInt32 × Kernel :=
  match Signal.fromU32 signum, pidOf pid with
  | none, _ => (EINVAL, k)
  | some _, none =>
    -- a byte that is no process number is rejected after the capability check
    if pid.toNat < 256 ∧ !k.hasCapability capKill then (EPERM, k) else (ESRCH, k)
  | some sig, some p =>
    if p = 0 then (EPERM, k)
    else if p ≠ k.current ∧ !k.hasCapability capKill then (EPERM, k)
    else k.deliverSignalTo p sig

def sysSigaction (k : Kernel) (signum handler : UInt32) : UInt32 × Kernel :=
  match Signal.fromU32 signum with
  | none => (EINVAL, k)
  | some sig =>
    if !sig.canCatch ∧ handler ≠ 0 then (EPERM, k)
    else
      let action := if handler = 0 then .default else if handler = 1 then .ignore
        else .handler handler
      (0, k.modify k.current fun P => { P with signals := P.signals.setAction sig action })

/-- A descriptor call of the current process, with the signal that a write to a
pipe without a reader raises. -/
def sysFd (k : Kernel) (c : FdCall) : UInt32 × Kernel :=
  match k.procs k.current with
  | none => (EBADF, k)
  | some P =>
    let v : FdView := ⟨P.fds, k.files⟩
    let (res, v') := c.run k.current v
    let k' := k.setFds k.current v'
    if c.breaksPipe v then (res, (k'.deliverSignalTo k.current .sigpipe).2) else (res, k')

/-- The part of `sys_execve` after its last failure return: descriptors that
are marked close-on-exec and the signal state go. -/
def execReset (k : Kernel) : Kernel :=
  match k.procs k.current with
  | none => k
  | some P =>
    (k.setFds k.current (FdView.closeCloexec ⟨P.fds, k.files⟩)).modify k.current fun P =>
      { P with signals := .new }

def sysExecve (k : Kernel) : ExecAnswer → UInt32 × Kernel
  | .refused err => (err, k)
  | .replaced => (0, k.execReset)
  | .lost => (0, k.execReset.exitCurrent 137)

def sleepTicks (ms : UInt32) : UInt64 := UInt64.ofNat ((ms.toNat + 9) / 10)

def nanosleepTicks (secs nanos : UInt32) : UInt64 :=
  let totalMs := secs.toNat * 1000 + nanos.toNat / 1000000
  UInt64.ofNat (totalMs / 10 + if nanos.toNat % 10000000 > 0 ∨ totalMs % 10 ≠ 0 then 1 else 0)

def sysNanosleep (k : Kernel) : Option (UInt32 × UInt32) → UInt32 × Kernel
  | none => (EFAULT, k)
  | some (secs, nanos) =>
    if nanos.toNat ≥ 1000000000 then (EINVAL, k)
    else (0, k.sleepUntil (saturatingAdd k.ticks (nanosleepTicks secs nanos)))

/-- `Send`: `payload` are the bytes that could be copied from the user. -/
def sysSend (k : Kernel) (dest tag : UInt32) (payload : Option (List UInt8)) : UInt32 × Kernel :=
  if dest.toNat ≥ 256 then (EINVAL, k)
  else if dest = 0 ∧ !k.hasCapability capIpcInit then (EPERM, k)
  else match payload, pidOf dest with
  | none, _ => (EFAULT, k)
  | some _, none => (ESRCH, k)
  | some bytes, some p =>
    match pushInbox (k.inboxes p) ⟨k.current, tag, bytes.take msgMaxSize⟩ with
    | none => (EAGAIN, k)
    | some inbox => (0, { k with inboxes := Function.update k.inboxes p inbox })

def sysRecv (k : Kernel) : UInt32 × Kernel :=
  match k.inboxes k.current with
  | [] => (EAGAIN, k)
  | msg :: inbox =>
    (UInt32.ofNat msg.sender, { k with inboxes := Function.update k.inboxes k.current inbox })

/-- The `u32` that `Waitpid` makes of an exit status. -/
def statusWord (status : Int) : UInt32 :=
  if 0 ≤ status then UInt32.ofNat status.toNat else EINVAL

def dispatch (k : Kernel) : Syscall → UInt32 × Kernel
  | .exit status =>
    if status.toNat < 2 ^ 31 then (0, k.exitCurrent status.toNat) else (EINVAL, k)
  | .yield => (0, k.reschedule)
  | .sleep ms => (0, k.sleepUntil (saturatingAdd k.ticks (sleepTicks ms)))
  | .nanosleep ts => k.sysNanosleep ts
  | .fork root =>
    match k.fork root with
    | (some child, k) => (UInt32.ofNat child, k)
    | (none, k) => (0 - 1, k)
  | .waitpid pid =>
    match pidOf pid with
    | none => (if pid.toNat < 256 then 0 - 1 else EINVAL, k)
    | some p =>
      match k.waitpid p with
      | (some status, k) => (statusWord status, k)
      | (none, k) => (0 - 1, k)
  | .execve answer => k.sysExecve answer
  | .kill pid signum => k.sysKill pid signum
  | .sigaction signum handler => k.sysSigaction signum handler
  | .fd c => k.sysFd c
  | .futex addr op val word => k.sysFutex addr op val word
  | .send dest tag payload => k.sysSend dest tag payload
  | .recv => k.sysRecv

/-! ## PID 0 and interrupts -/

def serviceTurn (k : Kernel) : ServiceTurn → Kernel
  | .launch path root =>
    match k.spawnUser root, path with
    | (some p, k), some path => { k with supervisor := k.supervisor.register path p }
    | (_, k), _ => k
  | .supervise root =>
    match k.supervisor.popReport with
    | (none, supervisor) => { k with supervisor }
    | (some report, supervisor) =>
      let (decision, supervisor) := supervisor.decide report k.ticks.toNat
      let k := { k with supervisor }
      match decision with
      | .restart path =>
        match k.spawnUser root with
        | (some p, k) => { k with supervisor := k.supervisor.setCurrentPid path (some p.val) }
        | (none, k) => k
      | _ => k
  | .reap => k.reapDeadChildren
  | .reapOne p => (k.waitpid p).2
  | .enableScheduling => { k with scheduling := true }

def checkPendingSignal (k : Kernel) : Option Signal :=
  (k.procs k.current).bind fun P =>
    P.signals.nextPending.filter fun sig => P.signals.handlers sig matches .handler _

/-- The timer's part of `irq_handler_body`. -/
def timerTick (k : Kernel) : Kernel :=
  let k := { k with ticks := k.ticks + 1 }
  if k.scheduling then k.reschedule else k

/-- The end of `irq_handler_rust`: a pending signal that has a handler is
delivered, and a process whose stack cannot take the frame faults. -/
def deliverPending (k : Kernel) (frame : Option UInt32) : Kernel :=
  match k.checkPendingSignal, frame with
  | none, _ => k
  | some sig, none =>
    k.modify k.current fun P => { P with signals := P.signals.clearPending sig }
  | some _, some addr => k.faultExitCurrent (.dataAbort addr 0)

/-- The state after an event.  PID 0 makes no system call and raises no user
fault, and only PID 0 takes service turns. -/
def step (k : Kernel) : KernelEvent → Kernel
  | .call c => if k.current = 0 then k else (k.dispatch c).2
  | .service t => if k.current = 0 then k.serviceTurn t else k
  | .fault kind => if k.current = 0 then k else k.faultExitCurrent kind
  | .irq timer frame => (if timer then k.timerTick else k).deliverPending frame

end Kernel

end Thumos
