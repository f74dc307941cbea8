import Thumos.Kernel.Fd
import Thumos.Lib.Ring

/-!
# Inboxes and supervision

The models of `ipc.rs` and `supervisor.rs`.  Every process slot has an inbox, a
queue of at most sixteen messages.  The supervisor holds the fault reports that
PID 0 has not yet read, in a ring, and, for each supervised service, the process
that runs it and the budget of restarts.
-/

namespace Thumos

def inboxSize : Nat := 16

def msgMaxSize : Nat := 256

/-- `Message`, with the payload cut to its length. -/
structure Message where
  sender : Pid
  tag : UInt32
  payload : List UInt8

/-- `Inbox::push`: the queue with the message, unless it is full. -/
def pushInbox (inbox : List Message) (msg : Message) : Option (List Message) :=
  if inbox.length ≥ inboxSize then none else some (inbox ++ [msg])

/-! ## Supervision -/

namespace Supervisor

def ringSize : Nat := 16

instance : NeZero ringSize := ⟨by decide⟩

def maxSupervised : Nat := 4

def maxRestarts : Nat := 3

def windowTicks : Nat := 500

structure FaultReport where
  pid : Nat
  kind : UInt8
  faultAddr : UInt32
  faultStatus : UInt32
  service : Option String
  deriving DecidableEq

structure SupervisedService where
  path : String
  currentPid : Option Nat
  restartsInWindow : Nat
  windowStartTick : Nat
  gaveUp : Bool
  deriving DecidableEq

inductive Decision where
  | none
  | restart (path : String)
  | giveUp (path : String)
  deriving DecidableEq

def SupervisedService.point (pid : Option Nat) (svc : SupervisedService) : SupervisedService :=
  { svc with currentPid := pid }

def SupervisedService.decide (svc : SupervisedService) (now : Nat) : Decision × SupervisedService :=
  if svc.gaveUp then (.none, svc)
  else
    let svc := if now - svc.windowStartTick > windowTicks then
        { svc with windowStartTick := now, restartsInWindow := 0 } else svc
    if svc.restartsInWindow < maxRestarts then
      (.restart svc.path, { svc with restartsInWindow := svc.restartsInWindow + 1 })
    else (.giveUp svc.path, { svc with gaveUp := true })

/-- The used slots of `SERVICES`: they are filled in order and never freed. -/
abbrev Services := List SupervisedService

namespace Services

def indexOf (l : Services) (path : String) : Nat := l.findIdx (·.path = path)

def register (l : Services) (path : String) (pid : Nat) : Services :=
  if l.indexOf path < l.length then l.modify (l.indexOf path) (.point (some pid))
  else if l.length < maxSupervised then l ++ [⟨path, some pid, 0, 0, false⟩]
  else l

def setCurrentPid (l : Services) (path : String) (pid : Option Nat) : Services :=
  l.modify (l.indexOf path) (.point pid)

def decide (l : Services) (report : FaultReport) (now : Nat) : Services × Decision :=
  match report.service with
  | none => (l, .none)
  | some path =>
    match l[l.indexOf path]? with
    | none => (l, .none)
    | some svc => (l.set (l.indexOf path) (svc.decide now).2, (svc.decide now).1)

def clearPid (l : Services) (pid : Nat) : Services :=
  l.map fun svc => if svc.currentPid = some pid then svc.point none else svc

end Services

/-- `RING`, `RING_HEAD` and `RING_COUNT`. -/
structure FaultRing where
  cells : Fin ringSize → Option FaultReport
  head : Fin ringSize
  count : Nat

namespace FaultRing

def push (r : FaultRing) (report : FaultReport) : FaultRing :=
  if ringSize ≤ r.count then r
  else { r with
    cells := Function.update r.cells (r.head + Fin.ofNat ringSize r.count) (some report)
    count := r.count + 1 }

def pop (r : FaultRing) : Option FaultReport × FaultRing :=
  if r.count = 0 then (none, r)
  else (r.cells r.head, ⟨Function.update r.cells r.head none, r.head + 1, r.count - 1⟩)

end FaultRing

structure State where
  services : Services
  ring : FaultRing

namespace State

def new : State := ⟨[], ⟨fun _ => none, 0, 0⟩⟩

variable (s : State)

/-- The first service that claims the process is named in the report. -/
def faultReport (pid : Nat) (kind : UInt8) (faultAddr faultStatus : UInt32) : FaultReport :=
  ⟨pid, kind, faultAddr, faultStatus, (s.services.find? (·.currentPid = some pid)).map (·.path)⟩

/-- That service gives the process up, also if the ring has no room for the report. -/
def reportFault (pid : Nat) (kind : UInt8) (faultAddr faultStatus : UInt32) : State :=
  ⟨s.services.modify (s.services.findIdx (·.currentPid = some pid)) (.point none),
    s.ring.push (s.faultReport pid kind faultAddr faultStatus)⟩

def popReport : Option FaultReport × State := (s.ring.pop.1, { s with ring := s.ring.pop.2 })

def register (path : String) (pid : Nat) : State :=
  { s with services := s.services.register path pid }

def setCurrentPid (path : String) (pid : Option Nat) : State :=
  { s with services := s.services.setCurrentPid path pid }

def decide (report : FaultReport) (now : Nat) : Decision × State :=
  ((s.services.decide report now).2, { s with services := (s.services.decide report now).1 })

def clearPid (pid : Nat) : State := { s with services := s.services.clearPid pid }

end State

end Supervisor

end Thumos
