import Mathlib.Data.UInt
import Thumos.Lib.Slots
import Thumos.Kernel.Page

/-!
# Descriptors, pipes and sockets

The model of `fd.rs`, of the pipe pool of `pipe.rs` and of the descriptor side
of `socket.rs`.  A process has a table of descriptors; each of its entries
names a slot of the kernel-wide table of open file descriptions, which counts
the entries that name it.  The kind of a description, and for a pipe its index
and its end, are packed into the flags word of the description.

A descriptor call sees its caller's table and the shared tables (`FdView`).
The answers of the filesystem, of the network stack and of the copies to and
from user memory are arguments of the calls.
-/

namespace Thumos

abbrev maxProcs : Nat := 16

abbrev Pid := Fin maxProcs

abbrev maxFds : Nat := 256

abbrev maxOfds : Nat := 256

abbrev maxPipes : Nat := 8

def maxPipesPerProcess : Nat := 4

abbrev pipeBufSize : Nat := 4096

def pipeCopyChunk : Nat := 1024

/-! ## Error numbers -/

def EPERM : UInt32 := 0 - 1
def ESRCH : UInt32 := 0 - 3
def EBADF : UInt32 := 0 - 9
def EAGAIN : UInt32 := 0 - 11
def ENOMEM : UInt32 := 0 - 12
def EFAULT : UInt32 := 0 - 14
def EINVAL : UInt32 := 0 - 22
def ENFILE : UInt32 := 0 - 23
def EMFILE : UInt32 := 0 - 24
def EPIPE : UInt32 := 0 - 32
def EPROTOTYPE : UInt32 := 0 - 91
def EAFNOSUPPORT : UInt32 := 0 - 97

/-! ## The flags word -/

def oAppend : UInt32 := 0x400
def oCloexec : UInt32 := 0x80000
def fdCloexec : UInt32 := 1
def fdKindMask : UInt32 := 0xFF
def fdKindPipe : UInt32 := 1
def fdKindSocket : UInt32 := 2
def fdEndMask : UInt32 := 0x100
def fdEndRead : UInt32 := 0
def fdEndWrite : UInt32 := 0x100
def fdPipeIdxShift : UInt32 := 9

def pipeFlags (k : Fin maxPipes) (fdEnd : UInt32) : UInt32 :=
  fdKindPipe ||| fdEnd ||| (UInt32.ofNat k.val <<< fdPipeIdxShift)

def pipeIdxFromFlags (flags : UInt32) : Fin maxPipes :=
  Fin.ofNat maxPipes ((flags >>> fdPipeIdxShift) &&& 7).toNat

def isPipeFd (flags : UInt32) : Bool := flags &&& fdKindMask == fdKindPipe

def isWriteEnd (flags : UInt32) : Bool := flags &&& fdEndMask == fdEndWrite

def isSocketFd (flags : UInt32) : Bool := flags &&& fdKindMask == fdKindSocket

/-! ## The tables -/

/-- The state that the duplicates of a descriptor share. -/
structure FileDescriptor where
  mountIdx : UInt8
  inodeId : UInt32
  offset : Nat
  flags : UInt32

def FileDescriptor.new (flags : UInt32) : FileDescriptor := ⟨0, 0, 0, flags⟩

/-- An open file description, with the number of entries that name it. -/
structure OpenFile where
  desc : FileDescriptor
  refs : Nat

structure FdEntry where
  ofd : Fin maxOfds
  cloexec : Bool

abbrev FdTable := Slots maxFds FdEntry

structure PipeBuffer where
  data : Fin pipeBufSize → UInt8
  readPos : Fin pipeBufSize
  writePos : Fin pipeBufSize
  count : Nat
  writeClosed : Bool
  readClosed : Bool
  ownerPid : Pid

namespace PipeBuffer

def new (ownerPid : Pid) : PipeBuffer := ⟨fun _ => 0, 0, 0, 0, false, false, ownerPid⟩

def writeByte (buf : PipeBuffer) (b : UInt8) : PipeBuffer :=
  { buf with data := Function.update buf.data buf.writePos b, writePos := buf.writePos + 1 }

def write (buf : PipeBuffer) (src : List UInt8) : Nat × PipeBuffer :=
  let toWrite := min src.length (pipeBufSize - buf.count)
  let buf' := (src.take toWrite).foldl writeByte buf
  (toWrite, { buf' with count := buf.count + toWrite })

def peek (buf : PipeBuffer) (len : Nat) : List UInt8 :=
  (List.range (min len buf.count)).map fun i => buf.data (buf.readPos + Fin.ofNat pipeBufSize i)

def consume (buf : PipeBuffer) (len : Nat) : PipeBuffer :=
  let consumed := min len buf.count
  { buf with readPos := buf.readPos + Fin.ofNat pipeBufSize consumed
             count := buf.count - consumed }

end PipeBuffer

inductive SocketType where
  | tcp
  | udp
deriving DecidableEq

structure SocketInfo where
  socketHandle : Nat
  socketType : SocketType

/-- The statics of `fd.rs`, `pipe.rs` and `socket.rs`, and the handles that the
network stack holds. -/
structure Files where
  ofds : Slots maxOfds OpenFile
  pipes : Slots maxPipes PipeBuffer
  sockets : Slots maxOfds SocketInfo
  handles : List Nat

def Files.boot : Files := ⟨.empty, .empty, .empty, []⟩

namespace FdTable

def alloc (t : FdTable) (e : FdEntry) : Option (Fin maxFds × FdTable) :=
  t.firstFree.map fun i => (i, Slots.put t i e)

def allocFrom (t : FdTable) (minFd : Nat) (e : FdEntry) : Option (Fin maxFds × FdTable) :=
  (t.firstFreeWhere fun i => minFd ≤ i.val).map fun i => (i, Slots.put t i e)

def get (t : FdTable) (fd : UInt32) : Option FdEntry :=
  if h : fd.toNat < maxFds then t ⟨fd.toNat, h⟩ else none

def take (t : FdTable) (fd : UInt32) : Option (FdEntry × FdTable) :=
  if h : fd.toNat < maxFds then
    (t ⟨fd.toNat, h⟩).map fun e => (e, Slots.clear t ⟨fd.toNat, h⟩)
  else none

end FdTable

/-! ## Reference counts -/

namespace Files

def maxRefs : Nat := 2 ^ 32 - 1

def ofdAlloc (fs : Files) (desc : FileDescriptor) : Option (Fin maxOfds × Files) :=
  fs.ofds.firstFree.map fun i => (i, { fs with ofds := fs.ofds.put i ⟨desc, 1⟩ })

/-- `ofd_ref`, with a saturating counter. -/
def ofdRef (fs : Files) (i : Fin maxOfds) : Files :=
  match fs.ofds i with
  | none => fs
  | some o => { fs with ofds := fs.ofds.put i { o with refs := min (o.refs + 1) maxRefs } }

def maybeFreePipe (fs : Files) (k : Fin maxPipes) : Files :=
  match fs.pipes k with
  | none => fs
  | some buf =>
    if buf.writeClosed && buf.readClosed then { fs with pipes := fs.pipes.clear k } else fs

def onPipeFdClosed (fs : Files) (k : Fin maxPipes) (endIsWrite : Bool) : Files :=
  match fs.pipes k with
  | none => fs
  | some buf =>
    let buf' := if endIsWrite then { buf with writeClosed := true }
      else { buf with readClosed := true }
    maybeFreePipe { fs with pipes := fs.pipes.put k buf' } k

def onSocketFdClosed (fs : Files) (i : Fin maxOfds) : Files :=
  match fs.sockets i with
  | none => fs
  | some info =>
    { fs with sockets := fs.sockets.clear i, handles := fs.handles.erase info.socketHandle }

/-- The end of a description whose last entry is gone: the end of `ofd_unref`. -/
def teardown (fs : Files) (i : Fin maxOfds) (o : OpenFile) : Files :=
  let fs := { fs with ofds := fs.ofds.clear i }
  let fs := if isPipeFd o.desc.flags
    then fs.onPipeFdClosed (pipeIdxFromFlags o.desc.flags) (isWriteEnd o.desc.flags) else fs
  if isSocketFd o.desc.flags then fs.onSocketFdClosed i else fs

def ofdUnref (fs : Files) (i : Fin maxOfds) : Files :=
  match fs.ofds i with
  | none => fs
  | some o =>
    if o.refs - 1 = 0 then fs.teardown i o
    else { fs with ofds := fs.ofds.put i { o with refs := o.refs - 1 } }

def modifyDesc (fs : Files) (i : Fin maxOfds) (f : FileDescriptor → FileDescriptor) : Files :=
  match fs.ofds i with
  | none => fs
  | some o => { fs with ofds := fs.ofds.put i { o with desc := f o.desc } }

end Files

/-- What a descriptor call sees: its caller's table and the shared tables. -/
structure FdView where
  table : FdTable
  files : Files

namespace FdView

/-- `current_fd_flags` -/
def flagsOf (v : FdView) (fd : UInt32) : Option UInt32 :=
  (v.table.get fd).bind fun e => (v.files.ofds e.ofd).map fun o => o.desc.flags

/-- One turn of `close_all` and of `close_cloexec`. -/
def sweepSlot (p : FdEntry → Bool) (v : FdView) (i : Fin maxFds) : FdView :=
  match v.table i with
  | none => v
  | some e =>
    if p e then ⟨v.table.clear i, v.files.ofdUnref e.ofd⟩ else v

/-- The loop over the table that closes the entries that meet `p`. -/
def sweep (p : FdEntry → Bool) (v : FdView) : FdView := (List.finRange maxFds).foldl (sweepSlot p) v

def closeAll (v : FdView) : FdView := v.sweep fun _ => true

def closeCloexec (v : FdView) : FdView := v.sweep FdEntry.cloexec

/-- One turn of `fork_table`; the table is the child's. -/
def forkSlot (parent : FdTable) (v : FdView) (i : Fin maxFds) : FdView :=
  match parent i with
  | none => v
  | some e => ⟨v.table.put i e, v.files.ofdRef e.ofd⟩

/-- The child's table, with a reference for each of its entries. -/
def forkTable (parent : FdTable) (files : Files) : FdView :=
  (List.finRange maxFds).foldl (forkSlot parent) ⟨.empty, files⟩

/-! ## The calls -/

/-- What the memory guard and the filesystem answer while bytes are moved:
whether the pointer is not null, whether the range is the user's, whether the
copy succeeds, and how many bytes the filesystem moved. -/
structure Transfer where
  pointer : Bool
  valid : Bool
  copied : Bool
  file : Except UInt32 Nat

/-- `sys_open`, after the path was resolved. -/
def sysOpen (v : FdView) (resolved : Except UInt32 (UInt8 × UInt32)) (flags : UInt32) :
    UInt32 × FdView :=
  match resolved with
  | .error e => (e, v)
  | .ok (mountIdx, inodeId) =>
    let cloexec := flags &&& oCloexec != 0
    let desc : FileDescriptor := ⟨mountIdx, inodeId, 0, flags &&& ~~~oCloexec⟩
    match v.files.ofdAlloc desc with
    | none => (ENFILE, v)
    | some (ofd, files) =>
      match v.table.alloc ⟨ofd, cloexec⟩ with
      | some (n, table) => (UInt32.ofNat n, ⟨table, files⟩)
      | none => (EMFILE, ⟨v.table, files.ofdUnref ofd⟩)

def sysClose (v : FdView) (fd : UInt32) : UInt32 × FdView :=
  match v.table.take fd with
  | some (e, table) => (0, ⟨table, v.files.ofdUnref e.ofd⟩)
  | none => (EBADF, v)

def sysDup (v : FdView) (fd : UInt32) : UInt32 × FdView :=
  match v.table.get fd with
  | none => (EBADF, v)
  | some e =>
    match v.table.alloc { e with cloexec := false } with
    | some (n, table) => (UInt32.ofNat n, ⟨table, v.files.ofdRef e.ofd⟩)
    | none => (EMFILE, v)

/-- The displaced entry is dropped last. -/
def sysDup2 (v : FdView) (oldfd newfd : UInt32) : UInt32 × FdView :=
  if h : newfd.toNat < maxFds then
    match v.table.get oldfd with
    | none => (EBADF, v)
    | some e =>
      if oldfd = newfd then (newfd, v)
      else
        let displaced := v.table ⟨newfd.toNat, h⟩
        let table := v.table.put ⟨newfd.toNat, h⟩ { e with cloexec := false }
        let files := v.files.ofdRef e.ofd
        match displaced with
        | some d => (newfd, ⟨table, files.ofdUnref d.ofd⟩)
        | none => (newfd, ⟨table, files⟩)
  else (EBADF, v)

def fcntlDupFd (v : FdView) (fd minFd : UInt32) : UInt32 × FdView :=
  match v.table.get fd with
  | none => (EBADF, v)
  | some e =>
    match v.table.allocFrom minFd.toNat { e with cloexec := false } with
    | some (n, table) => (UInt32.ofNat n, ⟨table, v.files.ofdRef e.ofd⟩)
    | none => (EMFILE, v)

def fcntlSetFd (v : FdView) (fd arg : UInt32) : UInt32 × FdView :=
  if h : fd.toNat < maxFds then
    match v.table ⟨fd.toNat, h⟩ with
    | some e =>
      (0, ⟨v.table.put ⟨fd.toNat, h⟩ { e with cloexec := arg &&& fdCloexec != 0 }, v.files⟩)
    | none => (EBADF, v)
  else (EBADF, v)

def setStatus (arg flags : UInt32) : UInt32 := (flags &&& ~~~oAppend) ||| (arg &&& oAppend)

def fcntlSetFl (v : FdView) (fd arg : UInt32) : UInt32 × FdView :=
  match v.table.get fd with
  | none => (EBADF, v)
  | some e =>
    match v.files.ofds e.ofd with
    | none => (EBADF, v)
    | some _ =>
      (0, ⟨v.table, v.files.modifyDesc e.ofd fun d => { d with flags := setStatus arg d.flags }⟩)

def sysFcntl (v : FdView) (fd cmd arg : UInt32) : UInt32 × FdView :=
  if cmd = 1 then -- `F_GETFD`
    match v.table.get fd with
    | some e => (if e.cloexec then fdCloexec else 0, v)
    | none => (EBADF, v)
  else if cmd = 2 then v.fcntlSetFd fd arg
  else if cmd = 3 then -- `F_GETFL`
    match v.flagsOf fd with
    | some flags => (flags, v)
    | none => (EBADF, v)
  else if cmd = 4 then v.fcntlSetFl fd arg
  else if cmd = 0 then v.fcntlDupFd fd arg
  else (EINVAL, v)

def allocPipeSlot (fs : Files) (ownerPid : Pid) : Option (Fin maxPipes × Files) :=
  if fs.pipes.sum (fun buf => if buf.ownerPid = ownerPid then 1 else 0) ≥ maxPipesPerProcess then
    none
  else fs.pipes.firstFree.map fun k => (k, { fs with pipes := fs.pipes.put k (.new ownerPid) })

def freePipeSlot (fs : Files) (k : Fin maxPipes) : Files := { fs with pipes := fs.pipes.clear k }

def installPair (t : FdTable) (readEntry writeEntry : FdEntry) :
    Option (Fin maxFds × Fin maxFds × FdTable) :=
  match t.alloc readEntry with
  | none => none
  | some (r, t) =>
    match t.alloc writeEntry with
    | none => none
    | some (w, t) => some (r, w, t)

/-- `sys_pipe`: `valid` and `copied` say whether the user's two words are
writable and whether the copy to them succeeds. -/
def sysPipe (v : FdView) (ownerPid : Pid) (valid copied : Bool) : UInt32 × FdView :=
  if !valid then (EFAULT, v)
  else match allocPipeSlot v.files ownerPid with
  | none => (EMFILE, v)
  | some (k, files) =>
    match files.ofdAlloc (.new (pipeFlags k fdEndRead)) with
    | none => (EMFILE, ⟨v.table, freePipeSlot files k⟩)
    | some (readOfd, files) =>
      match files.ofdAlloc (.new (pipeFlags k fdEndWrite)) with
      | none => (EMFILE, ⟨v.table, freePipeSlot (files.ofdUnref readOfd) k⟩)
      | some (writeOfd, files) =>
        match installPair v.table ⟨readOfd, false⟩ ⟨writeOfd, false⟩ with
        | none =>
          (EMFILE, ⟨v.table, freePipeSlot ((files.ofdUnref readOfd).ofdUnref writeOfd) k⟩)
        | some (r, w, table) =>
          if copied then (0, ⟨table, files⟩)
          else (EFAULT, ⟨Slots.clear (Slots.clear table r) w,
            (files.ofdUnref readOfd).ofdUnref writeOfd⟩)

def socketTypeOf (sockType : UInt32) : Option SocketType :=
  if sockType = 1 then some .tcp else if sockType = 2 then some .udp else none

/-- `sys_socket`.  `stack` is the answer of the network stack: none without a
stack, and otherwise the handle of the new socket if there was room for it. -/
def sysSocket (v : FdView) (domain sockType : UInt32) (stack : Option (Option Nat)) :
    UInt32 × FdView :=
  if domain ≠ 2 then (EAFNOSUPPORT, v)
  else match socketTypeOf sockType with
  | none => (EPROTOTYPE, v)
  | some socketType =>
    match stack with
    | none => (EBADF, v)
    | some none => (EMFILE, v)
    | some (some handle) =>
      let held := { v.files with handles := handle :: v.files.handles }
      match held.ofdAlloc (.new fdKindSocket) with
      | none => (ENFILE, v)
      | some (ofd, files) =>
        match v.table.alloc ⟨ofd, false⟩ with
        | none =>
          let files := files.ofdUnref ofd
          (EMFILE, ⟨v.table, { files with handles := files.handles.erase handle }⟩)
        | some (n, table) =>
          (UInt32.ofNat n,
            ⟨table, { files with sockets := files.sockets.put ofd ⟨handle, socketType⟩ }⟩)

def sysPipeRead (v : FdView) (k : Fin maxPipes) (count : UInt32) (tr : Transfer) :
    UInt32 × FdView :=
  if !tr.pointer then (EFAULT, v)
  else match v.files.pipes k with
  | none => (EBADF, v)
  | some buf =>
    if buf.count = 0 then (if buf.writeClosed then 0 else EAGAIN, v)
    else if !tr.valid || !tr.copied then (EFAULT, v)
    else
      let read := (buf.peek (min (min count.toNat buf.count) pipeCopyChunk)).length
      (UInt32.ofNat read,
        ⟨v.table, { v.files with pipes := v.files.pipes.put k (buf.consume read) }⟩)

def advance (n : Nat) (d : FileDescriptor) : FileDescriptor :=
  { d with offset := (d.offset + n) % usizeSize }

/-- `sys_read`, on a description that is a file: the copy to the user comes
after the filesystem has answered. -/
def sysRead (v : FdView) (fd : UInt32) (tr : Transfer) : UInt32 × FdView :=
  if !tr.pointer || !tr.valid then (EFAULT, v)
  else match v.table.get fd with
  | none => (EBADF, v)
  | some e =>
    match v.files.ofds e.ofd, tr.file with
    | none, _ => (EBADF, v)
    | some _, .error err => (err, v)
    | some _, .ok n =>
      if tr.copied then (UInt32.ofNat n, ⟨v.table, v.files.modifyDesc e.ofd (advance n)⟩)
      else (EFAULT, v)

/-- `sys_write`, on a description that is a file: the bytes are copied from the
user before the filesystem is asked. -/
def sysWrite (v : FdView) (fd : UInt32) (tr : Transfer) : UInt32 × FdView :=
  if !tr.pointer || !tr.valid then (EFAULT, v)
  else match v.table.get fd with
  | none => (EBADF, v)
  | some e =>
    match v.files.ofds e.ofd with
    | none => (EBADF, v)
    | some _ =>
      if !tr.copied then (EFAULT, v)
      else match tr.file with
      | .error err => (err, v)
      | .ok n => (UInt32.ofNat n, ⟨v.table, v.files.modifyDesc e.ofd (advance n)⟩)

def sysReadWithPipe (v : FdView) (fd count : UInt32) (tr : Transfer) : UInt32 × FdView :=
  match v.flagsOf fd with
  | none => (EBADF, v)
  | some flags =>
    if isPipeFd flags then v.sysPipeRead (pipeIdxFromFlags flags) count tr
    else v.sysRead fd tr

/-- `sys_pipe_write`.  The signal that a write to a pipe without a reader
raises is left to the caller. -/
def sysPipeWrite (v : FdView) (k : Fin maxPipes) (bytes : List UInt8) (tr : Transfer) :
    UInt32 × FdView :=
  if !tr.pointer then (EFAULT, v)
  else match v.files.pipes k with
  | none => (EBADF, v)
  | some buf =>
    if buf.readClosed then (EPIPE, v)
    else if buf.count = pipeBufSize then (EAGAIN, v)
    else if !tr.valid || !tr.copied then (EFAULT, v)
    else
      let (n, buf') := buf.write (bytes.take (min (pipeBufSize - buf.count) pipeCopyChunk))
      (UInt32.ofNat n, ⟨v.table, { v.files with pipes := v.files.pipes.put k buf' }⟩)

/-- `sys_write_dispatch`.  Without a descriptor 1, writes to it go to the
serial line. -/
def sysWriteDispatch (v : FdView) (fd : UInt32) (bytes : List UInt8) (tr : Transfer) :
    UInt32 × FdView :=
  match v.flagsOf fd with
  | some flags =>
    if isPipeFd flags then v.sysPipeWrite (pipeIdxFromFlags flags) bytes tr
    else v.sysWrite fd tr
  | none =>
    if fd = 1 then
      (if tr.valid && tr.copied then UInt32.ofNat (min bytes.length 256) else EFAULT, v)
    else (EBADF, v)

/-- `sys_lseek`, with the size of the file as the filesystem gives it. -/
def sysLseek (v : FdView) (fd offset whence : UInt32) (size : Nat) : UInt32 × FdView :=
  match v.table.get fd with
  | none => (EBADF, v)
  | some e =>
    match v.files.ofds e.ofd with
    | none => (EBADF, v)
    | some o =>
      let delta := offset.toInt32.toInt
      let base : Option Int := if whence = 0 then some 0
        else if whence = 1 then some o.desc.offset
        else if whence = 2 then some size else none
      match base with
      | none => (EINVAL, v)
      | some base =>
        let pos := base + delta
        if 0 ≤ pos ∧ pos ≤ 0x7FFFFFFF then
          (UInt32.ofNat pos.toNat,
            ⟨v.table, v.files.modifyDesc e.ofd fun d => { d with offset := pos.toNat }⟩)
        else (EINVAL, v)

end FdView

/-- The descriptor calls that act on the caller's table and the shared tables
only, with the answers they get. -/
inductive FdCall where
  | «open» (resolved : Except UInt32 (UInt8 × UInt32)) (flags : UInt32)
  | close (fd : UInt32)
  | dup (fd : UInt32)
  | dup2 (oldfd newfd : UInt32)
  | fcntl (fd cmd arg : UInt32)
  | pipe (valid copied : Bool)
  | socket (domain sockType : UInt32) (stack : Option (Option Nat))
  | read (fd count : UInt32) (tr : FdView.Transfer)
  | write (fd : UInt32) (bytes : List UInt8) (tr : FdView.Transfer)
  | lseek (fd offset whence : UInt32) (size : Nat)

def FdCall.run (pid : Pid) (v : FdView) : FdCall → UInt32 × FdView
  | .open resolved flags => v.sysOpen resolved flags
  | .close fd => v.sysClose fd
  | .dup fd => v.sysDup fd
  | .dup2 oldfd newfd => v.sysDup2 oldfd newfd
  | .fcntl fd cmd arg => v.sysFcntl fd cmd arg
  | .pipe valid copied => v.sysPipe pid valid copied
  | .socket domain sockType stack => v.sysSocket domain sockType stack
  | .read fd count tr => v.sysReadWithPipe fd count tr
  | .write fd bytes tr => v.sysWriteDispatch fd bytes tr
  | .lseek fd offset whence size => v.sysLseek fd offset whence size

/-- Whether the call writes to a pipe whose read end is closed. -/
def FdCall.breaksPipe (v : FdView) : FdCall → Bool
  | .write fd _ tr =>
    tr.pointer && (v.flagsOf fd).any fun flags =>
      isPipeFd flags && (v.files.pipes (pipeIdxFromFlags flags)).any PipeBuffer.readClosed
  | _ => false

end Thumos
