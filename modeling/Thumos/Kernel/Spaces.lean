import Thumos.Kernel.Memory

/-!
# Address spaces from birth to death

The model of `spawn_user`, `fork_pl0`, `sys_execve` and `exit_cleanup` as far
as they act on memory, and the events of the memory: the calls of the
processes, what PID 0 and the kernel's heap do, and the stores of user code.
-/

namespace Thumos

open Elf LittleEndian

/-! ## Mapping an image and a stack -/

def flagsToProt (flags : UInt32) : UInt32 :=
  (if flags &&& pfR ≠ 0 then protRead else 0) ||| (if flags &&& pfW ≠ 0 then protWrite else 0) |||
    if flags &&& pfX ≠ 0 then protExec else 0

structure LoadedElf where
  entry : Nat
  segments : List Segment
  imagePhys : Nat
  imageLo : Nat
  imagePages : Nat

namespace Mmu

/-- The loops of `map_user_image` and `map_user_stack` over the pages and their
frames. -/
def mapPages (t : Fin maxAddrSpaces) (attrs : Attrs) : List (Nat × Nat) → Mmu → Bool × Mmu
  | [], m => (true, m)
  | (va, phys) :: rest, m =>
    match m.shatterAndMap t va phys attrs with
    | (true, m) => mapPages t attrs rest m
    | (false, m) => (false, m)

def segmentPages (loaded : LoadedElf) (seg : Segment) : List (Nat × Nat) :=
  (List.range (ceilPages seg.memsz)).map fun p =>
    let va := seg.vaddr + p * pageSize
    (va, loaded.imagePhys + (va - loaded.imageLo))

def mapSegments (t : Fin maxAddrSpaces) (loaded : LoadedElf) : List Segment → Mmu → Bool × Mmu
  | [], m => (true, m)
  | seg :: rest, m =>
    if seg.vaddr % pageSize ≠ 0 then (false, m)
    else match mapPages t (protToL2Flags (flagsToProt seg.flags)) (segmentPages loaded seg) m with
    | (true, m) => mapSegments t loaded rest m
    | (false, m) => (false, m)

def mapUserImage (m : Mmu) (t : Fin maxAddrSpaces) (loaded : LoadedElf) : Bool × Mmu :=
  mapSegments t loaded loaded.segments m

def mapUserStack (m : Mmu) (t : Fin maxAddrSpaces) (base pages : Nat) : Bool × Mmu :=
  mapPages t (protToL2Flags (protRead ||| protWrite))
    ((List.range pages).map fun i => (base + i * pageSize, base + i * pageSize)) m

/-- The image and the stack of a new process, if it has a trampoline. -/
def mapUserPages (m : Mmu) (t : Fin maxAddrSpaces) (tramp : Option Nat) (loaded : LoadedElf)
    (stackBase : Nat) : Bool × Mmu :=
  match tramp with
  | none => (false, m)
  | some _ =>
    match m.mapUserImage t loaded with
    | (false, m) => (false, m)
    | (true, m) => m.mapUserStack t stackBase stackPageCount

def revokeUserPages (m : Mmu) (t : Fin maxAddrSpaces) (base pages : Nat) : Mmu :=
  (List.range pages).foldl
    (fun m i => (m.updatePageProt t (base + i * pageSize) kernelDefaultPage).2) m

end Mmu

namespace Memory

/-! ## Loading -/

/-- A byte written by the kernel under the table `t`, or under its own. -/
def store (m : Memory) (t : Option (Fin maxAddrSpaces)) (addr : Nat) (byte : UInt8) :
    Option Memory :=
  let frame := match t with
    | none => some (addr / pageSize)
    | some t => m.mmu.kernelFrame t addr
  frame.map fun frame => m.writeByte frame (Fin.ofNat _ addr) byte

def storeAll (m : Memory) (t : Option (Fin maxAddrSpaces)) : List (Nat × UInt8) → Option Memory
  | [] => some m
  | (addr, byte) :: rest => (m.store t addr byte).bind fun m => storeAll m t rest

inductive LoadResult where
  | halted
  | refused (e : ElfError)
  | loaded (elf : LoadedElf) (m : Memory)

/-- `load_confined` for the window of user images, under the table `t` or under
the kernel's. -/
def loadConfined (m : Memory) (t : Option (Fin maxAddrSpaces)) (data : List UInt8) : LoadResult :=
  match validate data with
  | .error .outside => .halted
  | .error (.error e) => .refused e
  | .ok (entry, v) =>
    if m.pages.freePages < v.totalPages then .refused .outOfMemory
    else match planConfinedImage v userTextBase ramEnd with
    | .error e => .refused e
    | .ok imageLo =>
      match m.pages.allocContiguous v.totalPages with
      | (none, _) => .refused .outOfMemory
      | (some imagePhys, pages) =>
        let writes := (imageWrites data v imageLo).map fun (offset, byte) =>
          (imagePhys + offset, byte)
        match { m with pages }.storeAll t writes with
        | none => .halted
        | some m => .loaded ⟨entry, v.segments, imagePhys, imageLo, v.totalPages⟩ m

/-! ## `spawn_user` -/

/-- `trampoline_words`, as bytes: `mov r7, #81; svc #0`. -/
def trampolineBytes : List UInt8 := encode [(4, 0xE3A07051), (4, 0xEF000000)]

/-- The frame, if there was one and it was mapped. -/
def mapSignalTrampoline (m : Memory) (t : Fin maxAddrSpaces) : Option Nat × Memory :=
  match m.pages.allocPage with
  | (none, _) => (none, m)
  | (some phys, pages) =>
    match m.mmu.shatterAndMap t signalTrampolineVa phys
        (protToL2Flags (protRead ||| protExec)) with
    | (false, mmu) => (none, { m with pages, mmu }.freePage phys)
    | (true, mmu) =>
      -- `write_trampoline_page`
      (some phys, { m with
        pages, mmu
        ram := Function.update m.ram (phys / pageSize) fun i =>
          trampolineBytes.getD i (m.ram (phys / pageSize) i) })

def freeUnspawnedImage (m : Memory) (loaded : LoadedElf) : Memory :=
  if loaded.imagePages > 0 then m.freeContiguous loaded.imagePhys loaded.imagePages else m

/-- The frames that a failed `spawn_user` gives back: that of the trampoline, the
image and the stack. -/
def giveUp (m : Memory) (tramp : Option Nat) (loaded : LoadedElf) (stackBase : Nat) : Memory :=
  ((tramp.elim m m.freePage).freeUnspawnedImage loaded).freeContiguous stackBase stackPageCount

/-- `spawn_user`, for the process slot `child` if there is one. -/
def spawnUser (m : Memory) (child : Option Pid) (loaded : LoadedElf) : Bool × Memory :=
  match child, m.mmu.newAddrSpace with
  | none, _ => (false, m.freeUnspawnedImage loaded)
  | some _, none => (false, m.freeUnspawnedImage loaded)
  | some child, some (t, mmu) =>
    match m.pages.allocContiguous stackPageCount with
    | (none, _) =>
      let m := { m with mmu }.freeUnspawnedImage loaded
      (false, { m with mmu := m.mmu.freeAddrSpace t })
    | (some stackBase, pages) =>
      let (tramp, m) := { m with mmu, pages }.mapSignalTrampoline t
      match m.mmu.mapUserPages t tramp loaded stackBase with
      | (true, mmu) =>
        (true, { m with mmu }.setSpace child
          ⟨t, stackBase, stackPageCount, defaultHeapBreak, .empty⟩)
      | (false, mmu) =>
        let m := { m with mmu }.giveUp tramp loaded stackBase
        (false, { m with mmu := m.mmu.freeAddrSpace t })

def spawn (m : Memory) (child : Option Pid) (data : List UInt8) : Memory :=
  match m.loadConfined none data with
  | .loaded loaded m => (m.spawnUser child loaded).2
  | _ => m

/-! ## `fork` -/

def freeUserPages (m : Memory) (t : Fin maxAddrSpaces) : Memory :=
  (Mmu.forEachUserPage Memory.mmu (fun m _ e => (true, m.freePage (e.page * pageSize))) t m).2

/-- The part of `fork_copy_phase` for one page of the parent. -/
def copyPage (child : Fin maxAddrSpaces) (m : Memory) (va : Nat) (e : L2Entry) : Bool × Memory :=
  if ¬(ramStart ≤ e.page * pageSize ∧ e.page * pageSize < ramEnd) then (false, m)
  else match m.pages.allocPage with
  | (none, _) => (false, m)
  | (some phys, pages) =>
    let m := { m with pages, ram := Function.update m.ram (phys / pageSize) (m.ram e.page) }
    match m.mmu.shatterAndMap child va phys e.attrs with
    | (true, mmu) => (true, { m with mmu })
    | (false, mmu) => (false, { m with mmu }.freePage phys)

def forkCopyPhase (m : Memory) (parent child : Fin maxAddrSpaces) : Bool × Memory :=
  match Mmu.forEachUserPage Memory.mmu (copyPage child) parent m with
  | (true, m) => (true, m)
  | (false, m) => (false, m.freeUserPages child)

/-- `fork_pl0`, for the process slot `child`; the answer is the new table. -/
def forkPl0 (m : Memory) (p child : Pid) : Option (Fin maxAddrSpaces) × Memory :=
  match m.spaces p, m.mmu.newAddrSpace with
  | some s, some (t, mmu) =>
    match { m with mmu }.forkCopyPhase s.table t with
    | (true, m) => (some t, m.setSpace child { s with table := t })
    | (false, m) => (none, { m with mmu := m.mmu.freeAddrSpace t })
  | _, _ => (none, m)

/-! ## `execve` -/

/-- `free_contiguous` under the table `t`: the frames that the table maps are
zeroed. -/
def freeContiguousUnder (m : Memory) (t : Fin maxAddrSpaces) (addr n : Nat) : Option Memory :=
  match m.pages.freeContiguous addr n with
  | (false, _) => some m
  | (true, pages) =>
    ((pagesFrom addr n).mapM fun va => m.mmu.kernelFrame t va).map fun frames =>
      { m with pages, ram := fun page => if page ∈ frames then zeroFrame else m.ram page }

/-- `read_l2_phys`, and `unmap_page` and `free_page` if the page is mapped. -/
def releaseMapped (m : Memory) (t : Fin maxAddrSpaces) (va : Nat) : Memory :=
  match m.mmu.readL2Phys t va with
  | none => m
  | some phys => { m with mmu := m.mmu.unmapPage t va }.freePage phys

def freeImagePage (m : Memory) (t : Fin maxAddrSpaces) (va : Nat) : Memory :=
  match m.mmu.readL2Entry t va, m.mmu.readL2Phys t va with
  | some e, some phys => if e.isUser then m.freePage phys else m
  | _, _ => m

/-- Step 0 of `exec_replace_context`: the old image goes, and its megabyte is the
kernel's again. -/
def dropWindow (m : Memory) (t : Fin maxAddrSpaces) : Memory :=
  let m := (pagesFrom userTextBase 256).foldl (fun m va => m.freeImagePage t va) m
  { m with mmu := (m.mmu.resetShatteredSection t userTextBase).2 }

/-- The old stack is taken from user code, and then released. -/
def dropStack (m : Memory) (t : Fin maxAddrSpaces) (base pages : Nat) : Memory :=
  (pagesFrom base pages).foldl (fun m va => m.releaseMapped t va)
    { m with mmu := m.mmu.revokeUserPages t base pages }

/-- Steps 0 to 3 of `exec_replace_context`: the old image, stack, mappings and
heap go. -/
def dropImage (m : Memory) (s : Space) : Memory :=
  let t := s.table
  let m := (m.dropWindow t).dropStack t s.stackBase s.stackPages
  let m := (List.finRange maxMappings).foldl (fun m i =>
    (s.mappings i).elim m fun v =>
      (pagesFrom v.start v.pages).foldl (fun m va => m.releaseMapped t va) m) m
  (pagesFrom defaultHeapBreak (ceilPages (s.heapBreak - defaultHeapBreak))).foldl
    (fun m va => m.releaseMapped t va) m

/-- The rest of `exec_replace_context`: the new image and stack are mapped. -/
def mapImage (m : Memory) (p : Pid) (s : Space) (loaded : LoadedElf) (newStackBase : Nat) :
    Bool × Memory :=
  let t := s.table
  -- both run, whatever comes of the first
  let (okImage, mmu) := m.mmu.mapUserImage t loaded
  let (okStack, mmu) := mmu.mapUserStack t newStackBase stackPageCount
  let m := { m with mmu }
  let s := { s with heapBreak := defaultHeapBreak, mappings := .empty }
  if okImage && okStack then
    (true, m.setSpace p { s with stackBase := newStackBase, stackPages := stackPageCount })
  else
    let m := (pagesFrom newStackBase stackPageCount).foldl
      (fun m va => { m with mmu := m.mmu.unmapPage t va }.freePage va) m
    (false, m.setSpace p { s with stackBase := 0, stackPages := 0 })

def execReplaceContext (m : Memory) (p : Pid) (s : Space) (loaded : LoadedElf)
    (newStackBase : Nat) : Bool × Memory :=
  (m.dropImage s).mapImage p s loaded newStackBase

/-- What `sys_execve` writes on the new stack: the number of arguments, their addresses
and their bytes. -/
def argvFrame (args : List (List UInt8)) (sp : Nat) : List UInt8 :=
  let strings := sp + 4 + (args.length + 1) * 4
  let addrs := (List.range args.length).map fun i =>
    strings + ((args.take i).map fun a => a.length + 1).sum
  encode ((4, args.length) :: addrs.map (fun a => (4, a)) ++ [(4, 0)]) ++
    args.flatMap fun a => a ++ [0]

def frameAligned (args : List (List UInt8)) : Nat :=
  (4 + (args.length + 1) * 4 + (args.map fun a => a.length + 1).sum + 7) / 8 * 8

def stackFrame (args : List (List UInt8)) (stackTop : Nat) : List (Nat × UInt8) :=
  let (args, sp) := if frameAligned args ≤ stackPageCount * pageSize
    then (args, stackTop - frameAligned args) else ([], stackTop - 8)
  (argvFrame args sp).zipIdx.map fun (byte, i) => (sp + i, byte)

/-- What comes of `sys_execve`: the kernel stops, the caller goes on with an
error, it has the new image, or it has none and is killed. -/
inductive ExecResult where
  | halted
  | failed (errno : UInt32) (m : Memory)
  | replaced (m : Memory)
  | lost (m : Memory)

/-- `sys_execve`.  `file` is the content that the path leads to, or the error of
the lookup; `args` are the strings that could be copied from the caller. -/
def sysExecve (m : Memory) (p : Pid) (file : Except UInt32 (List UInt8))
    (args : Option (List (List UInt8))) : ExecResult :=
  match m.spaces p, file with
  | none, _ => .failed EINVAL m
  | some _, .error errno => .failed errno m
  | some s, .ok data =>
    match m.pages.allocContiguous stackPageCount with
    | (none, _) => .failed ENOMEM m
    | (some newStackBase, pages) =>
      let m := { m with pages }
      -- the failure returns give the new stack back under the caller's table
      let fail (errno : UInt32) : ExecResult :=
        (m.freeContiguousUnder s.table newStackBase stackPageCount).elim .halted (.failed errno)
      match args with
      | none => fail EFAULT
      | some args =>
        match m.loadConfined (some s.table) data with
        | .halted => .halted
        | .refused e => fail (if e = .outOfMemory then ENOMEM else ENOEXEC)
        | .loaded loaded m =>
          match m.storeAll none (stackFrame args (newStackBase + stackPageCount * pageSize)) with
          | none => .halted
          | some m =>
            match m.execReplaceContext p s loaded newStackBase with
            | (true, m) => .replaced m
            | (false, m) => .lost m

/-! ## `exit_cleanup` -/

def exitCleanup (m : Memory) (p : Pid) : Memory :=
  match m.spaces p with
  | none => m
  | some s =>
    let stackL2Backed := (m.mmu.readL2Entry s.table s.stackBase).any L2Entry.isUser
    let m := m.freeUserPages s.table
    let m := { m with mmu := m.mmu.freeAddrSpace s.table, spaces := m.spaces.clear p }
    if stackL2Backed then m
    else (pagesFrom s.stackBase s.stackPages).foldl freePage m

end Memory

/-! ## Events -/

def L2Entry.userWritable (e : L2Entry) : Bool := e.attrs &&& 0x230 = PageFlags.apFull

/-- What happens to the memory: the calls of process `p`, a process started by
PID 0 (in a free slot of the process table, if there is one), the death of a
process with and without cleanup, the kernel's heap growing and shrinking, and
stores of the kernel and of user code. -/
inductive MemoryEvent where
  | spawn (child : Option Pid) (data : List UInt8)
  | fork (p child : Pid)
  | execve (p : Pid) (file : Except UInt32 (List UInt8)) (args : Option (List (List UInt8)))
  | exit (p : Pid)
  | abandon (p : Pid)
  | brk (p : Pid) (req : UInt32)
  | mmap (p : Pid) (length prot flagsAndFd : UInt32)
  | munmap (p : Pid) (addr : UInt32)
  | mprotect (p : Pid) (addr prot : UInt32)
  | allocPage (p : Pid)
  | freePage (p : Pid) (addr : UInt32)
  | heapGrow (n : Nat)
  | heapShrink (addr n : Nat)
  | heapWrite (page : Nat) (data : FrameData)
  | store (p : Pid) (va : Nat) (byte : UInt8)

namespace Memory

def heapGrow (m : Memory) (n : Nat) : Memory :=
  match m.pages.allocContiguous n with
  | (none, _) => m
  | (some addr, pages) => { m with
      pages
      grants := fun page => if addr / pageSize ≤ page ∧ page < addr / pageSize + n
        then some .kernel else m.grants page }

def heapShrink (m : Memory) (addr n : Nat) : Memory :=
  if ∀ page ∈ List.range' (addr / pageSize) n, m.grants page = some .kernel then
    { m.freeContiguous addr n with
      grants := fun page => if addr / pageSize ≤ page ∧ page < addr / pageSize + n
        then none else m.grants page }
  else m

def userStore (m : Memory) (p : Pid) (va : Nat) (byte : UInt8) : Memory :=
  match (m.spaces p).bind fun s => m.mmu.readL2Entry s.table va with
  | none => m
  | some e => if e.userWritable then m.writeByte e.page (Fin.ofNat _ va) byte else m

/-- The state after an event.  A kernel that stops takes no further step, so its
memory is left as it was. -/
def step (m : Memory) : MemoryEvent → Memory
  | .spawn child data => if child.bind m.spaces = none then m.spawn child data else m
  | .fork p child => if m.spaces child = none then (m.forkPl0 p child).2 else m
  | .execve p file args =>
    match m.sysExecve p file args with
    | .halted => m
    | .failed _ m => m
    | .replaced m => m
    | .lost m => m.exitCleanup p
  | .exit p => m.exitCleanup p
  | .abandon p => { m with spaces := m.spaces.clear p }
  | .brk p req => (m.sysBrk p req).2
  | .mmap p length prot flagsAndFd => (m.sysMmap p length prot flagsAndFd).2
  | .munmap p addr => (m.sysMunmap p addr).2
  | .mprotect p addr prot => (m.sysMprotect p addr prot).2
  | .allocPage p => (m.sysAllocPage p).2
  | .freePage p addr => (m.sysFreePage p addr).elim m Prod.snd
  | .heapGrow n => m.heapGrow n
  | .heapShrink addr n => m.heapShrink addr n
  | .heapWrite page data =>
    if m.grants page = some .kernel then { m with ram := Function.update m.ram page data } else m
  | .store p va byte => m.userStore p va byte

end Memory

end Thumos
