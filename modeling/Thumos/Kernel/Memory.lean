import Thumos.Kernel.Mmu
import Thumos.Kernel.Elf
import Thumos.Kernel.Fd

/-!
# The memory of the processes

The model of the memory calls of `syscall.rs` (`brk`, `mmap`, `munmap`,
`mprotect`, `AllocPage`, `FreePage`, `execve`) and of the parts of `process.rs`
that build, copy, replace and tear down address spaces.

The state holds the page allocator, the page tables, the content of RAM and the
memory part of every process.  `grants` is a history: it says which frames were
handed to the kernel's heap and to callers of `AllocPage` and not given back.

Most functions run under the kernel's table, where addresses below the end of
RAM are the addresses of frames.  `FreePage` and the first half of `execve` run
under the caller's table; there the kernel reaches the frame that the table
maps, and an address that the table does not map stops the kernel.
-/

namespace Thumos

open Elf

abbrev defaultHeapBreak : Nat := 0x10000000

abbrev mmapBase : Nat := 0x20000000

abbrev mmapEnd : Nat := 0x30000000

abbrev maxMappings : Nat := 32

/-- `STACK_PAGES` and `EXEC_STACK_PAGES` -/
abbrev stackPageCount : Nat := 4

abbrev signalTrampolineVa : Nat := userTextBase - pageSize

def ENOEXEC : UInt32 := 0 - 8

def mapFailed : UInt32 := 0 - 1

def mapAnonymous : UInt32 := 0x20

/-! ## State -/

abbrev FrameData := Fin 4096 → UInt8

def zeroFrame : FrameData := fun _ => 0

structure VmMapping where
  start : Nat
  pages : Nat
  prot : UInt32
deriving DecidableEq

def VmMapping.last (v : VmMapping) : Nat := (v.start + v.pages * pageSize) % usizeSize

/-- The memory fields of `Process`, for a process that has a table. -/
structure Space where
  table : Fin maxAddrSpaces
  stackBase : Nat
  stackPages : Nat
  heapBreak : Nat
  mappings : Slots maxMappings VmMapping

/-- Who holds a frame that was handed out without being mapped. -/
inductive Grant where
  | kernel
  | process (p : Pid)
deriving DecidableEq

structure Memory where
  pages : Pages
  mmu : Mmu
  ram : Nat → FrameData
  spaces : Slots maxProcs Space
  grants : Nat → Option Grant

/-- The frame that the kernel reaches at an address under the table `t`. -/
def Mmu.kernelFrame (m : Mmu) (t : Fin maxAddrSpaces) (va : Nat) : Option Nat :=
  match m.tables t (l1Index va) with
  | .absent => none
  | .sect mb _ => some (mb * 256 + l2Index va)
  | .coarse l2 =>
    let e := m.entryAt l2 (l2Index va)
    if e.isMapped then some e.page else none

namespace Memory

def boot (pages : Pages) (image : KernelImage) (ram : Nat → FrameData) : Memory where
  pages := pages
  mmu := .boot image
  ram := ram
  spaces := .empty
  grants := fun _ => none

def setSpace (m : Memory) (p : Pid) (s : Space) : Memory := { m with spaces := m.spaces.put p s }

/-! ## Frames under the kernel's table -/

/-- The frame is zeroed before it is free. -/
def tryFreePage (m : Memory) (addr : Nat) : Bool × Memory :=
  match m.pages.tryFreePage addr with
  | (false, _) => (false, m)
  | (true, pages) =>
    (true, { m with pages, ram := Function.update m.ram (addr / pageSize) zeroFrame })

def freePage (m : Memory) (addr : Nat) : Memory := (m.tryFreePage addr).2

def freeContiguous (m : Memory) (addr n : Nat) : Memory :=
  match m.pages.freeContiguous addr n with
  | (false, _) => m
  | (true, pages) => { m with
      pages
      ram := fun page =>
        if addr / pageSize ≤ page ∧ page < addr / pageSize + n then zeroFrame else m.ram page }

def writeByte (m : Memory) (page : Nat) (offset : Fin 4096) (byte : UInt8) : Memory :=
  { m with ram := Function.update m.ram page (Function.update (m.ram page) offset byte) }

/-- `read_l2_phys`, `unmap_page` and `free_page` of one page. -/
def releasePage (m : Memory) (t : Fin maxAddrSpaces) (va : Nat) : Memory :=
  let phys := m.mmu.readL2Phys t va
  let m := { m with mmu := m.mmu.unmapPage t va }
  match phys with
  | none => m
  | some phys => m.freePage phys

/-- The pages of a loop `for i in 0..n` over `base + i * PAGE_SIZE`. -/
def pagesFrom (base n : Nat) : List Nat :=
  (List.range n).map fun i => (base + i * pageSize) % usizeSize

/-- The loops that give up pages: rollbacks, `munmap` and shrinking heaps. -/
def releasePages (m : Memory) (t : Fin maxAddrSpaces) (base n : Nat) : Memory :=
  (pagesFrom base n).foldl (fun m va => m.releasePage t va) m

/-! ## `brk` -/

/-- How a loop that maps fresh pages ends. -/
inductive MapEnd where
  | all
  | outOfMemory
  | unmappable
deriving DecidableEq

/-- The loop of `sys_brk` and `sys_mmap` that maps fresh frames from page `i`
on, `k` pages at most.  A frame that cannot be mapped is freed again. -/
def mapFresh (t : Fin maxAddrSpaces) (base : Nat) (attrs : Attrs) :
    Nat → Nat → Memory → MapEnd × Nat × Memory
  | i, 0, m => (.all, i, m)
  | i, k + 1, m =>
    match m.pages.allocPage with
    | (none, _) => (.outOfMemory, i, m)
    | (some phys, pages) =>
      match m.mmu.ensureAndMap t ((base + i * pageSize) % usizeSize) phys attrs with
      | (true, mmu) => mapFresh t base attrs (i + 1) k { m with pages, mmu }
      | (false, mmu) => (.unmappable, i, { m with pages, mmu }.freePage phys)

/-- The request of `sys_brk`, rounded up to a page; the sum wraps. -/
def roundBreak (req : UInt32) : Nat :=
  (req.toNat + (pageSize - 1)) % usizeSize / pageSize * pageSize

def sysBrk (m : Memory) (p : Pid) (req : UInt32) : UInt32 × Memory :=
  match m.spaces p with
  | none => (EINVAL, m)
  | some s =>
    let current := s.heapBreak
    let newBreak := roundBreak req
    if req = 0 then (UInt32.ofNat current, m)
    else if newBreak > current then
      match mapFresh s.table current (protToL2Flags (protRead ||| protWrite)) 0
          ((newBreak - current) / pageSize) m with
      | (.all, _, m) => (UInt32.ofNat newBreak, m.setSpace p { s with heapBreak := newBreak })
      | (.outOfMemory, i, m) => (UInt32.ofNat current, m.releasePages s.table current i)
      | (.unmappable, _, m) => (UInt32.ofNat current, m)
    else if newBreak < current then
      let m := m.releasePages s.table newBreak ((current - newBreak) / pageSize)
      (UInt32.ofNat newBreak, m.setSpace p { s with heapBreak := newBreak })
    else (UInt32.ofNat current, m)

/-! ## `mmap`, `munmap` and `mprotect` -/

/-- The end of the first mapping that overlaps `[candidate, last)`. -/
def overlapping (mappings : Slots maxMappings VmMapping) (candidate last : Nat) : Option Nat :=
  (List.finRange maxMappings).findSome? fun i =>
    (mappings i).bind fun v =>
      if candidate < v.last ∧ last > v.start then some v.last else none

/-- The search of `sys_mmap`.  Every turn passes a mapping for good, so that
one turn more than there are mappings is enough. -/
def search (mappings : Slots maxMappings VmMapping) (pageCount : Nat) : Nat → Nat → Option Nat
  | 0, _ => none
  | fuel + 1, candidate =>
    let last := (candidate + pageCount * pageSize) % usizeSize
    if last > mmapEnd then none
    else match overlapping mappings candidate last with
    | some past => search mappings pageCount fuel past
    | none => some candidate

/-- Execution without reading cannot be expressed. -/
def execOnly (prot : UInt32) : Bool := prot &&& (protRead ||| protWrite) = 0 ∧ prot &&& protExec ≠ 0

def sysMmap (m : Memory) (p : Pid) (length prot flagsAndFd : UInt32) : UInt32 × Memory :=
  if length = 0 then (mapFailed, m)
  else if flagsAndFd &&& 0xFFFF &&& mapAnonymous = 0 then (mapFailed, m)
  else if flagsAndFd >>> 16 ≠ 0xFFFF then (mapFailed, m)
  else if execOnly prot then (mapFailed, m)
  else match m.spaces p with
  | none => (mapFailed, m)
  | some s =>
    let pageCount := ceilPages length.toNat
    match search s.mappings pageCount (maxMappings + 1) mmapBase with
    | none => (mapFailed, m)
    | some candidate =>
      match mapFresh s.table candidate (protToL2Flags prot) 0 pageCount m with
      | (.all, _, m) =>
        match s.mappings.firstFree with
        | some i =>
          (UInt32.ofNat candidate, m.setSpace p
            { s with mappings := s.mappings.put i ⟨candidate, pageCount, prot⟩ })
        | none => (mapFailed, m.releasePages s.table candidate pageCount)
      | (.outOfMemory, i, m) => (mapFailed, m.releasePages s.table candidate i)
      | (.unmappable, i, m) => (mapFailed, m.releasePages s.table candidate i)

def findMapping (mappings : Slots maxMappings VmMapping) (addr : Nat) :
    Option (Fin maxMappings × VmMapping) :=
  (List.finRange maxMappings).findSome? fun i =>
    (mappings i).bind fun v => if v.start = addr then some (i, v) else none

def sysMunmap (m : Memory) (p : Pid) (addr : UInt32) : UInt32 × Memory :=
  match m.spaces p with
  | none => (EINVAL, m)
  | some s =>
    match findMapping s.mappings addr.toNat with
    | none => (EINVAL, m)
    | some (i, v) =>
      let m := m.setSpace p { s with mappings := s.mappings.clear i }
      (0, m.releasePages s.table v.start v.pages)

def protectPages (t : Fin maxAddrSpaces) (attrs : Attrs) : List Nat → Mmu → Bool × Mmu
  | [], mmu => (true, mmu)
  | va :: rest, mmu =>
    match mmu.updatePageProt t va attrs with
    | (true, mmu) => protectPages t attrs rest mmu
    | (false, mmu) => (false, mmu)

def sysMprotect (m : Memory) (p : Pid) (addr prot : UInt32) : UInt32 × Memory :=
  match m.spaces p with
  | none => (EINVAL, m)
  | some s =>
    if execOnly prot then (EINVAL, m)
    else match findMapping s.mappings addr.toNat with
    | none => (EINVAL, m)
    | some (i, v) =>
      match protectPages s.table (protToL2Flags prot) (pagesFrom v.start v.pages) m.mmu with
      | (true, mmu) =>
        (0, { m with mmu }.setSpace p { s with mappings := s.mappings.put i { v with prot } })
      | (false, mmu) => (EFAULT, { m with mmu })

/-! ## `AllocPage` and `FreePage` -/

def sysAllocPage (m : Memory) (p : Pid) : UInt32 × Memory :=
  match m.pages.allocPage with
  | (none, _) => (0 - 1, m)
  | (some addr, pages) =>
    (UInt32.ofNat addr, { m with
      pages, grants := Function.update m.grants (addr / pageSize) (some (.process p)) })

def isFreeableUserPage (addr : Nat) : Bool :=
  addr % pageSize = 0 ∧ kernelEnd ≤ addr ∧ addr < ramEnd

/-- `FreePage`, under the caller's table; without an answer the kernel stops. -/
def sysFreePage (m : Memory) (p : Pid) (addr : UInt32) : Option (UInt32 × Memory) :=
  match m.spaces p with
  | none => some (EINVAL, m)
  | some s =>
    if !isFreeableUserPage addr.toNat then some (EINVAL, m)
    else match m.pages.tryFreePage addr.toNat with
    | (false, _) => some (EINVAL, m)
    | (true, pages) =>
      (m.mmu.kernelFrame s.table addr.toNat).map fun frame =>
        (0, { m with
          pages
          ram := Function.update m.ram frame zeroFrame
          grants := Function.update m.grants (addr.toNat / pageSize) none })

end Memory

end Thumos
