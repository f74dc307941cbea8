import Thumos.Kernel.Page
import Thumos.Lib.Ownership

/-!
# Page tables

The model of `mmu.rs`: the first-level tables of the processes, the pool of
second-level tables, and the functions that build and change them.

A first-level descriptor is absent, a section of one megabyte or the address of
a second-level table, which is a slot of the pool or one of the two tables of
the kernel image.  The kernel's own first-level table is written once at boot,
so it is a constant.  A second-level descriptor is a word whose upper twenty
bits are the number of the frame and whose lower twelve bits are attributes; it
is kept as these two parts.
-/

namespace Thumos

/-! ## Descriptors -/

abbrev Attrs := BitVec 12

namespace PageFlags

def smallPage : Attrs := 0x002

def apFull : Attrs := 0x030

def apReadOnly : Attrs := 0x020

def apKernelOnly : Attrs := 0x010

def apKernelRo : Attrs := 0x210

def xn : Attrs := 0x001

def shareable : Attrs := 0x400

def normalWbWa : Attrs := 0x04C

/-- `NG`, the mark of a page that a process owns. -/
def ng : Attrs := 0x800

end PageFlags

open PageFlags

def protRead : UInt32 := 0x1

def protWrite : UInt32 := 0x2

def protExec : UInt32 := 0x4

def protToL2Flags (prot : UInt32) : Attrs :=
  let attrs := smallPage ||| shareable ||| normalWbWa ||| ng
  let attrs := attrs |||
    if prot &&& protWrite ≠ 0 then apFull
    else if prot &&& protRead ≠ 0 then apReadOnly
    else apKernelOnly
  if prot &&& protWrite ≠ 0 ∨ prot &&& protExec = 0 then attrs ||| xn else attrs

def kernelDefaultPage : Attrs := smallPage ||| shareable ||| normalWbWa ||| apKernelOnly ||| xn

structure L2Entry where
  page : Nat
  attrs : Attrs
deriving DecidableEq

namespace L2Entry

def zero : L2Entry := ⟨0, 0⟩

def isUser (e : L2Entry) : Bool := e.attrs &&& smallPage ≠ 0 ∧ e.attrs &&& ng ≠ 0

/-- The lowest two bits of the word are not both clear. -/
def isMapped (e : L2Entry) : Bool := e.attrs &&& 0x003 ≠ 0

end L2Entry

inductive MemoryType where
  | ram
  | device
deriving DecidableEq

abbrev kernelSections : Nat := 2

abbrev l2PoolSize : Nat := 64

abbrev maxAddrSpaces : Nat := 16

inductive L2Ref where
  | kernel (mb : Fin kernelSections)
  | pool (slot : Fin l2PoolSize)
deriving DecidableEq

inductive L1Desc where
  | absent
  | sect (mb : Nat) (type : MemoryType)
  | coarse (l2 : L2Ref)
deriving DecidableEq

abbrev L1Table := Fin 4096 → L1Desc

abbrev L2Table := Fin 256 → L2Entry

abbrev kernelMb : Nat := 0x400

/-- The kernel's first-level table as `init_and_enable` fills it. -/
def kernelL1 : L1Table := fun i =>
  if i.val < 0x300 then .sect i .device
  else if i.val < kernelMb then .absent
  else if i.val < kernelMb + kernelSections then .coarse (.kernel (Fin.ofNat _ (i - kernelMb)))
  else if i.val < 0x800 then .sect i .ram
  else .absent

/-- The boundaries of the kernel image that the linker sets. -/
structure KernelImage where
  textStart : Nat
  etext : Nat
  erodata : Nat

def KernelImage.wxPageAttrs (k : KernelImage) (va : Nat) : Attrs :=
  if va ≥ k.textStart ∧ va < k.etext then apKernelRo
  else if va ≥ k.etext ∧ va < k.erodata then apKernelRo ||| xn
  else apKernelOnly ||| xn

/-- `map_kernel_wx` -/
def KernelImage.tables (k : KernelImage) : Fin kernelSections → L2Table := fun s i =>
  let page := ramStart / pageSize + s * 256 + i
  ⟨page, smallPage ||| shareable ||| normalWbWa ||| k.wxPageAttrs (page * pageSize)⟩

/-- The statics of `mmu.rs` that change after boot. -/
structure Mmu where
  tables : Fin maxAddrSpaces → L1Table
  spaceAlloc : Fin maxAddrSpaces → Bool
  l2Tables : Fin l2PoolSize → L2Table
  l2Alloc : Fin l2PoolSize → Bool
  kernelL2 : Fin kernelSections → L2Table

def l1Index (va : Nat) : Fin 4096 := Fin.ofNat 4096 (va / 2 ^ 20)

def l2Index (va : Nat) : Fin 256 := Fin.ofNat 256 (va / pageSize)

namespace Mmu

def boot (k : KernelImage) : Mmu where
  tables := fun _ _ => .absent
  spaceAlloc := fun _ => false
  l2Tables := fun _ _ => .zero
  l2Alloc := fun _ => false
  kernelL2 := k.tables

/-! ## Reads and writes -/

def entryAt (m : Mmu) : L2Ref → Fin 256 → L2Entry
  | .kernel s, i => m.kernelL2 s i
  | .pool slot, i => m.l2Tables slot i

def fill (m : Mmu) (l2 : L2Ref) (table : L2Table) : Mmu :=
  match l2 with
  | .kernel s => { m with kernelL2 := Function.update m.kernelL2 s table }
  | .pool slot => { m with l2Tables := Function.update m.l2Tables slot table }

def writeEntry (m : Mmu) (l2 : L2Ref) (i : Fin 256) (e : L2Entry) : Mmu :=
  m.fill l2 (Function.update (m.entryAt l2) i e)

def setL1 (m : Mmu) (t : Fin maxAddrSpaces) (i : Fin 4096) (d : L1Desc) : Mmu :=
  { m with tables := Function.update m.tables t (Function.update (m.tables t) i d) }

/-! ## The pool of second-level tables -/

def allocL2Table (m : Mmu) : Option (Fin l2PoolSize × Mmu) :=
  ((List.finRange l2PoolSize).find? fun slot => !m.l2Alloc slot).map fun slot =>
    (slot, { m with
      l2Alloc := Function.update m.l2Alloc slot true
      l2Tables := Function.update m.l2Tables slot fun _ => .zero })

/-- Tables of the kernel image are no slots of the pool. -/
def freeL2Table (m : Mmu) : L2Ref → Mmu
  | .kernel _ => m
  | .pool slot => { m with l2Alloc := Function.update m.l2Alloc slot false }

/-! ## Pages -/

def mapPage (m : Mmu) (t : Fin maxAddrSpaces) (va phys : Nat) (attrs : Attrs) : Bool × Mmu :=
  match m.tables t (l1Index va) with
  | .coarse l2 => (true, m.writeEntry l2 (l2Index va) ⟨phys / pageSize, attrs⟩)
  | .absent =>
    match m.allocL2Table with
    | none => (false, m)
    | some (slot, m) =>
      (true, (m.setL1 t (l1Index va) (.coarse (.pool slot))).writeEntry (.pool slot) (l2Index va)
        ⟨phys / pageSize, attrs⟩)
  | .sect _ _ => (false, m)

/-- The second-level table that maps megabyte `mb` to itself for the kernel
only. -/
def identityTable (mb : Nat) : L2Table := fun i => ⟨mb * 256 + i, kernelDefaultPage⟩

def shatterSection (m : Mmu) (t : Fin maxAddrSpaces) (va : Nat) : Bool × Mmu :=
  match m.tables t (l1Index va) with
  | .coarse _ => (true, m)
  | .absent => (false, m)
  | .sect mb _ =>
    match m.allocL2Table with
    | none => (false, m)
    | some (slot, m) =>
      (true, (m.fill (.pool slot) (identityTable mb)).setL1 t (l1Index va) (.coarse (.pool slot)))

def ensurePageMappable (m : Mmu) (t : Fin maxAddrSpaces) (va : Nat) : Bool × Mmu :=
  match m.tables t (l1Index va) with
  | .sect _ _ => m.shatterSection t va
  | _ => (true, m)

/-- `shatter_section(t, va) && map_page(t, va, phys, attrs)` -/
def shatterAndMap (m : Mmu) (t : Fin maxAddrSpaces) (va phys : Nat) (attrs : Attrs) :
    Bool × Mmu :=
  match m.shatterSection t va with
  | (false, m) => (false, m)
  | (true, m) => m.mapPage t va phys attrs

/-- `ensure_page_mappable(t, va) && map_page(t, va, phys, attrs)` -/
def ensureAndMap (m : Mmu) (t : Fin maxAddrSpaces) (va phys : Nat) (attrs : Attrs) : Bool × Mmu :=
  match m.ensurePageMappable t va with
  | (false, m) => (false, m)
  | (true, m) => m.mapPage t va phys attrs

def resetShatteredSection (m : Mmu) (t : Fin maxAddrSpaces) (va : Nat) : Bool × Mmu :=
  match m.tables t (l1Index va) with
  | .coarse l2 => (true, m.fill l2 (identityTable (va / 2 ^ 20)))
  | _ => (false, m)

def readL2Entry (m : Mmu) (t : Fin maxAddrSpaces) (va : Nat) : Option L2Entry :=
  match m.tables t (l1Index va) with
  | .coarse l2 => some (m.entryAt l2 (l2Index va))
  | _ => none

def readL2Phys (m : Mmu) (t : Fin maxAddrSpaces) (va : Nat) : Option Nat :=
  match m.tables t (l1Index va) with
  | .coarse l2 =>
    let e := m.entryAt l2 (l2Index va)
    if e.isMapped then some (e.page * pageSize) else none
  | _ => none

def updatePageProt (m : Mmu) (t : Fin maxAddrSpaces) (va : Nat) (attrs : Attrs) : Bool × Mmu :=
  match m.tables t (l1Index va) with
  | .coarse l2 =>
    let old := m.entryAt l2 (l2Index va)
    if old.isMapped then (true, m.writeEntry l2 (l2Index va) ⟨old.page, attrs⟩) else (false, m)
  | _ => (false, m)

/-- A table without entries goes back to the pool. -/
def unmapPage (m : Mmu) (t : Fin maxAddrSpaces) (va : Nat) : Mmu :=
  match m.tables t (l1Index va) with
  | .coarse l2 =>
    let m := m.writeEntry l2 (l2Index va) .zero
    if (List.finRange 256).all fun i => m.entryAt l2 i = .zero then
      (m.setL1 t (l1Index va) .absent).freeL2Table l2
    else m
  | _ => m

/-! ## Address spaces -/

def allocAddrSpace (m : Mmu) : Option (Fin maxAddrSpaces × Mmu) :=
  ((List.finRange maxAddrSpaces).find? fun t => !m.spaceAlloc t).map fun t =>
    (t, { m with
      spaceAlloc := Function.update m.spaceAlloc t true
      tables := Function.update m.tables t fun _ => .absent })

def cloneAddrSpace (m : Mmu) (src : L1Table) (dst : Fin maxAddrSpaces) : Mmu :=
  { m with tables := Function.update m.tables dst src }

def freeL1Entry (m : Mmu) (t : Fin maxAddrSpaces) (i : Fin 4096) : Mmu :=
  match m.tables t i with
  | .coarse l2 => m.freeL2Table l2
  | _ => m

def freeAddrSpace (m : Mmu) (t : Fin maxAddrSpaces) : Mmu :=
  let m := (List.finRange 4096).foldl (fun m i => m.freeL1Entry t i) m
  { m with spaceAlloc := Function.update m.spaceAlloc t false }

def newAddrSpace (m : Mmu) : Option (Fin maxAddrSpaces × Mmu) :=
  m.allocAddrSpace.map fun (t, m) => (t, m.cloneAddrSpace kernelL1 t)

section Walk

variable {σ : Type*} (mmu : σ → Mmu) (f : σ → Nat → L2Entry → Bool × σ)

/-- The inner loop of `for_each_user_page`, over a table of megabyte `mb`. -/
def walkL2 (l2 : L2Ref) (mb : Fin 4096) : List (Fin 256) → σ → Bool × σ
  | [], s => (true, s)
  | i :: rest, s =>
    let e := (mmu s).entryAt l2 i
    if e.isUser then
      match f s (mb * 2 ^ 20 + i * pageSize) e with
      | (true, s) => walkL2 l2 mb rest s
      | (false, s) => (false, s)
    else walkL2 l2 mb rest s

def walkL1 (t : Fin maxAddrSpaces) : List (Fin 4096) → σ → Bool × σ
  | [], s => (true, s)
  | mb :: rest, s =>
    match (mmu s).tables t mb with
    | .coarse l2 =>
      match walkL2 mmu f l2 mb (List.finRange 256) s with
      | (true, s) => walkL1 t rest s
      | (false, s) => (false, s)
    | _ => walkL1 t rest s

/-- The loops read the tables as `f` leaves them, and
stop when `f` answers `false`. -/
def forEachUserPage (t : Fin maxAddrSpaces) (s : σ) : Bool × σ :=
  walkL1 mmu f t (List.finRange 4096) s

end Walk

end Mmu

end Thumos
