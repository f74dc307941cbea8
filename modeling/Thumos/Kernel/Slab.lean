import Mathlib.Tactic.FinCases
import Thumos.Kernel.Page
import Thumos.Lib.FreeList

/-!
# The slab allocator

The model of `slab.rs`, the kernel's global allocator.  Requests of up to 2048
bytes are served from seven size classes: a class claims whole pages, carves
them into objects and keeps the free objects on an intrusive list.  Larger
requests take whole pages.

The free list lives in the memory that the allocator hands out, so the model
keeps the memory, byte by byte, next to the page allocator.  A null pointer is
the address 0.
-/

namespace Thumos

open FreeList

/-- A `core::alloc::Layout`: the alignment is a power of two, and the size
rounded up to it does not exceed `isize::MAX`. -/
structure Layout where
  size : Nat
  align : Nat
  align_pow : ∃ k, align = 2 ^ k
  size_le : size + (align - 1) ≤ 2 ^ 31 - 1

def slabSizes : List Nat := [32, 64, 128, 256, 512, 1024, 2048]

def slabSize (c : Fin 7) : Nat := slabSizes.get c

abbrev maxSlabs : Nat := 32

structure Arena where
  pages : Pages
  mem : FreeList.Memory

/-- `SlabClass`.  `slabPages` holds the first `slab_count` entries. -/
structure SlabClass where
  freeList : Nat
  slabPages : List Nat
  objSize : Nat
  allocCount : UInt64
  freeCount : UInt64

namespace SlabClass

def zeroed : SlabClass := ⟨0, [], 0, 0, 0⟩

/-- One turn of the loop of `refill`: object `i` of the page goes to the front
of the free list. -/
def link (page objSize : Nat) (st : FreeList.Memory × Nat) (i : Nat) : FreeList.Memory × Nat :=
  (storeWord st.1 (page + i * objSize) st.2, page + i * objSize)

def refill (c : SlabClass) (s : Arena) : Bool × SlabClass × Arena :=
  if maxSlabs ≤ c.slabPages.length then (false, c, s)
  else
    match s.pages.allocPage with
    | (none, pages) => (false, c, { s with pages := pages })
    | (some page, pages) =>
      let st := (List.range (pageSize / c.objSize)).reverse.foldl (link page c.objSize)
        (s.mem, c.freeList)
      (true, { c with slabPages := c.slabPages ++ [page], freeList := st.2 }, ⟨pages, st.1⟩)

/-- The end of `alloc_obj`: the first object of the free list. -/
def pop (c : SlabClass) (mem : FreeList.Memory) : SlabClass :=
  { c with freeList := loadWord mem c.freeList, allocCount := c.allocCount + 1 }

def allocObj (c : SlabClass) (s : Arena) : Nat × SlabClass × Arena :=
  if c.freeList = 0 then
    match c.refill s with
    | (false, c', s') => (0, c', s')
    | (true, c', s') => (c'.freeList, c'.pop s'.mem, s')
  else (c.freeList, c.pop s.mem, s)

/-- The object is zeroed and goes to the front of the free
list. -/
def deallocObj (c : SlabClass) (s : Arena) (ptr : Nat) : SlabClass × Arena :=
  ({ c with freeList := ptr, freeCount := c.freeCount + 1 },
    { s with mem := storeWord (zeroBytes s.mem ptr c.objSize) ptr c.freeList })

end SlabClass

structure SlabAllocator where
  classes : Fin 7 → SlabClass
  largeAllocCount : UInt64
  largeFreeCount : UInt64
  initialized : Bool

def classFor (size : Nat) : Option (Fin 7) :=
  (List.finRange 7).find? fun c => size ≤ slabSize c

namespace Layout

/-- The bytes that a layout is charged: `layout.size().max(layout.align())`. -/
def charged (l : Layout) : Nat := max l.size l.align

def pageCount (l : Layout) : Nat := (l.charged + pageSize - 1) / pageSize

/-- The bytes set aside for a request: an object of its class or whole
pages. -/
def reserved (l : Layout) : Nat :=
  match classFor l.charged with
  | some c => slabSize c
  | none => l.pageCount * pageSize

end Layout

namespace SlabAllocator

def new : SlabAllocator := ⟨fun _ => SlabClass.zeroed, 0, 0, false⟩

def init (a : SlabAllocator) : SlabAllocator :=
  { a with classes := fun c => { a.classes c with objSize := slabSize c }, initialized := true }

def setClass (a : SlabAllocator) (c : Fin 7) (cls : SlabClass) : SlabAllocator :=
  { a with classes := Function.update a.classes c cls }

/-- `alloc_inner`, on the page allocator that `GlobalAlloc` passes it. -/
def allocInner (a : SlabAllocator) (s : Arena) (l : Layout) : Nat × SlabAllocator × Arena :=
  if a.initialized = false then (0, a, s)
  else
    match classFor l.charged with
    | some c =>
      let res := (a.classes c).allocObj s
      (res.1, a.setClass c res.2.1, res.2.2)
    | none =>
      let res := if l.pageCount = 1 then s.pages.allocPage else s.pages.allocContiguous l.pageCount
      match res with
      | (some addr, pages) =>
        (addr, { a with largeAllocCount := a.largeAllocCount + 1 }, { s with pages := pages })
      | (none, pages) => (0, a, { s with pages := pages })

/-- `dealloc_inner`, on the page allocator that `GlobalAlloc` passes it. -/
def deallocInner (a : SlabAllocator) (s : Arena) (ptr : Nat) (l : Layout) :
    SlabAllocator × Arena :=
  if a.initialized = false ∨ ptr = 0 then (a, s)
  else
    match classFor l.charged with
    | some c =>
      let res := (a.classes c).deallocObj s ptr
      (a.setClass c res.1, res.2)
    | none =>
      let pages := if l.pageCount = 1 then s.pages.freePage ptr
        else (s.pages.freeContiguous ptr l.pageCount).2
      ({ a with largeFreeCount := a.largeFreeCount + 1 }, { s with pages := pages })

end SlabAllocator

/-! ## Sizes and alignments -/

theorem slabSize_spec (c : Fin 7) :
    4 ≤ slabSize c ∧ slabSize c ∣ pageSize ∧ ∃ k, slabSize c = 2 ^ k := by
  fin_cases c
  · exact ⟨by decide, by decide, 5, rfl⟩
  · exact ⟨by decide, by decide, 6, rfl⟩
  · exact ⟨by decide, by decide, 7, rfl⟩
  · exact ⟨by decide, by decide, 8, rfl⟩
  · exact ⟨by decide, by decide, 9, rfl⟩
  · exact ⟨by decide, by decide, 10, rfl⟩
  · exact ⟨by decide, by decide, 11, rfl⟩

theorem le_slabSize_of_classFor {size : Nat} {c : Fin 7} (h : classFor size = some c) :
    size ≤ slabSize c := by
  have hfound := List.find?_some h
  exact of_decide_eq_true hfound

theorem two_pow_dvd_of_le {a b : Nat} (ha : ∃ k, a = 2 ^ k) (hb : ∃ k, b = 2 ^ k) (h : a ≤ b) :
    a ∣ b := by
  obtain ⟨j, rfl⟩ := ha
  obtain ⟨k, rfl⟩ := hb
  exact pow_dvd_pow 2 ((Nat.pow_le_pow_iff_right (by decide)).mp h)

namespace Layout

variable (l : Layout)

theorem size_le_charged : l.size ≤ l.charged := le_max_left _ _

theorem align_le_charged : l.align ≤ l.charged := le_max_right _ _

theorem charged_pos : 0 < l.charged := by
  obtain ⟨k, hk⟩ := l.align_pow
  have hpos : 0 < l.align := hk ▸ Nat.two_pow_pos k
  exact lt_of_lt_of_le hpos l.align_le_charged

theorem charged_le : l.charged ≤ 2 ^ 31 := by
  have hsize := l.size_le
  rw [charged, Nat.max_le]
  omega

theorem charged_le_pages : l.charged ≤ l.pageCount * pageSize := by
  rw [pageCount]
  simp only [pageSize]
  omega

theorem pageCount_pos : 0 < l.pageCount := by
  have hpos := l.charged_pos
  rw [pageCount]
  simp only [pageSize]
  omega

theorem pageCount_le : l.pageCount ≤ 2 ^ 19 := by
  have hle := l.charged_le
  rw [pageCount]
  simp only [pageSize]
  omega

theorem size_le_reserved : l.size ≤ l.reserved := by
  have hsize := l.size_le_charged
  rw [reserved]
  split
  · rename_i c hc
    exact hsize.trans (le_slabSize_of_classFor hc)
  · exact hsize.trans l.charged_le_pages

end Layout

end Thumos
