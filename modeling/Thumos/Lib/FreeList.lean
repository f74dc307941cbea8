import Mathlib.Order.CompletePartialOrder
import Mathlib.Order.Interval.Set.Disjoint
import Thumos.Lib.LittleEndian

/-!
# Intrusive lists in byte memory

A free object of an allocator holds, in its first four bytes, the address of
the next free object.  `Chain mem head nodes` says that the words of `mem`
link `nodes` in order from `head` on, with the address 0 at the end.

A chain depends on the link words of its nodes only (`Chain.frame`), so writes
apart from the nodes keep it.  `Extent` is a range of bytes, and `Apart` says
of two extents that one ends before the other begins.
-/

namespace FreeList

open LittleEndian

/-- The bytes `base..base + size`. -/
structure Extent where
  base : Nat
  size : Nat

namespace Extent

def bytes (e : Extent) : Set Nat := Set.Ico e.base (e.base + e.size)

def Apart (e f : Extent) : Prop := e.base + e.size ≤ f.base ∨ f.base + f.size ≤ e.base

def Within (e f : Extent) : Prop := f.base ≤ e.base ∧ e.base + e.size ≤ f.base + f.size

variable {e e' f f' : Extent}

theorem Apart.symm (h : Apart e f) : Apart f e := Or.symm h

theorem Within.rfl : Within e e := ⟨le_rfl, le_rfl⟩

theorem Apart.mono (h : Apart e f) (he : Within e' e) (hf : Within f' f) : Apart e' f' := by
  unfold Apart Within at *
  omega

theorem Apart.disjoint (h : Apart e f) : Disjoint e.bytes f.bytes := by
  rw [bytes, bytes, Set.disjoint_left]
  intro a ha hb
  rw [Set.mem_Ico] at ha hb
  unfold Apart at h
  omega

end Extent

/-! ## Words -/

abbrev Memory := Nat → UInt8

def loadWord (mem : Memory) (a : Nat) : Nat :=
  leValue [mem a, mem (a + 1), mem (a + 2), mem (a + 3)]

def storeWord (mem : Memory) (a v : Nat) : Memory := fun x =>
  if a ≤ x ∧ x < a + 4 then (leBytes 4 v).getD (x - a) 0 else mem x

def zeroBytes (mem : Memory) (a n : Nat) : Memory := fun x =>
  if a ≤ x ∧ x < a + n then 0 else mem x

def Agree (mem mem' : Memory) (e : Extent) : Prop :=
  ∀ x, e.base ≤ x → x < e.base + e.size → mem' x = mem x

theorem loadWord_storeWord (mem : Memory) (a : Nat) {v : Nat} (hv : v < 2 ^ 32) :
    loadWord (storeWord mem a v) a = v := by
  have hbytes : [storeWord mem a v a, storeWord mem a v (a + 1), storeWord mem a v (a + 2),
      storeWord mem a v (a + 3)] = leBytes 4 v := by
    simp [storeWord, leBytes]
  rw [loadWord, hbytes, leValue_leBytes_of_lt (by simpa using hv)]

theorem Agree.loadWord {mem mem' : Memory} {a : Nat} (h : Agree mem mem' ⟨a, 4⟩) :
    loadWord mem' a = loadWord mem a := by
  have hbyte : ∀ i, i < 4 → mem' (a + i) = mem (a + i) := fun i hi =>
    h (a + i) (Nat.le_add_right a i) (Nat.add_lt_add_left hi a)
  have h0 := hbyte 0 (by decide)
  rw [Nat.add_zero] at h0
  rw [FreeList.loadWord, FreeList.loadWord, h0, hbyte 1 (by decide), hbyte 2 (by decide),
    hbyte 3 (by decide)]

theorem agree_storeWord (mem : Memory) {a v : Nat} {e : Extent} (h : e.Apart ⟨a, 4⟩) :
    Agree mem (storeWord mem a v) e := by
  intro x hle hlt
  rw [storeWord, if_neg]
  unfold Extent.Apart at h
  dsimp only at h
  omega

theorem agree_zeroBytes (mem : Memory) {a n : Nat} {e : Extent} (h : e.Apart ⟨a, n⟩) :
    Agree mem (zeroBytes mem a n) e := by
  intro x hle hlt
  rw [zeroBytes, if_neg]
  unfold Extent.Apart at h
  dsimp only at h
  omega

theorem Agree.trans {mem mem' mem'' : Memory} {e : Extent} (h : Agree mem mem' e)
    (h' : Agree mem' mem'' e) : Agree mem mem'' e := fun x hle hlt =>
  (h' x hle hlt).trans (h x hle hlt)

/-! ## Chains -/

/-- The words of `mem` link `nodes` from `head` on. -/
def Chain (mem : Memory) : Nat → List Nat → Prop
  | head, [] => head = 0
  | head, a :: rest => head = a ∧ 0 < a ∧ a < 2 ^ 32 ∧ Chain mem (loadWord mem a) rest

variable {mem mem' : Memory} {head a : Nat} {nodes : List Nat}

theorem Chain.head_lt (h : Chain mem head nodes) : head < 2 ^ 32 := by
  cases nodes with
  | nil => exact lt_of_eq_of_lt h (by decide)
  | cons a rest => exact lt_of_eq_of_lt h.1 h.2.2.1

/-- The chain of an empty list begins with the null address, and only it. -/
theorem Chain.head_eq_zero (h : Chain mem head nodes) : head = 0 ↔ nodes = [] := by
  cases nodes with
  | nil => exact ⟨fun _ => rfl, fun _ => h⟩
  | cons a rest =>
    have hpos := h.2.1
    have hhead := h.1
    exact ⟨fun h0 => by omega, fun hnil => absurd hnil (List.cons_ne_nil a rest)⟩

/-- A chain survives in a memory that agrees with it on the link words. -/
theorem Chain.frame (h : Chain mem head nodes) (hagree : ∀ a ∈ nodes, Agree mem mem' ⟨a, 4⟩) :
    Chain mem' head nodes := by
  induction nodes generalizing head with
  | nil => exact h
  | cons a rest ih =>
    obtain ⟨hhead, hpos, hlt, hrest⟩ := h
    refine ⟨hhead, hpos, hlt, ?_⟩
    rw [(hagree a List.mem_cons_self).loadWord]
    exact ih hrest fun b hb => hagree b (List.mem_cons_of_mem a hb)

theorem Chain.push (h : Chain mem head nodes) (hpos : 0 < a) (hlt : a < 2 ^ 32)
    (hapart : ∀ b ∈ nodes, Extent.Apart ⟨b, 4⟩ ⟨a, 4⟩) :
    Chain (storeWord mem a head) a (a :: nodes) := by
  refine ⟨rfl, hpos, hlt, ?_⟩
  rw [loadWord_storeWord mem a h.head_lt]
  exact h.frame fun b hb => agree_storeWord mem (hapart b hb)

end FreeList
