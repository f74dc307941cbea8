import Thumos.Lfs.Imap

/-!
# The segment manager

The model of `lfs_segment.rs`: which segments are in use, the allocator with
its compaction reserve, and the packed bitmap of a checkpoint.

The manager carries its two invariants.  The bitmap has one bit for each
segment, and `freeCount` is the number of free segments, so the unchecked
`free_count -= 1` of the allocator never goes below zero.
-/

namespace Thumos

open LittleEndian

/-- Segment allocation: `true` in the bitmap means that the segment is used. -/
structure LfsSegmentManager where
  bitmap : List Bool
  segmentCount : Nat
  segmentSize : Nat
  freeCount : Nat
  length_eq : bitmap.length = segmentCount
  free_eq : freeCount = bitmap.count false

variable {i : Nat}

theorem count_false_set_true {l : List Bool} (h : l[i]? = some false) :
    (l.set i true).count false = l.count false - 1 := by
  obtain ⟨hlt, hi⟩ := getElem?_eq_some_iff.mp h
  rw [List.count_set hlt, hi]
  simp

theorem count_false_set_false {l : List Bool} (h : l[i]? = some true) :
    (l.set i false).count false = l.count false + 1 := by
  obtain ⟨hlt, hi⟩ := getElem?_eq_some_iff.mp h
  rw [List.count_set hlt, hi]
  simp

namespace LfsSegmentManager

def take (m : LfsSegmentManager) (i : Nat) (h : m.bitmap[i]? = some false) :
    LfsSegmentManager where
  bitmap := m.bitmap.set i true
  segmentCount := m.segmentCount
  segmentSize := m.segmentSize
  freeCount := m.freeCount - 1
  length_eq := by rw [List.length_set, m.length_eq]
  free_eq := by rw [count_false_set_true h, m.free_eq]

def new (segmentCount segmentSize : Nat) : LfsSegmentManager where
  bitmap := (List.range segmentCount).map (· == 0)
  segmentCount := segmentCount
  segmentSize := segmentSize
  freeCount := segmentCount - 1
  length_eq := by simp
  free_eq := by
    cases segmentCount with
    | zero => rfl
    | succ n =>
      have hall : ∀ b ∈ (List.range n).map fun i => Nat.succ i == 0, b = false := by simp
      rw [List.range_succ_eq_map, List.map_cons, List.map_map]
      show n = List.count false (true :: (List.range n).map fun i => Nat.succ i == 0)
      rw [List.count_cons_of_ne (by simp), List.eq_replicate_of_mem hall]
      simp

def allocateAny (m : LfsSegmentManager) : Option (Nat × LfsSegmentManager) :=
  match h : m.bitmap.findIdx? (· == false) with
  | none => none
  | some i => some (i, m.take i (by
      obtain ⟨hlt, hi, -⟩ := List.findIdx?_eq_some_iff_getElem.mp h
      simpa [hlt] using hi))

/-- The last free segment is kept for the
compactor. -/
def allocate (m : LfsSegmentManager) : Option (Nat × LfsSegmentManager) :=
  if m.freeCount ≤ 1 then none else m.allocateAny

def allocateForCompaction (m : LfsSegmentManager) : Option (Nat × LfsSegmentManager) :=
  m.allocateAny

def free (m : LfsSegmentManager) (i : Nat) : LfsSegmentManager :=
  if h : m.bitmap[i]? = some true then
    { bitmap := m.bitmap.set i false
      segmentCount := m.segmentCount
      segmentSize := m.segmentSize
      freeCount := m.freeCount + 1
      length_eq := by rw [List.length_set, m.length_eq]
      free_eq := by rw [count_false_set_false h, m.free_eq] }
  else m

def markUsed (m : LfsSegmentManager) (i : Nat) : LfsSegmentManager :=
  if h : m.bitmap[i]? = some false then m.take i h else m

def isFree (m : LfsSegmentManager) (i : Nat) : Bool := m.bitmap[i]? == some false

def segmentStartBlock (m : LfsSegmentManager) (i : Nat) : Nat := i * m.segmentSize

/-! ## The packed bitmap -/

def bitsValue : List Bool → Nat
  | [] => 0
  | b :: bs => (if b then 1 else 0) + 2 * bitsValue bs

def packBits : Nat → List Bool → List UInt8
  | 0, _ => []
  | n + 1, bits => UInt8.ofNat (bitsValue (bits.take 8)) :: packBits n (bits.drop 8)

def bitmapBytes (segmentCount : Nat) : Nat := (segmentCount + 7) / 8

def serialize (m : LfsSegmentManager) : List UInt8 :=
  leBytes 4 m.segmentCount ++ leBytes 4 m.segmentSize ++
    packBits (bitmapBytes m.segmentCount) m.bitmap

def unpackBit (data : List UInt8) (i : Nat) : Bool :=
  (data.getD (i / 8) 0).toNat / 2 ^ (i % 8) % 2 == 1

def deserialize (data : List UInt8) (segmentCount segmentSize deviceBlocks : Nat) :
    Except LfsError LfsSegmentManager :=
  if segmentSize = 0 then .error .corrupt
  else if u64Size ≤ segmentCount * segmentSize then .error .corrupt
  else if deviceBlocks < segmentCount * segmentSize then .error .corrupt
  else if shorter data 8 then .error .corrupt
  else if leValue (data.take 4) ≠ segmentCount ∨ leValue ((data.drop 4).take 4) ≠ segmentSize then
    .error .corrupt
  else if shorter (data.drop 8) (bitmapBytes segmentCount) then .error .corrupt
  else
    .ok
      { bitmap := (List.range segmentCount).map (unpackBit (data.drop 8))
        segmentCount := segmentCount
        segmentSize := segmentSize
        freeCount := ((List.range segmentCount).map (unpackBit (data.drop 8))).count false
        length_eq := by simp
        free_eq := rfl }

/-! ## What the operations do to the bitmap -/

@[simp] theorem take_bitmap (m : LfsSegmentManager) (i : Nat) (h : m.bitmap[i]? = some false) :
    (m.take i h).bitmap = m.bitmap.set i true := rfl

variable {m m' : LfsSegmentManager}

theorem allocateAny_eq_some (h : m.allocateAny = some (i, m')) :
    m.bitmap[i]? = some false ∧ m'.bitmap = m.bitmap.set i true ∧
      m'.segmentSize = m.segmentSize ∧ m'.segmentCount = m.segmentCount ∧
      m'.freeCount = m.freeCount - 1 := by
  unfold allocateAny at h
  split at h
  · contradiction
  rename_i j hj
  obtain ⟨rfl, rfl⟩ := Prod.mk.inj (Option.some.inj h)
  obtain ⟨hlt, hfree, -⟩ := List.findIdx?_eq_some_iff_getElem.mp hj
  exact ⟨by simpa [hlt] using hfree, rfl, rfl, rfl, rfl⟩

theorem allocate_eq_some (h : m.allocate = some (i, m')) :
    1 < m.freeCount ∧ m.allocateAny = some (i, m') := by
  unfold allocate at h
  split at h
  · contradiction
  · rename_i hfree
    exact ⟨by omega, h⟩

@[simp] theorem free_segmentSize (m : LfsSegmentManager) (i : Nat) :
    (m.free i).segmentSize = m.segmentSize := by
  unfold free
  split <;> rfl

@[simp] theorem free_segmentCount (m : LfsSegmentManager) (i : Nat) :
    (m.free i).segmentCount = m.segmentCount := by
  unfold free
  split <;> rfl

theorem free_bitmap (m : LfsSegmentManager) (h : m.bitmap[i]? = some true) :
    (m.free i).bitmap = m.bitmap.set i false := by
  unfold free
  rw [dif_pos h]

theorem free_getElem?_ne (m : LfsSegmentManager) {i j : Nat} (h : j ≠ i) :
    (m.free i).bitmap[j]? = m.bitmap[j]? := by
  unfold free
  split
  · exact List.getElem?_set_ne (Ne.symm h)
  · rfl

theorem free_after_take (h : m.allocateAny = some (i, m')) : (m'.free i).bitmap = m.bitmap := by
  obtain ⟨hfree, hset, -⟩ := allocateAny_eq_some h
  obtain ⟨hlt, hi⟩ := List.getElem?_eq_some_iff.mp hfree
  have hused : m'.bitmap[i]? = some true := by
    rw [hset, List.getElem?_set_self hlt]
  rw [free_bitmap m' hused, hset, List.set_set, ← hi, List.set_getElem_self]

end LfsSegmentManager

end Thumos
