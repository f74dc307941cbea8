import Thumos.Storage.Block

/-!
# Devices seen sector by sector

The secrets preamble and the boot gate move single sectors and short runs of
them, so here the medium is kept as sectors.  `readError` and `writeError` say
which sectors cannot be moved.  `reads` records the ranges that were asked of the
medium, oldest first.  Nothing reads it.

`PartitionBlockDevice` is the view of a part of a device.
-/

namespace Thumos

abbrev Sector := Vector UInt8 sectorSize

def allZero (bytes : List UInt8) : Bool := bytes.all (· == 0)

structure SectorDevice where
  sectorCount : Nat
  /-- The number of sectors is a `u64`. -/
  sectorCount_lt : sectorCount < u64Size
  sectors : Nat → Sector
  readError : Nat → Option BlockError
  writeError : Nat → Option BlockError
  reads : List (Nat × Nat)

namespace SectorDevice

def bytes (d : SectorDevice) (lba count : Nat) : List UInt8 :=
  (List.range count).flatMap fun i => (d.sectors (lba + i)).toList

/-- `BlockDevice::read_sectors` into a buffer of `count` sectors. -/
def readSectors (d : SectorDevice) (lba count : Nat) :
    Except BlockError (List UInt8) × SectorDevice :=
  if d.sectorCount < lba + count then (.error .outOfBounds, d)
  else
    let d' := { d with reads := d.reads ++ [(lba, count)] }
    match (List.range count).findSome? fun i => d.readError (lba + i) with
    | some e => (.error e, d')
    | none => (.ok (d.bytes lba count), d')

/-- `BlockDevice::read_sectors` into a buffer of one sector. -/
def readSector (d : SectorDevice) (lba : Nat) : Except BlockError Sector × SectorDevice :=
  match d.readSectors lba 1 with
  | (.ok _, d') => (.ok (d.sectors lba), d')
  | (.error e, d') => (.error e, d')

def put (d : SectorDevice) (lba : Nat) (data : Sector) : SectorDevice :=
  { d with sectors := fun l => if l = lba then data else d.sectors l }

def writeSector (d : SectorDevice) (lba : Nat) (data : Sector) :
    Except BlockError Unit × SectorDevice :=
  if d.sectorCount < lba + 1 then (.error .outOfBounds, d)
  else
    match d.writeError lba with
    | some e => (.error e, d)
    | none => (.ok (), d.put lba data)

def Readable (d : SectorDevice) (lba count : Nat) : Prop :=
  lba + count ≤ d.sectorCount ∧ ∀ i < count, d.readError (lba + i) = none

instance (d : SectorDevice) (lba count : Nat) : Decidable (d.Readable lba count) :=
  inferInstanceAs (Decidable (_ ∧ _))

variable {d d' : SectorDevice} {lba count : Nat}

inductive ReadStep (d : SectorDevice) (lba count : Nat) :
    Except BlockError (List UInt8) × SectorDevice → Prop where
  | refused (hlong : d.sectorCount < lba + count) : ReadStep d lba count (.error .outOfBounds, d)
  | failed (hfits : lba + count ≤ d.sectorCount) (hbad : ¬ d.Readable lba count) (e : BlockError) :
    ReadStep d lba count (.error e, { d with reads := d.reads ++ [(lba, count)] })
  | done (hread : d.Readable lba count) :
    ReadStep d lba count (.ok (d.bytes lba count), { d with reads := d.reads ++ [(lba, count)] })

theorem readStep (d : SectorDevice) (lba count : Nat) :
    ReadStep d lba count (d.readSectors lba count) := by
  unfold readSectors
  split
  · rename_i hlong
    exact .refused hlong
  rename_i hfits
  have hfits : lba + count ≤ d.sectorCount := by omega
  split
  · rename_i e he
    obtain ⟨i, hi, hie⟩ := List.exists_of_findSome?_eq_some he
    refine .failed hfits (fun hread => ?_) e
    rw [hread.2 i (List.mem_range.mp hi)] at hie
    cases hie
  · rename_i hnone
    refine .done ⟨hfits, fun i hi => ?_⟩
    exact List.findSome?_eq_none_iff.mp hnone i (List.mem_range.mpr hi)

theorem readSectors_of_readable (h : d.Readable lba count) :
    d.readSectors lba count =
      (.ok (d.bytes lba count), { d with reads := d.reads ++ [(lba, count)] }) := by
  generalize hr : d.readSectors lba count = r
  cases hr ▸ d.readStep lba count with
  | refused hlong =>
    have := h.1
    omega
  | failed _ hbad => exact absurd h hbad
  | done => rfl

theorem readSector_of_readable (h : d.Readable lba 1) :
    d.readSector lba = (.ok (d.sectors lba), { d with reads := d.reads ++ [(lba, 1)] }) := by
  rw [readSector, readSectors_of_readable h]

theorem readSector_ok {s : Sector} (h : d.readSector lba = (.ok s, d')) :
    d.Readable lba 1 ∧ s = d.sectors lba ∧ d' = { d with reads := d.reads ++ [(lba, 1)] } := by
  rw [readSector] at h
  generalize hr : d.readSectors lba 1 = r at h
  cases hr ▸ d.readStep lba 1 with
  | refused => cases h
  | failed => cases h
  | done hread =>
    cases h
    exact ⟨hread, rfl, rfl⟩

theorem length_bytes (d : SectorDevice) (lba count : Nat) :
    (d.bytes lba count).length = count * sectorSize := by
  simp only [bytes, List.length_flatMap, Vector.length_toList, List.map_const', List.length_range,
    List.sum_replicate_nat]

theorem bytes_add (d : SectorDevice) (lba a b : Nat) :
    d.bytes lba (a + b) = d.bytes lba a ++ d.bytes (lba + a) b := by
  simp only [bytes, List.range_add, List.flatMap_append, List.flatMap_map, add_assoc]

theorem readable_add {a b : Nat} :
    d.Readable lba (a + b) ↔ d.Readable lba a ∧ d.Readable (lba + a) b := by
  constructor
  · rintro ⟨hfits, hread⟩
    refine ⟨⟨by omega, fun i hi => hread i (by omega)⟩, by omega, fun i hi => ?_⟩
    rw [add_assoc]
    exact hread (a + i) (by omega)
  · rintro ⟨⟨-, hread⟩, hfits, hread'⟩
    refine ⟨by omega, fun i hi => ?_⟩
    by_cases hia : i < a
    · exact hread i hia
    · have := hread' (i - a) (by omega)
      rwa [add_assoc, Nat.add_sub_cancel' (not_lt.mp hia)] at this

end SectorDevice

/-! ## Partitions -/

structure PartitionBlockDevice where
  inner : SectorDevice
  baseLba : Nat
  sectorCount : Nat

namespace PartitionBlockDevice

/-- The physical address of a run of sectors, checked against the partition and the
device. -/
def translate (p : PartitionBlockDevice) (lba count : Nat) : Except BlockError Nat :=
  if lba + count ≥ u64Size then .error .outOfBounds
  else if lba + count > p.sectorCount then .error .outOfBounds
  else if p.baseLba + lba ≥ u64Size then .error .outOfBounds
  else if p.baseLba + lba + count ≥ u64Size then .error .outOfBounds
  else if p.baseLba + lba + count > p.inner.sectorCount then .error .outOfBounds
  else .ok (p.baseLba + lba)

def readSectors (p : PartitionBlockDevice) (lba count : Nat) :
    Except BlockError (List UInt8) × PartitionBlockDevice :=
  match p.translate lba count with
  | .error e => (.error e, p)
  | .ok phys =>
    let (result, inner) := p.inner.readSectors phys count
    (result, { p with inner := inner })

variable {p : PartitionBlockDevice} {lba count : Nat}

theorem translate_ok {phys : Nat} (h : p.translate lba count = .ok phys) :
    phys = p.baseLba + lba ∧ lba + count ≤ p.sectorCount ∧
      p.baseLba + lba + count ≤ p.inner.sectorCount := by
  rw [translate] at h
  split at h
  · cases h
  split at h
  · cases h
  split at h
  · cases h
  split at h
  · cases h
  split at h
  · cases h
  cases h
  exact ⟨rfl, by omega, by omega⟩

theorem translate_of_fits (hpart : lba + count ≤ p.sectorCount)
    (hdev : p.baseLba + lba + count ≤ p.inner.sectorCount) :
    p.translate lba count = .ok (p.baseLba + lba) := by
  have hlt := p.inner.sectorCount_lt
  rw [translate, if_neg (by omega), if_neg (by omega), if_neg (by omega), if_neg (by omega),
    if_neg (by omega)]

inductive ReadStep (p : PartitionBlockDevice) (lba count : Nat) :
    Except BlockError (List UInt8) × PartitionBlockDevice → Prop where
  | failed (hbad : ¬ p.inner.Readable (p.baseLba + lba) count) (e : BlockError)
    (reads : List (Nat × Nat)) (hreads : reads = [] ∨ reads = [(p.baseLba + lba, count)]) :
    ReadStep p lba count
      (.error e, { p with inner := { p.inner with reads := p.inner.reads ++ reads } })
  | done (hread : p.inner.Readable (p.baseLba + lba) count) :
    ReadStep p lba count (.ok (p.inner.bytes (p.baseLba + lba) count),
      { p with inner := { p.inner with reads := p.inner.reads ++ [(p.baseLba + lba, count)] } })

theorem readStep (hpart : lba + count ≤ p.sectorCount) :
    ReadStep p lba count (p.readSectors lba count) := by
  by_cases hdev : p.baseLba + lba + count ≤ p.inner.sectorCount
  · rw [readSectors, translate_of_fits hpart hdev]
    dsimp only
    generalize hr : p.inner.readSectors (p.baseLba + lba) count = r
    cases hr ▸ p.inner.readStep (p.baseLba + lba) count with
    | refused hlong => omega
    | failed _ hbad e => exact .failed hbad e _ (.inr rfl)
    | done hread => exact .done hread
  · have hbad : ¬ p.inner.Readable (p.baseLba + lba) count := fun h => hdev h.1
    rw [readSectors]
    cases ht : p.translate lba count with
    | error e =>
      have hstep := ReadStep.failed hbad e [] (.inl rfl)
      rwa [List.append_nil] at hstep
    | ok phys => exact absurd (translate_ok ht).2.2 hdev

end PartitionBlockDevice

end Thumos
