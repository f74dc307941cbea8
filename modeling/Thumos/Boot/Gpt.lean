import Thumos.Lib.Fields
import Thumos.Storage.Sectors

/-!
# The partition table

`findPartition` reads the GPT header in sector 1 and the table of entries, checks the
CRC of both, and looks for the first used entry with a given name.

The table is described apart from the parser: `CrcsMatch` and `FirstNamed` say what is
on the device, and `Supported` lists what the parser asks of a header besides: the
signature, the ranges of the sizes, and sectors that can be read.
-/

namespace Thumos

open LittleEndian Fields

inductive GptError where
  | badSignature
  | headerCrcMismatch
  | entriesCrcMismatch
  | malformed
  | notFound
  | io
  | invalidExtent
  deriving DecidableEq

/-- The sectors of a partition, the last one included. -/
structure PartitionInfo where
  firstLba : Nat
  lastLba : Nat
  forward : firstLba ≤ lastLba
  bounded : lastLba < u64Size - 1

def PartitionInfo.sectors (p : PartitionInfo) : Nat := p.lastLba - p.firstLba + 1

namespace Gpt

def crcStep (crc : UInt32) : UInt32 := (crc >>> 1) ^^^ (0xEDB88320 &&& (0 - (crc &&& 1)))

def crcByte (crc : UInt32) (byte : UInt8) : UInt32 := Nat.repeat crcStep 8 (crc ^^^ byte.toUInt32)

/-- CRC-32 with the reflected polynomial `0xEDB88320`. -/
def crc32 (data : List UInt8) : UInt32 := ~~~ data.foldl crcByte 0xFFFFFFFF

-- the check value of CRC-32, over the digits 1 to 9
example : crc32 [49, 50, 51, 52, 53, 54, 55, 56, 57] = 0xCBF43926 := by decide +kernel

def maxEntries : Nat := 128

def efiPart : List UInt8 := [69, 70, 73, 32, 80, 65, 82, 84]

def le32 (buf : List UInt8) (off : Nat) : Nat := leValue (bytesAt buf off 4)
def le64 (buf : List UInt8) (off : Nat) : Nat := leValue (bytesAt buf off 8)

theorem le64_lt (buf : List UInt8) (off : Nat) : le64 buf off < u64Size :=
  lt_of_lt_of_le (leValue_lt _) (Nat.pow_le_pow_right (by decide) (bytesAt_length_le buf off 8))

/-! ## The fields of the header -/

section

variable (header : Sector)

def headerSize : Nat := le32 header.toList 12
def storedHeaderCrc : Nat := le32 header.toList 16
def entriesLba : Nat := le64 header.toList 72
def entryCount : Nat := le32 header.toList 80
def entrySize : Nat := le32 header.toList 84
def storedEntriesCrc : Nat := le32 header.toList 88
def entriesBytes : Nat := entryCount header * entrySize header
def entriesSectors : Nat := (entriesBytes header + (sectorSize - 1)) / sectorSize

def headerCrc : UInt32 :=
  crc32 ((copyAt header 16 (List.replicate 4 0)).toList.take (headerSize header))

end

/-! ## The parser -/

def nameUtf16 (name : List UInt8) : List UInt8 :=
  (name.flatMap fun b => [b, 0]) ++ List.replicate (72 - 2 * name.length) 0

-- "boot"
example : nameUtf16 [98, 111, 111, 116] =
    [98, 0, 111, 0, 111, 0, 116, 0] ++ List.replicate 64 0 := rfl

def entryMatches (name entry : List UInt8) : Bool :=
  !allZero (entry.take 16) && bytesAt entry 56 72 == nameUtf16 name

/-- The extent of a matching entry, if it is a forward one. -/
def entryExtent (entry : List UInt8) : Except GptError PartitionInfo :=
  let firstLba := le64 entry 32
  let lastLba := le64 entry 40
  if h : lastLba < firstLba ∨ lastLba = u64Size - 1 then .error .invalidExtent
  else
    .ok
      { firstLba, lastLba
        forward := by omega
        bounded := by
          have := le64_lt entry 40
          omega }

/-- The loop over the entries, `remaining` of them from `i` on. -/
def findEntry (table name : List UInt8) (size : Nat) : Nat → Nat → Except GptError PartitionInfo
  | 0, _ => .error .notFound
  | remaining + 1, i =>
    let entry := bytesAt table (i * size) size
    if allZero (entry.take 16) then findEntry table name size remaining (i + 1)
    else if bytesAt entry 56 72 = nameUtf16 name then entryExtent entry
    else findEntry table name size remaining (i + 1)

def findPartition (d : SectorDevice) (name : List UInt8) :
    Except GptError PartitionInfo × SectorDevice :=
  match d.readSector 1 with
  | (.error _, d) => (.error .io, d)
  | (.ok header, d) =>
    if slice header 0 8 ≠ efiPart then (.error .badSignature, d)
    else if ¬ (92 ≤ headerSize header ∧ headerSize header ≤ sectorSize) then (.error .malformed, d)
    else if (headerCrc header).toNat ≠ storedHeaderCrc header then (.error .headerCrcMismatch, d)
    else if entryCount header = 0 ∨ entryCount header > maxEntries then (.error .malformed, d)
    else if entrySize header < 128 ∨ entrySize header > sectorSize ∨ entrySize header % 8 ≠ 0 then
      (.error .malformed, d)
    else if entriesSectors header > 32 then (.error .malformed, d)
    else
      match d.readSectors (entriesLba header) (entriesSectors header) with
      | (.error _, d) => (.error .io, d)
      | (.ok table, d) =>
        if (crc32 (table.take (entriesBytes header))).toNat ≠ storedEntriesCrc header then
          (.error .entriesCrcMismatch, d)
        else if name.length > 36 then (.error .notFound, d)
        else (findEntry table name (entrySize header) (entryCount header) 0, d)

/-! ## The table on the device -/

section

variable (d : SectorDevice)

def header : Sector := d.sectors 1

def table : List UInt8 := d.bytes (entriesLba (header d)) (entriesSectors (header d))

def entry (i : Nat) : List UInt8 :=
  bytesAt (table d) (i * entrySize (header d)) (entrySize (header d))

structure CrcsMatch : Prop where
  header : (headerCrc (header d)).toNat = storedHeaderCrc (header d)
  entries : (crc32 ((table d).take (entriesBytes (Gpt.header d)))).toNat =
    storedEntriesCrc (Gpt.header d)

/-- What the parser asks of a table besides its CRCs. -/
structure Supported : Prop where
  headerReadable : d.Readable 1 1
  signature : slice (header d) 0 8 = efiPart
  headerSize : 92 ≤ headerSize (header d) ∧ headerSize (header d) ≤ sectorSize
  entryCount : 0 < entryCount (header d) ∧ entryCount (header d) ≤ maxEntries
  entrySize : 128 ≤ entrySize (header d) ∧ entrySize (header d) ≤ sectorSize ∧
    entrySize (header d) % 8 = 0
  entriesSectors : entriesSectors (header d) ≤ 32
  tableReadable : d.Readable (entriesLba (header d)) (Gpt.entriesSectors (header d))

def FirstNamed (name : List UInt8) (firstLba lastLba : Nat) : Prop :=
  ∃ i < entryCount (header d), entryMatches name (entry d i) = true ∧
    (∀ j < i, entryMatches name (entry d j) = false) ∧
    firstLba = le64 (entry d i) 32 ∧ lastLba = le64 (entry d i) 40

end

theorem FirstNamed.unique {d : SectorDevice} {name : List UInt8} {f l f' l' : Nat}
    (h : FirstNamed d name f l) (h' : FirstNamed d name f' l') : f = f' ∧ l = l' := by
  obtain ⟨i, -, hi, hleast, rfl, rfl⟩ := h
  obtain ⟨j, -, hj, hleast', rfl, rfl⟩ := h'
  rcases lt_trichotomy i j with hlt | rfl | hlt
  · rw [hleast' i hlt] at hi
    cases hi
  · exact ⟨rfl, rfl⟩
  · rw [hleast j hlt] at hj
    cases hj

/-! ## What the parser finds -/

section

variable {d d' : SectorDevice} {name table : List UInt8} {size remaining i : Nat}
  {info : PartitionInfo}

theorem findEntry_succ (table name : List UInt8) (size remaining i : Nat) :
    findEntry table name size (remaining + 1) i =
      if entryMatches name (bytesAt table (i * size) size) then
        entryExtent (bytesAt table (i * size) size)
      else findEntry table name size remaining (i + 1) := by
  rw [findEntry, entryMatches]
  generalize bytesAt table (i * size) size = entry
  by_cases hused : allZero (entry.take 16) = true
  · simp only [hused, if_true, Bool.not_true, Bool.false_and, Bool.false_eq_true, if_false]
  by_cases hname : bytesAt entry 56 72 = nameUtf16 name
  · simp only [hused, hname, if_true, Bool.not_false, Bool.true_and, beq_self_eq_true,
      Bool.false_eq_true, if_false]
  · have hbeq : (bytesAt entry 56 72 == nameUtf16 name) = false := beq_eq_false_iff_ne.mpr hname
    simp only [hused, hname, hbeq, Bool.and_false, Bool.false_eq_true, if_false]

variable {firstLba lastLba : Nat}

theorem entryExtent_ok_iff {entry : List UInt8} :
    (∃ info, entryExtent entry = .ok info ∧ info.firstLba = firstLba ∧ info.lastLba = lastLba) ↔
    firstLba = le64 entry 32 ∧ lastLba = le64 entry 40 ∧ firstLba ≤ lastLba ∧
      lastLba ≠ u64Size - 1 := by
  rw [entryExtent]
  constructor
  · rintro ⟨info, h, rfl, rfl⟩
    split at h
    · cases h
    · cases h
      exact ⟨rfl, rfl, by dsimp only; omega, by dsimp only; omega⟩
  · rintro ⟨rfl, rfl, hforward, hbounded⟩
    exact ⟨_, dif_neg (by omega), rfl, rfl⟩

theorem findEntry_ok_iff :
    (∃ info, findEntry table name size remaining i = .ok info ∧ info.firstLba = firstLba ∧
      info.lastLba = lastLba) ↔
    ∃ k, i ≤ k ∧ k < i + remaining ∧ entryMatches name (bytesAt table (k * size) size) = true ∧
      (∀ j, i ≤ j → j < k → entryMatches name (bytesAt table (j * size) size) = false) ∧
      firstLba = le64 (bytesAt table (k * size) size) 32 ∧
      lastLba = le64 (bytesAt table (k * size) size) 40 ∧
      firstLba ≤ lastLba ∧ lastLba ≠ u64Size - 1 := by
  induction remaining generalizing i with
  | zero =>
    constructor
    · rintro ⟨info, h, -⟩
      cases h
    · rintro ⟨k, hk, hk', -⟩
      omega
  | succ remaining ih =>
    rw [findEntry_succ]
    by_cases hmatch : entryMatches name (bytesAt table (i * size) size) = true
    · rw [if_pos hmatch, entryExtent_ok_iff]
      constructor
      · intro h
        exact ⟨i, le_rfl, by omega, hmatch, fun j hj hj' => by omega, h⟩
      · rintro ⟨k, hk, -, -, hfirst, hextent⟩
        -- an earlier match rules out any later one
        have hki : k = i := by
          by_contra hne
          rw [hfirst i le_rfl (by omega)] at hmatch
          cases hmatch
        rwa [hki] at hextent
    · rw [if_neg hmatch, ih]
      have hmiss := Bool.eq_false_iff.mpr hmatch
      constructor
      · rintro ⟨k, hk, hk', hkmatch, hfirst, hrest⟩
        refine ⟨k, by omega, by omega, hkmatch, fun j hj hj' => ?_, hrest⟩
        rcases eq_or_lt_of_le hj with rfl | hlt
        · exact hmiss
        · exact hfirst j hlt hj'
      · rintro ⟨k, hk, hk', hkmatch, hfirst, hrest⟩
        have hne : k ≠ i := by
          rintro rfl
          exact hmatch hkmatch
        exact ⟨k, by omega, by omega, hkmatch, fun j hj hj' => hfirst j (by omega) hj', hrest⟩

def afterReads (d : SectorDevice) : SectorDevice :=
  { d with reads := d.reads ++ [(1, 1)] ++
      [(entriesLba (header d), entriesSectors (header d))] }

theorem findPartition_of_supported (hs : Supported d) (hc : CrcsMatch d)
    (hname : name.length ≤ 36) :
    findPartition d name =
      (findEntry (Gpt.table d) name (entrySize (header d)) (entryCount (header d)) 0,
        afterReads d) := by
  have hcount := hs.entryCount
  have hsize := hs.entrySize
  have hsectors := hs.entriesSectors
  have htable : ({ d with reads := d.reads ++ [(1, 1)] } : SectorDevice).readSectors
      (entriesLba (header d)) (entriesSectors (header d)) = (.ok (Gpt.table d), afterReads d) :=
    SectorDevice.readSectors_of_readable hs.tableReadable
  rw [findPartition, SectorDevice.readSector_of_readable hs.headerReadable]
  dsimp only
  rw [← header, if_neg (not_not_intro hs.signature), if_neg (not_not_intro hs.headerSize),
    if_neg (not_not_intro hc.header), if_neg (by omega), if_neg (by omega),
      if_neg (by omega), htable]
  dsimp only
  rw [if_neg (not_not_intro hc.entries), if_neg (by omega)]

theorem supported_of_ok (h : findPartition d name = (.ok info, d')) :
    Supported d ∧ CrcsMatch d ∧ name.length ≤ 36 := by
  rw [findPartition] at h
  split at h
  · cases h
  rename_i s d₁ hread
  obtain ⟨hread1, rfl, rfl⟩ := SectorDevice.readSector_ok hread
  rw [← header] at h
  split at h
  · cases h
  rename_i hsig
  split at h
  · cases h
  rename_i hhsize
  split at h
  · cases h
  rename_i hhcrc
  split at h
  · cases h
  split at h
  · cases h
  split at h
  · cases h
  generalize hr : SectorDevice.readSectors _ (entriesLba (header d))
    (entriesSectors (header d)) = r at h
  cases hr ▸ SectorDevice.readStep _ (entriesLba (header d)) (entriesSectors (header d)) with
  | refused => cases h
  | failed => cases h
  | done htable =>
    dsimp only at h
    split at h
    · cases h
    rename_i hecrc
    split at h
    · cases h
    refine ⟨⟨hread1, ?_, ?_, by omega, by omega, by omega, htable⟩, ⟨?_, ?_⟩, by omega⟩
    · exact not_not.mp hsig
    · exact not_not.mp hhsize
    · exact not_not.mp hhcrc
    · exact not_not.mp hecrc

theorem findPartition_ok_iff (hname : name.length ≤ 36) :
    (∃ info d', findPartition d name = (.ok info, d') ∧ info.firstLba = firstLba ∧
      info.lastLba = lastLba) ↔
    Supported d ∧ CrcsMatch d ∧ FirstNamed d name firstLba lastLba ∧ firstLba ≤ lastLba ∧
      lastLba ≠ u64Size - 1 := by
  constructor
  · rintro ⟨info, d', h, hfirst, hlast⟩
    obtain ⟨hs, hc, -⟩ := supported_of_ok h
    rw [findPartition_of_supported hs hc hname] at h
    obtain ⟨k, -, hk, hmatch, hleast, hf, hl, hforward, hbounded⟩ :=
      findEntry_ok_iff.mp ⟨info, congrArg Prod.fst h, hfirst, hlast⟩
    exact ⟨hs, hc, ⟨k, by omega, hmatch, fun j hj => hleast j (by omega) hj, hf, hl⟩, hforward,
      hbounded⟩
  · rintro ⟨hs, hc, ⟨k, hk, hmatch, hleast, hf, hl⟩, hforward, hbounded⟩
    have hfound : ∃ info, findEntry (Gpt.table d) name (entrySize (header d))
        (entryCount (header d)) 0 = .ok info ∧ info.firstLba = firstLba ∧ info.lastLba = lastLba :=
      findEntry_ok_iff.mpr
        ⟨k, Nat.zero_le _, by omega, hmatch, fun j _ hj => hleast j hj, hf, hl, hforward, hbounded⟩
    obtain ⟨info, hinfo, hrest⟩ := hfound
    refine ⟨info, afterReads d, ?_, hrest⟩
    rw [findPartition_of_supported hs hc hname]
    exact Prod.ext hinfo rfl

end

end Gpt

end Thumos
