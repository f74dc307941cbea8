import Mathlib.Data.List.TakeDrop
import Thumos.Lib.StateExcept
import Thumos.Lib.LittleEndian

/-!
# The block device

The model of `block.rs`.  A device is a run of 512-byte sectors.  Every
caller in the storage stack moves whole 4 KiB blocks from a sector address
that is a multiple of `SECTORS_PER_BLOCK`, so the medium is kept as blocks
here, and `readSectors` and `writeSectors` move one of them.

Two things the trait leaves to the implementation are explicit.

* `faults` is the failure pattern: `faults t` is the error that the `t`-th
  transfer of the device returns, if it fails.  A failed transfer may have
  moved some sectors before it failed, as `MsdcBlockDevice` does when a
  sector in the middle of its loop fails.
* `log` records the writes that reached the medium, oldest first.  Nothing
  reads it.  `applyWrites` replays a part of it, which is the image that a
  power loss leaves behind.
-/

namespace Thumos

open List

abbrev sectorSize : Nat := 512

abbrev blockSize : Nat := 4096

abbrev sectorsPerBlock : Nat := 8

/-- Block addresses and sequence numbers are `u64`. -/
abbrev u64Size : Nat := 2 ^ 64

/-- Inode numbers and segment counts are `u32`, and so is `usize` on the
32-bit target. -/
abbrev u32Size : Nat := 2 ^ 32

/-- The bytes of one logical block, `[u8; BLOCK_SIZE]`. -/
@[ext] structure Block where
  bytes : List UInt8
  size_eq : bytes.length = blockSize

theorem takeD_getElem? {α : Type} (a : α) :
    ∀ (n : Nat) (l : List α) (i : Nat), i < n → (l.takeD n a)[i]? = some (l.getD i a) := by
  intro n
  induction n with
  | zero => intro l i hi; omega
  | succ n ih =>
    intro l i hi
    cases i with
    | zero => cases l <;> rfl
    | succ i =>
      rw [takeD_succ, getElem?_cons_succ, ih _ _ (by omega)]
      cases l <;> simp

theorem takeD_eq_append {α : Type} (a : α) :
    ∀ (n : Nat) (l : List α), l.length ≤ n →
      l.takeD n a = l ++ replicate (n - l.length) a := by
  intro n
  induction n with
  | zero =>
    intro l h
    rw [eq_nil_of_length_eq_zero (Nat.le_zero.mp h)]
    rfl
  | succ n ih =>
    intro l h
    cases l with
    | nil => rw [takeD_nil]; rfl
    | cons x l =>
      rw [length_cons] at h
      rw [takeD_succ, tail_cons, ih l (by omega), length_cons,
        Nat.add_sub_add_right]
      rfl

namespace Block

/-- A zeroed block with `bytes` written from its start. -/
def ofBytes (bytes : List UInt8) : Block := ⟨bytes.takeD blockSize 0, List.takeD_length ..⟩

/-- `[0u8; BLOCK_SIZE]`. -/
def zero : Block := ofBytes []

def byte (b : Block) (i : Nat) : UInt8 := b.bytes.getD i 0

def slice (b : Block) (off len : Nat) : List UInt8 := LittleEndian.bytesAt b.bytes off len

/-- `buf[off..off + src.len()].copy_from_slice(src)`. -/
def copyAt (b : Block) (off : Nat) (src : List UInt8) : Block :=
  ofBytes (b.bytes.take off ++ src ++ b.bytes.drop (off + src.length))

/-- The first `n` sectors of `new`, the rest of `old`. -/
def torn (n : Nat) (new old : Block) : Block where
  bytes := new.bytes.take (sectorSize * n) ++ old.bytes.drop (sectorSize * n)
  size_eq := by
    have hnew := new.size_eq
    have hold := old.size_eq
    simp only [List.length_append, List.length_take, List.length_drop]
    omega

theorem ext_byte {b b' : Block} (h : ∀ i < blockSize, b.byte i = b'.byte i) : b = b' := by
  have hb := b.size_eq
  have hb' := b'.size_eq
  apply Block.ext
  apply ext_getElem (by omega)
  intro i hi hi'
  have := h i (by omega)
  simpa [byte, hi, hi'] using this

theorem byte_ofBytes (bytes : List UInt8) {i : Nat} (h : i < blockSize) :
    (ofBytes bytes).byte i = bytes.getD i 0 := by
  rw [byte, ofBytes, getD_eq_getElem?_getD, takeD_getElem? 0 blockSize bytes i h,
    Option.getD_some]

theorem bytes_ofBytes {bytes : List UInt8} (h : bytes.length ≤ blockSize) :
    (ofBytes bytes).bytes = bytes ++ replicate (blockSize - bytes.length) 0 :=
  takeD_eq_append 0 blockSize bytes h

theorem slice_eq_map (b : Block) {off len : Nat} (h : off + len ≤ blockSize) :
    b.slice off len = (range len).map fun k => b.byte (off + k) := by
  have hb := b.size_eq
  apply ext_getElem?
  intro k
  by_cases hk : k < len
  · have hin : off + k < b.bytes.length := by omega
    simp [slice, LittleEndian.bytesAt, byte, hk, hin]
  · simp [slice, LittleEndian.bytesAt, hk]

theorem byte_copyAt (b : Block) {off : Nat} {src : List UInt8} {i : Nat}
    (h : off + src.length ≤ blockSize) (hi : i < blockSize) : (b.copyAt off src).byte i =
      if off ≤ i ∧ i < off + src.length then src.getD (i - off) 0 else b.byte i := by
  have hb := b.size_eq
  rw [copyAt, byte_ofBytes _ hi]
  simp only [byte, getD_eq_getElem?_getD]
  split
  · rename_i hin
    rw [getElem?_append_left (by simp; omega), getElem?_append_right (by simp; omega)]
    simp [min_eq_left (show off ≤ b.bytes.length by omega)]
  by_cases hlt : i < off
  · rw [getElem?_append_left (by simp; omega), getElem?_append_left (by simp; omega),
      getElem?_take_of_lt hlt]
  rw [getElem?_append_right (by simp; omega), getElem?_drop]
  simp only [length_append, length_take]
  congr 2
  omega

theorem torn_full (new old : Block) : torn sectorsPerBlock new old = new := by
  have hnew : new.bytes.length = 4096 := new.size_eq
  have hold : old.bytes.length = 4096 := old.size_eq
  apply Block.ext
  show new.bytes.take 4096 ++ old.bytes.drop 4096 = new.bytes
  rw [take_of_length_le (by omega), drop_eq_nil_of_le (by omega), append_nil]

end Block

inductive BlockError where
  | ioError
  | outOfBounds
  | invalidArgument
  | deviceNotReady
  deriving DecidableEq, Repr

/-- A transfer that fails: the error it returns, and the number of sectors it
moved before it failed. -/
structure Fault where
  error : BlockError
  sectors : Nat
  deriving DecidableEq, Repr

/-- One write that reached the medium: the first `count` sectors of `data`,
from sector `lba` on. -/
structure SectorWrite where
  lba : Nat
  count : Nat
  data : Block

def SectorWrite.block (w : SectorWrite) : Nat := w.lba / sectorsPerBlock

def SectorWrite.apply (w : SectorWrite) (image : Nat → Block) : Nat → Block := fun b =>
  if b = w.block then Block.torn w.count w.data (image b) else image b

def applyWrites (ws : List SectorWrite) (image : Nat → Block) : Nat → Block :=
  ws.foldl (fun image w => w.apply image) image

structure Device where
  sectorCount : Nat
  /-- The number of sectors is a `u64`. -/
  sectorCount_lt : sectorCount < u64Size
  /-- The medium, block by block. -/
  blocks : Nat → Block
  faults : Nat → Option Fault
  /-- Number of transfers made so far. -/
  ticks : Nat
  log : List SectorWrite

namespace Device

/-- Number of whole logical blocks, `sector_count() / SECTORS_PER_BLOCK`. -/
def blockCount (d : Device) : Nat := d.sectorCount / sectorsPerBlock

/-- `BlockDevice::read_sectors` of one block.  The buffer is the caller's, so
a failed read hands back the part it filled. -/
def readSectors (d : Device) (lba : Nat) (buf : Block) :
    Except BlockError Unit × Block × Device :=
  if lba + sectorsPerBlock ≤ d.sectorCount then
    let data := d.blocks (lba / sectorsPerBlock)
    let d' := { d with ticks := d.ticks + 1 }
    match d.faults d.ticks with
    | none => (.ok (), data, d')
    | some f => (.error f.error, Block.torn f.sectors data buf, d')
  else (.error .outOfBounds, buf, d)

def commit (d : Device) (w : SectorWrite) : Device :=
  { d with blocks := w.apply d.blocks, ticks := d.ticks + 1, log := d.log ++ [w] }

def writeSectors (d : Device) (lba : Nat) (data : Block) : Except BlockError Unit × Device :=
  if lba + sectorsPerBlock ≤ d.sectorCount then
    match d.faults d.ticks with
    | none => (.ok (), d.commit ⟨lba, sectorsPerBlock, data⟩)
    | some f => (.error f.error, d.commit ⟨lba, min f.sectors sectorsPerBlock, data⟩)
  else (.error .outOfBounds, d)

end Device

end Thumos
