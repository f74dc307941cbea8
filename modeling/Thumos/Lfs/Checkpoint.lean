import Thumos.Lfs.OnDisk

/-!
# Checkpoints

The model of `lfs_checkpoint.rs`: the header of a checkpoint slot, writing a
checkpoint, and the choice between the two slots at mount time.

Slot addresses come from the superblock, which is not validated, so the
address arithmetic of `writeCheckpoint` wraps like the `u64` it is.
-/

namespace Thumos

open StateExcept LittleEndian

abbrev checkpointMagic : Nat := 0x434B5054

structure CheckpointHeader where
  magic : Nat
  sequence : Nat
  imapBlock : Nat
  imapBlockCount : Nat
  segmentBitmapBlock : Nat
  segmentBitmapCount : Nat
  nextInode : Nat
  lastSegmentSequence : Nat
  deriving DecidableEq

namespace CheckpointHeader

def fields (h : CheckpointHeader) : List (Nat × Nat) :=
  [(4, h.magic), (8, h.sequence), (8, h.imapBlock), (4, h.imapBlockCount),
    (8, h.segmentBitmapBlock), (4, h.segmentBitmapCount), (4, h.nextInode),
    (8, h.lastSegmentSequence)]

def widths : List Nat := [4, 8, 8, 4, 8, 4, 4, 8]

def toBlock (h : CheckpointHeader) : Block := Block.ofBytes (encode h.fields)

/-- `CheckpointHeader::from_block`.  Only the magic number is checked. -/
def fromBlock (buf : Block) : Except LfsError CheckpointHeader :=
  let v := decode widths buf.bytes
  if v.getD 0 0 ≠ checkpointMagic then .error .corrupt
  else
    .ok
      { magic := v.getD 0 0
        sequence := v.getD 1 0
        imapBlock := v.getD 2 0
        imapBlockCount := v.getD 3 0
        segmentBitmapBlock := v.getD 4 0
        segmentBitmapCount := v.getD 5 0
        nextInode := v.getD 6 0
        lastSegmentSequence := v.getD 7 0 }

/-- `validate_header_geometry`: both payload ranges lie inside the device. -/
def validateGeometry (h : CheckpointHeader) (deviceBlocks : Nat) : Except LfsError Unit :=
  let imapEnd := h.imapBlock + h.imapBlockCount
  let segmentEnd := h.segmentBitmapBlock + h.segmentBitmapCount
  if u64Size ≤ imapEnd then .error .corrupt
  else if u64Size ≤ segmentEnd then .error .corrupt
  else if deviceBlocks ≤ h.imapBlock ∨ deviceBlocks < imapEnd ∨
      deviceBlocks ≤ h.segmentBitmapBlock ∨ deviceBlocks < segmentEnd then .error .corrupt
  else .ok ()

/-- The header that `read_checkpoint` gets out of a slot's first block. -/
def parse (buf : Block) (deviceBlocks : Nat) : Except LfsError CheckpointHeader := do
  let header ← fromBlock buf
  validateGeometry header deviceBlocks
  return header

end CheckpointHeader

/-- The payload is flushed before the
header is written. -/
def writeCheckpoint (slotBlock : Nat) (header : CheckpointHeader)
    (imapData segmentData : List UInt8) : Disk.L Unit := do
  let slotEnd := (slotBlock + checkpointSlotBlocks) % u64Size
  let payloadEnd := (header.segmentBitmapBlock + header.segmentBitmapCount) % u64Size
  failIf (header.imapBlock ≤ slotBlock ∨ slotEnd < payloadEnd) .checkpointOverflow
  Disk.writeBlocks header.imapBlock (blocksOf (blocksNeeded imapData.length) imapData)
  Disk.writeBlocks header.segmentBitmapBlock
    (blocksOf (blocksNeeded segmentData.length) segmentData)
  Disk.io Disk.flush
  Disk.io (Disk.write slotBlock header.toBlock)
  Disk.io Disk.flush

def readCheckpoint (slotBlock : Nat) : Disk.L CheckpointHeader := do
  let buf ← Disk.io (Disk.read slotBlock)
  let d ← get
  liftResult (CheckpointHeader.parse buf d.dev.blockCount)

/-- The choice of `pick_latest` between what the two slots hold. -/
def chooseSlot (slotA slotB : Nat) :
    Except LfsError CheckpointHeader → Except LfsError CheckpointHeader →
      Except LfsError (CheckpointHeader × Nat)
  | .ok a, .ok b => if b.sequence ≤ a.sequence then .ok (a, slotA) else .ok (b, slotB)
  | .ok a, .error _ => .ok (a, slotA)
  | .error _, .ok b => .ok (b, slotB)
  | .error (.blockIo e), .error (.blockIo _) => .error (.blockIo e)
  | .error _, .error _ => .error .corrupt

def pickLatest (slotA slotB : Nat) : Disk.L (CheckpointHeader × Nat) := do
  let a ← attempt (readCheckpoint slotA)
  let b ← attempt (readCheckpoint slotB)
  liftResult (chooseSlot slotA slotB a b)

end Thumos
