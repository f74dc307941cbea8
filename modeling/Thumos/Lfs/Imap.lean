import Thumos.Storage.Cache

/-!
# The inode map

The model of `lfs_imap.rs`: the map from inode numbers to the blocks that
hold the inodes, its serialized form, and the code that moves it to and from
consecutive blocks.  `BTreeMap` is modelled by `Std.TreeMap`, which iterates
in key order too.

`usize` has 32 bits on the target, so the lengths that the source computes
with `checked_mul` fail from `u32Size` on.
-/

namespace Thumos

open StateExcept LittleEndian

inductive LfsError where
  | blockIo (e : BlockError)
  | corrupt
  | invalidSuperblock
  | noFreeSegments
  | inodeNotFound
  | checkpointOverflow
  | noCompactionCandidate
  deriving DecidableEq, Repr

namespace Disk

abbrev L := EStateM LfsError Disk

/-- A block operation under `?`: its error is converted by `From<BlockError>`. -/
def io {α : Type} (m : M α) : L α := EStateM.adaptExcept LfsError.blockIo m

def writeBlocks : Nat → List Block → L Unit
  | _, [] => pure ()
  | start, b :: bs => do
    io (write start b)
    writeBlocks ((start + 1) % u64Size) bs

def readBlocks : Nat → Nat → L (List UInt8)
  | _, 0 => pure []
  | start, count + 1 => do
    let b ← io (read start)
    let rest ← readBlocks (start + 1) count
    pure (b.bytes ++ rest)

end Disk

def blocksNeeded (byteCount : Nat) : Nat :=
  byteCount / blockSize + (if byteCount % blockSize = 0 then 0 else 1)

def blocksOf : Nat → List UInt8 → List Block
  | 0, _ => []
  | n + 1, data => Block.ofBytes (data.take blockSize) :: blocksOf n (data.drop blockSize)

abbrev LfsImap := Std.TreeMap Nat Nat

namespace LfsImap

abbrev imapEntrySize : Nat := 12

abbrev imapHeaderSize : Nat := 4

def serialize (imap : LfsImap) : List UInt8 :=
  leBytes 4 imap.size ++ imap.toList.flatMap fun e => leBytes 4 e.1 ++ leBytes 8 e.2

/-- The entry loop of `deserialize`.  An entry that points into the reserved
segment 0 or past the device is rejected. -/
def parseEntries (segmentSize deviceBlocks : Nat) :
    Nat → List UInt8 → LfsImap → Except LfsError LfsImap
  | 0, _, imap => .ok imap
  | n + 1, buf, imap =>
    let inodeId := leValue (buf.take 4)
    let block := leValue ((buf.drop 4).take 8)
    if block < segmentSize ∨ deviceBlocks ≤ block then .error .corrupt
    else parseEntries segmentSize deviceBlocks n (buf.drop imapEntrySize)
      (imap.insert inodeId block)

def deserialize (buf : List UInt8) (segmentSize deviceBlocks : Nat) : Except LfsError LfsImap :=
  if shorter buf imapHeaderSize then .error .corrupt
  else
    let count := leValue (buf.take 4)
    let expectedLen := count * imapEntrySize + imapHeaderSize
    if u32Size ≤ expectedLen then .error .corrupt
    else if shorter buf expectedLen then .error .corrupt
    else parseEntries segmentSize deviceBlocks count (buf.drop imapHeaderSize) ∅

def loadFromDisk (startBlock blockCount segmentSize deviceBlocks : Nat) : Disk.L LfsImap := do
  failIf (u32Size ≤ blockCount * blockSize) .corrupt
  let d ← get
  let deviceBytes := min (d.dev.sectorCount * sectorSize) (u64Size - 1)
  failIf (deviceBytes < blockCount * blockSize) .corrupt
  let data ← Disk.readBlocks startBlock blockCount
  liftResult (deserialize data segmentSize deviceBlocks)

end LfsImap

end Thumos
