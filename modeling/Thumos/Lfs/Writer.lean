import Thumos.Lfs.Checkpoint

/-!
# The log writer

The model of `lfs_writer.rs`.  A `Volume` is what the writer is handed with
every call: the device behind its cache, the inode map and the segment
manager.  A `Log` is a volume with its writer.
-/

namespace Thumos

open StateExcept LittleEndian

abbrev compactThresholdPercent : Nat := 10

structure Volume where
  disk : Disk
  imap : LfsImap
  segments : LfsSegmentManager

/-- The write head: the segment that is being filled, the next block offset in
it, and the sequence number of its header. -/
structure LfsWriter where
  currentSegment : Nat
  writePosition : Nat
  sequence : UInt64

def LfsWriter.withSequence (segments : LfsSegmentManager) (sequence : Nat) :
    Except LfsError (LfsWriter × LfsSegmentManager) :=
  match segments.allocate with
  | none => .error .noFreeSegments
  | some (seg, segments') => .ok (⟨seg, 1, .ofNat sequence⟩, segments')

structure Log extends Volume where
  writer : LfsWriter

namespace Log

abbrev M := EStateM LfsError Log

def onDisk {α : Type} (m : Disk.L α) : M α :=
  zoom (fun s => s.disk) (fun d s => { s with disk := d }) m

def setSegments (segments : LfsSegmentManager) : M Unit :=
  modify fun s => { s with segments := segments }

def setWriter (writer : LfsWriter) : M Unit :=
  modify fun s => { s with writer := writer }

def insertImap (inodeId block : Nat) : M Unit :=
  modify fun s => { s with imap := s.imap.insert inodeId block }

/-- The allocator that a seal uses: the compactor may take the reserve. -/
def allocateFor (reserveOk : Bool) (m : LfsSegmentManager) : Option (Nat × LfsSegmentManager) :=
  if reserveOk then m.allocateForCompaction else m.allocate

/-- `seal_segment_inner`: the next segment is allocated first, and given back
when the header cannot be written. -/
def sealSegment (reserveOk : Bool) : M Unit := do
  let s ← get
  let (newSeg, segments) ← okOr (allocateFor reserveOk s.segments) .noFreeSegments
  setSegments segments
  let header := segmentHeaderBlock s.writer.sequence.toNat (s.writer.writePosition - 1)
  let r ← attempt (onDisk (Disk.io
    (Disk.write (segments.segmentStartBlock s.writer.currentSegment) header)))
  match r with
  | .error e => do
    setSegments (segments.free newSeg)
    throw e
  | .ok _ => setWriter ⟨newSeg, 1, s.writer.sequence + 1⟩

/-- The part that `write_inode_inner` and `write_data_block_inner` share: seal
a full segment, and append one block to the log. -/
def append (reserveOk : Bool) (data : Block) : M Nat := do
  let s ← get
  (if s.segments.segmentSize ≤ s.writer.writePosition then sealSegment reserveOk else pure ())
  let s ← get
  let blockNum := s.segments.segmentStartBlock s.writer.currentSegment + s.writer.writePosition
  onDisk (Disk.io (Disk.write blockNum data))
  setWriter { s.writer with writePosition := s.writer.writePosition + 1 }
  pure blockNum

/-- `write_inode_inner`. -/
def writeInode (reserveOk : Bool) (inodeId : Nat) (inode : DiskInode) : M Nat := do
  let blockNum ← append reserveOk inode.writeTo
  insertImap inodeId blockNum
  pure blockNum

/-- `write_data_block_inner`. -/
def writeDataBlock (reserveOk : Bool) (data : Block) : M Nat := append reserveOk data

/-- The slot of a checkpoint: slot A for even sequence numbers. -/
def slotFor (checkpointSlots : Nat × Nat) (checkpointSequence : Nat) : Nat :=
  if checkpointSequence % 2 = 0 then checkpointSlots.1 else checkpointSlots.2

/-- The header that `LfsWriter::write_checkpoint` builds: the imap goes right
after the header block, the segment bitmap after the imap. -/
def checkpointHeader (s : Log) (slotBlock checkpointSequence nextInode : Nat) :
    CheckpointHeader where
  magic := checkpointMagic
  sequence := checkpointSequence
  imapBlock := (slotBlock + 1) % u64Size
  imapBlockCount := blocksNeeded (LfsImap.serialize s.imap).length
  segmentBitmapBlock :=
    ((slotBlock + 1) % u64Size + blocksNeeded (LfsImap.serialize s.imap).length) % u64Size
  segmentBitmapCount := blocksNeeded s.segments.serialize.length
  nextInode := nextInode
  lastSegmentSequence := s.writer.sequence.toNat

def writeCheckpoint (checkpointSlots : Nat × Nat) (checkpointSequence nextInode : Nat) :
    M Unit := do
  let s ← get
  let slotBlock := slotFor checkpointSlots checkpointSequence
  onDisk (Thumos.writeCheckpoint slotBlock
    (s.checkpointHeader slotBlock checkpointSequence nextInode)
    (LfsImap.serialize s.imap) s.segments.serialize)

end Log

end Thumos
