import Thumos.Lfs.Compact

/-!
# The filesystem

The model of `lfs.rs`: `format`, `mount` and the calls of the `Filesystem`
trait.  A call that fails keeps what it did to the state before it failed, as
a `&mut self` method does.

`write`, `create` and `unlink` end with a pass of the compactor.  Each of them
is a body followed by `maybeCompact` here, since the two parts are specified
separately.
-/

namespace Thumos

open StateExcept

inductive InodeType where
  | regularFile
  | directory
  | charDevice
  | blockDevice
  | symlink
  deriving DecidableEq, Repr

structure InodeStat where
  inodeId : Nat
  inodeType : InodeType
  size : Nat
  linkCount : Nat
  blockCount : Nat
  deriving DecidableEq

structure DirEntry where
  name : List UInt8
  inodeId : Nat
  inodeType : InodeType
  deriving DecidableEq

structure Lfs extends Volume where
  superblock : LfsSuperblock
  nextSequence : Nat
  writer : Option LfsWriter
  nextInode : Nat
  checkpointSequence : Nat

/-! ## Format and mount -/

def formatSuperblock (totalBlocks : Nat) : LfsSuperblock where
  magic := lfsMagic
  version := lfsVersion
  blockCount := totalBlocks
  segmentSize := defaultSegmentSize
  segmentCount := totalBlocks / defaultSegmentSize % u32Size
  checkpointBlockA := checkpointSlotA
  checkpointBlockB := checkpointSlotB
  imapBlock := imapRegionStart
  imapBlockCount := defaultImapBlocks
  rootInode := 0
  nextInode := 1

abbrev rootInodeBlock : Nat := defaultSegmentSize + 1

def formatImap : LfsImap := (∅ : LfsImap).insert 0 rootInodeBlock

def formatSegments (totalBlocks : Nat) : LfsSegmentManager :=
  (LfsSegmentManager.new (totalBlocks / defaultSegmentSize % u32Size) defaultSegmentSize).markUsed 1

def formatCheckpoint : CheckpointHeader where
  magic := checkpointMagic
  sequence := 1
  imapBlock := imapRegionStart
  imapBlockCount := defaultImapBlocks
  segmentBitmapBlock := imapRegionStart + defaultImapBlocks
  segmentBitmapCount := 1
  nextInode := 1
  lastSegmentSequence := 1

def formatDisk : Disk.L Unit := do
  let d ← get
  let totalBlocks := d.dev.blockCount
  failIf (totalBlocks < defaultSegmentSize * 2) .invalidSuperblock
  Disk.io (Disk.write superblockBlock (formatSuperblock totalBlocks).toBlock)
  Disk.io (Disk.write defaultSegmentSize (segmentHeaderBlock 1 1))
  Disk.io (Disk.write rootInodeBlock (DiskInode.new inodeTypeDir).writeTo)
  writeCheckpoint checkpointSlotA formatCheckpoint (LfsImap.serialize formatImap)
    (formatSegments totalBlocks).serialize
  Disk.io Disk.flush

/-- `format`.  The cache is dropped at the end; the device stays. -/
def format (dev : Device) : Except LfsError Unit × Device :=
  match formatDisk (Disk.fresh dev) with
  | .ok _ d => (.ok (), d.dev)
  | .error e d => (.error e, d.dev)

/-- `max_bitmap_blocks` of `mount`. -/
def maxBitmapBlocks (segmentCount : Nat) : Nat :=
  let bitsPerBlock := blockSize * 8
  segmentCount / bitsPerBlock + (if segmentCount % bitsPerBlock ≠ 0 then 1 else 0) + 1

structure MountImage where
  superblock : LfsSuperblock
  checkpoint : CheckpointHeader
  imap : LfsImap
  segments : LfsSegmentManager

def mountDisk : Disk.L MountImage := do
  let sbBuf ← Disk.io (Disk.read superblockBlock)
  let superblock ← liftResult (LfsSuperblock.fromBlock sbBuf)
  let d ← get
  failIf (d.dev.blockCount < superblock.blockCount) .corrupt
  let (checkpoint, _) ← pickLatest superblock.checkpointBlockA superblock.checkpointBlockB
  let imap ← LfsImap.loadFromDisk checkpoint.imapBlock checkpoint.imapBlockCount
    superblock.segmentSize superblock.blockCount
  failIf (maxBitmapBlocks superblock.segmentCount < checkpoint.segmentBitmapCount) .corrupt
  let segData ← Disk.readBlocks checkpoint.segmentBitmapBlock checkpoint.segmentBitmapCount
  let segments ← liftResult (LfsSegmentManager.deserialize segData superblock.segmentCount
    superblock.segmentSize superblock.blockCount)
  failIf (u64Size ≤ checkpoint.lastSegmentSequence + 1) .corrupt
  failIf (u64Size ≤ checkpoint.sequence + 1) .corrupt
  pure ⟨superblock, checkpoint, imap, segments⟩

def MountImage.toLfs (image : MountImage) (disk : Disk) : Lfs where
  disk := disk
  imap := image.imap
  segments := image.segments
  superblock := image.superblock
  nextSequence := image.checkpoint.lastSegmentSequence + 1
  writer := none
  nextInode := image.checkpoint.nextInode
  checkpointSequence := image.checkpoint.sequence + 1

def mount (dev : Device) : Except LfsError Lfs :=
  match mountDisk (Disk.fresh dev) with
  | .ok image d => .ok (image.toLfs d)
  | .error e _ => .error e

/-! ## Helpers -/

namespace Lfs

abbrev M := EStateM VfsError Lfs

/-- A cache operation under `map_err(|_| VfsError::IoError)`. -/
def onDisk {α : Type} (m : Disk.M α) : M α :=
  zoom (fun s => s.disk) (fun d s => { s with disk := d })
    (EStateM.adaptExcept (fun _ => .ioError) m)

def putLog (s : Lfs) (t : Log) : Lfs :=
  { s with toVolume := t.toVolume, writer := some t.writer }

/-- A program of the log writer, with its errors converted by `f`. -/
def withLog {α : Type} (f : LfsError → VfsError) (m : Log.M α) : M α := fun s =>
  match s.writer with
  | none => .error .ioError s
  | some w =>
    match m ⟨s.toVolume, w⟩ with
    | .ok a t => .ok a (s.putLog t)
    | .error e t => .error (f e) (s.putLog t)

def mapWriteDataBlockErr : LfsError → VfsError
  | .noFreeSegments => .noSpace
  | _ => .ioError

def validateBlockNum (blockNum : Nat) : M Unit := do
  let s ← get
  failIf (blockNum < s.superblock.segmentSize ∨ s.superblock.blockCount ≤ blockNum) .ioError

def readBlock (blockNum : Nat) : M Block := do
  validateBlockNum blockNum
  onDisk (Disk.read blockNum)

def loadInode (inodeId : Nat) : M DiskInode := do
  let s ← get
  let blockNum ← okOr s.imap[inodeId]? .notFound
  DiskInode.readFrom <$> readBlock blockNum

/-- `size.div_ceil(BLOCK_SIZE).min(DIRECT_BLOCK_COUNT)`. -/
def dataBlocks (size : Nat) : Nat := min ((size + (blockSize - 1)) / blockSize) directBlockCount

def readDirBlock (blockNum : Nat) : M (List DiskDirEntry) :=
  if blockNum = 0 then pure []
  else do
    let buf ← readBlock blockNum
    okOr (parseDirEntries buf) .ioError

def readDirEntries (inode : DiskInode) : M (List DiskDirEntry) := do
  failIf (inode.inodeType ≠ inodeTypeDir) .notADirectory
  failIf (u32Size ≤ inode.size) .ioError
  (List.range (dataBlocks inode.size)).foldlM (fun acc i => do
    let entries ← readDirBlock (inode.ptr i)
    pure (acc ++ entries)) []

def ensureWriter : M Unit := do
  let s ← get
  match s.writer with
  | some _ => pure ()
  | none =>
    match LfsWriter.withSequence s.segments s.nextSequence with
    | .error _ => throw .noSpace
    | .ok (w, segments) => set { s with segments := segments, writer := some w }

def maybeCompact : M Unit := do
  let s ← get
  if needsCompaction s.segments && s.writer.isSome then do
    let _ ← withLog (fun _ => .ioError) (Log.compactOneSegment s.superblock.blockCount)
    pure ()
  else pure ()

def writeDirBlock (entries : List DiskDirEntry) : M Nat := do
  let bytes ← liftResult (encodeDirRecords 0 entries)
  withLog mapWriteDataBlockErr (Log.writeDataBlock false (Block.ofBytes bytes))

/-- `writer.write_data_block` under `map_write_data_block_err`. -/
def writeDataBlock (data : Block) : M Nat :=
  withLog mapWriteDataBlockErr (Log.writeDataBlock false data)

/-- `writer.write_inode` under `map_write_data_block_err`. -/
def writeInode (inodeId : Nat) (inode : DiskInode) : M Unit := do
  let _ ← withLog mapWriteDataBlockErr (Log.writeInode false inodeId inode)
  pure ()

def removeImap (inodeId : Nat) : M Unit :=
  modify fun s => { s with imap := s.imap.erase inodeId }

/-- Run `m`, and take `inodeId` out of the map again when it fails. -/
def orRemove {α : Type} (inodeId : Nat) (m : M α) : M α := do
  let r ← attempt m
  match r with
  | .ok a => pure a
  | .error e => do
    removeImap inodeId
    throw e

/-- The counter is a `u32` that wraps. -/
def allocInodeId : M Nat := do
  let s ← get
  set { s with nextInode := (s.nextInode + 1) % u32Size }
  pure s.nextInode

/-! ## Reading -/

def inodeToStat (inodeId : Nat) (inode : DiskInode) : Except VfsError InodeStat :=
  let stat := fun t =>
    InodeStat.mk inodeId t inode.size inode.linkCount (inode.direct.filter (· ≠ 0)).length
  if inode.inodeType = inodeTypeFile then .ok (stat .regularFile)
  else if inode.inodeType = inodeTypeDir then .ok (stat .directory)
  else .error .ioError

def stat (inodeId : Nat) : M InodeStat := do
  let inode ← loadInode inodeId
  liftResult (inodeToStat inodeId inode)

def lookup (dirInode : Nat) (name : List UInt8) : M Nat := do
  let inode ← loadInode dirInode
  let entries ← readDirEntries inode
  let entry ← okOr (entries.find? fun e => e.name == name) .notFound
  pure entry.inodeId

def readdirEntry (e : DiskDirEntry) : M DirEntry := do
  let child ← loadInode e.inodeId
  if child.inodeType = inodeTypeDir then pure ⟨e.name, e.inodeId, .directory⟩
  else if child.inodeType = inodeTypeFile then pure ⟨e.name, e.inodeId, .regularFile⟩
  else throw .ioError

def readdir (dirInode : Nat) : M (List DirEntry) := do
  let inode ← loadInode dirInode
  let diskEntries ← readDirEntries inode
  diskEntries.foldlM (fun acc e => do
    let entry ← readdirEntry e
    pure (acc ++ [entry])) []

/-- The loop of `read`.  Every turn moves at least one byte, so the number of
bytes to read is enough turns. -/
def readLoop (inode : DiskInode) (offset toRead : Nat) : Nat → List UInt8 → M (List UInt8)
  | 0, acc => pure acc
  | fuel + 1, acc =>
    if acc.length < toRead then
      let fileOffset := offset + acc.length
      let blockIndex := fileOffset / blockSize
      let blockOffset := fileOffset % blockSize
      let chunk := min (blockSize - blockOffset) (toRead - acc.length)
      if directBlockCount ≤ blockIndex then pure acc
      else if inode.ptr blockIndex = 0 then
        -- a sparse block reads as zeros
        readLoop inode offset toRead fuel (acc ++ List.replicate chunk 0)
      else do
        let block ← readBlock (inode.ptr blockIndex)
        readLoop inode offset toRead fuel (acc ++ block.slice blockOffset chunk)
    else pure acc

/-- `read` into a buffer of `len` bytes; the result is the part it filled. -/
def read (inodeId offset len : Nat) : M (List UInt8) := do
  let inode ← loadInode inodeId
  failIf (inode.inodeType = inodeTypeDir) .isADirectory
  if inode.size ≤ offset then pure []
  else do
    failIf (lfsMaxFileSize ≤ offset) .ioError
    failIf (u32Size ≤ inode.size - offset) .ioError
    let toRead := min len (inode.size - offset)
    readLoop inode offset toRead toRead []

/-! ## Writing -/

/-- The block that a turn of the `write` loop starts from: a partial write
reads the block that is there. -/
def existingBlock (partialWrite : Bool) (blockNum : Nat) : M Block :=
  if partialWrite && blockNum != 0 then readBlock blockNum else pure Block.zero

/-- The loop of `write` over `buf[bytes_written..]`, with the file position of
its first byte. -/
def writeLoop : Nat → Nat → List UInt8 → DiskInode → M DiskInode
  | 0, _, _, inode => pure inode
  | fuel + 1, pos, rest, inode =>
    if rest.isEmpty then pure inode
    else do
      let blockIndex := pos / blockSize
      let blockOffset := pos % blockSize
      failIf (directBlockCount ≤ blockIndex) .ioError
      let old ← existingBlock (blockOffset != 0 || decide (rest.length < blockSize))
        (inode.ptr blockIndex)
      let chunk := min (blockSize - blockOffset) rest.length
      let newBlock ← writeDataBlock (old.copyAt blockOffset (rest.take chunk))
      writeLoop fuel (pos + chunk) (rest.drop chunk) (inode.setPtr blockIndex newBlock)

def writeBody (inodeId offset : Nat) (buf : List UInt8) : M Unit := do
  let inode ← loadInode inodeId
  failIf (inode.inodeType = inodeTypeDir) .isADirectory
  if buf.isEmpty then pure ()
  else do
    failIf (lfsMaxFileSize < offset + buf.length) .noSpace
    ensureWriter
    let inode ← writeLoop buf.length offset buf inode
    let newEnd := offset + buf.length
    writeInode inodeId (if inode.size < newEnd then { inode with size := newEnd } else inode)

/-- `write`.  An empty buffer returns before the compaction. -/
def write (inodeId offset : Nat) (buf : List UInt8) : M Nat := do
  writeBody inodeId offset buf
  (if buf.isEmpty then pure () else maybeCompact)
  pure buf.length

def diskType : InodeType → Nat
  | .directory => inodeTypeDir
  | _ => inodeTypeFile

def dirSize (entries : List DiskDirEntry) : Nat := (entries.map (·.recordLen)).sum

def createBody (dirInode : Nat) (name : List UInt8) (inodeType : InodeType) : M Nat := do
  failIf (255 < name.length) .invalidPath
  let parent ← loadInode dirInode
  failIf (parent.inodeType ≠ inodeTypeDir) .notADirectory
  let existing ← readDirEntries parent
  failIf (existing.any (fun e => e.name == name) = true) .alreadyExists
  ensureWriter
  let newInodeId ← allocInodeId
  writeInode newInodeId (DiskInode.new (diskType inodeType))
  let entries := existing ++ [⟨newInodeId, name.length, alignedRecordLen name, name⟩]
  let dirBlock ← orRemove newInodeId (writeDirBlock entries)
  orRemove newInodeId
    (writeInode dirInode { parent.setPtr 0 dirBlock with size := dirSize entries })
  pure newInodeId

def create (dirInode : Nat) (name : List UInt8) (inodeType : InodeType) : M Nat := do
  let newInodeId ← createBody dirInode name inodeType
  maybeCompact
  pure newInodeId

def unlinkParent (parent : DiskInode) (remaining : List DiskDirEntry) : M DiskInode :=
  if remaining.isEmpty then pure { parent.setPtr 0 0 with size := 0 }
  else do
    let dirBlock ← writeDirBlock remaining
    pure { parent.setPtr 0 dirBlock with size := dirSize remaining }

def unlinkBody (dirInode : Nat) (name : List UInt8) : M Unit := do
  let parent ← loadInode dirInode
  failIf (parent.inodeType ≠ inodeTypeDir) .notADirectory
  let entries ← readDirEntries parent
  let target ← okOr (entries.find? fun e => e.name == name) .notFound
  let remaining := entries.filter fun e => e.name != name
  ensureWriter
  let targetInode ← loadInode target.inodeId
  failIf (targetInode.inodeType = inodeTypeDir ∧ targetInode.size ≠ 0) .notEmpty
  let parent ← unlinkParent parent remaining
  writeInode dirInode parent
  if targetInode.linkCount - 1 = 0 then removeImap target.inodeId
  else writeInode target.inodeId { targetInode with linkCount := targetInode.linkCount - 1 }

def unlink (dirInode : Nat) (name : List UInt8) : M Unit := do
  unlinkBody dirInode name
  maybeCompact

/-- The growing loop of `truncate`: a zeroed block for every hole. -/
def growLoop : List Nat → DiskInode → M DiskInode
  | [], inode => pure inode
  | i :: is, inode =>
    if inode.ptr i = 0 then do
      let blockNum ← writeDataBlock Block.zero
      growLoop is (inode.setPtr i blockNum)
    else growLoop is inode

def truncate (inodeId size : Nat) : M Unit := do
  let inode ← loadInode inodeId
  failIf (inode.inodeType = inodeTypeDir) .isADirectory
  failIf (lfsMaxFileSize < size) .noSpace
  let oldSize := inode.size
  let inode := { inode with size := size }
  let inode ← (
    if size < oldSize then pure (inode.clearFrom (dataBlocks size))
    else if oldSize < size then do
      ensureWriter
      failIf (u32Size ≤ oldSize) .ioError
      growLoop (List.range' (dataBlocks oldSize) (dataBlocks size - dataBlocks oldSize)) inode
    else pure inode)
  ensureWriter
  writeInode inodeId inode

def sync : M Unit := do
  onDisk Disk.flush
  let s ← get
  if s.writer.isSome then do
    withLog (fun _ => .ioError) (Log.writeCheckpoint
      (s.superblock.checkpointBlockA, s.superblock.checkpointBlockB)
      s.checkpointSequence s.nextInode)
    modify fun s => { s with checkpointSequence := (s.checkpointSequence + 1) % u64Size }
    onDisk Disk.flush
  else pure ()

end Lfs

end Thumos
