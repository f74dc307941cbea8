import Thumos.Lfs.Writer

/-!
# The compactor

The model of `lfs_compact.rs`: pick the used segment with the fewest live
blocks, copy them to the write head, and free the segment.  A live block is an
inode block of the inode map or a block that one of those inodes points to.
-/

namespace Thumos

open StateExcept

/-- The segments that ordinary writers can still get have
dropped below the threshold. -/
def needsCompaction (m : LfsSegmentManager) : Bool :=
  if m.segmentCount = 0 then false
  else
    let threshold := max (m.segmentCount * compactThresholdPercent / 100) 1
    let usableFree := m.freeCount - 1
    usableFree < threshold

structure CompactCandidate where
  segmentIdx : Nat
  liveInodes : List (Nat × Nat)
  liveDataBlocks : List Nat
  liveCount : Nat

namespace DiskInode

def livePointers (n : DiskInode) : List Nat :=
  n.direct.filter (· ≠ 0) ++ (if n.indirect ≠ 0 then [n.indirect] else [])

def redirect (n : DiskInode) (old new : Nat) : DiskInode :=
  { n with
    direct := n.direct.map fun p => if p = old then new else p
    indirect := if n.indirect = old then new else n.indirect
    direct_length := by rw [List.length_map, n.direct_length] }

def pointsTo (n : DiskInode) (old : Nat) : Bool := n.direct.contains old || n.indirect == old

end DiskInode

namespace Log

def validateBlockNum (deviceBlocks block : Nat) : M Unit :=
  failIf (block = 0 ∨ deviceBlocks ≤ block) .corrupt

def readBlock (block : Nat) : M Block := onDisk (Disk.io (Disk.read block))

def readInode (block : Nat) : M DiskInode := DiskInode.readFrom <$> readBlock block

/-- The pointers of all live inodes, in imap order. -/
def liveDataPointers (deviceBlocks : Nat) (entries : List (Nat × Nat)) : M (List Nat) :=
  entries.foldlM (fun acc e => do
    validateBlockNum deviceBlocks e.2
    let inode ← readInode e.2
    pure (acc ++ inode.livePointers)) []

def inSegment (m : LfsSegmentManager) (seg block : Nat) : Bool :=
  m.segmentStartBlock seg ≤ block && block < m.segmentStartBlock seg + m.segmentSize

def candidateOf (m : LfsSegmentManager) (entries : List (Nat × Nat)) (pointers : List Nat)
    (seg : Nat) : CompactCandidate :=
  let liveInodes := entries.filter fun e => inSegment m seg e.2
  let liveDataBlocks := pointers.filter fun p => inSegment m seg p
  ⟨seg, liveInodes, liveDataBlocks, liveInodes.length + liveDataBlocks.length⟩

/-- One turn of the scan in `pick_candidate`: free segments and the writer's
own segment are passed over, and the first segment with the fewest live blocks
wins. -/
def scanSegment (m : LfsSegmentManager) (current : Nat) (entries : List (Nat × Nat))
    (pointers : List Nat) (best : Option CompactCandidate) (seg : Nat) :
    Option CompactCandidate :=
  if m.isFree seg || seg == current then best
  else
    let candidate := candidateOf m entries pointers seg
    match best with
    | none => some candidate
    | some b => if candidate.liveCount < b.liveCount then some candidate else some b

def pickCandidate (deviceBlocks : Nat) : M CompactCandidate := do
  let s ← get
  let entries := s.imap.toList
  let pointers ← liveDataPointers deviceBlocks entries
  let best := (List.range' 1 (s.segments.segmentCount - 1)).foldl
    (scanSegment s.segments s.writer.currentSegment entries pointers) none
  okOr best .noCompactionCandidate

/-- One turn of the loop of `update_data_block_references`. -/
def updateReference (deviceBlocks oldBlock newBlock : Nat) (e : Nat × Nat) : M Unit := do
  validateBlockNum deviceBlocks e.2
  let inode ← readInode e.2
  if inode.pointsTo oldBlock then do
    let _ ← writeInode true e.1 (inode.redirect oldBlock newBlock)
    pure ()
  else pure ()

def updateDataBlockReferences (deviceBlocks oldBlock newBlock : Nat) : M Unit := do
  let s ← get
  s.imap.toList.foldlM (fun _ e => updateReference deviceBlocks oldBlock newBlock e) ()

def relocateInode (e : Nat × Nat) : M Unit := do
  let inode ← readInode e.2
  let _ ← writeInode true e.1 inode
  pure ()

def relocateDataBlock (deviceBlocks oldBlock : Nat) : M Unit := do
  let buf ← readBlock oldBlock
  let newBlock ← writeDataBlock true buf
  updateDataBlockReferences deviceBlocks oldBlock newBlock

/-- Whether an inode of the map, or a block it
points to, still lies in the segment. -/
def segmentHasLiveBlocks (deviceBlocks seg : Nat) : List (Nat × Nat) → M Bool
  | [] => pure false
  | e :: es => do
    let s ← get
    if inSegment s.segments seg e.2 then pure true
    else do
      validateBlockNum deviceBlocks e.2
      let inode ← readInode e.2
      if inode.livePointers.any (inSegment s.segments seg) then pure true
      else segmentHasLiveBlocks deviceBlocks seg es

def relocate (deviceBlocks : Nat) (candidate : CompactCandidate) : M Nat := do
  let copied ← candidate.liveInodes.foldlM (fun copied e => do
    relocateInode e
    pure (copied + 1)) 0
  candidate.liveDataBlocks.foldlM (fun copied old => do
    relocateDataBlock deviceBlocks old
    pure (copied + 1)) copied

/-- The other half of `compact_one_segment`: the segment is freed unless
something live is left in it. -/
def freeCompacted (deviceBlocks seg : Nat) : M Unit := do
  let s ← get
  let live ← segmentHasLiveBlocks deviceBlocks seg s.imap.toList
  failIf (live = true) .corrupt
  let s ← get
  setSegments (s.segments.free seg)

def compactOneSegment (deviceBlocks : Nat) : M Nat := do
  let candidate ← pickCandidate deviceBlocks
  let copied ← relocate deviceBlocks candidate
  freeCompacted deviceBlocks candidate.segmentIdx
  pure copied

end Log

end Thumos
