import Thumos.Lfs.Segment

/-!
# The on-disk structures

The records of `lfs.rs` with their byte layouts: the superblock, the inode,
the directory entries of a data block and the segment header.

All fields are little-endian and packed without gaps, so a record is encoded
and decoded by `LittleEndian.encode` and `LittleEndian.decode` with the list of
its field widths.  A name is the list of its UTF-8 bytes.
-/

namespace Thumos

open StateExcept LittleEndian List

abbrev lfsMagic : Nat := 0x4C465321
abbrev lfsVersion : Nat := 1
abbrev defaultSegmentSize : Nat := 256
abbrev superblockBlock : Nat := 0

abbrev checkpointSlotBlocks : Nat := 64

abbrev checkpointSlotA : Nat := 1
abbrev checkpointSlotB : Nat := checkpointSlotA + checkpointSlotBlocks
abbrev imapRegionStart : Nat := 3
abbrev defaultImapBlocks : Nat := 4
abbrev inodeTypeFile : Nat := 1
abbrev inodeTypeDir : Nat := 2
abbrev directBlockCount : Nat := 12

abbrev lfsMaxFileSize : Nat := directBlockCount * blockSize

abbrev dirEntryHeaderSize : Nat := 8
abbrev segmentMagic : Nat := 0x53454721

theorem decode_ofBytes_encode {fs : List (Nat × Nat)} {ws : List Nat} (hw : ws = fs.map Prod.fst)
    (hlen : ws.sum ≤ blockSize) (h : ∀ f ∈ fs, f.2 < 256 ^ f.1) :
    decode ws (Block.ofBytes (encode fs)).bytes = fs.map Prod.snd := by
  subst hw
  have hle : (encode fs).length ≤ blockSize := by
    rw [encode_length]
    exact hlen
  rw [Block.bytes_ofBytes hle, decode_encode fs _ h]

/-! ## The superblock -/

structure LfsSuperblock where
  magic : Nat
  version : Nat
  blockCount : Nat
  segmentSize : Nat
  segmentCount : Nat
  checkpointBlockA : Nat
  checkpointBlockB : Nat
  imapBlock : Nat
  imapBlockCount : Nat
  rootInode : Nat
  nextInode : Nat
  deriving DecidableEq

namespace LfsSuperblock

def fields (sb : LfsSuperblock) : List (Nat × Nat) :=
  [(4, sb.magic), (4, sb.version), (8, sb.blockCount), (4, sb.segmentSize), (4, sb.segmentCount),
    (8, sb.checkpointBlockA), (8, sb.checkpointBlockB), (8, sb.imapBlock), (4, sb.imapBlockCount),
    (4, sb.rootInode), (4, sb.nextInode)]

def widths : List Nat := [4, 4, 8, 4, 4, 8, 8, 8, 4, 4, 4]

def toBlock (sb : LfsSuperblock) : Block := Block.ofBytes (encode sb.fields)

/-- `LfsSuperblock::from_block`.  Only the magic number and the version are
checked. -/
def fromBlock (buf : Block) : Except LfsError LfsSuperblock :=
  let v := decode widths buf.bytes
  if v.getD 0 0 ≠ lfsMagic then .error .invalidSuperblock
  else if v.getD 1 0 ≠ lfsVersion then .error .invalidSuperblock
  else
    .ok
      { magic := v.getD 0 0
        version := v.getD 1 0
        blockCount := v.getD 2 0
        segmentSize := v.getD 3 0
        segmentCount := v.getD 4 0
        checkpointBlockA := v.getD 5 0
        checkpointBlockB := v.getD 6 0
        imapBlock := v.getD 7 0
        imapBlockCount := v.getD 8 0
        rootInode := v.getD 9 0
        nextInode := v.getD 10 0 }

def InRange (sb : LfsSuperblock) : Prop := ∀ f ∈ sb.fields, f.2 < 256 ^ f.1

theorem fromBlock_toBlock {sb : LfsSuperblock} (h : sb.InRange) (hm : sb.magic = lfsMagic)
    (hv : sb.version = lfsVersion) : fromBlock sb.toBlock = .ok sb := by
  have hdec : decode widths sb.toBlock.bytes = sb.fields.map Prod.snd :=
    decode_ofBytes_encode rfl (by decide) h
  unfold fromBlock
  rw [hdec]
  simp [fields, hm, hv]
  cases sb
  simp_all

end LfsSuperblock

/-! ## Inodes -/

/-- An inode.  The indirect pointer is stored and never followed. -/
@[ext] structure DiskInode where
  inodeType : Nat
  linkCount : Nat
  size : Nat
  direct : List Nat
  indirect : Nat
  direct_length : direct.length = directBlockCount

namespace DiskInode

def fields (n : DiskInode) : List (Nat × Nat) :=
  (1, n.inodeType) :: (2, n.linkCount) :: (8, n.size) ::
    (n.direct.map (fun p => (8, p)) ++ [(8, n.indirect)])

def widths : List Nat := 1 :: 2 :: 8 :: (List.replicate directBlockCount 8 ++ [8])

/-- `DiskInode::write_to` at offset 0 of a zeroed block. -/
def writeTo (n : DiskInode) : Block := Block.ofBytes (encode n.fields)

/-- `DiskInode::read_from` at offset 0 of a block.  A block is always long
enough, so this cannot fail. -/
def readFrom (buf : Block) : DiskInode :=
  let v := decode widths buf.bytes
  { inodeType := v.getD 0 0
    linkCount := v.getD 1 0
    size := v.getD 2 0
    direct := (v.drop 3).take directBlockCount
    indirect := v.getD 15 0
    direct_length := by simp [v, widths] }

def new (inodeType : Nat) : DiskInode where
  inodeType := inodeType
  linkCount := 1
  size := 0
  direct := List.replicate directBlockCount 0
  indirect := 0
  direct_length := rfl

def ptr (n : DiskInode) (i : Nat) : Nat := n.direct.getD i 0

def setPtr (n : DiskInode) (i block : Nat) : DiskInode :=
  { n with
    direct := n.direct.set i block
    direct_length := by rw [List.length_set, n.direct_length] }

/-- `inode.direct[i] = 0` for every `i` from `k` on. -/
def clearFrom (n : DiskInode) (k : Nat) : DiskInode :=
  { n with
    direct := n.direct.mapIdx fun i p => if i < k then p else 0
    direct_length := by rw [List.length_mapIdx, n.direct_length] }

structure InRange (n : DiskInode) : Prop where
  inodeType_lt : n.inodeType < 2 ^ 8
  linkCount_lt : n.linkCount < 2 ^ 16
  size_lt : n.size < u64Size
  direct_lt : ∀ p ∈ n.direct, p < u64Size
  indirect_lt : n.indirect < u64Size

theorem map_fst_fields (n : DiskInode) : widths = n.fields.map Prod.fst := by
  have hptrs : (n.direct.map fun p => (8, p)).map Prod.fst = replicate directBlockCount 8 := by
    rw [map_map, ← n.direct_length]
    exact map_const
  simp only [widths, fields, map_cons, map_append, hptrs, map_nil]

theorem readFrom_writeTo {n : DiskInode} (h : n.InRange) : readFrom n.writeTo = n := by
  have hlt : ∀ f ∈ n.fields, f.2 < 256 ^ f.1 := by
    intro f hf
    simp only [fields, mem_cons, mem_append, mem_map, not_mem_nil,
      or_false] at hf
    rcases hf with rfl | rfl | rfl | ⟨p, hp, rfl⟩ | rfl
    · exact h.inodeType_lt
    · exact h.linkCount_lt
    · exact h.size_lt
    · exact h.direct_lt p hp
    · exact h.indirect_lt
  have hdec : decode widths n.writeTo.bytes = n.fields.map Prod.snd :=
    decode_ofBytes_encode n.map_fst_fields (by decide) hlt
  have hvals : n.fields.map Prod.snd =
      n.inodeType :: n.linkCount :: n.size :: (n.direct ++ [n.indirect]) := by
    simp [fields, Function.comp_def]
  have hlen := n.direct_length
  apply DiskInode.ext
  · simp [readFrom, hdec, hvals]
  · simp [readFrom, hdec, hvals]
  · simp [readFrom, hdec, hvals]
  · simp [readFrom, hdec, hvals, ← hlen]
  · simp [readFrom, hdec, hvals, hlen]

theorem mem_direct_iff (n : DiskInode) {p : Nat} :
    p ∈ n.direct ↔ ∃ i < directBlockCount, n.ptr i = p := by
  rw [mem_iff_getElem]
  constructor
  · intro hp
    obtain ⟨i, hi, rfl⟩ := hp
    refine ⟨i, by rw [← n.direct_length]; exact hi, ?_⟩
    simp [ptr, hi]
  · intro hp
    obtain ⟨i, hi, rfl⟩ := hp
    have hi' : i < n.direct.length := by
      rw [n.direct_length]
      exact hi
    exact ⟨i, hi', by simp [ptr, hi']⟩

theorem ptr_of_le (n : DiskInode) {i : Nat} (h : directBlockCount ≤ i) : n.ptr i = 0 := by
  have hlen := n.direct_length
  simp [ptr, show n.direct.length ≤ i by omega]

theorem ptr_new (t i : Nat) : (new t).ptr i = 0 := by
  simp only [ptr, new, getD_eq_getElem?_getD, getElem?_replicate]
  split <;> rfl

@[simp] theorem setPtr_direct (n : DiskInode) (i b : Nat) :
    (n.setPtr i b).direct = n.direct.set i b := rfl

theorem ptr_setPtr (n : DiskInode) {i : Nat} (b j : Nat) (hi : i < directBlockCount) :
    (n.setPtr i b).ptr j = if j = i then b else n.ptr j := by
  have hi' : i < n.direct.length := by
    rw [n.direct_length]
    exact hi
  simp only [ptr, setPtr_direct, getD_eq_getElem?_getD, getElem?_set]
  by_cases hij : i = j
  · subst hij
    simp [hi']
  · simp [hij, Ne.symm hij]

theorem ptr_clearFrom (n : DiskInode) (k j : Nat) :
    (n.clearFrom k).ptr j = if j < k then n.ptr j else 0 := by
  simp only [ptr, clearFrom, getD_eq_getElem?_getD, getElem?_mapIdx]
  cases hj : n.direct[j]? <;> simp

end DiskInode

def segmentHeaderBlock (sequence blockCount : Nat) : Block :=
  Block.ofBytes (encode [(4, segmentMagic), (8, sequence), (8, 0), (4, blockCount)])

/-! ## Directory blocks -/

structure DiskDirEntry where
  inodeId : Nat
  nameLen : Nat
  recordLen : Nat
  name : List UInt8
  deriving DecidableEq

/-- The byte ranges that may follow a lead byte of UTF-8. -/
def utf8Tail (b : UInt8) : Option (List (UInt8 × UInt8)) :=
  if b < 0x80 then some []
  else if b < 0xC2 then none
  else if b < 0xE0 then some [(0x80, 0xBF)]
  else if b = 0xE0 then some [(0xA0, 0xBF), (0x80, 0xBF)]
  else if b = 0xED then some [(0x80, 0x9F), (0x80, 0xBF)]
  else if b < 0xF0 then some [(0x80, 0xBF), (0x80, 0xBF)]
  else if b = 0xF0 then some [(0x90, 0xBF), (0x80, 0xBF), (0x80, 0xBF)]
  else if b < 0xF4 then some [(0x80, 0xBF), (0x80, 0xBF), (0x80, 0xBF)]
  else if b = 0xF4 then some [(0x80, 0x8F), (0x80, 0xBF), (0x80, 0xBF)]
  else none

/-- How many bytes follow the lead byte as the ranges ask. -/
def utf8Match : List (UInt8 × UInt8) → List UInt8 → Nat
  | (lo, hi) :: rs, c :: cs => if lo ≤ c ∧ c ≤ hi then utf8Match rs cs + 1 else 0
  | _, _ => 0

/-- Every maximal ill-formed part becomes U+FFFD.
The first argument bounds the number of characters. -/
def fromUtf8Lossy : Nat → List UInt8 → List UInt8
  | _, [] => []
  | 0, _ => []
  | n + 1, b :: bs =>
    match utf8Tail b with
    | none => 0xEF :: 0xBF :: 0xBD :: fromUtf8Lossy n bs
    | some ranges =>
      let k := utf8Match ranges bs
      if k = ranges.length then b :: (bs.take k ++ fromUtf8Lossy n (bs.drop k))
      else 0xEF :: 0xBF :: 0xBD :: fromUtf8Lossy n (bs.drop k)

/-- The loop of `parse_dir_entries` over `buf[offset..]`.  A record moves the
offset on by at least one byte, so a block's length is enough turns. -/
def parseDirRecords : Nat → List UInt8 → Option (List DiskDirEntry)
  | 0, _ => some []
  | n + 1, buf =>
    if shorter buf dirEntryHeaderSize then some []
    else
      let v := decode [4, 2, 2] buf
      let inodeId := v.getD 0 0
      let nameLen := v.getD 1 0
      let recordLen := v.getD 2 0
      if recordLen = 0 then some []
      else if inodeId ≠ 0 ∧ 0 < nameLen then
        -- the name has to fit both its own record and the block
        if recordLen < dirEntryHeaderSize + nameLen then none
        else if shorter buf (dirEntryHeaderSize + nameLen) then none
        else do
          let name := fromUtf8Lossy nameLen ((buf.drop dirEntryHeaderSize).take nameLen)
          let rest ← parseDirRecords n (buf.drop recordLen)
          some (⟨inodeId, nameLen, recordLen, name⟩ :: rest)
      else parseDirRecords n (buf.drop recordLen)

/-- `parse_dir_entries`; `none` stands for its `IoError`. -/
def parseDirEntries (buf : Block) : Option (List DiskDirEntry) :=
  parseDirRecords blockSize buf.bytes

/-- `(DIR_ENTRY_HEADER_SIZE + name.len() + 3) & !3`. -/
def alignedRecordLen (name : List UInt8) : Nat :=
  (dirEntryHeaderSize + name.length + 3) / 4 * 4

inductive VfsError where
  | notFound
  | notADirectory
  | isADirectory
  | alreadyExists
  | notEmpty
  | invalidPath
  | noSpace
  | ioError
  | permissionDenied
  | tooManyLinks
  | requiresMut
  deriving DecidableEq, Repr

/-- The record loop of `write_dir_block`, which fills `buf[offset..]`. -/
def encodeDirRecords : Nat → List DiskDirEntry → Except VfsError (List UInt8)
  | _, [] => .ok []
  | offset, e :: es =>
    let recordLen := alignedRecordLen e.name
    if 2 ^ 16 ≤ e.name.length then .error .invalidPath
    else if 2 ^ 16 ≤ recordLen ∨ blockSize < recordLen then .error .invalidPath
    else if blockSize < offset + recordLen then .error .noSpace
    else do
      let rest ← encodeDirRecords (offset + recordLen) es
      .ok (encode [(4, e.inodeId), (2, e.name.length), (2, recordLen)] ++
        e.name.takeD (recordLen - dirEntryHeaderSize) 0 ++ rest)

end Thumos
