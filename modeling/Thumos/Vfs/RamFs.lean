import Thumos.Lib.Content
import Thumos.Lib.GuardedRun
import Thumos.Lfs.Filesystem

/-!
# The in-memory filesystem

The model of `ramfs.rs`: a vector of inodes, each with its bytes and its
children.  Offsets and sizes are 64-bit, and `as usize` keeps their low 32
bits.

What the filesystem is for is a tree of byte arrays, `Tree`: a directory maps
names to inodes, and every other inode has a `Content`.  `RamFs.tree` reads an
inode vector as such a tree.
-/

namespace Thumos

open GuardedRun

abbrev ramfsMaxFileSize : Nat := 64 * 1024 * 1024

/-- `n as usize` -/
def asUsize (n : Nat) : Nat := n % 2 ^ 32

abbrev Name := List UInt8

structure RamInode where
  inodeType : InodeType
  data : List UInt8
  children : List (Name × Nat)
  parent : Nat

structure RamFs where
  inodes : List RamInode
  nextInode : Nat

namespace RamFs

def new : RamFs := ⟨[⟨.directory, [], [], 0⟩], 1⟩

def childOf (children : List (Name × Nat)) (name : Name) : Option Nat :=
  (children.find? fun c => c.1 = name).map Prod.snd

def fileInode (fs : RamFs) (inodeId : Nat) : Except VfsError RamInode :=
  match fs.inodes[inodeId]? with
  | none => .error .notFound
  | some inode => if inode.inodeType = .directory then .error .isADirectory else .ok inode

def dirInode (fs : RamFs) (inodeId : Nat) : Except VfsError RamInode :=
  match fs.inodes[inodeId]? with
  | none => .error .notFound
  | some inode => if inode.inodeType ≠ .directory then .error .notADirectory else .ok inode

def setInode (fs : RamFs) (inodeId : Nat) (inode : RamInode) : RamFs :=
  { fs with inodes := fs.inodes.set inodeId inode }

def read (fs : RamFs) (inodeId : Nat) (offset : UInt64) (len : Nat) :
    Except VfsError (List UInt8) := do
  let inode ← fs.fileInode inodeId
  let off := asUsize offset.toNat
  if inode.data.length ≤ off then .ok []
  else .ok ((inode.data.drop off).take (min len (inode.data.length - off)))

def write (fs : RamFs) (inodeId : Nat) (offset : UInt64) (buf : List UInt8) :
    Except VfsError RamFs := do
  let inode ← fs.fileInode inodeId
  let fin := offset.toNat + buf.length
  if 2 ^ 64 ≤ fin ∨ ramfsMaxFileSize < fin then .error .noSpace
  else
    let off := asUsize offset.toNat
    let data := if inode.data.length < asUsize fin then Content.resize inode.data (asUsize fin)
      else inode.data
    .ok (fs.setInode inodeId { inode with data := Content.splice data off buf })

def truncate (fs : RamFs) (inodeId : Nat) (size : UInt64) : Except VfsError RamFs := do
  let inode ← fs.fileInode inodeId
  if ramfsMaxFileSize < size.toNat then .error .noSpace
  else .ok (fs.setInode inodeId
    { inode with data := Content.resize inode.data (asUsize size.toNat) })

def create (fs : RamFs) (dir : Nat) (name : Name) (inodeType : InodeType) :
    Except VfsError (Nat × RamFs) := do
  let inode ← fs.dirInode dir
  if inode.children.any fun c => c.1 = name then .error .alreadyExists
  else
    let id := fs.nextInode
    let inodes := fs.inodes ++ [⟨inodeType, [], [], dir⟩]
    .ok (id, ⟨inodes.set dir { inode with children := inode.children ++ [(name, id)] },
      fs.nextInode + 1⟩)

def occupied (fs : RamFs) (id : Nat) : Bool :=
  match fs.inodes[id]? with
  | none => false
  | some child => decide (child.inodeType = .directory) && !child.children.isEmpty

/-- `unlink`.  The inode of the entry keeps its place in the vector. -/
def unlink (fs : RamFs) (dir : Nat) (name : Name) : Except VfsError RamFs := do
  let inode ← fs.dirInode dir
  match inode.children.findIdx? fun c => c.1 = name with
  | none => .error .notFound
  | some pos =>
    match inode.children[pos]? with
    | none => .error .notFound
    | some child =>
      if fs.occupied child.2 then .error .notEmpty
      else .ok (fs.setInode dir { inode with children := inode.children.eraseIdx pos })

end RamFs

/-! ## Calls -/

inductive FsCall where
  | create (dir : UInt32) (name : Name) (inodeType : InodeType)
  | write (inodeId : UInt32) (offset : UInt64) (buf : List UInt8)
  | truncate (inodeId : UInt32) (size : UInt64)
  | unlink (dir : UInt32) (name : Name)
  | read (inodeId : UInt32) (offset : UInt64) (len : UInt32)

inductive FsAnswer where
  | inode (id : Nat)
  | count (n : Nat)
  | done
  | bytes (data : List UInt8)

/-- The filesystem and the answer after a call; an error leaves it alone. -/
def RamFs.run (fs : RamFs) : FsCall → Except VfsError FsAnswer × RamFs
  | .create dir name type =>
    match fs.create dir.toNat name type with
    | .ok (id, fs') => (.ok (.inode id), fs')
    | .error e => (.error e, fs)
  | .write id offset buf =>
    match fs.write id.toNat offset buf with
    | .ok fs' => (.ok (.count buf.length), fs')
    | .error e => (.error e, fs)
  | .truncate id size =>
    match fs.truncate id.toNat size with
    | .ok fs' => (.ok .done, fs')
    | .error e => (.error e, fs)
  | .unlink dir name =>
    match fs.unlink dir.toNat name with
    | .ok fs' => (.ok .done, fs')
    | .error e => (.error e, fs)
  | .read id offset len =>
    match fs.read id.toNat offset len.toNat with
    | .ok data => (.ok (.bytes data), fs)
    | .error e => (.error e, fs)

/-! ## Trees of byte arrays -/

inductive TreeNode where
  | directory (entries : Name → Option Nat)
  | file (inodeType : InodeType) (content : Content)

structure Tree where
  node : Nat → Option TreeNode
  next : Nat

namespace Tree

def fresh (inodeType : InodeType) : TreeNode :=
  if inodeType = .directory then .directory fun _ => none else .file inodeType .empty

def set (t : Tree) (id : Nat) (n : TreeNode) : Tree :=
  { t with node := Function.update t.node id (some n) }

def Occupied (t : Tree) (id : Nat) : Prop :=
  ∃ entries, t.node id = some (.directory entries) ∧ ∃ name, entries name ≠ none

def contentOf (t : Tree) (id : Nat) : Except VfsError (InodeType × Content) :=
  match t.node id with
  | none => .error .notFound
  | some (.directory _) => .error .isADirectory
  | some (.file type content) => .ok (type, content)

def entriesOf (t : Tree) (id : Nat) : Except VfsError (Name → Option Nat) :=
  match t.node id with
  | none => .error .notFound
  | some (.directory entries) => .ok entries
  | some (.file _ _) => .error .notADirectory

open Classical in
noncomputable def run (t : Tree) : FsCall → Except VfsError FsAnswer × Tree
  | .create dir name type =>
    match t.entriesOf dir.toNat with
    | .error e => (.error e, t)
    | .ok entries =>
      if entries name ≠ none then (.error .alreadyExists, t)
      else (.ok (.inode t.next),
        { (t.set t.next (fresh type)).set dir.toNat
            (.directory (Function.update entries name (some t.next))) with next := t.next + 1 })
  | .write id offset buf =>
    match t.contentOf id.toNat with
    | .error e => (.error e, t)
    | .ok (type, content) =>
      if ramfsMaxFileSize < offset.toNat + buf.length then (.error .noSpace, t)
      else (.ok (.count buf.length), t.set id.toNat (.file type (content.write offset.toNat buf)))
  | .truncate id size =>
    match t.contentOf id.toNat with
    | .error e => (.error e, t)
    | .ok (type, content) =>
      if ramfsMaxFileSize < size.toNat then (.error .noSpace, t)
      else (.ok .done, t.set id.toNat (.file type (content.truncate size.toNat)))
  | .unlink dir name =>
    match t.entriesOf dir.toNat with
    | .error e => (.error e, t)
    | .ok entries =>
      match entries name with
      | none => (.error .notFound, t)
      | some child =>
        if t.Occupied child then (.error .notEmpty, t)
        else (.ok .done, t.set dir.toNat (.directory (Function.update entries name none)))
  | .read id offset len =>
    match t.contentOf id.toNat with
    | .error e => (.error e, t)
    | .ok (_, content) => (.ok (.bytes (content.read offset.toNat len.toNat)), t)

end Tree

namespace RamFs

def nodeOf (inode : RamInode) : TreeNode :=
  if inode.inodeType = .directory then .directory (childOf inode.children)
  else .file inode.inodeType (.ofList inode.data)

def tree (fs : RamFs) : Tree := ⟨fun id => fs.inodes[id]?.map nodeOf, fs.nextInode⟩

/-- Ids are indices, names are unique in a directory, and no file is too
large. -/
structure WellFormed (fs : RamFs) : Prop where
  next : fs.nextInode = fs.inodes.length
  names : ∀ inode ∈ fs.inodes, (inode.children.map Prod.fst).Nodup
  bounded : ∀ inode ∈ fs.inodes, inode.data.length ≤ ramfsMaxFileSize

end RamFs

end Thumos
