import Thumos.Vfs.RamFs

/-!
# The in-memory filesystem refines a tree of byte arrays

Every call on a well-formed inode vector does to its tree what the call means
there, and answers the same, as long as a read offset fits in 32 bits.  A run
from the empty filesystem stays well formed.
-/

namespace Thumos

open GuardedRun Function List

namespace RamFs

variable {fs : RamFs} {id : Nat} {inode inode' : RamInode}

/-! ## Reading the tree -/

theorem nodeOf_directory (h : inode.inodeType = .directory) :
    nodeOf inode = .directory (childOf inode.children) := if_pos h

theorem nodeOf_file (h : inode.inodeType ≠ .directory) :
    nodeOf inode = .file inode.inodeType (.ofList inode.data) := if_neg h

theorem fileInode_cases (fs : RamFs) (id : Nat) :
    (∃ e, fs.fileInode id = .error e ∧ fs.tree.contentOf id = .error e) ∨
      ∃ inode, fs.inodes[id]? = some inode ∧ inode.inodeType ≠ .directory ∧
        fs.fileInode id = .ok inode ∧
        fs.tree.contentOf id = .ok (inode.inodeType, .ofList inode.data) := by
  unfold fileInode Tree.contentOf tree
  dsimp only
  cases hget : fs.inodes[id]? with
  | none => exact .inl ⟨.notFound, rfl, rfl⟩
  | some inode =>
    by_cases hdir : inode.inodeType = .directory
    · refine .inl ⟨.isADirectory, if_pos hdir, ?_⟩
      rw [Option.map_some, nodeOf_directory hdir]
    · refine .inr ⟨inode, rfl, hdir, if_neg hdir, ?_⟩
      rw [Option.map_some, nodeOf_file hdir]

theorem dirInode_cases (fs : RamFs) (id : Nat) :
    (∃ e, fs.dirInode id = .error e ∧ fs.tree.entriesOf id = .error e) ∨
      ∃ inode, fs.inodes[id]? = some inode ∧ inode.inodeType = .directory ∧
        fs.dirInode id = .ok inode ∧ fs.tree.entriesOf id = .ok (childOf inode.children) := by
  unfold dirInode Tree.entriesOf tree
  dsimp only
  cases hget : fs.inodes[id]? with
  | none => exact .inl ⟨.notFound, rfl, rfl⟩
  | some inode =>
    by_cases hdir : inode.inodeType = .directory
    · refine .inr ⟨inode, rfl, hdir, if_neg (not_not.mpr hdir), ?_⟩
      rw [Option.map_some, nodeOf_directory hdir]
    · refine .inl ⟨.notADirectory, if_pos hdir, ?_⟩
      rw [Option.map_some, nodeOf_file hdir]

theorem tree_setInode (hid : fs.inodes[id]? = some inode) (inode' : RamInode) :
    (fs.setInode id inode').tree = fs.tree.set id (nodeOf inode') := by
  have hlt : id < fs.inodes.length := (List.getElem?_eq_some_iff.mp hid).1
  unfold tree Tree.set setInode
  congr 1
  funext j
  by_cases hj : j = id
  · rw [hj, update_self, getElem?_set_self hlt, Option.map_some]
  · rw [update_of_ne hj, getElem?_set_ne (Ne.symm hj)]

theorem WellFormed.setInode (h : fs.WellFormed) (hnames : (inode'.children.map Prod.fst).Nodup)
    (hsize : inode'.data.length ≤ ramfsMaxFileSize) : (fs.setInode id inode').WellFormed := by
  have hmem : ∀ i ∈ (fs.setInode id inode').inodes, i ∈ fs.inodes ∨ i = inode' :=
    fun i hi => mem_or_eq_of_mem_set hi
  refine ⟨h.next.trans length_set.symm, ?_, ?_⟩
  · intro i hi
    rcases hmem i hi with hi | rfl
    · exact h.names i hi
    · exact hnames
  · intro i hi
    rcases hmem i hi with hi | rfl
    · exact h.bounded i hi
    · exact hsize

/-! ## Directories as maps -/

theorem childOf_append (children : List (Name × Nat)) (name : Name) (id : Nat)
    (hnew : childOf children name = none) :
    childOf (children ++ [(name, id)]) = update (childOf children) name (some id) := by
  funext n
  unfold childOf at hnew ⊢
  rw [find?_append]
  by_cases hn : n = name
  · subst hn
    rw [Option.map_eq_none_iff] at hnew
    rw [update_self, hnew]
    simp
  · have hlast : [(name, id)].find? (fun c => decide (c.1 = n)) = none := by
      simp [Ne.symm hn]
    rw [update_of_ne hn, hlast, Option.or_none]

theorem any_name_iff (children : List (Name × Nat)) (name : Name) :
    (children.any fun c => decide (c.1 = name)) = true ↔ childOf children name ≠ none := by
  unfold childOf
  rw [Ne, Option.map_eq_none_iff, find?_eq_none, any_eq_true]
  constructor
  · rintro ⟨c, hc, hname⟩ hnone
    exact hnone c hc hname
  · intro h
    by_contra hno
    exact h fun c hc hname => hno ⟨c, hc, hname⟩

theorem childOf_eraseIdx {children : List (Name × Nat)} {name : Name} {pos : Nat}
    (hnodup : (children.map Prod.fst).Nodup)
    (hpos : children.findIdx? (fun c => decide (c.1 = name)) = some pos) :
    ∃ child, children[pos]? = some child ∧ childOf children name = some child.2 ∧
      childOf (children.eraseIdx pos) = update (childOf children) name none := by
  induction children generalizing pos with
  | nil => cases hpos
  | cons c rest ih =>
    rw [map_cons, nodup_cons] at hnodup
    rw [findIdx?_cons] at hpos
    by_cases hc : c.1 = name
    · rw [if_pos (decide_eq_true hc), Option.some.injEq] at hpos
      subst hpos
      refine ⟨c, rfl, by simp [childOf, hc], ?_⟩
      funext n
      by_cases hn : n = name
      · subst hn
        rw [update_self, eraseIdx_cons_zero, childOf, Option.map_eq_none_iff,
          find?_eq_none]
        intro d hd hname
        exact hnodup.1 (mem_map.mpr ⟨d, hd, (of_decide_eq_true hname).trans hc.symm⟩)
      · have hne : c.1 ≠ n := fun h => hn (h.symm.trans hc)
        rw [update_of_ne hn, eraseIdx_cons_zero]
        simp [childOf, hne]
    · rw [if_neg (by simpa using hc), Option.map_eq_some_iff] at hpos
      obtain ⟨k, hk, rfl⟩ := hpos
      obtain ⟨child, hget, hchild, herase⟩ := ih hnodup.2 hk
      refine ⟨child, hget, ?_, ?_⟩
      · simpa [childOf, hc] using hchild
      · funext n
        have hrest := congrFun herase n
        by_cases hn : c.1 = n
        · have hne : n ≠ name := fun h => hc (hn.trans h)
          rw [update_of_ne hne, eraseIdx_cons_succ]
          simp [childOf, hn]
        · have hskip : ∀ l, childOf (c :: l) n = childOf l n := fun l => by simp [childOf, hn]
          rw [eraseIdx_cons_succ, hskip, hrest]
          by_cases hname : n = name
          · rw [hname, update_self, update_self]
          · rw [update_of_ne hname, update_of_ne hname, hskip]

theorem occupied_iff (fs : RamFs) (id : Nat) : fs.occupied id = true ↔ fs.tree.Occupied id := by
  unfold occupied Tree.Occupied tree
  dsimp only
  cases hget : fs.inodes[id]? with
  | none => simp
  | some inode =>
    by_cases hdir : inode.inodeType = .directory
    · rw [Option.map_some, nodeOf_directory hdir]
      dsimp only
      cases hchildren : inode.children with
      | nil => simp [childOf]
      | cons c rest =>
        refine ⟨fun _ => ⟨_, rfl, c.1, by simp [childOf]⟩, fun _ => ?_⟩
        rw [decide_eq_true hdir]
        rfl
    · rw [Option.map_some, nodeOf_file hdir]
      simp [hdir]

/-! ## The calls -/

def ReadFits : FsCall → Prop
  | .read _ offset _ => offset.toNat < 2 ^ 32
  | .create .. | .write .. | .truncate .. | .unlink .. => True

/-- The call does to the tree what it means there, and keeps the vector well
formed. -/
def Faithful (fs : RamFs) (c : FsCall) : Prop :=
  fs.tree.run c = ((fs.run c).1, (fs.run c).2.tree) ∧ (fs.run c).2.WellFormed

theorem asUsize_eq {n : Nat} (h : n < 2 ^ 32) : asUsize n = n := Nat.mod_eq_of_lt h

section

variable (h : fs.WellFormed)

include h

theorem WellFormed.read (inodeId len : UInt32) {offset : UInt64}
    (hfits : offset.toNat < 2 ^ 32) : fs.Faithful (.read inodeId offset len) := by
  rw [Faithful, Tree.run, RamFs.run, RamFs.read]
  rcases fs.fileInode_cases inodeId.toNat with ⟨e, hfile, hcontent⟩ | ⟨inode, -, -, hfile, hcontent⟩
  · rw [hfile, hcontent]
    exact ⟨rfl, h⟩
  rw [hfile, hcontent]
  dsimp only [bind, Except.bind]
  rw [asUsize_eq hfits, Content.read_ofList]
  by_cases heof : inode.data.length ≤ offset.toNat
  · rw [if_pos heof, Nat.sub_eq_zero_of_le heof, min_zero, take_zero]
    exact ⟨rfl, h⟩
  · rw [if_neg heof]
    exact ⟨rfl, h⟩

theorem WellFormed.write (inodeId : UInt32) (offset : UInt64)
    (buf : List UInt8) : fs.Faithful (.write inodeId offset buf) := by
  rw [Faithful, Tree.run, RamFs.run, RamFs.write]
  rcases fs.fileInode_cases inodeId.toNat with ⟨e, hfile, hcontent⟩ |
    ⟨inode, hget, htype, hfile, hcontent⟩
  · rw [hfile, hcontent]
    exact ⟨rfl, h⟩
  · rw [hfile, hcontent]
    dsimp only [bind, Except.bind]
    -- the cap is far below 2^64, so the checked addition adds no case of its own
    have hcap : (2 ^ 64 ≤ offset.toNat + buf.length ∨
        ramfsMaxFileSize < offset.toNat + buf.length) ↔
          ramfsMaxFileSize < offset.toNat + buf.length := by
      simp only [ramfsMaxFileSize]
      omega
    by_cases hlarge : ramfsMaxFileSize < offset.toNat + buf.length
    · rw [if_pos hlarge, if_pos (hcap.mpr hlarge)]
      exact ⟨rfl, h⟩
    rw [if_neg hlarge, if_neg (mt hcap.mp hlarge)]
    have hfin : offset.toNat + buf.length < 2 ^ 32 := by
      simp only [ramfsMaxFileSize] at hlarge
      omega
    rw [asUsize_eq hfin, asUsize_eq (by omega), tree_setInode hget]
    have hmem := mem_of_getElem? hget
    have hbound := h.bounded inode hmem
    refine ⟨?_, h.setInode (h.names inode hmem) ?_⟩
    · rw [nodeOf_file (by exact htype), Content.ofList_splice]
    · dsimp only
      split
      · rw [Content.length_splice (by rw [Content.length_resize]), Content.length_resize]
        omega
      · rw [Content.length_splice (by omega)]
        exact hbound

theorem WellFormed.truncate (inodeId : UInt32) (size : UInt64) :
    fs.Faithful (.truncate inodeId size) := by
  rw [Faithful, Tree.run, RamFs.run, RamFs.truncate]
  rcases fs.fileInode_cases inodeId.toNat with ⟨e, hfile, hcontent⟩ |
    ⟨inode, hget, htype, hfile, hcontent⟩
  · rw [hfile, hcontent]
    exact ⟨rfl, h⟩
  · rw [hfile, hcontent]
    dsimp only [bind, Except.bind]
    by_cases hlarge : ramfsMaxFileSize < size.toNat
    · rw [if_pos hlarge, if_pos hlarge]
      exact ⟨rfl, h⟩
    rw [if_neg hlarge, if_neg hlarge]
    have hsize : size.toNat < 2 ^ 32 := by
      simp only [ramfsMaxFileSize] at hlarge
      omega
    rw [asUsize_eq hsize, tree_setInode hget]
    refine ⟨?_, h.setInode (h.names inode (mem_of_getElem? hget)) ?_⟩
    · rw [nodeOf_file (by exact htype), Content.ofList_resize]
    · rw [Content.length_resize]
      omega

theorem WellFormed.unlink (dir : UInt32) (name : Name) :
    fs.Faithful (.unlink dir name) := by
  rw [Faithful, Tree.run, RamFs.run, RamFs.unlink]
  rcases fs.dirInode_cases dir.toNat with ⟨e, hdir, hentries⟩ | ⟨inode, hget, htype, hdir, hentries⟩
  · rw [hdir, hentries]
    exact ⟨rfl, h⟩
  rw [hdir, hentries]
  dsimp only [bind, Except.bind]
  have hmem := mem_of_getElem? hget
  cases hpos : inode.children.findIdx? (fun c => decide (c.1 = name)) with
  | none =>
    have hnone : childOf inode.children name = none := by
      rw [childOf, Option.map_eq_none_iff, find?_eq_none]
      exact fun c hc => by simpa using findIdx?_eq_none_iff.mp hpos c hc
    rw [hnone]
    exact ⟨rfl, h⟩
  | some pos =>
    obtain ⟨child, hchild, hname, herase⟩ := childOf_eraseIdx (h.names inode hmem) hpos
    rw [hname]
    dsimp only
    rw [hchild]
    dsimp only
    by_cases hocc : fs.occupied child.2 = true
    · rw [if_pos hocc, if_pos ((fs.occupied_iff child.2).mp hocc)]
      exact ⟨rfl, h⟩
    rw [if_neg hocc, if_neg (mt (fs.occupied_iff child.2).mpr hocc)]
    rw [tree_setInode hget]
    refine ⟨?_, h.setInode ?_ (h.bounded inode hmem)⟩
    · rw [nodeOf_directory (by exact htype), herase]
    · have hsub := (eraseIdx_sublist inode.children pos).map Prod.fst
      exact (h.names inode hmem).sublist hsub

theorem WellFormed.create (dir : UInt32) (name : Name) (type : InodeType) :
    fs.Faithful (.create dir name type) := by
  rw [Faithful, Tree.run, RamFs.run, RamFs.create]
  rcases fs.dirInode_cases dir.toNat with ⟨e, hdir, hentries⟩ | ⟨inode, hget, htype, hdir, hentries⟩
  · rw [hdir, hentries]
    exact ⟨rfl, h⟩
  rw [hdir, hentries]
  dsimp only [bind, Except.bind]
  by_cases hany : (inode.children.any fun c => decide (c.1 = name)) = true
  · rw [if_pos hany, if_pos ((any_name_iff _ _).mp hany)]
    exact ⟨rfl, h⟩
  have hnone : childOf inode.children name = none :=
    not_not.mp (mt (any_name_iff _ _).mpr hany)
  rw [if_neg hany, if_neg (not_not.mpr hnone)]
  have hmem := mem_of_getElem? hget
  have hlt : dir.toNat < fs.inodes.length := (List.getElem?_eq_some_iff.mp hget).1
  have hnext := h.next
  refine ⟨?_, ?_, ?_, ?_⟩
  · show (_, Tree.mk _ _) = (_, Tree.mk _ _)
    congr 2
    funext j
    show update (update fs.tree.node fs.nextInode _) dir.toNat _ j =
      ((fs.inodes ++ [_]).set dir.toNat _)[j]?.map nodeOf
    rcases Nat.lt_trichotomy j fs.inodes.length with hj | hj | hj
    · by_cases hjd : j = dir.toNat
      · rw [hjd, update_self, getElem?_set_self (by simp; omega), Option.map_some,
          nodeOf_directory (by exact htype), childOf_append _ _ _ hnone]
        rfl
      · rw [update_of_ne hjd, update_of_ne (by omega),
          getElem?_set_ne (Ne.symm hjd), getElem?_append_left hj]
        rfl
    · rw [hj, update_of_ne (by omega), ← hnext, update_self, hnext,
        getElem?_set_ne (by omega), getElem?_append_right le_rfl,
        Nat.sub_self, getElem?_cons_zero, Option.map_some]
      unfold Tree.fresh nodeOf
      split
      · rfl
      · rw [Content.ofList_nil]
    · rw [update_of_ne (by omega), update_of_ne (by omega),
        getElem?_eq_none (by simp; omega)]
      show fs.inodes[j]?.map nodeOf = _
      rw [getElem?_eq_none (by omega)]
  · show fs.nextInode + 1 = _
    rw [length_set, length_append, hnext]
    rfl
  · intro i hi
    rcases mem_or_eq_of_mem_set hi with hi | rfl
    · rcases mem_append.mp hi with hi | hi
      · exact h.names i hi
      · rw [mem_singleton.mp hi]
        exact nodup_nil
    · show ((inode.children ++ [(name, fs.nextInode)]).map Prod.fst).Nodup
      rw [map_append, nodup_append]
      refine ⟨h.names inode hmem, by simp, fun a ha b hb hab => ?_⟩
      rw [map_singleton, mem_singleton] at hb
      obtain ⟨c, hc, rfl⟩ := mem_map.mp ha
      exact hany (any_eq_true.mpr ⟨c, hc, decide_eq_true (hab.trans hb)⟩)
  · intro i hi
    rcases mem_or_eq_of_mem_set hi with hi | rfl
    · rcases mem_append.mp hi with hi | hi
      · exact h.bounded i hi
      · rw [mem_singleton.mp hi]
        exact Nat.zero_le _
    · exact h.bounded inode hmem

theorem WellFormed.faithful {c : FsCall} (hfits : ReadFits c) :
    fs.Faithful c := by
  cases c with
  | create dir name type => exact h.create dir name type
  | write id offset buf => exact h.write id offset buf
  | truncate id size => exact h.truncate id size
  | unlink dir name => exact h.unlink dir name
  | read id offset len => exact h.read id len hfits

end

theorem run_of_error {c : FsCall} {e : VfsError} (h : (fs.run c).1 = .error e) :
    (fs.run c).2 = fs := by
  cases c <;> simp only [RamFs.run] at h ⊢ <;> split at h <;> simp_all

theorem wellFormed_new : new.WellFormed := by
  refine ⟨rfl, ?_, ?_⟩
  · intro inode hi
    rw [mem_singleton.mp hi]
    exact nodup_nil
  · intro inode hi
    rw [mem_singleton.mp hi]
    exact Nat.zero_le _

def step (fs : RamFs) (c : FsCall) : RamFs := (fs.run c).2

/-- The filesystem stands for its tree: calls answer and act as on the tree,
reads return the bytes of the content, failed calls change nothing, and no file
is too large. -/
structure Refines (fs : RamFs) : Prop where
  calls : ∀ c, ReadFits c → fs.tree.run c = ((fs.run c).1, (fs.step c).tree)
  read : ∀ (id len : UInt32) (offset : UInt64) (type : InodeType) (content : Content),
    offset.toNat < 2 ^ 32 → fs.tree.node id.toNat = some (.file type content) →
    ∃ data, (fs.run (.read id offset len)).1 = .ok (.bytes data) ∧
      data.length = (if offset.toNat < content.size then
        min len.toNat (content.size - offset.toNat) else 0) ∧
      ∀ i < data.length, data[i]? = some (content.byte (offset.toNat + i))
  failed : ∀ c e, (fs.run c).1 = .error e → fs.step c = fs
  bounded : ∀ id type content, fs.tree.node id = some (.file type content) →
    content.size ≤ ramfsMaxFileSize

theorem WellFormed.refines (h : fs.WellFormed) : fs.Refines := by
  refine ⟨fun c hfits => (h.faithful hfits).1, ?_, fun c e he => run_of_error he, ?_⟩
  · intro id len offset type content hfits hnode
    have hcontent : fs.tree.contentOf id.toNat = .ok (type, content) := by
      rw [Tree.contentOf, hnode]
    have hrun := congrArg Prod.fst (h.read id len hfits).1
    rw [Tree.run, hcontent] at hrun
    exact ⟨_, hrun.symm, content.length_read .., fun i hi => content.read_getElem? hi⟩
  · intro id type content hnode
    obtain ⟨inode, hget, hinode⟩ := Option.map_eq_some_iff.mp hnode
    by_cases hdir : inode.inodeType = .directory
    · rw [nodeOf_directory hdir] at hinode
      cases hinode
    · rw [nodeOf_file hdir, TreeNode.file.injEq] at hinode
      rw [← hinode.2]
      exact h.bounded inode (mem_of_getElem? hget)

end RamFs

open RamFs in
/-- In every run from the empty filesystem whose read offsets fit in 32 bits,
the filesystem refines its tree in every state reached. -/
theorem ramfs_refines_tree {fs : RamFs}
    (hruns : Runs RamFs.step (fun _ c => ReadFits c) RamFs.new fs) : fs.Refines := by
  have hwell : fs.WellFormed :=
    hruns.invariant wellFormed_new fun t c ht hfits => (ht.faithful hfits).2
  exact hwell.refines

def RamFs.oneByte : RamFs :=
  (RamFs.new.step (.create 0 [97] .regularFile)).step (.write 1 0 [7])

theorem ramfs_refines_tree_oneByte : RamFs.oneByte.Refines :=
  ramfs_refines_tree (.event _ (.event _ .start trivial) trivial)

/-- A read at offset `2^32`, far past the end of the one byte, returns the
byte: the offset loses its high bits. -/
theorem ramfs_read_offset_wraps :
    (RamFs.oneByte.run (.read 1 0x100000000 1)).1 = .ok (.bytes [7]) ∧
      ∃ content, RamFs.oneByte.tree.node 1 = some (.file .regularFile content) ∧
        content.size = 1 :=
  ⟨rfl, _, rfl, rfl⟩

end Thumos
