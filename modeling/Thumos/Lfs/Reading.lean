import Thumos.Lfs.Rules

/-!
# What clients observe

The read-only calls of the filesystem as functions of the meaning of a state.
`Observation.answer` says what `stat`, `lookup`, `readdir` and `read` should
return, and `observe_spec` that a call which succeeds returns that.  So two
states with the same meaning cannot be told apart.
-/

namespace Thumos

open StateExcept List

namespace Node

def blockEntries : Option Block → Option (List DiskDirEntry)
  | none => some []
  | some b => parseDirEntries b

def entries (n : Node) : Option (List DiskDirEntry) :=
  (List.range (Lfs.dataBlocks n.size)).foldlM
    (fun acc i => (acc ++ ·) <$> blockEntries (n.blocks i)) []

/-- Byte `j` of a file, where a hole reads as zero. -/
def byteAt (n : Node) (j : Nat) : UInt8 :=
  match n.blocks (j / blockSize) with
  | none => 0
  | some b => b.byte (j % blockSize)

def blockCount (n : Node) : Nat :=
  ((List.range directBlockCount).filter fun i => (n.blocks i).isSome).length

def type? (n : Node) : Option InodeType :=
  if n.inodeType = inodeTypeFile then some .regularFile
  else if n.inodeType = inodeTypeDir then some .directory
  else none

end Node

inductive Observation where
  | stat (inodeId : Nat)
  | lookup (dirInode : Nat) (name : List UInt8)
  | readdir (dirInode : Nat)
  | read (inodeId offset len : Nat)

inductive Answer where
  | stat (st : InodeStat)
  | inode (inodeId : Nat)
  | entries (es : List DirEntry)
  | bytes (bs : List UInt8)

namespace Observation

def run : Observation → Lfs.M Answer
  | stat id => .stat <$> Lfs.stat id
  | lookup dir name => .inode <$> Lfs.lookup dir name
  | readdir dir => .entries <$> Lfs.readdir dir
  | read id offset len => .bytes <$> Lfs.read id offset len

def readdirEntry (m : Nat → Option Node) (e : DiskDirEntry) : Option DirEntry := do
  let child ← m e.inodeId
  child.type?.map fun t => ⟨e.name, e.inodeId, t⟩

def answer (m : Nat → Option Node) : Observation → Option Answer
  | stat id => do
    let n ← m id
    n.type?.map fun t => .stat ⟨id, t, n.size, n.linkCount, n.blockCount⟩
  | lookup dir name => do
    let n ← m dir
    let es ← n.entries
    let e ← es.find? fun e => e.name == name
    some (.inode e.inodeId)
  | readdir dir => do
    let n ← m dir
    let es ← n.entries
    let out ← es.foldlM (fun acc e => (acc ++ [·]) <$> readdirEntry m e) []
    some (.entries out)
  | read id offset len => do
    let n ← m id
    some (.bytes ((List.range (min len (n.size - offset))).map fun k => n.byteAt (offset + k)))

end Observation

namespace Lfs

variable {s : Lfs}

theorem meaning_of_inodeOf {c : Core} {id : Nat} {n : DiskInode} (h : inodeOf c id = some n) :
    meaning c id = some (nodeOf c.disk n) := by
  rw [meaning, h, Option.map_some]

section

variable (hs : s.Good) {id : Nat} {n : DiskInode} (hn : inodeOf s.core id = some n)

include hs hn

/-- A pointer of a live inode reads the same in every later quiet state. -/
theorem readPtr_spec {i : Nat} (hi : n.ptr i ≠ 0) {s' : Lfs} (hq : Quiet s s') :
    wp (readBlock (n.ptr i))
      (fun x s'' => (nodeOf s.disk n).blocks i = some x ∧ Quiet s s'') (fun _ s'' => Quiet s s'')
      s' := by
  refine wp_conseq (readBlock_spec hq.logOk (n.ptr i)) ?_ fun _ _ h => hq.trans h
  intro x s'' hpost
  obtain ⟨rfl, hq'⟩ := hpost
  refine ⟨?_, hq.trans hq'⟩
  have hview : s'.disk.view (n.ptr i) = s.disk.view (n.ptr i) :=
    hq.log.view (hs.ptr_protected hn i hi)
  rw [hview]
  exact if_neg hi

theorem readDirBlock_spec (i : Nat) {s' : Lfs} (hq : Quiet s s') :
    wp (readDirBlock (n.ptr i))
      (fun es s'' => Node.blockEntries ((nodeOf s.disk n).blocks i) = some es ∧ Quiet s s'')
      (fun _ s'' => Quiet s s'') s' := by
  unfold readDirBlock
  rw [wp_ite]
  constructor
  · intro h0
    have hnone : (nodeOf s.disk n).blocks i = none := if_pos h0
    rw [wp_pure, hnone]
    exact ⟨rfl, hq⟩
  · intro h0
    simp only [wp_bind, wp_okOr]
    refine wp_post (readPtr_spec hs hn h0 hq) ?_
    intro x s'' hpost
    obtain ⟨hblock, hq'⟩ := hpost
    rw [hblock]
    exact ⟨fun es hes => ⟨hes, hq'⟩, fun _ => hq'⟩

theorem readDirEntries_spec {s' : Lfs} (hq : Quiet s s') :
    wp (readDirEntries n)
      (fun es s'' => n.inodeType = inodeTypeDir ∧ (nodeOf s.disk n).entries = some es ∧ Quiet s s'')
      (fun _ s'' => Quiet s s'') s' := by
  simp only [readDirEntries, wp_bind, wp_failIf]
  refine ⟨fun _ => hq, fun htype => ⟨fun _ => hq, fun _ => ?_⟩⟩
  -- the entries collected so far are those of the blocks that were read
  have hloop := wp_foldlM (E := fun _ s'' => Quiet s s'')
    (f := fun acc i => do
      let es ← readDirBlock (n.ptr i)
      (pure (acc ++ es) : M (List DiskDirEntry)))
    (I := fun xs acc s'' => Quiet s s'' ∧ ∃ done, range (dataBlocks n.size) = done ++ xs ∧
      done.foldlM (fun acc i => (acc ++ ·) <$> Node.blockEntries ((nodeOf s.disk n).blocks i)) []
        = some acc)
    (by
      intro i xs acc s₁ hI
      obtain ⟨hq₁, done, hdone, hacc⟩ := hI
      simp only [wp_bind, wp_pure]
      refine wp_post (readDirBlock_spec hs hn i hq₁) ?_
      intro es s₂ hpost
      obtain ⟨hes, hq₂⟩ := hpost
      refine ⟨hq₂, done ++ [i], by rw [hdone, append_assoc]; rfl, ?_⟩
      rw [foldlM_append, hacc]
      simp [hes])
    (range (dataBlocks n.size)) [] s' ⟨hq, [], rfl, rfl⟩
  refine wp_post hloop ?_
  intro es s'' hpost
  obtain ⟨hq', done, hdone, hes⟩ := hpost
  rw [append_nil] at hdone
  refine ⟨by simpa using htype, ?_, hq'⟩
  rw [Node.entries]
  show (range (dataBlocks n.size)).foldlM _ [] = some es
  rw [hdone]
  exact hes

end

theorem lookup_spec (hs : s.Good) (dir : Nat) (name : List UInt8) :
    wp (lookup dir name)
      (fun r s' => (Observation.lookup dir name).answer (meaning s.core) = some (.inode r) ∧
        Quiet s s') (fun _ s' => Quiet s s') s := by
  simp only [lookup, wp_bind, wp_okOr, wp_pure]
  refine wp_post (loadInode_spec hs.log dir) ?_
  intro n s₁ hpost
  obtain ⟨hn, hq⟩ := hpost
  refine wp_post (readDirEntries_spec hs hn hq) ?_
  intro es s₂ hpost
  obtain ⟨-, hes, hq'⟩ := hpost
  refine ⟨fun e he => ⟨?_, hq'⟩, fun _ => hq'⟩
  simp [Observation.answer, meaning_of_inodeOf hn, hes, he]

theorem stat_spec (hs : s.Good) (id : Nat) :
    wp (stat id)
      (fun r s' => (Observation.stat id).answer (meaning s.core) = some (.stat r) ∧ Quiet s s')
      (fun _ s' => Quiet s s') s := by
  simp only [stat, wp_bind, wp_liftResult]
  refine wp_post (loadInode_spec hs.log id) ?_
  intro n s₁ hpost
  obtain ⟨hn, hq⟩ := hpost
  refine ⟨fun st hst => ⟨?_, hq⟩, fun _ _ => hq⟩
  have hcount : (n.direct.filter (· ≠ 0)).length = (nodeOf s.disk n).blockCount := by
    have hdirect : n.direct = (range directBlockCount).map n.ptr := by
      apply ext_getElem (by simp [n.direct_length])
      intro i hi hi'
      simp [DiskInode.ptr, hi]
    rw [hdirect, filter_map, length_map, Node.blockCount]
    congr 1
    apply filter_congr
    intro i _
    by_cases h : n.ptr i = 0 <;> simp [nodeOf, h]
  simp only [inodeToStat, hcount] at hst
  have hanswer : (Observation.stat id).answer (meaning s.core) = (nodeOf s.disk n).type?.map
      fun t => .stat ⟨id, t, n.size, n.linkCount, (nodeOf s.disk n).blockCount⟩ := by
    rw [Observation.answer, meaning_of_inodeOf hn]
    rfl
  have htype : (nodeOf s.disk n).inodeType = n.inodeType := rfl
  rw [hanswer, Node.type?, htype]
  split at hst
  · rename_i h
    rw [if_pos h, ← Except.ok.inj hst]
    rfl
  rename_i h
  split at hst
  · rename_i h'
    rw [if_neg h, if_pos h', ← Except.ok.inj hst]
    rfl
  · contradiction

theorem readdirEntry_spec (hs : s.Good) (e : DiskDirEntry) {s' : Lfs} (hq : Quiet s s') :
    wp (readdirEntry e)
      (fun r s'' => Observation.readdirEntry (meaning s.core) e = some r ∧ Quiet s s'')
      (fun _ s'' => Quiet s s'') s' := by
  simp only [readdirEntry, wp_bind]
  refine wp_conseq (loadInode_spec hq.logOk e.inodeId) ?_ fun _ _ h => hq.trans h
  intro n s'' hpost
  obtain ⟨hn, hq'⟩ := hpost
  rw [hq.inodeOf hs] at hn
  have hanswer : Observation.readdirEntry (meaning s.core) e =
      (nodeOf s.disk n).type?.map fun t => ⟨e.name, e.inodeId, t⟩ := by
    rw [Observation.readdirEntry, meaning_of_inodeOf hn]
    rfl
  have htype : (nodeOf s.disk n).inodeType = n.inodeType := rfl
  simp only [wp_ite, wp_pure, wp_throw, hanswer, Node.type?, htype]
  refine ⟨fun h => ⟨?_, hq.trans hq'⟩,
    fun h => ⟨fun h' => ⟨?_, hq.trans hq'⟩, fun _ => hq.trans hq'⟩⟩
  · rw [h]
    rfl
  · rw [if_pos h']
    rfl

theorem readdir_spec (hs : s.Good) (dir : Nat) :
    wp (readdir dir)
      (fun r s' => (Observation.readdir dir).answer (meaning s.core) = some (.entries r) ∧
        Quiet s s') (fun _ s' => Quiet s s') s := by
  simp only [readdir, wp_bind]
  refine wp_post (loadInode_spec hs.log dir) ?_
  intro n s₁ hpost
  obtain ⟨hn, hq⟩ := hpost
  refine wp_post (readDirEntries_spec hs hn hq) ?_
  intro es s₂ hpost
  obtain ⟨-, hes, hq₂⟩ := hpost
  have hloop := wp_foldlM (E := fun _ s'' => Quiet s s'')
    (f := fun acc e => do
      let entry ← readdirEntry e
      (pure (acc ++ [entry]) : M (List DirEntry)))
    (I := fun xs acc s'' => Quiet s s'' ∧ ∃ done, es = done ++ xs ∧
      done.foldlM (fun acc e => (acc ++ [·]) <$> Observation.readdirEntry (meaning s.core) e) []
        = some acc)
    (by
      intro e xs acc s₃ hI
      obtain ⟨hq₃, done, hdone, hacc⟩ := hI
      simp only [wp_bind, wp_pure]
      refine wp_post (readdirEntry_spec hs e hq₃) ?_
      intro r s₄ hpost
      obtain ⟨hr, hq₄⟩ := hpost
      refine ⟨hq₄, done ++ [e], by rw [hdone, append_assoc]; rfl, ?_⟩
      rw [foldlM_append, hacc]
      simp [hr])
    es [] s₂ ⟨hq₂, [], rfl, rfl⟩
  refine wp_post hloop ?_
  intro out s₃ hpost
  obtain ⟨hq₃, done, hdone, hout⟩ := hpost
  rw [append_nil] at hdone
  refine ⟨?_, hq₃⟩
  subst hdone
  simp only [Observation.answer, meaning_of_inodeOf hn, Option.bind_eq_bind, Option.bind_some]
  rw [show (nodeOf s.core.disk n).entries = some es from hes, Option.bind_some, hout,
    Option.bind_some]

/-! ### Reading a file -/

theorem same_block {pos chunk k : Nat} (hchunk : pos % blockSize + chunk ≤ blockSize)
    (hk : k < chunk) :
    (pos + k) / blockSize = pos / blockSize ∧ (pos + k) % blockSize = pos % blockSize + k := by
  simp only [blockSize] at *
  omega

theorem slice_eq_bytes {m : Node} {pos chunk : Nat} {b : Block}
    (hb : m.blocks (pos / blockSize) = some b) (hchunk : pos % blockSize + chunk ≤ blockSize) :
    b.slice (pos % blockSize) chunk = (range chunk).map fun k => m.byteAt (pos + k) := by
  rw [b.slice_eq_map hchunk]
  apply map_congr_left
  intro k hk
  rw [mem_range] at hk
  obtain ⟨hdiv, hmod⟩ := same_block hchunk hk
  rw [Node.byteAt, hdiv, hmod, hb]

theorem hole_eq_bytes {m : Node} {pos chunk : Nat}
    (hb : m.blocks (pos / blockSize) = none) (hchunk : pos % blockSize + chunk ≤ blockSize) :
    replicate chunk 0 = (range chunk).map fun k => m.byteAt (pos + k) := by
  symm
  apply eq_replicate_iff.mpr
  refine ⟨by simp, ?_⟩
  intro x hx
  obtain ⟨k, hk, rfl⟩ := mem_map.mp hx
  rw [mem_range] at hk
  rw [Node.byteAt, (same_block hchunk hk).1, hb]

theorem readLoop_spec (hs : s.Good) {id : Nat} {n : DiskInode} (hn : inodeOf s.core id = some n)
    {offset toRead : Nat} (hmax : offset + toRead ≤ lfsMaxFileSize) (fuel done : Nat) {s' : Lfs}
    (hq : Quiet s s') (hdone : done ≤ toRead) (hfuel : toRead ≤ done + fuel) :
    wp (readLoop n offset toRead fuel
        ((range done).map fun k => (nodeOf s.disk n).byteAt (offset + k)))
      (fun r s'' => r = (range toRead).map (fun k => (nodeOf s.disk n).byteAt (offset + k)) ∧
        Quiet s s'') (fun _ s'' => Quiet s s'') s' := by
  induction fuel generalizing done s' with
  | zero =>
    obtain rfl : done = toRead := by omega
    exact ⟨rfl, hq⟩
  | succ fuel ih =>
    have hgrow : ∀ chunk, (range (done + chunk)).map
        (fun k => (nodeOf s.disk n).byteAt (offset + k)) =
        (range done).map (fun k => (nodeOf s.disk n).byteAt (offset + k)) ++
        (range chunk).map fun k => (nodeOf s.disk n).byteAt (offset + done + k) := by
      intro chunk
      rw [range_add, map_append, map_map]
      simp [Function.comp_def, add_assoc]
    simp only [readLoop, wp_ite, wp_pure, wp_bind, length_map, length_range]
    have hmax' : lfsMaxFileSize = 12 * 4096 := rfl
    have hchunk : (offset + done) % blockSize +
        min (blockSize - (offset + done) % blockSize) (toRead - done) ≤ blockSize := by
      simp only [blockSize]
      omega
    have hpos : done < toRead →
        0 < min (blockSize - (offset + done) % blockSize) (toRead - done) := by
      simp only [blockSize]
      omega
    -- a turn appends the next chunk of the node's bytes, from a hole or from a block
    have hnext := fun s₁ (hq₁ : Quiet s s₁) (hlt : done < toRead) =>
      ih (done + min (blockSize - (offset + done) % blockSize) (toRead - done)) hq₁
        (by omega) (by have := hpos hlt; omega)
    simp only [hgrow] at hnext
    refine ⟨fun hlt => ⟨fun hge => ?_, fun _ => ⟨fun h0 => ?_, fun h0 => ?_⟩⟩, fun hge => ?_⟩
    · simp only [directBlockCount, blockSize] at hge
      omega
    · rw [hole_eq_bytes (m := nodeOf s.disk n) (if_pos h0) hchunk]
      exact hnext s' hq hlt
    · refine wp_post (readPtr_spec hs hn h0 hq) ?_
      intro b s₁ hpost
      obtain ⟨hb, hq₁⟩ := hpost
      rw [slice_eq_bytes hb hchunk]
      exact hnext s₁ hq₁ hlt
    · obtain rfl : done = toRead := by omega
      exact ⟨rfl, hq⟩

theorem read_spec (hs : s.Good) (id offset len : Nat) :
    wp (read id offset len)
      (fun r s' => (Observation.read id offset len).answer (meaning s.core) = some (.bytes r) ∧
        Quiet s s') (fun _ s' => Quiet s s') s := by
  simp only [read, wp_bind, wp_failIf, wp_ite, wp_pure]
  refine wp_post (loadInode_spec hs.log id) ?_
  intro n s₁ hpost
  obtain ⟨hn, hq⟩ := hpost
  have hanswer : (Observation.read id offset len).answer (meaning s.core) =
      some (.bytes ((range (min len (n.size - offset))).map
        fun k => (nodeOf s.disk n).byteAt (offset + k))) := by
    rw [Observation.answer, meaning_of_inodeOf hn]
    rfl
  rw [hanswer]
  refine ⟨fun _ => hq, fun hdir => ⟨fun hend => ⟨?_, hq⟩, fun hend => ⟨fun _ => hq, fun hmax =>
    ⟨fun _ => hq, fun _ => ?_⟩⟩⟩⟩
  · rw [show min len (n.size - offset) = 0 by omega]
    rfl
  · have hsize : n.size ≤ lfsMaxFileSize := by
      have hshape := hs.shape hn
      rcases hshape.inodeType with ht | ht
      · exact hshape.file ht
      · exact absurd ht hdir
    have hloop := readLoop_spec hs hn
      (show offset + min len (n.size - offset) ≤ lfsMaxFileSize by omega)
        (min len (n.size - offset)) 0 hq (by omega) (by omega)
    refine wp_post hloop ?_
    intro r s₂ hpost
    obtain ⟨rfl, hq₂⟩ := hpost
    exact ⟨rfl, hq₂⟩

theorem observe_spec (hs : s.Good) (o : Observation) :
    wp o.run (fun r s' => o.answer (meaning s.core) = some r ∧ Quiet s s')
      (fun _ s' => Quiet s s') s := by
  cases o with
  | stat id => exact (wp_map ..).mpr (stat_spec hs id)
  | lookup dir name => exact (wp_map ..).mpr (lookup_spec hs dir name)
  | readdir dir => exact (wp_map ..).mpr (readdir_spec hs dir)
  | read id offset len => exact (wp_map ..).mpr (read_spec hs id offset len)

theorem answers_agree {s' : Lfs} (hs : s.Good) (hs' : s'.Good)
    (hmean : meaning s'.core = meaning s.core) {o : Observation} {r r' : Answer}
    (hr : result? o.run s = some r) (hr' : result? o.run s' = some r') : r = r' := by
  have h := (wp_ok (observe_spec hs o) (result?_eq_some.mp hr)).1
  have h' := (wp_ok (observe_spec hs' o) (result?_eq_some.mp hr')).1
  rw [hmean, h] at h'
  exact Option.some.inj h'

end Lfs

end Thumos
