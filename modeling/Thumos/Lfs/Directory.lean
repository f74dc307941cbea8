import Thumos.Lfs.Records

/-!
# Create and unlink

The two calls that change directories.  Both write a new block with the
records of the directory and commit the parent with it.  `create` commits the
new inode first, and takes it out of the map again when the parent cannot be
written; `unlink` drops the target last, when nothing can fail any more.
-/

namespace Thumos

open StateExcept LittleEndian List Function

/-! ## Writing a directory -/

namespace Lfs

variable {s s₁ : Lfs} {id : Nat} {n n₁ : DiskInode} {es : List DiskDirEntry}

theorem shape_dir {n' : DiskInode} (hn : n.Shape) (hdir : n.inodeType = inodeTypeDir)
    (htype : n'.inodeType = n.inodeType) (hlink : n'.linkCount = n.linkCount)
    (hind : n'.indirect = n.indirect) (hsize : n'.size < u32Size)
    (hpos : n'.ptr 0 ≠ 0 → 0 < n'.size) (hrest : ∀ i, 0 < i → n'.ptr i = 0) : n'.Shape where
  indirect := hind.trans hn.indirect
  linkCount := hlink.trans hn.linkCount
  inodeType := .inr (htype.trans hdir)
  size_lt := hsize
  file hfile := absurd (hfile.symm.trans (htype.trans hdir)) (by decide)
  tail := by
    intro i hi
    rcases eq_zero_or_pos i with rfl | hi'
    · by_contra hne
      have := hpos hne
      simp only [dataBlocks, blockSize, directBlockCount] at hi
      omega
    · exact hrest i hi'
  dir _ := hrest

theorem shape_parent (hn : n.Shape) (hdir : n.inodeType = inodeTypeDir) {b size : Nat}
    (hsize : size < u32Size) (hpos : b ≠ 0 → 0 < size) :
    { n.setPtr 0 b with size := size }.Shape := by
  have hptr : ∀ i, { n.setPtr 0 b with size := size }.ptr i = if i = 0 then b else n.ptr i :=
    fun i => n.ptr_setPtr b i (by decide)
  refine shape_dir hn hdir rfl rfl rfl hsize ?_ ?_
  · rw [hptr, if_pos rfl]
    exact hpos
  · intro i hi
    rw [hptr, if_neg (by omega)]
    exact hn.dir hdir i hi

theorem writeDirBlock_spec (hd : Draft s id n s₁ n₁) (hs : s.Good)
    (hrest : ∀ i, 0 < i → n₁.ptr i = 0) (hes : ∀ e ∈ es, e.Fits) (hne : es ≠ []) :
    wp (writeDirBlock es) (fun b s₂ => Draft s id n s₂ (n₁.setPtr 0 b) ∧ dirSize es < u32Size ∧
        (nodeOf s₂.disk { n₁.setPtr 0 b with size := dirSize es }).names =
          some (es.flatMap DiskDirEntry.listed))
      (fun _ s₂ => Quiet s s₂) s₁ := by
  unfold writeDirBlock
  rw [wp_bind, wp_liftResult]
  refine ⟨fun bytes hbytes => ?_, fun _ _ => hd.quiet⟩
  obtain ⟨hmin, hmax⟩ := encodeDirRecords_length (Nat.zero_le _) hbytes
  have hsize := dirSize_le hes
  refine wp_post (hd.writeDataBlock hs (show 0 < directBlockCount by decide)
    (Block.ofBytes bytes)) ?_
  intro b s₂ hpost
  refine ⟨hpost.1, ?_, ?_⟩
  · simp only [blockSize, u32Size] at *
    omega
  · show { nodeOf s₂.disk (n₁.setPtr 0 b) with size := dirSize es }.names = _
    rw [hpost.2]
    exact Node.names_put (dirSize_pos hes hne) (fun i hi => if_pos (hrest i hi))
      (fun e he => (hes e he).inodeId_lt) hbytes

theorem orRemove_spec {α : Type} {m : M α} {Q : α → Lfs → Prop} {E : VfsError → Lfs → Prop}
    {k : Nat} (h : wp m Q (fun e s' => E e { s' with imap := s'.imap.erase k }) s) :
    wp (orRemove k m) Q E s := by
  unfold orRemove
  rw [wp_bind, wp_attempt]
  exact h

/-! ## Unlink -/

theorem unlinkParent_spec (hd : Draft s id n s₁ n) (hs : s.Good) (hn : n.Shape)
    (hdir : n.inodeType = inodeTypeDir) (hes : ∀ e ∈ es, e.Stored) :
    wp (unlinkParent n es) (fun n₂ s₂ => n₂.Shape ∧
        (nodeOf s.disk n).Relisted (es.map DiskDirEntry.link) (nodeOf s₂.disk n₂) ∧
        ∃ n₃, Draft s id n s₂ n₃ ∧ ∀ i, n₂.ptr i ≠ 0 → n₂.ptr i = n₃.ptr i)
      (fun _ s₂ => Quiet s s₂) s₁ := by
  unfold unlinkParent
  rw [wp_ite]
  constructor
  · intro hempty
    have hptr : ∀ i, { n.setPtr 0 0 with size := 0 }.ptr i = if i = 0 then 0 else n.ptr i :=
      fun i => n.ptr_setPtr 0 i (by decide)
    rw [isEmpty_iff.mp hempty]
    refine ⟨shape_parent hn hdir (by decide) (fun h => absurd rfl h),
      ⟨rfl, rfl, Node.names_of_size_zero rfl⟩, n, hd, ?_⟩
    intro i hi
    rw [hptr] at hi ⊢
    split at hi
    · contradiction
    · rename_i hne
      rw [if_neg hne]
  · intro hne
    have hne' : es ≠ [] := by simpa using hne
    have hfits : ∀ e ∈ es, e.Fits := fun e he => (hes e he).toFits
    rw [wp_bind]
    refine wp_post (writeDirBlock_spec hd hs (hn.dir hdir) hfits hne') ?_
    intro b s₂ hpost
    obtain ⟨hd₂, hsize, hnames⟩ := hpost
    rw [flatMap_listed hes] at hnames
    exact ⟨shape_parent hn hdir hsize fun _ => dirSize_pos hfits hne', ⟨rfl, rfl, hnames⟩, _, hd₂,
      fun _ _ => rfl⟩

theorem Commit.trans {m m' : Nat → Option Node} {next next' : Nat} {s₂ : Lfs}
    (h : Commit m next s s₁) (h' : Commit m' next' s₁ s₂) : Commit m' next' s s₂ :=
  ⟨h.toStep.trans h'.toStep, h'.good, h'.meaning, h'.nextInode, h'.writer⟩

theorem Commit.quiet {m : Nat → Option Node} {next : Nat} {s₂ : Lfs} (h : Commit m next s s₁)
    (hq : Quiet s₁ s₂) : Commit m next s s₂ :=
  ⟨h.toStep.trans hq.toStep, hq.good h.good, (hq.meaning h.good).trans h.meaning,
    hq.nextInode.trans h.nextInode, hq.toStep.writer_ne_none h.writer⟩

theorem Commit.erase {m : Nat → Option Node} {next : Nat} (h : Commit m next s s₁) (k : Nat) :
    Commit (update m k none) next s { s₁ with imap := s₁.imap.erase k } := by
  obtain ⟨hgood, hmean⟩ := h.good.erase k
  refine ⟨⟨?_, h.superblock, h.nextSequence, h.checkpointSequence, fun hw => absurd hw h.writer⟩,
    hgood, ?_, h.nextInode, h.writer⟩
  · exact h.log.setImap _
  · exact hmean.trans (by rw [h.meaning])

theorem unlinkBody_spec (hs : s.Good) (dir : Nat) (name : List UInt8) :
    wp (unlinkBody dir name) (fun _ s' => ∃ m m' ns target,
        meaning s.core dir = some m ∧ m.inodeType = inodeTypeDir ∧ m.names = some ns ∧
        (Observation.lookup dir name).answer (meaning s.core) = some (.inode target) ∧
        m.Relisted (ns.filter (·.1 != name)) m' ∧
        Commit (update (update (meaning s.core) dir (some m')) target none)
          s.nextInode s s') (fun _ s' => Quiet s s') s := by
  simp only [unlinkBody, wp_bind, wp_failIf, wp_okOr]
  refine wp_post (loadInode_spec hs.log dir) ?_
  intro n s₁ hpost
  obtain ⟨hn, hq₁⟩ := hpost
  have hshape := hs.shape hn
  refine ⟨fun _ => hq₁, fun hdir => ?_⟩
  rw [not_not] at hdir
  refine wp_post (readDirEntries_spec hs hn hq₁) ?_
  intro es s₂ hpost
  obtain ⟨-, hes, hq₂⟩ := hpost
  refine ⟨fun target htarget => ?_, fun _ => hq₂⟩
  have hstored := Node.entries_stored hes
  refine wp_conseq (ensureWriter_spec hq₂.logOk) ?_ fun _ _ h => hq₂.trans h
  intro _ s₃ hpost
  have hq₃ := hq₂.trans hpost.1
  refine wp_conseq (loadInode_spec hq₃.logOk target.inodeId) ?_ fun _ _ h => hq₃.trans h
  intro tn s₄ hpost
  obtain ⟨htn, hq₄'⟩ := hpost
  have hq₄ := hq₃.trans hq₄'
  rw [hq₃.inodeOf hs] at htn
  refine ⟨fun _ => hq₄, fun _ => ?_⟩
  refine wp_post (unlinkParent_spec (Draft.start hq₄ hs hn) hs hshape hdir
    (fun e he => hstored e ((mem_filter.mp he).1))) ?_
  intro n₅ s₅ hpost
  obtain ⟨hshape₅, hlist, n₃, hd₅, hsub⟩ := hpost
  have hd₅' : Draft s dir n₅ s₅ n₅ :=
    ⟨hd₅.quiet, hd₅.ptrs.of_subset hsub, rfl, rfl, rfl, rfl⟩
  refine wp_post (hd₅'.writeInode hs (fun _ => rfl) hshape₅) ?_
  intro _ s₆ hcommit
  have hfilter : (es.filter fun e => e.name != name).map DiskDirEntry.link =
      (es.map DiskDirEntry.link).filter (·.1 != name) := by
    rw [filter_map]
    rfl
  rw [hfilter] at hlist
  -- a link count is one, so the target always goes
  rw [wp_ite]
  constructor
  · intro _
    refine ⟨_, _, _, target.inodeId, meaning_of_inodeOf hn, hdir, Node.names_of_entries hes, ?_,
      hlist, hcommit.erase _⟩
    simp [Observation.answer, meaning_of_inodeOf hn, hes, htarget]
  · intro hlink
    exact absurd (show tn.linkCount - 1 = 0 by rw [(hs.shape htn).linkCount]) hlink

/-! ## Create -/

theorem shape_new {t : Nat} (ht : t = inodeTypeFile ∨ t = inodeTypeDir) :
    (DiskInode.new t).Shape where
  indirect := rfl
  linkCount := rfl
  inodeType := ht
  size_lt := by
    show 0 < u32Size
    decide
  file _ := Nat.zero_le _
  tail i _ := DiskInode.ptr_new t i
  dir _ i _ := DiskInode.ptr_new t i

theorem ptrsOk_new {blocks : Nat} {c : Core} {id t : Nat} :
    PtrsOk blocks c id (DiskInode.new t) :=
  have h : ∀ i, (DiskInode.new t).ptr i = 0 := DiskInode.ptr_new t
  ⟨fun i hi => absurd (h i) hi, fun i hi => absurd (h i) hi, fun i _ hi => absurd (h i) hi⟩

theorem nodeOf_new (d : Disk) (t : Nat) : Thumos.nodeOf d (DiskInode.new t) = Node.empty t := by
  unfold Thumos.nodeOf Node.empty
  congr 1
  funext i
  exact if_pos (DiskInode.ptr_new t i)

theorem diskType_cases (t : InodeType) :
    diskType t = inodeTypeFile ∨ diskType t = inodeTypeDir := by
  cases t <;> simp [diskType]

theorem commit_allocInodeId (hq : Quiet s s₁) (hs : s.Good) (hw : s₁.writer ≠ none) :
    Commit (meaning s.core) ((s.nextInode + 1) % u32Size) s
      { s₁ with nextInode := (s₁.nextInode + 1) % u32Size } := by
  refine ⟨⟨hq.log, hq.superblock, hq.nextSequence, hq.checkpointSequence, fun h => absurd h hw⟩,
    hq.good hs, hq.meaning hs, ?_, hw⟩
  show (s₁.nextInode + 1) % u32Size = (s.nextInode + 1) % u32Size
  rw [hq.nextInode]

theorem createBody_spec (hs : s.Good) (hid : s.nextInode < u32Size) (dir : Nat)
    (name : List UInt8) (ty : InodeType) :
    wp (createBody dir name ty) (fun r s' => r = s.nextInode ∧ ∃ m m' ns,
        meaning s.core dir = some m ∧ m.inodeType = inodeTypeDir ∧ m.names = some ns ∧
        (∀ p ∈ ns, p.1 ≠ name) ∧
        m.Relisted (ns ++ DiskDirEntry.readBack name s.nextInode) m' ∧
        Commit (update (update (meaning s.core) s.nextInode
            (some (Node.empty (diskType ty)))) dir (some m')) ((s.nextInode + 1) % u32Size) s s')
      (fun _ s' => Quiet s s' ∨ ∃ m', Commit m' ((s.nextInode + 1) % u32Size) s s' ∧
        (m' = meaning s.core ∨ m' = update (meaning s.core) s.nextInode none)) s := by
  simp only [createBody, wp_bind, wp_failIf]
  refine ⟨fun _ => .inl (Quiet.refl hs.log), fun hname => ?_⟩
  refine wp_conseq (loadInode_spec hs.log dir) ?_ fun _ _ h => .inl h
  intro n s₁ hpost
  obtain ⟨hn, hq₁⟩ := hpost
  have hshape := hs.shape hn
  refine ⟨fun _ => .inl hq₁, fun hdir => ?_⟩
  rw [not_not] at hdir
  refine wp_conseq (readDirEntries_spec hs hn hq₁) ?_ fun _ _ h => .inl h
  intro es s₂ hpost
  obtain ⟨-, hes, hq₂⟩ := hpost
  refine ⟨fun _ => .inl hq₂, fun hnew => ?_⟩
  refine wp_conseq (ensureWriter_spec hq₂.logOk) ?_ fun _ _ h => .inl (hq₂.trans h)
  intro _ s₃ hpost
  have hq₃ := hq₂.trans hpost.1
  simp only [allocInodeId, wp_bind, wp_get, wp_set, wp_pure]
  have hc₄ := commit_allocInodeId hq₃ hs hpost.2
  have hnext : s₃.nextInode = s.nextInode := hq₃.nextInode
  rw [hnext] at hc₄ ⊢
  have hptrs₄ : PtrsOk s₃.superblock.blockCount s₃.core dir n :=
    hq₃.ptrsOk hs (hs.ptrsOk_self hn)
  generalize hs₄ : { s₃ with nextInode := (s.nextInode + 1) % u32Size } = s₄ at hc₄ ⊢
  rw [show s₃.superblock = s₄.superblock by rw [← hs₄], show s₃.core = s₄.core by rw [← hs₄]; rfl]
    at hptrs₄
  refine wp_conseq (writeInode_spec hc₄.good.log _ _) ?_
    fun _ _ h => .inr ⟨_, hc₄.quiet h, .inl rfl⟩
  intro _ s₅ hpost
  obtain ⟨b, hent⟩ := hpost
  have hshape' := shape_new (diskType_cases ty)
  obtain ⟨hgood₅, hmean₅⟩ := hent.commit hc₄.good hshape' ptrsOk_new
  rw [nodeOf_new, hc₄.meaning] at hmean₅
  have hc₅ : Commit (meaning s₅.core) ((s.nextInode + 1) % u32Size) s s₅ :=
    ⟨hc₄.toStep.trans hent.toStep, hgood₅, rfl, hent.nextInode.trans hc₄.nextInode, hent.writer⟩
  -- from here on a failure takes the new inode out of the map again
  have hundo : ∀ s', Quiet s₅ s' → ∃ m',
      Commit m' ((s.nextInode + 1) % u32Size) s { s' with imap := s'.imap.erase s.nextInode } ∧
        (m' = meaning s.core ∨ m' = update (meaning s.core) s.nextInode none) := by
    intro s' hq
    refine ⟨_, (hc₅.quiet hq).erase s.nextInode, .inr ?_⟩
    rw [hmean₅, update_idem]
  have hinode₅ := hent.inodeOf (hc₄.good.inRange hshape'
    (show PtrsOk _ _ dir _ from ptrsOk_new))
  have hptrs₅ : PtrsOk s₅.superblock.blockCount s₅.core dir n := by
    rw [hent.superblock]
    exact hptrs₄.commit_new hc₄.good hent.log hent.imap hent.loose hinode₅ (DiskInode.ptr_new _)
  have hd₅ : Draft s₅ dir n s₅ n := ⟨Quiet.refl hgood₅.log, hptrs₅, rfl, rfl, rfl, rfl⟩
  have hstored := Node.entries_stored hes
  have hfits : ∀ e ∈ es ++ [⟨s.nextInode, name.length, alignedRecordLen name, name⟩],
      DiskDirEntry.Fits e := by
    intro e he
    rcases mem_append.mp he with he | he
    · exact (hstored e he).toFits
    · obtain rfl := mem_singleton.mp he
      refine ⟨?_, ?_, hid⟩
      · simp only [alignedRecordLen, dirEntryHeaderSize]
        omega
      · simp only [alignedRecordLen, dirEntryHeaderSize]
        omega
  refine orRemove_spec (wp_conseq (writeDirBlock_spec hd₅ hgood₅ (hshape.dir hdir) hfits (by simp))
    ?_ fun _ s' h => .inr (hundo s' h))
  intro b' s₆ hpost
  obtain ⟨hd₆, hsize, hnames⟩ := hpost
  rw [flatMap_append, flatMap_listed hstored, flatMap_singleton] at hnames
  have hshape₆ := shape_parent hshape hdir (b := b') hsize
    fun _ => dirSize_pos hfits (by simp)
  refine orRemove_spec (wp_conseq (hd₆.writeInode hgood₅ (fun _ => rfl) hshape₆) ?_
    fun _ s' h => .inr (hundo s' h))
  intro _ s₇ hcommit
  have hc₇ := hc₅.trans hcommit
  rw [hmean₅, hc₅.nextInode] at hc₇
  refine ⟨rfl, _, _, _, meaning_of_inodeOf hn, hdir, Node.names_of_entries hes, ?_, ?_, hc₇⟩
  · intro p hp heq
    obtain ⟨e, he, rfl⟩ := mem_map.mp hp
    exact hnew (any_eq_true.mpr ⟨e, he, beq_iff_eq.mpr heq⟩)
  · exact ⟨rfl, rfl, hnames⟩

end Lfs

end Thumos
