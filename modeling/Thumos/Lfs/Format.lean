import Thumos.Lfs.Remount

/-!
# A freshly formatted filesystem

`format` writes a checkpoint to slot A only.  What slot B held before stays,
and `mount` prefers it when it parses and has a higher sequence number.
`Start.valid` is the base case of every statement about runs: without such a
leftover, the filesystem that `mount` hands out satisfies the invariant.
-/

namespace Thumos

open StateExcept LfsSegmentManager CheckpointHeader List Except Nat

/-! ## The tables -/

theorem LfsSegmentManager.new_getElem? (count size i : Nat) : (new count size).bitmap[i]? =
      if i < count then some (decide (i = 0)) else none := by
  show ((range count).map (· == 0))[i]? = _
  rw [getElem?_map]
  by_cases hi : i < count
  · rw [getElem?_range hi, if_pos hi]
    rfl
  · rw [getElem?_eq_none (by rw [length_range]; omega), if_neg hi]
    rfl

theorem formatSegments_getElem? (n i : Nat) : (formatSegments n).bitmap[i]? =
      if i < n / defaultSegmentSize % u32Size then some (decide (i < 2)) else none := by
  unfold formatSegments markUsed
  generalize n / defaultSegmentSize % u32Size = count
  have hone := new_getElem? count defaultSegmentSize 1
  by_cases hcount : 1 < count
  · rw [if_pos hcount, decide_eq_false (by decide)] at hone
    rw [dif_pos hone, take_bitmap, getElem?_set]
    by_cases hi : 1 = i
    · subst hi
      rw [if_pos rfl, if_pos (List.getElem?_eq_some_iff.mp hone).1, if_pos hcount]
      rfl
    · rw [if_neg hi, new_getElem?]
      congr 2
      exact decide_eq_decide.mpr (by omega)
  · rw [if_neg hcount] at hone
    rw [dif_neg (by rw [hone]; nofun), new_getElem?]
    by_cases hi : i < count
    · rw [if_pos hi, if_pos hi]
      congr 1
      exact decide_eq_decide.mpr (by omega)
    · rw [if_neg hi, if_neg hi]

theorem formatSegments_size (n : Nat) : (formatSegments n).segmentSize = defaultSegmentSize := by
  unfold formatSegments markUsed
  split <;> rfl

theorem formatSegments_count (n : Nat) :
    (formatSegments n).segmentCount = n / defaultSegmentSize % u32Size := by
  unfold formatSegments markUsed
  split <;> rfl

theorem formatImap_getElem? (id : Nat) :
    formatImap[id]? = if id = 0 then some rootInodeBlock else none := by
  rw [formatImap, imap_getElem?_insert]
  rfl

theorem formatSegments_zero (n : Nat) {i : Nat} {x : UInt8}
    (hi : 9 ≤ i) (hx : (formatSegments n).serialize[i]? = some x) : x = 0 := by
  unfold serialize at hx
  have hlen : (LittleEndian.leBytes 4 (formatSegments n).segmentCount ++
      LittleEndian.leBytes 4 (formatSegments n).segmentSize).length = 8 := by
    rw [length_append, LittleEndian.leBytes_length, LittleEndian.leBytes_length]
  rw [getElem?_append_right (by omega), hlen] at hx
  have hlt : i - 8 < bitmapBytes (formatSegments n).segmentCount := by
    have := (List.getElem?_eq_some_iff.mp hx).1
    rw [packBits_length] at this
    exact this
  rw [packBits_getElem? _ _ hlt] at hx
  cases hx
  have hbits : ∀ bs : List Bool, (∀ b ∈ bs, b = false) → bitsValue bs = 0 := by
    intro bs
    induction bs with
    | nil => intro _; rfl
    | cons b bs ih =>
      intro hall
      rw [bitsValue, ih fun b' hb' => hall b' (mem_cons_of_mem _ hb'),
        hall b mem_cons_self]
      rfl
  rw [hbits]
  · rfl
  · intro b hb
    obtain ⟨k, hk, rfl⟩ := mem_iff_getElem.mp hb
    have hget := getElem?_eq_getElem hk
    rw [getElem?_take_of_lt (by rw [length_take] at hk; omega), getElem?_drop,
      formatSegments_getElem?] at hget
    split at hget
    · rw [← Option.some.inj hget]
      exact decide_eq_false (by omega)
    · contradiction

/-! ## What `format` leaves on the medium -/

def FormatPayload (n b : Nat) : Prop :=
  imapRegionStart ≤ b ∧
    b < imapRegionStart + defaultImapBlocks + blocksNeeded (formatSegments n).serialize.length

/-- The disk after `format`, with `n` blocks.  On a large device the bitmap runs
over whatever is behind it. -/
structure Formatted (n : Nat) (d d' : Disk) : Prop where
  coherent : d'.Coherent
  clean : d'.Clean
  blockCount : d'.dev.blockCount = n
  faults : d'.dev.faults = d.dev.faults
  size : defaultSegmentSize * 2 ≤ n
  superblock : d'.view superblockBlock = (formatSuperblock n).toBlock
  header : d'.view checkpointSlotA = formatCheckpoint.toBlock
  imap : Stored d'.view imapRegionStart (LfsImap.serialize formatImap)
  bitmap : Stored d'.view (imapRegionStart + defaultImapBlocks) (formatSegments n).serialize
  root : ¬FormatPayload n rootInodeBlock →
    d'.view rootInodeBlock = (DiskInode.new inodeTypeDir).writeTo
  other : ¬FormatPayload n checkpointSlotB → d'.view checkpointSlotB = d.view checkpointSlotB

theorem formatSegments_blocks (n : Nat) :
    blocksNeeded (formatSegments n).serialize.length ≤ u32Size := by
  have hlt : n / defaultSegmentSize % u32Size < u32Size := mod_lt _ (by decide)
  rw [serialize_length, formatSegments_count]
  unfold blocksNeeded
  split <;> simp only [bitmapBytes, blockSize, u32Size] at * <;> omega

theorem formatDisk_spec {d : Disk} (hd : d.Coherent) :
    wp formatDisk (fun _ d' => Formatted d.dev.blockCount d d') (fun _ _ => True) d := by
  generalize hn : d.dev.blockCount = n
  have hblocks := formatSegments_blocks n
  simp only [formatDisk, wp_bind, wp_get, wp_failIf, Disk.wp_io, hn]
  refine ⟨fun _ => trivial, fun hsize => ?_⟩
  refine wp_conseq (Disk.write_step hd (by decide) _) ?_ fun _ _ _ => trivial
  rintro - d₁ ⟨h₁, hv₁⟩
  refine wp_conseq (Disk.write_step h₁.coherent (by decide) _) ?_ fun _ _ _ => trivial
  rintro - d₂ ⟨h₂, -⟩
  refine wp_conseq (Disk.write_step h₂.coherent (by decide) _) ?_ fun _ _ _ => trivial
  rintro - d₃ ⟨h₃, hv₃⟩
  have hcp := writeCheckpoint_spec (P := FormatPayload n) h₃.coherent checkpointSlotA
    formatCheckpoint (LfsImap.serialize formatImap) (formatSegments n).serialize (by decide)
    (by decide) (by decide)
    (by
      simp only [formatCheckpoint, blockLimit, u32Size, imapRegionStart, defaultImapBlocks] at *
      omega)
    (fun _ _ b hlo hhi => ⟨hlo, hhi⟩)
  refine wp_conseq hcp ?_ fun _ _ _ => trivial
  rintro - d₅ ⟨d₄, hp₁, hp₂, hclean, hhead⟩
  refine wp_conseq (Disk.flush_clean hclean) ?_ fun _ _ _ => trivial
  rintro - d₆ rfl
  have hout : ∀ b, ¬FormatPayload n b → b ≠ checkpointSlotA → d₆.view b = d₃.view b :=
    fun b hb hne => (hp₂.step.view b hne).trans (hp₁.step.view b hb)
  have hin : ∀ b, imapRegionStart ≤ b → d₆.view b = d₄.view b := by
    intro b hb
    refine hp₂.step.view b ?_
    simp only [imapRegionStart, checkpointSlotA] at *
    omega
  refine ⟨hp₂.step.coherent, hclean, ?_, ?_, by omega, ?_, hhead, ?_, ?_, ?_, ?_⟩
  · rw [hp₂.step.blockCount, hp₁.step.blockCount, h₃.blockCount, h₂.blockCount, h₁.blockCount, hn]
  · rw [hp₂.step.faults, hp₁.step.faults, h₃.faults, h₂.faults, h₁.faults]
  · rw [hout _ (fun h => absurd h.1 (by decide)) (by decide), h₃.view _ (by decide),
      h₂.view _ (by decide), hv₁]
  · exact hp₁.payload.imap.congr fun b hlo _ => hin b hlo
  · refine hp₁.payload.bitmap.congr fun b hlo _ => hin b (le_trans ?_ hlo)
    decide
  · intro hroot
    rw [hout _ hroot (by decide), hv₃]
  · intro hother
    rw [hout _ hother (by decide), h₃.view _ (by decide), h₂.view _ (by decide),
      h₁.view _ (by decide)]

/-! ## What it mounts to -/

/-- Slot B holds no checkpoint that is newer than the one `format` writes. -/
def NoStaleSlot (dev : Device) : Prop :=
  ∀ h, CheckpointHeader.parse (dev.blocks checkpointSlotB) dev.blockCount = .ok h →
    h.sequence ≤ formatCheckpoint.sequence

theorem blocksOf_getElem? (n : Nat) : ∀ (data : List UInt8) {i : Nat}, i < n →
    (blocksOf n data)[i]? = some (Block.ofBytes ((data.drop (blockSize * i)).take blockSize)) := by
  induction n with
  | zero =>
    intro data i hi
    omega
  | succ n ih =>
    intro data i hi
    cases i with
    | zero => rfl
    | succ i =>
      rw [blocksOf, getElem?_cons_succ, ih _ (by omega), drop_drop]
      congr 4
      simp only [blockSize]
      omega

theorem ofBytes_eq_zero {bytes : List UInt8} (h : ∀ (i : Nat) x, bytes[i]? = some x → x = 0) :
    Block.ofBytes bytes = Block.zero := by
  apply Block.ext_byte
  intro i hi
  rw [Block.zero, Block.byte_ofBytes _ hi, Block.byte_ofBytes _ hi, getD_nil,
    getD_eq_getElem?_getD]
  cases hx : bytes[i]? with
  | none => rfl
  | some x => exact h i x hx

theorem parse_zero (n : Nat) : parse Block.zero n = .error .corrupt := by
  have hfrom : fromBlock Block.zero = .error .corrupt := by decide +kernel
  unfold parse
  rw [hfrom]
  rfl

namespace Formatted

variable {n : Nat} {d d' : Disk}

theorem slotB (hf : Formatted n d d') {h : CheckpointHeader}
    (hp : parse (d'.view checkpointSlotB) n = .ok h) :
    parse (d.view checkpointSlotB) n = .ok h := by
  by_cases hover : FormatPayload n checkpointSlotB
  · have hlt : 58 < blocksNeeded (formatSegments n).serialize.length := by
      have := hover.2
      simp only [imapRegionStart, defaultImapBlocks, checkpointSlotA, checkpointSlotB,
        checkpointSlotBlocks] at this
      omega
    have hzero := hf.bitmap 58 _ (blocksOf_getElem? _ _ hlt)
    rw [ofBytes_eq_zero] at hzero
    · rw [show checkpointSlotB = imapRegionStart + defaultImapBlocks + 58 from rfl, hzero,
        parse_zero] at hp
      contradiction
    · intro i x hx
      have hi : i < blockSize := by
        have := (List.getElem?_eq_some_iff.mp hx).1
        rw [length_take] at this
        omega
      rw [getElem?_take_of_lt hi, getElem?_drop] at hx
      exact formatSegments_zero n (by simp only [blockSize]; omega) hx
  · rw [hf.other hover] at hp
    exact hp

theorem parse_slotA (hf : Formatted n d d') :
    parse (d'.view checkpointSlotA) n = .ok formatCheckpoint := by
  have hn : n < u64Size := by
    rw [← hf.blockCount]
    exact d'.dev.blockCount_lt.trans (by decide)
  have hsize := hf.size
  rw [hf.header]
  refine parse_toBlock ?_ rfl hn ?_ ?_ ?_ ?_
  · unfold CheckpointHeader.InRange
    decide
  all_goals
    simp only [formatCheckpoint, imapRegionStart, defaultImapBlocks, defaultSegmentSize] at *
    omega

theorem fromBlock_superblock (hf : Formatted n d d') :
    LfsSuperblock.fromBlock (d'.view superblockBlock) = .ok (formatSuperblock n) := by
  rw [hf.superblock]
  refine formatSuperblock_fromBlock ?_
  rw [← hf.blockCount]
  exact d'.dev.blockCount_lt.trans (by decide)

theorem image (hf : Formatted n d d') (hstale : ∀ h, parse (d.view checkpointSlotB) n = .ok h →
      h.sequence ≤ formatCheckpoint.sequence)
    {image : MountImage} (hi : MountImage.ofBlocks d'.view n = .ok image) :
    image.superblock = formatSuperblock n ∧ image.checkpoint = formatCheckpoint ∧
      (∀ id : Nat, image.imap[id]? = formatImap[id]?) ∧ image.segments = formatSegments n ∧
      blocksNeeded (formatSegments n).serialize.length = 1 := by
  obtain ⟨hsb, -, ⟨slot, hlatest⟩, himap, hseg⟩ := MountImage.ofBlocks_inv hi
  obtain ⟨sb, h, imap, segments⟩ := image
  obtain rfl := ok.inj (hsb.symm.trans hf.fromBlock_superblock)
  have hchoice : MountImage.latest d'.view (formatSuperblock n) n =
      .ok (formatCheckpoint, checkpointSlotA) :=
    MountImage.latest_eq_left hf.parse_slotA fun h' hp => hstale h' (hf.slotB hp)
  obtain ⟨rfl, -⟩ := Prod.mk.inj (ok.inj (hlatest.symm.trans hchoice))
  have hn : n < u64Size := by
    rw [← hf.blockCount]
    exact d'.dev.blockCount_lt.trans (by decide)
  have hsize := hf.size
  have hlen := (formatSegments n).serialize_length
  rw [formatSegments_count] at hlen
  -- the header claims one block of bitmap, so a longer one is rejected
  have hbytes : bitmapBytes (n / defaultSegmentSize % u32Size) ≤ blockSize - 8 := by
    have hinv := (deserialize_inv hseg).2.2.1
    have hone : (imageBytes d'.view formatCheckpoint.segmentBitmapBlock
        formatCheckpoint.segmentBitmapCount).length = blockSize := by
      show ((d'.view _).bytes ++ []).length = blockSize
      rw [append_nil]
      exact (d'.view _).size_eq
    rw [hone] at hinv
    exact hinv
  have hblocks : blocksNeeded (formatSegments n).serialize.length = 1 := by
    rw [hlen]
    unfold blocksNeeded
    split <;> simp only [blockSize] at * <;> omega
  refine ⟨rfl, rfl, ?_, ?_, hblocks⟩
  · obtain ⟨rest, hrest⟩ := hf.imap.imageBytes
    have hneed : blocksNeeded (LfsImap.serialize formatImap).length = 1 := by decide +kernel
    rw [hneed] at hrest
    have hall : imageBytes d'.view formatCheckpoint.imapBlock formatCheckpoint.imapBlockCount =
        LfsImap.serialize formatImap ++ (rest ++ imageBytes d'.view (imapRegionStart + 1) 3) := by
      show imageBytes d'.view imapRegionStart (1 + 3) = _
      rw [imageBytes_add, hrest, append_assoc]
    obtain ⟨m, hm, hsame⟩ := LfsImap.deserialize_serialize (m := formatImap)
      (formatSuperblock n).segmentSize (formatSuperblock n).blockCount
      (rest ++ imageBytes d'.view (imapRegionStart + 1) 3) (by decide +kernel) (by
        intro id b hb
        rw [formatImap_getElem?] at hb
        split at hb
        · rename_i hid
          obtain rfl := Option.some.inj hb
          subst hid
          refine ⟨by decide, ?_, ?_, by decide⟩
          · show defaultSegmentSize ≤ rootInodeBlock
            decide
          · show rootInodeBlock < n
            simp only [rootInodeBlock, defaultSegmentSize] at *
            omega
        · contradiction)
    rw [hall, hm] at himap
    rw [← ok.inj himap]
    exact hsame
  · obtain ⟨rest, hrest⟩ := hf.bitmap.imageBytes
    rw [hblocks] at hrest
    have hback := deserialize_serialize (m := formatSegments n)
      (formatSuperblock n).blockCount rest
      (by rw [formatSegments_size]; decide) (by rw [formatSegments_size]; decide)
      (by rw [formatSegments_count]; exact mod_lt _ (by decide))
      (by
        rw [formatSegments_size, formatSegments_count]
        have := div_mul_le_self n defaultSegmentSize
        have hmod := mod_le (n / defaultSegmentSize) u32Size
        exact le_trans (mul_le_mul_right _ hmod) this) hn
    rw [formatSegments_size, formatSegments_count] at hback
    have hone : imageBytes d'.view formatCheckpoint.segmentBitmapBlock
        formatCheckpoint.segmentBitmapCount = (formatSegments n).serialize ++ rest := hrest
    rw [hone] at hseg
    exact ok.inj (hseg.symm.trans hback)

end Formatted

/-! ## The first state -/

/-- `s` is the filesystem right after formatting `dev` and mounting it. -/
def Start (dev : Device) (s : Lfs) : Prop :=
  ∃ dev', format dev = (.ok (), dev') ∧ Mounts dev' s

theorem format_eq_ok {dev dev' : Device} (h : format dev = (.ok (), dev')) :
    ∃ d d', Disk.IsFresh dev d ∧ d'.dev = dev' ∧ Formatted dev.blockCount d d' := by
  have hfresh := Disk.isFresh_fresh dev
  unfold format at h
  generalize Disk.fresh dev = d at h hfresh
  split at h
  · rename_i d' hrun
    have hf := wp_ok (formatDisk_spec hfresh.coherent) hrun
    rw [hfresh.dev_eq] at hf
    exact ⟨d, d', hfresh, (Prod.mk.inj h).2, hf⟩
  · exact absurd (Prod.mk.inj h).1 (by simp)

section

variable {c : Core} (himap : ∀ id : Nat, c.imap[id]? = formatImap[id]?)
  (hroot : c.disk.view rootInodeBlock = (DiskInode.new inodeTypeDir).writeTo)

include himap hroot

theorem inodeOf_root (id : Nat) :
    inodeOf c id = if id = 0 then some (DiskInode.new inodeTypeDir) else none := by
  unfold inodeOf
  rw [himap, formatImap_getElem?]
  split
  · rw [Option.map_some, hroot, DiskInode.readFrom_writeTo]
    exact ⟨by decide, by decide, by decide, by decide, by decide⟩
  · rfl

theorem refAt_root {id x : Nat}
    {k : Slot} (hx : refAt c id k = some x) : id = 0 ∧ k = .inode ∧ x = rootInodeBlock := by
  cases k with
  | inode =>
    rw [refAt, himap, formatImap_getElem?] at hx
    split at hx
    · rename_i hid
      exact ⟨hid, rfl, (Option.some.inj hx).symm⟩
    · contradiction
  | direct i =>
    obtain ⟨n, hn, hptr, hne⟩ := refAt_direct.mp hx
    rw [inodeOf_root himap hroot] at hn
    split at hn
    · cases hn
      rw [DiskInode.ptr_new] at hptr
      exact absurd hptr.symm hne
    · contradiction

end

structure Lfs.Initial (s : Lfs) : Prop where
  coherent : s.disk.Coherent
  size : defaultSegmentSize * 2 ≤ s.disk.dev.blockCount
  superblock : s.superblock = formatSuperblock s.disk.dev.blockCount
  segments : s.segments = formatSegments s.disk.dev.blockCount
  imap : ∀ id : Nat, s.imap[id]? = formatImap[id]?
  root : s.disk.view rootInodeBlock = (DiskInode.new inodeTypeDir).writeTo
  writer : s.writer = none
  nextInode : s.nextInode = 1
  sequence : s.checkpointSequence = 2
  onDisk : s.disk.view superblockBlock = s.superblock.toBlock
  slotA : CheckpointHeader.parse (s.disk.view checkpointSlotA) s.disk.dev.blockCount =
    .ok formatCheckpoint
  slotB : ∀ h, CheckpointHeader.parse (s.disk.view checkpointSlotB) s.disk.dev.blockCount = .ok h →
    h.sequence ≤ formatCheckpoint.sequence
  image : ∃ image, MountImage.ofBlocks s.disk.view s.disk.dev.blockCount = .ok image ∧
    image.toLfs s.disk = s

theorem Start.initial {dev : Device} {s : Lfs} (h : Start dev s) (hstale : NoStaleSlot dev) :
    s.Initial ∧ s.disk.dev.blockCount = dev.blockCount ∧
      s.disk.dev.faults = dev.faults := by
  obtain ⟨dev', hformat, hm⟩ := h
  obtain ⟨d, d', hfresh, rfl, hf⟩ := format_eq_ok hformat
  have hdev : d'.dev.blocks = d'.view := funext (hf.clean.dev_eq_view hf.coherent)
  have hsize := hf.size
  have hinside : SlotsInside d'.dev := by
    refine ⟨by rw [hf.blockCount]; simp only [defaultSegmentSize] at hsize; omega, ?_⟩
    intro sb hsb
    rw [hdev, hf.fromBlock_superblock] at hsb
    cases hsb
    rw [hf.blockCount]
    simp only [formatSuperblock, checkpointSlotA, checkpointSlotB, checkpointSlotBlocks,
      defaultSegmentSize] at *
    omega
  obtain ⟨image, hblocks, hstate, hpeek⟩ := hm.eq_toLfs hinside
  rw [hdev, hf.blockCount] at hblocks
  have hstale' : ∀ h, parse (d.view checkpointSlotB) dev.blockCount = .ok h →
      h.sequence ≤ formatCheckpoint.sequence := by
    rw [hfresh.view_eq]
    exact hstale
  obtain ⟨hsb, hcp, himap, hseg, hone⟩ := hf.image hstale' hblocks
  have hview : s.disk.view = d'.view := by
    rw [← hdev]
    funext b
    rw [hpeek.still.view_eq, Disk.fresh_view]
  have hcount : s.disk.dev.blockCount = dev.blockCount := by
    rw [hpeek.still.blockCount]
    exact hf.blockCount
  have hsuper : s.superblock = formatSuperblock dev.blockCount := by
    rw [hstate]
    exact hsb
  refine ⟨⟨hpeek.still.coherent, by rw [hcount]; exact hsize, by rw [hcount]; exact hsuper,
    ?_, ?_, ?_, ?_, ?_, ?_, ?_, ?_, ?_, ⟨image, ?_, hstate.symm⟩⟩, hcount, ?_⟩
  · rw [hcount, hstate]
    exact hseg
  · intro id
    rw [hstate]
    exact himap id
  · rw [hview]
    refine hf.root fun hover => absurd hover.2 ?_
    rw [hone]
    decide
  · rw [hstate]
    rfl
  · rw [hstate]
    show image.checkpoint.nextInode = 1
    rw [hcp]
    rfl
  · rw [hstate]
    show image.checkpoint.sequence + 1 = 2
    rw [hcp]
    rfl
  · rw [hview, hsuper]
    exact hf.superblock
  · rw [hview, hcount]
    exact hf.parse_slotA
  · rw [hview, hcount]
    exact fun h hp => hstale' h (hf.slotB hp)
  · rw [hview, hcount]
    exact hblocks
  · rw [hpeek.still.faults, ← hfresh.dev_eq, ← hf.faults]
    rfl

theorem Lfs.Initial.good {s : Lfs} (h : s.Initial) : s.Good := by
  have hsize := h.size
  have hblocks : s.superblock.blockCount = s.disk.dev.blockCount := by
    rw [h.superblock]
    rfl
  have hsegSize : s.core.segments.segmentSize = defaultSegmentSize := by
    rw [Lfs.core_segments, h.segments]
    exact formatSegments_size _
  have hsegCount : s.core.segments.segmentCount =
      s.disk.dev.blockCount / defaultSegmentSize % u32Size := by
    rw [Lfs.core_segments, h.segments]
    exact formatSegments_count _
  have hbit : ∀ i, i < 2 → s.core.segments.bitmap[i]? ≠ some false := by
    intro i hi hfree
    rw [Lfs.core_segments, h.segments, formatSegments_getElem?, decide_eq_true hi] at hfree
    split at hfree <;> simp at hfree
  have hlog : LogOk s.superblock.blockCount s.core := by
    refine ⟨h.coherent, hblocks.le, ?_, ?_, hbit 0 (by decide), ?_⟩
    · rw [hsegSize]
      decide
    · rw [hsegSize, hsegCount, hblocks]
      exact le_trans (mul_le_mul_right _ (mod_le _ _)) (div_mul_le_self _ _)
    · intro w hw
      rw [Lfs.core_writer, h.writer] at hw
      contradiction
  have hprot : Protected s.superblock.blockCount s.core rootInodeBlock := by
    refine ⟨⟨?_, ?_, ?_, ?_, ?_⟩, ?_⟩
    · rw [hblocks]
      simp only [rootInodeBlock, defaultSegmentSize] at *
      omega
    · rw [hsegSize]
      decide
    · rw [hsegSize]
      decide
    · intro htwo
      rw [hsegSize]
      simp only [rootInodeBlock, defaultSegmentSize] at *
      omega
    · intro w hw
      rw [Lfs.core_writer, h.writer] at hw
      contradiction
    · rw [hsegSize]
      exact hbit 1 (by decide)
  refine ⟨hlog, ?_, ?_, ?_⟩
  · intro id k x hx
    obtain ⟨-, -, rfl⟩ := refAt_root h.imap h.root hx
    exact hprot
  · intro id k id' k' x hx hx'
    obtain ⟨rfl, rfl, -⟩ := refAt_root h.imap h.root hx
    obtain ⟨rfl, rfl, -⟩ := refAt_root h.imap h.root hx'
    exact ⟨rfl, rfl⟩
  · intro id n hn
    rw [inodeOf_root h.imap h.root] at hn
    split at hn
    · cases hn
      exact shape_new (.inr rfl)
    · contradiction

theorem Lfs.Initial.valid {s : Lfs} (h : s.Initial) : s.Valid := by
  have hnext : s.nextSlot = checkpointSlotA := by
    unfold Lfs.nextSlot
    rw [h.sequence, h.superblock]
    rfl
  have hother : s.otherSlot = checkpointSlotB := by
    unfold Lfs.otherSlot
    rw [h.sequence, h.superblock]
    rfl
  refine ⟨h.good, h.superblock, h.size, ?_, ?_, h.onDisk, ?_, ?_, ?_, ⟨?_, ?_⟩, fun _ => h.image⟩
  · rw [h.segments, h.superblock]
    exact formatSegments_size _
  · rw [h.segments, h.superblock]
    exact formatSegments_count _
  · intro id b hb
    rw [h.imap, formatImap_getElem?] at hb
    split at hb
    · rename_i hid
      rw [hid]
      decide
    · contradiction
  · rw [h.nextInode]
    decide
  · rw [h.sequence]
    decide
  · intro cp hp
    rw [hnext, h.slotA] at hp
    rw [h.sequence, ← ok.inj hp]
    decide
  · intro cp hp
    rw [hother] at hp
    have := h.slotB cp hp
    rw [h.sequence]
    exact lt_of_le_of_lt this (by decide)

/-! ## Devices to start from -/

theorem exists_start (dev : Device) (p : Lfs → Bool) (hfaults : ∀ t, dev.faults t = none)
    (hformat : (format dev).1 = .ok ())
    (hmount : (match mount (format dev).2 with
      | .ok s => p s
      | .error _ => false) = true) : ∃ s, Start dev s ∧ p s = true := by
  have hrun : format dev = (.ok (), (format dev).2) := Prod.ext hformat rfl
  have hfaults' : ∀ t, (format dev).2.faults t = none := by
    obtain ⟨d, d', hfresh, hdev, hf⟩ := format_eq_ok hrun
    intro t
    rw [← hdev, hf.faults, hfresh.dev_eq]
    exact hfaults t
  cases hm : mount (format dev).2 with
  | error e =>
    rw [hm] at hmount
    contradiction
  | ok s =>
    rw [hm] at hmount
    refine ⟨s, ⟨(format dev).2, hrun, hm, ?_⟩, hmount⟩
    rintro ⟨t, -, -, hf⟩
    exact hf (hfaults' t)

def blankDevice : Device where
  sectorCount := 8 * defaultSegmentSize * sectorsPerBlock
  sectorCount_lt := by decide
  blocks := fun _ => Block.zero
  faults := fun _ => none
  ticks := 0
  log := []

theorem blankDevice_noStaleSlot : NoStaleSlot blankDevice := by
  intro h hp
  rw [show blankDevice.blocks checkpointSlotB = Block.zero from rfl, parse_zero] at hp
  contradiction

/-- A device of eight segments with a checkpoint in slot B, as an earlier
filesystem may have left it there.  The blocks outside the slot are `rest`. -/
def deviceWithSlotB (sequence nextInode : Nat) (imap : LfsImap) (rest : Nat → Block) : Device :=
  { blankDevice with
    blocks := fun b =>
      if b = checkpointSlotB then
        (CheckpointHeader.mk checkpointMagic sequence (checkpointSlotB + 1) 1 (checkpointSlotB + 2)
          1 nextInode 5).toBlock
      else if b = checkpointSlotB + 1 then Block.ofBytes (LfsImap.serialize imap)
      else if b = checkpointSlotB + 2 then
        Block.ofBytes (formatSegments blankDevice.blockCount).serialize
      else rest b }

end Thumos
