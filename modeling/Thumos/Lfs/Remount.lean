import Thumos.Lfs.Valid

/-!
# Remounting

A checkpoint that `sync` has written completely mounts to the state it was
made from.
-/

namespace Thumos

open StateExcept MountImage

theorem imageBytes_add (view : Nat → Block) (start m n : Nat) :
    imageBytes view start (m + n) = imageBytes view start m ++ imageBytes view (start + m) n := by
  induction m generalizing start with
  | zero => simp [imageBytes]
  | succ m ih =>
    rw [show m + 1 + n = m + n + 1 by omega, imageBytes, imageBytes, ih, List.append_assoc]
    rw [show start + 1 + m = start + (m + 1) by omega]

theorem formatSuperblock_fromBlock {n : Nat} (hn : n < u64Size) :
    LfsSuperblock.fromBlock (formatSuperblock n).toBlock = .ok (formatSuperblock n) := by
  refine LfsSuperblock.fromBlock_toBlock ?_ rfl rfl
  have hcount : n / defaultSegmentSize % u32Size < 256 ^ 4 := Nat.mod_lt _ (by decide)
  have hn' : n < 256 ^ 8 := hn
  intro f hf
  simp only [LfsSuperblock.fields, formatSuperblock, List.mem_cons, List.not_mem_nil,
    or_false] at hf
  rcases hf with rfl | rfl | rfl | rfl | rfl | rfl | rfl | rfl | rfl | rfl | rfl
  · decide
  · decide
  · exact hn'
  · decide
  · exact hcount
  all_goals decide

namespace MountImage

variable {view : Nat → Block} {n slot : Nat} {superblock : LfsSuperblock} {h : CheckpointHeader}
  {imap : LfsImap} {segments : LfsSegmentManager}

variable {ra rb : Except LfsError CheckpointHeader}

theorem latest_eq_left {a b : Nat} (ha : ra = .ok h)
    (hb : ∀ h', rb = .ok h' → h'.sequence ≤ h.sequence) :
    chooseSlot a b ra rb = .ok (h, a) := by
  subst ha
  cases rb with
  | error e => rfl
  | ok h' => exact if_pos (hb h' rfl)

theorem latest_eq_right {a b : Nat} (hb : rb = .ok h)
    (ha : ∀ h', ra = .ok h' → h'.sequence < h.sequence) :
    chooseSlot a b ra rb = .ok (h, b) := by
  subst hb
  cases ra with
  | error e => rfl
  | ok h' => exact if_neg (not_le.mpr (ha h' rfl))

theorem ofBlocks_eq (hsb : LfsSuperblock.fromBlock (view superblockBlock) = .ok superblock)
    (hn : superblock.blockCount ≤ n) (hlatest : latest view superblock n = .ok (h, slot))
    (hsmall : h.imapBlockCount * blockSize < u32Size)
    (himap : LfsImap.deserialize (imageBytes view h.imapBlock h.imapBlockCount)
      superblock.segmentSize superblock.blockCount = .ok imap)
    (hbits : h.segmentBitmapCount ≤ maxBitmapBlocks superblock.segmentCount)
    (hseg : LfsSegmentManager.deserialize
      (imageBytes view h.segmentBitmapBlock h.segmentBitmapCount) superblock.segmentCount
      superblock.segmentSize superblock.blockCount = .ok segments) :
    ofBlocks view n = (do
      require (h.lastSegmentSequence + 1 < u64Size) .corrupt
      require (h.sequence + 1 < u64Size) .corrupt
      .ok ⟨superblock, h, imap, segments⟩) := by
  simp only [ofBlocks, ofCheckpoint, loadImap, require, bind, Except.bind, hsb, hlatest, hn,
    hsmall, himap, hbits, hseg, if_true]

theorem require_bind_eq_ok {c : Prop} [Decidable c] {e : LfsError} {α : Type}
    {x : Except LfsError α} {a : α} : (do require c e; x) = .ok a ↔ c ∧ x = .ok a := by
  unfold require
  by_cases hc : c <;> simp [hc, bind, Except.bind]

theorem ofBlocks_inv {image : MountImage} (hi : ofBlocks view n = .ok image) :
    LfsSuperblock.fromBlock (view superblockBlock) = .ok image.superblock ∧
      image.superblock.blockCount ≤ n ∧
      (∃ slot, latest view image.superblock n = .ok (image.checkpoint, slot)) ∧
      LfsImap.deserialize
        (imageBytes view image.checkpoint.imapBlock image.checkpoint.imapBlockCount)
        image.superblock.segmentSize image.superblock.blockCount = .ok image.imap ∧
      LfsSegmentManager.deserialize
        (imageBytes view image.checkpoint.segmentBitmapBlock image.checkpoint.segmentBitmapCount)
        image.superblock.segmentCount image.superblock.segmentSize
        image.superblock.blockCount = .ok image.segments := by
  obtain ⟨sb, hsb, hi⟩ := result_bind_eq_ok.mp hi
  obtain ⟨hn, hi⟩ := require_bind_eq_ok.mp hi
  obtain ⟨⟨h, slot⟩, hlatest, hi⟩ := result_bind_eq_ok.mp hi
  obtain ⟨imap, himap, hi⟩ := result_bind_eq_ok.mp hi
  obtain ⟨-, himap⟩ := require_bind_eq_ok.mp himap
  obtain ⟨-, hi⟩ := require_bind_eq_ok.mp hi
  obtain ⟨segments, hseg, hi⟩ := result_bind_eq_ok.mp hi
  obtain ⟨-, hi⟩ := require_bind_eq_ok.mp hi
  obtain ⟨-, hi⟩ := require_bind_eq_ok.mp hi
  cases hi
  exact ⟨hsb, hn, ⟨slot, hlatest⟩, himap, hseg⟩

structure Describes (image : MountImage) (s : Lfs) (w : LfsWriter) : Prop where
  superblock : image.superblock = s.superblock
  checkpoint : image.checkpoint = s.nextHeader w
  imap : ∀ id : Nat, image.imap[id]? = s.imap[id]?
  segments : image.segments = s.segments

end MountImage

/-! ## Mount -/

/-- `mount` hands out `s`, and none of its transfers fails. -/
def Mounts (dev : Device) (s : Lfs) : Prop :=
  mount dev = .ok s ∧ ¬Disk.Failed (Disk.fresh dev) s.disk

/-- The slots of the superblock, if there is one, lie inside the device. -/
structure SlotsInside (dev : Device) : Prop where
  pos : 0 < dev.blockCount
  slots : ∀ sb, LfsSuperblock.fromBlock (dev.blocks superblockBlock) = .ok sb →
    sb.checkpointBlockA < dev.blockCount ∧ sb.checkpointBlockB < dev.blockCount

/-- What `mount` has to know of its fresh cache. -/
structure Disk.IsFresh (dev : Device) (d : Disk) : Prop where
  coherent : d.Coherent
  clean : d.Clean
  dev_eq : d.dev = dev
  view_eq : d.view = dev.blocks

theorem Disk.isFresh_fresh (dev : Device) : Disk.IsFresh dev (Disk.fresh dev) :=
  ⟨fresh_coherent dev, fresh_clean dev, rfl, funext (fresh_view dev)⟩

theorem mountDisk_fresh {dev : Device} {d : Disk} (hd : Disk.IsFresh dev d) (h : SlotsInside dev) :
    Disk.Computes d mountDisk (ofBlocks dev.blocks dev.blockCount) := by
  obtain ⟨hcoh, hclean, rfl, hview⟩ := hd
  have hmount := mountDisk_computes hcoh hclean h.pos (by rw [hview]; exact h.slots)
  rw [hview] at hmount
  exact hmount

theorem Mounts.eq_toLfs {dev : Device} {s : Lfs} (hm : Mounts dev s) (h : SlotsInside dev) :
    ∃ image, ofBlocks dev.blocks dev.blockCount = .ok image ∧
      s = image.toLfs s.disk ∧ Disk.Peek (Disk.fresh dev) s.disk := by
  obtain ⟨hmount, hok⟩ := hm
  have hfresh := Disk.isFresh_fresh dev
  unfold mount at hmount
  generalize Disk.fresh dev = d₀ at hmount hok hfresh ⊢
  split at hmount
  · rename_i image d hrun
    cases hmount
    have hpost := wp_ok (mountDisk_fresh hfresh h) hrun
    exact ⟨image, hpost.2 hok, rfl, hpost.1⟩
  · contradiction

theorem exists_mounts {dev : Device} (h : SlotsInside dev)
    (hfaults : ∀ t, dev.ticks ≤ t → dev.faults t = none) {image : MountImage}
    (himage : ofBlocks dev.blocks dev.blockCount = .ok image) :
    ∃ s, Mounts dev s ∧ s = image.toLfs s.disk := by
  have hfresh := Disk.isFresh_fresh dev
  unfold Mounts mount
  generalize Disk.fresh dev = d₀ at hfresh ⊢
  have hnever : ∀ d, ¬Disk.Failed d₀ d := by
    intro d hf
    obtain ⟨t, hle, -, hft⟩ := hf
    rw [hfresh.dev_eq] at hle hft
    exact hft (hfaults t hle)
  cases hrun : mountDisk d₀ with
  | ok image' d =>
    have hpost := wp_ok (mountDisk_fresh hfresh h) hrun
    obtain rfl := Except.ok.inj (himage.symm.trans (hpost.2 (hnever d)))
    exact ⟨image.toLfs d, ⟨rfl, hnever d⟩, rfl⟩
  | error e d =>
    have hpost := wp_error (mountDisk_fresh hfresh h) hrun
    have herr := hpost.2 (hnever d)
    rw [himage] at herr
    contradiction

theorem blocksNeeded_bitmap_le (segmentCount : Nat) :
    blocksNeeded (8 + LfsSegmentManager.bitmapBytes segmentCount) ≤
      maxBitmapBlocks segmentCount := by
  unfold blocksNeeded maxBitmapBlocks
  simp only
  split <;> split <;> simp only [LfsSegmentManager.bitmapBytes, blockSize] at * <;> omega

namespace Lfs

variable {s : Lfs}

theorem Valid.blockCount_eq (hv : Valid s) : s.superblock.blockCount = s.disk.dev.blockCount := by
  rw [hv.superblock]
  rfl

/-- With the superblock, the payload and the header in place, and nothing newer
in the other slot, the medium mounts to the state of the checkpoint. -/
theorem Valid.ofBlocks_synced (hv : Valid s) {w : LfsWriter} {view : Nat → Block}
    (hsb : view superblockBlock = s.superblock.toBlock)
    (hpay : Payload view s.nextSlot (s.nextHeader w) (LfsImap.serialize s.imap)
      s.segments.serialize) (hhead : view s.nextSlot = (s.nextHeader w).toBlock)
    (hother : ∀ h, CheckpointHeader.parse (view s.otherSlot) s.disk.dev.blockCount = .ok h →
      h.sequence < s.checkpointSequence) :
    ∃ image, image.Describes s w ∧
      ∀ image', ofBlocks view s.disk.dev.blockCount = .ok image' ↔
        w.sequence.toNat + 1 < u64Size ∧ s.checkpointSequence + 1 < u64Size ∧ image' = image := by
  have hn : s.disk.dev.blockCount < u64Size :=
    s.disk.dev.blockCount_lt.trans (by decide)
  have hsize := hv.size
  have hslot := hv.nextSlot_lt
  obtain ⟨himapBlock, hsegBlock, -⟩ := hv.ready.layout w
  have hcountI : (s.nextHeader w).imapBlockCount =
    blocksNeeded (LfsImap.serialize s.imap).length := rfl
  have hcountS : (s.nextHeader w).segmentBitmapCount =
    blocksNeeded s.segments.serialize.length := rfl
  have hbelow := hpay.below
  have hfrom : LfsSuperblock.fromBlock (view superblockBlock) = .ok s.superblock := by
    rw [hsb, hv.superblock]
    exact formatSuperblock_fromBlock hn
  have hparse : CheckpointHeader.parse (view s.nextSlot) s.disk.dev.blockCount =
      .ok (s.nextHeader w) := by
    rw [hhead]
    refine CheckpointHeader.parse_toBlock (hv.nextHeader_inRange w) rfl hn ?_ ?_ ?_ ?_ <;> omega
  have hlatest : ∃ slot, latest view s.superblock s.disk.dev.blockCount =
      .ok (s.nextHeader w, slot) := by
    unfold latest
    rw [hv.ready.slotA, hv.ready.slotB]
    rcases hv.slots_eq with ⟨hA, hB⟩ | ⟨hB, hA⟩
    · rw [hA] at hparse
      rw [hB] at hother
      exact ⟨_, latest_eq_left hparse fun h' hh' => (hother h' hh').le⟩
    · rw [hB] at hparse
      rw [hA] at hother
      exact ⟨_, latest_eq_right hparse hother⟩
  obtain ⟨slot, hlatest⟩ := hlatest
  have hlenI := blocksNeeded_le (LfsImap.serialize s.imap).length
  have hsmall : blocksNeeded (LfsImap.serialize s.imap).length * blockSize < u32Size := by
    simp only [checkpointSlotBlocks, blockSize, u32Size] at *
    omega
  obtain ⟨restI, hrestI⟩ := hpay.imap.imageBytes
  obtain ⟨restS, hrestS⟩ := hpay.bitmap.imageBytes
  obtain ⟨imap, himap, hsame⟩ := LfsImap.deserialize_serialize (m := s.imap)
    s.superblock.segmentSize s.superblock.blockCount restI
    (by omega) (by
      intro id b hb
      have hprot := hv.good.refs (show refAt s.core id .inode = some b from hb)
      have hdata := hprot.data
      have hlt := hprot.lt
      have hblocks := hv.blockCount_eq
      rw [core_segments, hv.segmentSize] at hdata
      exact ⟨hv.ids id b hb, hdata, hlt, by show b < u64Size; omega⟩)
  have hsegs := LfsSegmentManager.deserialize_serialize (m := s.segments)
    s.superblock.blockCount restS (by rw [hv.segmentSize_eq]; decide)
    (by rw [hv.segmentSize_eq]; decide) hv.ready.segmentCount hv.good.log.extent
    (by rw [hv.blockCount_eq]; exact hn)
  have hbits : (s.nextHeader w).segmentBitmapCount ≤ maxBitmapBlocks s.superblock.segmentCount := by
    rw [hcountS, s.segments.serialize_length, ← hv.segmentCount]
    exact blocksNeeded_bitmap_le _
  refine ⟨⟨s.superblock, s.nextHeader w, imap, s.segments⟩, ⟨rfl, rfl, hsame, rfl⟩, ?_⟩
  intro image'
  rw [ofBlocks_eq hfrom hv.blockCount_eq.le hlatest hsmall
    (by rw [hcountI, hrestI]; exact himap) hbits (by
      rw [hcountS, hrestS, ← hv.segmentCount, ← hv.segmentSize]
      exact hsegs)]
  rw [require_bind_eq_ok, require_bind_eq_ok, Except.ok.injEq, eq_comm (a := image')]
  exact Iff.rfl

/-- `s'` was mounted from the medium behind `s`, which `sync` had flushed. -/
structure Resumed (s s' : Lfs) : Prop where
  imap : ∀ id : Nat, s'.imap[id]? = s.imap[id]?
  segments : s'.segments = s.segments
  nextInode : s'.nextInode = s.nextInode
  superblock : s'.superblock = s.superblock
  writer : s'.writer = none
  disk : s'.disk.view = s.disk.view
  blockCount : s'.disk.dev.blockCount = s.disk.dev.blockCount

theorem Resumed.good {s s' : Lfs} (h : Resumed s s') (hs : s.Good) (hd : s'.disk.Coherent) :
    s'.Good ∧ meaning s'.core = meaning s.core := by
  have hlog : LogOk s.superblock.blockCount s'.core := by
    refine ⟨hd, ?_, ?_, ?_, ?_, ?_⟩
    · rw [core_disk, h.blockCount]
      exact hs.log.fits
    · rw [core_segments, h.segments]
      exact hs.log.segSize
    · rw [core_segments, h.segments]
      exact hs.log.extent
    · rw [core_segments, h.segments]
      exact hs.log.seg0
    · intro w hw
      rw [core_writer, h.writer] at hw
      contradiction
  have hkeep : ∀ x, Protected s.superblock.blockCount s.core x →
      Protected s.superblock.blockCount s'.core x := by
    intro x hx
    have hsegs : s'.core.segments = s.core.segments := h.segments
    refine ⟨⟨hx.lt, ?_, ?_, ?_, ?_⟩, ?_⟩
    · rw [hsegs]
      exact hx.data
    · rw [hsegs]
      exact hx.offset
    · rw [hsegs]
      exact hx.range
    · intro w hw
      rw [core_writer, h.writer] at hw
      contradiction
    · rw [hsegs]
      exact hx.inUse
  have hag : Agrees s.core s'.core := by
    intro id k x _
    show s'.disk.view x = s.disk.view x
    rw [h.disk]
  have hfiles := hs.of_agrees hag h.imap hlog hkeep
  refine ⟨?_, hfiles.2⟩
  unfold Good
  rw [h.superblock]
  exact hfiles.1

theorem Resumed.valid {s s' : Lfs} (h : Resumed s s') (hv : Valid s) (hd : s'.disk.Coherent)
    (hseq : s'.checkpointSequence = s.checkpointSequence)
    (hidle : ∃ image, ofBlocks s'.disk.view s'.disk.dev.blockCount = .ok image ∧
      image.toLfs s'.disk = s') : Valid s' := by
  have hnext : s'.nextSlot = s.nextSlot := by
    unfold nextSlot
    rw [h.superblock, hseq]
  have hother : s'.otherSlot = s.otherSlot := by
    unfold otherSlot
    rw [h.superblock, hseq]
  refine ⟨(h.good hv.good hd).1, ?_, ?_, ?_, ?_, ?_, ?_, ?_, ?_, ⟨?_, ?_⟩, fun _ => hidle⟩
  · rw [h.superblock, h.blockCount]
    exact hv.superblock
  · rw [h.blockCount]
    exact hv.size
  · rw [h.segments, h.superblock]
    exact hv.segmentSize
  · rw [h.segments, h.superblock]
    exact hv.segmentCount
  · rw [h.disk, h.superblock]
    exact hv.onDisk
  · intro id b hb
    rw [h.imap] at hb
    exact hv.ids id b hb
  · rw [h.nextInode]
    exact hv.nextInode
  · rw [hseq]
    exact hv.sequence
  · rw [hnext, hseq, h.disk, h.blockCount]
    exact hv.slots.next
  · rw [hother, hseq, h.disk, h.blockCount]
    exact hv.slots.other

theorem Valid.slotsInside (hv : Valid s) (hc : s.disk.Clean) : SlotsInside s.disk.dev := by
  have hsize := hv.size
  refine ⟨by simp only [defaultSegmentSize] at hsize; omega, fun sb hsb => ?_⟩
  rw [hc.dev_eq_view hv.good.log.coherent, hv.onDisk, hv.superblock,
    formatSuperblock_fromBlock (s.disk.dev.blockCount_lt.trans (by decide))] at hsb
  cases hsb
  simp only [formatSuperblock, checkpointSlotA, checkpointSlotB, checkpointSlotBlocks,
    defaultSegmentSize] at *
  omega

/-- What the medium mounts to after a successful `sync`: the state that was
synced. -/
structure SyncImage (s₁ : Lfs) (image : MountImage) : Prop where
  imap : ∀ id : Nat, image.imap[id]? = s₁.imap[id]?
  segments : image.segments = s₁.segments
  nextInode : image.checkpoint.nextInode = s₁.nextInode
  superblock : image.superblock = s₁.superblock
  sequence : image.checkpoint.sequence + 1 = s₁.checkpointSequence

theorem Valid.sync_image {s₁ : Lfs} (hv : Valid s) (hsync : sync s = .ok () s₁)
    (hseq : s.checkpointSequence + 1 < u64Size) :
    s₁.disk.Clean ∧ ∃ image, SyncImage s₁ image ∧
      ((∀ w, s.writer = some w → w.sequence.toNat + 1 < u64Size) →
        ofBlocks s₁.disk.view s₁.disk.dev.blockCount = .ok image) ∧
      ∀ image', ofBlocks s₁.disk.view s₁.disk.dev.blockCount = .ok image' →
        image' = image := by
  rcases wp_ok (Lfs.sync_spec hv.ready) hsync with
    ⟨hw, d', rfl, hstill, hclean⟩ | ⟨w, d₁, d', hw, h₁, h₂, hclean, hview, rfl⟩
  · obtain ⟨image, himage, hstate⟩ := hv.idle hw
    have hview : d'.view = s.disk.view := funext hstill.view_eq
    have hblocks : ofBlocks d'.view d'.dev.blockCount = .ok image := by
      rw [hview, hstill.blockCount]
      exact himage
    refine ⟨hclean, image, ?_, fun _ => hblocks, fun image' h' => ?_⟩
    · refine ⟨fun id => ?_, ?_, ?_, ?_, ?_⟩
      · show image.imap[id]? = s.imap[id]?
        rw [← hstate]
        rfl
      · show image.segments = s.segments
        rw [← hstate]
        rfl
      · show image.checkpoint.nextInode = s.nextInode
        rw [← hstate]
        rfl
      · show image.superblock = s.superblock
        rw [← hstate]
        rfl
      · show image.checkpoint.sequence + 1 = s.checkpointSequence
        rw [← hstate]
        rfl
    · exact Except.ok.inj (h'.symm.trans hblocks)
  · have hstep := h₂.step_slot h₁
    have hslot : Payload d'.view s.nextSlot (s.nextHeader w) (LfsImap.serialize s.imap)
        s.segments.serialize := by
      -- the header is written outside of the payload
      have hpay := h₁.payload
      have hlay := hv.ready.layout w
      refine ⟨hpay.imap.congr fun b hlo _ => ?_, hpay.bitmap.congr fun b hlo _ => ?_,
        hpay.above, hpay.below⟩
      · exact h₂.step.view b (by omega)
      · exact h₂.step.view b (by omega)
    have hother : d'.view s.otherSlot = s.disk.view s.otherSlot := by
      rw [h₂.step.view _ hv.otherSlot_ne, h₁.step.view _ hv.not_inPayload.2.1]
    have hsb : d'.view superblockBlock = s.superblock.toBlock := by
      rw [h₂.step.view _ hv.superblock_ne, h₁.step.view _ hv.not_inPayload.2.2]
      exact hv.onDisk
    have hcount : d'.dev.blockCount = s.disk.dev.blockCount := hstep.blockCount
    obtain ⟨image, hdesc, himage⟩ := hv.ofBlocks_synced hsb hslot hview
      (by rw [hother]; exact hv.slots.other)
    refine ⟨hclean, image, ?_, ?_, ?_⟩
    · refine ⟨hdesc.imap, hdesc.segments, ?_, hdesc.superblock, ?_⟩
      · rw [hdesc.checkpoint]
        rfl
      · rw [hdesc.checkpoint]
        exact (Nat.mod_eq_of_lt hseq).symm
    · intro hlast
      show ofBlocks d'.view d'.dev.blockCount = .ok image
      rw [hcount]
      exact (himage image).mpr ⟨hlast w hw, hseq, rfl⟩
    · intro image' h'
      rw [hcount] at h'
      exact ((himage image').mp h').2.2

theorem Valid.remount {s₁ s₂ : Lfs} (hv : Valid s) (hsync : sync s = .ok () s₁)
    (hseq : s.checkpointSequence + 1 < u64Size) (hm : Mounts s₁.disk.dev s₂) :
    Valid s₂ ∧ Resumed s₁ s₂ := by
  have hv₁ : Valid s₁ := wp_ok hv.sync_spec hsync hseq
  obtain ⟨hclean, image, himage, -, huniq⟩ := hv.sync_image hsync hseq
  obtain ⟨image', hblocks, hstate, hpeek⟩ := hm.eq_toLfs (hv₁.slotsInside hclean)
  have hdev : s₁.disk.dev.blocks = s₁.disk.view := funext (hclean.dev_eq_view hv₁.good.log.coherent)
  rw [hdev] at hblocks
  obtain rfl := huniq image' hblocks
  have hview : s₂.disk.view = s₁.disk.view := by
    rw [← hdev]
    funext b
    rw [hpeek.still.view_eq, Disk.fresh_view]
  have hcount : s₂.disk.dev.blockCount = s₁.disk.dev.blockCount := hpeek.still.blockCount
  have hres : Resumed s₁ s₂ := by
    refine ⟨fun id => ?_, ?_, ?_, ?_, ?_, hview, hcount⟩
    · rw [hstate]
      exact himage.imap id
    · rw [hstate]
      exact himage.segments
    · rw [hstate]
      exact himage.nextInode
    · rw [hstate]
      exact himage.superblock
    · rw [hstate]
      rfl
  refine ⟨hres.valid hv₁ hpeek.still.coherent ?_ ⟨image', ?_, hstate.symm⟩, hres⟩
  · rw [hstate]
    exact himage.sequence
  · rw [hview, hcount]
    exact hblocks

end Lfs

end Thumos
