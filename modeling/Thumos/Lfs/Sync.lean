import Mathlib.Data.List.Perm.Subperm
import Thumos.Lfs.RoundTrip

/-!
# Writing checkpoints

What `write_checkpoint`, `format` and `sync` leave on the disk.  A checkpoint
is written in two phases with a flush between them.  The first phase writes
the inode map and the segment bitmap into the slot, the second the header
alone.  A power loss can only cut the second phase when the first is complete
on the medium, which is why the phases are kept apart here.
-/

namespace Thumos

open StateExcept Disk LfsImap

theorem writeBlocks_spec (bs : List Block) : ∀ {d : Disk} {start : Nat}, d.Coherent →
    start + bs.length < blockLimit →
    wp (writeBlocks start bs)
      (fun _ d' => Disk.Step (fun b => start ≤ b ∧ b < start + bs.length) d d' ∧
        ∀ i b, bs[i]? = some b → d'.view (start + i) = b)
      (fun _ d' => Disk.Step (fun b => start ≤ b ∧ b < start + bs.length) d d') d := by
  induction bs with
  | nil =>
    intro d start hd _
    exact ⟨Disk.Step.refl hd, fun i b h => by simp at h⟩
  | cons x bs ih =>
    intro d start hd hlim
    rw [List.length_cons] at hlim ⊢
    have hnext : (start + 1) % u64Size = start + 1 := by
      simp only [blockLimit, u64Size] at *
      omega
    simp only [writeBlocks, wp_bind, Disk.wp_io, hnext]
    refine wp_conseq (write_step hd (by omega) x) ?_ ?_
    · intro _ d₁ hpost
      obtain ⟨hstep₁, hx⟩ := hpost
      have hstep₁' : Disk.Step (fun b => start ≤ b ∧ b < start + (bs.length + 1)) d d₁ :=
        hstep₁.mono fun b hb => by omega
      refine wp_conseq (ih hstep₁.coherent (by omega)) ?_ ?_
      · intro _ d₂ hpost
        obtain ⟨hstep₂, hview⟩ := hpost
        refine ⟨hstep₁'.trans (hstep₂.mono fun b hb => by omega), ?_⟩
        intro i b hi
        cases i with
        | zero =>
          cases hi
          rw [add_zero, hstep₂.view start (by omega), hx]
        | succ i =>
          rw [show start + (i + 1) = start + 1 + i by omega]
          exact hview i b hi
      · intro _ d₂ hstep₂
        exact hstep₁'.trans (hstep₂.mono fun b hb => by omega)
    · intro _ d₁ hpost
      exact hpost.1.mono fun b hb => by omega

def Stored (view : Nat → Block) (start : Nat) (data : List UInt8) : Prop :=
  ∀ i b, (blocksOf (blocksNeeded data.length) data)[i]? = some b → view (start + i) = b

theorem Stored.congr {view view' : Nat → Block} {start : Nat} {data : List UInt8}
    (h : Stored view start data)
    (hsame : ∀ b, start ≤ b → b < start + blocksNeeded data.length → view' b = view b) :
    Stored view' start data := by
  intro i b hi
  have hlt : i < blocksNeeded data.length := by
    rw [← blocksOf_length (blocksNeeded data.length) data]
    exact (getElem?_eq_some_iff.mp hi).1
  rw [hsame _ (by omega) (by omega)]
  exact h i b hi

theorem Stored.imageBytes {view : Nat → Block} {start : Nat} {data : List UInt8}
    (h : Stored view start data) : ∃ rest,
    Thumos.imageBytes view start (blocksNeeded data.length) = data ++ rest :=
  ⟨_, imageBytes_blocksOf _ _ _ (blocksNeeded_le _) h⟩

/-- The payload of a checkpoint is in place in its slot. -/
structure Payload (view : Nat → Block) (slot : Nat) (h : CheckpointHeader)
    (imapData segmentData : List UInt8) : Prop where
  imap : Stored view h.imapBlock imapData
  bitmap : Stored view h.segmentBitmapBlock segmentData
  above : slot < h.imapBlock
  below : h.segmentBitmapBlock + h.segmentBitmapCount ≤ slot + checkpointSlotBlocks

def InPayload (slot b : Nat) : Prop := slot < b ∧ b < slot + checkpointSlotBlocks

/-- The first phase of a checkpoint is complete in `d₁`, after writes to blocks
in `P`. -/
structure Phase1 (P : Nat → Prop) (slot : Nat) (h : CheckpointHeader)
    (imapData segmentData : List UInt8) (d d₁ : Disk) : Prop where
  step : Disk.Step P d d₁
  clean : d₁.Clean
  payload : Payload d₁.view slot h imapData segmentData

def HeaderWrite (slot : Nat) (h : CheckpointHeader) (lba : Nat) (x : Block) : Prop :=
  lba = sectorsPerBlock * slot ∧ x = h.toBlock

structure Phase2 (slot : Nat) (h : CheckpointHeader) (d₁ d' : Disk) : Prop where
  step : Disk.Step (· = slot) d₁ d'
  view : d'.view slot = d₁.view slot ∨ d'.view slot = h.toBlock
  trace : Traced (HeaderWrite slot h) d₁ d'

theorem Phase2.step_slot {P : Nat → Prop} {slot : Nat} {h : CheckpointHeader}
    {imapData segmentData : List UInt8} {d d₁ d' : Disk}
    (h₂ : Phase2 slot h d₁ d') (h₁ : Phase1 P slot h imapData segmentData d d₁) :
    Disk.Step (fun b => P b ∨ b = slot) d d' :=
  (h₁.step.mono fun _ hb => .inl hb).trans (h₂.step.mono fun _ hb => .inr hb)

theorem writeHeader_spec {d : Disk} (hd : d.Coherent) (hc : d.Clean) {slot : Nat}
    (hslot : slot < blockLimit) (h : CheckpointHeader) :
    wp (do
        io (write slot h.toBlock)
        io flush)
      (fun _ d' => Phase2 slot h d d' ∧ d'.Clean ∧ d'.view slot = h.toBlock)
      (fun _ d' => Phase2 slot h d d') d := by
  have hdirty : DirtyIn (HeaderWrite slot h) d :=
    fun e he hv hdt => (hc e he hv hdt).elim
  simp only [wp_bind, Disk.wp_io]
  have hwrite := write_traced (show HeaderWrite slot h (lbaOf slot) h.toBlock from
    ⟨lbaOf_of_lt hslot, rfl⟩) d
  refine wp_conseq (wp_and (write_step hd hslot h.toBlock) hwrite) ?_ ?_
  · intro _ d₁ hpost
    obtain ⟨⟨hstep₁, hview⟩, htr₁⟩ := hpost
    have htr₁ := htr₁ hdirty
    refine wp_conseq (wp_and (flush_step hstep₁.coherent)
      (flush_traced (A := HeaderWrite slot h) d₁)) ?_ ?_
    · intro _ d₂ hpost
      obtain ⟨⟨hstill, hclean⟩, htr₂⟩ := hpost
      have hview₂ : d₂.view slot = h.toBlock := (hstill.view_eq slot).trans hview
      exact ⟨⟨hstep₁.trans (Disk.Step.of_still hstill), .inr hview₂, htr₁.trans (htr₂ htr₁.dirty)⟩,
        hclean, hview₂⟩
    · intro _ d₂ hpost
      exact ⟨hstep₁.trans (Disk.Step.of_still hpost.1),
        .inr ((hpost.1.view_eq slot).trans hview), htr₁.trans (hpost.2 htr₁.dirty)⟩
  · intro _ d₁ hpost
    exact ⟨hpost.1.1, .inl (hpost.1.2 slot), hpost.2 hdirty⟩

/-- `lfs_checkpoint::write_checkpoint`.  The counts of the header are checked
against the slot, and not those of the data. -/
theorem writeCheckpoint_spec {P : Nat → Prop} {d : Disk} (hd : d.Coherent) (slot : Nat)
    (h : CheckpointHeader) (imapData segmentData : List UInt8)
    (hslot : slot + checkpointSlotBlocks < blockLimit)
    (himap : h.imapBlock + blocksNeeded imapData.length ≤ h.segmentBitmapBlock)
    (hend : h.segmentBitmapBlock + h.segmentBitmapCount < u64Size)
    (hlim : h.segmentBitmapBlock + blocksNeeded segmentData.length < blockLimit)
    (hP : slot < h.imapBlock →
      h.segmentBitmapBlock + h.segmentBitmapCount ≤ slot + checkpointSlotBlocks →
      ∀ b, h.imapBlock ≤ b → b < h.segmentBitmapBlock + blocksNeeded segmentData.length → P b) :
    wp (writeCheckpoint slot h imapData segmentData)
      (fun _ d' => ∃ d₁, Phase1 P slot h imapData segmentData d d₁ ∧ Phase2 slot h d₁ d' ∧
        d'.Clean ∧ d'.view slot = h.toBlock) (fun _ d' => Disk.Step P d d' ∨
        ∃ d₁, Phase1 P slot h imapData segmentData d d₁ ∧ Phase2 slot h d₁ d') d := by
  have hslotEnd : (slot + checkpointSlotBlocks) % u64Size = slot + checkpointSlotBlocks := by
    simp only [blockLimit, u64Size] at *
    omega
  have hpayloadEnd : (h.segmentBitmapBlock + h.segmentBitmapCount) % u64Size =
      h.segmentBitmapBlock + h.segmentBitmapCount := Nat.mod_eq_of_lt hend
  simp only [writeCheckpoint, wp_bind, wp_failIf, hslotEnd, hpayloadEnd]
  refine ⟨fun _ => .inl (Disk.Step.refl hd), fun hfit => ?_⟩
  have hP := hP (by omega) (by omega)
  have hlenI := blocksOf_length (blocksNeeded imapData.length) imapData
  have hlenS := blocksOf_length (blocksNeeded segmentData.length) segmentData
  refine wp_conseq (writeBlocks_spec (blocksOf (blocksNeeded imapData.length) imapData) hd
    (by rw [hlenI]; omega)) ?_ ?_
  · intro _ d₁ hpost
    obtain ⟨hstep₁, hview₁⟩ := hpost
    rw [hlenI] at hstep₁
    have hstep₁' : Disk.Step P d d₁ := hstep₁.mono fun b hb => hP b hb.1 (by omega)
    refine wp_conseq (writeBlocks_spec (blocksOf (blocksNeeded segmentData.length) segmentData)
      hstep₁.coherent (by rw [hlenS]; omega)) ?_ ?_
    · intro _ d₂ hpost
      obtain ⟨hstep₂, hview₂⟩ := hpost
      rw [hlenS] at hstep₂
      have hstep₂' : Disk.Step P d d₂ :=
        hstep₁'.trans (hstep₂.mono fun b hb => hP b (by omega) hb.2)
      simp only [Disk.wp_io]
      refine wp_conseq (flush_step hstep₂.coherent) ?_ ?_
      · intro _ d₃ hpost
        obtain ⟨hstill, hclean⟩ := hpost
        have hphase : Phase1 P slot h imapData segmentData d d₃ := by
          refine ⟨hstep₂'.trans (Disk.Step.of_still hstill), hclean, ?_, ?_, by omega, by omega⟩
          · intro i b hi
            have hlt : i < blocksNeeded imapData.length := by
              rw [← hlenI]
              exact (getElem?_eq_some_iff.mp hi).1
            rw [hstill.view_eq, hstep₂.view _ (by omega)]
            exact hview₁ i b hi
          · intro i b hi
            rw [hstill.view_eq]
            exact hview₂ i b hi
        have hheader := writeHeader_spec hstill.coherent hclean
          (show slot < blockLimit by omega) h
        simp only [wp_bind, Disk.wp_io] at hheader
        refine wp_conseq hheader ?_ ?_
        · intro _ d₄ hpost
          refine wp_conseq hpost ?_ ?_
          · intro _ d₅ hpost
            exact ⟨d₃, hphase, hpost⟩
          · intro _ d₅ hpost
            exact .inr ⟨d₃, hphase, hpost⟩
        · intro _ d₄ hpost
          exact .inr ⟨d₃, hphase, hpost⟩
      · intro _ d₃ hstill
        exact .inl (hstep₂'.trans (Disk.Step.of_still hstill))
    · intro _ d₂ hstep₂
      rw [hlenS] at hstep₂
      exact .inl (hstep₁'.trans (hstep₂.mono fun b hb => hP b (by omega) hb.2))
  · intro _ d₁ hstep₁
    rw [hlenI] at hstep₁
    exact .inl (hstep₁.mono fun b hb => hP b hb.1 (by omega))

/-! ## Sync -/

theorem LfsImap.size_le {m : LfsImap} {n : Nat} (h : ∀ id b : Nat, m[id]? = some b → id < n) :
    m.size ≤ n := by
  have hnodup : (m.toList.map Prod.fst).Nodup := List.pairwise_map.mpr m.pairwise_toList
  have hsub : m.toList.map Prod.fst ⊆ List.range n := by
    intro k hk
    obtain ⟨e, he, rfl⟩ := List.mem_map.mp hk
    rw [List.mem_range]
    exact h e.1 e.2 (mem_toList.mp he)
  have hlen := (hnodup.subperm hsub).length_le
  rw [List.length_map, List.length_range, Std.TreeMap.length_toList] at hlen
  exact hlen

theorem LfsImap.serialize_length (m : LfsImap) :
    (serialize m).length = 4 + m.size * imapEntrySize := by
  have hser : serialize m = LittleEndian.leBytes 4 m.size ++ encodeEntries m.toList :=
    rfl
  rw [hser, List.length_append, LittleEndian.leBytes_length, encodeEntries_length,
    Std.TreeMap.length_toList]

theorem blocksNeeded_le_self (len : Nat) : blocksNeeded len ≤ len := by
  simp only [blocksNeeded, blockSize]
  split <;> omega

namespace Lfs

variable {s : Lfs}

def nextSlot (s : Lfs) : Nat :=
  Log.slotFor (s.superblock.checkpointBlockA, s.superblock.checkpointBlockB) s.checkpointSequence

def nextHeader (s : Lfs) (w : LfsWriter) : CheckpointHeader :=
  Log.checkpointHeader ⟨s.toVolume, w⟩ s.nextSlot s.checkpointSequence s.nextInode

/-- What `sync` relies on: the slots lie at the start of the device, and the
tables are of the size that a `u32` can count. -/
structure SyncReady (s : Lfs) : Prop where
  coherent : s.disk.Coherent
  slotA : s.superblock.checkpointBlockA = checkpointSlotA
  slotB : s.superblock.checkpointBlockB = checkpointSlotB
  ids : ∀ id b : Nat, s.imap[id]? = some b → id < u32Size
  segmentCount : s.segments.segmentCount < u32Size

theorem SyncReady.nextSlot (h : SyncReady s) :
    s.nextSlot = checkpointSlotA ∨ s.nextSlot = checkpointSlotB := by
  unfold Lfs.nextSlot Log.slotFor
  rw [h.slotA, h.slotB]
  split
  · exact .inl rfl
  · exact .inr rfl

theorem SyncReady.layout (h : SyncReady s) (w : LfsWriter) :
    (s.nextHeader w).imapBlock = s.nextSlot + 1 ∧ (s.nextHeader w).segmentBitmapBlock =
        s.nextSlot + 1 + blocksNeeded (serialize s.imap).length ∧
      s.nextSlot + 1 + blocksNeeded (serialize s.imap).length +
        blocksNeeded s.segments.serialize.length + 2 < blockLimit := by
  have hsize := size_le h.ids
  have hlen := serialize_length s.imap
  have hneed := blocksNeeded_le_self (serialize s.imap).length
  have hneed' := blocksNeeded_le_self s.segments.serialize.length
  have hbits := s.segments.serialize_length
  have hcount := h.segmentCount
  have hbound : s.nextSlot + 1 + blocksNeeded (serialize s.imap).length +
      blocksNeeded s.segments.serialize.length + 2 < blockLimit := by
    simp only [imapEntrySize, LfsSegmentManager.bitmapBytes, u32Size, blockLimit] at *
    rcases h.nextSlot with hs | hs <;>
      simp only [checkpointSlotA, checkpointSlotB, checkpointSlotBlocks] at hs <;> omega
  have hmod : (s.nextSlot + 1) % u64Size = s.nextSlot + 1 := by
    simp only [blockLimit, u64Size] at *
    omega
  refine ⟨hmod, ?_, hbound⟩
  show ((s.nextSlot + 1) % u64Size + blocksNeeded (serialize s.imap).length) % u64Size = _
  rw [hmod]
  simp only [blockLimit, u64Size] at *
  omega

abbrev SyncPhase1 (s : Lfs) (w : LfsWriter) (d₁ : Disk) : Prop :=
  Phase1 (InPayload s.nextSlot) s.nextSlot (s.nextHeader w) (LfsImap.serialize s.imap)
    s.segments.serialize s.disk d₁

theorem sync_spec (h : SyncReady s) :
    wp sync (fun _ s' => (s.writer = none ∧ ∃ d', s' = { s with disk := d' } ∧ Still s.disk d' ∧
          d'.Clean) ∨
        ∃ w d₁ d', s.writer = some w ∧ s.SyncPhase1 w d₁ ∧
          Phase2 s.nextSlot (s.nextHeader w) d₁ d' ∧ d'.Clean ∧
          d'.view s.nextSlot = (s.nextHeader w).toBlock ∧
          s' = { s with
            disk := d'
            checkpointSequence := (s.checkpointSequence + 1) % u64Size })
      (fun _ s' => ∃ d', s' = { s with disk := d' } ∧
        (Still s.disk d' ∨ s.writer ≠ none ∧ Disk.Step (InPayload s.nextSlot) s.disk d' ∨
          ∃ w d₁, s.writer = some w ∧ s.SyncPhase1 w d₁ ∧
            Phase2 s.nextSlot (s.nextHeader w) d₁ d')) s := by
  simp only [sync, wp_bind, wp_onDisk, wp_get]
  refine wp_conseq (flush_step h.coherent) ?_ ?_
  · intro _ d₀ hpost
    obtain ⟨hstill, hclean⟩ := hpost
    cases hw : s.writer with
    | none => exact .inl ⟨rfl, d₀, rfl, hstill, hclean⟩
    | some w =>
      obtain ⟨himap, hseg, hbound⟩ := h.layout w
      have hslot : s.nextSlot + checkpointSlotBlocks < blockLimit := by
        rcases h.nextSlot with hs | hs <;> rw [hs] <;> decide
      have hcount : (s.nextHeader w).segmentBitmapCount =
        blocksNeeded s.segments.serialize.length := rfl
      have hcp := writeCheckpoint_spec (P := InPayload s.nextSlot) hstill.coherent
        s.nextSlot (s.nextHeader w) (serialize s.imap) s.segments.serialize hslot (by omega)
        (by simp only [blockLimit, u64Size] at *; omega) (by omega)
        (fun habove hbelow b hlo hhi => ⟨by omega, by omega⟩)
      -- the flush before the payload belongs to the first phase
      have hfirst : ∀ d₁, Phase1 (InPayload s.nextSlot) s.nextSlot (s.nextHeader w)
          (serialize s.imap) s.segments.serialize d₀ d₁ → s.SyncPhase1 w d₁ :=
        fun d₁ h₁ => ⟨(Disk.Step.of_still hstill).trans h₁.step, h₁.clean, h₁.payload⟩
      simp only [Option.isSome_some, if_true, wp_bind]
      rw [wp_withLog]
      refine ⟨by rintro ⟨⟩, ?_⟩
      intro w' hw'
      cases hw'
      simp only [Log.writeCheckpoint, wp_bind, wp_get, Log.wp_onDisk]
      refine wp_conseq hcp ?_ ?_
      · intro _ d' hpost
        obtain ⟨d₁, h₁, h₂, hclean', hview⟩ := hpost
        simp only [wp_modify, wp_onDisk]
        -- nothing is dirty, so the last flush cannot fail
        refine wp_conseq (flush_clean hclean') ?_ fun _ _ hf => hf.elim
        intro _ d'' heq
        subst heq
        refine .inr ⟨w, d₁, d'', rfl, hfirst d₁ h₁, h₂, hclean', hview, ?_⟩
        rfl
      · intro _ d' hpost
        refine ⟨d', ?_, ?_⟩
        · rfl
        · rcases hpost with hstep | ⟨d₁, h₁, h₂⟩
          · exact .inr (.inl ⟨by rintro ⟨⟩, (Disk.Step.of_still hstill).trans hstep⟩)
          · exact .inr (.inr ⟨w, d₁, rfl, hfirst d₁ h₁, h₂⟩)
  · intro _ d₀ hstill
    exact ⟨d₀, rfl, .inl hstill⟩

end Lfs

end Thumos
