import Thumos.Lfs.Sync

/-!
# The invariant of a mounted filesystem

`Lfs.Valid` is what holds of every state that a run from `format` reaches.
Besides the invariant of the files it says where the tables are, that the
checkpoints on the disk are older than the next one, and that a filesystem
which has not opened a writer yet is still what its disk mounts to.
-/

namespace Thumos

open StateExcept CheckpointHeader

/-! ## The numbers in use -/

/-- A step of the inode counter: the numbers in use are those before, and the
counter's number if `creating` handed it out. -/
def Numbered (creating : Prop) (s s' : Lfs) : Prop :=
  (s'.nextInode = s.nextInode ∧ ∀ id, meaning s'.core id ≠ none → meaning s.core id ≠ none) ∨
    (creating ∧ s'.nextInode = (s.nextInode + 1) % u32Size ∧
      ∀ id, meaning s'.core id ≠ none → meaning s.core id ≠ none ∨ id = s.nextInode)

namespace Call

def IsCreate (c : Call) : Prop := ∃ dir name ty, c = create dir name ty

variable {c : Call} {s s' : Lfs}

theorem update_ne_none {m : Nat → Option Node} {k id : Nat} {n : Option Node}
    (h : Function.update m k n id ≠ none) : id = k ∧ n ≠ none ∨ m id ≠ none := by
  by_cases hid : id = k
  · subst hid
    rw [Function.update_self] at h
    exact .inl ⟨rfl, h⟩
  · rw [Function.update_of_ne hid] at h
    exact .inr h

theorem Effect.numbered (h : c.Effect s s') : Numbered c.IsCreate s s' := by
  cases c with
  | observe o =>
    exact .inl ⟨h.2, fun id hid => by rw [h.1] at hid; exact hid⟩
  | compact =>
    exact .inl ⟨h.2, fun id hid => by rw [h.1] at hid; exact hid⟩
  | write id offset buf =>
    obtain ⟨m, hm, -, hnext, hmean⟩ := h
    refine .inl ⟨hnext, fun k hk => ?_⟩
    split at hmean
    · rw [hmean] at hk
      exact hk
    obtain ⟨m', -, hmean⟩ := hmean
    rw [hmean] at hk
    rcases update_ne_none hk with ⟨rfl, -⟩ | hk
    · rw [hm]
      simp
    · exact hk
  | truncate id size =>
    obtain ⟨m, m', hm, -, -, hnext, hmean⟩ := h
    refine .inl ⟨hnext, fun k hk => ?_⟩
    rw [hmean] at hk
    rcases update_ne_none hk with ⟨rfl, -⟩ | hk
    · rw [hm]
      simp
    · exact hk
  | create dir name ty =>
    obtain ⟨m, m', ns, hm, -, -, -, -, hnext, hmean⟩ := h
    refine .inr ⟨⟨dir, name, ty, rfl⟩, hnext, fun k hk => ?_⟩
    rw [hmean] at hk
    rcases update_ne_none hk with ⟨rfl, -⟩ | hk
    · left
      rw [hm]
      simp
    · rcases update_ne_none hk with ⟨rfl, -⟩ | hk
      · exact .inr rfl
      · exact .inl hk
  | unlink dir name =>
    obtain ⟨m, m', ns, target, hm, -, -, -, -, hnext, hmean⟩ := h
    refine .inl ⟨hnext, fun k hk => ?_⟩
    rw [hmean] at hk
    rcases update_ne_none hk with ⟨-, hne⟩ | hk
    · contradiction
    rcases update_ne_none hk with ⟨rfl, -⟩ | hk
    · rw [hm]
      simp
    · exact hk

theorem Failure.numbered (h : c.Failure s s') : Numbered c.IsCreate s s' := by
  rcases h with ⟨hmean, hnext⟩ | ⟨hcreate, hnext, hmean | hmean⟩
  · exact .inl ⟨hnext, fun id hid => by rw [hmean] at hid; exact hid⟩
  · exact .inr ⟨hcreate, hnext, fun id hid => by rw [hmean] at hid; exact .inl hid⟩
  · refine .inr ⟨hcreate, hnext, fun id hid => ?_⟩
    rw [hmean] at hid
    rcases update_ne_none hid with ⟨-, hne⟩ | hid
    · contradiction
    · exact .inl hid

end Call

/-! ## The invariant -/

namespace Lfs

def otherSlot (s : Lfs) : Nat :=
  if s.checkpointSequence % 2 = 0 then s.superblock.checkpointBlockB
  else s.superblock.checkpointBlockA

/-- The checkpoints on the disk are older than the next one.  One that a failed
`sync` left in the slot may have its number already. -/
structure SlotsOk (s : Lfs) : Prop where
  next : ∀ h, CheckpointHeader.parse (s.disk.view s.nextSlot) s.disk.dev.blockCount = .ok h →
    h.sequence ≤ s.checkpointSequence
  other : ∀ h, CheckpointHeader.parse (s.disk.view s.otherSlot) s.disk.dev.blockCount = .ok h →
    h.sequence < s.checkpointSequence

structure Valid (s : Lfs) : Prop where
  good : s.Good
  superblock : s.superblock = formatSuperblock s.disk.dev.blockCount
  size : defaultSegmentSize * 2 ≤ s.disk.dev.blockCount
  segmentSize : s.segments.segmentSize = s.superblock.segmentSize
  segmentCount : s.segments.segmentCount = s.superblock.segmentCount
  onDisk : s.disk.view superblockBlock = s.superblock.toBlock
  ids : ∀ id b : Nat, s.imap[id]? = some b → id < u32Size
  nextInode : s.nextInode < u32Size
  sequence : s.checkpointSequence < u64Size
  slots : SlotsOk s
  /-- Without a writer, the state is what the disk mounts to. -/
  idle : s.writer = none → ∃ image,
    MountImage.ofBlocks s.disk.view s.disk.dev.blockCount = .ok image ∧ image.toLfs s.disk = s

variable {s s' : Lfs}

theorem Valid.ready (h : Valid s) : SyncReady s where
  coherent := h.good.log.coherent
  slotA := by rw [h.superblock]; rfl
  slotB := by rw [h.superblock]; rfl
  ids := h.ids
  segmentCount := by
    rw [h.segmentCount, h.superblock]
    exact Nat.mod_lt _ (by decide)

theorem Valid.segmentSize_eq (h : Valid s) : s.segments.segmentSize = defaultSegmentSize := by
  rw [h.segmentSize, h.superblock]
  rfl

theorem Valid.slots_eq (h : Valid s) :
    (s.nextSlot = checkpointSlotA ∧ s.otherSlot = checkpointSlotB) ∨
      (s.nextSlot = checkpointSlotB ∧ s.otherSlot = checkpointSlotA) := by
  unfold nextSlot otherSlot Log.slotFor
  rw [h.ready.slotA, h.ready.slotB]
  by_cases hpar : s.checkpointSequence % 2 = 0
  · exact .inl ⟨if_pos hpar, if_pos hpar⟩
  · exact .inr ⟨if_neg hpar, if_neg hpar⟩

theorem ids_of_numbered {creating : Prop} (hn : Numbered creating s s')
    (hids : ∀ id b : Nat, s.imap[id]? = some b → id < u32Size) (hnext : s.nextInode < u32Size) :
    (∀ id b : Nat, s'.imap[id]? = some b → id < u32Size) ∧ s'.nextInode < u32Size := by
  have hold : ∀ id, meaning s.core id ≠ none → id < u32Size := by
    intro id hid
    rw [ne_eq, meaning_eq_none, ← ne_eq, Option.ne_none_iff_exists'] at hid
    obtain ⟨b, hb⟩ := hid
    exact hids id b hb
  have hnew : ∀ id b : Nat, s'.imap[id]? = some b → meaning s'.core id ≠ none := by
    intro id b hb
    rw [ne_eq, meaning_eq_none]
    exact fun hnone => absurd (hb.symm.trans hnone) (by simp)
  rcases hn with ⟨heq, hdom⟩ | ⟨-, heq, hdom⟩
  · refine ⟨fun id b hb => hold id (hdom id (hnew id b hb)), ?_⟩
    rw [heq]
    exact hnext
  refine ⟨fun id b hb => ?_, ?_⟩
  · rcases hdom id (hnew id b hb) with hid | rfl
    · exact hold id hid
    · exact hnext
  · rw [heq]
    exact Nat.mod_lt _ (by decide)

theorem Done.view_reserved (h : Done s s') (hv : Valid s) {b : Nat} (hb : b < defaultSegmentSize) :
    s'.disk.view b = s.disk.view b := by
  refine h.log.disk.view b fun hl => ?_
  have := hl.data
  rw [core_segments, hv.segmentSize_eq] at this
  omega

theorem Valid.of_done {creating : Prop} (hv : Valid s) (h : Done s s') (hgood : s'.Good)
    (hn : Numbered creating s s') : Valid s' := by
  have hcount : s'.disk.dev.blockCount = s.disk.dev.blockCount := h.log.disk.blockCount
  have hids := ids_of_numbered hn hv.ids hv.nextInode
  have hnextSlot : s'.nextSlot = s.nextSlot := by
    unfold nextSlot
    rw [h.superblock, h.checkpointSequence]
  have hotherSlot : s'.otherSlot = s.otherSlot := by
    unfold otherSlot
    rw [h.superblock, h.checkpointSequence]
  have hlow : s.nextSlot < defaultSegmentSize ∧ s.otherSlot < defaultSegmentSize := by
    rcases hv.slots_eq with ⟨h1, h2⟩ | ⟨h1, h2⟩ <;> rw [h1, h2] <;> decide
  refine ⟨hgood, ?_, ?_, ?_, ?_, ?_, hids.1, hids.2, ?_, ⟨?_, ?_⟩, ?_⟩
  · rw [h.superblock, hcount]
    exact hv.superblock
  · rw [hcount]
    exact hv.size
  · rw [h.superblock, ← hv.segmentSize]
    exact h.log.segmentSize
  · rw [h.superblock, ← hv.segmentCount]
    exact h.log.segmentCount
  · rw [h.view_reserved hv (by decide), h.superblock]
    exact hv.onDisk
  · rw [h.checkpointSequence]
    exact hv.sequence
  · rw [hnextSlot, h.view_reserved hv hlow.1, hcount, h.checkpointSequence]
    exact hv.slots.next
  · rw [hotherSlot, h.view_reserved hv hlow.2, hcount, h.checkpointSequence]
    exact hv.slots.other
  · intro hw
    have hidle := h.idle hw
    obtain ⟨image, himage, hstate⟩ := hv.idle hidle.writer
    have hview : s'.disk.view = s.disk.view := funext hidle.disk.view_eq
    refine ⟨image, by rw [hview, hcount]; exact himage, ?_⟩
    have hstate' : s' = { s with disk := s'.disk } := by
      obtain ⟨⟨d, im, seg⟩, sb, nq, wr, ni, cs⟩ := s
      obtain ⟨⟨d', im', seg'⟩, sb', nq', wr', ni', cs'⟩ := s'
      obtain ⟨rfl, rfl, rfl, rfl, -⟩ := hidle
      obtain ⟨-, rfl, rfl, rfl, -⟩ := h
      obtain rfl := hw
      rfl
    rw [hstate', ← hstate]
    rfl

/-! ## Sync -/

section

variable (hv : Valid s)

include hv

theorem Valid.nextHeader_inRange (w : LfsWriter) : (s.nextHeader w).InRange := by
  have hsize := LfsImap.size_le hv.ids
  have hlen := LfsImap.serialize_length s.imap
  have hbits := s.segments.serialize_length
  have hcount := hv.ready.segmentCount
  obtain ⟨himap, hseg, hbound⟩ := hv.ready.layout w
  have hnext := hv.nextInode
  have hcs := hv.sequence
  have hw := w.sequence.toNat_lt
  have hneed : ∀ n, blocksNeeded n ≤ n / blockSize + 1 := by
    intro n
    simp only [blocksNeeded]
    split <;> omega
  have hneedI := hneed (LfsImap.serialize s.imap).length
  have hneedS := hneed s.segments.serialize.length
  simp only [LfsImap.imapEntrySize, LfsSegmentManager.bitmapBytes, u32Size, u64Size, blockLimit,
    blockSize] at *
  intro f hf
  simp only [fields, himap, hseg] at hf
  simp only [List.mem_cons, List.not_mem_nil, or_false] at hf
  rcases hf with rfl | rfl | rfl | rfl | rfl | rfl | rfl | rfl
  · show checkpointMagic < 256 ^ 4
    decide
  · show s.checkpointSequence < 256 ^ 8
    omega
  · show s.nextSlot + 1 < 256 ^ 8
    omega
  · show blocksNeeded (LfsImap.serialize s.imap).length < 256 ^ 4
    omega
  · show s.nextSlot + 1 + blocksNeeded (LfsImap.serialize s.imap).length < 256 ^ 8
    omega
  · show blocksNeeded s.segments.serialize.length < 256 ^ 4
    omega
  · show s.nextInode < 256 ^ 4
    omega
  · show w.sequence.toNat < 256 ^ 8
    omega

theorem Valid.parse_nextHeader {w : LfsWriter} {n : Nat} {h : CheckpointHeader}
    (hp : parse (s.nextHeader w).toBlock n = .ok h) : h = s.nextHeader w := by
  have hback := fromBlock_toBlock (hv.nextHeader_inRange w) rfl
  exact Except.ok.inj ((parse_eq_ok hp).symm.trans hback)

theorem Valid.of_tables {d : Disk} {sequence : Nat} (hd : d.Coherent)
    (hcount : d.dev.blockCount = s.disk.dev.blockCount)
    (hdata : ∀ b, defaultSegmentSize ≤ b → d.view b = s.disk.view b)
    (hsb : d.view superblockBlock = s.disk.view superblockBlock) (hseq : sequence < u64Size)
    (hslots : SlotsOk { s with disk := d, checkpointSequence := sequence })
    (hw : s.writer ≠ none) : Valid { s with disk := d, checkpointSequence := sequence } := by
  have hlog : LogOk s.superblock.blockCount { s.core with disk := d } :=
    ⟨hd, by rw [hcount]; exact hv.good.log.fits, hv.good.log.segSize, hv.good.log.extent,
      hv.good.log.seg0, hv.good.log.writer⟩
  have hkeep : ∀ x, Protected s.superblock.blockCount s.core x →
      Protected s.superblock.blockCount { s.core with disk := d } x :=
    fun x hx => ⟨⟨hx.lt, hx.data, hx.offset, hx.range, hx.head⟩, hx.inUse⟩
  have hag : Agrees s.core { s.core with disk := d } := by
    intro id k x hx
    refine hdata x ?_
    rw [← hv.segmentSize_eq]
    exact (hv.good.refs hx).data
  exact
    { good := (hv.good.of_agrees hag (fun _ => rfl) hlog hkeep).1
      superblock := by
        show s.superblock = formatSuperblock d.dev.blockCount
        rw [hcount]
        exact hv.superblock
      size := by
        show _ ≤ d.dev.blockCount
        rw [hcount]
        exact hv.size
      segmentSize := hv.segmentSize
      segmentCount := hv.segmentCount
      onDisk := hsb.trans hv.onDisk
      ids := hv.ids
      nextInode := hv.nextInode
      sequence := hseq
      slots := hslots
      idle := fun h => absurd h hw }

theorem Valid.nextSlot_lt : s.nextSlot + checkpointSlotBlocks < defaultSegmentSize := by
  rcases hv.slots_eq with ⟨h, -⟩ | ⟨h, -⟩ <;> rw [h] <;> decide

theorem Valid.not_inPayload :
    ¬InPayload s.nextSlot s.nextSlot ∧ ¬InPayload s.nextSlot s.otherSlot ∧
      ¬InPayload s.nextSlot superblockBlock := by
  rcases hv.slots_eq with ⟨h, h'⟩ | ⟨h, h'⟩ <;> rw [h, h'] <;> unfold InPayload <;> decide

theorem Valid.otherSlot_ne : s.otherSlot ≠ s.nextSlot := by
  rcases hv.slots_eq with ⟨h, h'⟩ | ⟨h, h'⟩ <;> rw [h, h'] <;> decide

theorem Valid.superblock_ne : superblockBlock ≠ s.nextSlot := by
  rcases hv.slots_eq with ⟨h, h'⟩ | ⟨h, h'⟩ <;> rw [h] <;> decide

theorem Valid.slot_step {W : Nat → Prop} {d : Disk} (hstep : Disk.Step W s.disk d)
    (hW : ∀ b, W b → s.nextSlot ≤ b ∧ b < s.nextSlot + checkpointSlotBlocks)
    (hother : ¬W s.otherSlot) : (∀ b, defaultSegmentSize ≤ b → d.view b = s.disk.view b) ∧
      d.view superblockBlock = s.disk.view superblockBlock ∧
      d.view s.otherSlot = s.disk.view s.otherSlot ∧
      d.dev.blockCount = s.disk.dev.blockCount := by
  have hlt := hv.nextSlot_lt
  have hpos : superblockBlock < s.nextSlot := by
    rcases hv.slots_eq with ⟨h, -⟩ | ⟨h, -⟩ <;> rw [h] <;> decide
  refine ⟨fun b hb => hstep.view b fun hw => ?_, hstep.view _ fun hw => ?_, hstep.view _ hother,
    hstep.blockCount⟩
  · have := hW b hw
    omega
  · have := hW _ hw
    omega

end

theorem slotFor_succ (slots : Nat × Nat) (n : Nat) :
    Log.slotFor slots (n + 1) = if n % 2 = 0 then slots.2 else slots.1 := by
  unfold Log.slotFor
  by_cases h : n % 2 = 0
  · rw [if_neg (by omega), if_pos h]
  · rw [if_pos (by omega), if_neg h]

/-- `sync` keeps the invariant, whether it succeeds or fails, as long as the
number of the checkpoint after this one fits. -/
theorem Valid.sync_spec (hv : Valid s) :
    wp sync (fun _ s' => s.checkpointSequence + 1 < u64Size → Valid s')
      (fun _ s' => Valid s') s := by
  have hstill : ∀ {d}, Disk.Still s.disk d → Valid { s with disk := d } := by
    intro d hd
    have hq := quiet_of_still hv.good.log hd
    have hn : Numbered False s { s with disk := d } :=
      .inl ⟨rfl, fun id hid => by rw [hq.meaning hv.good] at hid; exact hid⟩
    exact hv.of_done hq.toStep.done (hq.good hv.good) hn
  have hin : ∀ b, InPayload s.nextSlot b ∨ b = s.nextSlot →
      s.nextSlot ≤ b ∧ b < s.nextSlot + checkpointSlotBlocks := by
    intro b hb
    unfold InPayload at hb
    simp only [checkpointSlotBlocks] at *
    omega
  have hout : ¬(InPayload s.nextSlot s.otherSlot ∨ s.otherSlot = s.nextSlot) :=
    not_or.mpr ⟨hv.not_inPayload.2.1, hv.otherSlot_ne⟩
  -- what a failed `sync` leaves, with the old header or the new one
  have hfail : ∀ {d}, s.writer ≠ none → Disk.Step (fun b => InPayload s.nextSlot b ∨ b = s.nextSlot)
      s.disk d → (d.view s.nextSlot = s.disk.view s.nextSlot ∨
        ∃ w, d.view s.nextSlot = (s.nextHeader w).toBlock) → Valid { s with disk := d } := by
    intro d hw hstep hslot
    obtain ⟨hdata, hsb, hother, hcount⟩ := hv.slot_step hstep hin hout
    refine hv.of_tables hstep.coherent hcount hdata hsb hv.sequence ⟨?_, ?_⟩ hw
    · intro h hp
      show h.sequence ≤ s.checkpointSequence
      change parse (d.view s.nextSlot) d.dev.blockCount = .ok h at hp
      rcases hslot with hold | ⟨w, hnew⟩
      · rw [hold, hcount] at hp
        exact hv.slots.next h hp
      · rw [hnew] at hp
        rw [hv.parse_nextHeader hp]
        exact le_refl _
    · intro h hp
      change parse (d.view s.otherSlot) d.dev.blockCount = .ok h at hp
      rw [hother, hcount] at hp
      exact hv.slots.other h hp
  refine wp_conseq (Lfs.sync_spec hv.ready) ?_ ?_
  · intro _ s' hpost hguard
    rcases hpost with ⟨-, d', rfl, hd', -⟩ | ⟨w, d₁, d', hw, h₁, h₂, -, hview, rfl⟩
    · exact hstill hd'
    obtain ⟨hdata, hsb, hother, hcount⟩ := hv.slot_step (h₂.step_slot h₁) hin hout
    rw [Nat.mod_eq_of_lt hguard]
    refine hv.of_tables (h₂.step_slot h₁).coherent hcount hdata hsb hguard ⟨?_, ?_⟩
      (by rw [hw]; nofun)
    -- the slots have changed roles
    · intro h hp
      have hslot : nextSlot { s with disk := d', checkpointSequence := s.checkpointSequence + 1 } =
          s.otherSlot := slotFor_succ _ _
      rw [hslot] at hp
      rw [hother, hcount] at hp
      have := hv.slots.other h hp
      show h.sequence ≤ s.checkpointSequence + 1
      omega
    · intro h hp
      have hslot : otherSlot { s with disk := d', checkpointSequence := s.checkpointSequence + 1 } =
          s.nextSlot := by
        unfold otherSlot nextSlot Log.slotFor
        by_cases hpar : s.checkpointSequence % 2 = 0
        · rw [if_neg (show ¬(s.checkpointSequence + 1) % 2 = 0 by omega), if_pos hpar]
        · rw [if_pos (show (s.checkpointSequence + 1) % 2 = 0 by omega), if_neg hpar]
      rw [hslot] at hp
      rw [hview] at hp
      rw [hv.parse_nextHeader hp]
      exact Nat.lt_succ_self _
  · intro _ s' hpost
    obtain ⟨d', rfl, hd' | ⟨hw, hstep⟩ | ⟨w, d₁, hw, h₁, h₂⟩⟩ := hpost
    · exact hstill hd'
    · exact hfail hw (hstep.mono fun _ hb => .inl hb) (.inl (hstep.view _ hv.not_inPayload.1))
    · refine hfail (by rw [hw]; nofun) (h₂.step_slot h₁) ?_
      rcases h₂.view with hold | hnew
      · rw [h₁.step.view _ hv.not_inPayload.1] at hold
        exact .inl hold
      · exact .inr ⟨w, hnew⟩

end Lfs

end Thumos
