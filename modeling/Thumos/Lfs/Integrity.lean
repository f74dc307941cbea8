import Thumos.Lfs.Runs

/-!
# Integrity of the allocation

No block is referred to twice, every block that is referred to lies in a
segment that is marked used, and the write head is past all of them.  This is
read off the invariant of a run.  It needs that the inode counter does not wrap
and that the device has a data segment at all.
-/

namespace Thumos

open StateExcept

namespace Lfs

variable {s s' : Lfs}

/-- The block that the next append of the log goes to: the write head, or the
first data block of the segment that is allocated next. -/
def nextAppend (c : Core) : Option Nat :=
  let fresh := c.segments.allocateAny.map fun p => c.segments.segmentStartBlock p.1 + 1
  match c.writer with
  | none => fresh
  | some w =>
    if w.writePosition < c.segments.segmentSize then
      some (c.segments.segmentStartBlock w.currentSegment + w.writePosition)
    else fresh

/-- Every block that an inode of the map refers to is allocated, to it alone. -/
structure Integrity (s : Lfs) : Prop where
  /-- It lies in a data segment. -/
  data : ∀ {id k x}, refAt s.core id k = some x → s.segments.segmentSize ≤ x
  /-- That segment is marked used. -/
  used : ∀ {id k x}, refAt s.core id k = some x →
    s.segments.bitmap[x / s.segments.segmentSize]? = some true
  /-- It is not the segment's header. -/
  offset : ∀ {id k x}, refAt s.core id k = some x → 1 ≤ x % s.segments.segmentSize
  unique : ∀ {id k id' k' x}, refAt s.core id k = some x → refAt s.core id' k' = some x →
    id = id' ∧ k = k'
  head : ∀ {id k x}, refAt s.core id k = some x → nextAppend s.core ≠ some x
  nextInode : ∀ id b : Nat, s.imap[id]? = some b → id < s.nextInode

structure Counted (s : Lfs) : Prop extends Valid s where
  counter : ∀ id b : Nat, s.imap[id]? = some b → id < s.nextInode

structure Allocated (s : Lfs) : Prop extends Counted s where
  segments : 2 ≤ s.segments.segmentCount

theorem Allocated.integrity (h : Allocated s) : Integrity s := by
  have hused : ∀ {id k x}, refAt s.core id k = some x →
      s.segments.bitmap[x / s.segments.segmentSize]? = some true := by
    intro id k x hx
    have hprot := h.good.refs hx
    have hlt : x / s.segments.segmentSize < s.segments.bitmap.length := by
      rw [s.segments.length_eq]
      exact Nat.div_lt_of_lt_mul (Nat.mul_comm _ _ ▸ hprot.range h.segments)
    have hin : s.segments.bitmap[x / s.segments.segmentSize]? ≠ some false := hprot.inUse
    rw [List.getElem?_eq_getElem hlt] at hin ⊢
    cases hbit : s.segments.bitmap[x / s.segments.segmentSize] with
    | true => rfl
    | false =>
      rw [hbit] at hin
      contradiction
  refine ⟨fun hx => (h.good.refs hx).data, hused, fun hx => (h.good.refs hx).offset, h.good.inj,
    ?_, h.counter⟩
  have hsize := h.good.log.segSize
  rw [core_segments] at hsize
  -- a segment that is still to be allocated is free, so nothing in it is referred to
  have hfresh : ∀ {id k x}, refAt s.core id k = some x →
      (s.segments.allocateAny.map fun p => s.segments.segmentStartBlock p.1 + 1) ≠ some x := by
    intro id k x hx hnext
    obtain ⟨⟨g, m⟩, halloc, rfl⟩ := Option.map_eq_some_iff.mp hnext
    have hfree := (LfsSegmentManager.allocateAny_eq_some halloc).1
    have hbit := hused hx
    have hdiv : (s.segments.segmentStartBlock g + 1) / s.segments.segmentSize = g := by
      rw [LfsSegmentManager.segmentStartBlock, Nat.add_comm, Nat.add_mul_div_right _ _ (by omega),
        Nat.div_eq_of_lt (by omega), Nat.zero_add]
    simp only [hdiv] at hbit
    rw [hfree] at hbit
    contradiction
  intro id k x hx hnext
  unfold nextAppend at hnext
  cases hw : s.writer with
  | none =>
    simp only [core_writer, hw] at hnext
    exact hfresh hx hnext
  | some w =>
    simp only [core_writer, hw] at hnext
    split at hnext
    · rename_i hroom
      cases hnext
      -- the write head is past everything that its segment refers to
      have hat := Log.atHead (s := ⟨s.toVolume, w⟩) hroom
      have hhead := (h.good.refs hx).head w (by rw [core_writer, hw]) hat.seg.symm
      have hoff := hat.off
      simp only [core_segments] at hhead
      exact absurd hhead (by rw [hoff]; exact lt_irrefl _)
    · exact hfresh hx hnext

/-! ## Over whole runs -/

/-- The counters of the filesystem do not wrap in this step. -/
def CountersFit (s : Lfs) : Event → Prop
  | .call (.create _ _ _) => s.nextInode + 1 < u32Size
  | .call _ => True
  | .sync | .remount => s.checkpointSequence + 1 < u64Size

theorem CountersFit.sequenceFits {e : Event} (h : CountersFit s e) : SequenceFits s e := by
  cases e with
  | call c => trivial
  | sync => exact h
  | remount => exact h

theorem counter_of_numbered {creating : Prop} (hn : Numbered creating s s')
    (hfit : creating → s.nextInode + 1 < u32Size)
    (h : ∀ id b : Nat, s.imap[id]? = some b → id < s.nextInode) :
    ∀ id b : Nat, s'.imap[id]? = some b → id < s'.nextInode := by
  have hold : ∀ id, meaning s.core id ≠ none → id < s.nextInode := by
    intro id hid
    rw [ne_eq, meaning_eq_none, ← ne_eq, Option.ne_none_iff_exists'] at hid
    obtain ⟨b, hb⟩ := hid
    exact h id b hb
  intro id b hb
  have hid : meaning s'.core id ≠ none := by
    rw [ne_eq, meaning_eq_none]
    exact fun hnone => absurd (hb.symm.trans hnone) (by simp)
  rcases hn with ⟨heq, hdom⟩ | ⟨hcreate, heq, hdom⟩
  · rw [heq]
    exact hold id (hdom id hid)
  rw [heq, Nat.mod_eq_of_lt (hfit hcreate)]
  rcases hdom id hid with hmem | rfl
  · have := hold id hmem
    omega
  · omega

theorem Next.counted (h : Next CountersFit s s') (ha : Counted s) : Counted s' := by
  refine ⟨h.valid (fun _ _ hg => hg.sequenceFits) ha.toValid, ?_⟩
  cases h with
  | call c hg =>
    refine counter_of_numbered (ha.toValid.after_call c).2.2 ?_ ha.counter
    rintro ⟨dir, name, ty, rfl⟩
    exact hg
  | sync _ =>
    have hsync := after_of_wp (sync_synced ha.toValid)
    rw [hsync.imap, hsync.nextInode]
    exact ha.counter
  | remount hg hsync hm =>
    have hres := (ha.toValid.remount hsync hg hm).2
    have hsynced := wp_ok (sync_synced ha.toValid) hsync
    intro id b hb
    rw [hres.imap, hsynced.imap] at hb
    rw [hres.nextInode, hsynced.nextInode]
    exact ha.counter id b hb

theorem Next.allocated (h : Next CountersFit s s') (ha : Allocated s) : Allocated s' := by
  refine ⟨h.counted ha.toCounted, ?_⟩
  cases h with
  | call c _ =>
    have hcount : (after c.run s).segments.segmentCount = s.segments.segmentCount :=
      (ha.toValid.after_call c).2.1.log.segmentCount
    rw [hcount]
    exact ha.segments
  | sync _ =>
    rw [(after_of_wp (sync_synced ha.toValid)).segments]
    exact ha.segments
  | remount hg hsync hm =>
    have hres := (ha.toValid.remount hsync hg hm).2
    rw [hres.segments, (wp_ok (sync_synced ha.toValid) hsync).segments]
    exact ha.segments

theorem Initial.counted (h : Initial s) : Counted s := by
  refine ⟨h.valid, fun id b hb => ?_⟩
  rw [h.imap, formatImap_getElem?] at hb
  rw [h.nextInode]
  split at hb
  · rename_i hid
    omega
  · contradiction

theorem Initial.allocated (h : Initial s)
    (hsegs : 2 ≤ s.disk.dev.blockCount / defaultSegmentSize % u32Size) : Allocated s := by
  refine ⟨h.counted, ?_⟩
  rw [h.segments, formatSegments_count]
  exact hsegs

theorem Reachable.counted {dev : Device} (hstale : NoStaleSlot dev)
    (h : Reachable CountersFit dev s) : Counted s := by
  obtain ⟨s₀, hstart, hrun⟩ := h
  induction hrun with
  | refl => exact (hstart.initial hstale).1.counted
  | tail _ hstep ih => exact hstep.counted ih

end Lfs

def staleDevice : Device :=
  deviceWithSlotB 5 2 (formatImap.insert 1 rootInodeBlock) fun _ => Block.zero

/-- A pass of the compactor on a state of a run leaves every inode with its
type, size, link count and content, and refers to nothing in a segment that it
has freed. -/
theorem compaction_preserves_meaning {dev : Device} {s : Lfs} {w : LfsWriter} {copied : Nat}
    {t : Log} (hstale : NoStaleSlot dev) (h : Lfs.Reachable Lfs.SequenceFits dev s)
    (hw : s.writer = some w)
    (hrun : Log.compactOneSegment s.superblock.blockCount ⟨s.toVolume, w⟩ = .ok copied t) :
    meaning t.core = meaning s.core ∧
      ∀ g, s.segments.bitmap[g]? = some true → t.segments.bitmap[g]? = some false →
        ∀ id k x, refAt t.core id k = some x → x / t.segments.segmentSize ≠ g := by
  have hv := h.valid (fun _ _ hg => hg) hstale
  have hinv : Inv s.superblock.blockCount (Log.mk s.toVolume w).core :=
    Lfs.core_of_writer hw ▸ hv.good
  have hpass := wp_ok (Log.compactOneSegment_spec hinv) hrun
  refine ⟨?_, ?_⟩
  · rw [hpass.meaning, Lfs.core_of_writer hw]
  · intro g _ hfree id k x hx hseg
    have hin : t.segments.bitmap[x / t.segments.segmentSize]? ≠ some false :=
      (hpass.inv.refs hx).inUse
    rw [hseg] at hin
    exact hin hfree

/-- A file is created on a blank device, and the segment of the old root is
compacted. -/
theorem compaction_preserves_meaning_blank :
    ∃ s₀ s w copied t, Start blankDevice s₀ ∧
      s = after (Call.run (.create 0 [120] .regularFile)) s₀ ∧ s.writer = some w ∧
      Log.compactOneSegment s.superblock.blockCount ⟨s.toVolume, w⟩ = .ok copied t ∧
      s.segments.bitmap[1]? = some true ∧ t.segments.bitmap[1]? = some false ∧
      meaning t.core = meaning s.core ∧
      ∀ id k x, refAt t.core id k = some x → x / t.segments.segmentSize ≠ 1 := by
  let p : Lfs → Bool := fun s₀ =>
    let s := after (Call.run (.create 0 [120] .regularFile)) s₀
    match s.writer with
    | none => false
    | some w =>
      match Log.compactOneSegment s.superblock.blockCount ⟨s.toVolume, w⟩ with
      | .ok _ t => s.segments.bitmap[1]? == some true && t.segments.bitmap[1]? == some false
      | .error _ _ => false
  obtain ⟨s₀, hstart, hp⟩ := exists_start blankDevice p (fun _ => rfl)
    (by decide +kernel) (by decide +kernel)
  simp only [p] at hp
  split at hp
  · cases hp
  rename_i w hw
  split at hp
  · rename_i copied t hrun
    obtain ⟨hused, hfree⟩ := Bool.and_eq_true_iff.mp hp
    have hpass := compaction_preserves_meaning blankDevice_noStaleSlot
      ⟨s₀, hstart, .single (.call (.create 0 [120] .regularFile) trivial)⟩ hw hrun
    exact ⟨s₀, _, w, copied, t, hstart, rfl, hw, hrun, beq_iff_eq.mp hused, beq_iff_eq.mp hfree,
      hpass.1, hpass.2 1 (beq_iff_eq.mp hused) (beq_iff_eq.mp hfree)⟩
  · cases hp

def strayInode : DiskInode :=
  { DiskInode.new inodeTypeFile with
    size := 4 * blockSize
    direct := [259, 260, 261, 520] ++ List.replicate 8 0
    direct_length := rfl }

def strayDevice : Device :=
  deviceWithSlotB 5 2 (formatImap.insert 1 258) fun b =>
    if b = 258 then strayInode.writeTo else Block.zero

def contentByte (c : Core) (id k i : Nat) : Option UInt8 :=
  ((meaning c id).bind fun m => m.blocks k).map fun b => b.byte i

/-- The pass copies the blocks of segment 1 to segment 2, over block 520. -/
theorem compaction_overwrites_stray_block :
    ∃ s₀ s w copied t, Start strayDevice s₀ ∧
      s = after (Call.run (.truncate 1 (4 * blockSize))) s₀ ∧ s.writer = some w ∧
      Log.compactOneSegment s.superblock.blockCount ⟨s.toVolume, w⟩ = .ok copied t ∧
      meaning t.core 1 ≠ meaning s.core 1 := by
  let p : Lfs → Bool := fun s₀ =>
    let s := after (Call.run (.truncate 1 (4 * blockSize))) s₀
    match s.writer with
    | none => false
    | some w =>
      match Log.compactOneSegment s.superblock.blockCount ⟨s.toVolume, w⟩ with
      | .ok _ t => contentByte t.core 1 3 0 != contentByte s.core 1 3 0
      | .error _ _ => false
  obtain ⟨s₀, hstart, hp⟩ := exists_start strayDevice p (fun _ => rfl)
    (by decide +kernel) (by decide +kernel)
  simp only [p] at hp
  split at hp
  · cases hp
  rename_i w hw
  split at hp
  · rename_i copied t hrun
    refine ⟨s₀, _, w, copied, t, hstart, rfl, hw, hrun, fun heq => ?_⟩
    unfold contentByte at hp
    rw [heq] at hp
    simp at hp
  · cases hp

end Thumos
