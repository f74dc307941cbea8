import Thumos.Lfs.Invariant

/-!
# Rules for the methods of the filesystem

The methods of `Lfs` are specified with two relations between the state before
and the state after.  `Lfs.Step` says that the log has only been appended to
and that the fields which only `sync` changes are as before.  `Lfs.Quiet` says
that, besides, nothing was committed: the inode map and the inode counter are
as before, so the state means the same.  Reads, failed calls and the appends
before a commit are quiet.
-/

namespace Thumos

open StateExcept

namespace Lfs

/-- `s'` has no writer yet, and nothing has been written since `s`. -/
structure Idle (s s' : Lfs) : Prop where
  writer : s.writer = none
  imap : s'.imap = s.imap
  segments : s'.segments = s.segments
  nextInode : s'.nextInode = s.nextInode
  disk : Disk.Still s.disk s'.disk

theorem Idle.trans {s s' s'' : Lfs} (h : Idle s s') (h' : Idle s' s'') : Idle s s'' :=
  ⟨h.writer, h'.imap.trans h.imap, h'.segments.trans h.segments,
    h'.nextInode.trans h.nextInode, Disk.Step.trans h.disk h'.disk⟩

structure Step (s s' : Lfs) : Prop where
  log : LogStep s.superblock.blockCount s.core s'.core
  superblock : s'.superblock = s.superblock
  nextSequence : s'.nextSequence = s.nextSequence
  checkpointSequence : s'.checkpointSequence = s.checkpointSequence
  /-- Every write is made by the writer, which stays once it is there. -/
  idle : s'.writer = none → Idle s s'

structure Quiet (s s' : Lfs) : Prop extends Step s s' where
  imap : s'.imap = s.imap
  nextInode : s'.nextInode = s.nextInode

abbrev Good (s : Lfs) : Prop := Inv s.superblock.blockCount s.core

namespace Step

variable {s s' s'' : Lfs}

theorem trans (h : Step s s') (h' : Step s' s'') : Step s s'' where
  log := h.log.trans (h.superblock ▸ h'.log)
  superblock := h'.superblock.trans h.superblock
  nextSequence := h'.nextSequence.trans h.nextSequence
  checkpointSequence := h'.checkpointSequence.trans h.checkpointSequence
  idle hw := (h.idle (h'.idle hw).writer).trans (h'.idle hw)

theorem writer_ne_none (h : Step s s') (hw : s.writer ≠ none) : s'.writer ≠ none :=
  fun hw' => hw (h.idle hw').writer

theorem logOk (h : Step s s') : LogOk s'.superblock.blockCount s'.core :=
  h.superblock ▸ h.log.ok

end Step

namespace Quiet

variable {s s' s'' : Lfs}

theorem refl (h : LogOk s.superblock.blockCount s.core) : Quiet s s :=
  ⟨⟨LogStep.refl h, rfl, rfl, rfl,
    fun hw => ⟨hw, rfl, rfl, rfl, Disk.Still.refl h.coherent⟩⟩, rfl, rfl⟩

theorem trans (h : Quiet s s') (h' : Quiet s' s'') : Quiet s s'' :=
  ⟨h.toStep.trans h'.toStep, h'.imap.trans h.imap, h'.nextInode.trans h.nextInode⟩

section

variable (h : Quiet s s') (hs : s.Good)

include h hs

theorem good : s'.Good := by
  unfold Good
  rw [h.superblock]
  exact (hs.of_step h.log h.imap).1

theorem meaning : Thumos.meaning s'.core = Thumos.meaning s.core :=
  (hs.of_step h.log h.imap).2

theorem inodeOf (id : Nat) :
    Thumos.inodeOf s'.core id = Thumos.inodeOf s.core id := by
  refine inodeOf_of_step hs h.log ?_
  show s'.imap[id]? = s.imap[id]?
  rw [h.imap]

theorem ptrsOk {id : Nat} {n : DiskInode} (hp : PtrsOk s.superblock.blockCount s.core id n) :
    PtrsOk s'.superblock.blockCount s'.core id n := by
  rw [h.superblock]
  exact hp.of_step hs h.log h.imap

end

end Quiet

/-! ## The rules -/

@[simp] theorem wp_onDisk {α : Type} (m : Disk.M α) (Q : α → Lfs → Prop)
    (E : VfsError → Lfs → Prop) (s : Lfs) :
    wp (onDisk m) Q E s ↔
      wp m (fun a d => Q a { s with disk := d }) (fun _ d => E .ioError { s with disk := d })
        s.disk := by
  simp only [onDisk, wp_zoom, wp_adaptExcept]

theorem wp_withLog {α : Type} (f : LfsError → VfsError) (m : Log.M α) (Q : α → Lfs → Prop)
    (E : VfsError → Lfs → Prop) (s : Lfs) :
    wp (withLog f m) Q E s ↔ (s.writer = none → E .ioError s) ∧
      ∀ w, s.writer = some w →
        wp m (fun a t => Q a (s.putLog t)) (fun e t => E (f e) (s.putLog t)) ⟨s.toVolume, w⟩ := by
  unfold wp withLog
  cases hw : s.writer with
  | none => simp
  | some w =>
    simp only [reduceCtorEq, false_implies, Option.some.injEq, true_and, forall_eq']
    cases m ⟨s.toVolume, w⟩ <;> rfl

variable {s : Lfs}

theorem core_of_writer {w : LfsWriter} (hw : s.writer = some w) :
    (Log.mk s.toVolume w).core = s.core := by
  simp [Log.core, Lfs.core, hw]

/-! ## Reading blocks -/

theorem quiet_of_still {d : Disk} (h : LogOk s.superblock.blockCount s.core)
    (hd : Disk.Still s.disk d) : Quiet s { s with disk := d } :=
  ⟨⟨LogStep.of_disk h hd fun _ hf => hf.elim, rfl, rfl, rfl,
    fun hw => ⟨hw, rfl, rfl, rfl, hd⟩⟩, rfl, rfl⟩

section

variable {s : Lfs} (h : LogOk s.superblock.blockCount s.core)

include h

theorem readBlock_spec (b : Nat) :
    wp (readBlock b) (fun x s' => x = s.disk.view b ∧ Quiet s s') (fun _ s' => Quiet s s') s := by
  simp only [readBlock, validateBlockNum, wp_bind, wp_get, wp_failIf, wp_onDisk]
  refine ⟨fun _ => Quiet.refl h, fun hvalid => ?_⟩
  have hlt : b < s.superblock.blockCount := by
    by_contra hge
    exact hvalid (.inr (by omega))
  refine wp_conseq (Disk.read_step h.coherent (h.lt_limit hlt)) ?_ ?_
  · intro x d hd
    exact ⟨hd.1, quiet_of_still h hd.2⟩
  · intro _ d hd
    exact quiet_of_still h hd

theorem loadInode_spec (id : Nat) :
    wp (loadInode id)
      (fun n s' => inodeOf s.core id = some n ∧ Quiet s s') (fun _ s' => Quiet s s') s := by
  simp only [loadInode, wp_bind, wp_get, wp_okOr, wp_map]
  refine ⟨?_, fun _ => Quiet.refl h⟩
  intro b hb
  refine wp_conseq (readBlock_spec h b) ?_ fun _ _ hq => hq
  intro x s' hpost
  obtain ⟨rfl, hq⟩ := hpost
  refine ⟨?_, hq⟩
  show s.imap[id]?.map _ = _
  rw [hb]
  rfl

/-! ## Writing blocks -/

theorem ensureWriter_spec :
    wp ensureWriter (fun _ s' => Quiet s s' ∧ s'.writer ≠ none) (fun _ s' => Quiet s s') s := by
  simp only [ensureWriter, wp_bind, wp_get]
  cases hw : s.writer with
  | some w => exact ⟨Quiet.refl h, by rw [hw]; simp⟩
  | none =>
    simp only [LfsWriter.withSequence]
    cases halloc : s.segments.allocate with
    | none => exact Quiet.refl h
    | some p =>
      obtain ⟨g, m⟩ := p
      refine ⟨⟨⟨?_, rfl, rfl, rfl, by rintro ⟨⟩⟩, rfl, rfl⟩, by rintro ⟨⟩⟩
      exact Log.logStep_newSegment h (LfsSegmentManager.allocate_eq_some halloc).2
        (Disk.Still.refl h.coherent) fun _ hf => hf.elim

end

theorem Good.not_ref_of_loose (hs : s.Good) {b : Nat} (hb : Loose s.superblock.blockCount s.core b)
    (id : Nat) (k : Slot) :
    refAt s.core id k ≠ some b :=
  fun hx => hb.free (hs.refs hx)

theorem writeDataBlock_spec (h : LogOk s.superblock.blockCount s.core) (data : Block) :
    wp (writeDataBlock data) (fun b s' => Quiet s s' ∧ Loose s.superblock.blockCount s.core b ∧
        Protected s'.superblock.blockCount s'.core b ∧ s'.disk.view b = data)
      (fun _ s' => Quiet s s') s := by
  unfold writeDataBlock Log.writeDataBlock
  rw [wp_withLog]
  refine ⟨fun _ => Quiet.refl h, ?_⟩
  intro w hw
  have hlog : LogOk s.superblock.blockCount (Log.mk s.toVolume w).core := core_of_writer hw ▸ h
  refine wp_conseq (Log.append_spec hlog false data) ?_ ?_
  · intro b t hpost
    obtain ⟨hstep, himap, hloose, hprot, hview⟩ := hpost
    rw [core_of_writer hw] at hstep hloose
    exact ⟨⟨⟨hstep, rfl, rfl, rfl, nofun⟩, himap, rfl⟩, hloose, hprot, hview⟩
  · intro _ t hpost
    obtain ⟨hstep, himap⟩ := hpost
    rw [core_of_writer hw] at hstep
    exact ⟨⟨hstep, rfl, rfl, rfl, nofun⟩, himap, rfl⟩

/-- `s'` is `s` after the inode `n` has been appended as block `b` and entered
into the map for `id`. -/
structure Entered (id : Nat) (n : DiskInode) (b : Nat) (s s' : Lfs) : Prop extends Step s s' where
  imap : s'.imap = s.imap.insert id b
  loose : Loose s.superblock.blockCount s.core b
  prot : Protected s.superblock.blockCount s'.core b
  view : s'.disk.view b = n.writeTo
  nextInode : s'.nextInode = s.nextInode
  writer : s'.writer ≠ none

theorem writeInode_spec (h : LogOk s.superblock.blockCount s.core) (id : Nat) (n : DiskInode) :
    wp (writeInode id n) (fun _ s' => ∃ b, Entered id n b s s') (fun _ s' => Quiet s s') s := by
  unfold writeInode
  rw [wp_bind, wp_withLog]
  refine ⟨fun _ => Quiet.refl h, ?_⟩
  intro w hw
  have hlog : LogOk s.superblock.blockCount (Log.mk s.toVolume w).core := core_of_writer hw ▸ h
  refine wp_conseq (Log.writeInode_spec hlog false id n) ?_ ?_
  · intro b t hpost
    obtain ⟨hstep, himap, hloose, hprot, hview⟩ := hpost
    rw [core_of_writer hw] at hstep hloose
    exact ⟨b, ⟨hstep, rfl, rfl, rfl, nofun⟩, himap, hloose, hprot, hview, rfl, nofun⟩
  · intro _ t hpost
    obtain ⟨hstep, himap⟩ := hpost
    rw [core_of_writer hw] at hstep
    exact ⟨⟨hstep, rfl, rfl, rfl, nofun⟩, himap, rfl⟩

namespace Entered

variable {s s' : Lfs} {id b : Nat} {n : DiskInode}

theorem commit (h : Entered id n b s s') (hs : s.Good) (hshape : n.Shape)
    (hptr : PtrsOk s.superblock.blockCount s.core id n) :
    s'.Good ∧ meaning s'.core = Function.update (meaning s.core) id (some (nodeOf s.disk n)) := by
  have hc := hs.commit h.log h.imap h.loose h.prot h.view hshape hptr
  refine ⟨?_, hc.2⟩
  unfold Good
  rw [h.superblock]
  exact hc.1

theorem inodeOf (h : Entered id n b s s') (hn : n.InRange) : inodeOf s'.core id = some n := by
  have hget : s'.imap[id]? = some b := by
    rw [h.imap, imap_getElem?_insert, if_pos rfl]
  show s'.imap[id]?.map _ = _
  rw [hget, Option.map_some]
  show some (DiskInode.readFrom (s'.disk.view b)) = some n
  rw [h.view, DiskInode.readFrom_writeTo hn]

end Entered

end Lfs

end Thumos
