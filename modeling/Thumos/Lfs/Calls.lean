import Thumos.Lfs.Compaction

/-!
# Whole calls

Every call of the interface, with the compaction at its end.  `Lfs.Done` is
the guarantee of a whole call, whether it succeeds or fails.  `Call.Effect`
is what a call that takes effect does to the meaning.

A call that ends with a compaction takes effect when its body succeeds; if
the compaction then fails, the call reports an error all the same.
-/

namespace Thumos

open StateExcept

namespace Lfs

structure Done (s s' : Lfs) : Prop where
  log : LogDone s.superblock.blockCount s.core s'.core
  superblock : s'.superblock = s.superblock
  nextSequence : s'.nextSequence = s.nextSequence
  checkpointSequence : s'.checkpointSequence = s.checkpointSequence
  idle : s'.writer = none → Idle s s'

variable {s s' s'' : Lfs}

theorem Step.done (h : Step s s') : Done s s' :=
  ⟨h.log.done, h.superblock, h.nextSequence, h.checkpointSequence, h.idle⟩

theorem Step.trans_done (h : Step s s') (h' : Done s' s'') : Done s s'' where
  log := h.log.trans_done (h.superblock ▸ h'.log)
  superblock := h'.superblock.trans h.superblock
  nextSequence := h'.nextSequence.trans h.nextSequence
  checkpointSequence := h'.checkpointSequence.trans h.checkpointSequence
  idle hw := (h.idle (h'.idle hw).writer).trans (h'.idle hw)

/-- `s'` is a later state of the same files: the calls in between have had no
effect that a client could see. -/
structure Unchanged (s s' : Lfs) : Prop extends Done s s' where
  good : s'.Good
  meaning : Thumos.meaning s'.core = Thumos.meaning s.core
  nextInode : s'.nextInode = s.nextInode

theorem Quiet.unchanged (h : Quiet s s') (hs : s.Good) : Unchanged s s' :=
  ⟨h.toStep.done, h.good hs, h.meaning hs, h.nextInode⟩

/-- A pass of the compactor, as `maybe_compact` runs it. -/
def compact : M Unit := do
  let s ← get
  let _ ← withLog (fun _ => .ioError) (Log.compactOneSegment s.superblock.blockCount)
  pure ()

theorem compactPass_spec (hs : s.Good) :
    wp (withLog (fun _ => .ioError) (Log.compactOneSegment s.superblock.blockCount))
      (fun _ s' => Unchanged s s') (fun _ s' => Unchanged s s') s := by
  rw [wp_withLog]
  refine ⟨fun _ => (Quiet.refl hs.log).unchanged hs, ?_⟩
  intro w hw
  have hinv : Inv s.superblock.blockCount (Log.mk s.toVolume w).core := core_of_writer hw ▸ hs
  have hend : ∀ t, Log.Compacted s.superblock.blockCount ⟨s.toVolume, w⟩ t →
      Unchanged s (s.putLog t) := by
    intro t ht
    have hdone := ht.done
    have hmean := ht.meaning
    rw [core_of_writer hw] at hdone hmean
    exact ⟨⟨hdone, rfl, rfl, rfl, nofun⟩, ht.inv, hmean, rfl⟩
  exact wp_conseq (Log.compactOneSegment_spec hinv) (fun _ t h => hend t h) fun _ t h => hend t h

theorem compact_spec (hs : s.Good) :
    wp compact (fun _ s' => Unchanged s s') (fun _ s' => Unchanged s s') s := by
  simp only [compact, wp_bind, wp_get, wp_pure]
  exact compactPass_spec hs

theorem maybeCompact_spec (hs : s.Good) :
    wp maybeCompact (fun _ s' => Unchanged s s') (fun _ s' => Unchanged s s') s := by
  simp only [maybeCompact, wp_bind, wp_get, wp_ite, wp_pure]
  exact ⟨fun _ => compactPass_spec hs, fun _ => (Quiet.refl hs.log).unchanged hs⟩

end Lfs

/-! ## Calls -/

inductive Call where
  | observe (o : Observation)
  | create (dirInode : Nat) (name : List UInt8) (inodeType : InodeType)
  | write (inodeId offset : Nat) (buf : List UInt8)
  | truncate (inodeId size : Nat)
  | unlink (dirInode : Nat) (name : List UInt8)
  | compact

namespace Call

def run : Call → Lfs.M Unit
  | observe o => (fun _ => ()) <$> o.run
  | create dir name ty => (fun _ => ()) <$> Lfs.create dir name ty
  | write id offset buf => (fun _ => ()) <$> Lfs.write id offset buf
  | truncate id size => Lfs.truncate id size
  | unlink dir name => Lfs.unlink dir name
  | compact => Lfs.compact

def body : Call → Lfs.M Unit
  | observe o => (fun _ => ()) <$> o.run
  | create dir name ty => (fun _ => ()) <$> Lfs.createBody dir name ty
  | write id offset buf => Lfs.writeBody id offset buf
  | truncate id size => Lfs.truncate id size
  | unlink dir name => Lfs.unlinkBody dir name
  | compact => Lfs.compact

def trailer : Call → Lfs.M Unit
  | create _ _ _ => Lfs.maybeCompact
  | write _ _ buf => if buf.isEmpty then pure () else Lfs.maybeCompact
  | unlink _ _ => Lfs.maybeCompact
  | _ => pure ()

theorem run_eq (c : Call) : c.run = (do c.body; c.trailer) := by
  cases c with
  | create dir name ty =>
    simp only [run, body, trailer, Lfs.create, map_bind, bind_map_left, map_pure, bind_pure_unit]
  | write id offset buf =>
    simp only [run, body, trailer, Lfs.write, map_bind, map_pure, bind_pure_unit]
  | observe o => simp only [run, body, trailer, bind_pure_unit]
  | truncate id size => simp only [run, body, trailer, bind_pure_unit]
  | unlink dir name => rfl
  | compact => simp only [run, body, trailer, bind_pure_unit]

/-- What a call that takes effect does to the meaning and the inode counter. -/
def Effect (c : Call) (s s' : Lfs) : Prop :=
  match c with
  | observe _ | compact => meaning s'.core = meaning s.core ∧ s'.nextInode = s.nextInode
  | write id offset buf => ∃ m, meaning s.core id = some m ∧ m.inodeType ≠ inodeTypeDir ∧
      s'.nextInode = s.nextInode ∧
      if buf = [] then meaning s'.core = meaning s.core
      else ∃ m', m.Written offset buf m' ∧
        meaning s'.core = Function.update (meaning s.core) id (some m')
  | truncate id size => ∃ m m', meaning s.core id = some m ∧ m.inodeType ≠ inodeTypeDir ∧
      m.Resized size m' ∧ s'.nextInode = s.nextInode ∧
      meaning s'.core = Function.update (meaning s.core) id (some m')
  | create dir name ty => ∃ m m' ns, meaning s.core dir = some m ∧ m.inodeType = inodeTypeDir ∧
      m.names = some ns ∧ (∀ p ∈ ns, p.1 ≠ name) ∧
      m.Relisted (ns ++ DiskDirEntry.readBack name s.nextInode) m' ∧
      s'.nextInode = (s.nextInode + 1) % u32Size ∧
      meaning s'.core = Function.update (Function.update (meaning s.core) s.nextInode
        (some (Node.empty (Lfs.diskType ty)))) dir (some m')
  | unlink dir name => ∃ m m' ns target, meaning s.core dir = some m ∧
      m.inodeType = inodeTypeDir ∧ m.names = some ns ∧
      (Observation.lookup dir name).answer (meaning s.core) = some (.inode target) ∧
      m.Relisted (ns.filter (·.1 != name)) m' ∧ s'.nextInode = s.nextInode ∧
      meaning s'.core =
        Function.update (Function.update (meaning s.core) dir (some m')) target none

/-- What a call whose body fails may have done: `create` can have used up an
inode number, and has taken that number out of the map again. -/
def Failure (c : Call) (s s' : Lfs) : Prop :=
  (meaning s'.core = meaning s.core ∧ s'.nextInode = s.nextInode) ∨
    ((∃ dir name ty, c = create dir name ty) ∧ s'.nextInode = (s.nextInode + 1) % u32Size ∧
      (meaning s'.core = meaning s.core ∨
        meaning s'.core = Function.update (meaning s.core) s.nextInode none))

variable {s s' : Lfs}

theorem Failure.of_quiet {c : Call} (h : Lfs.Quiet s s') (hs : s.Good) : c.Failure s s' :=
  .inl ⟨h.meaning hs, h.nextInode⟩

theorem body_spec (hs : s.Good) (hid : s.nextInode < u32Size) (c : Call) (hc : c ≠ compact) :
    wp c.body (fun _ s' => s.Step s' ∧ s'.Good ∧ c.Effect s s')
      (fun _ s' => s.Step s' ∧ s'.Good ∧ c.Failure s s') s := by
  have hquiet : ∀ {s' : Lfs}, s.Quiet s' → s.Step s' ∧ s'.Good ∧ c.Failure s s' :=
    fun h => ⟨h.toStep, h.good hs, .of_quiet h hs⟩
  cases c with
  | observe o =>
    rw [body, wp_map]
    refine wp_conseq (Lfs.observe_spec hs o) ?_ fun _ _ h => hquiet h
    intro _ s' hpost
    exact ⟨hpost.2.toStep, hpost.2.good hs, hpost.2.meaning hs, hpost.2.nextInode⟩
  | create dir name ty =>
    rw [body, wp_map]
    refine wp_conseq (Lfs.createBody_spec hs hid dir name ty) ?_ ?_
    · intro _ s' hpost
      obtain ⟨-, m, m', ns, hm, hdir, hns, hnew, hlist, hc⟩ := hpost
      exact ⟨hc.toStep, hc.good, m, m', ns, hm, hdir, hns, hnew, hlist, hc.nextInode, hc.meaning⟩
    · intro _ s' hpost
      rcases hpost with hq | ⟨m', hc, hm'⟩
      · exact hquiet hq
      · refine ⟨hc.toStep, hc.good, .inr ⟨⟨dir, name, ty, rfl⟩, hc.nextInode, ?_⟩⟩
        rw [hc.meaning]
        exact hm'
  | write id offset buf =>
    refine wp_conseq (Lfs.writeBody_spec hs id offset buf) ?_ fun _ _ h => hquiet h
    intro _ s' hpost
    obtain ⟨m, hm, hfile, ⟨hnil, hq⟩ | ⟨hne, m', hm', hc⟩⟩ := hpost
    · refine ⟨hq.toStep, hq.good hs, m, hm, hfile, hq.nextInode, ?_⟩
      rw [if_pos hnil]
      exact hq.meaning hs
    · refine ⟨hc.toStep, hc.good, m, hm, hfile, hc.nextInode, ?_⟩
      rw [if_neg hne]
      exact ⟨m', hm', hc.meaning⟩
  | truncate id size =>
    refine wp_conseq (Lfs.truncate_spec hs id size) ?_ fun _ _ h => hquiet h
    intro _ s' hpost
    obtain ⟨m, m', hm, hfile, hres, hc⟩ := hpost
    exact ⟨hc.toStep, hc.good, m, m', hm, hfile, hres, hc.nextInode, hc.meaning⟩
  | unlink dir name =>
    refine wp_conseq (Lfs.unlinkBody_spec hs dir name) ?_ fun _ _ h => hquiet h
    intro _ s' hpost
    obtain ⟨m, m', ns, target, hm, hdir, hns, hlookup, hlist, hc⟩ := hpost
    exact ⟨hc.toStep, hc.good, m, m', ns, target, hm, hdir, hns, hlookup, hlist, hc.nextInode,
      hc.meaning⟩
  | compact => exact absurd rfl hc

theorem Effect.congr {c : Call} {t : Lfs} (h : c.Effect s s')
    (hmean : meaning t.core = meaning s'.core) (hnext : t.nextInode = s'.nextInode) :
    c.Effect s t := by
  cases c <;> simp only [Effect] at h ⊢ <;> rw [hmean, hnext] <;> exact h

theorem trailer_spec (hs : s.Good) (c : Call) :
    wp c.trailer (fun _ s' => s.Unchanged s') (fun _ s' => s.Unchanged s') s := by
  have hnone := (Lfs.Quiet.refl hs.log).unchanged hs
  have hsome := Lfs.maybeCompact_spec hs
  cases c with
  | create dir name ty => exact hsome
  | unlink dir name => exact hsome
  | write id offset buf =>
    rw [trailer, wp_ite]
    exact ⟨fun _ => hnone, fun _ => hsome⟩
  | observe o => exact hnone
  | truncate id size => exact hnone
  | compact => exact hnone

/-- The compaction at the end of the call fails, after the body succeeded. -/
def TrailerFails (c : Call) (s : Lfs) : Prop :=
  ∃ s₁ e s₂, c.body s = .ok () s₁ ∧ c.trailer s₁ = .error e s₂

/-- A call that succeeds has its effect.  A call that fails has none, unless it
is the compaction at its end that failed. -/
theorem run_spec (hs : s.Good) (hid : s.nextInode < u32Size) (c : Call) :
    wp c.run (fun _ s' => s.Done s' ∧ s'.Good ∧ c.Effect s s') (fun _ s' => s.Done s' ∧ s'.Good ∧
        (c.Failure s s' ∨ (c.TrailerFails s ∧ c.Effect s s'))) s := by
  by_cases hc : c = compact
  · subst hc
    refine wp_conseq (Lfs.compact_spec hs) ?_ ?_
    · intro _ s' h
      exact ⟨h.toDone, h.good, h.meaning, h.nextInode⟩
    · intro _ s' h
      exact ⟨h.toDone, h.good, .inl (.inl ⟨h.meaning, h.nextInode⟩)⟩
  · have hbody := body_spec hs hid c hc
    rw [run_eq, wp_bind, wp_iff]
    constructor
    · intro _ s₁ hb
      obtain ⟨hstep, hgood, heff⟩ := wp_ok hbody hb
      have htrail := trailer_spec hgood c
      rw [wp_iff]
      constructor
      · intro _ s₂ ht
        have h₂ := wp_ok htrail ht
        exact ⟨hstep.trans_done h₂.toDone, h₂.good, heff.congr h₂.meaning h₂.nextInode⟩
      · intro e s₂ ht
        have h₂ := wp_error htrail ht
        exact ⟨hstep.trans_done h₂.toDone, h₂.good,
          .inr ⟨⟨s₁, e, s₂, hb, ht⟩, heff.congr h₂.meaning h₂.nextInode⟩⟩
    · intro _ s₁ hb
      obtain ⟨hstep, hgood, hfail⟩ := wp_error hbody hb
      exact ⟨hstep.done, hgood, .inl hfail⟩

end Call

end Thumos
