import Thumos.Lfs.Format

/-!
# Runs of a mounted filesystem

A run starts right after `format` and `mount` and takes calls, `sync`, and
`sync` followed by `mount`.  Calls may fail.  `Next G` is one step of a run
that meets the condition `G` on the state and the event before the step.

`Reachable.valid` carries the invariant over every run.
-/

namespace Thumos

open StateExcept

inductive Event where
  | call (c : Call)
  | sync
  | remount

namespace Lfs

/-- One step of a run whose steps meet `G`.  A mount of which a transfer fails
is left out: it may take the older checkpoint. -/
inductive Next (G : Lfs → Event → Prop) : Lfs → Lfs → Prop where
  | call {s : Lfs} (c : Call) : G s (.call c) → Next G s (after c.run s)
  | sync {s : Lfs} : G s .sync → Next G s (after Lfs.sync s)
  | remount {s s₁ s₂ : Lfs} : G s .remount → Lfs.sync s = .ok () s₁ → Mounts s₁.disk.dev s₂ →
    Next G s s₂

def Reachable (G : Lfs → Event → Prop) (dev : Device) (s : Lfs) : Prop :=
  ∃ s₀, Start dev s₀ ∧ Relation.ReflTransGen (Next G) s₀ s

/-- The numbers of the next two checkpoints fit in a `u64`. -/
def SequenceFits (s : Lfs) : Event → Prop
  | .call _ => True
  | .sync | .remount => s.checkpointSequence + 1 < u64Size

variable {s s' : Lfs}

theorem Valid.after_call (hv : Valid s) (c : Call) :
    Valid (after c.run s) ∧ Done s (after c.run s) ∧ Numbered c.IsCreate s (after c.run s) := by
  refine after_of_wp (P := fun s' => Valid s' ∧ Done s s' ∧ Numbered c.IsCreate s s')
    (wp_conseq (c.run_spec hv.good hv.nextInode) ?_ ?_)
  · rintro - s' ⟨hdone, hgood, heffect⟩
    exact ⟨hv.of_done hdone hgood heffect.numbered, hdone, heffect.numbered⟩
  · rintro - s' ⟨hdone, hgood, hfail | ⟨-, heffect⟩⟩
    · exact ⟨hv.of_done hdone hgood hfail.numbered, hdone, hfail.numbered⟩
    · exact ⟨hv.of_done hdone hgood heffect.numbered, hdone, heffect.numbered⟩

/-- What `sync` leaves as it is: everything but the disk and the number of the
next checkpoint, and on the disk the blocks of the files. -/
structure Synced (s s' : Lfs) : Prop where
  imap : s'.imap = s.imap
  segments : s'.segments = s.segments
  writer : s'.writer = s.writer
  nextInode : s'.nextInode = s.nextInode
  faults : s'.disk.dev.faults = s.disk.dev.faults
  meaning : Thumos.meaning s'.core = Thumos.meaning s.core

theorem Valid.synced (hv : Valid s) {d : Disk} {sequence : Nat}
    (hstep : Disk.Step (fun b => InPayload s.nextSlot b ∨ b = s.nextSlot) s.disk d) :
    Synced s { s with disk := d, checkpointSequence := sequence } := by
  refine ⟨rfl, rfl, rfl, rfl, hstep.faults, ?_⟩
  have hlt := hv.nextSlot_lt
  have hag : Agrees s.core (Lfs.core { s with disk := d, checkpointSequence := sequence }) := by
    intro id k x hx
    have hdata := (hv.good.refs hx).data
    rw [core_segments, hv.segmentSize_eq] at hdata
    refine hstep.view x fun hw => ?_
    unfold InPayload at hw
    omega
  exact funext fun id => hag.meaning rfl

theorem sync_synced (hv : Valid s) :
    wp sync (fun _ s' => Synced s s') (fun _ s' => Synced s s') s := by
  refine wp_conseq (Lfs.sync_spec hv.ready) ?_ ?_
  · rintro - s' (⟨-, d', rfl, hstill, -⟩ | ⟨w, d₁, d', -, h₁, h₂, -, -, rfl⟩)
    · exact hv.synced (Disk.Step.of_still hstill)
    · exact hv.synced (h₂.step_slot h₁)
  · rintro - s' ⟨d', rfl, hstill | ⟨-, hstep⟩ | ⟨w, d₁, -, h₁, h₂⟩⟩
    · exact hv.synced (Disk.Step.of_still hstill)
    · exact hv.synced (hstep.mono fun _ hb => .inl hb)
    · exact hv.synced (h₂.step_slot h₁)

theorem Next.valid {G : Lfs → Event → Prop} (hG : ∀ s e, G s e → SequenceFits s e)
    (h : Next G s s') (hv : Valid s) : Valid s' := by
  cases h with
  | call c _ => exact (hv.after_call c).1
  | sync hg =>
    refine after_of_wp (wp_conseq hv.sync_spec ?_ fun _ _ h => h)
    exact fun _ _ h => h (hG _ _ hg)
  | remount hg hsync hm => exact (hv.remount hsync (hG _ _ hg) hm).1

theorem Reachable.valid {G : Lfs → Event → Prop} (hG : ∀ s e, G s e → SequenceFits s e)
    {dev : Device} (hstale : NoStaleSlot dev) (h : Reachable G dev s) : Valid s := by
  obtain ⟨s₀, hstart, hrun⟩ := h
  induction hrun with
  | refl => exact (hstart.initial hstale).1.valid
  | tail _ hstep ih => exact hstep.valid hG ih

end Lfs

end Thumos
