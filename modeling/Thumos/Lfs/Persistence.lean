import Thumos.Lfs.Integrity

/-!
# Sync and mount

A `sync` that succeeds, followed by a `mount` of the same device, gives back
the state that was synced.
-/

namespace Thumos

open StateExcept

namespace Lfs

structure RoundTrip (s s' : Lfs) : Prop where
  imap : ∀ id : Nat, s'.imap[id]? = s.imap[id]?
  segments : s'.segments = s.segments
  nextInode : s'.nextInode = s.nextInode
  /-- No number in use is handed out again. -/
  counter : ∀ id b : Nat, s'.imap[id]? = some b → id < s'.nextInode
  meaning : Thumos.meaning s'.core = Thumos.meaning s.core
  /-- What both filesystems answer, they answer alike. -/
  answers : ∀ (o : Observation) r r', result? o.run s = some r → result? o.run s' = some r' → r = r'

end Lfs

/-- Sync then mount is the identity, in every state of every run on a device
without errors, as long as the sequence numbers of the checkpoint and of the
log do not run out. -/
theorem sync_mount_identity {dev : Device} {s s₁ : Lfs} (hstale : NoStaleSlot dev)
    (h : Lfs.Reachable Lfs.CountersFit dev s) (hfaults : ∀ t, s.disk.dev.faults t = none)
    (hseq : s.checkpointSequence + 1 < u64Size)
    (hlast : ∀ w, s.writer = some w → w.sequence.toNat + 1 < u64Size)
    (hsync : Lfs.sync s = .ok () s₁) :
    ∃ s₂, mount s₁.disk.dev = .ok s₂ ∧ Lfs.RoundTrip s s₂ := by
  have hc := h.counted hstale
  have hv := hc.toValid
  have hv₁ : s₁.Valid := wp_ok hv.sync_spec hsync hseq
  obtain ⟨hclean, image, himage, hblocks, -⟩ := hv.sync_image hsync hseq
  have hdev : s₁.disk.dev.blocks = s₁.disk.view :=
    funext (hclean.dev_eq_view hv₁.good.log.coherent)
  have hsynced := wp_ok (Lfs.sync_synced hv) hsync
  have hfaults₁ : ∀ t, s₁.disk.dev.faults t = none := by
    rw [hsynced.faults]
    exact hfaults
  obtain ⟨s₂, hm, -⟩ := exists_mounts (hv₁.slotsInside hclean) (fun t _ => hfaults₁ t)
    (by rw [hdev]; exact hblocks hlast)
  obtain ⟨hv₂, hres⟩ := hv.remount hsync hseq hm
  have himap : ∀ id : Nat, s₂.imap[id]? = s.imap[id]? := by
    intro id
    rw [hres.imap, hsynced.imap]
  have hnext : s₂.nextInode = s.nextInode := hres.nextInode.trans hsynced.nextInode
  have hmean : meaning s₂.core = meaning s.core := by
    rw [(hres.good hv₁.good hv₂.good.log.coherent).2, hsynced.meaning]
  refine ⟨s₂, hm.1, himap, hres.segments.trans hsynced.segments, hnext, ?_, hmean, ?_⟩
  · intro id b hb
    rw [himap] at hb
    rw [hnext]
    exact hc.counter id b hb
  · intro o r r' hr hr'
    exact Lfs.answers_agree hv.good hv₂.good hmean hr hr'

/-- A file is created on a blank device, synced and mounted again. -/
theorem sync_mount_identity_blank :
    ∃ s₀ s₁ s₂, Start blankDevice s₀ ∧
      Lfs.sync (after (Call.run (.create 0 [120] .regularFile)) s₀) = .ok () s₁ ∧
      mount s₁.disk.dev = .ok s₂ ∧
      Lfs.RoundTrip (after (Call.run (.create 0 [120] .regularFile)) s₀) s₂ := by
  let p : Lfs → Bool := fun s =>
    let s' := after (Call.run (.create 0 [120] .regularFile)) s
    s.nextInode == 1 && s'.checkpointSequence == 2 && (result? Lfs.sync s').isSome &&
      s'.writer.any fun w => w.sequence == 2
  obtain ⟨s₀, hstart, hp⟩ := exists_start blankDevice p (fun _ => rfl)
    (by decide +kernel) (by decide +kernel)
  simp only [p, Bool.and_eq_true, beq_iff_eq] at hp
  obtain ⟨⟨⟨hnext, hseq⟩, hsync⟩, hwriter⟩ := hp
  obtain ⟨u, hu⟩ := Option.isSome_iff_exists.mp hsync
  obtain ⟨hinit, -, hfaults⟩ := hstart.initial blankDevice_noStaleSlot
  have hdone := (hinit.valid.after_call (.create 0 [120] .regularFile)).2.1
  have hfaults' : (after (Call.run (.create 0 [120] .regularFile)) s₀).disk.dev.faults =
      s₀.disk.dev.faults := hdone.log.disk.faults
  have hrun := result?_eq_some.mp hu
  have hround := sync_mount_identity blankDevice_noStaleSlot
    ⟨s₀, hstart, .single (.call (.create 0 [120] .regularFile) (by
      show s₀.nextInode + 1 < u32Size
      rw [hnext]
      decide))⟩
    (by
      intro t
      rw [hfaults', hfaults]
      rfl)
    (by rw [hseq]; decide)
    (by
      intro w hw
      rw [hw] at hwriter
      have hone : w.sequence = 2 := beq_iff_eq.mp hwriter
      rw [hone]
      decide) hrun
  obtain ⟨s₂, hmount, hround⟩ := hround
  exact ⟨s₀, _, s₂, hstart, hrun, hmount, hround⟩

def lastSequenceDevice : Device :=
  deviceWithSlotB (u64Size - 2) 1 formatImap fun _ => Block.zero

/-- `mount` takes that checkpoint, the next `sync` writes the last number there
is, and `mount` then rejects what `sync` has written. -/
theorem sync_mount_last_sequence :
    ∃ s₀ s₁, Start lastSequenceDevice s₀ ∧
      Lfs.sync (after (Call.run (.create 0 [120] .regularFile)) s₀) = .ok () s₁ ∧
      mount s₁.disk.dev = .error .corrupt := by
  let p : Lfs → Bool := fun s =>
    match Lfs.sync (after (Call.run (.create 0 [120] .regularFile)) s) with
    | .ok _ s₁ =>
      match mount s₁.disk.dev with
      | .error e => e == .corrupt
      | .ok _ => false
    | .error _ _ => false
  obtain ⟨s₀, hstart, hp⟩ := exists_start lastSequenceDevice p (fun _ => rfl)
    (by decide +kernel) (by decide +kernel)
  simp only [p] at hp
  split at hp
  · rename_i u s₁ hsync
    cases u
    split at hp
    · rename_i e hmount
      rw [beq_iff_eq.mp hp] at hmount
      exact ⟨s₀, s₁, hstart, hsync, hmount⟩
    · cases hp
  · cases hp

end Thumos
