import Thumos.Lfs.Calls

/-!
# What an image mounts to

`MountImage.ofBlocks` is the result of `mount` as a function of the blocks of
the medium.  `mountDisk_spec` says that `mount` computes it, unless one of its
transfers fails.  A failed transfer need not make `mount` fail: it then falls
back to the other checkpoint slot.
-/

namespace Thumos

open StateExcept LittleEndian CheckpointHeader Except

def imageBytes (view : Nat → Block) : Nat → Nat → List UInt8
  | _, 0 => []
  | start, count + 1 => (view start).bytes ++ imageBytes view (start + 1) count

namespace MountImage

def require (c : Prop) [Decidable c] (e : LfsError) : Except LfsError Unit :=
  if c then .ok () else .error e

def latest (view : Nat → Block) (superblock : LfsSuperblock) (n : Nat) :
    Except LfsError (CheckpointHeader × Nat) :=
  chooseSlot superblock.checkpointBlockA superblock.checkpointBlockB
    (CheckpointHeader.parse (view superblock.checkpointBlockA) n)
    (CheckpointHeader.parse (view superblock.checkpointBlockB) n)

def loadImap (view : Nat → Block) (start count segmentSize deviceBlocks : Nat) :
    Except LfsError LfsImap := do
  require (count * blockSize < u32Size) .corrupt
  LfsImap.deserialize (imageBytes view start count) segmentSize deviceBlocks

def ofCheckpoint (view : Nat → Block) (superblock : LfsSuperblock) (checkpoint : CheckpointHeader) :
    Except LfsError MountImage := do
  let imap ← loadImap view checkpoint.imapBlock checkpoint.imapBlockCount
    superblock.segmentSize superblock.blockCount
  require (checkpoint.segmentBitmapCount ≤ maxBitmapBlocks superblock.segmentCount) .corrupt
  let segments ← LfsSegmentManager.deserialize
    (imageBytes view checkpoint.segmentBitmapBlock checkpoint.segmentBitmapCount)
    superblock.segmentCount superblock.segmentSize superblock.blockCount
  require (checkpoint.lastSegmentSequence + 1 < u64Size) .corrupt
  require (checkpoint.sequence + 1 < u64Size) .corrupt
  .ok ⟨superblock, checkpoint, imap, segments⟩

def ofBlocks (view : Nat → Block) (n : Nat) : Except LfsError MountImage := do
  let superblock ← LfsSuperblock.fromBlock (view superblockBlock)
  require (superblock.blockCount ≤ n) .corrupt
  let (checkpoint, _) ← latest view superblock n
  ofCheckpoint view superblock checkpoint

end MountImage

/-! ## Programs that only read -/

namespace Disk

def Computes {α : Type} (d : Disk) (m : L α) (r : Except LfsError α) : Prop :=
  wp m (fun a d' => Peek d d' ∧ (¬Failed d d' → r = .ok a))
    (fun e d' => Peek d d' ∧ (¬Failed d d' → r = .error e)) d

namespace Computes

variable {α β : Type} {d : Disk}

theorem pure (hd : d.Coherent) (hc : d.Clean) (a : α) : Computes d (Pure.pure a) (.ok a) :=
  ⟨Peek.refl hd hc, fun _ => rfl⟩

/-- `P` is what is known of the first value even after a transfer has failed. -/
theorem bind {m : L α} {f : α → L β} {r : Except LfsError α} {g : α → Except LfsError β}
    {P : α → Prop} (hm : Computes d m r) (hP : wp m (fun a _ => P a) (fun _ _ => True) d)
    (hf : ∀ a d', P a → Peek d d' → Computes d' (f a) (g a)) : Computes d (m >>= f) (r >>= g) := by
  unfold Computes
  rw [wp_bind]
  refine wp_conseq (wp_and hm hP) ?_ ?_
  · intro a d₁ hpost
    obtain ⟨⟨hp₁, hr⟩, hPa⟩ := hpost
    -- a run without failures has none in either half
    have hsplit : ∀ d₂, Peek d₁ d₂ → ¬Failed d d₂ → ¬Failed d d₁ ∧ ¬Failed d₁ d₂ := by
      intro d₂ hp₂ hok
      constructor
      · intro hf'
        obtain ⟨t, hle, hlt, hft⟩ := hf'
        exact hok ⟨t, hle, lt_of_lt_of_le hlt hp₂.ticks, hft⟩
      · intro hf'
        exact hok (hf'.mono hp₁ (Peek.refl hp₂.still.coherent hp₂.clean))
    refine wp_conseq (hf a d₁ hPa hp₁) ?_ ?_
    · intro b d₂ hpost
      refine ⟨hp₁.trans hpost.1, fun hok => ?_⟩
      obtain ⟨hok₁, hok₂⟩ := hsplit d₂ hpost.1 hok
      rw [hr hok₁]
      exact hpost.2 hok₂
    · intro e d₂ hpost
      refine ⟨hp₁.trans hpost.1, fun hok => ?_⟩
      obtain ⟨hok₁, hok₂⟩ := hsplit d₂ hpost.1 hok
      rw [hr hok₁]
      exact hpost.2 hok₂
  · intro e d₁ hpost
    refine ⟨hpost.1.1, fun hok => ?_⟩
    rw [hpost.1.2 hok]
    rfl

theorem seq {m : L α} {f : α → L β} {r : Except LfsError α} {g : α → Except LfsError β}
    (hm : Computes d m r) (hf : ∀ a d', Peek d d' → Computes d' (f a) (g a)) :
    Computes d (m >>= f) (r >>= g) :=
  hm.bind (P := fun _ => True) (wp_of_forall (fun _ _ => trivial) fun _ _ => trivial)
    fun a d' _ hp => hf a d' hp

theorem attempt {m : L α} {r : Except LfsError α} (hm : Computes d m r) :
    Computes d (StateExcept.attempt m) (.ok r) := by
  unfold Computes
  rw [wp_attempt]
  refine wp_conseq hm ?_ ?_
  · intro a d' hpost
    exact ⟨hpost.1, fun hok => by rw [hpost.2 hok]⟩
  · intro e d' hpost
    exact ⟨hpost.1, fun hok => by rw [hpost.2 hok]⟩

theorem liftResult (hd : d.Coherent) (hc : d.Clean) (r : Except LfsError α) :
    Computes d (StateExcept.liftResult r) r := by
  unfold Computes
  rw [wp_liftResult]
  exact ⟨fun _ ha => ⟨Peek.refl hd hc, fun _ => ha⟩, fun _ he => ⟨Peek.refl hd hc, fun _ => he⟩⟩

theorem read (hd : d.Coherent) (hc : d.Clean) {b : Nat} (hb : b < d.dev.blockCount) :
    Computes d (io (Disk.read b)) (.ok (d.view b)) := by
  unfold Computes
  rw [Disk.wp_io]
  refine wp_conseq (read_peek hd hc hb) ?_ ?_
  · intro x d' hpost
    exact ⟨hpost.2, fun _ => by rw [hpost.1]⟩
  · intro e d' hpost
    exact ⟨hpost.1, fun hok => absurd hpost.2 hok⟩

theorem failIf (hd : d.Coherent) (hc : d.Clean) {c p : Prop} [Decidable c] [Decidable p]
    (e : LfsError) (h : p ↔ ¬c) :
    Computes d (StateExcept.failIf c e) (MountImage.require p e) := by
  unfold Computes MountImage.require
  rw [wp_failIf]
  refine ⟨fun hbad => ⟨Peek.refl hd hc, fun _ => ?_⟩, fun hgood => ⟨Peek.refl hd hc, fun _ => ?_⟩⟩
  · rw [if_neg fun hp => h.mp hp hbad]
  · rw [if_pos (h.mpr hgood)]

theorem get {f : Disk → L α} {r : Except LfsError α} (h : Computes d (f d) r) :
    Computes d (MonadState.get >>= f) r := by
  unfold Computes at h ⊢
  rw [wp_bind, wp_get]
  exact h

theorem view_eq {d' : Disk} (h : Peek d d') : d'.view = d.view := funext h.still.view_eq

theorem readBlocks (count : Nat) : ∀ {d : Disk} (start : Nat), d.Coherent → d.Clean →
    start + count ≤ d.dev.blockCount →
    Computes d (Disk.readBlocks start count) (.ok (imageBytes d.view start count)) := by
  induction count with
  | zero =>
    intro d start hd hc _
    exact pure hd hc []
  | succ count ih =>
    intro d start hd hc hle
    have hread := read hd hc (show start < d.dev.blockCount by omega)
    refine hread.seq (g := fun b => .ok (b.bytes ++ imageBytes d.view (start + 1) count)) ?_
    intro b d₁ hp₁
    have hrest := ih (start + 1) hp₁.still.coherent hp₁.clean
      (by rw [hp₁.still.blockCount]; omega)
    rw [view_eq hp₁] at hrest
    exact hrest.seq fun bs d₂ hp₂ => pure hp₂.still.coherent hp₂.clean _

end Computes

end Disk

theorem CheckpointHeader.parse_geometry {buf : Block} {n : Nat} {h : CheckpointHeader}
    (hp : parse buf n = .ok h) :
    h.imapBlock + h.imapBlockCount ≤ n ∧ h.segmentBitmapBlock + h.segmentBitmapCount ≤ n := by
  obtain ⟨h', -, hrest⟩ := result_bind_eq_ok.mp hp
  obtain ⟨_, hg, heq⟩ := result_bind_eq_ok.mp hrest
  cases heq
  unfold validateGeometry at hg
  simp only at hg
  split at hg
  · contradiction
  split at hg
  · contradiction
  · split at hg
    · contradiction
    · omega

theorem chooseSlot_cases {a b slot : Nat} {ra rb : Except LfsError CheckpointHeader}
    {h : CheckpointHeader} (hc : chooseSlot a b ra rb = .ok (h, slot)) :
      ra = .ok h ∨ rb = .ok h := by
  unfold chooseSlot at hc
  split at hc
  · split at hc
    · obtain ⟨rfl, -⟩ := Prod.mk.inj (ok.inj hc)
      exact .inl rfl
    · obtain ⟨rfl, -⟩ := Prod.mk.inj (ok.inj hc)
      exact .inr rfl
  · obtain ⟨rfl, -⟩ := Prod.mk.inj (ok.inj hc)
    exact .inl rfl
  · obtain ⟨rfl, -⟩ := Prod.mk.inj (ok.inj hc)
    exact .inr rfl
  · contradiction
  · contradiction

/-! ## The programs of `mount` -/

open Disk in
theorem readCheckpoint_computes {d : Disk} (hd : d.Coherent) (hc : d.Clean) {slot : Nat}
    (hslot : slot < d.dev.blockCount) :
    Computes d (readCheckpoint slot) (parse (d.view slot) d.dev.blockCount) := by
  refine (Computes.read hd hc hslot).seq
    (g := fun buf => parse buf d.dev.blockCount) ?_
  intro buf d₁ hp
  refine Computes.get ?_
  rw [hp.still.blockCount]
  exact Computes.liftResult hp.still.coherent hp.clean _

open Disk in
theorem pickLatest_computes {d : Disk} (hd : d.Coherent) (hc : d.Clean) {a b : Nat}
    (ha : a < d.dev.blockCount) (hb : b < d.dev.blockCount) :
    Computes d (pickLatest a b) (chooseSlot a b (parse (d.view a) d.dev.blockCount)
        (parse (d.view b) d.dev.blockCount)) := by
  refine (readCheckpoint_computes hd hc ha).attempt.seq
    (g := fun ra => chooseSlot a b ra (parse (d.view b) d.dev.blockCount)) ?_
  intro ra d₁ hp₁
  have hsecond := readCheckpoint_computes hp₁.still.coherent hp₁.clean
    (show b < _ by rw [hp₁.still.blockCount]; exact hb)
  rw [hp₁.still.blockCount, Computes.view_eq hp₁] at hsecond
  exact hsecond.attempt.seq fun rb d₂ hp₂ =>
    Computes.liftResult hp₂.still.coherent hp₂.clean _

def CheckpointHeader.Inside (n : Nat) (h : CheckpointHeader) : Prop :=
  h.imapBlock + h.imapBlockCount ≤ n ∧ h.segmentBitmapBlock + h.segmentBitmapCount ≤ n

open Disk in
theorem readCheckpoint_inside {d : Disk} (hd : d.Coherent) (hc : d.Clean) {slot : Nat}
    (hslot : slot < d.dev.blockCount) :
    wp (readCheckpoint slot) (fun h d' => Peek d d' ∧ h.Inside d.dev.blockCount)
      (fun _ d' => Peek d d') d := by
  simp only [readCheckpoint, wp_bind, Disk.wp_io, wp_get, wp_liftResult]
  refine wp_conseq (read_peek hd hc hslot) ?_ fun _ _ h => h.1
  intro buf d' hpost
  refine ⟨fun h hh => ⟨hpost.2, ?_⟩, fun _ _ => hpost.2⟩
  rw [hpost.2.still.blockCount] at hh
  exact parse_geometry hh

open Disk in
theorem pickLatest_inside {d : Disk} (hd : d.Coherent) (hc : d.Clean) {a b : Nat}
    (ha : a < d.dev.blockCount) (hb : b < d.dev.blockCount) :
    wp (pickLatest a b) (fun r _ => r.1.Inside d.dev.blockCount) (fun _ _ => True) d := by
  have hsecond : ∀ ra d₁, Peek d d₁ → (∀ h, ra = .ok h → h.Inside d.dev.blockCount) →
      wp (do
          let rb ← attempt (readCheckpoint b)
          liftResult (chooseSlot a b ra rb))
        (fun r _ => r.1.Inside d.dev.blockCount) (fun _ _ => True) d₁ := by
    intro ra d₁ hp₁ hra
    have hcount : d₁.dev.blockCount = d.dev.blockCount := hp₁.still.blockCount
    simp only [wp_bind, wp_attempt, wp_liftResult]
    refine wp_conseq (readCheckpoint_inside hp₁.still.coherent hp₁.clean (hcount ▸ hb)) ?_ ?_
    · intro h d₂ hpost
      refine ⟨fun r hr => ?_, fun _ _ => trivial⟩
      rcases chooseSlot_cases hr with h' | h'
      · exact hra _ h'
      · rw [← ok.inj h', ← hcount]
        exact hpost.2
    · intro e d₂ hpost
      refine ⟨fun r hr => ?_, fun _ _ => trivial⟩
      rcases chooseSlot_cases hr with h' | h'
      · exact hra _ h'
      · contradiction
  rw [pickLatest, wp_bind, wp_attempt]
  refine wp_conseq (readCheckpoint_inside hd hc ha) ?_ ?_
  · intro h d₁ hpost
    refine hsecond _ d₁ hpost.1 fun h' hh' => ?_
    rw [← ok.inj hh']
    exact hpost.2
  · intro e d₁ hpost
    exact hsecond _ d₁ hpost (by rintro _ ⟨⟩)

open Disk MountImage in
theorem loadFromDisk_computes {d : Disk} (hd : d.Coherent) (hc : d.Clean)
    (start count segmentSize deviceBlocks : Nat) (hin : start + count ≤ d.dev.blockCount) :
    Computes d (LfsImap.loadFromDisk start count segmentSize deviceBlocks)
      (loadImap d.view start count segmentSize deviceBlocks) := by
  refine (Computes.failIf hd hc (p := count * blockSize < u32Size) .corrupt (by omega)).bind
    (P := fun _ => count * blockSize < u32Size) ?_ ?_
  · rw [wp_failIf]
    exact ⟨fun _ => trivial, fun h => by omega⟩
  · intro _ d₁ hsmall hp₁
    refine Computes.get ?_
    -- the range lies inside the device, so the second check always passes
    have hfits : ¬min (d₁.dev.sectorCount * sectorSize) (u64Size - 1) < count * blockSize := by
      have hblocks : d.dev.sectorCount / sectorsPerBlock * sectorsPerBlock ≤ d.dev.sectorCount :=
        Nat.div_mul_le_self _ _
      rw [hp₁.still.sectorCount]
      simp only [Device.blockCount, sectorSize, blockSize, sectorsPerBlock, u64Size, u32Size] at *
      omega
    refine (Computes.failIf hp₁.still.coherent hp₁.clean (p := True) .corrupt
      (by simp [hfits])).seq (g := fun _ =>
        LfsImap.deserialize (imageBytes d.view start count) segmentSize deviceBlocks) ?_
    intro _ d₂ hp₂
    have hp := hp₁.trans hp₂
    have hload := Computes.readBlocks count start hp.still.coherent hp.clean
      (by rw [hp.still.blockCount]; exact hin)
    rw [Computes.view_eq hp] at hload
    exact hload.seq fun bs d₃ hp₃ => Computes.liftResult hp₃.still.coherent hp₃.clean _

open Disk MountImage in
theorem mountDisk_computes {d : Disk} (hd : d.Coherent) (hc : d.Clean) (hpos : 0 < d.dev.blockCount)
    (hslots : ∀ sb, LfsSuperblock.fromBlock (d.view superblockBlock) = .ok sb →
      sb.checkpointBlockA < d.dev.blockCount ∧ sb.checkpointBlockB < d.dev.blockCount) :
    Computes d mountDisk (ofBlocks d.view d.dev.blockCount) := by
  refine (Computes.read hd hc hpos).bind (P := fun buf => buf = d.view superblockBlock)
    (g := fun buf => do
      let superblock ← LfsSuperblock.fromBlock buf
      require (superblock.blockCount ≤ d.dev.blockCount) .corrupt
      let (checkpoint, _) ← latest d.view superblock d.dev.blockCount
      ofCheckpoint d.view superblock checkpoint) ?_ ?_
  · rw [Disk.wp_io]
    exact wp_conseq (read_peek hd hc hpos) (fun _ _ h => h.1) fun _ _ _ => trivial
  · intro buf d₁ hbuf hp₁
    subst hbuf
    refine (Computes.liftResult hp₁.still.coherent hp₁.clean _).bind
      (P := fun sb => sb.checkpointBlockA < d.dev.blockCount ∧
        sb.checkpointBlockB < d.dev.blockCount) ?_ ?_
    · rw [wp_liftResult]
      exact ⟨fun sb hsb => hslots sb hsb, fun _ _ => trivial⟩
    · intro sb d₂ hsb hp₂
      have hp := hp₁.trans hp₂
      refine Computes.get ?_
      rw [hp.still.blockCount]
      refine (Computes.failIf hp.still.coherent hp.clean _ (by omega)).seq ?_
      intro _ d₃ hp₃
      have hp := hp.trans hp₃
      have hcount : d₃.dev.blockCount = d.dev.blockCount := hp.still.blockCount
      have hpick := pickLatest_computes hp.still.coherent hp.clean (hcount ▸ hsb.1) (hcount ▸ hsb.2)
      have hinside := pickLatest_inside hp.still.coherent hp.clean (hcount ▸ hsb.1) (hcount ▸ hsb.2)
      rw [hcount, Computes.view_eq hp] at hpick
      rw [hcount] at hinside
      refine hpick.bind hinside ?_
      intro r d₄ hr hp₄
      obtain ⟨checkpoint, slot⟩ := r
      have hp := hp.trans hp₄
      -- what is read from here on lies inside the device, whichever slot was taken
      have hload := loadFromDisk_computes hp.still.coherent hp.clean
        checkpoint.imapBlock checkpoint.imapBlockCount sb.segmentSize sb.blockCount
        (by rw [hp.still.blockCount]; exact hr.1)
      rw [Computes.view_eq hp] at hload
      refine hload.seq ?_
      intro imap d₅ hp₅
      have hp := hp.trans hp₅
      refine (Computes.failIf hp.still.coherent hp.clean _ (by omega)).seq ?_
      intro _ d₆ hp₆
      have hp := hp.trans hp₆
      have hbits := Computes.readBlocks checkpoint.segmentBitmapCount checkpoint.segmentBitmapBlock
        hp.still.coherent hp.clean (by rw [hp.still.blockCount]; exact hr.2)
      rw [Computes.view_eq hp] at hbits
      refine hbits.seq (g := fun data => do
        let segments ← LfsSegmentManager.deserialize data sb.segmentCount sb.segmentSize
          sb.blockCount
        require (checkpoint.lastSegmentSequence + 1 < u64Size) .corrupt
        require (checkpoint.sequence + 1 < u64Size) .corrupt
        .ok (MountImage.mk sb checkpoint imap segments)) ?_
      intro data d₇ hp₇
      refine (Computes.liftResult hp₇.still.coherent hp₇.clean _).seq ?_
      intro segments d₈ hp₈
      refine (Computes.failIf hp₈.still.coherent hp₈.clean _ (by omega)).seq ?_
      intro _ d₉ hp₉
      refine (Computes.failIf hp₉.still.coherent hp₉.clean _ (by omega)).seq ?_
      intro _ d₁₀ hp₁₀
      exact Computes.pure hp₁₀.still.coherent hp₁₀.clean _

end Thumos
