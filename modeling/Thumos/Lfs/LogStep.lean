import Thumos.Storage.DiskStep
import Thumos.Lfs.Filesystem

/-!
# What the log does to the blocks

A block is `Protected` when it lies past the header of a segment that is in
use, and before the write head if the writer is in that segment.  The writer
appends to unprotected blocks only, and what it has written is protected from
then on.  `LogStep` is this guarantee between two states: protected blocks
keep their content and stay protected.  It is a preorder, so it bounds whole
sequences of appends, and it holds of an append that fails as well.

Only freeing a segment takes protection away; the compactor does that as its
last action.
-/

namespace Thumos

open StateExcept LfsSegmentManager Nat

/-- A volume with its writer, if it has one: the state that the log's
invariants are about. -/
structure Core extends Volume where
  writer : Option LfsWriter

def Log.core (s : Log) : Core := ⟨s.toVolume, some s.writer⟩

def Lfs.core (s : Lfs) : Core := ⟨s.toVolume, s.writer⟩

@[simp] theorem Log.core_disk (s : Log) : s.core.disk = s.disk := rfl
@[simp] theorem Log.core_segments (s : Log) : s.core.segments = s.segments := rfl
@[simp] theorem Lfs.core_disk (s : Lfs) : s.core.disk = s.disk := rfl
@[simp] theorem Lfs.core_segments (s : Lfs) : s.core.segments = s.segments := rfl
@[simp] theorem Lfs.core_writer (s : Lfs) : s.core.writer = s.writer := rfl

/-! ## Protected blocks -/

/-- The place of a protected block, apart from its segment being in use. -/
structure Kept (blocks : Nat) (c : Core) (x : Nat) : Prop where
  lt : x < blocks
  data : c.segments.segmentSize ≤ x
  offset : 0 < x % c.segments.segmentSize
  /-- A device that holds no data segment keeps its root inode outside of the
  segments that the manager knows. -/
  range : 2 ≤ c.segments.segmentCount → x < c.segments.segmentCount * c.segments.segmentSize
  head : ∀ wr, c.writer = some wr → wr.currentSegment = x / c.segments.segmentSize →
    x % c.segments.segmentSize < wr.writePosition

/-- Block `x` holds log data that must not be overwritten. -/
structure Protected (blocks : Nat) (c : Core) (x : Nat) : Prop extends Kept blocks c x where
  inUse : c.segments.bitmap[x / c.segments.segmentSize]? ≠ some false

/-- Block `x` of a data segment is not protected: the log may write it. -/
structure Loose (blocks : Nat) (c : Core) (x : Nat) : Prop where
  free : ¬Protected blocks c x
  data : c.segments.segmentSize ≤ x
  lt : x < c.segments.segmentCount * c.segments.segmentSize

/-- Segment `g` is in use and the writer is not in it. -/
structure Sealed (c : Core) (g : Nat) : Prop where
  inUse : c.segments.bitmap[g]? ≠ some false
  ne : ∀ wr, c.writer = some wr → wr.currentSegment ≠ g

structure WriterOk (m : LfsSegmentManager) (wr : LfsWriter) : Prop where
  seg_pos : 0 < wr.currentSegment
  used : m.bitmap[wr.currentSegment]? = some true
  pos : 1 ≤ wr.writePosition
  le : wr.writePosition ≤ m.segmentSize

theorem WriterOk.seg_lt {m : LfsSegmentManager} {wr : LfsWriter} (h : WriterOk m wr) :
    wr.currentSegment < m.segmentCount := by
  rw [← m.length_eq]
  exact (getElem?_eq_some_iff.mp h.used).1

/-- The part of the invariant that the log needs for itself. -/
structure LogOk (blocks : Nat) (c : Core) : Prop where
  coherent : c.disk.Coherent
  fits : blocks ≤ c.disk.dev.blockCount
  segSize : 2 ≤ c.segments.segmentSize
  extent : c.segments.segmentCount * c.segments.segmentSize ≤ blocks
  seg0 : c.segments.bitmap[0]? ≠ some false
  writer : ∀ wr, c.writer = some wr → WriterOk c.segments wr

/-- `c'` is what appends to the log may leave of `c`. -/
structure LogStep (blocks : Nat) (c c' : Core) : Prop where
  ok : LogOk blocks c'
  disk : Disk.Step (Loose blocks c) c.disk c'.disk
  segmentSize : c'.segments.segmentSize = c.segments.segmentSize
  segmentCount : c'.segments.segmentCount = c.segments.segmentCount
  keep : ∀ x, Protected blocks c x → Protected blocks c' x
  keepSealed : ∀ g, Sealed c g → Sealed c' g

theorem Device.blockCount_lt (d : Device) : d.blockCount < blockLimit := by
  have h := d.sectorCount_lt
  simp only [Device.blockCount, sectorsPerBlock, blockLimit, u64Size] at h ⊢
  omega

theorem LogOk.lt_limit {blocks : Nat} {c : Core} (h : LogOk blocks c) {x : Nat}
    (hx : x < blocks) : x < blockLimit :=
  lt_of_lt_of_le hx (h.fits.trans c.disk.dev.blockCount_lt.le)

namespace LogStep

variable {blocks : Nat} {c c' c'' : Core}

theorem refl (h : LogOk blocks c) : LogStep blocks c c :=
  ⟨h, Disk.Step.refl h.coherent, rfl, rfl, fun _ hx => hx, fun _ hg => hg⟩

theorem loose (h : LogStep blocks c c') {x : Nat} (hx : Loose blocks c' x) :
    Loose blocks c x where
  free hp := hx.free (h.keep x hp)
  data := h.segmentSize ▸ hx.data
  lt := h.segmentSize ▸ h.segmentCount ▸ hx.lt

theorem trans (h : LogStep blocks c c') (h' : LogStep blocks c' c'') : LogStep blocks c c'' where
  ok := h'.ok
  disk := h.disk.trans (h'.disk.mono fun _ hx => h.loose hx)
  segmentSize := h'.segmentSize.trans h.segmentSize
  segmentCount := h'.segmentCount.trans h.segmentCount
  keep x hx := h'.keep x (h.keep x hx)
  keepSealed g hg := h'.keepSealed g (h.keepSealed g hg)

theorem view (h : LogStep blocks c c') {x : Nat} (hx : Protected blocks c x) :
    c'.disk.view x = c.disk.view x :=
  h.disk.view x fun hl => hl.free hx

theorem of_disk {W : Nat → Prop} {d : Disk} (h : LogOk blocks c) (hd : Disk.Step W c.disk d)
    (hW : ∀ x, W x → Loose blocks c x) :
    LogStep blocks c { c with disk := d } where
  ok := ⟨hd.coherent, by rw [hd.blockCount]; exact h.fits, h.segSize, h.extent, h.seg0, h.writer⟩
  disk := hd.mono hW
  segmentSize := rfl
  segmentCount := rfl
  keep _ hx := ⟨⟨hx.lt, hx.data, hx.offset, hx.range, hx.head⟩, hx.inUse⟩
  keepSealed _ hg := ⟨hg.inUse, hg.ne⟩

theorem setImap (h : LogStep blocks c c') (imap : LfsImap) :
    LogStep blocks c { c' with imap := imap } where
  ok := ⟨h.ok.coherent, h.ok.fits, h.ok.segSize, h.ok.extent, h.ok.seg0, h.ok.writer⟩
  disk := h.disk
  segmentSize := h.segmentSize
  segmentCount := h.segmentCount
  keep x hx :=
    have hx' := h.keep x hx
    ⟨⟨hx'.lt, hx'.data, hx'.offset, hx'.range, hx'.head⟩, hx'.inUse⟩
  keepSealed g hg := ⟨(h.keepSealed g hg).inUse, (h.keepSealed g hg).ne⟩

end LogStep

/-! ## Rules for the programs of the log -/

@[simp] theorem Disk.wp_io {α : Type} (m : Disk.M α) (Q : α → Disk → Prop)
    (E : LfsError → Disk → Prop) (d : Disk) :
    wp (Disk.io m) Q E d ↔ wp m Q (fun e d' => E (.blockIo e) d') d :=
  wp_adaptExcept _ _ _ _ _

namespace Log

@[simp] theorem wp_onDisk {α : Type} (m : Disk.L α) (Q : α → Log → Prop)
    (E : LfsError → Log → Prop) (s : Log) :
    wp (onDisk m) Q E s ↔
      wp m (fun a d => Q a { s with disk := d }) (fun e d => E e { s with disk := d }) s.disk :=
  wp_zoom _ _ _ _ _ _

@[simp] theorem wp_setSegments (m : LfsSegmentManager) (Q : Unit → Log → Prop)
    (E : LfsError → Log → Prop) (s : Log) :
    wp (setSegments m) Q E s ↔ Q () { s with segments := m } := Iff.rfl

@[simp] theorem wp_setWriter (w : LfsWriter) (Q : Unit → Log → Prop)
    (E : LfsError → Log → Prop) (s : Log) :
    wp (setWriter w) Q E s ↔ Q () { s with writer := w } := Iff.rfl

@[simp] theorem wp_insertImap (id b : Nat) (Q : Unit → Log → Prop)
    (E : LfsError → Log → Prop) (s : Log) :
    wp (insertImap id b) Q E s ↔ Q () { s with imap := s.imap.insert id b } := Iff.rfl

/-! ## Appending -/

variable {blocks : Nat}

theorem allocateFor_eq_some {r : Bool} {m m' : LfsSegmentManager} {g : Nat}
    (h : allocateFor r m = some (g, m')) : m.allocateAny = some (g, m') := by
  unfold allocateFor at h
  split at h
  · exact h
  · exact (allocate_eq_some h).2

theorem logStep_newSegment {c : Core} {d : Disk} {m : LfsSegmentManager} {g : Nat}
    {sequence : UInt64} {W : Nat → Prop} (h : LogOk blocks c)
    (halloc : c.segments.allocateAny = some (g, m))
    (hd : Disk.Step W c.disk d) (hW : ∀ x, W x → Loose blocks c x) :
    LogStep blocks c ⟨⟨d, c.imap, m⟩, some ⟨g, 1, sequence⟩⟩ := by
  obtain ⟨hfree, hset, hsize, hcount, -⟩ := allocateAny_eq_some halloc
  have hlt : g < c.segments.bitmap.length := (getElem?_eq_some_iff.mp hfree).1
  have hg : m.bitmap[g]? = some true := by
    rw [hset, List.getElem?_set_self hlt]
  -- a segment that was in use is not the new one, and its bit is as before
  have hother : ∀ k, c.segments.bitmap[k]? ≠ some false → k ≠ g ∧
      m.bitmap[k]? = c.segments.bitmap[k]? := by
    intro k hk
    have hne : k ≠ g := by
      intro heq
      rw [heq] at hk
      exact hk hfree
    rw [hset, List.getElem?_set_ne (Ne.symm hne)]
    exact ⟨hne, rfl⟩
  have hseg0 := hother 0 h.seg0
  refine ⟨⟨hd.coherent, ?_, ?_, ?_, ?_, ?_⟩, hd.mono hW, hsize, hcount, ?_, ?_⟩
  · show blocks ≤ d.dev.blockCount
    rw [hd.blockCount]
    exact h.fits
  · show 2 ≤ m.segmentSize
    rw [hsize]
    exact h.segSize
  · show m.segmentCount * m.segmentSize ≤ blocks
    rw [hsize, hcount]
    exact h.extent
  · show m.bitmap[0]? ≠ some false
    rw [hseg0.2]
    exact h.seg0
  · intro wr hwr
    cases hwr
    refine ⟨by have := hseg0.1; show 0 < g; omega, hg, le_refl 1, ?_⟩
    show 1 ≤ m.segmentSize
    have := h.segSize
    omega
  · intro x hx
    have hx' := hother _ hx.inUse
    refine ⟨⟨hx.lt, ?_, ?_, ?_, ?_⟩, ?_⟩
    · show m.segmentSize ≤ x
      rw [hsize]
      exact hx.data
    · show 0 < x % m.segmentSize
      rw [hsize]
      exact hx.offset
    · show 2 ≤ m.segmentCount → x < m.segmentCount * m.segmentSize
      rw [hsize, hcount]
      exact hx.range
    · intro wr hwr hcur
      cases hwr
      refine absurd hcur ?_
      show ¬g = x / m.segmentSize
      rw [hsize]
      exact Ne.symm hx'.1
    · show m.bitmap[x / m.segmentSize]? ≠ some false
      rw [hsize, hx'.2]
      exact hx.inUse
  · intro k hk
    have hk' := hother k hk.inUse
    refine ⟨?_, ?_⟩
    · show m.bitmap[k]? ≠ some false
      rw [hk'.2]
      exact hk.inUse
    · intro wr hwr
      cases hwr
      exact Ne.symm hk'.1

variable {s : Log}

theorem header_loose (h : LogOk blocks s.core) :
    Loose blocks s.core (s.segments.segmentStartBlock s.writer.currentSegment) := by
  have hw := h.writer s.writer rfl
  have hsize := h.segSize
  refine ⟨fun hp => ?_, ?_, ?_⟩
  · have := hp.offset
    simp [segmentStartBlock] at this
  · exact Nat.le_mul_of_pos_left _ hw.seg_pos
  · exact mul_lt_mul_of_pos_right hw.seg_lt
      (by show 0 < s.segments.segmentSize; simp at hsize; omega)

theorem LogOk.lt_of_loose {c : Core} (h : LogOk blocks c) {x : Nat} (hx : Loose blocks c x) :
    x < blockLimit :=
  h.lt_limit (lt_of_lt_of_le hx.lt h.extent)

theorem logStep_setSegments {c c' : Core} (h : LogStep blocks c c') {m : LfsSegmentManager}
    (hbits : m.bitmap = c'.segments.bitmap) (hsize : m.segmentSize = c'.segments.segmentSize)
    (hcount : m.segmentCount = c'.segments.segmentCount) :
    LogStep blocks c { c' with segments := m } := by
  obtain ⟨⟨disk, imap, segments⟩, writer⟩ := c'
  obtain ⟨bitmap, count, size, freeCount, hlen, hfree⟩ := segments
  obtain ⟨bitmap', count', size', freeCount', hlen', hfree'⟩ := m
  subst hbits hsize hcount
  obtain rfl : freeCount = freeCount' := hfree.trans hfree'.symm
  exact h

theorem sealSegment_spec (h : LogOk blocks s.core) (r : Bool) :
    wp (sealSegment r)
      (fun _ s' => LogStep blocks s.core s'.core ∧ s'.imap = s.imap ∧ s'.writer.writePosition = 1)
      (fun _ s' => LogStep blocks s.core s'.core ∧ s'.imap = s.imap) s := by
  simp only [sealSegment, wp_bind, wp_get, wp_okOr]
  refine ⟨?_, fun _ => ⟨LogStep.refl h, trivial⟩⟩
  intro p hp
  obtain ⟨g, m⟩ := p
  have halloc := allocateFor_eq_some hp
  obtain ⟨-, -, hsize, hcount, -⟩ := allocateAny_eq_some halloc
  have hstart : m.segmentStartBlock s.writer.currentSegment =
      s.segments.segmentStartBlock s.writer.currentSegment := by
    simp only [segmentStartBlock, hsize]
  have hloose := header_loose h
  simp only [wp_bind, wp_setSegments, wp_attempt, wp_onDisk, Disk.wp_io, hstart]
  refine wp_conseq (Disk.write_step h.coherent (LogOk.lt_of_loose h hloose) _) ?_ ?_
  · intro _ d hd
    refine ⟨?_, rfl, rfl⟩
    refine logStep_newSegment h halloc hd.1 ?_
    intro x hx
    rw [hx]
    exact hloose
  · intro e d hd
    -- the header could not be written: the segment is given back
    simp only [wp_throw]
    refine ⟨?_, trivial⟩
    have hstep : LogStep blocks s.core { s.core with disk := d } := by
      refine LogStep.of_disk h hd.1 ?_
      intro x hx
      rw [hx]
      exact hloose
    exact logStep_setSegments hstep (free_after_take halloc)
      (by simp [hsize]) (by simp [hcount])

/-- The block at the write head: the writer has room for it. -/
structure AtHead (s : Log) (b : Nat) : Prop where
  seg : b / s.segments.segmentSize = s.writer.currentSegment
  off : b % s.segments.segmentSize = s.writer.writePosition

theorem atHead (hroom : s.writer.writePosition < s.segments.segmentSize) :
    AtHead s (s.segments.segmentStartBlock s.writer.currentSegment + s.writer.writePosition) := by
  constructor
  · rw [segmentStartBlock, add_comm, add_mul_div_right _ _ (by omega),
      div_eq_of_lt hroom, zero_add]
  · rw [segmentStartBlock, add_comm, add_mul_mod_self_right,
      mod_eq_of_lt hroom]

theorem atHead_loose (h : LogOk blocks s.core)
    (hroom : s.writer.writePosition < s.segments.segmentSize) :
    Loose blocks s.core
      (s.segments.segmentStartBlock s.writer.currentSegment + s.writer.writePosition) := by
  have hw := h.writer s.writer rfl
  have hat := atHead hroom
  have hhdr := header_loose h
  refine ⟨fun hp => ?_, ?_, ?_⟩
  · have hlt := hp.head s.writer rfl hat.seg.symm
    rw [Log.core_segments, hat.off] at hlt
    omega
  · exact hhdr.data.trans (Nat.le_add_right _ _)
  · have hle : (s.writer.currentSegment + 1) * s.segments.segmentSize ≤
        s.segments.segmentCount * s.segments.segmentSize := Nat.mul_le_mul_right _ hw.seg_lt
    rw [Nat.add_mul, Nat.one_mul] at hle
    show s.writer.currentSegment * s.segments.segmentSize + s.writer.writePosition < _
    exact lt_of_lt_of_le (Nat.add_lt_add_left hroom _) hle

theorem logStep_advance {d : Disk} (h : LogOk blocks s.core)
    (hroom : s.writer.writePosition < s.segments.segmentSize)
    (hd : Disk.Step (· = s.segments.segmentStartBlock s.writer.currentSegment +
      s.writer.writePosition) s.disk d) :
    LogStep blocks s.core { s.core with
          disk := d
          writer := some { s.writer with writePosition := s.writer.writePosition + 1 } } ∧
      Protected blocks
        { s.core with
          disk := d
          writer := some { s.writer with writePosition := s.writer.writePosition + 1 } }
        (s.segments.segmentStartBlock s.writer.currentSegment + s.writer.writePosition) := by
  have hw := h.writer s.writer rfl
  have hat := atHead hroom
  have hloose := atHead_loose h hroom
  have hdisk := LogStep.of_disk h hd fun x hx => by rw [hx]; exact hloose
  constructor
  · refine ⟨⟨hdisk.ok.coherent, hdisk.ok.fits, h.segSize, h.extent, h.seg0, ?_⟩, hdisk.disk,
      rfl, rfl, ?_, ?_⟩
    · intro wr hwr
      cases hwr
      exact ⟨hw.seg_pos, hw.used, le_add_left 1 _, hroom⟩
    · intro x hx
      refine ⟨⟨hx.lt, hx.data, hx.offset, hx.range, ?_⟩, hx.inUse⟩
      intro wr hwr hcur
      cases hwr
      exact lt_succ_of_lt (hx.head s.writer rfl hcur)
    · intro g hg
      refine ⟨hg.inUse, ?_⟩
      intro wr hwr
      cases hwr
      exact hg.ne s.writer rfl
  · refine ⟨⟨lt_of_lt_of_le hloose.lt h.extent, hloose.data, ?_, fun _ => hloose.lt, ?_⟩, ?_⟩
    · show 0 < _ % s.segments.segmentSize
      rw [hat.off]
      exact hw.pos
    · intro wr hwr _
      cases hwr
      show _ % s.segments.segmentSize < s.writer.writePosition + 1
      rw [hat.off]
      exact lt_succ_self _
    · show s.segments.bitmap[_ / s.segments.segmentSize]? ≠ some false
      have hused : s.segments.bitmap[s.writer.currentSegment]? = some true := hw.used
      rw [hat.seg, hused]
      simp

/-- What an append does, whether it succeeds or fails: it is a step of the
log.  The block it returns was free before, is protected now, and holds the
data. -/
theorem append_spec (h : LogOk blocks s.core) (r : Bool) (data : Block) :
    wp (append r data) (fun b s' => LogStep blocks s.core s'.core ∧ s'.imap = s.imap ∧
        Loose blocks s.core b ∧ Protected blocks s'.core b ∧ s'.disk.view b = data)
      (fun _ s' => LogStep blocks s.core s'.core ∧ s'.imap = s.imap) s := by
  -- the append proper, once the writer has room
  have happend : ∀ s₁ : Log, LogStep blocks s.core s₁.core → s₁.imap = s.imap →
      s₁.writer.writePosition < s₁.segments.segmentSize →
      wp (do
        let s ← get
        let blockNum :=
          s.segments.segmentStartBlock s.writer.currentSegment + s.writer.writePosition
        onDisk (Disk.io (Disk.write blockNum data))
        setWriter { s.writer with writePosition := s.writer.writePosition + 1 }
        pure blockNum : M Nat)
      (fun b s' => LogStep blocks s.core s'.core ∧ s'.imap = s.imap ∧
        Loose blocks s.core b ∧ Protected blocks s'.core b ∧ s'.disk.view b = data)
      (fun _ s' => LogStep blocks s.core s'.core ∧ s'.imap = s.imap) s₁ := by
    intro s₁ hstep himap hroom
    have hloose := atHead_loose hstep.ok hroom
    simp only [wp_bind, wp_get, wp_onDisk, Disk.wp_io, wp_setWriter, wp_pure]
    refine wp_conseq (Disk.write_step hstep.ok.coherent (LogOk.lt_of_loose hstep.ok hloose) data)
      ?_ ?_
    · intro _ d hd
      obtain ⟨hstep', hprot⟩ := logStep_advance hstep.ok hroom hd.1
      exact ⟨hstep.trans hstep', himap, hstep.loose hloose, hprot, hd.2⟩
    · intro _ d hd
      refine ⟨hstep.trans (LogStep.of_disk hstep.ok hd.1 ?_), himap⟩
      intro x hx
      rw [hx]
      exact hloose
  unfold append
  rw [wp_bind, wp_get, wp_bind, wp_ite]
  constructor
  · intro _
    refine wp_conseq (sealSegment_spec h r) ?_ fun _ _ h' => h'
    intro _ s₁ hpost
    obtain ⟨hstep, himap, hpos⟩ := hpost
    have hsize := hstep.ok.segSize
    simp only [core_segments] at hsize
    exact happend s₁ hstep himap (by omega)
  · intro hroom
    exact happend s (LogStep.refl h) rfl (by omega)

theorem writeInode_spec (h : LogOk blocks s.core) (r : Bool) (id : Nat) (n : DiskInode) :
    wp (writeInode r id n)
      (fun b s' => LogStep blocks s.core s'.core ∧ s'.imap = s.imap.insert id b ∧
        Loose blocks s.core b ∧ Protected blocks s'.core b ∧ s'.disk.view b = n.writeTo)
      (fun _ s' => LogStep blocks s.core s'.core ∧ s'.imap = s.imap) s := by
  simp only [writeInode, wp_bind, wp_insertImap, wp_pure]
  refine wp_conseq (append_spec h r n.writeTo) ?_ fun _ _ h' => h'
  intro b s' hpost
  obtain ⟨hstep, himap, hloose, hprot, hview⟩ := hpost
  refine ⟨hstep.setImap _, by rw [himap], hloose, ?_, hview⟩
  exact ⟨⟨hprot.lt, hprot.data, hprot.offset, hprot.range, hprot.head⟩, hprot.inUse⟩

end Log

end Thumos
