import Thumos.Storage.CacheSpec

/-!
# What a disk program may do

`Disk.Step W d d'` bounds everything that a program over the cache and the
device has done between `d` and `d'`, given that it wrote blocks in `W` only:

* the cache is coherent and blocks outside `W` keep their logical content;
* the writes that reached the medium went to blocks that were dirty at the
  start or lie in `W`.  This is the part that a power loss can see.

The second part is stated for sector addresses and data, and separately as
`Traced A`, since it holds of any block numbers and needs no coherence.  `Step` is
reflexive, transitive and monotone in `W`, so the steps of a program add up.
-/

namespace Thumos

open StateExcept BlockCache List

theorem applyWrites_append (ws ws' : List SectorWrite) (image : Nat → Block) :
    applyWrites (ws ++ ws') image = applyWrites ws' (applyWrites ws image) :=
  foldl_append

namespace Disk

/-- What the dirty entries have for the device, by sector address, lies in `A`. -/
def DirtyIn (A : Nat → Block → Prop) (d : Disk) : Prop :=
  ∀ e ∈ d.cache.entries, e.valid = true → e.dirty = true → A (lbaOf e.blockNum) e.data

structure Traced (A : Nat → Block → Prop) (d d' : Disk) : Prop where
  dirty : DirtyIn A d'
  sectorCount : d'.dev.sectorCount = d.dev.sectorCount
  faults : d'.dev.faults = d.dev.faults
  log : ∃ ws, d'.dev.log = d.dev.log ++ ws ∧ d'.dev.blocks = applyWrites ws d.dev.blocks ∧
    ∀ w ∈ ws, A w.lba w.data ∧ w.lba + sectorsPerBlock ≤ d.dev.sectorCount

namespace Traced

variable {A : Nat → Block → Prop} {d d' d'' : Disk}

theorem refl (h : DirtyIn A d) : Traced A d d :=
  ⟨h, rfl, rfl, [], by simp, rfl, by simp⟩

theorem trans (h : Traced A d d') (h' : Traced A d' d'') : Traced A d d'' := by
  obtain ⟨ws, hlog, himg, hws⟩ := h.log
  obtain ⟨ws', hlog', himg', hws'⟩ := h'.log
  refine ⟨h'.dirty, h'.sectorCount.trans h.sectorCount, h'.faults.trans h.faults, ws ++ ws',
    ?_, ?_, ?_⟩
  · rw [hlog', hlog, append_assoc]
  · rw [himg', himg, applyWrites_append]
  · intro w hw
    rcases mem_append.mp hw with hmem | hmem
    · exact hws w hmem
    · rw [← h.sectorCount]
      exact hws' w hmem

end Traced

/-- The preorder of programs that write what `A` allows only. -/
def tracedFrame (A : Nat → Block → Prop) : Frame Disk where
  rel d d' := DirtyIn A d → Traced A d d'
  refl _ := Traced.refl
  trans h h' hd := (h hd).trans (h' (h hd).dirty)

section

variable {A : Nat → Block → Prop}

theorem traced_set {d : Disk} {c : BlockCache} {idx : Nat} (e' : CacheEntry)
    (hset : c.entries = d.cache.entries.set idx e')
    (he : e'.valid = true → e'.dirty = true → A (lbaOf e'.blockNum) e'.data) :
    (tracedFrame A).rel d { d with cache := c } := by
  intro hd
  refine ⟨?_, rfl, rfl, [], by simp, rfl, by simp⟩
  intro e hmem hv hdirty
  simp only [hset] at hmem
  rcases mem_or_eq_of_mem_set hmem with hold | rfl
  · exact hd e hold hv hdirty
  · exact he hv hdirty

theorem traced_writeSectors {d : Disk} {lba : Nat} (x : Block) (h : A lba x) :
    (tracedFrame A).rel d { d with dev := (d.dev.writeSectors lba x).2 } := by
  intro hd
  rcases d.dev.writeSectors_cases lba x with ⟨-, hdev⟩ | ⟨hfit, n, -, hdev, -⟩
  · rw [hdev]
    exact Traced.refl hd
  rw [hdev]
  refine ⟨hd, rfl, rfl, [⟨lba, n, x⟩], rfl, rfl, ?_⟩
  intro w hw
  obtain rfl := mem_singleton.mp hw
  exact ⟨h, hfit⟩

theorem dirtyIn_entry {d : Disk} (hd : DirtyIn A d) {idx : Nat}
    (hv : (d.cache.entry idx).valid = true) (hdirty : (d.cache.entry idx).dirty = true) :
    A (lbaOf (d.cache.entry idx).blockNum) (d.cache.entry idx).data :=
  hd _ (mem_of_getElem? (entry_getElem? (entry_valid_lt hv))) hv hdirty

theorem writeBack_traced {d : Disk} {idx : Nat}
    (h : A (lbaOf (d.cache.entry idx).blockNum) (d.cache.entry idx).data) :
    wp (writeBack idx) (fun _ d' => (tracedFrame A).rel d d')
      (fun _ d' => (tracedFrame A).rel d d') d := by
  simp only [writeBack, wp_bind, wp_get, wp_set, wp_liftResult, wp_modifyCache]
  have hdev := traced_writeSectors (d := d) (d.cache.entry idx).data h
  refine ⟨fun _ _ => (tracedFrame A).trans hdev ?_, fun _ _ => hdev⟩
  exact traced_set { d.cache.entry idx with dirty := false } rfl (by simp)

theorem evict_traced (idx : Nat) : ∀ d : Disk, (d.cache.entry idx).valid = true →
    wp (evict idx) (fun _ d' => (tracedFrame A).rel d d')
      (fun _ d' => (tracedFrame A).rel d d') d := by
  intro d hv
  simp only [evict, wp_bind, wp_get, wp_modifyCache]
  have hdrop : ∀ d₁ : Disk, (tracedFrame A).rel d₁
      { d₁ with
        cache := d₁.cache.modifyEntry idx fun e => { e with dirty := false, valid := false } } :=
    fun d₁ => traced_set { d₁.cache.entry idx with dirty := false, valid := false } rfl (by simp)
  rw [wp_ite]
  constructor
  · intro hdirty
    -- the hypothesis of the frame is needed to know the victim's address
    by_cases hin : A (lbaOf (d.cache.entry idx).blockNum) (d.cache.entry idx).data
    · exact wp_conseq (writeBack_traced hin)
        (fun _ d' h => (tracedFrame A).trans h (hdrop d')) fun _ _ h => h
    · have hno : ¬ DirtyIn A d := fun hd => hin (dirtyIn_entry hd hv hdirty)
      exact wp_of_forall (fun _ _ hd => absurd hd hno) fun _ _ hd => absurd hd hno
  · intro _
    exact hdrop d

theorem allocateEntry_traced : Preserves (tracedFrame A) allocateEntry := by
  intro d
  simp only [allocateEntry, wp_bind, wp_get]
  split
  · exact (tracedFrame A).refl d
  rename_i hnone
  rw [wp_bind]
  by_cases hlt : d.cache.lruVictim < d.cache.entries.length
  · have hv : (d.cache.entry d.cache.lruVictim).valid = true := by
      have := position_eq_none hnone _
        (mem_of_getElem? (entry_getElem? hlt))
      simpa using this
    exact evict_traced _ d hv
  · -- an empty cache has no victim, and dropping one that is not there does nothing
    have hnil : d.cache.entries = [] := by
      by_contra hne
      exact hlt (lruVictim_lt (length_pos_iff.mpr hne))
    have hentry : (d.cache.entry d.cache.lruVictim).dirty = false := by
      simp [entry, hnil, CacheEntry.new]
    simp only [evict, wp_bind, wp_get, wp_modifyCache, hentry]
    exact traced_set _ rfl (by simp)

theorem fillEntry_traced (idx b : Nat) (d : Disk) (hfree : (d.cache.entry idx).valid = false) :
    wp (fillEntry idx b) (fun _ d' => (tracedFrame A).rel d d' ∧ (d'.cache.entry idx).valid = false)
      (fun _ d' => (tracedFrame A).rel d d') d := by
  obtain ⟨⟨t, hdev⟩, -⟩ := d.dev.readSectors_cases (lbaOf b) (d.cache.entry idx).data
  generalize hres : d.dev.readSectors (lbaOf b) (d.cache.entry idx).data = res at hdev
  obtain ⟨r, x, dev'⟩ := res
  subst hdev
  simp only [fillEntry, wp_bind, wp_get, wp_set, wp_liftResult, hres]
  have hrel : (tracedFrame A).rel d
      { d with
        cache := d.cache.modifyEntry idx fun e => { e with data := x }
        dev := { d.dev with ticks := t } } := by
    intro hd
    have h := traced_set (A := A) (d := d)
      (c := d.cache.modifyEntry idx fun e => { e with data := x })
      { d.cache.entry idx with data := x } rfl (by simp [hfree]) hd
    exact ⟨h.dirty, rfl, rfl, [], by simp, rfl, by simp⟩
  refine ⟨fun _ _ => ⟨hrel, ?_⟩, fun _ _ => hrel⟩
  by_cases hidx : idx < d.cache.entries.length
  · simpa [entry, modifyEntry, hidx] using hfree
  · simp [entry, modifyEntry, hidx, CacheEntry.new]

theorem allocateEntry_free (d : Disk) :
    wp allocateEntry (fun idx d' => (d'.cache.entry idx).valid = false) (fun _ _ => True) d := by
  simp only [allocateEntry, wp_bind, wp_get]
  split
  · rename_i idx hfind
    obtain ⟨k, rfl, e, he, hinv⟩ := position_eq_some hfind
    rw [zero_add]
    simpa [entry, he] using hinv
  · rw [wp_bind]
    generalize d.cache.lruVictim = idx
    simp only [evict, wp_bind, wp_get, wp_modifyCache]
    refine wp_of_forall (fun _ d' => ?_) fun _ _ => trivial
    by_cases hidx : idx < d'.cache.entries.length
    · simp [entry, modifyEntry, hidx]
    · simp [entry, modifyEntry, hidx, CacheEntry.new]

theorem read_traced (b : Nat) : Preserves (tracedFrame A) (read b) := by
  intro d
  simp only [read, wp_bind, wp_get]
  split
  · rename_i idx hfind
    intro hd
    refine traced_set { d.cache.entry idx with lruCounter := (d.cache.counter + 1) % u64Size }
      rfl ?_ hd
    exact fun hv hdirty => dirtyIn_entry hd hv hdirty
  · simp only [wp_bind]
    refine wp_conseq (wp_and (allocateEntry_traced (A := A) d) (allocateEntry_free d)) ?_
      fun _ _ h => h.1
    intro idx d₁ h₁
    refine wp_conseq (fillEntry_traced (A := A) idx b d₁ h₁.2) ?_
      fun _ _ h => (tracedFrame A).trans h₁.1 h
    intro _ d₂ h₂
    refine (tracedFrame A).trans ((tracedFrame A).trans h₁.1 h₂.1) ?_
    exact traced_set _ rfl (by simp)

theorem write_traced {b : Nat} {x : Block} (h : A (lbaOf b) x) :
    Preserves (tracedFrame A) (write b x) := by
  have hinstall : ∀ (d : Disk) (idx : Nat), (tracedFrame A).rel d
      { d with
        cache := d.cache.touchWith idx fun e =>
          { e with data := x, blockNum := b, valid := true, dirty := true } } :=
    fun d idx => traced_set _ rfl fun _ _ => h
  intro d
  simp only [write, wp_bind, wp_get, wp_modifyCache]
  split
  · rename_i idx hfind
    exact hinstall d idx
  · refine wp_conseq (allocateEntry_traced (A := A) d) ?_ fun _ _ h' => h'
    intro idx d₁ h₁
    exact (tracedFrame A).trans h₁ (hinstall d₁ idx)

theorem writeBack_entries (d : Disk) (idx : Nat) :
    wp (writeBack idx) (fun _ d' => d'.cache.entries.length = d.cache.entries.length ∧
        ∀ i, i ≠ idx → d'.cache.entry i = d.cache.entry i) (fun _ d' => d'.cache = d.cache) d := by
  simp only [writeBack, wp_bind, wp_get, wp_set, wp_liftResult, wp_modifyCache]
  refine ⟨fun _ _ => ⟨by simp [modifyEntry], fun i hi => ?_⟩, fun _ _ => trivial⟩
  simp [entry, modifyEntry, getElem?_set_ne (Ne.symm hi)]

theorem flush_traced : Preserves (tracedFrame A) flush := by
  intro d
  by_cases hd : DirtyIn A d
  · simp only [flush, wp_bind, wp_get]
    have hloop := wp_flushLoop (d := d) (J := fun _ _ d' => Traced A d d') (Traced.refl hd)
      (by
        intro k acc d' htr
        unfold flushEntry
        rw [wp_ite]
        constructor
        · intro hvd
          obtain ⟨hv, hdirty⟩ := Bool.and_eq_true_iff.mp hvd
          have hin := dirtyIn_entry htr.dirty hv hdirty
          rw [wp_bind, wp_attempt]
          refine wp_conseq (wp_and (writeBack_traced hin) (writeBack_entries d' k)) ?_ ?_
          · intro _ d'' hpost
            exact ⟨htr.trans (hpost.1 htr.dirty), hpost.2⟩
          · intro _ d'' hpost
            exact ⟨htr.trans (hpost.1 htr.dirty), by rw [hpost.2], fun i _ => by rw [hpost.2]⟩
        · intro _
          exact ⟨htr, rfl, fun _ _ => rfl⟩)
    refine wp_conseq hloop ?_ fun _ _ h => h.elim
    intro r d' hpost
    obtain ⟨_, _, htr⟩ := hpost
    cases r with
    | none => exact fun _ => htr
    | some e => exact fun _ => htr
  · exact wp_of_forall (fun _ _ h => absurd h hd) fun _ _ h => absurd h hd

end

/-! ## Steps -/

/-- `d'` is what a program that writes blocks in `W` only leaves of `d`. -/
structure Step (W : Nat → Prop) (d d' : Disk) : Prop where
  coherent : d'.Coherent
  view : ∀ b, ¬W b → d'.view b = d.view b
  trace : ∀ A : Nat → Block → Prop, (∀ b, W b → ∀ x, A (sectorsPerBlock * b) x) →
    DirtyIn A d → Traced A d d'

abbrev Still : Disk → Disk → Prop := Step fun _ => False

namespace Step

variable {W W' : Nat → Prop} {d d' d'' : Disk}

theorem refl (hd : d.Coherent) : Step W d d :=
  ⟨hd, fun _ _ => rfl, fun _ _ h => Traced.refl h⟩

theorem trans (h : Step W d d') (h' : Step W d' d'') : Step W d d'' where
  coherent := h'.coherent
  view b hb := (h'.view b hb).trans (h.view b hb)
  trace A hA hd := (h.trace A hA hd).trans (h'.trace A hA (h.trace A hA hd).dirty)

theorem mono (h : Step W d d') (hW : ∀ b, W b → W' b) : Step W' d d' where
  coherent := h.coherent
  view b hb := h.view b fun hw => hb (hW b hw)
  trace A hA := h.trace A fun b hb => hA b (hW b hb)

theorem of_still (h : Still d d') : Step W d d' := h.mono fun _ h => h.elim

theorem sectorCount (h : Step W d d') : d'.dev.sectorCount = d.dev.sectorCount :=
  (h.trace (fun _ _ => True) (fun _ _ _ => trivial) fun _ _ _ _ => trivial).sectorCount

theorem faults (h : Step W d d') : d'.dev.faults = d.dev.faults :=
  (h.trace (fun _ _ => True) (fun _ _ _ => trivial) fun _ _ _ _ => trivial).faults

theorem blockCount (h : Step W d d') : d'.dev.blockCount = d.dev.blockCount := by
  rw [Device.blockCount, h.sectorCount]
  rfl

end Step

variable {d : Disk}

theorem Still.refl (hd : d.Coherent) : Still d d := Step.refl hd

theorem Still.view_eq {d d' : Disk} (h : Still d d') (b : Nat) : d'.view b = d.view b :=
  Step.view h b fun hf => hf

def Clean (d : Disk) : Prop := DirtyIn (fun _ _ => False) d

theorem Clean.of_lookup (hd : d.Coherent) (h : ∀ b x, d.cache.lookup b ≠ some (x, true)) :
    d.Clean := by
  intro e he hv hdirty
  obtain ⟨idx, hidx, rfl⟩ := mem_iff_getElem.mp he
  refine h _ _ ((lookup_eq_some hd.unique).mpr
    ⟨idx, _, getElem?_eq_getElem hidx, hv, rfl, rfl, hdirty⟩)

theorem Clean.dev_eq_view (hc : d.Clean) (hd : d.Coherent) (b : Nat) :
    d.dev.blocks b = d.view b := by
  refine hd.dev_eq_view fun x hx => ?_
  obtain ⟨i, e, hi, hv, -, -, hdirty⟩ := (lookup_eq_some hd.unique).mp hx
  exact hc e (mem_of_getElem? hi) hv hdirty

theorem Step.of_same {d d' : Disk} (hsame : Same d d')
    (htr : ∀ A, (tracedFrame A).rel d d') : Still d d' :=
  ⟨hsame.1, fun b _ => hsame.2 b, fun A _ => htr A⟩

theorem read_step (hd : d.Coherent) {b : Nat} (hb : b < blockLimit) :
    wp (read b) (fun x d' => x = d.view b ∧ Still d d') (fun _ d' => Still d d') d :=
  wp_conseq (wp_and (read_spec hd hb) (wp_forall fun A => read_traced (A := A) b d))
    (fun _ _ h => ⟨h.1.1, Step.of_same h.1.2 h.2⟩) fun _ _ h => Step.of_same h.1 h.2

theorem flush_step (hd : d.Coherent) :
    wp flush (fun _ d' => Still d d' ∧ d'.Clean) (fun _ d' => Still d d') d := by
  refine wp_conseq (wp_and (flush_spec hd) (wp_forall fun A => flush_traced (A := A) d)) ?_
    fun _ _ h => Step.of_same h.1 h.2
  intro _ d' h
  exact ⟨Step.of_same h.1.1 h.2, Clean.of_lookup h.1.1.1 h.1.2⟩

theorem flush_clean (hc : d.Clean) :
    wp flush (fun _ d' => d' = d) (fun _ _ => False) d := by
  simp only [flush, wp_bind, wp_get]
  have hloop := wp_flushLoop (d := d) (J := fun _ acc d' => acc = none ∧ d' = d) ⟨rfl, rfl⟩
    (by
      intro k acc d' hJ
      obtain ⟨rfl, rfl⟩ := hJ
      have hskip : ((d'.cache.entry k).valid && (d'.cache.entry k).dirty) = false := by
        by_cases hk : k < d'.cache.entries.length
        · have hmem := mem_of_getElem? (entry_getElem? hk)
          by_contra hne
          obtain ⟨hv, hdirty⟩ := Bool.and_eq_true_iff.mp (Bool.not_eq_false _ ▸ hne)
          exact hc _ hmem hv hdirty
        · simp [entry, hk, CacheEntry.new]
      rw [flushEntry, hskip]
      exact ⟨⟨rfl, rfl⟩, rfl, fun _ _ => rfl⟩)
  refine wp_post hloop ?_
  intro r d' hpost
  obtain ⟨_, _, rfl, rfl⟩ := hpost
  rfl

theorem write_step (hd : d.Coherent) {b : Nat} (hb : b < blockLimit) (x : Block) :
    wp (write b x) (fun _ d' => Step (· = b) d d' ∧ d'.view b = x)
      (fun _ d' => Step (· = b) d d' ∧ ∀ b', d'.view b' = d.view b') d := by
  have htr := wp_forall fun A : {A : Nat → Block → Prop // A (lbaOf b) x} => write_traced A.2 d
  have hin : ∀ A : Nat → Block → Prop, (∀ b', b' = b → ∀ y, A (sectorsPerBlock * b') y) →
      A (lbaOf b) x := by
    intro A hA
    rw [lbaOf_of_lt hb]
    exact hA b rfl x
  refine wp_conseq (wp_and (write_spec hd hb x) htr) ?_ ?_
  · intro _ d' hpost
    obtain ⟨⟨hcoh, hview⟩, htr'⟩ := hpost
    refine ⟨⟨hcoh, fun b' hb' => ?_, fun A hA => htr' ⟨A, hin A hA⟩⟩, ?_⟩
    · rw [hview, if_neg hb']
    · rw [hview, if_pos rfl]
  · intro _ d' hpost
    obtain ⟨⟨hcoh, hview⟩, htr'⟩ := hpost
    exact ⟨⟨hcoh, fun b' _ => hview b', fun A hA => htr' ⟨A, hin A hA⟩⟩, hview⟩

/-! ## Reading through a clean cache

`mount` only reads, so its cache has no dirty entries and an eviction makes no
transfer.  A read can then fail only when its own transfer does. -/

theorem fresh_clean (dev : Device) : (fresh dev).Clean := by
  intro e he hv _
  rw [eq_of_mem_replicate he] at hv
  exact absurd hv (by simp [CacheEntry.new])

structure Peek (d d' : Disk) : Prop where
  still : Still d d'
  clean : d'.Clean
  ticks : d.dev.ticks ≤ d'.dev.ticks

theorem Peek.refl (hd : d.Coherent) (hc : d.Clean) : Peek d d :=
  ⟨Still.refl hd, hc, le_refl _⟩

theorem Peek.trans {d d' d'' : Disk} (h : Peek d d') (h' : Peek d' d'') : Peek d d'' :=
  ⟨Step.trans h.still h'.still, h'.clean, h.ticks.trans h'.ticks⟩

def Failed (d d' : Disk) : Prop :=
  ∃ t, d.dev.ticks ≤ t ∧ t < d'.dev.ticks ∧ d.dev.faults t ≠ none

theorem Failed.mono {d₁ d₂ d₃ d₄ : Disk} (h : Failed d₂ d₃) (h₁ : Peek d₁ d₂) (h₂ : Peek d₃ d₄) :
    Failed d₁ d₄ := by
  obtain ⟨t, hle, hlt, hf⟩ := h
  refine ⟨t, h₁.ticks.trans hle, lt_of_lt_of_le hlt h₂.ticks, ?_⟩
  rw [← h₁.still.faults]
  exact hf

theorem allocateEntry_clean (hc : d.Clean) :
    wp allocateEntry (fun _ d' => d'.dev = d.dev) (fun _ _ => False) d := by
  simp only [allocateEntry, wp_bind, wp_get]
  split
  · rfl
  rename_i hnone
  have hdirty : (d.cache.entry d.cache.lruVictim).dirty = false := by
    by_cases hlt : d.cache.lruVictim < d.cache.entries.length
    · have hmem := mem_of_getElem? (entry_getElem? hlt)
      have hv := position_eq_none hnone _ hmem
      by_contra hd
      exact hc _ hmem (by simpa using hv) (by simpa using hd)
    · simp [entry, hlt, CacheEntry.new]
  rw [wp_bind]
  simp [evict, hdirty]

theorem read_peek (hd : d.Coherent) (hc : d.Clean) {b : Nat} (hb : b < d.dev.blockCount) :
    wp (read b) (fun x d' => x = d.view b ∧ Peek d d') (fun _ d' => Peek d d' ∧ Failed d d') d := by
  have hlim : b < blockLimit := by
    have := d.dev.sectorCount_lt
    simp only [Device.blockCount, sectorsPerBlock, blockLimit, u64Size] at *
    omega
  have hin : lbaOf b + sectorsPerBlock ≤ d.dev.sectorCount := by
    rw [lbaOf_of_lt hlim]
    simp only [Device.blockCount, sectorsPerBlock] at *
    omega
  -- the transfers: none on a hit, and one on a miss
  have hticks : wp (read b) (fun _ d' => d.dev.ticks ≤ d'.dev.ticks)
      (fun _ d' => d.dev.ticks ≤ d'.dev.ticks ∧ Failed d d') d := by
    simp only [read, wp_bind, wp_get]
    split
    · exact le_refl _
    rw [wp_bind]
    refine wp_conseq (allocateEntry_clean hc) ?_ fun _ _ h => h.elim
    intro idx d₁ hdev
    simp only [wp_bind, fillEntry, wp_get, wp_set, wp_liftResult, wp_modifyCache, wp_pure,
      Device.readSectors, hdev, if_pos hin]
    cases hf : d.dev.faults d.dev.ticks with
    | none => exact ⟨fun _ _ => Nat.le_succ _, by rintro _ ⟨⟩⟩
    | some f =>
      refine ⟨by rintro _ ⟨⟩, fun _ _ => ⟨Nat.le_succ _, d.dev.ticks, le_refl _,
        Nat.lt_succ_self _, ?_⟩⟩
      rw [hf]
      simp
  have hclean : ∀ {d' : Disk}, Still d d' → d'.Clean := fun h =>
    (h.trace (fun _ _ => False) (fun _ hf _ => hf) hc).dirty
  refine wp_conseq (wp_and (read_step hd hlim) hticks) ?_ ?_
  · intro x d' hpost
    exact ⟨hpost.1.1, hpost.1.2, hclean hpost.1.2, hpost.2⟩
  · intro _ d' hpost
    exact ⟨⟨hpost.1, hclean hpost.1, hpost.2.1⟩, hpost.2.2⟩

end Disk

end Thumos
