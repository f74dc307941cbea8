import Thumos.Storage.Cache

/-!
# The cache refines a flat block store

`Disk.view d b` is the logical content of block `b`: the cached copy when
there is one, the device's own copy otherwise.  `Coherent` is the invariant
that makes this a sensible notion: no block is cached twice, and a clean
copy agrees with the device.

Reads, failed calls and flushes keep the logical content of every block,
and a successful write changes one block.  This holds for every failure
pattern of the device.

The sector address of a block is computed modulo `2 ^ 64`, so both the
invariant and the refinement are about block numbers below `blockLimit`.
-/

namespace Thumos

open StateExcept BlockCache List Nat

/-- Block numbers from here on have a sector address that wraps. -/
abbrev blockLimit : Nat := 2 ^ 61

variable {b : Nat}

theorem lbaOf_of_lt (h : b < blockLimit) : lbaOf b = sectorsPerBlock * b := by
  unfold lbaOf
  have hlt : b * sectorsPerBlock < u64Size := by
    simp only [blockLimit, sectorsPerBlock, u64Size] at h ⊢
    omega
  rw [mod_eq_of_lt hlt, mul_comm]

/-! ## What one transfer does to the device -/

namespace Device

theorem blocks_commit_other (d : Device) {w : SectorWrite} (hb : b ≠ w.block) :
    (d.commit w).blocks b = d.blocks b := by
  simp [commit, SectorWrite.apply, hb]

theorem blocks_commit_self (d : Device) {lba b : Nat} (x : Block) (hb : lba = sectorsPerBlock * b) :
    (d.commit ⟨lba, sectorsPerBlock, x⟩).blocks b = x := by
  have hb' : b = (SectorWrite.mk lba sectorsPerBlock x).block := by
    rw [SectorWrite.block, hb, Nat.mul_div_cancel_left b (by decide)]
  simp [commit, SectorWrite.apply, ← hb', Block.torn_full]

theorem writeSectors_cases (d : Device) (lba : Nat) (x : Block) :
    ((d.writeSectors lba x).1 = .error .outOfBounds ∧ (d.writeSectors lba x).2 = d) ∨
      (lba + sectorsPerBlock ≤ d.sectorCount ∧ ∃ n ≤ sectorsPerBlock,
        (d.writeSectors lba x).2 = d.commit ⟨lba, n, x⟩ ∧
        ((d.writeSectors lba x).1 = .ok () → n = sectorsPerBlock)) := by
  unfold writeSectors
  split
  · rename_i hfit
    right
    refine ⟨hfit, ?_⟩
    cases hf : d.faults d.ticks with
    | none => exact ⟨sectorsPerBlock, le_refl _, rfl, fun _ => rfl⟩
    | some f => exact ⟨min f.sectors sectorsPerBlock, min_le_right _ _, rfl, by simp⟩
  · left
    exact ⟨rfl, rfl⟩

theorem readSectors_cases (d : Device) (lba : Nat) (buf : Block) :
    (∃ t, (d.readSectors lba buf).2.2 = { d with ticks := t }) ∧
      ((d.readSectors lba buf).1 = .ok () →
        (d.readSectors lba buf).2.1 = d.blocks (lba / sectorsPerBlock)) := by
  unfold readSectors
  split
  · cases hf : d.faults d.ticks with
    | none => exact ⟨⟨d.ticks + 1, rfl⟩, fun _ => rfl⟩
    | some f => exact ⟨⟨d.ticks + 1, rfl⟩, by simp⟩
  · exact ⟨⟨d.ticks, rfl⟩, by simp⟩

end Device

/-! ## The content of the cache -/

namespace BlockCache

def Unique (c : BlockCache) : Prop :=
  ∀ (i j : Nat) (e e' : CacheEntry), c.entries[i]? = some e → c.entries[j]? = some e' →
    e.valid = true → e'.valid = true → e.blockNum = e'.blockNum → i = j

/-- What the cache holds for block `b`: the data, and whether it is dirty. -/
def lookup (c : BlockCache) (b : Nat) : Option (Block × Bool) :=
  (c.entries.find? fun e => e.valid && e.blockNum == b).map fun e => (e.data, e.dirty)

theorem entry_getElem? {c : BlockCache} {idx : Nat} (h : idx < c.entries.length) :
    c.entries[idx]? = some (c.entry idx) := by
  simp [entry, h]

theorem lookup_eq_none {c : BlockCache} :
    c.lookup b = none ↔
      ∀ (i : Nat) (e : CacheEntry), c.entries[i]? = some e → e.valid = true → e.blockNum ≠ b := by
  simp only [lookup, Option.map_eq_none_iff, find?_eq_none, mem_iff_getElem?,
    Bool.and_eq_true, beq_iff_eq, not_and, forall_exists_index]
  constructor
  · intro h i e he
    exact h e i he
  · intro h e i he
    exact h i e he

theorem lookup_eq_some {c : BlockCache} (hu : c.Unique) {x : Block} {dt : Bool} :
    c.lookup b = some (x, dt) ↔
      ∃ (i : Nat) (e : CacheEntry), c.entries[i]? = some e ∧ e.valid = true ∧ e.blockNum = b ∧
        e.data = x ∧ e.dirty = dt := by
  simp only [lookup, Option.map_eq_some_iff, Prod.mk.injEq]
  constructor
  · rintro ⟨e, hfind, hx, hdt⟩
    obtain ⟨i, hi⟩ := mem_iff_getElem?.mp (mem_of_find?_eq_some hfind)
    have hp := find?_some hfind
    simp only [Bool.and_eq_true, beq_iff_eq] at hp
    exact ⟨i, e, hi, hp.1, hp.2, hx, hdt⟩
  · rintro ⟨i, e, hi, hv, hb, hx, hdt⟩
    cases hfind : c.entries.find? (fun e => e.valid && e.blockNum == b) with
    | none =>
      have := find?_eq_none.mp hfind e (mem_of_getElem? hi)
      simp [hv, hb] at this
    | some e' =>
      obtain ⟨j, hj⟩ := mem_iff_getElem?.mp (mem_of_find?_eq_some hfind)
      have hp := find?_some hfind
      simp only [Bool.and_eq_true, beq_iff_eq] at hp
      have hij : i = j := hu i j e e' hi hj hv hp.1 (hb.trans hp.2.symm)
      subst hij
      have hee : e = e' := by simpa [hi] using hj
      subst hee
      exact ⟨e, rfl, hx, hdt⟩

section

variable {c c' : BlockCache} (hu : c.Unique) {idx : Nat} {e' : CacheEntry}
  (hset : c'.entries = c.entries.set idx e')

include hu hset

theorem Unique.set (hnew : e'.valid = true →
      ∀ (j : Nat) (e : CacheEntry), c.entries[j]? = some e → e.valid = true →
        e.blockNum = e'.blockNum → j = idx) : c'.Unique := by
  intro i j e₁ e₂ hi hj hv₁ hv₂ hb
  rw [hset, getElem?_set] at hi hj
  split at hi
  · rename_i hidx
    split at hj
    · omega
    split at hi
    · cases hi
      have := hnew hv₁ j e₂ hj hv₂ hb.symm
      omega
    · contradiction
  · split at hj
    · split at hj
      · cases hj
        have := hnew hv₂ i e₁ hi hv₁ hb
        omega
      · contradiction
    · exact hu i j e₁ e₂ hi hj hv₁ hv₂ hb

theorem lookup_set (hidx : idx < c.entries.length) (hnew : e'.valid = true →
      ∀ (j : Nat) (e : CacheEntry), c.entries[j]? = some e → e.valid = true →
        e.blockNum = e'.blockNum → j = idx) (b : Nat) :
    c'.lookup b =
      if e'.valid = true ∧ e'.blockNum = b then some (e'.data, e'.dirty)
      else if (c.entry idx).valid = true ∧ (c.entry idx).blockNum = b then none
      else c.lookup b := by
  have hu' : c'.Unique := hu.set hset hnew
  have hold : c.entries[idx]? = some (c.entry idx) := entry_getElem? hidx
  split
  · rename_i h
    refine (lookup_eq_some hu').mpr ⟨idx, e', ?_, h.1, h.2, rfl, rfl⟩
    rw [hset, getElem?_set_self hidx]
  rename_i hne
  -- no entry of the new cache at `idx` is about `b`
  have hother : ∀ (i : Nat) (e : CacheEntry), c'.entries[i]? = some e → e.valid = true →
      e.blockNum = b → i ≠ idx ∧ c.entries[i]? = some e := by
    intro i e hi hv hb
    rw [hset, getElem?_set] at hi
    split at hi
    · cases hi
      exact absurd ⟨hv, hb⟩ hne
    · exact ⟨fun h => by omega, hi⟩
  split
  · rename_i h
    rw [lookup_eq_none]
    intro i e hi hv hb
    obtain ⟨hii, hi'⟩ := hother i e hi hv hb
    exact hii (hu i idx e _ hi' hold hv h.1 (hb.trans h.2.symm))
  · rename_i hold'
    cases hlook : c.lookup b with
    | none =>
      rw [lookup_eq_none] at hlook ⊢
      intro i e hi hv hb
      exact hlook i e (hother i e hi hv hb).2 hv hb
    | some p =>
      obtain ⟨i, e, hi, hv, hb, hx, hdt⟩ := (lookup_eq_some hu).mp hlook
      refine (lookup_eq_some hu').mpr ⟨i, e, ?_, hv, hb, hx, hdt⟩
      rw [hset, getElem?_set_ne, hi]
      rintro rfl
      rw [hold] at hi
      cases hi
      exact hold' ⟨hv, hb⟩

end

end BlockCache

/-! ## The invariant and the logical content -/

namespace Disk

def view (d : Disk) (b : Nat) : Block :=
  match d.cache.lookup b with
  | some (x, _) => x
  | none => d.dev.blocks b

structure Coherent (d : Disk) : Prop where
  nonempty : 0 < d.cache.entries.length
  unique : d.cache.Unique
  clean : ∀ {b x}, d.cache.lookup b = some (x, false) → d.dev.blocks b = x
  inRange : ∀ {b p}, d.cache.lookup b = some p → b < blockLimit

variable {d : Disk} {idx : Nat} {c : BlockCache}

theorem view_of_lookup {x : Block} {dt : Bool} (h : d.cache.lookup b = some (x, dt)) :
    d.view b = x := by
  simp [view, h]

theorem view_of_not_cached (h : d.cache.lookup b = none) :
    d.view b = d.dev.blocks b := by
  simp [view, h]

theorem Coherent.dev_eq_view (hd : d.Coherent) (h : ∀ x, d.cache.lookup b ≠ some (x, true)) :
    d.dev.blocks b = d.view b := by
  cases hl : d.cache.lookup b with
  | none => rw [view_of_not_cached hl]
  | some p =>
    obtain ⟨x, dt⟩ := p
    cases dt with
    | true => exact absurd hl (h x)
    | false => rw [view_of_lookup hl, hd.clean hl]

theorem Coherent.lookup_entry (hd : d.Coherent) (hidx : idx < d.cache.entries.length)
    (hv : (d.cache.entry idx).valid = true) :
    d.cache.lookup (d.cache.entry idx).blockNum =
      some ((d.cache.entry idx).data, (d.cache.entry idx).dirty) :=
  (lookup_eq_some hd.unique).mpr
    ⟨idx, _, entry_getElem? hidx, hv, rfl, rfl, rfl⟩

/-- `d'` is `d` with entry `idx` replaced by `e`, and with a device that may
differ in the block of `e` only.  Every step of the cache is one of these. -/
structure Replace (d d' : Disk) (idx : Nat) (e : CacheEntry) : Prop where
  set : d'.cache.entries = d.cache.entries.set idx e
  lt : idx < d.cache.entries.length
  fresh : e.valid = true →
    ((d.cache.entry idx).valid = true ∧ (d.cache.entry idx).blockNum = e.blockNum) ∨
      d.cache.lookup e.blockNum = none
  inRange : e.valid = true → e.blockNum < blockLimit
  clean : e.valid = true → e.dirty = false → d'.dev.blocks e.blockNum = e.data
  dev : ∀ b, d'.dev.blocks b = d.dev.blocks b ∨ (e.valid = true ∧ e.blockNum = b)

namespace Replace

variable {d d' : Disk} {idx : Nat} {e : CacheEntry}

section

variable (h : Replace d d' idx e) (hd : d.Coherent)

include h hd

theorem only (hv : e.valid = true) (j : Nat)
    (e' : CacheEntry) (hj : d.cache.entries[j]? = some e') (hv' : e'.valid = true)
    (hb : e'.blockNum = e.blockNum) : j = idx := by
  rcases h.fresh hv with ⟨hov, hob⟩ | hnone
  · exact hd.unique j idx e' _ hj (entry_getElem? h.lt) hv' hov (hb.trans hob.symm)
  · exact absurd hb (lookup_eq_none.mp hnone j e' hj hv')

theorem lookup (b : Nat) :
    d'.cache.lookup b =
      if e.valid = true ∧ e.blockNum = b then some (e.data, e.dirty)
      else if (d.cache.entry idx).valid = true ∧ (d.cache.entry idx).blockNum = b then none
      else d.cache.lookup b :=
  lookup_set hd.unique h.set h.lt (h.only hd) b

theorem coherent : d'.Coherent where
  nonempty := by
    rw [h.set, length_set]
    exact hd.nonempty
  unique := hd.unique.set h.set (h.only hd)
  clean := by
    intro b x hl
    rw [h.lookup hd] at hl
    split at hl
    · rename_i hb
      obtain ⟨rfl, hdt⟩ := Prod.mk.inj (Option.some.inj hl)
      rw [← hb.2]
      exact h.clean hb.1 hdt
    · rename_i hb
      split at hl
      · contradiction
      · rcases h.dev b with heq | hb'
        · rw [heq, hd.clean hl]
        · exact absurd hb' hb
  inRange := by
    intro b p hl
    rw [h.lookup hd] at hl
    split at hl
    · rename_i hb
      rw [← hb.2]
      exact h.inRange hb.1
    · split at hl
      · contradiction
      · exact hd.inRange hl

theorem view (b : Nat) :
    d'.view b =
      if e.valid = true ∧ e.blockNum = b then e.data
      else if (d.cache.entry idx).valid = true ∧ (d.cache.entry idx).blockNum = b then
        d.dev.blocks b
      else d.view b := by
  have hdev : ¬(e.valid = true ∧ e.blockNum = b) → d'.dev.blocks b = d.dev.blocks b := fun hb =>
    (h.dev b).resolve_right hb
  have hl := h.lookup hd b
  split
  · rename_i hb
    rw [if_pos hb] at hl
    exact view_of_lookup hl
  rename_i hb
  rw [if_neg hb] at hl
  split
  · rename_i hold
    rw [if_pos hold] at hl
    rw [view_of_not_cached hl, hdev hb]
  · rename_i hold
    rw [if_neg hold] at hl
    simp only [Disk.view, hl, hdev hb]

end

end Replace

def Same (d d' : Disk) : Prop := d'.Coherent ∧ ∀ b, d'.view b = d.view b

theorem Same.trans {d₁ d₂ d₃ : Disk} (h : Same d₁ d₂) (h' : Same d₂ d₃) : Same d₁ d₃ :=
  ⟨h'.1, fun b => (h'.2 b).trans (h.2 b)⟩

theorem Replace.same {d d' : Disk} {e : CacheEntry} (h : Replace d d' idx e) (hd : d.Coherent)
    (hv : e.valid = (d.cache.entry idx).valid) (hb : e.blockNum = (d.cache.entry idx).blockNum)
    (hx : e.data = (d.cache.entry idx).data) : Same d d' := by
  refine ⟨h.coherent hd, fun b => ?_⟩
  rw [h.view hd, hv, hb, hx]
  split
  · rename_i hold
    have hl := hd.lookup_entry h.lt hold.1
    rw [hold.2] at hl
    rw [view_of_lookup hl]
  · rfl

/-! ## The operations -/

@[simp] theorem wp_modifyCache (f : BlockCache → BlockCache) (Q : Unit → Disk → Prop)
    (E : BlockError → Disk → Prop) (d : Disk) :
    wp (modifyCache f) Q E d ↔ Q () { d with cache := f d.cache } := Iff.rfl

theorem entry_valid_lt (h : (c.entry idx).valid = true) :
    idx < c.entries.length := by
  by_contra hge
  simp [entry, hge, CacheEntry.new] at h

theorem set_entry_self (idx : Nat) :
    c.entries.set idx (c.entry idx) = c.entries := by
  apply ext_getElem?
  intro j
  rw [getElem?_set]
  split
  · rename_i h
    subst h
    split
    · rename_i hlt
      rw [entry_getElem? hlt]
    · rename_i hge
      rw [getElem?_eq_none (by omega)]
  · rfl

theorem writeBack_spec (hd : d.Coherent) (hv : (d.cache.entry idx).valid = true)
    (hdirty : (d.cache.entry idx).dirty = true) :
    wp (writeBack idx) (fun _ d' => Same d d' ∧
        d'.cache.entries = d.cache.entries.set idx { d.cache.entry idx with dirty := false })
      (fun _ d' => Same d d' ∧ d'.cache = d.cache) d := by
  have hidx := entry_valid_lt hv
  have hl := hd.lookup_entry hidx hv
  have hlba : lbaOf (d.cache.entry idx).blockNum = _ := lbaOf_of_lt (hd.inRange hl)
  -- a write of this entry's block that stops after `n` sectors
  have htorn : ∀ n b,
      (d.dev.commit ⟨lbaOf (d.cache.entry idx).blockNum, n, (d.cache.entry idx).data⟩).blocks b =
        d.dev.blocks b ∨ (d.cache.entry idx).valid = true ∧ (d.cache.entry idx).blockNum = b := by
    intro n b
    by_cases hb : (d.cache.entry idx).blockNum = b
    · exact .inr ⟨hv, hb⟩
    · refine .inl (Device.blocks_commit_other _ ?_)
      rw [SectorWrite.block, hlba, Nat.mul_div_cancel_left _ (by decide)]
      exact Ne.symm hb
  simp only [writeBack, wp_bind, wp_get, wp_set, wp_liftResult, wp_modifyCache]
  constructor
  · intro _ hok
    rcases d.dev.writeSectors_cases (lbaOf (d.cache.entry idx).blockNum) (d.cache.entry idx).data
      with ⟨herr, -⟩ | ⟨-, n, -, hdev, hfull⟩
    · rw [herr] at hok
      contradiction
    · rw [hdev]
      obtain rfl := hfull hok
      have hself : (d.dev.commit ⟨lbaOf (d.cache.entry idx).blockNum, sectorsPerBlock,
          (d.cache.entry idx).data⟩).blocks (d.cache.entry idx).blockNum =
            (d.cache.entry idx).data :=
        Device.blocks_commit_self _ _ hlba
      have hrep : Replace d
          { cache := d.cache.modifyEntry idx fun e => { e with dirty := false }
            dev := d.dev.commit ⟨lbaOf (d.cache.entry idx).blockNum, sectorsPerBlock,
              (d.cache.entry idx).data⟩ } idx { d.cache.entry idx with dirty := false } :=
        ⟨rfl, hidx, fun _ => .inl ⟨hv, rfl⟩, fun _ => hd.inRange hl, fun _ _ => hself, htorn _⟩
      exact ⟨hrep.same hd rfl rfl rfl, rfl⟩
  · intro err herr
    refine ⟨?_, trivial⟩
    have hsame : ∀ dev', (∀ b, dev'.blocks b = d.dev.blocks b ∨
        (d.cache.entry idx).valid = true ∧ (d.cache.entry idx).blockNum = b) →
        Same d { d with dev := dev' } := by
      intro dev' hdev
      have hrep : Replace d { d with dev := dev' } idx (d.cache.entry idx) :=
        ⟨(set_entry_self idx).symm, hidx, fun _ => .inl ⟨hv, rfl⟩, fun _ => hd.inRange hl,
          fun _ hc => by rw [hdirty] at hc; contradiction, hdev⟩
      exact hrep.same hd rfl rfl rfl
    rcases d.dev.writeSectors_cases (lbaOf (d.cache.entry idx).blockNum) (d.cache.entry idx).data
      with ⟨-, hdev⟩ | ⟨-, n, -, hdev, -⟩
    · rw [hdev]
      exact hsame _ fun _ => .inl rfl
    · rw [hdev]
      exact hsame _ (htorn n)

theorem invalidate_same (hd : d.Coherent) (hidx : idx < d.cache.entries.length)
    (hclean : (d.cache.entry idx).dirty = false) :
    Same d { d with cache := d.cache.modifyEntry idx fun e =>
      { e with dirty := false, valid := false } } := by
  have hrep : Replace d { d with cache := d.cache.modifyEntry idx fun e =>
      { e with dirty := false, valid := false } } idx
        { d.cache.entry idx with dirty := false, valid := false } :=
    ⟨rfl, hidx, by simp, by simp, by simp, fun _ => .inl rfl⟩
  refine ⟨hrep.coherent hd, fun b => ?_⟩
  rw [hrep.view hd, if_neg (by simp)]
  split
  · rename_i hold
    have hl := hd.lookup_entry hidx hold.1
    rw [hold.2, hclean] at hl
    rw [view_of_lookup hl, hd.clean hl]
  · rfl

/-- Eviction keeps the content: the victim's data is on the device before the
entry is dropped, or the victim stays. -/
theorem evict_spec (hd : d.Coherent) (hv : (d.cache.entry idx).valid = true) :
    wp (evict idx) (fun _ d' => Same d d' ∧ d'.cache.entries =
        d.cache.entries.set idx { d.cache.entry idx with dirty := false, valid := false })
      (fun _ d' => Same d d') d := by
  have hidx := entry_valid_lt hv
  simp only [evict, wp_bind, wp_get, wp_modifyCache]
  rw [wp_ite]
  constructor
  · intro hdirty
    refine wp_conseq (writeBack_spec hd hv hdirty) ?_ fun _ _ h => h.1
    rintro _ d₁ ⟨hsame, hset⟩
    have hclean : (d₁.cache.entry idx).dirty = false := by simp [entry, hset, hidx]
    refine ⟨hsame.trans (invalidate_same hsame.1 (by simpa [hset] using hidx) hclean), ?_⟩
    simp [modifyEntry, entry, hset, hidx]
  · intro hclean
    exact ⟨invalidate_same hd hidx (by simpa using hclean), rfl⟩

theorem position_eq_some {p : CacheEntry → Bool} :
    ∀ {es : List CacheEntry} {i j : Nat}, position p es i = some j →
      ∃ k, j = i + k ∧ ∃ e, es[k]? = some e ∧ p e = true := by
  intro es
  induction es with
  | nil => intro i j h; contradiction
  | cons e es ih =>
    intro i j h
    cases hp : p e with
    | true =>
      simp only [position, hp, cond_true, Option.some.injEq] at h
      exact ⟨0, by omega, e, rfl, hp⟩
    | false =>
      simp only [position, hp, cond_false] at h
      obtain ⟨k, hk, e', he', hpe'⟩ := ih h
      exact ⟨k + 1, by omega, e', by simpa using he', hpe'⟩

theorem position_eq_none {p : CacheEntry → Bool} :
    ∀ {es : List CacheEntry} {i : Nat}, position p es i = none →
      ∀ e ∈ es, p e = false := by
  intro es
  induction es with
  | nil => intro i _ e he; contradiction
  | cons e es ih =>
    intro i h e' he'
    cases hp : p e with
    | true => simp [position, hp] at h
    | false =>
      simp only [position, hp, cond_false] at h
      rcases mem_cons.mp he' with rfl | hmem
      · exact hp
      · exact ih h e' hmem

theorem scanLru_lt {n : Nat} :
    ∀ (es : List CacheEntry) (i victim minCounter : Nat), i + es.length ≤ n → victim < n →
      scanLru es i victim minCounter < n := by
  intro es
  induction es with
  | nil => intro i victim m _ hv; exact hv
  | cons e es ih =>
    intro i victim m hlen hv
    rw [length_cons] at hlen
    unfold scanLru
    cases e.valid && blt e.lruCounter m with
    | true => exact ih (i + 1) i _ (by omega) (by omega)
    | false => exact ih (i + 1) victim m (by omega) hv

theorem lruVictim_lt (h : 0 < c.entries.length) :
    c.lruVictim < c.entries.length :=
  scanLru_lt c.entries 0 0 _ (by omega) h

theorem allocateEntry_spec (hd : d.Coherent) :
    wp allocateEntry (fun idx d' => Same d d' ∧ idx < d'.cache.entries.length ∧
        (d'.cache.entry idx).valid = false ∧
        ∀ b, d.cache.lookup b = none → d'.cache.lookup b = none) (fun _ d' => Same d d') d := by
  simp only [allocateEntry, wp_bind, wp_get]
  split
  · rename_i idx hfind
    obtain ⟨k, rfl, e, he, hinv⟩ := position_eq_some hfind
    rw [zero_add]
    refine ⟨⟨hd, fun _ => rfl⟩, (List.getElem?_eq_some_iff.mp he).1, ?_, fun _ h => h⟩
    simpa [entry, he] using hinv
  · rename_i hfind
    have hidx : d.cache.lruVictim < d.cache.entries.length := lruVictim_lt hd.nonempty
    have hv : (d.cache.entry d.cache.lruVictim).valid = true := by
      have := position_eq_none hfind (d.cache.entry d.cache.lruVictim)
        (mem_of_getElem? (entry_getElem? hidx))
      simpa using this
    rw [wp_bind]
    refine wp_post (evict_spec hd hv) ?_
    rintro _ d' ⟨hsame, hset⟩
    refine ⟨hsame, by simpa [hset] using hidx, by simp [entry, hset, hidx], ?_⟩
    intro b hb
    rw [lookup_eq_none] at hb ⊢
    intro i e hi hev
    rw [hset, getElem?_set] at hi
    split at hi
    · cases hi
      simp at hev
    · exact hb i e hi hev

theorem fillEntry_spec (hd : d.Coherent) {idx b : Nat} (hidx : idx < d.cache.entries.length)
    (hfree : (d.cache.entry idx).valid = false) (hb : b < blockLimit) :
    wp (fillEntry idx b) (fun _ d' => Same d d' ∧ (d'.cache.entry idx).data = d.dev.blocks b ∧
        d'.dev.blocks = d.dev.blocks ∧ idx < d'.cache.entries.length ∧
        (d'.cache.entry idx).valid = false ∧
        ∀ b', d.cache.lookup b' = none → d'.cache.lookup b' = none) (fun _ d' => Same d d') d := by
  obtain ⟨⟨t, hdev⟩, hread⟩ := d.dev.readSectors_cases (lbaOf b) (d.cache.entry idx).data
  generalize hres : d.dev.readSectors (lbaOf b) (d.cache.entry idx).data = res at hdev hread
  obtain ⟨r, x, dev'⟩ := res
  simp only at hdev hread
  subst hdev
  have hrep : Replace d
      { d with
        cache := d.cache.modifyEntry idx fun e => { e with data := x }
        dev := { d.dev with ticks := t } } idx { d.cache.entry idx with data := x } :=
    ⟨rfl, hidx, by simp [hfree], by simp [hfree], by simp [hfree], fun _ => .inl rfl⟩
  have hsame := hrep.coherent hd
  have hlook : ∀ b', d.cache.lookup b' =
      (d.cache.modifyEntry idx fun e => { e with data := x }).lookup b' := by
    intro b'
    rw [hrep.lookup hd, if_neg (by simp [hfree]), if_neg (by simp [hfree])]
  have hview : Same d _ := ⟨hsame, fun b' => by
    rw [hrep.view hd, if_neg (by simp [hfree]), if_neg (by simp [hfree])]⟩
  simp only [fillEntry, wp_bind, wp_get, wp_set, wp_liftResult, hres]
  refine ⟨fun _ hok => ⟨hview, ?_, trivial, ?_, ?_, fun b' hb' => (hlook b').symm.trans hb'⟩,
    fun _ _ => hview⟩
  · rw [hread hok, lbaOf_of_lt hb, Nat.mul_div_cancel_left b (by decide)]
    simp [entry, modifyEntry, hidx]
  · simpa [modifyEntry] using hidx
  · simpa [entry, modifyEntry, hidx] using hfree

theorem findEntry_eq_none (h : c.findEntry b = none) :
    c.lookup b = none := by
  rw [lookup_eq_none]
  intro i e hi hv hb
  have := position_eq_none h e (mem_of_getElem? hi)
  simp [hv, hb] at this

theorem findEntry_eq_some {b idx : Nat} (h : c.findEntry b = some idx) :
    idx < c.entries.length ∧ (c.entry idx).valid = true ∧ (c.entry idx).blockNum = b := by
  obtain ⟨k, rfl, e, he, hp⟩ := position_eq_some h
  rw [zero_add]
  exact ⟨(List.getElem?_eq_some_iff.mp he).1, by simpa [entry, he] using hp⟩

theorem read_spec (hd : d.Coherent) (hb : b < blockLimit) :
    wp (read b) (fun x d' => x = d.view b ∧ Same d d') (fun _ d' => Same d d') d := by
  simp only [read, wp_bind, wp_get]
  split
  · rename_i idx hfind
    obtain ⟨hidx, hv, hbn⟩ := findEntry_eq_some hfind
    have hl := hd.lookup_entry hidx hv
    refine ⟨by rw [← hbn, view_of_lookup hl], ?_⟩
    have hrep : Replace d { d with cache := d.cache.touchWith idx id } idx
        { d.cache.entry idx with lruCounter := (d.cache.counter + 1) % u64Size } :=
      ⟨rfl, hidx, fun _ => .inl ⟨hv, rfl⟩, fun _ => hd.inRange hl,
        fun _ hc => hd.clean (hl.trans (congrArg _ (congrArg _ hc))), fun _ => .inl rfl⟩
    exact hrep.same hd rfl rfl rfl
  · rename_i hfind
    have hnone := findEntry_eq_none hfind
    simp only [wp_bind]
    refine wp_post (allocateEntry_spec hd) ?_
    rintro idx d₁ ⟨hsame₁, hidx₁, hfree₁, hnone₁⟩
    refine wp_conseq (fillEntry_spec hsame₁.1 hidx₁ hfree₁ hb) ?_ fun _ _ h => hsame₁.trans h
    rintro _ d₂ ⟨hsame₂, hdata, hsec, hidx₂, hfree₂, hnone₂⟩
    have hblock : d₂.dev.blocks b = (d₂.cache.entry idx).data := by
      rw [hdata, hsec]
    have hnone' : d₂.cache.lookup b = none := hnone₂ b (hnone₁ b hnone)
    have hdv : (d₂.cache.entry idx).data = d.view b := by
      rw [← hblock, ← view_of_not_cached hnone', (hsame₁.trans hsame₂).2]
    have hrep : Replace d₂
        { d₂ with cache := d₂.cache.touchWith idx fun e =>
          { e with blockNum := b, valid := true, dirty := false } } idx
        { d₂.cache.entry idx with
          blockNum := b, valid := true, dirty := false,
          lruCounter := (d₂.cache.counter + 1) % u64Size } :=
      ⟨rfl, hidx₂, fun _ => .inr hnone', fun _ => hb, fun _ _ => hblock, fun _ => .inl rfl⟩
    refine ⟨?_, (hsame₁.trans hsame₂).trans ⟨hrep.coherent hsame₂.1, fun b' => ?_⟩⟩
    · rw [← hdv]
      simp [entry, touchWith, hidx₂]
    · rw [hrep.view hsame₂.1]
      split
      · rename_i h
        obtain ⟨-, rfl⟩ := h
        rw [hdv, (hsame₁.trans hsame₂).2]
      · rw [if_neg (by simp [hfree₂])]

def Wrote (d d' : Disk) (b : Nat) (x : Block) : Prop :=
  d'.Coherent ∧ ∀ b', d'.view b' = if b' = b then x else d.view b'

theorem write_spec (hd : d.Coherent) (hb : b < blockLimit) (x : Block) :
    wp (write b x) (fun _ d' => Wrote d d' b x) (fun _ d' => Same d d') d := by
  -- installing the new data in the entry that was found or freed
  have hinstall : ∀ (d₁ : Disk) (idx : Nat), Same d d₁ → idx < d₁.cache.entries.length →
      (((d₁.cache.entry idx).valid = true ∧ (d₁.cache.entry idx).blockNum = b) ∨
        ((d₁.cache.entry idx).valid = false ∧ d₁.cache.lookup b = none)) →
      Wrote d { d₁ with cache := d₁.cache.touchWith idx fun e =>
        { e with data := x, blockNum := b, valid := true, dirty := true } } b x := by
    intro d₁ idx hsame hidx hcase
    have hrep : Replace d₁
        { d₁ with cache := d₁.cache.touchWith idx fun e =>
          { e with data := x, blockNum := b, valid := true, dirty := true } } idx
        { d₁.cache.entry idx with
          data := x, blockNum := b, valid := true, dirty := true,
          lruCounter := (d₁.cache.counter + 1) % u64Size } := by
      refine ⟨rfl, hidx, fun _ => ?_, fun _ => hb, by simp, fun _ => .inl rfl⟩
      exact hcase.imp id And.right
    refine ⟨hrep.coherent hsame.1, fun b' => ?_⟩
    rw [hrep.view hsame.1]
    by_cases hbb : b' = b
    · rw [if_pos ⟨rfl, hbb.symm⟩, if_pos hbb]
    rw [if_neg (by simpa using Ne.symm hbb), if_neg hbb, if_neg, hsame.2]
    rintro ⟨hv, hbn⟩
    rcases hcase with ⟨-, hbn'⟩ | ⟨hfree, -⟩
    · exact hbb (hbn.symm.trans hbn')
    · rw [hfree] at hv
      contradiction
  simp only [write, wp_bind, wp_get, wp_modifyCache]
  split
  · rename_i idx hfind
    obtain ⟨hidx, hv, hbn⟩ := findEntry_eq_some hfind
    exact hinstall d idx ⟨hd, fun _ => rfl⟩ hidx (.inl ⟨hv, hbn⟩)
  · rename_i hfind
    refine wp_post (allocateEntry_spec hd) ?_
    rintro idx d₁ ⟨hsame, hidx, hfree, hnone⟩
    exact hinstall d₁ idx hsame hidx (.inr ⟨hfree, hnone b (findEntry_eq_none hfind)⟩)

theorem flushEntry_spec (hd : d.Coherent) (firstErr : Option BlockError) (idx : Nat) :
    wp (flushEntry firstErr (d.cache.entry idx, idx))
      (fun r d' => Same d d' ∧ d'.cache.entries.length = d.cache.entries.length ∧
        (∀ i, i ≠ idx → d'.cache.entry i = d.cache.entry i) ∧ (r = none → firstErr = none ∧
          ((d'.cache.entry idx).valid && (d'.cache.entry idx).dirty) = false))
      (fun _ _ => False) d := by
  unfold flushEntry
  rw [wp_ite]
  constructor
  · intro hvd
    obtain ⟨hv, hdirty⟩ := Bool.and_eq_true_iff.mp hvd
    have hidx := entry_valid_lt hv
    rw [wp_bind, wp_attempt]
    refine wp_conseq (writeBack_spec hd hv hdirty) ?_ ?_
    · intro _ d' hpost
      obtain ⟨hsame, hset⟩ := hpost
      refine ⟨hsame, by simp [hset], fun i hi => ?_, fun hr => ⟨hr, ?_⟩⟩
      · simp [entry, hset, getElem?_set_ne (Ne.symm hi)]
      · simp [entry, hset, hidx]
    · intro err d' hpost
      obtain ⟨hsame, hcache⟩ := hpost
      refine ⟨hsame, by rw [hcache], fun i _ => by rw [hcache], fun hr => ?_⟩
      cases firstErr <;> simp at hr
  · intro hvd
    exact ⟨⟨hd, fun _ => rfl⟩, rfl, fun _ _ => rfl, fun hr => ⟨hr, by simpa using hvd⟩⟩

/-- The rule for the flush loop: `J k` holds before turn `k`, and a turn leaves
the entries of the other turns alone. -/
theorem wp_flushLoop {J : Nat → Option BlockError → Disk → Prop} (h₀ : J 0 none d)
    (step : ∀ k acc d', J k acc d' →
      wp (flushEntry acc (d'.cache.entry k, k))
        (fun r d'' => J (k + 1) r d'' ∧ d''.cache.entries.length = d'.cache.entries.length ∧
          ∀ i, i ≠ k → d''.cache.entry i = d'.cache.entry i) (fun _ _ => False) d') :
    wp (d.cache.entries.zipIdx.foldlM flushEntry none)
      (fun r d' => ∃ k, d'.cache.entries.length ≤ k ∧ J k r d') (fun _ _ => False) d := by
  -- what is left of the loop are the entries from `k` on, as they are now
  have hloop := wp_foldlM (f := flushEntry) (E := fun _ _ => False)
    (I := fun xs acc d' => ∃ k, xs = d'.cache.entries.zipIdx.drop k ∧ J k acc d')
    (by
      intro p xs acc d' hI
      obtain ⟨k, hxs, hJ⟩ := hI
      have hk : k < d'.cache.entries.length := by
        by_contra hge
        rw [drop_eq_nil_of_le (by simpa using hge)] at hxs
        contradiction
      have hcons : d'.cache.entries.zipIdx.drop k =
          (d'.cache.entry k, k) :: d'.cache.entries.zipIdx.drop (k + 1) := by
        rw [drop_eq_getElem_cons (by simpa using hk)]
        simp [entry, hk]
      rw [hcons] at hxs
      obtain ⟨rfl, rfl⟩ := cons.inj hxs
      refine wp_conseq (step k acc d' hJ) ?_ fun _ _ h => h.elim
      intro r d'' hpost
      obtain ⟨hJ', hlen, hkeep⟩ := hpost
      refine ⟨k + 1, ?_, hJ'⟩
      apply ext_getElem (by simp [hlen])
      intro i h₁ h₂
      simp only [length_drop, length_zipIdx] at h₁ h₂
      have hi := hkeep (k + 1 + i) (by omega)
      have hlt : k + 1 + i < d'.cache.entries.length := by omega
      have hlt' : k + 1 + i < d''.cache.entries.length := by omega
      simpa [entry, hlt, hlt'] using hi.symm)
    d.cache.entries.zipIdx none d ⟨0, rfl, h₀⟩
  refine wp_post hloop ?_
  intro r d' hpost
  obtain ⟨k, hxs, hJ⟩ := hpost
  have hlen : d'.cache.entries.length - k = 0 := by
    simpa using congrArg length hxs.symm
  exact ⟨k, by omega, hJ⟩

/-- After a flush that succeeds, the device holds the logical content of every
block; a flush that fails still keeps that content. -/
theorem flush_spec (hd : d.Coherent) :
    wp flush (fun _ d' => Same d d' ∧ ∀ b x, d'.cache.lookup b ≠ some (x, true))
      (fun _ d' => Same d d') d := by
  simp only [flush, wp_bind, wp_get]
  -- entries below `k` have been written back while no error was seen
  have hloop := wp_flushLoop (d := d)
    (J := fun k acc d' => Same d d' ∧ (acc = none →
      ∀ i < k, ((d'.cache.entry i).valid && (d'.cache.entry i).dirty) = false))
    ⟨⟨hd, fun _ => rfl⟩, fun _ i hi => absurd hi (not_lt_zero i)⟩
    (by
      intro k acc d' hJ
      obtain ⟨hsame, hacc⟩ := hJ
      refine wp_post (flushEntry_spec hsame.1 acc k) ?_
      intro r d'' hpost
      obtain ⟨hsame', hlen, hkeep, hr⟩ := hpost
      refine ⟨⟨hsame.trans hsame', fun hrn i hi => ?_⟩, hlen, hkeep⟩
      obtain ⟨haccn, hclean⟩ := hr hrn
      by_cases h : i = k
      · rw [h]
        exact hclean
      · rw [hkeep i h]
        exact hacc haccn i (by omega))
  refine wp_conseq hloop ?_ fun _ _ h => h.elim
  intro r d' hpost
  obtain ⟨k, hk, hsame, hclean⟩ := hpost
  cases r with
  | some err => exact hsame
  | none =>
    refine ⟨hsame, fun b x hl => ?_⟩
    obtain ⟨i, e, hi, hv, -, -, hdirty⟩ := (lookup_eq_some hsame.1.unique).mp hl
    have hilt : i < d'.cache.entries.length := (List.getElem?_eq_some_iff.mp hi).1
    have := hclean rfl i (by omega)
    have hei : d'.cache.entry i = e := by simp [entry, hi]
    rw [hei, hv, hdirty] at this
    contradiction

/-! ## Whole runs -/

theorem fresh_lookup (dev : Device) (b : Nat) : (fresh dev).cache.lookup b = none := rfl

theorem fresh_coherent (dev : Device) : (fresh dev).Coherent where
  nonempty := by simp [fresh, new]
  unique := by
    intro i j e e' hi _ hv
    obtain rfl := eq_of_mem_replicate (mem_of_getElem? hi)
    contradiction
  clean := by
    intro b x h
    rw [fresh_lookup] at h
    contradiction
  inRange := by
    intro b p h
    rw [fresh_lookup] at h
    contradiction

theorem fresh_view (dev : Device) (b : Nat) : (fresh dev).view b = dev.blocks b :=
  view_of_not_cached (fresh_lookup dev b)

end Disk

/-- One call on the cache by a client that keeps to block numbers in `ok`,
next to the flat store that the calls describe: a successful write stores its
block, and every other call leaves the store alone. -/
inductive CacheStep (ok : Nat → Prop) :
    Disk × (Nat → Block) → Disk × (Nat → Block) → Prop where
  | read {d store b} : ok b → CacheStep ok (d, store) (after (Disk.read b) d, store)
  | write {d d' store b x} : ok b → Disk.write b x d = .ok () d' →
      CacheStep ok (d, store) (d', Function.update store b x)
  | writeFailed {d d' store b x e} : ok b → Disk.write b x d = .error e d' →
      CacheStep ok (d, store) (d', store)
  | flush {d store} : CacheStep ok (d, store) (after Disk.flush d, store)

theorem CacheStep.refines {s s' : Disk × (Nat → Block)} (h : CacheStep (· < blockLimit) s s')
    (hs : s.1.Coherent ∧ ∀ b, s.1.view b = s.2 b) :
    s'.1.Coherent ∧ ∀ b, s'.1.view b = s'.2 b := by
  obtain ⟨hd, hview⟩ := hs
  cases h with
  | @read d store b hb =>
    have hsame : Disk.Same d (after (Disk.read b) d) :=
      after_of_wp (wp_conseq (Disk.read_spec hd hb) (fun _ _ h => h.2) fun _ _ h => h)
    exact ⟨hsame.1, fun b' => (hsame.2 b').trans (hview b')⟩
  | @write d d' store b x hb hok =>
    obtain ⟨hd', hview'⟩ := wp_ok (Disk.write_spec hd hb x) hok
    refine ⟨hd', fun b' => ?_⟩
    simp only [hview', Function.update_apply, hview]
  | @writeFailed d d' store b x e hb herr =>
    have hsame := wp_error (Disk.write_spec hd hb x) herr
    exact ⟨hsame.1, fun b' => (hsame.2 b').trans (hview b')⟩
  | @flush d store =>
    have hsame : Disk.Same d (after Disk.flush d) :=
      after_of_wp (wp_conseq (Disk.flush_spec hd) (fun _ _ h => h.1) fun _ _ h => h)
    exact ⟨hsame.1, fun b' => (hsame.2 b').trans (hview b')⟩

theorem cacheRun_refines {s s' : Disk × (Nat → Block)}
    (h : Relation.ReflTransGen (CacheStep (· < blockLimit)) s s')
    (hs : s.1.Coherent ∧ ∀ b, s.1.view b = s.2 b) :
    s'.1.Coherent ∧ ∀ b, s'.1.view b = s'.2 b := by
  induction h with
  | refl => exact hs
  | tail _ hstep ih => exact hstep.refines ih

/-- The cache refines a flat block store, for every failure pattern of the
device, as long as the client keeps to block numbers below `blockLimit`. -/
theorem blockCache_refines_store (dev : Device) {d : Disk} {store : Nat → Block}
    (h : Relation.ReflTransGen (CacheStep (· < blockLimit))
      (Disk.fresh dev, dev.blocks) (d, store)) :
    d.cache.Unique ∧ (∀ b, d.view b = store b) ∧
      (∀ b < blockLimit, ∀ x d', Disk.read b d = .ok x d' → x = store b) ∧
      (∀ d', Disk.flush d = .ok () d' → ∀ b, d'.dev.blocks b = store b) := by
  obtain ⟨hd, hview⟩ : d.Coherent ∧ ∀ b, d.view b = store b :=
    cacheRun_refines h ⟨Disk.fresh_coherent dev, Disk.fresh_view dev⟩
  refine ⟨hd.unique, hview, fun b hb x d' hr => ?_, fun d' hf b => ?_⟩
  · rw [(wp_ok (Disk.read_spec hd hb) hr).1, hview]
  · obtain ⟨hsame, hclean⟩ := wp_ok (Disk.flush_spec hd) hf
    rw [hsame.1.dev_eq_view (hclean b), hsame.2, hview]

def twoBlockDevice : Device where
  sectorCount := 16
  sectorCount_lt := by decide
  blocks := fun _ => Block.zero
  faults := fun _ => none
  ticks := 0
  log := []

def onesBlock : Block := Block.ofBytes [1]

def twosBlock : Block := Block.ofBytes [2]

/-- The run that writes block 1 of the small device. -/
theorem blockCache_refines_store_witness :
    ∃ d, Disk.write 1 onesBlock (Disk.fresh twoBlockDevice) = .ok () d ∧ d.view 1 = onesBlock := by
  have hok : Disk.write 1 onesBlock (Disk.fresh twoBlockDevice) =
      .ok () (after (Disk.write 1 onesBlock) (Disk.fresh twoBlockDevice)) :=
    result?_eq_some.mp (by decide +kernel)
  refine ⟨_, hok, ?_⟩
  rw [(blockCache_refines_store twoBlockDevice
    (Relation.ReflTransGen.single (CacheStep.write (by decide) hok))).2.1 1]
  rfl

/-- Block `2 ^ 61` has the sector address of block 0, so a flushed write to it
replaces what the device holds for block 0. -/
theorem blockCache_aliased_block :
    ∃ d store d', Relation.ReflTransGen (CacheStep (· < u64Size))
        (Disk.fresh twoBlockDevice, twoBlockDevice.blocks) (d, store) ∧
      Disk.flush d = .ok () d' ∧ d'.dev.blocks 0 ≠ store 0 := by
  let d₀ := Disk.fresh twoBlockDevice
  let d₁ := after (Disk.write 0 onesBlock) d₀
  let d₂ := after (Disk.write (2 ^ 61) twosBlock) d₁
  have h₁ : Disk.write 0 onesBlock d₀ = .ok () d₁ := result?_eq_some.mp (by decide +kernel)
  have h₂ : Disk.write (2 ^ 61) twosBlock d₁ = .ok () d₂ := result?_eq_some.mp (by decide +kernel)
  have hflush : result? Disk.flush d₂ = some () ∧
      ((after Disk.flush d₂).dev.blocks 0).byte 0 ≠ onesBlock.byte 0 := by
    decide +kernel
  refine ⟨d₂, _, _, (Relation.ReflTransGen.single (.write (by decide) h₁)).tail
    (.write (by decide) h₂), result?_eq_some.mp hflush.1, fun hcontra => hflush.2 ?_⟩
  rw [hcontra]
  rfl

end Thumos
