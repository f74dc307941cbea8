import Thumos.Kernel.Mmu

/-!
# What the page-table functions do

A slot of the pool is in use exactly if one first-level entry of one allocated
table points to it, and no other does (`Mmu.Owned`).  Because of that a write to
a table of the pool changes one address space only, so each function has a
short description by the user pages of the address spaces: `Mmu.user`.
-/

namespace Thumos

open Ownership Function List Option

abbrev PageIdx := Fin 4096 × Fin 256

def pageIdx (va : Nat) : PageIdx := (l1Index va, l2Index va)

namespace Mmu

variable {m m' : Mmu} {t t' : Fin maxAddrSpaces} {i i' : Fin 4096} {s s' : PageIdx}
  {d : L1Desc} {l2 : L2Ref} {slot : Fin l2PoolSize} {table : L2Table} {e : L2Entry}
  {va phys : Nat} {attrs : Attrs}

/-! ## Field lemmas -/

theorem setL1_tables : (m.setL1 t i d).tables t' i' =
    if t' = t ∧ i' = i then d else m.tables t' i' := by
  by_cases ht : t' = t
  · subst ht
    by_cases hi : i' = i
    · subst hi
      simp [setL1]
    · simp [setL1, hi]
  · simp [setL1, ht]

@[simp] theorem setL1_spaceAlloc : (m.setL1 t i d).spaceAlloc = m.spaceAlloc := rfl

@[simp] theorem setL1_entryAt : (m.setL1 t i d).entryAt = m.entryAt := rfl

@[simp] theorem fill_tables : (m.fill l2 table).tables = m.tables := by cases l2 <;> rfl

@[simp] theorem fill_spaceAlloc : (m.fill l2 table).spaceAlloc = m.spaceAlloc := by
  cases l2 <;> rfl

@[simp] theorem fill_l2Alloc : (m.fill l2 table).l2Alloc = m.l2Alloc := by cases l2 <;> rfl

theorem fill_entryAt (l2' : L2Ref) :
    (m.fill l2 table).entryAt l2' = if l2' = l2 then table else m.entryAt l2' := by
  by_cases h : l2' = l2
  · subst h
    funext i
    cases l2' <;> simp [fill, entryAt]
  · funext i
    cases l2 <;> cases l2' <;> simp_all [fill, entryAt]

variable {j : Fin 256} {k : Fin maxAddrSpaces × Fin 4096}

@[simp] theorem writeEntry_tables : (m.writeEntry l2 j e).tables = m.tables :=
  fill_tables

@[simp] theorem writeEntry_spaceAlloc :
    (m.writeEntry l2 j e).spaceAlloc = m.spaceAlloc := fill_spaceAlloc

@[simp] theorem freeL2Table_tables : (m.freeL2Table l2).tables = m.tables := by cases l2 <;> rfl

@[simp] theorem freeL2Table_spaceAlloc : (m.freeL2Table l2).spaceAlloc = m.spaceAlloc := by
  cases l2 <;> rfl

@[simp] theorem freeL2Table_entryAt : (m.freeL2Table l2).entryAt = m.entryAt := by
  funext l2' i
  cases l2 <;> cases l2' <;> rfl

def install (m : Mmu) (t : Fin maxAddrSpaces) (i : Fin 4096) (slot : Fin l2PoolSize)
    (table : L2Table) : Mmu :=
  ({ m with l2Alloc := Function.update m.l2Alloc slot true }.fill (.pool slot) table).setL1 t i
    (.coarse (.pool slot))

theorem allocL2Table_eq_some {m' : Mmu} (h : m.allocL2Table = some (slot, m')) :
    m.l2Alloc slot = false ∧ m' =
      { m with l2Alloc := update m.l2Alloc slot true }.fill (.pool slot) fun _ => .zero := by
  obtain ⟨found, hfind, heq⟩ := map_eq_some_iff.mp h
  cases heq
  refine ⟨?_, rfl⟩
  have := find?_some hfind
  simpa using this

/-! ## Ownership of the pool -/

def Points (m : Mmu) (k : Fin maxAddrSpaces × Fin 4096) (slot : Fin l2PoolSize) : Prop :=
  m.spaceAlloc k.1 = true ∧ m.tables k.1 k.2 = .coarse (.pool slot)

/-- A slot of the pool is in use exactly if an entry of an allocated table
points to it, and then only one does. -/
structure Owned (m : Mmu) : Prop where
  exclusive : Exclusive {slot | m.l2Alloc slot = true} m.Points
  complete : ∀ slot, m.l2Alloc slot = true → ∃ k, m.Points k slot

theorem Owned.congr (h : m.Owned) (htables : m'.tables = m.tables)
    (hspaces : m'.spaceAlloc = m.spaceAlloc) (halloc : m'.l2Alloc = m.l2Alloc) : m'.Owned := by
  have hpoints : m'.Points = m.Points := by
    funext k slot
    rw [Points, Points, htables, hspaces]
  refine ⟨?_, ?_⟩
  · rw [hpoints, halloc]
    exact h.exclusive
  · rw [hpoints, halloc]
    exact h.complete

theorem Owned.fill (h : m.Owned) : (m.fill l2 table).Owned :=
  h.congr fill_tables fill_spaceAlloc fill_l2Alloc

theorem Owned.writeEntry (h : m.Owned) : (m.writeEntry l2 j e).Owned := h.fill

theorem install_tables : (m.install t i slot table).tables t' i' =
    if t' = t ∧ i' = i then .coarse (.pool slot) else m.tables t' i' := by
  rw [install, setL1_tables]
  rfl

theorem install_entryAt (l2' : L2Ref) : (m.install t i slot table).entryAt l2' =
    if l2' = .pool slot then table else m.entryAt l2' := by
  rw [install, setL1_entryAt, fill_entryAt]
  split
  · rfl
  · cases l2' <;> rfl

theorem install_points {slot' : Fin l2PoolSize} : (m.install t i slot table).Points k slot' ↔
      m.spaceAlloc k.1 = true ∧
        if k = (t, i) then slot' = slot else m.tables k.1 k.2 = .coarse (.pool slot') := by
  rw [Points, install_tables]
  simp only [Prod.ext_iff]
  refine and_congr Iff.rfl ?_
  split
  · simp [eq_comm]
  · rfl

theorem Owned.install (h : m.Owned) (ht : m.spaceAlloc t = true) (hslot : m.l2Alloc slot = false)
    (hi : ∀ slot', m.tables t i ≠ .coarse (.pool slot')) : (m.install t i slot table).Owned := by
  have hfree : slot ∉ {slot | m.l2Alloc slot = true} := by simp [hslot]
  have halloc : ∀ slot', (m.install t i slot table).l2Alloc slot' = true ↔
      slot' = slot ∨ m.l2Alloc slot' = true := by
    intro slot'
    show update m.l2Alloc slot true slot' = true ↔ _
    by_cases heq : slot' = slot
    · simp [heq]
    · simp [heq]
  refine ⟨?_, ?_⟩
  · refine h.exclusive.acquire (fun k hk => absurd hk (h.exclusive.not_holds hfree k)) (k := (t, i))
      (i := slot) ((halloc slot).mpr (.inl rfl)) (fun slot' hs => (halloc slot').mpr (.inr hs)) ?_
    intro k slot' hk
    obtain ⟨halive, hk⟩ := install_points.mp hk
    split at hk
    · rename_i heq
      exact .inr ⟨heq, hk⟩
    · exact .inl ⟨halive, hk⟩
  · intro slot' hs
    rcases (halloc slot').mp hs with rfl | hs
    · exact ⟨(t, i), install_points.mpr ⟨ht, by rw [if_pos rfl]⟩⟩
    obtain ⟨k, hk⟩ := h.complete slot' hs
    refine ⟨k, install_points.mpr ⟨hk.1, ?_⟩⟩
    rw [if_neg]
    · exact hk.2
    · rintro rfl
      exact hi slot' hk.2

theorem Owned.uninstall (h : m.Owned) (ht : m.spaceAlloc t = true)
    (hi : m.tables t i = .coarse l2) : ((m.setL1 t i .absent).freeL2Table l2).Owned := by
  have hpoints : ∀ k slot', ((m.setL1 t i .absent).freeL2Table l2).Points k slot' ↔
      k ≠ (t, i) ∧ m.Points k slot' := by
    intro k slot'
    rw [Points, Points, freeL2Table_spaceAlloc, freeL2Table_tables, setL1_tables]
    simp only [Ne, Prod.ext_iff, setL1_spaceAlloc]
    split
    · rename_i heq
      simp [heq]
    · rename_i hne
      simp [hne]
  cases l2 with
  | kernel mb =>
    refine ⟨h.exclusive.restrict fun k slot' hk => ?_, fun slot' hs => ?_⟩
    · have hk := ((hpoints k slot').mp hk).2
      exact ⟨hk, h.exclusive.used hk⟩
    · obtain ⟨k, hk⟩ := h.complete slot' hs
      refine ⟨k, (hpoints k slot').mpr ⟨?_, hk⟩⟩
      rintro rfl
      rw [Points, hi] at hk
      simp at hk
  | pool slot =>
    have howner : m.Points (t, i) slot := ⟨ht, hi⟩
    have halloc : ∀ slot', ((m.setL1 t i .absent).freeL2Table (.pool slot)).l2Alloc slot' = true ↔
        slot' ≠ slot ∧ m.l2Alloc slot' = true := by
      intro slot'
      show update m.l2Alloc slot false slot' = true ↔ _
      by_cases heq : slot' = slot
      · simp [heq]
      · simp [heq]
    refine ⟨h.exclusive.restrict fun k slot' hk => ?_, fun slot' hs => ?_⟩
    · obtain ⟨hne, hold⟩ := (hpoints k slot').mp hk
      refine ⟨hold, (halloc slot').mpr ⟨?_, h.exclusive.used hold⟩⟩
      rintro rfl
      exact hne (h.exclusive.unique hold howner)
    · obtain ⟨hne, hs⟩ := (halloc slot').mp hs
      obtain ⟨k, hk⟩ := h.complete slot' hs
      refine ⟨k, (hpoints k slot').mpr ⟨?_, hk⟩⟩
      rintro rfl
      rw [Points, hi] at hk
      exact hne (by simpa using hk.2.symm)

/-! ## Address spaces -/

theorem kernelL1_ne_pool : kernelL1 i ≠ .coarse (.pool slot) := by
  unfold kernelL1
  intro h
  split_ifs at h
  cases h

def anyPoints (m : Mmu) (t : Fin maxAddrSpaces) (l : List (Fin 4096)) (slot : Fin l2PoolSize) :
    Bool :=
  l.any fun i => m.tables t i = .coarse (.pool slot)

theorem freeL1Entry_eq : m.freeL1Entry t i = { m with
    l2Alloc := fun slot => m.l2Alloc slot && !decide (m.tables t i = .coarse (.pool slot)) } := by
  unfold freeL1Entry
  split
  · rename_i l2 hi
    cases l2 with
    | kernel mb =>
      refine congrArg (fun alloc => ({ m with l2Alloc := alloc } : Mmu)) (?_ : m.l2Alloc = _)
      funext slot
      simp [hi]
    | pool slot =>
      refine congrArg (fun alloc => ({ m with l2Alloc := alloc } : Mmu))
        (?_ : update m.l2Alloc slot false = _)
      funext slot'
      by_cases heq : slot' = slot
      · simp [heq, hi]
      · simp [heq, hi, Ne.symm heq]
  · rename_i hi
    refine congrArg (fun alloc => ({ m with l2Alloc := alloc } : Mmu)) (?_ : m.l2Alloc = _)
    funext slot
    have hne : m.tables t i ≠ .coarse (.pool slot) := hi _
    simp [hne]

theorem foldl_freeL1Entry (l : List (Fin 4096)) :
    l.foldl (fun m i => m.freeL1Entry t i) m =
      { m with l2Alloc := fun slot => m.l2Alloc slot && !m.anyPoints t l slot } := by
  induction l generalizing m with
  | nil => simp [anyPoints]
  | cons i l ih =>
    rw [foldl_cons, ih, freeL1Entry_eq]
    congr 1
    funext slot
    simp only [anyPoints, any_cons, Bool.not_or, Bool.and_assoc]

theorem freeAddrSpace_eq : m.freeAddrSpace t = { m with
    l2Alloc := fun slot => m.l2Alloc slot && !m.anyPoints t (finRange 4096) slot
    spaceAlloc := update m.spaceAlloc t false } := by
  rw [freeAddrSpace, foldl_freeL1Entry]

theorem freeAddrSpace_l2Alloc : (m.freeAddrSpace t).l2Alloc slot = true ↔
    m.l2Alloc slot = true ∧ ∀ i, m.tables t i ≠ .coarse (.pool slot) := by
  rw [freeAddrSpace_eq]
  simp [anyPoints]

theorem freeAddrSpace_points : (m.freeAddrSpace t).Points k slot ↔ k.1 ≠ t ∧ m.Points k slot := by
  rw [freeAddrSpace_eq]
  simp only [Points]
  by_cases heq : k.1 = t
  · simp [heq]
  · simp [heq]

theorem Owned.freeAddrSpace (h : m.Owned) (ht : m.spaceAlloc t = true) :
    (m.freeAddrSpace t).Owned := by
  refine ⟨h.exclusive.restrict fun k slot hk => ?_, fun slot hs => ?_⟩
  · obtain ⟨hne, hold⟩ := freeAddrSpace_points.mp hk
    refine ⟨hold, freeAddrSpace_l2Alloc.mpr ⟨h.exclusive.used hold, fun i hi => hne ?_⟩⟩
    have heq := h.exclusive.unique hold (show m.Points (t, i) slot from ⟨ht, hi⟩)
    exact congrArg Prod.fst heq
  · obtain ⟨hused, hnone⟩ := freeAddrSpace_l2Alloc.mp hs
    obtain ⟨k, hk⟩ := h.complete slot hused
    refine ⟨k, freeAddrSpace_points.mpr ⟨?_, hk⟩⟩
    rintro rfl
    exact hnone k.2 hk.2

theorem newAddrSpace_eq_some (h : m.newAddrSpace = some (t, m')) :
    m.spaceAlloc t = false ∧ m' = { m with
      spaceAlloc := update m.spaceAlloc t true
      tables := update m.tables t kernelL1 } := by
  obtain ⟨⟨found, m₁⟩, halloc, heq⟩ := map_eq_some_iff.mp h
  obtain ⟨found', hfind, heq'⟩ := map_eq_some_iff.mp halloc
  cases heq'
  cases heq
  refine ⟨?_, by simp [cloneAddrSpace]⟩
  have := find?_some hfind
  simpa using this

theorem Owned.newAddrSpace (h : m.Owned) (hnew : m.newAddrSpace = some (t, m')) : m'.Owned := by
  obtain ⟨ht, rfl⟩ := newAddrSpace_eq_some hnew
  have hpoints : ∀ k slot, Points { m with
      spaceAlloc := update m.spaceAlloc t true
      tables := update m.tables t kernelL1 } k slot ↔ m.Points k slot := by
    intro k slot
    simp only [Points]
    by_cases heq : k.1 = t
    · simp [heq, kernelL1_ne_pool, ht]
    · simp [heq]
  refine ⟨h.exclusive.restrict fun k slot hk => ?_, fun slot hs => ?_⟩
  · have hold := (hpoints k slot).mp hk
    exact ⟨hold, h.exclusive.used hold⟩
  · obtain ⟨k, hk⟩ := h.complete slot hs
    exact ⟨k, (hpoints k slot).mpr hk⟩

/-! ## The pages of an address space -/

/-- The second-level entry at a page, if its megabyte has a table. -/
def entry (m : Mmu) (t : Fin maxAddrSpaces) (s : PageIdx) : Option L2Entry :=
  match m.tables t s.1 with
  | .coarse l2 => some (m.entryAt l2 s.2)
  | _ => none

def user (m : Mmu) (t : Fin maxAddrSpaces) (s : PageIdx) : Option L2Entry :=
  if m.spaceAlloc t then (m.entry t s).filter L2Entry.isUser else none

theorem entry_of_coarse (h : m.tables t s.1 = .coarse l2) :
    m.entry t s = some (m.entryAt l2 s.2) := by
  rw [entry, h]

theorem entry_of_not_coarse (h : ∀ l2, m.tables t s.1 ≠ .coarse l2) : m.entry t s = none := by
  unfold entry
  split
  · rename_i l2 hl2
    exact absurd hl2 (h l2)
  · rfl

theorem entry_congr {m' : Mmu} (htab : m'.tables t s.1 = m.tables t s.1)
    (hat : ∀ l2, m.tables t s.1 = .coarse l2 → m'.entryAt l2 s.2 = m.entryAt l2 s.2) :
    m'.entry t s = m.entry t s := by
  by_cases h : ∃ l2, m.tables t s.1 = .coarse l2
  · obtain ⟨l2, hl2⟩ := h
    rw [entry_of_coarse hl2, entry_of_coarse (htab.trans hl2), hat l2 hl2]
  · have hnot : ∀ l2, m.tables t s.1 ≠ .coarse l2 := fun l2 hl2 => h ⟨l2, hl2⟩
    rw [entry_of_not_coarse hnot, entry_of_not_coarse fun l2 => htab ▸ hnot l2]

theorem readL2Entry_eq : m.readL2Entry t va = m.entry t (pageIdx va) := rfl

theorem readL2Phys_eq : m.readL2Phys t va =
    ((m.entry t (pageIdx va)).filter L2Entry.isMapped).map fun e => e.page * pageSize := by
  unfold readL2Phys
  split
  · rename_i l2 hl2
    rw [entry_of_coarse (s := pageIdx va) hl2, filter_some]
    simp only [pageIdx]
    split <;> rename_i h <;> simp [h]
  · rename_i hl2
    rw [entry_of_not_coarse (s := pageIdx va) hl2]
    rfl

theorem Owned.entry_fill (h : m.Owned) (ht : m.spaceAlloc t = true) (ht' : m.spaceAlloc t' = true)
    (hi : m.tables t i = .coarse (.pool slot)) : (m.fill (.pool slot) table).entry t' s' =
      if t' = t ∧ s'.1 = i then some (table s'.2) else m.entry t' s' := by
  split
  · rename_i hk
    obtain ⟨rfl, rfl⟩ := hk
    rw [entry_of_coarse (by rw [fill_tables, hi]), fill_entryAt, if_pos rfl]
  rename_i hk
  refine entry_congr (by rw [fill_tables]) fun l2 hl2 => ?_
  rw [fill_entryAt, if_neg]
  rintro rfl
  -- the slot has one owner, which is entry `i` of table `t`
  have howner := h.exclusive.unique (show m.Points (t', s'.1) slot from ⟨ht', hl2⟩)
    (show m.Points (t, i) slot from ⟨ht, hi⟩)
  exact hk ⟨congrArg Prod.fst howner, congrArg Prod.snd howner⟩

theorem Owned.entry_install (h : m.Owned) (ht' : m.spaceAlloc t' = true)
    (hslot : m.l2Alloc slot = false) : (m.install t i slot table).entry t' s' =
      if t' = t ∧ s'.1 = i then some (table s'.2) else m.entry t' s' := by
  split
  · rename_i hk
    rw [entry_of_coarse (by rw [install_tables, if_pos hk]), install_entryAt, if_pos rfl]
  rename_i hk
  refine entry_congr (by rw [install_tables, if_neg hk]) fun l2 hl2 => ?_
  have hne : l2 ≠ .pool slot := by
    rintro rfl
    have hused : m.l2Alloc slot = true :=
      h.exclusive.used (show m.Points (t', s'.1) slot from ⟨ht', hl2⟩)
    rw [hslot] at hused
    cases hused
  rw [install_entryAt, if_neg hne]

/-! ## Mapping a page -/

/-- The entries that a megabyte without a table starts with when it gets one. -/
inductive StartsAs (m : Mmu) (t : Fin maxAddrSpaces) (i : Fin 4096) : L2Table → Prop where
  | empty : m.tables t i = .absent → StartsAs m t i fun _ => .zero
  | identity {mb : Nat} {type : MemoryType} : m.tables t i = .sect mb type →
    StartsAs m t i (identityTable mb)

/-- The page `s` of `t` becomes the user page `e`, in the table that its megabyte had or
in a fresh one. -/
structure Maps (m m' : Mmu) (t : Fin maxAddrSpaces) (s : PageIdx) (e : L2Entry) : Prop where
  owned : m'.Owned
  spaceAlloc : m'.spaceAlloc = m.spaceAlloc
  kernelL2 : m'.kernelL2 = m.kernelL2
  entry_self : m'.entry t s = some e
  entry_other : ∀ t' s', m.spaceAlloc t' = true → ¬(t' = t ∧ s' = s) →
    m'.entry t' s' = m.entry t' s' ∨
      t' = t ∧ s'.1 = s.1 ∧ ∃ table, StartsAs m t s.1 table ∧ m'.entry t' s' = some (table s'.2)
  tables : ∀ t' i', ¬(t' = t ∧ i' = s.1) → m'.tables t' i' = m.tables t' i'
  coarse : ∃ slot, m'.tables t s.1 = .coarse (.pool slot)
  before : (∃ slot, m.tables t s.1 = .coarse (.pool slot)) ∨ ∀ l2, m.tables t s.1 ≠ .coarse l2

theorem user_of_entry (ht : m.spaceAlloc t = true) :
    m.user t s = (m.entry t s).filter L2Entry.isUser := by
  rw [user, if_pos ht]

theorem user_of_dead (ht : m.spaceAlloc t = false) : m.user t s = none := by
  rw [user, ht]
  rfl

theorem user_eq_some : m.user t s = some e ↔
    m.spaceAlloc t = true ∧ m.entry t s = some e ∧ e.isUser = true := by
  cases ht : m.spaceAlloc t with
  | false => simp [user_of_dead ht]
  | true =>
    rw [user_of_entry ht, filter_eq_some_iff]
    simp

theorem isUser_zero : L2Entry.zero.isUser = false := by decide

theorem isMapped_of_isUser {e : L2Entry} (h : e.isUser = true) : e.isMapped = true := by
  have hsmall : e.attrs &&& PageFlags.smallPage ≠ 0 := (of_decide_eq_true h).1
  refine decide_eq_true fun hzero => hsmall ?_
  rw [show PageFlags.smallPage = 3 &&& PageFlags.smallPage from rfl, ← BitVec.and_assoc, hzero]
  rfl

theorem isUser_identityTable (mb : Nat) (j : Fin 256) : (identityTable mb j).isUser = false := by
  show (L2Entry.mk 0 kernelDefaultPage).isUser = false
  decide

theorem StartsAs.isUser (h : StartsAs m t i table) (j : Fin 256) : (table j).isUser = false := by
  cases h with
  | empty => exact isUser_zero
  | identity => exact isUser_identityTable _ j

theorem StartsAs.not_coarse (h : StartsAs m t i table) (l2 : L2Ref) :
    m.tables t i ≠ .coarse l2 := by
  cases h with
  | empty h =>
    rw [h]
    simp
  | identity h =>
    rw [h]
    simp

theorem user_update {m' : Mmu} {o : Option L2Entry} (ht : m.spaceAlloc t = true)
    (hspaces : m'.spaceAlloc = m.spaceAlloc) (hself : (m'.entry t s).filter L2Entry.isUser = o)
    (hother : ∀ t' s', m.spaceAlloc t' = true → ¬(t' = t ∧ s' = s) →
      (m'.entry t' s').filter L2Entry.isUser = (m.entry t' s').filter L2Entry.isUser)
    (t' : Fin maxAddrSpaces) (s' : PageIdx) :
    m'.user t' s' = if t' = t ∧ s' = s then o else m.user t' s' := by
  cases ht' : m.spaceAlloc t' with
  | false =>
    rw [user_of_dead (hspaces ▸ ht'), if_neg, user_of_dead ht']
    rintro ⟨rfl, -⟩
    rw [ht] at ht'
    cases ht'
  | true =>
    rw [user_of_entry (hspaces ▸ ht'), user_of_entry ht']
    split
    · rename_i hk
      obtain ⟨rfl, rfl⟩ := hk
      exact hself
    · rename_i hk
      exact hother t' s' ht' hk

theorem Maps.user_filter (h : Maps m m' t s e) (ht : m.spaceAlloc t = true)
    (t' : Fin maxAddrSpaces) (s' : PageIdx) :
    m'.user t' s' = if t' = t ∧ s' = s then (some e).filter L2Entry.isUser else m.user t' s' := by
  refine user_update ht h.spaceAlloc (by rw [h.entry_self]) (fun t' s' ht' hk => ?_) t' s'
  rcases h.entry_other t' s' ht' hk with heq | ⟨rfl, hmb, table, hstart, heq⟩
  · rw [heq]
  · have hnone : m.entry t' s' = none := entry_of_not_coarse fun l2 => hmb ▸ hstart.not_coarse l2
    rw [heq, hnone]
    simp [hstart.isUser]

theorem Maps.user (h : Maps m m' t s e) (ht : m.spaceAlloc t = true) (he : e.isUser = true)
    (t' : Fin maxAddrSpaces) (s' : PageIdx) :
    m'.user t' s' = if t' = t ∧ s' = s then some e else m.user t' s' := by
  rw [h.user_filter ht, filter_some, if_pos he]

theorem Owned.maps_write (h : m.Owned) (ht : m.spaceAlloc t = true)
    (hi : m.tables t s.1 = .coarse (.pool slot)) :
    Maps m (m.writeEntry (.pool slot) s.2 e) t s e where
  owned := h.fill
  spaceAlloc := writeEntry_spaceAlloc
  kernelL2 := rfl
  entry_self := by
    refine (h.entry_fill ht ht hi).trans ?_
    rw [if_pos ⟨rfl, rfl⟩, update_self]
  entry_other t' s' ht' hk := by
    refine .inl ((h.entry_fill ht ht' hi).trans ?_)
    split
    · rename_i hmb
      have hne : s'.2 ≠ s.2 := fun hs => hk ⟨hmb.1, Prod.ext hmb.2 hs⟩
      rw [update_of_ne hne, entry_of_coarse (s := s') (by rw [hmb.1, hmb.2, hi])]
    · rfl
  tables t' i' _ := by rw [writeEntry_tables]
  coarse := ⟨slot, by rw [writeEntry_tables, hi]⟩
  before := .inl ⟨slot, hi⟩

theorem Owned.maps_install (h : m.Owned) (ht : m.spaceAlloc t = true)
    (hstart : StartsAs m t s.1 table) (hslot : m.l2Alloc slot = false) :
    Maps m (m.install t s.1 slot (update table s.2 e)) t s e where
  owned := h.install ht hslot fun slot' => hstart.not_coarse _
  spaceAlloc := rfl
  kernelL2 := rfl
  entry_self := by rw [h.entry_install ht hslot, if_pos ⟨rfl, rfl⟩, update_self]
  entry_other t' s' ht' hk := by
    rw [h.entry_install ht' hslot]
    split
    · rename_i hmb
      have hne : s'.2 ≠ s.2 := fun hs => hk ⟨hmb.1, Prod.ext hmb.2 hs⟩
      exact .inr ⟨hmb.1, hmb.2, table, hstart, by rw [update_of_ne hne]⟩
    · exact .inl rfl
  tables t' i' hk := by rw [install_tables, if_neg hk]
  coarse := ⟨slot, by rw [install_tables, if_pos ⟨rfl, rfl⟩]⟩
  before := .inr hstart.not_coarse

/-! ## `map_page` after `shatter_section` or `ensure_page_mappable` -/

theorem install_writeEntry : (m.install t i slot table).writeEntry (.pool slot) j e =
    m.install t i slot (update table j e) := by
  rw [writeEntry, install_entryAt, if_pos rfl, install, install]
  simp [Mmu.fill, setL1]

def pageEntry (phys : Nat) (attrs : Attrs) : L2Entry := ⟨phys / pageSize, attrs⟩

theorem mapPage_install : (m.install t (l1Index va) slot table).mapPage t va phys attrs =
    (true, m.install t (l1Index va) slot (update table (l2Index va) (pageEntry phys attrs))) := by
  unfold mapPage
  rw [install_tables, if_pos ⟨rfl, rfl⟩]
  exact congrArg (Prod.mk true) install_writeEntry

theorem shatterSection_sect {mb : Nat} {type : MemoryType}
    (h : m.tables t (l1Index va) = .sect mb type) :
    m.shatterSection t va = (false, m) ∨ ∃ slot, m.l2Alloc slot = false ∧
      m.shatterSection t va = (true, m.install t (l1Index va) slot (identityTable mb)) := by
  unfold shatterSection
  simp only [h]
  cases halloc : m.allocL2Table with
  | none => exact .inl rfl
  | some r =>
    obtain ⟨slot, m'⟩ := r
    obtain ⟨hslot, rfl⟩ := allocL2Table_eq_some halloc
    refine .inr ⟨slot, hslot, ?_⟩
    simp [install, Mmu.fill]

/-- The page could not be mapped and nothing has changed, or it is mapped. -/
def MapsOr (m : Mmu) (t : Fin maxAddrSpaces) (s : PageIdx) (e : L2Entry) (res : Bool × Mmu) :
    Prop :=
  res = (false, m) ∨ ∃ m', res = (true, m') ∧ Maps m m' t s e

section

variable (h : m.Owned) (ht : m.spaceAlloc t = true)
  (hkernel : ∀ mb, m.tables t (l1Index va) ≠ .coarse (.kernel mb))

include h ht

theorem mapPage_coarse (hl2 : m.tables t (l1Index va) = .coarse (.pool slot)) :
    MapsOr m t (pageIdx va) (pageEntry phys attrs) (m.mapPage t va phys attrs) := by
  unfold mapPage
  rw [hl2]
  exact .inr ⟨_, rfl, h.maps_write (s := pageIdx va) ht hl2⟩

theorem mapPage_installed (hstart : StartsAs m t (l1Index va) table)
    (hslot : m.l2Alloc slot = false) :
    MapsOr m t (pageIdx va) (pageEntry phys attrs)
      ((m.install t (l1Index va) slot table).mapPage t va phys attrs) := by
  rw [mapPage_install]
  exact .inr ⟨_, rfl, h.maps_install (s := pageIdx va) ht hstart hslot⟩

include hkernel

theorem ensureAndMap_spec :
    MapsOr m t (pageIdx va) (pageEntry phys attrs) (m.ensureAndMap t va phys attrs) := by
  unfold ensureAndMap ensurePageMappable
  cases htab : m.tables t (l1Index va) with
  | coarse l2 =>
    cases l2 with
    | kernel mb => exact absurd htab (hkernel mb)
    | pool slot => exact mapPage_coarse h ht htab
  | absent =>
    simp only [mapPage, htab]
    cases halloc : m.allocL2Table with
    | none => exact .inl rfl
    | some r =>
      obtain ⟨slot, m'⟩ := r
      obtain ⟨hslot, rfl⟩ := allocL2Table_eq_some halloc
      have hmaps : MapsOr m t (pageIdx va) (pageEntry phys attrs)
          ((m.install t (l1Index va) slot _).mapPage t va phys attrs) :=
        mapPage_installed h ht (.empty htab) hslot
      unfold mapPage at hmaps
      rwa [install_tables, if_pos ⟨rfl, rfl⟩] at hmaps
  | sect mb type =>
    rcases shatterSection_sect htab with heq | ⟨slot, hslot, heq⟩
    · simp only [heq]
      exact .inl rfl
    · simp only [heq]
      exact mapPage_installed h ht (.identity htab) hslot

theorem shatterAndMap_spec :
    MapsOr m t (pageIdx va) (pageEntry phys attrs) (m.shatterAndMap t va phys attrs) := by
  unfold shatterAndMap
  cases htab : m.tables t (l1Index va) with
  | coarse l2 =>
    cases l2 with
    | kernel mb => exact absurd htab (hkernel mb)
    | pool slot =>
      have hshatter : m.shatterSection t va = (true, m) := by rw [shatterSection, htab]
      rw [hshatter]
      exact mapPage_coarse h ht htab
  | absent =>
    have hshatter : m.shatterSection t va = (false, m) := by rw [shatterSection, htab]
    rw [hshatter]
    exact .inl rfl
  | sect mb type =>
    rcases shatterSection_sect htab with heq | ⟨slot, hslot, heq⟩
    · simp only [heq]
      exact .inl rfl
    · simp only [heq]
      exact mapPage_installed h ht (.identity htab) hslot

end

/-! ## Unmapping a page -/

/-- The page `s` of address space `t` is gone, and with it its table if that
has no entries left. -/
structure Unmaps (m m' : Mmu) (t : Fin maxAddrSpaces) (s : PageIdx) : Prop where
  owned : m'.Owned
  spaceAlloc : m'.spaceAlloc = m.spaceAlloc
  kernelL2 : m'.kernelL2 = m.kernelL2
  entry_self : ∀ e, m'.entry t s = some e → e = .zero
  entry_other : ∀ t' s', m.spaceAlloc t' = true → ¬(t' = t ∧ s' = s) →
    m'.entry t' s' = m.entry t' s' ∨
      t' = t ∧ m.entry t' s' = some .zero ∧ m'.entry t' s' = none
  tables : ∀ t' i', m'.tables t' i' = m.tables t' i' ∨
    t' = t ∧ i' = s.1 ∧ (∃ slot, m.tables t' i' = .coarse (.pool slot)) ∧ m'.tables t' i' = .absent

theorem Unmaps.user (h : Unmaps m m' t s) (ht : m.spaceAlloc t = true)
    (t' : Fin maxAddrSpaces) (s' : PageIdx) :
    m'.user t' s' = if t' = t ∧ s' = s then none else m.user t' s' := by
  refine user_update ht h.spaceAlloc ?_ (fun t' s' ht' hk => ?_) t' s'
  · cases hself : m'.entry t s with
    | none => rfl
    | some e => simp [h.entry_self e hself, isUser_zero]
  · rcases h.entry_other t' s' ht' hk with heq | ⟨-, hzero, hnone⟩
    · rw [heq]
    · rw [hzero, hnone, filter_some, isUser_zero]
      rfl

theorem Owned.unmaps_same (h : m.Owned) (hnot : ∀ l2, m.tables t s.1 ≠ .coarse l2) :
    Unmaps m m t s where
  owned := h
  spaceAlloc := rfl
  kernelL2 := rfl
  entry_self e he := by
    rw [entry_of_not_coarse hnot] at he
    cases he
  entry_other _ _ _ _ := .inl rfl
  tables _ _ := .inl rfl

theorem entry_uninstall : ((m.setL1 t i .absent).freeL2Table l2).entry t' s' =
      if t' = t ∧ s'.1 = i then none else m.entry t' s' := by
  split
  · rename_i hk
    refine entry_of_not_coarse fun l2' => ?_
    rw [freeL2Table_tables, setL1_tables, if_pos hk]
    simp
  · rename_i hk
    refine entry_congr ?_ fun l2' _ => ?_
    · rw [freeL2Table_tables, setL1_tables, if_neg hk]
    · rw [freeL2Table_entryAt, setL1_entryAt]

section

variable (h : m.Owned) (ht : m.spaceAlloc t = true)
  (hkernel : ∀ mb, m.tables t (l1Index va) ≠ .coarse (.kernel mb))

include h ht hkernel

theorem unmapPage_spec :
    Unmaps m (m.unmapPage t va) t (pageIdx va) := by
  unfold unmapPage
  cases htab : m.tables t (l1Index va) with
  | absent => exact h.unmaps_same (StartsAs.empty htab).not_coarse
  | sect mb type => exact h.unmaps_same (StartsAs.identity htab).not_coarse
  | coarse l2 =>
    cases l2 with
    | kernel mb => exact absurd htab (hkernel mb)
    | pool slot =>
      have hmaps := h.maps_write (s := pageIdx va) (e := .zero) ht htab
      have hcoarse : (m.writeEntry (.pool slot) (l2Index va) .zero).tables t (l1Index va) =
          .coarse (.pool slot) := by rw [writeEntry_tables, htab]
      dsimp only
      split
      · rename_i hempty
        have hzero : ∀ s' : PageIdx, s'.1 = l1Index va →
            (m.writeEntry (.pool slot) (l2Index va) .zero).entry t s' = some .zero := by
          intro s' hs'
          have := all_eq_true.mp hempty s'.2 (mem_finRange _)
          rw [entry_of_coarse (by rw [hs', hcoarse]), of_decide_eq_true this]
        refine ⟨hmaps.owned.uninstall (by rw [writeEntry_spaceAlloc, ht]) hcoarse, ?_, rfl,
          ?_, ?_, ?_⟩
        · rw [freeL2Table_spaceAlloc, setL1_spaceAlloc, writeEntry_spaceAlloc]
        · intro e he
          rw [entry_uninstall, if_pos ⟨rfl, rfl⟩] at he
          cases he
        · intro t' s' ht' hk
          rw [entry_uninstall]
          have hold := (hmaps.entry_other t' s' ht' hk).resolve_right
            fun ⟨_, _, _, hstart, _⟩ => hstart.not_coarse _ htab
          split
          · rename_i hmb
            obtain ⟨rfl, hmb⟩ := hmb
            exact .inr ⟨rfl, hold ▸ hzero s' hmb, rfl⟩
          · exact .inl hold
        · intro t' i'
          rw [freeL2Table_tables, setL1_tables, writeEntry_tables]
          split
          · rename_i hk
            obtain ⟨rfl, rfl⟩ := hk
            exact .inr ⟨rfl, rfl, ⟨_, htab⟩, rfl⟩
          · exact .inl rfl
      · refine ⟨hmaps.owned, hmaps.spaceAlloc, hmaps.kernelL2, ?_, ?_, ?_⟩
        · intro e he
          exact some.inj (he.symm.trans hmaps.entry_self)
        · intro t' s' ht' hk
          exact .inl ((hmaps.entry_other t' s' ht' hk).resolve_right
            fun ⟨_, _, _, hstart, _⟩ => hstart.not_coarse _ htab)
        · intro t' i'
          exact .inl (by rw [writeEntry_tables])

/-! ## Attributes and whole megabytes -/

theorem updatePageProt_spec :
    m.updatePageProt t va attrs = (false, m) ∧
        (∀ e, m.entry t (pageIdx va) = some e → e.isMapped = false) ∨
      ∃ old, m.entry t (pageIdx va) = some old ∧ old.isMapped = true ∧
        (m.updatePageProt t va attrs).1 = true ∧
        Maps m (m.updatePageProt t va attrs).2 t (pageIdx va) ⟨old.page, attrs⟩ := by
  unfold updatePageProt
  cases htab : m.tables t (l1Index va) with
  | absent =>
    refine .inl ⟨rfl, fun e he => ?_⟩
    rw [entry_of_not_coarse (s := pageIdx va) (StartsAs.empty htab).not_coarse] at he
    cases he
  | sect mb type =>
    refine .inl ⟨rfl, fun e he => ?_⟩
    rw [entry_of_not_coarse (s := pageIdx va) (StartsAs.identity htab).not_coarse] at he
    cases he
  | coarse l2 =>
    cases l2 with
    | kernel mb => exact absurd htab (hkernel mb)
    | pool slot =>
      have hentry := entry_of_coarse (s := pageIdx va) htab
      dsimp only
      split
      · rename_i hmapped
        exact .inr ⟨_, hentry, hmapped, rfl, h.maps_write (s := pageIdx va) ht htab⟩
      rename_i hmapped
      refine .inl ⟨rfl, fun e he => ?_⟩
      rw [hentry] at he
      cases he
      exact Bool.eq_false_iff.mpr hmapped

theorem resetShatteredSection_spec :
    m.resetShatteredSection t va = (false, m) ∧ (∀ l2, m.tables t (l1Index va) ≠ .coarse l2) ∨
      ∃ slot, m.tables t (l1Index va) = .coarse (.pool slot) ∧
        m.resetShatteredSection t va = (true, m.fill (.pool slot) (identityTable (va / 2 ^ 20))) ∧
        ∀ t' s', m.spaceAlloc t' = true →
          (m.fill (.pool slot) (identityTable (va / 2 ^ 20))).entry t' s' =
            if t' = t ∧ s'.1 = l1Index va then some (identityTable (va / 2 ^ 20) s'.2)
            else m.entry t' s' := by
  unfold resetShatteredSection
  cases htab : m.tables t (l1Index va) with
  | absent => exact .inl ⟨rfl, by simp⟩
  | sect mb type => exact .inl ⟨rfl, by simp⟩
  | coarse l2 =>
    cases l2 with
    | kernel mb => exact absurd htab (hkernel mb)
    | pool slot => exact .inr ⟨slot, rfl, rfl, fun t' s' ht' => h.entry_fill ht ht' htab⟩

end

/-! ## New and freed address spaces -/

theorem newAddrSpace_user (hkernel : ∀ mb j, (m.kernelL2 mb j).isUser = false)
    (hnew : m.newAddrSpace = some (t, m')) (t' : Fin maxAddrSpaces) (s' : PageIdx) :
    m'.user t' s' = m.user t' s' := by
  obtain ⟨ht, rfl⟩ := newAddrSpace_eq_some hnew
  by_cases heq : t' = t
  · subst heq
    rw [user_of_dead ht, user_of_entry (by simp)]
    unfold entry
    split
    · rename_i l2 hl2
      cases l2 with
      | kernel mb => simp [entryAt, hkernel]
      | pool slot =>
        simp only [update_self] at hl2
        exact absurd hl2 kernelL1_ne_pool
    · rfl
  · simp [user, entry, heq, entryAt]

theorem freeAddrSpace_user (t' : Fin maxAddrSpaces) (s' : PageIdx) :
    (m.freeAddrSpace t).user t' s' = if t' = t then none else m.user t' s' := by
  rw [freeAddrSpace_eq]
  by_cases heq : t' = t
  · simp [user, heq]
  · simp [user, entry, heq, entryAt]

end Mmu

end Thumos
