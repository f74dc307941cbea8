import Thumos.Kernel.MmuSpec

/-!
# The kernel's part of an address space

An address space starts as a copy of the kernel's first-level table.  What the
page-table functions leave of that copy is said by `Mmu.Shaped`: a descriptor
is the kernel's, or absent, or a table of the pool, whose entries are user
pages, fault entries or the kernel's identity mapping.
-/

namespace Thumos

open Function

/-- What the hardware makes of an address: the frame, whether user code has
access, and the type of the memory. -/
structure View where
  page : Nat
  user : Bool
  type : MemoryType
deriving DecidableEq

def L2Entry.access (e : L2Entry) : Bool := e.attrs &&& 0x020 ≠ 0

def L2Entry.type (e : L2Entry) : MemoryType :=
  if e.attrs &&& 0x1CC = PageFlags.normalWbWa then .ram else .device

namespace Mmu

def viewUnder (m : Mmu) (table : L1Table) (s : Fin 4096 × Fin 256) : Option View :=
  match table s.1 with
  | .absent => none
  | .sect mb type => some ⟨mb * 256 + s.2, false, type⟩
  | .coarse l2 =>
    let e := m.entryAt l2 s.2
    if e.isMapped then some ⟨e.page, e.access, e.type⟩ else none

def view (m : Mmu) (t : Fin maxAddrSpaces) (s : Fin 4096 × Fin 256) : Option View :=
  m.viewUnder (m.tables t) s

variable {m m' : Mmu} {t t' : Fin maxAddrSpaces} {i : Fin 4096} {s : PageIdx} {e : L2Entry}
  {table : L2Table} {va : Nat} {X X' : Fin maxAddrSpaces → PageIdx → Prop}

def identityEntry (s : PageIdx) : L2Entry := identityTable s.1 s.2

/-- The tables of the allocated address spaces, apart from the entries in `X`. -/
structure Shaped (m : Mmu) (X : Fin maxAddrSpaces → PageIdx → Prop) : Prop where
  desc : ∀ t i, m.spaceAlloc t = true → m.tables t i = kernelL1 i ∨ m.tables t i = .absent ∨
    ∃ slot, m.tables t i = .coarse (.pool slot)
  entry : ∀ t s e, m.spaceAlloc t = true → (∃ slot, m.tables t s.1 = .coarse (.pool slot)) →
    m.entry t s = some e → ¬X t s → e.isUser = true ∨ e = .zero ∨ e = identityEntry s
  image : ∀ t i, m.spaceAlloc t = true → kernelMb ≤ i.val → i.val < kernelMb + kernelSections →
    m.tables t i = kernelL1 i

theorem kernelL1_sect {mb : Nat} {type : MemoryType} (h : kernelL1 i = .sect mb type) : mb = i := by
  unfold kernelL1 at h
  split_ifs at h <;> simp_all

theorem kernelL1_image (hlo : kernelMb ≤ i.val) (hhi : i.val < kernelMb + kernelSections) :
    ∃ mb, kernelL1 i = .coarse (.kernel mb) := by
  unfold kernelL1
  simp only [kernelMb] at *
  rw [if_neg (by omega), if_neg (by omega), if_pos hhi]
  exact ⟨_, rfl⟩

section

variable (h : m.Shaped X) (ht : m.spaceAlloc t = true)

include h ht

theorem Shaped.not_kernel
    (hi : ¬(kernelMb ≤ i.val ∧ i.val < kernelMb + kernelSections)) (mb : Fin kernelSections) :
    m.tables t i ≠ .coarse (.kernel mb) := by
  rcases h.desc t i ht with heq | heq | ⟨slot, heq⟩
  · rw [heq]
    unfold kernelL1
    intro hk
    split_ifs at hk
    exact hi ⟨by omega, by omega⟩
  · rw [heq]
    simp
  · rw [heq]
    simp

theorem Shaped.startsAs
    (hstart : StartsAs m t s.1 table) : table s.2 = .zero ∨ table s.2 = identityEntry s := by
  cases hstart with
  | empty => exact .inl rfl
  | identity hsect =>
    rename_i mb type
    refine .inr ?_
    rcases h.desc t s.1 ht with heq | heq | ⟨slot, heq⟩
    · rw [kernelL1_sect (heq.symm.trans hsect)]
      rfl
    · rw [hsect] at heq
      cases heq
    · rw [hsect] at heq
      cases heq

theorem Shaped.maps (hmaps : Maps m m' t s e)
    (he : e.isUser = true ∨ X' t s) (hX : ∀ t' s', X t' s' → ¬(t' = t ∧ s' = s) → X' t' s') :
    m'.Shaped X' where
  desc t' i' ht' := by
    rw [hmaps.spaceAlloc] at ht'
    by_cases hk : t' = t ∧ i' = s.1
    · obtain ⟨rfl, rfl⟩ := hk
      exact .inr (.inr hmaps.coarse)
    · rw [hmaps.tables t' i' hk]
      exact h.desc t' i' ht'
  entry t' s' e' ht' hcoarse he' hx := by
    rw [hmaps.spaceAlloc] at ht'
    by_cases hk : t' = t ∧ s' = s
    · obtain ⟨rfl, rfl⟩ := hk
      rw [hmaps.entry_self] at he'
      cases he'
      exact .inl (he.resolve_right hx)
    · rcases hmaps.entry_other t' s' ht' hk with heq | ⟨rfl, hmb, table, hstart, heq⟩
      · refine h.entry t' s' e' ht' ?_ (heq ▸ he') fun hc => hx (hX t' s' hc hk)
        -- an entry that is as before was in a table of the pool before
        by_cases hmb : t' = t ∧ s'.1 = s.1
        · obtain ⟨rfl, hmb⟩ := hmb
          rcases hmaps.before with hpool | hnot
          · rwa [hmb]
          · rw [heq, entry_of_not_coarse (hmb ▸ hnot)] at he'
            cases he'
        · rwa [hmaps.tables t' s'.1 hmb] at hcoarse
      · rw [heq] at he'
        cases he'
        exact .inr (h.startsAs (s := s') ht' (hmb ▸ hstart))
  image t' i' ht' hlo hhi := by
    rw [hmaps.spaceAlloc] at ht'
    have hold := h.image t' i' ht' hlo hhi
    obtain ⟨mb, hmb⟩ := kernelL1_image hlo hhi
    rw [← hold]
    refine hmaps.tables t' i' ?_
    rintro ⟨rfl, rfl⟩
    rw [hmb] at hold
    rcases hmaps.before with ⟨slot, hslot⟩ | hnot
    · rw [hold] at hslot
      cases hslot
    · exact hnot _ hold

end

theorem Shaped.unmaps (h : m.Shaped X) (hunmaps : Unmaps m m' t s)
    (hX : ∀ t' s', X t' s' → ¬(t' = t ∧ s' = s) → X' t' s') : m'.Shaped X' where
  desc t' i' ht' := by
    rw [hunmaps.spaceAlloc] at ht'
    rcases hunmaps.tables t' i' with heq | ⟨-, -, -, heq⟩
    · rw [heq]
      exact h.desc t' i' ht'
    · exact .inr (.inl heq)
  entry t' s' e' ht' hcoarse he' hx := by
    rw [hunmaps.spaceAlloc] at ht'
    by_cases hk : t' = t ∧ s' = s
    · obtain ⟨rfl, rfl⟩ := hk
      exact .inr (.inl (hunmaps.entry_self e' he'))
    rcases hunmaps.entry_other t' s' ht' hk with heq | ⟨-, -, hnone⟩
    · refine h.entry t' s' e' ht' ?_ (heq ▸ he') fun hc => hx (hX t' s' hc hk)
      rcases hunmaps.tables t' s'.1 with htab | ⟨-, -, -, htab⟩
      · rwa [htab] at hcoarse
      · rw [htab] at hcoarse
        obtain ⟨slot, hslot⟩ := hcoarse
        cases hslot
    · rw [hnone] at he'
      cases he'
  image t' i' ht' hlo hhi := by
    rw [hunmaps.spaceAlloc] at ht'
    have hold := h.image t' i' ht' hlo hhi
    rcases hunmaps.tables t' i' with heq | ⟨-, -, ⟨slot, hslot⟩, -⟩
    · exact heq.trans hold
    · obtain ⟨mb, hmb⟩ := kernelL1_image hlo hhi
      rw [hold, hmb] at hslot
      cases hslot

theorem l1Index_val (hva : va < usizeSize) : (l1Index va).val = va / 2 ^ 20 := by
  simp only [l1Index, Fin.ofNat, usizeSize] at *
  omega

theorem Shaped.reset (h : m.Shaped X) (howned : m.Owned) (ht : m.spaceAlloc t = true)
    (hva : va < usizeSize) (hkernel : ∀ mb, m.tables t (l1Index va) ≠ .coarse (.kernel mb))
    (hX : ∀ t' s', X t' s' → ¬(t' = t ∧ s'.1 = l1Index va) → X' t' s') :
    (m.resetShatteredSection t va).2.Shaped X' := by
  rcases resetShatteredSection_spec howned ht hkernel with ⟨heq, hnot⟩ | ⟨slot, htab, heq, hentry⟩
  · rw [heq]
    refine ⟨h.desc, fun t' s' e' ht' hcoarse he' hx => ?_, h.image⟩
    refine h.entry t' s' e' ht' hcoarse he' fun hc => hx (hX t' s' hc ?_)
    rintro ⟨rfl, hmb⟩
    obtain ⟨slot, hslot⟩ := hcoarse
    exact hnot _ (hmb ▸ hslot)
  · rw [heq]
    refine ⟨fun t' i' ht' => ?_, fun t' s' e' ht' hcoarse he' hx => ?_, fun t' i' ht' => ?_⟩
    · rw [fill_tables]
      exact h.desc t' i' (by rwa [fill_spaceAlloc] at ht')
    · rw [fill_spaceAlloc] at ht'
      rw [hentry t' s' ht'] at he'
      split at he'
      · rename_i hk
        cases he'
        refine .inr (.inr ?_)
        rw [identityEntry, hk.2, l1Index_val hva]
      · rename_i hk
        exact h.entry t' s' e' ht' hcoarse he' fun hc => hx (hX t' s' hc hk)
    · rw [fill_tables]
      exact h.image t' i' (by rwa [fill_spaceAlloc] at ht')

theorem Shaped.newAddrSpace (h : m.Shaped X) (hnew : m.newAddrSpace = some (t, m')) :
    m'.Shaped X := by
  obtain ⟨ht, rfl⟩ := newAddrSpace_eq_some hnew
  refine ⟨fun t' i' ht' => ?_, fun t' s' e' ht' hcoarse he' hx => ?_, fun t' i' ht' hlo hhi => ?_⟩
  · by_cases heq : t' = t
    · simp [heq]
    · simp only [update_of_ne heq] at ht' ⊢
      exact h.desc t' i' ht'
  · by_cases heq : t' = t
    · obtain ⟨slot, hslot⟩ := hcoarse
      simp only [heq, update_self] at hslot
      exact absurd hslot kernelL1_ne_pool
    · simp only [update_of_ne heq] at ht' hcoarse
      refine h.entry t' s' e' ht' hcoarse ?_ hx
      simpa [Mmu.entry, heq, entryAt] using he'
  · by_cases heq : t' = t
    · simp [heq]
    · simp only [update_of_ne heq] at ht' ⊢
      exact h.image t' i' ht' hlo hhi

theorem Shaped.freeAddrSpace (h : m.Shaped X) : (m.freeAddrSpace t).Shaped X := by
  rw [freeAddrSpace_eq]
  have hlive : ∀ t', update m.spaceAlloc t false t' = true → m.spaceAlloc t' = true := by
    intro t' ht'
    by_cases heq : t' = t
    · simp [heq] at ht'
    · rwa [update_of_ne heq] at ht'
  exact ⟨fun t' i' ht' => h.desc t' i' (hlive t' ht'),
    fun t' s' e' ht' hcoarse he' hx => h.entry t' s' e' (hlive t' ht') hcoarse he' hx,
    fun t' i' ht' => h.image t' i' (hlive t' ht')⟩

/-! ## What the hardware sees -/

theorem view_of_coarse {l2 : L2Ref} (h : m.tables t s.1 = .coarse l2) :
    m.view t s = ((m.entry t s).filter L2Entry.isMapped).map
      fun e => ⟨e.page, e.access, e.type⟩ := by
  rw [view, viewUnder, entry_of_coarse h, h, Option.filter_some]
  dsimp only
  split <;> rfl

theorem access_identityTable (mb : Nat) (j : Fin 256) : (identityTable mb j).access = false := by
  show decide ((kernelDefaultPage &&& 0x020) ≠ 0) = false
  decide

end Mmu

end Thumos
