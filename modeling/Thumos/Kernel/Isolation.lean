import Thumos.Kernel.Spaces
import Thumos.Kernel.KernelView
import Thumos.Kernel.Frames

/-!
# Isolation of the processes

Every frame that a process, the kernel's heap or a caller of `AllocPage` has is
allocated, and nobody else has it (`Memory.Isolated`).  This file says which
small steps keep that: a frame is taken from the allocator, a frame that nobody
else has is mapped, a page is unmapped, a frame that nobody has goes back.
-/

namespace Thumos

open Ownership Pages

inductive Holder where
  | page (t : Fin maxAddrSpaces) (s : PageIdx)
  | grant (g : Grant)

theorem isUser_protToL2Flags (n : Nat) (prot : UInt32) :
    (L2Entry.mk n (protToL2Flags prot)).isUser = true := by
  unfold protToL2Flags L2Entry.isUser
  dsimp only
  split_ifs <;> decide

/-- An entry of the kernel image: the page is mapped to itself, for the kernel
only. -/
structure L2Entry.Kernel (e : L2Entry) (mb : Fin kernelSections) (j : Fin 256) : Prop where
  isUser : e.isUser = false
  isMapped : e.isMapped = true
  page : e.page = firstFrame + mb * 256 + j
  access : e.access = false
  type : e.type = .ram

namespace Memory

/-- The holder has the frame.  A page that is mapped to an address below RAM has
no frame. -/
def Holds (m : Memory) : Holder → Nat → Prop
  | .page t s, n => (∃ e, m.mmu.user t s = some e ∧ e.page = n) ∧ firstFrame ≤ n
  | .grant g, n => m.grants n = some g

def inUse (m : Memory) : Set Nat := {n | UsableFrame n ∧ n ∉ m.pages.frames}

/-- The invariant.  `X` are the entries in the course of being revoked. -/
structure Isolated (X : Fin maxAddrSpaces → PageIdx → Prop) (m : Memory) : Prop where
  owned : m.mmu.Owned
  shaped : m.mmu.Shaped X
  kernelEntries : ∀ mb j, (m.mmu.kernelL2 mb j).Kernel mb j
  managed : m.pages.Managed
  exclusive : Exclusive m.inUse m.Holds
  attrs : ∀ t s e, m.mmu.user t s = some e → ∃ prot, e.attrs = protToL2Flags prot

variable {X X' : Fin maxAddrSpaces → PageIdx → Prop} {m : Memory} {mmu : Mmu}
  {pages : Pages} {t t' : Fin maxAddrSpaces} {s s' : PageIdx} {n k : Nat} {prot : UInt32}

namespace Isolated

section

variable (h : Isolated X m)

include h

theorem kernelTables (mb : Fin kernelSections) (j : Fin 256) :
    (m.mmu.kernelL2 mb j).isUser = false := (h.kernelEntries mb j).isUser

theorem user_inUse {e : L2Entry} (he : m.mmu.user t s = some e)
    (hram : firstFrame ≤ e.page) : e.page ∈ m.inUse :=
  h.exclusive.used (k := .page t s) ⟨⟨e, he, rfl⟩, hram⟩

theorem not_holds (hn : n ∈ m.pages.frames) (k : Holder) : ¬m.Holds k n :=
  h.exclusive.not_holds (fun hc => hc.2 hn) k

theorem mono (hX : ∀ t s, X t s → X' t s) : Isolated X' m :=
  ⟨h.owned, ⟨h.shaped.desc, fun t s e ht hc he hx => h.shaped.entry t s e ht hc he (hx ∘ hX t s),
      h.shaped.image⟩,
    h.kernelEntries, h.managed, h.exclusive, h.attrs⟩

theorem withSpaces (spaces : Slots maxProcs Space) :
    Isolated X { m with spaces } :=
  ⟨h.owned, h.shaped, h.kernelEntries, h.managed, h.exclusive, h.attrs⟩

theorem withRam (ram : Nat → FrameData) : Isolated X { m with ram } :=
  ⟨h.owned, h.shaped, h.kernelEntries, h.managed, h.exclusive, h.attrs⟩

theorem regrant {grants : Nat → Option Grant}
    (hsub : ∀ i g, grants i = some g → m.grants i = some g ∨ i ∈ m.inUse ∧ ∀ k, ¬m.Holds k i) :
    Isolated X { m with grants } := by
  refine ⟨h.owned, h.shaped, h.kernelEntries, h.managed, ⟨?_, ?_⟩, h.attrs⟩
  · intro k i hk
    cases k with
    | page t s => exact h.exclusive.used (k := .page t s) hk
    | grant g =>
      rcases hsub i g hk with hold | hfresh
      · exact h.exclusive.used (k := .grant g) hold
      · exact hfresh.1
  · intro k k' i hk hk'
    cases k with
    | page t s =>
      cases k' with
      | page t' s' => exact h.exclusive.unique (k := .page t s) hk hk'
      | grant g =>
        rcases hsub i g hk' with hold | hfresh
        · exact h.exclusive.unique (k := .page t s) hk hold
        · exact absurd hk (hfresh.2 (.page t s))
    | grant g =>
      cases k' with
      | page t s =>
        rcases hsub i g hk with hold | hfresh
        · exact h.exclusive.unique (k := .grant g) hold hk'
        · exact absurd hk' (hfresh.2 (.page t s))
      | grant g' =>
        exact congrArg Holder.grant (Option.some.inj (Eq.trans (Eq.symm hk) hk'))

theorem take (hh : Handed m.pages pages n k) :
    Isolated X { m with pages } := by
  have hsub : ∀ i, i ∈ pages.frames → i ∈ m.pages.frames := fun i hi => by
    rw [hh.frames] at hi
    exact hi.1
  refine ⟨h.owned, h.shaped, h.kernelEntries, hh.managed, ?_, h.attrs⟩
  refine h.exclusive.restrict fun k i hk => ⟨hk, ?_⟩
  obtain ⟨husable, hfree⟩ := h.exclusive.used hk
  exact ⟨husable, fun hc => hfree (hsub i hc)⟩

theorem handed (hh : Handed m.pages pages n k) {i : Nat} (hi : i ∈ run n k) :
    UsableFrame i ∧ i ∉ pages.frames ∧ ∀ k, ¬m.Holds k i := by
  have hfree := hh.free i hi
  refine ⟨h.managed.usable i hfree, ?_, h.not_holds hfree⟩
  rw [hh.frames]
  exact fun hc => hc.2 hi

theorem map (ht : m.mmu.spaceAlloc t = true)
    (hmaps : Mmu.Maps m.mmu mmu t s ⟨n, protToL2Flags prot⟩)
    (hn : firstFrame ≤ n → n ∈ m.inUse ∧ ∀ k, m.Holds k n → k = .page t s) :
    Isolated X { m with mmu } := by
  have huser := hmaps.user ht (isUser_protToL2Flags n prot)
  -- a holder of a frame of RAM had it before, or it is the new page
  have hsub : ∀ k i, { m with mmu }.Holds k i →
      m.Holds k i ∨ k = .page t s ∧ i = n ∧ firstFrame ≤ n := by
    intro k i hk
    cases k with
    | grant g => exact .inl hk
    | page t' s' =>
      obtain ⟨⟨e, he, rfl⟩, hram⟩ := hk
      rw [show mmu.user t' s' = _ from huser t' s'] at he
      split at he
      · rename_i heq
        obtain ⟨rfl, rfl⟩ := heq
        cases he
        exact .inr ⟨rfl, rfl, hram⟩
      · exact .inl ⟨⟨e, he, rfl⟩, hram⟩
  refine ⟨hmaps.owned, ?_, by rw [hmaps.kernelL2]; exact h.kernelEntries, h.managed, ?_, ?_⟩
  · exact h.shaped.maps ht hmaps (.inl (isUser_protToL2Flags n prot)) fun _ _ hx _ => hx
  · by_cases hram : firstFrame ≤ n
    · refine h.exclusive.acquire (hn hram).2 (hn hram).1 subset_rfl fun k i hk => ?_
      rcases hsub k i hk with hold | ⟨hkey, hin, -⟩
      · exact .inl hold
      · exact .inr ⟨hkey, hin⟩
    · refine h.exclusive.restrict fun k i hk => ?_
      have hold := (hsub k i hk).resolve_right fun hc => hram hc.2.2
      exact ⟨hold, h.exclusive.used hold⟩
  · intro t' s' e he
    rw [show mmu.user t' s' = _ from huser t' s'] at he
    split at he
    · cases he
      exact ⟨prot, rfl⟩
    · exact h.attrs t' s' e he

theorem lose (howned : mmu.Owned) (hshaped : mmu.Shaped X')
    (hkernel : mmu.kernelL2 = m.mmu.kernelL2)
    (huser : ∀ t s e, mmu.user t s = some e → m.mmu.user t s = some e) :
    Isolated X' { m with mmu } := by
  refine ⟨howned, hshaped, by rw [hkernel]; exact h.kernelEntries, h.managed, ?_,
    fun t s e he => h.attrs t s e (huser t s e he)⟩
  refine h.exclusive.restrict fun k i hk => ?_
  have hold : m.Holds k i := by
    cases k with
    | grant g => exact hk
    | page t' s' =>
      obtain ⟨⟨e, he, rfl⟩, hram⟩ := hk
      exact ⟨⟨e, huser t' s' e he, rfl⟩, hram⟩
  exact ⟨hold, h.exclusive.used hold⟩

theorem unmap (ht : m.mmu.spaceAlloc t = true)
    (hunmaps : Mmu.Unmaps m.mmu mmu t s) (hX : ∀ t' s', X t' s' → ¬(t' = t ∧ s' = s) → X' t' s') :
    Isolated X' { m with mmu } := by
  refine h.lose hunmaps.owned (h.shaped.unmaps hunmaps hX) hunmaps.kernelL2 fun t' s' e he => ?_
  rw [hunmaps.user ht] at he
  split at he
  · cases he
  · exact he

theorem protect (ht : m.mmu.spaceAlloc t = true) {old : L2Entry}
    (hold : m.mmu.user t s = some old ∨ old.page < firstFrame)
    (hmaps : Mmu.Maps m.mmu mmu t s ⟨old.page, protToL2Flags prot⟩) :
    Isolated X { m with mmu } := by
  refine h.map ht hmaps fun hram => ?_
  have he := hold.resolve_right (by omega)
  refine ⟨h.user_inUse he hram, fun k hk => ?_⟩
  exact h.exclusive.unique hk (show m.Holds (.page t s) old.page from ⟨⟨old, he, rfl⟩, hram⟩)

theorem giveBack {p' : Pages} (hr : Returned m.pages p' n k)
    (husable : ∀ i ∈ run n k, UsableFrame i) (hnone : ∀ i ∈ run n k, ∀ k, ¬m.Holds k i) :
    Isolated X { m with pages := p' } := by
  refine ⟨h.owned, h.shaped, h.kernelEntries, hr.managed h.managed husable, ?_, h.attrs⟩
  refine h.exclusive.restrict fun k i hk => ⟨hk, ?_⟩
  obtain ⟨husable, hfree⟩ := h.exclusive.used hk
  refine ⟨husable, fun hc => ?_⟩
  rw [show p'.frames = _ from hr.frames] at hc
  rcases hc with hc | hc
  · exact hfree hc
  · exact hnone i hc k hk

end

end Isolated

/-! ## What an operation on one address space leaves alone -/

/-- Only pages of `S` in the address space `t` may differ. -/
structure Touches (t : Fin maxAddrSpaces) (S : Set PageIdx) (m m' : Memory) : Prop where
  spaceAlloc : m'.mmu.spaceAlloc = m.mmu.spaceAlloc
  spaces : m'.spaces = m.spaces
  grants : m'.grants = m.grants
  tables : ∀ t' i, t' ≠ t → m'.mmu.tables t' i = m.mmu.tables t' i
  entry : ∀ t' s', m.mmu.spaceAlloc t' = true → t' ≠ t → m'.mmu.entry t' s' = m.mmu.entry t' s'
  user : ∀ t' s', ¬(t' = t ∧ s' ∈ S) → m'.mmu.user t' s' = m.mmu.user t' s'

/-- Only the allocator and the contents of frames may differ. -/
structure Inert (m m' : Memory) : Prop where
  mmu : m'.mmu = m.mmu
  spaces : m'.spaces = m.spaces
  grants : m'.grants = m.grants

variable {m' m'' : Memory}

theorem Inert.trans (h : Inert m m') (h' : Inert m' m'') : Inert m m'' :=
  ⟨h'.mmu.trans h.mmu, h'.spaces.trans h.spaces, h'.grants.trans h.grants⟩

theorem Inert.holds (h : Inert m m') {k : Holder} : m'.Holds k n ↔ m.Holds k n := by
  cases k with
  | page t s => rw [Holds, Holds, h.mmu]
  | grant g => rw [Holds, Holds, h.grants]

namespace Touches

variable {S S' : Set PageIdx}

theorem ofInert (h : Inert m m') : Touches t S m m' where
  spaceAlloc := by rw [h.mmu]
  spaces := h.spaces
  grants := h.grants
  tables _ _ _ := by rw [h.mmu]
  entry _ _ _ _ := by rw [h.mmu]
  user _ _ _ := by rw [h.mmu]

theorem refl : Touches t S m m := ofInert ⟨rfl, rfl, rfl⟩

theorem live {t' : Fin maxAddrSpaces} (h : Touches t S m m') (ht : m.mmu.spaceAlloc t' = true) :
    m'.mmu.spaceAlloc t' = true :=
  (congrFun h.spaceAlloc t').trans ht

theorem holds (h : Touches t S m m') {k : Holder} (hk : ∀ s ∈ S, k ≠ .page t s) :
    m'.Holds k n ↔ m.Holds k n := by
  cases k with
  | grant g => simp [Holds, h.grants]
  | page t' s' =>
    have hout : ¬(t' = t ∧ s' ∈ S) := by
      rintro ⟨rfl, hs⟩
      exact hk s' hs rfl
    simp [Holds, h.user t' s' hout]

theorem trans (h : Touches t S m m') (h' : Touches t S m' m'') : Touches t S m m'' where
  spaceAlloc := h'.spaceAlloc.trans h.spaceAlloc
  spaces := h'.spaces.trans h.spaces
  grants := h'.grants.trans h.grants
  tables t' i ht' := (h'.tables t' i ht').trans (h.tables t' i ht')
  entry t' s' hlive ht' := (h'.entry t' s' (h.live hlive) ht').trans (h.entry t' s' hlive ht')
  user t' s' hs := (h'.user t' s' hs).trans (h.user t' s' hs)

theorem mono (h : Touches t S m m') (hS : S ⊆ S') : Touches t S' m m' :=
  ⟨h.spaceAlloc, h.spaces, h.grants, h.tables, h.entry,
    fun t' s' hs' => h.user t' s' fun ⟨ht, hs⟩ => hs' ⟨ht, hS hs⟩⟩

theorem univ (h : Touches t S m m') : Touches t Set.univ m m' := h.mono (Set.subset_univ S)

theorem ofMaps {e : L2Entry} (ht : m.mmu.spaceAlloc t = true) (h : Mmu.Maps m.mmu mmu t s e) :
    Touches t {s} m { m with mmu } where
  spaceAlloc := h.spaceAlloc
  spaces := rfl
  grants := rfl
  tables t' i ht' := h.tables t' i fun hc => ht' hc.1
  entry t' s' hlive ht' :=
    (h.entry_other t' s' hlive fun hc => ht' hc.1).resolve_right fun hc => ht' hc.1
  user t' s' hs' := (h.user_filter ht t' s').trans (if_neg hs')

theorem ofUnmaps (ht : m.mmu.spaceAlloc t = true) (h : Mmu.Unmaps m.mmu mmu t s) :
    Touches t {s} m { m with mmu } where
  spaceAlloc := h.spaceAlloc
  spaces := rfl
  grants := rfl
  tables t' i ht' := (h.tables t' i).resolve_right fun hc => ht' hc.1
  entry t' s' hlive ht' :=
    (h.entry_other t' s' hlive fun hc => ht' hc.1).resolve_right fun hc => ht' hc.1
  user t' s' hs' := (h.user ht t' s').trans (if_neg hs')

end Touches

/-! ## Frames that go back -/

theorem freePage_inert (m : Memory) (addr : Nat) : Inert m (m.freePage addr) := by
  unfold freePage tryFreePage
  split <;> exact ⟨rfl, rfl, rfl⟩

theorem freePage_cases (h : m.pages.Managed) (addr : Nat) :
    m.freePage addr = m ∨ ∃ n p', addr = n * pageSize ∧ Returned m.pages p' n 1 ∧
      m.freePage addr = { m with pages := p', ram := Function.update m.ram n zeroFrame } := by
  unfold freePage tryFreePage
  rcases h.tryFreePage addr with heq | ⟨n, p', rfl, heq, hr⟩
  · rw [heq]
    exact .inl rfl
  · refine .inr ⟨n, p', rfl, hr, ?_⟩
    rw [heq]
    simp

theorem freeContiguous_cases (h : m.pages.Managed) {addr k : Nat}
    (hbound : addr / pageSize + k < usizeSize) :
    m.freeContiguous addr k = m ∨ ∃ n p', addr = n * pageSize ∧ Returned m.pages p' n k ∧
      m.freeContiguous addr k = { m with
        pages := p'
        ram := fun page => if n ≤ page ∧ page < n + k then zeroFrame else m.ram page } := by
  unfold freeContiguous
  rcases h.freeContiguous hbound with heq | ⟨n, p', rfl, heq, hr⟩
  · rw [heq]
    exact .inl rfl
  · refine .inr ⟨n, p', rfl, hr, ?_⟩
    rw [heq]
    simp

/-- An address below RAM, which `free_page` refuses, or a frame that nobody has. -/
def Loose (m : Memory) (addr : Nat) : Prop :=
  addr < ramStart ∨ ∃ n, addr = n * pageSize ∧ UsableFrame n ∧ ∀ k, ¬m.Holds k n

theorem freePage_low (h : m.pages.Managed) {addr : Nat} (haddr : addr < ramStart) :
    m.freePage addr = m := by
  refine (freePage_cases h addr).resolve_right ?_
  rintro ⟨n, p', rfl, hr, -⟩
  have := (hr.ram n (mem_run.mpr (by omega))).1
  simp only [ramStart, pageSize, firstFrame] at *
  omega

theorem freePage_eq (h : m.pages.Managed) (hn : n ∈ m.inUse) :
    ∃ p', Returned m.pages p' n 1 ∧
      m.freePage (n * pageSize) = { m with
        pages := p', ram := Function.update m.ram n zeroFrame } := by
  obtain ⟨husable, hfree⟩ := hn
  have hok := tryFreePage_ok h.base husable.ram.1 husable.ram.2 hfree
  unfold freePage tryFreePage
  rcases h.tryFreePage (n * pageSize) with heq | ⟨n', p', hn', heq, hr⟩
  · rw [heq] at hok
    cases hok
  · cases Nat.eq_of_mul_eq_mul_right (by decide) hn'
    refine ⟨p', hr, ?_⟩
    rw [heq]
    simp

namespace Isolated

theorem freePage (h : Isolated X m) {addr : Nat} (haddr : m.Loose addr) :
    Isolated X (m.freePage addr) := by
  rcases haddr with hlow | ⟨n, rfl, husable, hnone⟩
  · rwa [freePage_low h.managed hlow]
  rcases freePage_cases h.managed (n * pageSize) with heq | ⟨n', p', hn', hr, heq⟩
  · rwa [heq]
  · cases Nat.eq_of_mul_eq_mul_right (by decide) hn'
    have hself : ∀ i ∈ run n 1, i = n := fun i hi => by rw [mem_run] at hi; omega
    rw [heq]
    exact (h.giveBack hr (fun i hi => hself i hi ▸ husable)
      fun i hi => hself i hi ▸ hnone).withRam _

/-! ## Address spaces -/

theorem newAddrSpace (h : Isolated X m) (hnew : m.mmu.newAddrSpace = some (t, mmu)) :
    Isolated X { m with mmu } := by
  refine h.lose (h.owned.newAddrSpace hnew) (h.shaped.newAddrSpace hnew) ?_ fun t' s' e he => ?_
  · obtain ⟨-, rfl⟩ := Mmu.newAddrSpace_eq_some hnew
    rfl
  · rwa [Mmu.newAddrSpace_user h.kernelTables hnew] at he

theorem freeAddrSpace (h : Isolated X m) (ht : m.mmu.spaceAlloc t = true) :
    Isolated X { m with mmu := m.mmu.freeAddrSpace t } := by
  refine h.lose (h.owned.freeAddrSpace ht) h.shaped.freeAddrSpace ?_ fun t' s' e he => ?_
  · rw [Mmu.freeAddrSpace_eq]
  · rw [Mmu.freeAddrSpace_user] at he
    split at he
    · cases he
    · exact he

end Isolated

end Memory

end Thumos
