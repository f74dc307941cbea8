import Thumos.Kernel.Isolation

/-!
# Loops over pages

The loops of the memory calls map fresh frames page by page, or give pages up
one after the other.  `Memory.Backs` and `Memory.Sheds` say what a whole loop
has done to the address space and to the allocator.

A loop that maps fresh pages cannot run through the address space: every
megabyte that it enters needs a second-level table, and the pool has 64 of them
(`Mmu.Owned.pages_le`).
-/

namespace Thumos

open Ownership Pages List Function

/-! ## Addresses and indices -/

def region (base i j : Nat) : Set PageIdx :=
  {s | ∃ l, i ≤ l ∧ l < j ∧ s = pageIdx (base + l * pageSize)}

theorem l2Index_val (va : Nat) : (l2Index va).val = va / pageSize % 256 := rfl

theorem pageIdx_inj {va va' : Nat} (hva : va < usizeSize) (hva' : va' < usizeSize)
    (h : pageIdx va = pageIdx va') : va / pageSize = va' / pageSize := by
  have h1 : (l1Index va).val = (l1Index va').val := congrArg (fun s : PageIdx => s.1.val) h
  have h2 : (l2Index va).val = (l2Index va').val := congrArg (fun s : PageIdx => s.2.val) h
  rw [Mmu.l1Index_val hva, Mmu.l1Index_val hva'] at h1
  rw [l2Index_val, l2Index_val] at h2
  simp only [pageSize] at *
  omega

theorem pageIdx_ne {base i j : Nat} (hi : base + i * pageSize < usizeSize)
    (hj : base + j * pageSize < usizeSize) (hne : i ≠ j) :
    pageIdx (base + i * pageSize) ≠ pageIdx (base + j * pageSize) := by
  intro h
  have := pageIdx_inj hi hj h
  simp only [pageSize] at *
  omega

theorem region_succ (base : Nat) {i j : Nat} (hij : i ≤ j) :
    region base i (j + 1) = insert (pageIdx (base + j * pageSize)) (region base i j) := by
  ext s
  constructor
  · rintro ⟨l, hil, hlj, rfl⟩
    by_cases heq : l = j
    · exact .inl (heq ▸ rfl)
    · exact .inr ⟨l, hil, by omega, rfl⟩
  · rintro (rfl | ⟨l, hil, hlj, rfl⟩)
    · exact ⟨j, hij, by omega, rfl⟩
    · exact ⟨l, hil, by omega, rfl⟩

theorem region_empty {base i : Nat} : region base i i = ∅ := by
  ext s
  constructor
  · rintro ⟨l, hil, hli, -⟩
    omega
  · rintro ⟨⟩

namespace Mmu

variable {m : Mmu} {t : Fin maxAddrSpaces} {s : PageIdx} {va : Nat}

def Pooled (m : Mmu) (t : Fin maxAddrSpaces) (i : Fin 4096) : Prop :=
  ∃ slot, m.tables t i = .coarse (.pool slot)

theorem Owned.pages_le (h : m.Owned) (ht : m.spaceAlloc t = true) {base i : Nat}
    (hbase : base ≤ mmapEnd)
    (hpool : ∀ j < i, m.Pooled t (l1Index (base + j * pageSize))) : i ≤ 64 * 256 := by
  by_contra hlt
  have hmb : ∀ a : Fin 65, ∃ slot, m.Points (t, l1Index (base + a * 256 * pageSize)) slot := by
    intro a
    obtain ⟨slot, hslot⟩ := hpool (a * 256) (by omega)
    exact ⟨slot, ht, hslot⟩
  choose slot hslot using hmb
  have hinj : Function.Injective slot := by
    intro a b hab
    have heq := h.exclusive.unique (hslot a) (hab ▸ hslot b)
    have hval := congrArg (fun k : Fin maxAddrSpaces × Fin 4096 => k.2.val) heq
    have hbound : ∀ c : Fin 65, base + c * 256 * pageSize < usizeSize := by
      intro c
      have := c.isLt
      simp only [mmapEnd, pageSize, usizeSize] at *
      omega
    rw [l1Index_val (hbound a), l1Index_val (hbound b)] at hval
    ext
    simp only [pageSize] at hval
    omega
  have hcard := Fintype.card_le_of_injective slot hinj
  rw [Fintype.card_fin, Fintype.card_fin] at hcard
  exact absurd hcard (by decide)

theorem Shaped.not_kernel_low {X : Fin maxAddrSpaces → PageIdx → Prop} (h : m.Shaped X)
    (ht : m.spaceAlloc t = true) (hva : va < ramStart) (mb : Fin kernelSections) :
    m.tables t (l1Index va) ≠ .coarse (.kernel mb) := by
  refine h.not_kernel ht ?_ mb
  rw [l1Index_val (lt_trans hva (by decide))]
  simp only [kernelMb, ramStart] at *
  omega

theorem pooled_of_user {e : L2Entry} (hkernel : ∀ mb j, (m.kernelL2 mb j).isUser = false)
    (he : m.user t s = some e) : m.Pooled t s.1 := by
  obtain ⟨-, hentry, huser⟩ := user_eq_some.mp he
  unfold entry at hentry
  split at hentry
  · rename_i l2 hl2
    cases l2 with
    | pool slot => exact ⟨slot, hl2⟩
    | kernel mb =>
      cases hentry
      rw [entryAt, hkernel] at huser
      cases huser
  · cases hentry

theorem pageEntry_mul (n : Nat) (attrs : Attrs) : pageEntry (n * pageSize) attrs = ⟨n, attrs⟩ := by
  rw [pageEntry, Nat.mul_div_cancel _ (by decide)]

end Mmu

namespace Memory

variable {X X' : Fin maxAddrSpaces → PageIdx → Prop} {m m' m'' : Memory} {t : Fin maxAddrSpaces}
  {s : PageIdx} {S S' : Set PageIdx} {N N' : Set Nat} {base i k n va : Nat} {prot : UInt32}
  {mmu : Mmu}

/-! ## Frames freed one by one -/

theorem freePage_with (m : Memory) (addr : Nat) (mmu : Mmu) (spaces : Slots maxProcs Space) :
    { m with mmu, spaces }.freePage addr = { m.freePage addr with mmu, spaces } := by
  unfold freePage tryFreePage
  cases m.pages.tryFreePage addr with
  | mk ok pages => cases ok <;> rfl

def freeAll (m : Memory) (l : List Nat) : Memory :=
  l.foldl (fun m n => m.freePage (n * pageSize)) m

theorem freeAll_with (m : Memory) (l : List Nat) (mmu : Mmu) (spaces : Slots maxProcs Space) :
    { m with mmu, spaces }.freeAll l = { m.freeAll l with mmu, spaces } := by
  unfold freeAll
  induction l generalizing m with
  | nil => rfl
  | cons n l ih => rw [foldl_cons, foldl_cons, freePage_with, ih]

theorem freeAll_inert (m : Memory) (l : List Nat) : Inert m (m.freeAll l) := by
  induction l generalizing m with
  | nil => exact ⟨rfl, rfl, rfl⟩
  | cons n l ih => exact (freePage_inert m _).trans (ih _)

structure Frees (X : Fin maxAddrSpaces → PageIdx → Prop) (N : Set Nat) (m m' : Memory) : Prop where
  isolated : Isolated X m'
  inert : Inert m m'
  frames : ∀ n, n ∈ m'.pages.frames ↔ n ∈ m.pages.frames ∨ n ∈ N

theorem Frees.trans (h : Frees X N m m') (h' : Frees X N' m' m'') : Frees X (N ∪ N') m m'' where
  isolated := h'.isolated
  inert := h.inert.trans h'.inert
  frames n := by
    rw [h'.frames, h.frames, or_assoc]
    rfl

theorem Isolated.frees (h : Isolated X m)
    (hn : firstFrame ≤ n → UsableFrame n ∧ ∀ k, ¬m.Holds k n) :
    Frees X {i | i = n ∧ firstFrame ≤ i} m (m.freePage (n * pageSize)) := by
  refine ⟨?_, freePage_inert m _, fun i => ?_⟩
  · refine h.freePage ?_
    by_cases hram : firstFrame ≤ n
    · exact .inr ⟨n, rfl, hn hram⟩
    · refine .inl ?_
      simp only [pageSize, ramStart, firstFrame] at *
      omega
  by_cases hram : firstFrame ≤ n ∧ n ∉ m.pages.frames
  · obtain ⟨p', hr, heq⟩ := freePage_eq h.managed ⟨(hn hram.1).1, hram.2⟩
    rw [heq]
    show i ∈ p'.frames ↔ _
    rw [hr.frames, Set.mem_union, mem_run, Set.mem_ofPred_eq]
    exact or_congr_right (by omega)
  · have hsame : m.freePage (n * pageSize) = m := by
      refine (freePage_cases h.managed _).resolve_right ?_
      rintro ⟨n', p', hn', hr, -⟩
      cases Nat.eq_of_mul_eq_mul_right (by decide) hn'
      have hself := mem_run.mpr (show n ≤ n ∧ n < n + 1 by omega)
      exact hram ⟨(hr.ram n hself).1, hr.taken n hself⟩
    rw [hsame]
    refine ⟨.inl, ?_⟩
    rintro (hi | ⟨rfl, hi⟩)
    · exact hi
    · exact by_contra fun hc => hram ⟨hi, hc⟩

theorem Isolated.freeAll (h : Isolated X m) {l : List Nat}
    (hl : ∀ n ∈ l, firstFrame ≤ n → UsableFrame n ∧ ∀ k, ¬m.Holds k n) :
    Frees X {n | n ∈ l ∧ firstFrame ≤ n} m (m.freeAll l) := by
  unfold Memory.freeAll
  induction l generalizing m with
  | nil => exact ⟨h, ⟨rfl, rfl, rfl⟩, by simp⟩
  | cons n l ih =>
    have hone := h.frees (hl n (by simp))
    have hrest := ih hone.isolated fun n' hn' hram => by
      obtain ⟨husable, hnone⟩ := hl n' (by simp [hn']) hram
      exact ⟨husable, fun k hk => hnone k (hone.inert.holds.mp hk)⟩
    have hset : {n' | n' ∈ n :: l ∧ firstFrame ≤ n'} =
        {i | i = n ∧ firstFrame ≤ i} ∪ {n' | n' ∈ l ∧ firstFrame ≤ n'} := by
      ext n'
      simp [or_and_right]
    rw [foldl_cons, hset]
    exact hone.trans hrest

/-- A frame that was taken and that nobody got goes back. -/
theorem Isolated.resettles (h : Isolated X m) {pages : Pages} (ram : Nat → FrameData)
    (hh : Handed m.pages pages n 1) :
    Frees X ∅ m ({ m with pages, ram }.freePage (n * pageSize)) := by
  have hrun : n ∈ run n 1 := mem_run.mpr (by omega)
  obtain ⟨husable, -, hnone⟩ := h.handed hh hrun
  have hwritten : Isolated X { m with pages, ram } := (h.take hh).withRam ram
  have hback := hwritten.frees (n := n) fun _ => ⟨husable, hnone⟩
  have htaken : Inert m { m with pages, ram } := ⟨rfl, rfl, rfl⟩
  refine ⟨hback.isolated, htaken.trans hback.inert, fun i => (hback.frames i).trans ?_⟩
  show i ∈ pages.frames ∨ _ ↔ _
  rw [hh.frames, Set.mem_sdiff, mem_run, Set.mem_ofPred_eq]
  constructor
  · rintro (hi | ⟨rfl, -⟩)
    · exact .inl hi.1
    · exact .inl (hh.free i hrun)
  · rintro (hi | hi)
    · by_cases heq : i = n
      · exact .inr ⟨heq, heq ▸ husable.ram.1⟩
      · exact .inl ⟨hi, by omega⟩
    · exact hi.elim

/-! ## Fresh pages -/

/-- The pages of `S` are mapped now. -/
structure Backs (X : Fin maxAddrSpaces → PageIdx → Prop) (t : Fin maxAddrSpaces) (S : Set PageIdx)
    (m m' : Memory) : Prop where
  isolated : Isolated X m'
  touches : Touches t S m m'
  user : ∀ s ∈ S, (m'.mmu.user t s).isSome

theorem Backs.refl (h : Isolated X m) : Backs X t ∅ m m := ⟨h, .refl, fun _ hs => hs.elim⟩

theorem Backs.frees (h : Backs X t S m m') (hf : Frees X N m' m'') : Backs X t S m m'' :=
  ⟨hf.isolated, h.touches.trans (.ofInert hf.inert),
    fun s hs => by rw [hf.inert.mmu]; exact h.user s hs⟩

theorem Backs.add (h : Backs X t S m m') (ht : m.mmu.spaceAlloc t = true) {pages : Pages}
    (ram : Nat → FrameData) (hh : Handed m'.pages pages n 1)
    (hmaps : Mmu.Maps m'.mmu mmu t s ⟨n, protToL2Flags prot⟩) :
    Backs X t (insert s S) m { m' with pages, mmu, ram } := by
  have ht' : m'.mmu.spaceAlloc t = true := h.touches.live ht
  obtain ⟨husable, hused, hnone⟩ := h.isolated.handed (i := n) hh (mem_run.mpr (by omega))
  refine ⟨?_, ?_, fun s' hs' => ?_⟩
  · have hmapped : Isolated X { m' with pages, mmu } :=
      (h.isolated.take hh).map ht' hmaps fun _ =>
        ⟨⟨husable, hused⟩, fun k hk => absurd hk (hnone k)⟩
    exact hmapped.withRam ram
  · have htake : Touches t (insert s S) m' { m' with pages, ram } := .ofInert ⟨rfl, rfl, rfl⟩
    have hstep : Touches t {s} { m' with pages, ram } { m' with pages, mmu, ram } :=
      .ofMaps ht' hmaps
    exact ((h.touches.mono (Set.subset_insert _ _)).trans htake).trans
      (hstep.mono (Set.singleton_subset_iff.mpr (Set.mem_insert _ _)))
  · show (mmu.user t s').isSome
    rw [hmaps.user ht' (isUser_protToL2Flags n prot)]
    split
    · rfl
    · rename_i hne
      exact h.user s' (hs'.resolve_left fun hc => hne ⟨rfl, hc⟩)

theorem Isolated.pages_le (h : Isolated X m) (ht : m.mmu.spaceAlloc t = true)
    (hbase : base ≤ mmapEnd) (huser : ∀ s ∈ region base 0 i, (m.mmu.user t s).isSome) :
    i ≤ 64 * 256 := by
  refine h.owned.pages_le ht hbase fun j hj => ?_
  obtain ⟨e, he⟩ := Option.isSome_iff_exists.mp (huser _ ⟨j, Nat.zero_le j, hj, rfl⟩)
  exact Mmu.pooled_of_user h.kernelTables he

theorem mod_usize {a : Nat} (h : a < usizeSize) : a % usizeSize = a := Nat.mod_eq_of_lt h

/-- What the loop that maps the pages up to `last - 1` has done when it ends. -/
structure Filled (X : Fin maxAddrSpaces → PageIdx → Prop) (t : Fin maxAddrSpaces) (base last : Nat)
    (m : Memory) (res : MapEnd × Nat × Memory) : Prop where
  backs : Backs X t (region base 0 res.2.1) m res.2.2
  all : res.1 = .all → res.2.1 = last

theorem mapFresh_spec {m₀ : Memory} (prot : UInt32) (k : Nat) (ht : m₀.mmu.spaceAlloc t = true)
    (hbase : base ≤ mmapEnd) (h : Backs X t (region base 0 i) m₀ m) :
    Filled X t base (i + k) m₀ (mapFresh t base (protToL2Flags prot) i k m) := by
  induction k generalizing i m with
  | zero => exact ⟨h, fun _ => rfl⟩
  | succ k ih =>
    have htm : m.mmu.spaceAlloc t = true := h.touches.live ht
    have hle := h.isolated.pages_le htm hbase h.user
    have hlow : base + i * pageSize < ramStart := by
      simp only [mmapEnd, pageSize, ramStart] at *
      omega
    rw [mapFresh, mod_usize (lt_trans hlow (by decide))]
    rcases h.isolated.managed.allocPage with hnone | ⟨n, pages, hpair, hh⟩
    · rw [hnone]
      exact ⟨h, nofun⟩
    rw [hpair]
    dsimp only
    rcases Mmu.ensureAndMap_spec h.isolated.owned htm
        (h.isolated.shaped.not_kernel_low htm hlow) with heq | ⟨mmu, heq, hmaps⟩
    · rw [heq]
      exact ⟨h.frees (h.isolated.resettles m.ram hh), nofun⟩
    · rw [Mmu.pageEntry_mul] at hmaps
      rw [heq, show i + (k + 1) = i + 1 + k by omega]
      refine ih ?_
      rw [region_succ base (Nat.zero_le i)]
      exact h.add ht m.ram hh hmaps

/-! ## Pages given up -/

theorem Touches.kept (h : Touches t S m m') (huser : ∀ k ∈ S, m'.mmu.user t k = none) {key : Holder}
    (hk : m'.Holds key n) : m.Holds key n ∧ ∀ k ∈ S, key ≠ .page t k := by
  have hne : ∀ k ∈ S, key ≠ .page t k := by
    rintro k hkS rfl
    obtain ⟨⟨e, he, -⟩, -⟩ := hk
    cases (huser k hkS).symm.trans he
  exact ⟨(h.holds hne).mp hk, hne⟩

/-- The pages of `S` are no user pages any more, and at most their frames have become free. -/
structure Sheds (X : Fin maxAddrSpaces → PageIdx → Prop) (t : Fin maxAddrSpaces) (S : Set PageIdx)
    (m m' : Memory) : Prop where
  isolated : Isolated X m'
  touches : Touches t S m m'
  user : ∀ s ∈ S, m'.mmu.user t s = none
  frames : ∀ n, n ∈ m'.pages.frames → n ∈ m.pages.frames ∨ ∃ s ∈ S, m.Holds (.page t s) n

theorem Sheds.refl (h : Isolated X m) : Sheds X t ∅ m m where
  isolated := h
  touches := .refl
  user _ hs := hs.elim
  frames _ hn := .inl hn

theorem Sheds.trans (h : Sheds X t S m m') (h' : Sheds X t S' m' m'') :
    Sheds X t (S ∪ S') m m'' where
  isolated := h'.isolated
  touches := (h.touches.mono Set.subset_union_left).trans (h'.touches.mono Set.subset_union_right)
  user s hs := by
    by_cases hs' : s ∈ S'
    · exact h'.user s hs'
    · rw [h'.touches.user t s fun hc => hs' hc.2]
      exact h.user s (hs.resolve_right hs')
  frames n hn := by
    rcases h'.frames n hn with hn | ⟨s, hs, hold⟩
    · rcases h.frames n hn with hn | ⟨s, hs, hold⟩
      · exact .inl hn
      · exact .inr ⟨s, .inl hs, hold⟩
    · exact .inr ⟨s, .inr hs, (h.touches.kept h.user hold).1⟩

theorem Touches.sheds (h : Touches t S m m') (hiso : Isolated X' m) (hiso' : Isolated X m')
    (hpages : m'.pages = m.pages) (huser : ∀ k ∈ S, m'.mmu.user t k = none) {l : List Nat}
    (hl : ∀ n ∈ l, firstFrame ≤ n → ∃ k ∈ S, m.Holds (.page t k) n) :
    Sheds X t S m (m'.freeAll l) := by
  have hfrees := hiso'.freeAll (l := l) fun n hn hram => by
    obtain ⟨k, hk, hold⟩ := hl n hn hram
    refine ⟨(hiso.exclusive.used hold).1, fun key hkey => ?_⟩
    obtain ⟨hkey', hne⟩ := h.kept huser hkey
    exact hne k hk (hiso.exclusive.unique hkey' hold)
  refine ⟨hfrees.isolated, h.trans (.ofInert hfrees.inert), fun k hk => ?_, fun n hn => ?_⟩
  · rw [hfrees.inert.mmu]
    exact huser k hk
  · rcases (hfrees.frames n).mp hn with hn | ⟨hn, hram⟩
    · exact .inl (hpages ▸ hn)
    · exact .inr (hl n hn hram)

section

variable (h : Isolated X m) (ht : m.mmu.spaceAlloc t = true)

include h ht

theorem Isolated.sheds_unmaps (hunmaps : Mmu.Unmaps m.mmu mmu t s) {l : List Nat}
    (hl : ∀ n ∈ l, ∃ e, m.mmu.user t s = some e ∧ e.page = n) :
    Sheds X t {s} m ({ m with mmu }.freeAll l) := by
  refine (Touches.ofUnmaps ht hunmaps).sheds h (h.unmap ht hunmaps fun _ _ hx _ => hx) rfl ?_
    fun n hn hram => ⟨s, rfl, hl n hn, hram⟩
  rintro s' rfl
  exact (hunmaps.user ht t s').trans (if_pos ⟨rfl, rfl⟩)

theorem Isolated.entry_low (hva : va < ramStart) (hX : ¬X t (pageIdx va)) :
    (∃ e, m.mmu.user t (pageIdx va) = some e ∧ m.mmu.entry t (pageIdx va) = some e) ∨
      m.mmu.user t (pageIdx va) = none ∧
        ∀ phys, m.mmu.readL2Phys t va = some phys → phys < ramStart := by
  rw [Mmu.user_of_entry ht, Mmu.readL2Phys_eq]
  cases hentry : m.mmu.entry t (pageIdx va) with
  | none => exact .inr ⟨rfl, by simp⟩
  | some e =>
    cases huser : e.isUser with
    | true => exact .inl ⟨e, by simp [huser], rfl⟩
    | false =>
      refine .inr ⟨by simp [huser], fun phys hphys => ?_⟩
      have hpool : m.mmu.Pooled t (l1Index va) := by
        cases hl2 : m.mmu.tables t (l1Index va) with
        | coarse l2 =>
          cases l2 with
          | pool slot => exact ⟨slot, hl2⟩
          | kernel mb => exact absurd hl2 (h.shaped.not_kernel_low ht hva mb)
        | absent =>
          rw [Mmu.entry_of_not_coarse (s := pageIdx va) (by simp [pageIdx, hl2])] at hentry
          cases hentry
        | sect mb type =>
          rw [Mmu.entry_of_not_coarse (s := pageIdx va) (by simp [pageIdx, hl2])] at hentry
          cases hentry
      rcases h.shaped.entry t (pageIdx va) e ht hpool hentry hX with hc | rfl | rfl
      · rw [huser] at hc
        cases hc
      · rw [Option.filter_some, show L2Entry.zero.isMapped = false by decide] at hphys
        cases hphys
      · rw [Option.filter_some] at hphys
        split at hphys
        · cases hphys
          show (l1Index va * 256 + l2Index va : Nat) * pageSize < ramStart
          rw [Mmu.l1Index_val (lt_trans hva (by decide)), l2Index_val]
          simp only [pageSize, ramStart] at *
          omega
        · cases hphys

theorem Isolated.releasePage (hva : va < ramStart) (hX : ¬X t (pageIdx va)) :
    Sheds X t {pageIdx va} m (m.releasePage t va) := by
  have hunmaps := Mmu.unmapPage_spec h.owned ht (h.shaped.not_kernel_low ht hva)
  unfold Memory.releasePage
  rcases h.entry_low ht hva hX with ⟨e, he, hentry⟩ | ⟨hnone, hphys⟩
  · have hread : m.mmu.readL2Phys t va = some (e.page * pageSize) := by
      rw [Mmu.readL2Phys_eq, hentry, Option.filter_some,
        Mmu.isMapped_of_isUser (Mmu.user_eq_some.mp he).2.2]
      rfl
    rw [hread]
    exact h.sheds_unmaps (l := [e.page]) ht hunmaps fun n hn =>
      ⟨e, he, (mem_singleton.mp hn).symm⟩
  · have hsheds : Sheds X t {pageIdx va} m { m with mmu := m.mmu.unmapPage t va } :=
      h.sheds_unmaps (l := []) ht hunmaps nofun
    cases hread : m.mmu.readL2Phys t va with
    | none => exact hsheds
    | some phys =>
      dsimp only
      rw [freePage_low hsheds.isolated.managed (hphys phys hread)]
      exact hsheds

end

theorem mem_pagesFrom :
    va ∈ pagesFrom base n ↔ ∃ i < n, (base + i * pageSize) % usizeSize = va := by
  simp [pagesFrom]

theorem pagesFrom_succ (base n : Nat) :
    pagesFrom base (n + 1) = pagesFrom base n ++ [(base + n * pageSize) % usizeSize] := by
  simp [pagesFrom, range_succ]

theorem sheds_foldl {f : Memory → Nat → Memory} (h : Isolated X m)
    (hbound : base + n * pageSize ≤ usizeSize) (ht : m.mmu.spaceAlloc t = true)
    (hf : ∀ m i, i < n → Isolated X m → m.mmu.spaceAlloc t = true →
      Sheds X t {pageIdx (base + i * pageSize)} m (f m (base + i * pageSize))) :
    Sheds X t (region base 0 n) m ((pagesFrom base n).foldl f m) := by
  induction n with
  | zero =>
    rw [region_empty]
    exact .refl h
  | succ n ih =>
    have hlt : base + n * pageSize < usizeSize := by
      refine lt_of_lt_of_le ?_ hbound
      rw [Nat.succ_mul, ← Nat.add_assoc]
      exact Nat.lt_add_of_pos_right (by decide)
    have hprev := ih hlt.le fun m i hi => hf m i (by omega)
    rw [pagesFrom_succ, foldl_concat, mod_usize hlt, region_succ base (Nat.zero_le n),
      Set.insert_eq, Set.union_comm]
    exact hprev.trans (hf _ n (by omega) hprev.isolated (hprev.touches.live ht))

theorem Isolated.releasePages (h : Isolated X m) (ht : m.mmu.spaceAlloc t = true)
    (hbase : base + n * pageSize ≤ ramStart) (hX : ∀ s ∈ region base 0 n, ¬X t s) :
    Sheds X t (region base 0 n) m (m.releasePages t base n) := by
  refine sheds_foldl h (le_trans hbase (by decide)) ht fun m' i hi h' ht' => ?_
  refine h'.releasePage ht' (lt_of_lt_of_le ?_ hbase) (hX _ ⟨i, Nat.zero_le i, hi, rfl⟩)
  have : i * pageSize < n * pageSize := (Nat.mul_lt_mul_right (by decide)).mpr hi
  omega

/-! ## Changed protection -/

theorem Isolated.updatePageProt (h : Isolated X m) (ht : m.mmu.spaceAlloc t = true)
    (hva : va < ramStart) (hX : ¬X t (pageIdx va)) (prot : UInt32) :
    Isolated X { m with mmu := (m.mmu.updatePageProt t va (protToL2Flags prot)).2 } ∧
      Touches t {pageIdx va} m
        { m with mmu := (m.mmu.updatePageProt t va (protToL2Flags prot)).2 } := by
  rcases @Mmu.updatePageProt_spec _ _ va (protToL2Flags prot) h.owned ht
    (h.shaped.not_kernel_low ht hva) with ⟨heq, -⟩ | ⟨old, hentry, hmapped, -, hmaps⟩
  · rw [heq]
    exact ⟨h, .refl⟩
  · refine ⟨h.protect ht ?_ hmaps, .ofMaps ht hmaps⟩
    rcases h.entry_low ht hva hX with ⟨e, he, hentry'⟩ | ⟨-, hphys⟩
    · cases hentry.symm.trans hentry'
      exact .inl he
    have hlow := hphys (old.page * pageSize)
      (by rw [Mmu.readL2Phys_eq, hentry, Option.filter_some, hmapped]; rfl)
    refine .inr ?_
    simp only [pageSize, ramStart, firstFrame] at *
    omega

theorem protectPages_spec (prot : UInt32) (l : List Nat) (h : Isolated X m)
    (ht : m.mmu.spaceAlloc t = true) (hlow : ∀ va ∈ l, va < ramStart)
    (hX : ∀ va ∈ l, ¬X t (pageIdx va)) (hS : ∀ va ∈ l, pageIdx va ∈ S) :
    Isolated X { m with mmu := (protectPages t (protToL2Flags prot) l m.mmu).2 } ∧
      Touches t S m { m with mmu := (protectPages t (protToL2Flags prot) l m.mmu).2 } := by
  induction l generalizing m with
  | nil => exact ⟨h, .refl⟩
  | cons va l ih =>
    obtain ⟨hiso, htouch⟩ := h.updatePageProt ht (hlow va (by simp)) (hX va (by simp)) prot
    have htouch := htouch.mono (Set.singleton_subset_iff.mpr (hS va (by simp)))
    rw [protectPages]
    generalize m.mmu.updatePageProt t va (protToL2Flags prot) = res at hiso htouch
    obtain ⟨ok, mmu⟩ := res
    cases ok with
    | false => exact ⟨hiso, htouch⟩
    | true =>
      obtain ⟨hiso', htouch'⟩ := ih hiso (htouch.live ht) (fun va' hva' => hlow va' (by simp [hva']))
        (fun va' hva' => hX va' (by simp [hva'])) fun va' hva' => hS va' (by simp [hva'])
      exact ⟨hiso', htouch.trans htouch'⟩

end Memory

end Thumos
