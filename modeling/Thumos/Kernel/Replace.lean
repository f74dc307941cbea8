import Thumos.Kernel.ExecSound

/-!
# `execve`

`exec_replace_context` drops the old image, stack, mappings and heap
(`Memory.Sheds`), and maps the new image and stack.  The old stack is taken
from user code first and released page by page afterwards, so that in between
there are entries which are neither user pages nor identity mappings
(`Memory.Revoking`).
-/

namespace Thumos

open Ownership Pages Elf List Nat

namespace Memory

variable {X : Fin maxAddrSpaces → PageIdx → Prop} {m m' m'' : Memory} {s : Space} {p : Pid}
  {t : Fin maxAddrSpaces} {n base va : Nat} {S R : Set PageIdx} {k : PageIdx} {e : L2Entry}

/-! ## The old image -/

def imageWindow : Set PageIdx := {k | k.1 = l1Index userTextBase}

theorem freeImagePage_eq (m : Memory) (ht : m.mmu.spaceAlloc t = true) (va : Nat) :
    m.freeImagePage t va = ((m.mmu.user t (pageIdx va)).map L2Entry.page).elim m
      fun n => m.freePage (n * pageSize) := by
  unfold freeImagePage
  rw [Mmu.readL2Entry_eq, Mmu.readL2Phys_eq, Mmu.user_of_entry ht]
  cases m.mmu.entry t (pageIdx va) with
  | none => rfl
  | some e =>
    cases huser : e.isUser with
    | false =>
      rw [Option.filter_some, Option.filter_some, huser]
      split
      · rename_i e' _ he' _
        cases he'
        rw [if_neg (by rw [huser]; decide)]
        rfl
      · rfl
    | true => simp [Option.filter_some, huser, Mmu.isMapped_of_isUser huser]

theorem freeImage_eq (m : Memory) (ht : m.mmu.spaceAlloc t = true) (l : List Nat) :
    l.foldl (fun m va => m.freeImagePage t va) m =
      m.freeAll (l.filterMap fun va => (m.mmu.user t (pageIdx va)).map L2Entry.page) := by
  induction l generalizing m with
  | nil => rfl
  | cons va l ih =>
    rw [foldl_cons, freeImagePage_eq m ht, filterMap_cons]
    cases hu : (m.mmu.user t (pageIdx va)).map L2Entry.page with
    | none => exact ih m ht
    | some n =>
      dsimp only [Option.elim_some]
      rw [ih _ (by rw [(freePage_inert m _).mmu, ht]), (freePage_inert m _).mmu]
      rfl

theorem mem_imageWindow (hva : va ∈ pagesFrom userTextBase 256) : pageIdx va ∈ imageWindow := by
  obtain ⟨i, hi, rfl⟩ := mem_pagesFrom.mp hva
  have hlt : userTextBase + i * pageSize < usizeSize := by
    simp only [userTextBase, pageSize, usizeSize]
    omega
  rw [mod_usize hlt]
  show l1Index _ = l1Index _
  ext
  rw [Mmu.l1Index_val hlt, Mmu.l1Index_val (by decide)]
  simp only [userTextBase, pageSize]
  omega

theorem Isolated.window_not_kernel (h : Isolated X m) (ht : m.mmu.spaceAlloc t = true)
    (mb : Fin kernelSections) : m.mmu.tables t (l1Index userTextBase) ≠ .coarse (.kernel mb) := by
  refine h.shaped.not_kernel ht ?_ mb
  rw [show (l1Index userTextBase).val = 0x7FF by decide]
  decide

theorem Isolated.resetWindow (h : Isolated noneRevoked m) (ht : m.mmu.spaceAlloc t = true) :
    Isolated noneRevoked { m with mmu := (m.mmu.resetShatteredSection t userTextBase).2 } ∧
      Touches t imageWindow m { m with mmu := (m.mmu.resetShatteredSection t userTextBase).2 } ∧
      ∀ k ∈ imageWindow, (m.mmu.resetShatteredSection t userTextBase).2.user t k = none := by
  have hkernel := h.window_not_kernel ht
  have hshaped : (m.mmu.resetShatteredSection t userTextBase).2.Shaped noneRevoked :=
    h.shaped.reset h.owned ht (by decide) hkernel fun _ _ hx _ => hx
  rcases Mmu.resetShatteredSection_spec h.owned ht hkernel with ⟨heq, hnot⟩ | ⟨slot, -, heq, hentry⟩
  · rw [heq]
    refine ⟨h, .refl, fun k hk => ?_⟩
    rw [Mmu.user_of_entry ht, Mmu.entry_of_not_coarse (by rw [show k.1 = _ from hk]; exact hnot)]
    rfl
  · rw [heq] at hshaped ⊢
    dsimp only at hshaped ⊢
    have huser : ∀ t' k, (m.mmu.fill (.pool slot) (Mmu.identityTable (userTextBase / 2 ^ 20))).user
        t' k = if t' = t ∧ k.1 = l1Index userTextBase then none else m.mmu.user t' k := by
      intro t' k
      unfold Mmu.user
      rw [Mmu.fill_spaceAlloc]
      by_cases ht' : m.mmu.spaceAlloc t' = true
      · rw [if_pos ht', if_pos ht', hentry t' k ht']
        by_cases hk : t' = t ∧ k.1 = l1Index userTextBase
        · rw [if_pos hk, if_pos hk, Option.filter_some, Mmu.isUser_identityTable]
          rfl
        · rw [if_neg hk, if_neg hk]
      · rw [if_neg ht', if_neg ht', ite_self]
    refine ⟨h.lose h.owned.fill hshaped rfl fun t' k e he => ?_, ?_, fun k hk => ?_⟩
    · rw [huser] at he
      split at he
      · cases he
      · exact he
    · refine ⟨Mmu.fill_spaceAlloc, rfl, rfl, fun t' i _ => by rw [Mmu.fill_tables],
        fun t' k ht' hne => ?_, fun t' k hk => (huser t' k).trans (if_neg hk)⟩
      exact (hentry t' k ht').trans (if_neg fun hc => hne hc.1)
    · rw [huser, if_pos ⟨rfl, hk⟩]

theorem Isolated.dropWindow (h : Isolated noneRevoked m) (ht : m.mmu.spaceAlloc t = true) :
    Sheds noneRevoked t imageWindow m (m.dropWindow t) := by
  obtain ⟨hiso, htouch, hnone⟩ := h.resetWindow ht
  unfold Memory.dropWindow
  rw [freeImage_eq m ht]
  dsimp only
  set l := (pagesFrom userTextBase 256).filterMap
    fun va => (m.mmu.user t (pageIdx va)).map L2Entry.page with hl
  have hmem : ∀ n ∈ l, firstFrame ≤ n → ∃ k ∈ imageWindow, m.Holds (.page t k) n := by
    intro n hn hram
    obtain ⟨va, hva, hpage⟩ := mem_filterMap.mp (hl ▸ hn)
    obtain ⟨e, he, rfl⟩ := Option.map_eq_some_iff.mp hpage
    exact ⟨pageIdx va, mem_imageWindow hva, ⟨e, he, rfl⟩, hram⟩
  have hinert := freeAll_inert m l
  have hswap := freeAll_with m l (m.mmu.resetShatteredSection t userTextBase).2 m.spaces
  have hstate : { m.freeAll l with mmu := (m.mmu.resetShatteredSection t userTextBase).2 } =
      ({ m with mmu := (m.mmu.resetShatteredSection t userTextBase).2 } : Memory).freeAll l := by
    rw [show ({ m with mmu := (m.mmu.resetShatteredSection t userTextBase).2 } : Memory).freeAll l =
      _ from hswap, ← hinert.spaces]
  rw [hinert.mmu, hstate]
  exact htouch.sheds h hiso rfl hnone hmem

/-! ## The old stack -/

def revoked (t : Fin maxAddrSpaces) (R : Set PageIdx) : Fin maxAddrSpaces → PageIdx → Prop :=
  fun t' k => t' = t ∧ k ∈ R

/-- The pages of `S` are user pages no more; those of `R` are mapped for the kernel only,
and at most the frames of the others have become free. -/
structure Revoking (t : Fin maxAddrSpaces) (S R : Set PageIdx) (m m' : Memory) : Prop where
  isolated : Isolated (revoked t R) m'
  touches : Touches t S m m'
  user : ∀ k ∈ S, m'.mmu.user t k = none
  entry : ∀ k ∈ R, ∃ e, m.mmu.user t k = some e ∧
    m'.mmu.entry t k = some ⟨e.page, kernelDefaultPage⟩
  frames : ∀ n, n ∈ m'.pages.frames → n ∈ m.pages.frames ∨ ∃ k ∈ S, m.Holds (.page t k) n

theorem Revoking.start (h : Isolated noneRevoked m) : Revoking t ∅ ∅ m m where
  isolated := h.mono fun _ _ hx => hx.elim
  touches := .refl
  user _ hk := hk.elim
  entry _ hk := hk.elim
  frames _ hn := .inl hn

theorem kernelDefaultPage_entry (n : Nat) : (L2Entry.mk n kernelDefaultPage).isUser = false ∧
    (L2Entry.mk n kernelDefaultPage).isMapped = true :=
  ⟨show decide ((kernelDefaultPage &&& PageFlags.smallPage) ≠ 0 ∧
    (kernelDefaultPage &&& PageFlags.ng) ≠ 0) = false by decide,
    show decide ((kernelDefaultPage &&& 3) ≠ 0) = true by decide⟩

theorem Revoking.revoke (h : Revoking t S S m m') (ht : m.mmu.spaceAlloc t = true) (hk : k ∉ S)
    (hu : m.mmu.user t k = some e) {mmu : Mmu}
    (hmaps : Mmu.Maps m'.mmu mmu t k ⟨e.page, kernelDefaultPage⟩) :
    Revoking t (insert k S) (insert k S) m { m' with mmu } := by
  have ht' : m'.mmu.spaceAlloc t = true := h.touches.live ht
  have huser : ∀ t' k', mmu.user t' k' = if t' = t ∧ k' = k then none else m'.mmu.user t' k' := by
    intro t' k'
    rw [hmaps.user_filter ht', Option.filter_some, (kernelDefaultPage_entry e.page).1]
    rfl
  refine ⟨?_, ?_, ?_, ?_, ?_⟩
  · refine h.isolated.lose hmaps.owned ?_ hmaps.kernelL2 fun t' k' e' he' => ?_
    · exact h.isolated.shaped.maps ht' hmaps (.inr ⟨rfl, Set.mem_insert _ _⟩)
        fun _ _ hx _ => ⟨hx.1, Set.mem_insert_of_mem _ hx.2⟩
    · rw [huser] at he'
      split at he'
      · cases he'
      · exact he'
  · have hstep : Touches t {k} m' { m' with mmu } :=
      .ofMaps ht' hmaps
    exact (h.touches.mono (Set.subset_insert _ _)).trans
      (hstep.mono (Set.singleton_subset_iff.mpr (Set.mem_insert _ _)))
  · rintro k' (rfl | hk')
    · exact (huser t k').trans (if_pos ⟨rfl, rfl⟩)
    · rw [show Mmu.user _ t k' = _ from huser t k']
      split
      · rfl
      · exact h.user k' hk'
  · rintro k' (rfl | hk')
    · exact ⟨e, hu, hmaps.entry_self⟩
    · obtain ⟨e', he', hentry⟩ := h.entry k' hk'
      refine ⟨e', he', ?_⟩
      have hne : ¬(t = t ∧ k' = k) := by
        rintro ⟨-, rfl⟩
        exact hk hk'
      rcases hmaps.entry_other t k' ht' hne with heq | ⟨-, hmb, table, hstart, -⟩
      · exact heq.trans hentry
      · -- a megabyte that gets its table now had no entries before
        rw [Mmu.entry_of_not_coarse fun l2 => hmb ▸ hstart.not_coarse l2] at hentry
        cases hentry
  · intro n hn
    rcases h.frames n hn with hn | ⟨k', hk', hold⟩
    · exact .inl hn
    · exact .inr ⟨k', .inr hk', hold⟩

theorem Revoking.release (h : Revoking t S R m m') (hiso : Isolated noneRevoked m)
    (ht : m.mmu.spaceAlloc t = true) (hRS : R ⊆ S) (hk : k ∈ R) (hu : m.mmu.user t k = some e)
    {mmu : Mmu} (hunmaps : Mmu.Unmaps m'.mmu mmu t k) :
    Revoking t S (R \ {k}) m ({ m' with mmu }.freePage (e.page * pageSize)) := by
  have ht' : m'.mmu.spaceAlloc t = true := h.touches.live ht
  have hiso' : Isolated (revoked t (R \ {k})) { m' with mmu } := by
    refine h.isolated.unmap ht' hunmaps ?_
    rintro t' k' ⟨rfl, hk'⟩ hne
    exact ⟨rfl, hk', fun hc => hne ⟨rfl, hc⟩⟩
  have hstep : Touches t {k} m' { m' with mmu } := .ofUnmaps ht' hunmaps
  have htouch := h.touches.trans (hstep.mono (Set.singleton_subset_iff.mpr (hRS hk)))
  have huser : ∀ k' ∈ S, mmu.user t k' = none := by
    intro k' hk'
    rw [hunmaps.user ht']
    split
    · rfl
    · exact h.user k' hk'
  have hentry : ∀ k' ∈ R \ {k}, ∃ e', m.mmu.user t k' = some e' ∧
      mmu.entry t k' = some ⟨e'.page, kernelDefaultPage⟩ := by
    rintro k' ⟨hk', hne⟩
    obtain ⟨e', he', hentry⟩ := h.entry k' hk'
    refine ⟨e', he', ?_⟩
    rcases hunmaps.entry_other t k' ht' fun hc => hne hc.2 with heq | ⟨-, hzero, -⟩
    · exact heq.trans hentry
    · have hmapped := (kernelDefaultPage_entry e'.page).2
      rw [← Option.some.inj (hzero.symm.trans hentry)] at hmapped
      cases hmapped
  have hheld : ∀ n ∈ [e.page], firstFrame ≤ n → m.Holds (.page t k) n := fun n hn hram =>
    ⟨⟨e, hu, (mem_singleton.mp hn).symm⟩, hram⟩
  -- the only page that had the frame is no user page any more
  have hfrees := hiso'.freeAll (l := [e.page]) fun n hn hram => by
    have hold := hheld n hn hram
    refine ⟨(hiso.exclusive.used hold).1, fun key hkey => ?_⟩
    obtain ⟨hkey', hne⟩ := htouch.kept huser hkey
    exact hne k (hRS hk) (hiso.exclusive.unique hkey' hold)
  refine ⟨hfrees.isolated, htouch.trans (.ofInert hfrees.inert), ?_, ?_, fun n hn => ?_⟩
  · rw [(freePage_inert _ _).mmu]
    exact huser
  · rw [(freePage_inert _ _).mmu]
    exact hentry
  · rcases (hfrees.frames n).mp hn with hn | ⟨hn, hram⟩
    · exact h.frames n hn
    · exact .inr ⟨k, hRS hk, hheld n hn hram⟩

theorem Revoking.sheds (h : Revoking t S ∅ m m') : Sheds noneRevoked t S m m' :=
  ⟨h.isolated.mono fun _ _ hx => hx.2.elim, h.touches, h.user, h.frames⟩

structure StackAt (m : Memory) (t : Fin maxAddrSpaces) (base n : Nat) : Prop where
  lt : ∀ {i}, i < n → base + i * pageSize < usizeSize
  outside : ∀ k ∈ region base 0 n, ¬(kernelMb ≤ k.1.val ∧ k.1.val < kernelMb + kernelSections)
  user : ∀ k ∈ region base 0 n, (m.mmu.user t k).isSome

section

variable (hstack : StackAt m t base n) (h : Isolated noneRevoked m) (ht : m.mmu.spaceAlloc t = true)

include hstack h ht

theorem StackAt.revoke {i : Nat} (hi : i ≤ n) :
    Revoking t (region base 0 i) (region base 0 i) m
      { m with mmu := m.mmu.revokeUserPages t base i } := by
  induction i with
  | zero =>
    rw [region_empty]
    exact .start h
  | succ i ih =>
    have hprev := ih (by omega)
    have hmem : pageIdx (base + i * pageSize) ∈ region base 0 n := ⟨i, zero_le i, hi, rfl⟩
    have hnew : pageIdx (base + i * pageSize) ∉ region base 0 i := by
      rintro ⟨l, -, hl, heq⟩
      exact pageIdx_ne (hstack.lt hi) (hstack.lt (by omega)) hl.ne' heq
    obtain ⟨e, he⟩ := Option.isSome_iff_exists.mp (hstack.user _ hmem)
    have hstep : m.mmu.revokeUserPages t base (i + 1) =
        ((m.mmu.revokeUserPages t base i).updatePageProt t (base + i * pageSize)
          kernelDefaultPage).2 := by
      rw [Mmu.revokeUserPages, range_succ, foldl_concat]
      rfl
    rw [hstep, region_succ base (zero_le i)]
    generalize m.mmu.revokeUserPages t base i = mmu at hprev
    have ht' : mmu.spaceAlloc t = true := hprev.touches.live ht
    have hsame : mmu.user t (pageIdx (base + i * pageSize)) = some e :=
      (hprev.touches.user t _ fun hc => hnew hc.2).trans he
    obtain ⟨-, hentry, huser⟩ := Mmu.user_eq_some.mp hsame
    rcases @Mmu.updatePageProt_spec mmu t (base + i * pageSize) kernelDefaultPage
      hprev.isolated.owned ht' (hprev.isolated.shaped.not_kernel ht' (hstack.outside _ hmem))
      with ⟨-, hnot⟩ | ⟨old, hold, -, -, hmaps⟩
    · cases (hnot e hentry).symm.trans (Mmu.isMapped_of_isUser huser)
    · cases hold.symm.trans hentry
      exact hprev.revoke ht hnew he hmaps

theorem StackAt.release (hrev : Revoking t (region base 0 n) (region base 0 n) m m')
    {j : Nat} (hj : j ≤ n) :
    Revoking t (region base 0 n) (region base j n) m
      ((pagesFrom base j).foldl (fun m va => m.releaseMapped t va) m') := by
  induction j with
  | zero => exact hrev
  | succ j ih =>
    have hprev := ih (by omega)
    have hmem : pageIdx (base + j * pageSize) ∈ region base j n := ⟨j, le_rfl, hj, rfl⟩
    have hsub : region base j n ⊆ region base 0 n := 
      fun k ⟨l, _, hl, hk⟩ => ⟨l, zero_le l, hl, hk⟩
    have hrest : region base j n \ {pageIdx (base + j * pageSize)} = region base (j + 1) n := by
      ext k
      constructor
      · rintro ⟨⟨l, hjl, hl, rfl⟩, hne⟩
        refine ⟨l, lt_of_le_of_ne hjl ?_, hl, rfl⟩
        rintro rfl
        exact hne rfl
      · rintro ⟨l, hjl, hl, rfl⟩
        exact ⟨⟨l, by omega, hl, rfl⟩, pageIdx_ne (hstack.lt hl) (hstack.lt hj) (by omega)⟩
    rw [pagesFrom_succ, foldl_concat, mod_usize (hstack.lt hj), ← hrest]
    generalize (pagesFrom base j).foldl (fun m va => m.releaseMapped t va) m' = m₁ at hprev
    have ht' : m₁.mmu.spaceAlloc t = true := hprev.touches.live ht
    obtain ⟨e, he, hentry⟩ := hprev.entry _ hmem
    have hread : m₁.mmu.readL2Phys t (base + j * pageSize) = some (e.page * pageSize) := by
      rw [Mmu.readL2Phys_eq, hentry, Option.filter_some, (kernelDefaultPage_entry e.page).2]
      rfl
    unfold Memory.releaseMapped
    rw [hread]
    exact hprev.release h ht hsub hmem he (Mmu.unmapPage_spec hprev.isolated.owned ht'
      (hprev.isolated.shaped.not_kernel ht' (hstack.outside _ (hsub hmem))))

theorem StackAt.sheds :
    Sheds noneRevoked t (region base 0 n) m (m.dropStack t base n) := by
  have hdone := hstack.release h ht (hstack.revoke h ht le_rfl) le_rfl
  rw [region_empty] at hdone
  exact hdone.sheds

end

/-! ## Mappings and heap -/

theorem Sheds.same (h : Isolated X m) (hnone : ∀ k ∈ S, m.mmu.user t k = none) :
    Sheds X t S m m where
  isolated := h
  touches := .refl
  user := hnone
  frames _ hn := .inl hn

theorem Isolated.releaseMapped (h : Isolated X m) (ht : m.mmu.spaceAlloc t = true)
    (hva : va < ramStart) (hX : ¬X t (pageIdx va)) :
    Sheds X t {pageIdx va} m (m.releaseMapped t va) := by
  have hrelease := h.releasePage ht hva hX
  unfold Memory.releasePage at hrelease
  unfold Memory.releaseMapped
  cases hread : m.mmu.readL2Phys t va with
  | some phys =>
    rw [hread] at hrelease
    exact hrelease
  | none =>
    refine .same h ?_
    rintro k rfl
    rcases h.entry_low ht hva hX with ⟨e, he, hentry⟩ | ⟨hnone, -⟩
    · rw [Mmu.readL2Phys_eq, hentry, Option.filter_some,
        Mmu.isMapped_of_isUser (Mmu.user_eq_some.mp he).2.2] at hread
      cases hread
    · exact hnone

theorem Isolated.releaseMappedPages (h : Isolated noneRevoked m) (ht : m.mmu.spaceAlloc t = true)
    (hbase : base + n * pageSize ≤ ramStart) :
    Sheds noneRevoked t (region base 0 n) m
      ((pagesFrom base n).foldl (fun m va => m.releaseMapped t va) m) := by
  refine sheds_foldl h (le_trans hbase (by decide)) ht fun m' i hi h' ht' => ?_
  refine h'.releaseMapped ht' (lt_of_lt_of_le ?_ hbase) id
  have : i * pageSize < n * pageSize := (Nat.mul_lt_mul_right (by decide)).mpr hi
  omega

def mappingPages (s : Space) (l : List (Fin maxMappings)) : Set PageIdx :=
  {k | ∃ i ∈ l, ∃ v, s.mappings i = some v ∧ k ∈ region v.start 0 v.pages}

theorem Isolated.releaseMappings (h : Isolated noneRevoked m) (ht : m.mmu.spaceAlloc t = true)
    (hs : ∀ i v, s.mappings i = some v → v.start + v.pages * pageSize ≤ ramStart)
    (l : List (Fin maxMappings)) :
    Sheds noneRevoked t (mappingPages s l) m (l.foldl (fun m i => (s.mappings i).elim m fun v =>
        (pagesFrom v.start v.pages).foldl (fun m va => m.releaseMapped t va) m) m) := by
  induction l generalizing m with
  | nil =>
    have hempty : mappingPages s [] = ∅ := by
      ext k
      simp [mappingPages]
    rw [hempty]
    exact .refl h
  | cons i l ih =>
    rw [foldl_cons]
    cases hv : s.mappings i with
    | none =>
      have hset : mappingPages s (i :: l) = mappingPages s l := by
        ext k
        simp [mappingPages, hv]
      rw [hset]
      exact ih h ht
    | some v =>
      have hset : mappingPages s (i :: l) = region v.start 0 v.pages ∪ mappingPages s l := by
        ext k
        simp [mappingPages, hv]
      have hone := h.releaseMappedPages ht (hs i v hv)
      rw [hset]
      exact hone.trans (ih hone.isolated (hone.touches.live ht))

def heapPages (s : Space) : Set PageIdx :=
  region defaultHeapBreak 0 (ceilPages (s.heapBreak - defaultHeapBreak))

def oldPages (s : Space) : Set PageIdx :=
  imageWindow ∪ region s.stackBase 0 s.stackPages ∪ mappingPages s (List.finRange maxMappings) ∪
    heapPages s

theorem SpaceOk.stackAt (h : SpaceOk m s) : StackAt m s.table s.stackBase s.stackPages where
  lt hi := by
    have hframe := (h.stackFrames _ hi).2
    simp only [pageSize, usizeSize] at *
    omega
  outside k hk := by
    have := h.stack_high hk
    omega
  user := h.stack

theorem SpaceOk.stack_not_window (h : SpaceOk m s) {k : PageIdx}
    (hk : k ∈ region s.stackBase 0 s.stackPages) : k ∉ imageWindow := by
  obtain ⟨l, -, hl, rfl⟩ := hk
  obtain ⟨hlo, hhi⟩ := h.stackFrames l hl
  have hlt : s.stackBase + l * pageSize < userTextBase := by
    simp only [pageSize, userTextBase] at *
    omega
  intro hc
  have hval : (l1Index (s.stackBase + l * pageSize)).val = (l1Index userTextBase).val :=
    congrArg Fin.val hc
  rw [Mmu.l1Index_val (lt_trans hlt (by decide)), Mmu.l1Index_val (by decide)] at hval
  simp only [userTextBase] at *
  omega

theorem SpaceOk.dropImage (hok : SpaceOk m s) (h : Isolated noneRevoked m) :
    Sheds noneRevoked s.table (oldPages s) m (m.dropImage s) := by
  have h₁ := h.dropWindow hok.live
  unfold Memory.dropImage
  dsimp only
  generalize m.dropWindow s.table = m₁ at h₁
  have ht₁ : m₁.mmu.spaceAlloc s.table = true := h₁.touches.live hok.live
  have hstack : StackAt m₁ s.table s.stackBase s.stackPages := by
    refine ⟨hok.stackAt.lt, hok.stackAt.outside, fun k hk => ?_⟩
    rw [h₁.touches.user _ k fun hc => hok.stack_not_window hk hc.2]
    exact hok.stack k hk
  have h₂ := h₁.trans (hstack.sheds h₁.isolated ht₁)
  have h₃ := h₂.trans (h₂.isolated.releaseMappings (s := s)
    (h₂.touches.live hok.live)
    (fun i v hv => le_trans (hok.mapping i v hv).2.2 (by decide)) (finRange maxMappings))
  refine h₃.trans (h₃.isolated.releaseMappedPages (h₃.touches.live hok.live) ?_)
  have hbreak := hok.break_le h
  simp only [ceilPages, defaultHeapBreak, pageSize, ramStart] at *
  omega

/-! ## The new image -/

theorem Sheds.spare (h : Sheds X t S m m') {k : Nat} (hspare : Spare m n k) : Spare m' n k := by
  intro i hi
  obtain ⟨hused, hnone⟩ := hspare i hi
  refine ⟨⟨hused.1, fun hc => ?_⟩, fun key hk => hnone key (h.touches.kept h.user hk).1⟩
  rcases h.frames i hc with hfree | ⟨k', -, hold⟩
  · exact hused.2 hfree
  · exact hnone _ hold

variable {loaded : LoadedElf}

theorem Sheds.placed (h : Sheds X t S m m') (hplaced : Placed m loaded) :
    Placed m' loaded := by
  obtain ⟨n, hphys, hframes⟩ := hplaced.frames
  exact ⟨⟨n, hphys, h.spare hframes⟩, hplaced.placed, hplaced.span⟩

theorem Isolated.takeBack (l : List Nat) (h : Isolated X m) (ht : m.mmu.spaceAlloc t = true)
    (hl : ∀ n ∈ l, UsableFrame n ∧ ∀ key, m.Holds key n → key = .page t (pageIdx (n * pageSize))) :
    Isolated X (l.foldl (fun m n =>
        { m with mmu := m.mmu.unmapPage t (n * pageSize) }.freePage (n * pageSize)) m) ∧
      Touches t Set.univ m (l.foldl (fun m n =>
        { m with mmu := m.mmu.unmapPage t (n * pageSize) }.freePage (n * pageSize)) m) := by
  induction l generalizing m with
  | nil => exact ⟨h, .refl⟩
  | cons n l ih =>
    obtain ⟨husable, hsole⟩ := hl n (by simp)
    have hlt : n * pageSize < usizeSize := by
      have := husable.2
      simp only [pageSize, usizeSize]
      omega
    have houtside : ¬(kernelMb ≤ (l1Index (n * pageSize)).val ∧
        (l1Index (n * pageSize)).val < kernelMb + kernelSections) := by
      rw [Mmu.l1Index_val hlt]
      have := husable.1
      simp only [pageSize, kernelMb, kernelSections]
      omega
    have hunmaps := Mmu.unmapPage_spec h.owned ht (h.shaped.not_kernel ht houtside)
    have hiso : Isolated X { m with mmu := m.mmu.unmapPage t (n * pageSize) } :=
      h.unmap ht hunmaps fun _ _ hx _ => hx
    have hfewer : ∀ key i,
      ({ m with mmu := m.mmu.unmapPage t (n * pageSize) } : Memory).Holds key i →
        m.Holds key i ∧ key ≠ .page t (pageIdx (n * pageSize)) := by
      intro key i hk
      obtain ⟨hold, hne⟩ := (Touches.ofUnmaps ht hunmaps).kept (fun k hk => by
        rw [show Mmu.user _ t k = _ from hunmaps.user ht t k, if_pos ⟨rfl, hk⟩]) hk
      exact ⟨hold, hne _ rfl⟩
    have hloose : ({ m with mmu := m.mmu.unmapPage t (n * pageSize) } : Memory).Loose
        (n * pageSize) :=
      .inr ⟨n, rfl, husable, fun key hk => (hfewer key n hk).2 (hsole key (hfewer key n hk).1)⟩
    have htouch : Touches t Set.univ m
        ({ m with mmu := m.mmu.unmapPage t (n * pageSize) }.freePage (n * pageSize)) :=
      (Touches.ofUnmaps ht hunmaps).univ.trans (.ofInert (freePage_inert _ _))
    rw [foldl_cons]
    obtain ⟨hrest, hrestTouch⟩ := ih (hiso.freePage hloose)
      (htouch.live ht) fun n' hn' => by
        obtain ⟨husable', hsole'⟩ := hl n' (by simp [hn'])
        refine ⟨husable', fun key hk => hsole' key (hfewer key n' ?_).1⟩
        exact (freePage_inert _ _).holds.mp hk
    exact ⟨hrest, htouch.trans hrestTouch⟩

theorem pagesFrom_mul {k : Nat} (h : (n + k) * pageSize ≤ usizeSize) :
    pagesFrom (n * pageSize) k = ((range k).map fun i => n + i).map fun i => i * pageSize := by
  rw [pagesFrom, map_map]
  refine map_congr_left fun i hi => ?_
  have hi := mem_range.mp hi
  rw [Function.comp_apply, Nat.add_mul]
  refine mod_usize (lt_of_lt_of_le ?_ h)
  rw [Nat.add_mul]
  exact Nat.add_lt_add_left ((Nat.mul_lt_mul_right (by decide)).mpr hi) _

theorem Isolated.takeBackPages {k : Nat} (h : Isolated X m) (ht : m.mmu.spaceAlloc t = true)
    (hbound : (n + k) * pageSize ≤ usizeSize) (hl : ∀ i ∈ run n k, UsableFrame i ∧
      ∀ key, m.Holds key i → key = .page t (pageIdx (i * pageSize))) :
    Isolated X ((pagesFrom (n * pageSize) k).foldl (fun m va =>
        { m with mmu := m.mmu.unmapPage t va }.freePage va) m) ∧
      Touches t Set.univ m ((pagesFrom (n * pageSize) k).foldl (fun m va =>
        { m with mmu := m.mmu.unmapPage t va }.freePage va) m) := by
  rw [pagesFrom_mul hbound, foldl_map]
  refine h.takeBack _ ht fun i hi => hl i ?_
  obtain ⟨j, hj, rfl⟩ := mem_map.mp hi
  exact add_mem_run (mem_range.mp hj)

theorem Assigns.takeBackStack {ns : Nat} {l : List (Nat × Nat)} {res : Bool × Mmu}
    (h : Assigns X t (stackList (ns * pageSize) stackPageCount) l m res)
    (ht : m.mmu.spaceAlloc t = true) (husable : ∀ i ∈ run ns stackPageCount, UsableFrame i) :
    Isolated X ((pagesFrom (ns * pageSize) stackPageCount).foldl (fun m va =>
        { m with mmu := m.mmu.unmapPage t va }.freePage va) { m with mmu := res.2 }) ∧
      Touches t Set.univ m ((pagesFrom (ns * pageSize) stackPageCount).foldl (fun m va =>
        { m with mmu := m.mmu.unmapPage t va }.freePage va) { m with mmu := res.2 }) := by
  have hlast := (husable _ (last_mem_run (by decide))).2
  obtain ⟨hiso, htouch⟩ := h.isolated.takeBackPages (n := ns) (k := stackPageCount)
    (h.touches.live ht) (by simp only [stackPageCount, pageSize, usizeSize] at *; omega)
    fun n hn => by
      refine ⟨husable n hn, fun key hk => ?_⟩
      have hq : (n * pageSize, n * pageSize) ∈ stackList (ns * pageSize) stackPageCount := by
        have hn := mem_run.mp hn
        refine mem_stackList.mpr ⟨n - ns, by omega, ?_⟩
        rw [← Nat.add_mul, Nat.add_sub_cancel' hn.1]
      refine h.assignable.sole _ hq key ?_
      rw [Nat.mul_div_cancel _ (by decide)]
      exact hk
  exact ⟨hiso, h.touches.trans htouch⟩

theorem Sound.mapImage {m₁ : Memory} (h : Sound m) (hp : m.spaces p = some s)
    (hdrop : Sheds noneRevoked s.table S m m₁) (hplaced : Placed m loaded) {ns : Nat}
    (hspare : Spare m ns stackPageCount) (hapart : Apart loaded ns stackPageCount) :
    Sound (m₁.mapImage p s loaded (ns * pageSize)).2 := by
  have hlive := (h.space p s hp).live
  have ht₁ : m₁.mmu.spaceAlloc s.table = true := hdrop.touches.live hlive
  have husable : ∀ i ∈ run ns stackPageCount, UsableFrame i := fun i hi => (hspare i hi).1.1
  obtain ⟨himage, hstack⟩ :=
    hdrop.isolated.fill ht₁ (hdrop.placed hplaced) (hdrop.spare hspare) hapart
  have hback := hstack.takeBackStack (himage.touches.live ht₁) husable
  have htouch := hdrop.touches.univ.trans himage.touches
  unfold Memory.mapImage
  dsimp only
  generalize m₁.mmu.mapUserImage s.table loaded = image at himage hstack hback htouch
  generalize image.2.mapUserStack s.table (ns * pageSize) stackPageCount = stack at hstack hback
  split
  · rename_i hboth
    exact h.setSpace hp hstack.isolated (htouch.trans hstack.touches) rfl (.fresh
      ((htouch.trans hstack.touches).live hlive) rfl rfl rfl husable
      (hstack.stack_isSome (Bool.and_eq_true_iff.mp hboth).2))
  · obtain ⟨hiso, htouch'⟩ := hback
    refine h.setSpace hp hiso (htouch.trans htouch') rfl
      (.fresh (n := 0) ((htouch.trans htouch').live hlive) rfl rfl rfl ?_ ?_)
    · exact fun i hi => absurd hi.2 (not_lt_zero i)
    · show ∀ k ∈ region 0 0 0, _
      rw [region_empty]
      exact fun k hk => hk.elim

/-! ## `sys_execve` -/

theorem Sound.freeContiguousUnder (h : Sound m) {n k : Nat} (hk : 0 < k) (hspare : Spare m n k)
    {t : Fin maxAddrSpaces} (heq : m.freeContiguousUnder t (n * pageSize) k = some m') :
    Sound m' := by
  obtain ⟨p', hfree, hr⟩ := h.isolated.managed.freeContiguous_run hk fun i hi => (hspare i hi).1
  unfold Memory.freeContiguousUnder at heq
  rw [hfree] at heq
  obtain ⟨frames, -, rfl⟩ := Option.map_eq_some_iff.mp heq
  have hgiven := h.isolated.giveBack hr (fun i hi => (hspare i hi).1.1) fun i hi => (hspare i hi).2
  exact h.sameMmu (hgiven.withRam _) rfl rfl

/-- The memory has the property, if the kernel goes on. -/
def ExecResult.Leaves (P : Memory → Prop) : ExecResult → Prop
  | .halted => True
  | .failed _ m => P m
  | .replaced m => P m
  | .lost m => P m

theorem Sound.sysExecve (h : Sound m) (file : Except UInt32 (List UInt8))
    (args : Option (List (List UInt8))) : (m.sysExecve p file args).Leaves Sound := by
  unfold Memory.sysExecve
  cases hp : m.spaces p with
  | none => exact h
  | some s =>
    cases file with
    | error errno => exact h
    | ok data =>
      rcases h.isolated.managed.allocContiguous (k := stackPageCount) (by decide)
        with hnone | ⟨ns, pages, hpair, hh⟩
      · rw [hnone]
        exact h
      rw [hpair]
      have htaken : Sound { m with pages } := h.take hh
      have hspare : Spare { m with pages } ns stackPageCount := h.isolated.spare hh
      -- the failure returns give the new stack back
      have hfail : ∀ errno, (({ m with pages }.freeContiguousUnder s.table (ns * pageSize)
          stackPageCount).elim ExecResult.halted (.failed errno)).Leaves Sound := by
        intro errno
        cases hfree : { m with pages }.freeContiguousUnder s.table (ns * pageSize)
            stackPageCount with
        | none => trivial
        | some m' => exact htaken.freeContiguousUnder (by decide) hspare hfree
      cases args with
      | none => exact hfail _
      | some args =>
        dsimp only
        cases hload : { m with pages }.loadConfined (some s.table) data with
        | halted => trivial
        | refused e => exact hfail _
        | loaded elf m₁ =>
          obtain ⟨pages', ram, n, rfl, hphys, hh', hplaced⟩ := htaken.isolated.loadConfined hload
          dsimp only
          split
          · trivial
          rename_i m₂ hstore
          obtain ⟨ram', rfl⟩ := storeAll_eq hstore
          have hloaded : Sound { m with pages := pages', ram := ram' } :=
            htaken.sameMmu ((htaken.isolated.take hh').withRam ram') rfl rfl
          have hspare' : Spare { m with pages := pages', ram := ram' } ns stackPageCount := by
            intro i hi
            refine ⟨⟨(hspare i hi).1.1, fun hc => (hspare i hi).1.2 ?_⟩, (hspare i hi).2⟩
            rw [show Pages.frames _ = _ from hh'.frames] at hc
            exact hc.1
          have hapart : Apart elf ns stackPageCount := by
            intro i hi j hj hc
            cases eq_of_mul_eq_mul_right (by decide) (hphys.symm.trans hj)
            exact (hspare i hi).1.2 (hh'.free i hc)
          have hreplaced := hloaded.mapImage (s := s) hp
            ((hloaded.space p s hp).dropImage hloaded.isolated)
            ⟨hplaced.frames, hplaced.placed, hplaced.span⟩ hspare' hapart
          unfold Memory.execReplaceContext
          generalize Memory.mapImage _ _ _ _ _ = res at hreplaced
          obtain ⟨ok, m'⟩ := res
          cases ok <;> exact hreplaced

theorem Sound.execve (h : Sound m) (file : Except UInt32 (List UInt8))
    (args : Option (List (List UInt8))) : Sound (m.step (.execve p file args)) := by
  have hleaves := h.sysExecve (p := p) file args
  unfold Memory.step
  dsimp only
  generalize m.sysExecve p file args = res at hleaves
  cases res with
  | halted => exact h
  | failed errno m' => exact hleaves
  | replaced m' => exact hleaves
  | lost m' => exact Sound.exit hleaves

end Memory

end Thumos
