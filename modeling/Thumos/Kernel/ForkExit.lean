import Thumos.Kernel.SpaceSound
import Thumos.Kernel.Walk

/-!
# Address spaces copied and torn down

What `exit_cleanup` and `fork_pl0` do to the memory.  Both walk over the user
pages of an address space: the one frees their frames, the other copies them
into fresh frames for the child, and takes the copies back if it runs out of
frames or of tables.
-/

namespace Thumos

open Ownership Pages Function

namespace Memory

variable {X : Fin maxAddrSpaces → PageIdx → Prop} {m m' m'' : Memory} {s : Space} {p : Pid}
  {t tp : Fin maxAddrSpaces} {n : Nat} {S : Set PageIdx} {mmu : Mmu}

/-! ## The user pages -/

theorem freeUserPages_eq (m : Memory) (t : Fin maxAddrSpaces) :
    m.freeUserPages t = m.freeAll ((m.mmu.userPages t).map fun p => p.2.page) := by
  have hfold : ∀ (l : List (Nat × L2Entry)) (m : Memory),
      (Mmu.foldWhile (fun m _ e => (true, m.freePage (e.page * pageSize))) l m).2 =
        m.freeAll (l.map fun p => p.2.page) := by
    intro l
    induction l with
    | nil => exact fun _ => rfl
    | cons p l ih => exact fun m => ih _
  rw [freeUserPages, Mmu.forEachUserPage_eq, hfold]
  intro l m' hl hrun
  have hm' : m' = m.freeAll (l.map fun p => p.2.page) :=
    (congrArg Prod.snd hrun).symm.trans (hfold l m)
  rw [hm', (freeAll_inert m _).mmu]
  exact .refl

theorem freeUserPages_inert (m : Memory) (t : Fin maxAddrSpaces) : Inert m (m.freeUserPages t) := by
  rw [freeUserPages_eq]
  exact freeAll_inert m _

/-! ## An address space goes -/

theorem freeAddrSpace_holds {k : Holder} : { m with mmu := m.mmu.freeAddrSpace t }.Holds k n ↔
      m.Holds k n ∧ ∀ k', k ≠ .page t k' := by
  cases k with
  | grant g => simp [Holds]
  | page t' s' =>
    simp only [Holds, Mmu.freeAddrSpace_user]
    by_cases ht : t' = t
    · simp [ht]
    · simp [ht]

theorem Isolated.tearDown (h : Isolated X m) (ht : m.mmu.spaceAlloc t = true)
    (spaces : Slots maxProcs Space) :
    Isolated X { m.freeUserPages t with mmu := m.mmu.freeAddrSpace t, spaces } := by
  have hgone : Isolated X { m with mmu := m.mmu.freeAddrSpace t, spaces } :=
    (h.freeAddrSpace ht).withSpaces spaces
  rw [freeUserPages_eq, ← freeAll_with]
  refine (hgone.freeAll fun n hn hram => ?_).isolated
  obtain ⟨q, hq, rfl⟩ := List.mem_map.mp hn
  obtain ⟨k, hk, -⟩ := (Mmu.mem_userPages ht).mp hq
  have hold : m.Holds (.page t k) q.2.page := ⟨⟨q.2, hk, rfl⟩, hram⟩
  refine ⟨(h.exclusive.used hold).1, fun k' hk' => ?_⟩
  have hk'' : { m with mmu := m.mmu.freeAddrSpace t }.Holds k' q.2.page := by
    cases k' with
    | grant g => exact hk'
    | page t' s' => exact hk'
  obtain ⟨hold', hne⟩ := freeAddrSpace_holds.mp hk''
  exact hne k (h.exclusive.unique hold' hold)

theorem SpaceOk.freeAddrSpace (h : SpaceOk m s) (hne : s.table ≠ t)
    {spaces : Slots maxProcs Space} :
    SpaceOk { m with mmu := m.mmu.freeAddrSpace t, spaces } s := by
  refine h.sameUser ?_ fun k => ?_
  · show (m.mmu.freeAddrSpace t).spaceAlloc s.table = true
    rw [Mmu.freeAddrSpace_eq]
    exact (update_of_ne hne _ _).trans h.live
  · rw [Mmu.freeAddrSpace_user, if_neg hne]

theorem Sound.dropSpace (h : Sound m) (hp : m.spaces p = some s) :
    Sound { m with mmu := m.mmu.freeAddrSpace s.table, spaces := m.spaces.clear p } := by
  refine h.keep ((h.isolated.freeAddrSpace (h.space p s hp).live).withSpaces _) fun q u hu => ?_
  obtain ⟨hne, hu⟩ := Slots.clear_eq_some.mp hu
  exact ⟨hu, (h.space q u hu).freeAddrSpace fun hc => hne (h.apart q p u s hu hp hc)⟩

theorem Sound.freeTable (h : Sound m) (ht : m.mmu.spaceAlloc t = true)
    (hunused : ∀ q u, m.spaces q = some u → u.table ≠ t) :
    Sound { m with mmu := m.mmu.freeAddrSpace t } :=
  ⟨h.isolated.freeAddrSpace ht, fun q u hu => (h.space q u hu).freeAddrSpace (hunused q u hu),
    h.apart⟩

theorem Sound.unusedTable (h : Sound m) (hiso : Isolated noneRevoked m') (htouch : Touches t S m m')
    (hunused : ∀ q u, m.spaces q = some u → u.table ≠ t) : Sound m' := by
  refine h.keep hiso fun q u hu => ?_
  rw [htouch.spaces] at hu
  exact ⟨hu, (h.space q u hu).other htouch (hunused q u hu)⟩

theorem SpaceOk.stack_backed (h : SpaceOk m s) :
    (m.mmu.readL2Entry s.table s.stackBase).any L2Entry.isUser = true ∨ s.stackPages = 0 := by
  by_cases hzero : s.stackPages = 0
  · exact .inr hzero
  have hsome := h.stack (pageIdx s.stackBase)
    ⟨0, le_rfl, pos_of_ne_zero hzero, by rw [zero_mul, add_zero]⟩
  obtain ⟨e, he⟩ := Option.isSome_iff_exists.mp hsome
  obtain ⟨-, hentry, huser⟩ := Mmu.user_eq_some.mp he
  refine .inl ?_
  rw [Mmu.readL2Entry_eq, hentry]
  exact huser

theorem Sound.exit (h : Sound m) : Sound (m.exitCleanup p) := by
  unfold Memory.exitCleanup
  cases hp : m.spaces p with
  | none => exact h
  | some s =>
    have hok := h.space p s hp
    have hdown := (h.dropSpace hp).sameMmu (h.isolated.tearDown hok.live (m.spaces.clear p)) rfl rfl
    dsimp only
    rw [(freeUserPages_inert m s.table).mmu, (freeUserPages_inert m s.table).spaces]
    split
    · exact hdown
    · rename_i hnot
      rw [hok.stack_backed.resolve_left hnot]
      exact hdown

theorem Sound.abandon (h : Sound m) : Sound { m with spaces := m.spaces.clear p } := by
  refine h.keep (h.isolated.withSpaces _) fun q u hu => ?_
  obtain ⟨-, hu⟩ := Slots.clear_eq_some.mp hu
  have hok := h.space q u hu
  exact ⟨hu, hok.sameUser hok.live fun _ => rfl⟩

/-! ## `fork` -/

theorem Isolated.user_not_image (h : Isolated X m) {k : PageIdx} {e : L2Entry}
    (he : m.mmu.user t k = some e) :
    ¬(kernelMb ≤ k.1.val ∧ k.1.val < kernelMb + kernelSections) := by
  rintro ⟨hlo, hhi⟩
  obtain ⟨slot, hslot⟩ := Mmu.pooled_of_user h.kernelTables he
  rw [h.shaped.image t k.1 (Mmu.user_eq_some.mp he).1 hlo hhi] at hslot
  exact Mmu.kernelL1_ne_pool hslot

section Copy

variable (ht : m.mmu.spaceAlloc t = true) (hiso : Isolated noneRevoked m)

include ht hiso

theorem copyPage_spec (h : Backs noneRevoked t S m m') {k : PageIdx} {e : L2Entry}
    (hk : m.mmu.user tp k = some e) :
    ∃ S', S ⊆ S' ∧ Backs noneRevoked t S' m (copyPage t m' (vaOf k) e).2 ∧
      ((copyPage t m' (vaOf k) e).1 = true → k ∈ S') := by
  have ht' : m'.mmu.spaceAlloc t = true := h.touches.live ht
  have hkernel : ∀ mb, m'.mmu.tables t (l1Index (vaOf k)) ≠ .coarse (.kernel mb) := by
    rw [show l1Index (vaOf k) = k.1 from congrArg Prod.fst (pageIdx_vaOf k)]
    exact h.isolated.shaped.not_kernel ht' (hiso.user_not_image hk)
  unfold copyPage
  split
  · exact ⟨S, subset_rfl, h, nofun⟩
  rcases h.isolated.managed.allocPage with hnone | ⟨n, pages, hpair, hh⟩
  · rw [hnone]
    exact ⟨S, subset_rfl, h, nofun⟩
  rw [hpair]
  dsimp only
  rcases @Mmu.shatterAndMap_spec _ _ (vaOf k) (n * pageSize) e.attrs h.isolated.owned ht' hkernel
    with heq | ⟨mmu, heq, hmaps⟩
  · rw [heq]
    exact ⟨S, subset_rfl, h.frees (h.isolated.resettles _ hh), nofun⟩
  · obtain ⟨prot, hprot⟩ := hiso.attrs tp k e hk
    rw [Mmu.pageEntry_mul, pageIdx_vaOf, hprot] at hmaps
    rw [heq]
    exact ⟨insert k S, Set.subset_insert _ _, h.add ht _ hh hmaps, fun _ => Set.mem_insert _ _⟩

theorem copyPages_spec (l : List (Nat × L2Entry)) (h : Backs noneRevoked t S m m')
    (hl : ∀ q ∈ l, ∃ k, m.mmu.user tp k = some q.2 ∧ q.1 = vaOf k) :
    ∃ S', S ⊆ S' ∧ Backs noneRevoked t S' m (Mmu.foldWhile (copyPage t) l m').2 ∧
      ((Mmu.foldWhile (copyPage t) l m').1 = true → ∀ q ∈ l, pageIdx q.1 ∈ S') := by
  induction l generalizing S m' with
  | nil => exact ⟨S, subset_rfl, h, fun _ _ hq => absurd hq List.not_mem_nil⟩
  | cons q l ih =>
    obtain ⟨k, hk, hva⟩ := hl q (by simp)
    obtain ⟨va, e⟩ := q
    subst hva
    obtain ⟨S₁, hS₁, hbacks, hin⟩ := copyPage_spec ht hiso h hk
    rw [Mmu.foldWhile]
    generalize copyPage t m' (vaOf k) e = res at hbacks hin
    obtain ⟨ok, m₁⟩ := res
    cases ok with
    | false => exact ⟨S₁, hS₁, hbacks, fun hc => by cases hc⟩
    | true =>
      obtain ⟨S₂, hS₂, hbacks₂, hall⟩ := ih hbacks fun q hq => hl q (by simp [hq])
      refine ⟨S₂, hS₁.trans hS₂, hbacks₂, fun hok q hq => ?_⟩
      rcases List.mem_cons.mp hq with rfl | hq
      · rw [pageIdx_vaOf]
        exact hS₂ (hin rfl)
      · exact hall hok q hq

end Copy

theorem l2Alloc_eq {a b : Mmu} (ha : a.Owned) (hb : b.Owned) (hspaces : b.spaceAlloc = a.spaceAlloc)
    (htables : ∀ t i, a.spaceAlloc t = true → b.tables t i = a.tables t i) :
    b.l2Alloc = a.l2Alloc := by
  have hpoints : ∀ k slot, b.Points k slot ↔ a.Points k slot := by
    intro k slot
    rw [Mmu.Points, Mmu.Points, hspaces]
    refine and_congr_right fun hk => ?_
    rw [htables k.1 k.2 hk]
  funext slot
  rw [Bool.eq_iff_iff]
  constructor
  · intro hslot
    obtain ⟨k, hk⟩ := hb.complete slot hslot
    exact ha.exclusive.used ((hpoints k slot).mp hk)
  · intro hslot
    obtain ⟨k, hk⟩ := ha.complete slot hslot
    exact hb.exclusive.used ((hpoints k slot).mpr hk)

theorem Touches.undone {m₀ : Memory} (htouch : Touches t S m₀ m')
    (hnew : m.mmu.newAddrSpace = some (t, m₀.mmu)) :
    (m'.mmu.freeAddrSpace t).spaceAlloc = m.mmu.spaceAlloc ∧ ∀ t' i, m.mmu.spaceAlloc t' = true →
        (m'.mmu.freeAddrSpace t).tables t' i = m.mmu.tables t' i := by
  obtain ⟨hdead, hmmu⟩ := Mmu.newAddrSpace_eq_some hnew
  have hne : ∀ t', m.mmu.spaceAlloc t' = true → t' ≠ t := by
    rintro t' ht' rfl
    rw [hdead] at ht'
    cases ht'
  rw [Mmu.freeAddrSpace_eq]
  refine ⟨?_, fun t' i ht' => ?_⟩
  · rw [htouch.spaceAlloc, hmmu]
    funext t'
    by_cases heq : t' = t
    · rw [heq, hdead]
      exact update_self ..
    · simp [heq]
  · show m'.mmu.tables t' i = _
    rw [htouch.tables t' i (hne t' ht'), hmmu]
    simp [hne t' ht']

theorem Sound.newAddrSpace (h : Sound m) (hnew : m.mmu.newAddrSpace = some (t, mmu)) :
    Sound { m with mmu } ∧ mmu.spaceAlloc t = true ∧
      ∀ q u, m.spaces q = some u → u.table ≠ t := by
  have huser := Mmu.newAddrSpace_user h.isolated.kernelTables hnew
  obtain ⟨hdead, hmmu⟩ := Mmu.newAddrSpace_eq_some hnew
  have hne : ∀ q u, m.spaces q = some u → u.table ≠ t := by
    intro q u hu hc
    have := (h.space q u hu).live
    rw [hc, hdead] at this
    cases this
  refine ⟨⟨h.isolated.newAddrSpace hnew, fun q u hu => ?_, h.apart⟩, by simp [hmmu], hne⟩
  refine (h.space q u hu).sameUser ?_ fun k => huser u.table k
  simp [hmmu, hne q u hu, (h.space q u hu).live]

theorem Sound.addSpace (h : Sound m) (hiso : Isolated noneRevoked m') (htouch : Touches t S m m')
    (hnew : ∀ q u, m.spaces q = some u → u.table ≠ t) {child : Pid} (hok : SpaceOk m' s)
    (htable : s.table = t) : Sound (m'.setSpace child s) := by
  exact h.putSpace hiso htouch (fun q u hu hc => absurd hc (hnew q u hu)) hok htable

theorem Sound.fork (h : Sound m) (child : Pid) : Sound (m.forkPl0 p child).2 := by
  unfold Memory.forkPl0
  cases hp : m.spaces p with
  | none => exact h
  | some s =>
    have hok := h.space p s hp
    cases hnew : m.mmu.newAddrSpace with
    | none => exact h
    | some found =>
      obtain ⟨t, mmu⟩ := found
      obtain ⟨hsound, ht, hunused⟩ := h.newAddrSpace hnew
      have hparent : mmu.spaceAlloc s.table = true := (hsound.space p s hp).live
      have hcopies := fun l (hl : ∀ q ∈ l, q ∈ mmu.userPages s.table) =>
        copyPages_spec (m := { m with mmu }) ht hsound.isolated l (.refl hsound.isolated)
          fun q hq => (Mmu.mem_userPages hparent).mp (hl q hq)
      -- a copy into the child does not change what the walk reads
      have hkeeps : Mmu.Keeps Memory.mmu (copyPage t) s.table ({ m with mmu } : Memory).mmu
          (({ m with mmu } : Memory).mmu.userPages s.table) { m with mmu } := by
        intro l₁ m' hl₁ hrun
        obtain ⟨S, -, hbacks, -⟩ := hcopies l₁ hl₁.subset
        rw [hrun] at hbacks
        exact ⟨fun i => hbacks.touches.tables _ i (hunused p s hp),
          fun k => hbacks.touches.entry _ k hparent (hunused p s hp)⟩
      dsimp only
      unfold forkCopyPhase
      rw [Mmu.forEachUserPage_eq hkeeps]
      obtain ⟨S, -, hbacks, hall⟩ := hcopies (mmu.userPages s.table) fun _ hq => hq
      generalize Mmu.foldWhile _ _ _ = res at hbacks hall
      obtain ⟨ok, m'⟩ := res
      have hlive : m'.mmu.spaceAlloc t = true := hbacks.touches.live ht
      cases ok with
      | true =>
        have hsome : ∀ k, (m.mmu.user s.table k).isSome → (m'.mmu.user t k).isSome := by
          intro k hk
          obtain ⟨e, he⟩ := Option.isSome_iff_exists.mp hk
          rw [← Mmu.newAddrSpace_user h.isolated.kernelTables hnew] at he
          have hin := hall rfl _ ((Mmu.mem_userPages (p := (vaOf k, e)) hparent).mpr ⟨k, he, rfl⟩)
          rw [pageIdx_vaOf] at hin
          exact hbacks.user k hin
        refine hsound.addSpace hbacks.isolated hbacks.touches hunused ?_ rfl
        exact ⟨hlive, hok.breakAligned,
          fun va hva hlo hhi => hsome _ (hok.heap va hva hlo hhi), hok.mapping, hok.stackAligned,
          hok.stackFrames, fun k hk => hsome k (hok.stack k hk)⟩
      | false =>
        have hcopied : Sound m' := hsound.unusedTable hbacks.isolated hbacks.touches hunused
        have hfreed := hcopied.freeTable hlive fun q u hu =>
          hunused q u (hbacks.touches.spaces ▸ hu)
        have hdown := hfreed.sameMmu (hbacks.isolated.tearDown hlive m'.spaces) rfl rfl
        rw [← (freeUserPages_inert m' t).spaces] at hdown
        dsimp only
        rw [(freeUserPages_inert m' t).mmu]
        exact hdown

end Memory

end Thumos
