import Thumos.Kernel.PageLoops

/-!
# The memory parts of the processes

What a process records about its memory agrees with its page table as far as
the kernel relies on it (`Memory.SpaceOk`), and no two processes have the same
table.  Together with the isolation of the address spaces this is
`Memory.Sound`.  The memory calls keep it for all their arguments.
-/

namespace Thumos

open Ownership Pages Nat

/-! ## Regions -/

theorem mem_region {base i j va : Nat} (hbase : base % pageSize = 0) (hva : va % pageSize = 0)
    (hlt : va < usizeSize) (hj : base + j * pageSize ≤ usizeSize) :
    pageIdx va ∈ region base i j ↔ base + i * pageSize ≤ va ∧ va < base + j * pageSize := by
  constructor
  · rintro ⟨l, hil, hlj, heq⟩
    have hl : base + l * pageSize < usizeSize := by
      simp only [pageSize] at *
      omega
    have := pageIdx_inj hlt hl heq
    simp only [pageSize] at *
    omega
  · rintro ⟨hle, hvaj⟩
    refine ⟨(va - base) / pageSize, ?_, ?_, ?_⟩
    · simp only [pageSize] at *
      omega
    · simp only [pageSize] at *
      omega
    · congr 1
      simp only [pageSize] at *
      omega

theorem region_low {base i j : Nat} (h : base + j * pageSize ≤ ramStart) {s : PageIdx}
    (hs : s ∈ region base i j) : s.1.val < kernelMb := by
  obtain ⟨l, -, hlj, rfl⟩ := hs
  have hlt : base + l * pageSize < ramStart := by
    simp only [pageSize] at *
    omega
  rw [show (pageIdx (base + l * pageSize)).1 = l1Index (base + l * pageSize) from rfl,
    Mmu.l1Index_val (lt_trans hlt (by decide))]
  simp only [kernelMb, ramStart, pageSize] at *
  omega

namespace Memory

def noneRevoked : Fin maxAddrSpaces → PageIdx → Prop := fun _ _ => False

structure SpaceOk (m : Memory) (s : Space) : Prop where
  live : m.mmu.spaceAlloc s.table = true
  breakAligned : s.heapBreak % pageSize = 0
  heap : ∀ va, va % pageSize = 0 → defaultHeapBreak ≤ va → va < s.heapBreak →
    (m.mmu.user s.table (pageIdx va)).isSome
  mapping : ∀ i v, s.mappings i = some v →
    v.start % pageSize = 0 ∧ mmapBase ≤ v.start ∧ v.start + v.pages * pageSize ≤ mmapEnd
  stackAligned : s.stackBase % pageSize = 0
  stackFrames : ∀ j < s.stackPages, UsableFrame (s.stackBase / pageSize + j)
  stack : ∀ s' ∈ region s.stackBase 0 s.stackPages, (m.mmu.user s.table s').isSome

structure Sound (m : Memory) : Prop where
  isolated : Isolated noneRevoked m
  space : ∀ p s, m.spaces p = some s → SpaceOk m s
  apart : ∀ p p' s s', m.spaces p = some s → m.spaces p' = some s' → s.table = s'.table → p = p'

variable {m m' : Memory} {s s' : Space} {S : Set PageIdx} {t : Fin maxAddrSpaces} {p : Pid}
  {X : Fin maxAddrSpaces → PageIdx → Prop}

theorem SpaceOk.stack_high (h : SpaceOk m s) {k : PageIdx}
    (hk : k ∈ region s.stackBase 0 s.stackPages) : kernelMb + kernelSections ≤ k.1.val := by
  obtain ⟨l, -, hl, rfl⟩ := hk
  obtain ⟨hlo, hhi⟩ := h.stackFrames l hl
  have hlt : s.stackBase + l * pageSize < usizeSize := by
    simp only [pageSize, usizeSize] at *
    omega
  rw [show (pageIdx (s.stackBase + l * pageSize)).1 = l1Index (s.stackBase + l * pageSize) from rfl,
    Mmu.l1Index_val hlt]
  simp only [kernelMb, kernelSections, pageSize] at *
  omega

theorem SpaceOk.break_le (h : SpaceOk m s) (hiso : Isolated X m) :
    s.heapBreak ≤ defaultHeapBreak + 64 * 2 ^ 20 := by
  have halign := h.breakAligned
  have hle := hiso.pages_le (i := (s.heapBreak - defaultHeapBreak) / pageSize) h.live
    (show defaultHeapBreak ≤ mmapEnd by decide) <| by
      rintro k ⟨j, -, hj, rfl⟩
      refine h.heap _ ?_ (le_add_right _ _) ?_
      · simp only [defaultHeapBreak, pageSize]
        omega
      · simp only [defaultHeapBreak, pageSize] at *
        omega
  simp only [defaultHeapBreak, pageSize] at *
  omega

theorem SpaceOk.sameUser (h : SpaceOk m s) (hlive : m'.mmu.spaceAlloc s.table = true)
    (huser : ∀ k, m'.mmu.user s.table k = m.mmu.user s.table k) : SpaceOk m' s :=
  ⟨hlive, h.breakAligned, fun va hva hlo hhi => by rw [huser]; exact h.heap va hva hlo hhi,
    h.mapping, h.stackAligned, h.stackFrames, fun k hk => by rw [huser]; exact h.stack k hk⟩

theorem SpaceOk.other (h : SpaceOk m s) (htouch : Touches t S m m') (hne : s.table ≠ t) :
    SpaceOk m' s :=
  h.sameUser (htouch.live h.live) fun k => htouch.user _ k fun hc => hne hc.1

theorem SpaceOk.touch (h : SpaceOk m s) (htouch : Touches s.table S m m')
    (hlow : ∀ k ∈ S, k.1.val < kernelMb)
    (hheap : ∀ va, va % pageSize = 0 → defaultHeapBreak ≤ va → va < s.heapBreak → pageIdx va ∉ S) :
    SpaceOk m' s where
  live := htouch.live h.live
  breakAligned := h.breakAligned
  heap va hva hlo hhi := by
    rw [htouch.user _ _ fun hc => hheap va hva hlo hhi hc.2]
    exact h.heap va hva hlo hhi
  mapping := h.mapping
  stackAligned := h.stackAligned
  stackFrames := h.stackFrames
  stack k hk := by
    rw [htouch.user _ _ fun hc => ?_]
    · exact h.stack k hk
    · have := hlow k hc.2
      have := h.stack_high hk
      omega

theorem Sound.keep (h : Sound m) (hiso : Isolated noneRevoked m')
    (hkeep : ∀ q u, m'.spaces q = some u → m.spaces q = some u ∧ SpaceOk m' u) : Sound m' :=
  ⟨hiso, fun q u hu => (hkeep q u hu).2,
    fun q q' u u' hu hu' => h.apart q q' u u' (hkeep q u hu).1 (hkeep q' u' hu').1⟩

theorem Sound.putSpace (h : Sound m) (hiso : Isolated noneRevoked m') (htouch : Touches t S m m')
    (hsole : ∀ q u, m.spaces q = some u → u.table = t → q = p) (hok : SpaceOk m' s)
    (htable : s.table = t) : Sound (m'.setSpace p s) := by
  have hspaces : (m'.setSpace p s).spaces = m.spaces.put p s := by
    rw [Memory.setSpace, htouch.spaces]
  refine ⟨hiso.withSpaces _, fun q u hu => ?_, fun q q' u u' hu hu' heq => ?_⟩
  · rw [hspaces, Slots.put_eq_some] at hu
    rcases hu with ⟨rfl, rfl⟩ | ⟨hne, hu⟩
    · exact hok.sameUser hok.live fun _ => rfl
    · have hother := (h.space q u hu).other htouch fun hc => hne (hsole q u hu hc)
      exact hother.sameUser hother.live fun _ => rfl
  · rw [hspaces, Slots.put_eq_some] at hu hu'
    rcases hu with ⟨rfl, rfl⟩ | ⟨-, hu⟩
    · rcases hu' with ⟨rfl, rfl⟩ | ⟨-, hu'⟩
      · rfl
      · exact (hsole q' u' hu' (heq.symm.trans htable)).symm
    · rcases hu' with ⟨rfl, rfl⟩ | ⟨-, hu'⟩
      · exact hsole q u hu (heq.trans htable)
      · exact h.apart q q' u u' hu hu' heq

section

variable (h : Sound m) (hp : m.spaces p = some s) (hiso : Isolated noneRevoked m')
  (htouch : Touches s.table S m m')

include h hp hiso htouch

theorem Sound.setSpace (htable : s'.table = s.table) (hok : SpaceOk m' s') :
    Sound (m'.setSpace p s') :=
  h.putSpace hiso htouch (fun q u hu => h.apart q p u s hu hp) hok htable

theorem Sound.sameSpace (hok : SpaceOk m' s) : Sound m' := by
  have hsound := h.setSpace hp hiso htouch rfl hok
  rwa [Memory.setSpace, Slots.put_same (by rw [htouch.spaces, hp])] at hsound

end

/-! ## `brk` -/

theorem roundBreak_aligned (req : UInt32) : roundBreak req % pageSize = 0 := by
  rw [roundBreak, mul_mod_left]

theorem filled_low {base j : Nat} (hbase : base ≤ mmapEnd) (hj : j ≤ 64 * 256) :
    base + j * pageSize ≤ ramStart := by
  simp only [mmapEnd, pageSize, ramStart] at *
  omega

theorem SpaceOk.withBreak (h : SpaceOk m s) {b : Nat} (hb : b % pageSize = 0)
    (hheap : ∀ va, va % pageSize = 0 → defaultHeapBreak ≤ va → va < b →
      (m.mmu.user s.table (pageIdx va)).isSome) : SpaceOk m { s with heapBreak := b } :=
  ⟨h.live, hb, hheap, h.mapping, h.stackAligned, h.stackFrames, h.stack⟩

theorem not_mem_region {b base i j va : Nat} (hbase : base % pageSize = 0)
    (hlow : base + j * pageSize ≤ ramStart) (hle : b ≤ base + i * pageSize)
    (hva : va % pageSize = 0) (hlt : va < b) (hram : b ≤ ramStart) :
    pageIdx va ∉ region base i j := by
  have hus : va < usizeSize := lt_of_lt_of_le hlt (le_trans hram (by decide))
  rw [mem_region hbase hva hus (le_trans hlow (by decide))]
  omega

theorem Backs.start {base : Nat} (h : Isolated X m) : Backs X t (region base 0 0) m m := by
  rw [region_empty]
  exact .refl h

theorem Sound.brk (h : Sound m) (req : UInt32) : Sound (m.sysBrk p req).2 := by
  unfold Memory.sysBrk
  cases hp : m.spaces p with
  | none => exact h
  | some s =>
    have hok := h.space p s hp
    have hbreak := hok.break_le h.isolated
    have hbase : s.heapBreak ≤ mmapEnd := le_trans hbreak (by decide)
    have hram : s.heapBreak ≤ ramStart := le_trans hbreak (by decide)
    have halign := roundBreak_aligned req
    dsimp only
    split
    · exact h
    split
    · rename_i hgrow
      obtain ⟨hbacks, hall⟩ := mapFresh_spec (protRead ||| protWrite)
        ((roundBreak req - s.heapBreak) / pageSize) hok.live hbase (.start h.isolated)
      generalize mapFresh _ _ _ _ _ _ = res at hbacks hall
      obtain ⟨stop, j, m₁⟩ := res
      have hlive : m₁.mmu.spaceAlloc s.table = true := hbacks.touches.live hok.live
      have hlow := filled_low hbase (hbacks.isolated.pages_le hlive hbase hbacks.user)
      -- growing touches only pages from the break on
      have hgrows : ∀ {m' : Memory}, Touches s.table (region s.heapBreak 0 j) m m' →
          SpaceOk m' s := fun htouch =>
        hok.touch htouch (fun k hk => region_low hlow hk) fun va hva hlo hlt =>
          not_mem_region hok.breakAligned hlow (by omega) hva hlt hram
      have hok₁ := hgrows hbacks.touches
      cases stop with
      | all =>
        have hj : j = 0 + (roundBreak req - s.heapBreak) / pageSize := hall rfl
        refine h.setSpace hp hbacks.isolated hbacks.touches rfl ?_
        refine hok₁.withBreak halign fun va hva hlo hlt => ?_
        by_cases hold : va < s.heapBreak
        · exact hok₁.heap va hva hlo hold
        refine hbacks.user _ ?_
        have halign' := hok.breakAligned
        rw [mem_region hok.breakAligned hva]
        · simp only [pageSize] at *
          omega
        · simp only [pageSize, ramStart, usizeSize, defaultHeapBreak] at *
          omega
        · exact le_trans hlow (by decide)
      | outOfMemory =>
        have hsheds := hbacks.isolated.releasePages hlive hlow fun _ _ => id
        have htouch := hbacks.touches.trans hsheds.touches
        exact h.sameSpace hp hsheds.isolated htouch (hgrows htouch)
      | unmappable => exact h.sameSpace hp hbacks.isolated hbacks.touches hok₁
    · split
      · rename_i hshrink
        have hlow : roundBreak req + (s.heapBreak - roundBreak req) / pageSize * pageSize ≤
            ramStart := by
          have := hok.breakAligned
          simp only [pageSize, ramStart] at *
          omega
        have hsheds := h.isolated.releasePages hok.live hlow fun _ _ => id
        have hlower : SpaceOk m { s with heapBreak := roundBreak req } :=
          hok.withBreak halign fun va hva hlo hlt => hok.heap va hva hlo (by omega)
        refine h.setSpace hp hsheds.isolated hsheds.touches rfl ?_
        exact hlower.touch hsheds.touches (fun k hk => region_low hlow hk) fun va hva hlo hlt =>
          not_mem_region halign hlow (by dsimp only; omega) hva hlt (by dsimp only; omega)
      · exact h

/-! ## `mmap` -/

structure Candidate (base : Nat) : Prop where
  aligned : base % pageSize = 0
  ge : mmapBase ≤ base
  le : base ≤ mmapEnd

variable {i : Fin maxMappings} {mappings : Slots maxMappings VmMapping}

theorem SpaceOk.last_eq (h : SpaceOk m s) {v : VmMapping} (hv : s.mappings i = some v) :
    v.last = v.start + v.pages * pageSize :=
  mod_usize (lt_of_le_of_lt (h.mapping i v hv).2.2 (by decide))

theorem overlapping_eq_some {candidate last past : Nat}
    (h : overlapping mappings candidate last = some past) :
    ∃ i v, mappings i = some v ∧ v.last = past := by
  obtain ⟨i, -, hi⟩ := List.exists_of_findSome?_eq_some h
  obtain ⟨v, hv, hif⟩ := Option.bind_eq_some_iff.mp hi
  split at hif
  · cases hif
    exact ⟨i, v, hv, rfl⟩
  · cases hif

theorem SpaceOk.search (h : SpaceOk m s) {pageCount fuel start base : Nat}
    (hstart : Candidate start)
    (hfound : Memory.search s.mappings pageCount fuel start = some base) :
    Candidate base ∧ (base + pageCount * pageSize) % usizeSize ≤ mmapEnd := by
  induction fuel generalizing start with
  | zero => cases hfound
  | succ fuel ih =>
    rw [Memory.search] at hfound
    split at hfound
    · cases hfound
    split at hfound
    · rename_i past hover
      obtain ⟨i, v, hv, rfl⟩ := overlapping_eq_some hover
      obtain ⟨halign, hge, hle⟩ := h.mapping i v hv
      refine ih ⟨?_, ?_, ?_⟩ hfound
      · rw [h.last_eq hv, add_mul_mod_self_right, halign]
      · rw [h.last_eq hv]
        omega
      · rw [h.last_eq hv]
        exact hle
    · cases hfound
      exact ⟨hstart, by omega⟩

theorem candidate_mmapBase : Candidate mmapBase := by
  refine ⟨?_, ?_, ?_⟩ <;> decide

theorem Sound.mmap (h : Sound m) (length prot flagsAndFd : UInt32) :
    Sound (m.sysMmap p length prot flagsAndFd).2 := by
  unfold Memory.sysMmap
  split_ifs
  iterate 4 exact h
  cases hp : m.spaces p with
  | none => exact h
  | some s =>
    have hok := h.space p s hp
    have hbreak := hok.break_le h.isolated
    dsimp only
    cases hsearch : search s.mappings (Elf.ceilPages length.toNat) (maxMappings + 1) mmapBase with
    | none => exact h
    | some base =>
      obtain ⟨hcand, hend⟩ := hok.search candidate_mmapBase hsearch
      have hge := hcand.ge
      obtain ⟨hbacks, hall⟩ := mapFresh_spec prot (Elf.ceilPages length.toNat) hok.live hcand.le
        (.start h.isolated)
      dsimp only
      generalize mapFresh _ _ _ _ _ _ = res at hbacks hall
      obtain ⟨stop, j, m₁⟩ := res
      have hlive : m₁.mmu.spaceAlloc s.table = true := hbacks.touches.live hok.live
      have hlow := filled_low hcand.le (hbacks.isolated.pages_le hlive hcand.le hbacks.user)
      have htouches : ∀ {m' : Memory}, Touches s.table (region base 0 j) m m' → SpaceOk m' s := by
        intro m' htouch
        refine hok.touch htouch (fun k hk => region_low hlow hk) fun va hva hlo hlt => ?_
        exact not_mem_region (b := s.heapBreak) hcand.aligned hlow
          (by simp only [mmapBase, defaultHeapBreak] at *; omega) hva hlt
          (le_trans hbreak (by decide))
      -- the failure returns take back what was mapped
      have hfail : Sound (m₁.releasePages s.table base j) := by
        have hsheds := hbacks.isolated.releasePages hlive hlow fun _ _ => id
        have htouch := hbacks.touches.trans hsheds.touches
        exact h.sameSpace hp hsheds.isolated htouch (htouches htouch)
      cases stop with
      | outOfMemory => exact hfail
      | unmappable => exact hfail
      | all =>
        have hj : j = Elf.ceilPages length.toNat := (hall rfl).trans (zero_add _)
        subst hj
        dsimp only
        cases hfree : s.mappings.firstFree with
        | none => exact hfail
        | some i =>
          have hok₁ := htouches hbacks.touches
          refine h.setSpace hp hbacks.isolated hbacks.touches rfl ?_
          refine ⟨hok₁.live, hok₁.breakAligned, hok₁.heap, fun i' v hv => ?_, hok₁.stackAligned,
            hok₁.stackFrames, hok₁.stack⟩
          rcases Slots.put_eq_some.mp hv with ⟨rfl, rfl⟩ | ⟨-, hv⟩
          · rw [mod_usize (lt_of_le_of_lt hlow (by decide))] at hend
            exact ⟨hcand.aligned, hcand.ge, hend⟩
          · exact hok₁.mapping i' v hv

/-! ## `munmap` and `mprotect` -/

theorem findMapping_eq_some {addr : Nat} {v : VmMapping}
    (h : findMapping mappings addr = some (i, v)) : mappings i = some v := by
  obtain ⟨j, -, hj⟩ := List.exists_of_findSome?_eq_some h
  obtain ⟨w, hw, hif⟩ := Option.bind_eq_some_iff.mp hj
  split at hif
  · cases hif
    exact hw
  · cases hif

theorem SpaceOk.mapping_region (h : SpaceOk m s) (hiso : Isolated X m) {v : VmMapping}
    (hv : s.mappings i = some v) :
    v.start + v.pages * pageSize ≤ ramStart ∧
      ∀ va, va % pageSize = 0 → va < s.heapBreak → pageIdx va ∉ region v.start 0 v.pages := by
  obtain ⟨halign, hge, hle⟩ := h.mapping i v hv
  have hbreak := h.break_le hiso
  have hlow : v.start + v.pages * pageSize ≤ ramStart := le_trans hle (by decide)
  refine ⟨hlow, fun va hva hlt => ?_⟩
  exact not_mem_region (b := s.heapBreak) halign hlow
    (by simp only [mmapBase, defaultHeapBreak] at *; omega) hva hlt (le_trans hbreak (by decide))

theorem SpaceOk.withMappings (h : SpaceOk m s)
    (hsub : ∀ i v, mappings i = some v → ∃ j w, s.mappings j = some w ∧ w.start = v.start ∧
      w.pages = v.pages) : SpaceOk m { s with mappings } := by
  refine ⟨h.live, h.breakAligned, h.heap, fun i v hv => ?_, h.stackAligned, h.stackFrames, h.stack⟩
  obtain ⟨j, w, hw, hstart, hpages⟩ := hsub i v hv
  have := h.mapping j w hw
  rwa [hstart, hpages] at this

theorem releasePage_setSpace (m : Memory) (t : Fin maxAddrSpaces) (va : Nat) (p : Pid) (s : Space) :
    (m.setSpace p s).releasePage t va = (m.releasePage t va).setSpace p s := by
  unfold releasePage freePage tryFreePage setSpace
  cases m.mmu.readL2Phys t va with
  | none => rfl
  | some phys =>
    dsimp only
    split <;> rfl

theorem releasePages_setSpace (m : Memory) (t : Fin maxAddrSpaces) (base n : Nat) (p : Pid)
    (s : Space) : (m.setSpace p s).releasePages t base n =
      (m.releasePages t base n).setSpace p s := by
  unfold releasePages
  generalize pagesFrom base n = l
  induction l generalizing m with
  | nil => rfl
  | cons va l ih => rw [List.foldl_cons, List.foldl_cons, releasePage_setSpace, ih]

theorem Sound.munmap (h : Sound m) (addr : UInt32) : Sound (m.sysMunmap p addr).2 := by
  unfold Memory.sysMunmap
  cases hp : m.spaces p with
  | none => exact h
  | some s =>
    have hok := h.space p s hp
    dsimp only
    cases hfind : findMapping s.mappings addr.toNat with
    | none => exact h
    | some found =>
      obtain ⟨i, v⟩ := found
      obtain ⟨hlow, hheap⟩ := hok.mapping_region h.isolated (findMapping_eq_some hfind)
      have hsheds := h.isolated.releasePages hok.live hlow fun _ _ => id
      dsimp only
      rw [releasePages_setSpace]
      refine h.setSpace hp hsheds.isolated hsheds.touches rfl ?_
      refine SpaceOk.withMappings (hok.touch hsheds.touches (fun k hk => region_low hlow hk)
        fun va hva _ hlt => hheap va hva hlt) fun j w hw => ?_
      exact ⟨j, w, (Slots.clear_eq_some.mp hw).2, rfl, rfl⟩

theorem mem_region_pagesFrom {base n va : Nat} (h : base + n * pageSize ≤ ramStart)
    (hva : va ∈ pagesFrom base n) : va < ramStart ∧ pageIdx va ∈ region base 0 n := by
  obtain ⟨i, hi, rfl⟩ := mem_pagesFrom.mp hva
  have hlt : base + i * pageSize < ramStart := by
    have : i * pageSize < n * pageSize := (Nat.mul_lt_mul_right (by decide)).mpr hi
    omega
  rw [mod_usize (lt_trans hlt (by decide))]
  exact ⟨hlt, i, Nat.zero_le i, hi, rfl⟩

section

variable (h : Sound m)

include h

theorem Sound.mprotect (addr prot : UInt32) : Sound (m.sysMprotect p addr prot).2 := by
  unfold Memory.sysMprotect
  cases hp : m.spaces p with
  | none => exact h
  | some s =>
    have hok := h.space p s hp
    dsimp only
    split
    · exact h
    cases hfind : findMapping s.mappings addr.toNat with
    | none => exact h
    | some found =>
      obtain ⟨i, v⟩ := found
      have hv := findMapping_eq_some hfind
      obtain ⟨hlow, hheap⟩ := hok.mapping_region h.isolated hv
      obtain ⟨hiso, htouch⟩ := protectPages_spec prot (pagesFrom v.start v.pages) h.isolated
        hok.live (fun va hva => (mem_region_pagesFrom hlow hva).1) (fun _ _ => id)
        fun va hva => (mem_region_pagesFrom hlow hva).2
      have hok' := hok.touch htouch (fun k hk => region_low hlow hk)
        fun va hva _ hlt => hheap va hva hlt
      dsimp only
      generalize protectPages _ _ _ _ = res at hiso htouch hok'
      obtain ⟨ok, mmu⟩ := res
      cases ok with
      | false => exact h.sameSpace hp hiso htouch hok'
      | true =>
        refine h.setSpace hp hiso htouch rfl (SpaceOk.withMappings hok' fun j w hw => ?_)
        rcases Slots.put_eq_some.mp hw with ⟨rfl, rfl⟩ | ⟨-, hw⟩
        · exact ⟨_, v, hv, rfl, rfl⟩
        · exact ⟨j, w, hw, rfl, rfl⟩

/-! ## Frames without a mapping -/

theorem Sound.sameMmu (hiso : Isolated noneRevoked m') (hmmu : m'.mmu = m.mmu)
    (hspaces : m'.spaces = m.spaces) : Sound m' := by
  refine h.keep hiso fun q u hu => ?_
  rw [hspaces] at hu
  have hok := h.space q u hu
  exact ⟨hu, hok.sameUser (by rw [hmmu, hok.live]) fun k => by rw [hmmu]⟩

theorem Sound.grantRun {pages : Pages} {n k : Nat} {grants : Nat → Option Grant}
    (hh : Handed m.pages pages n k) (hout : ∀ i ∉ run n k, grants i = m.grants i) :
    Sound { m with pages, grants } := by
  refine h.sameMmu ?_ rfl rfl
  refine (h.isolated.take hh).regrant fun i g' hg => ?_
  by_cases hi : i ∈ run n k
  · obtain ⟨husable, hused, hnone⟩ := h.isolated.handed hh hi
    exact .inr ⟨⟨husable, hused⟩, hnone⟩
  · exact .inl ((hout i hi).symm.trans hg)

theorem Sound.allocPage : Sound (m.sysAllocPage p).2 := by
  unfold Memory.sysAllocPage
  rcases h.isolated.managed.allocPage with hnone | ⟨n, pages, hpair, hh⟩
  · rw [hnone]
    exact h
  rw [hpair]
  have hself : ∀ i, i ∈ run n 1 ↔ i = n := fun i => by rw [mem_run]; omega
  refine h.grantRun hh fun i hi => ?_
  rw [Nat.mul_div_cancel _ (by decide)]
  exact Function.update_of_ne (fun hc => hi ((hself i).mpr hc)) _ _

theorem Sound.ungrantRun {pages : Pages} {n k : Nat} {ram : Nat → FrameData}
    {grants : Nat → Option Grant} (hr : Returned m.pages pages n k)
    (hgranted : ∀ i ∈ run n k, ∃ g, m.grants i = some g) (hin : ∀ i ∈ run n k, grants i = none)
    (hout : ∀ i ∉ run n k, grants i = m.grants i) : Sound { m with pages, ram, grants } := by
  have hfewer : Isolated noneRevoked { m with grants } := h.isolated.regrant fun i g hg => by
    by_cases hi : i ∈ run n k
    · rw [hin i hi] at hg
      cases hg
    · exact .inl ((hout i hi).symm.trans hg)
  refine h.sameMmu ?_ rfl rfl
  have hback : Isolated noneRevoked { m with pages, grants } := by
    refine hfewer.giveBack hr (fun i hi => ?_) fun i hi k hk => ?_
    · obtain ⟨g, hg⟩ := hgranted i hi
      exact (h.isolated.exclusive.used (k := .grant g) hg).1
    · obtain ⟨g, hg⟩ := hgranted i hi
      cases k with
      | grant g' => exact nomatch (hin i hi).symm.trans hk
      | page t s =>
        cases h.isolated.exclusive.unique (k := .page t s) hk (show m.Holds (.grant g) i from hg)
  exact hback.withRam ram

theorem Sound.freePage {addr : UInt32}
    (hgrant : m.grants (addr.toNat / pageSize) = some (.process p)) :
    Sound ((m.sysFreePage p addr).elim m Prod.snd) := by
  unfold Memory.sysFreePage
  cases hp : m.spaces p with
  | none => exact h
  | some s =>
    dsimp only
    split
    · exact h
    rcases h.isolated.managed.tryFreePage addr.toNat with heq | ⟨n, pages, haddr, heq, hr⟩
    · rw [heq]
      exact h
    rw [heq]
    cases hframe : m.mmu.kernelFrame s.table addr.toNat with
    | none => exact h
    | some frame =>
      have hself : ∀ i, i ∈ run n 1 ↔ i = n := fun i => by rw [mem_run]; omega
      rw [haddr, Nat.mul_div_cancel _ (by decide)] at hgrant
      refine h.ungrantRun hr (fun i hi => ?_) (fun i hi => ?_) fun i hi => ?_
      · rw [(hself i).mp hi]
        exact ⟨_, hgrant⟩
      · rw [(hself i).mp hi, haddr, Nat.mul_div_cancel _ (by decide), Function.update_self]
      · rw [haddr, Nat.mul_div_cancel _ (by decide)]
        exact Function.update_of_ne (fun hc => hi ((hself i).mpr hc)) _ _

theorem Sound.heapGrow (n : Nat) : Sound (m.heapGrow n) := by
  unfold Memory.heapGrow
  by_cases hn : n = 0
  · rw [Pages.allocContiguous, if_pos hn]
    exact h
  rcases h.isolated.managed.allocContiguous (k := n) (by omega) with hnone | ⟨a, pages, hpair, hh⟩
  · rw [hnone]
    exact h
  rw [hpair]
  refine h.grantRun hh fun i hi => ?_
  rw [Nat.mul_div_cancel _ (by decide)]
  exact if_neg hi

theorem Sound.heapShrink (addr n : Nat) : Sound (m.heapShrink addr n) := by
  unfold Memory.heapShrink
  split
  · rename_i hall
    have hgranted : ∀ i ∈ run (addr / pageSize) n, m.grants i = some .kernel := fun i hi =>
      hall i (List.mem_range'_1.mpr hi)
    have hfewer : Sound { m with grants := fun page =>
        if addr / pageSize ≤ page ∧ page < addr / pageSize + n then none else m.grants page } := by
      refine h.sameMmu (h.isolated.regrant fun i g hg => ?_) rfl rfl
      split at hg
      · cases hg
      · exact .inl hg
    by_cases hn : n = 0
    · have hsame : m.freeContiguous addr n = m := by
        rw [Memory.freeContiguous, Pages.freeContiguous, if_pos hn]
      rw [hsame]
      exact hfewer
    · have hlast := (h.isolated.exclusive.used (k := .grant .kernel)
        (hgranted _ (last_mem_run (by omega)))).1.2
      rcases freeContiguous_cases h.isolated.managed
          (show addr / pageSize + n < usizeSize by simp only [usizeSize]; omega)
        with heq | ⟨a, p', haddr, hr, heq⟩
      · rw [heq]
        exact hfewer
      · rw [heq, haddr, Nat.mul_div_cancel _ (by decide)]
        rw [haddr, Nat.mul_div_cancel _ (by decide)] at hgranted
        exact h.ungrantRun hr (fun i hi => ⟨_, hgranted i hi⟩) (fun i hi => if_pos hi)
          fun i hi => if_neg hi
  · exact h

end

end Memory

end Thumos
