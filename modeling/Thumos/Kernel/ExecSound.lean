import Thumos.Kernel.ForkExit

/-!
# Address spaces filled and replaced

What `spawn_user` and `sys_execve` do to the memory.  Both map frames that
nobody has yet, the image and the stack, into one address space; `execve` drops
the old image, stack, mappings and heap before.
-/

namespace Thumos

open Ownership Pages Elf List

namespace Memory

variable {X : Fin maxAddrSpaces → PageIdx → Prop} {m m' m'' : Memory} {s : Space} {p : Pid}
  {t : Fin maxAddrSpaces} {n : Nat} {S : Set PageIdx} {L : List (Nat × Nat)}

/-! ## Given frames at given pages -/

/-- Every address of the list has a frame of its own, which nobody else has. -/
structure Assignable (m : Memory) (t : Fin maxAddrSpaces) (L : List (Nat × Nat)) : Prop where
  outside : ∀ q ∈ L, ¬(kernelMb ≤ (l1Index q.1).val ∧ (l1Index q.1).val < kernelMb + kernelSections)
  inUse : ∀ q ∈ L, q.2 / pageSize ∈ m.inUse
  sole : ∀ q ∈ L, ∀ k, m.Holds k (q.2 / pageSize) → k = .page t (pageIdx q.1)
  inj : ∀ q ∈ L, ∀ q' ∈ L, q.2 / pageSize = q'.2 / pageSize → pageIdx q.1 = pageIdx q'.1

/-- What a loop does that maps the pages of `l` to their frames. -/
structure Assigns (X : Fin maxAddrSpaces → PageIdx → Prop) (t : Fin maxAddrSpaces)
    (L l : List (Nat × Nat)) (m : Memory) (res : Bool × Mmu) : Prop where
  isolated : Isolated X { m with mmu := res.2 }
  touches : Touches t Set.univ m { m with mmu := res.2 }
  assignable : Assignable { m with mmu := res.2 } t L
  mapped : res.1 = true → ∀ q ∈ l, (res.2.user t (pageIdx q.1)).isSome
  user : ∀ t' k, res.2.user t' k = m.mmu.user t' k ∨
    ∃ q ∈ l, ∃ e, res.2.user t' k = some e ∧ e.page = q.2 / pageSize

variable {res : Bool × Mmu} {loaded : LoadedElf} {l l' : List (Nat × Nat)}

theorem Assigns.refl (h : Isolated X m) (hL : Assignable m t L) (hres : res.2 = m.mmu)
    (hl : res.1 = true → l = []) : Assigns X t L l m res := by
  obtain ⟨ok, mmu⟩ := res
  cases hres
  refine ⟨h, .refl, hL, fun hok q hq => ?_, fun _ _ => .inl rfl⟩
  rw [hl hok] at hq
  cases hq

theorem Assigns.trans {mmu : Mmu} (h : Assigns X t L l m (true, mmu))
    (h' : Assigns X t L l' { m with mmu } res) : Assigns X t L (l ++ l') m res where
  isolated := h'.isolated
  touches := h.touches.trans h'.touches
  assignable := h'.assignable
  mapped hok q hq := by
    rcases mem_append.mp hq with hq | hq
    · rcases h'.user t (pageIdx q.1) with heq | ⟨q', hq', e, he, hpage⟩
      · rw [heq]
        exact h.mapped rfl q hq
      · rw [he]
        rfl
    · exact h'.mapped hok q hq
  user t' k := by
    rcases h'.user t' k with heq | ⟨q', hq', hres⟩
    · rcases h.user t' k with heq' | ⟨q, hq, e, he, hpage⟩
      · exact .inl (heq.trans heq')
      · exact .inr ⟨q, by simp [hq], e, heq.trans he, hpage⟩
    · exact .inr ⟨q', by simp [hq'], hres⟩

theorem Assigns.stop {mmu : Mmu} (h : Assigns X t L l m (false, mmu)) :
    Assigns X t L (l ++ l') m (false, mmu) where
  isolated := h.isolated
  touches := h.touches
  assignable := h.assignable
  mapped := nofun
  user t' k := (h.user t' k).imp_right fun ⟨q, hq, hres⟩ => ⟨q, by simp [hq], hres⟩

section

variable (hL : Assignable m t L) (h : Isolated X m) (ht : m.mmu.spaceAlloc t = true) (prot : UInt32)

include hL h ht prot

theorem Assignable.step {va phys : Nat} (hq : (va, phys) ∈ L) :
    Assigns X t L [(va, phys)] m (m.mmu.shatterAndMap t va phys (protToL2Flags prot)) := by
  have hkernel := h.shaped.not_kernel ht (hL.outside _ hq)
  rcases @Mmu.shatterAndMap_spec _ _ va phys (protToL2Flags prot) h.owned ht hkernel
    with heq | ⟨mmu, heq, hmaps⟩
  · rw [heq]
    exact .refl h hL rfl nofun
  · rw [heq]
    have huser := hmaps.user ht (isUser_protToL2Flags (phys / pageSize) prot)
    have hmapped : Isolated X { m with mmu } :=
      h.map ht hmaps fun _ => ⟨hL.inUse _ hq, hL.sole _ hq⟩
    refine ⟨hmapped, (Touches.ofMaps ht hmaps).univ, ?_, fun _ q' hq' => ?_, fun t' k => ?_⟩
    · refine ⟨hL.outside, hL.inUse, fun q' hq' k hk => ?_, hL.inj⟩
      cases k with
      | grant g => exact hL.sole q' hq' (.grant g) hk
      | page t' s' =>
        obtain ⟨⟨e, he, hpage⟩, hram⟩ := hk
        rw [show mmu.user t' s' = _ from huser t' s'] at he
        split at he
        · rename_i hk
          cases he
          rw [hk.1, hk.2]
          exact congrArg _ (hL.inj _ hq q' hq' hpage)
        · exact hL.sole q' hq' (.page t' s') ⟨⟨e, he, hpage⟩, hram⟩
    · rw [mem_singleton.mp hq', huser, if_pos ⟨rfl, rfl⟩]
      rfl
    · dsimp only
      rw [huser]
      split
      · exact .inr ⟨(va, phys), by simp, _, rfl, rfl⟩
      · exact .inl rfl

theorem mapPages_spec (l : List (Nat × Nat)) (hl : ∀ q ∈ l, q ∈ L) :
    Assigns X t L l m (Mmu.mapPages t (protToL2Flags prot) l m.mmu) := by
  induction l generalizing m with
  | nil => exact .refl h hL rfl fun _ => rfl
  | cons q l ih =>
    obtain ⟨va, phys⟩ := q
    have hstep := hL.step h ht prot (hl (va, phys) (by simp))
    rw [Mmu.mapPages]
    generalize m.mmu.shatterAndMap t va phys (protToL2Flags prot) = res at hstep
    obtain ⟨ok, mmu⟩ := res
    cases ok with
    | true =>
      exact hstep.trans (ih hstep.assignable hstep.isolated (hstep.touches.live ht)
        fun q hq => hl q (by simp [hq]))
    | false => exact hstep.stop

end

/-! ## The image -/

/-- The frames of a loaded image are in use and nobody has them; its segments lie in the
window and in these frames. -/
structure Placed (m : Memory) (loaded : LoadedElf) : Prop where
  frames : ∃ n, loaded.imagePhys = n * pageSize ∧
    ∀ i ∈ run n loaded.imagePages, i ∈ m.inUse ∧ ∀ k, ¬m.Holds k i
  placed : ∀ seg ∈ loaded.segments, loaded.imageLo ≤ seg.vaddr ∧ userTextBase ≤ seg.vaddr ∧
    seg.vaddr + seg.memsz ≤ ramEnd
  span : ∀ seg ∈ loaded.segments, ∀ va, loaded.imageLo ≤ va → va < seg.vaddr + seg.memsz →
    (va - loaded.imageLo) / pageSize < loaded.imagePages

def alignedPages (loaded : LoadedElf) (segs : List Segment) : List (Nat × Nat) :=
  (segs.filter fun seg => seg.vaddr % pageSize = 0).flatMap (Mmu.segmentPages loaded)

theorem mem_alignedPages {segs : List Segment} {q : Nat × Nat} :
    q ∈ alignedPages loaded segs ↔ ∃ seg ∈ segs, seg.vaddr % pageSize = 0 ∧
      ∃ i < ceilPages seg.memsz, q = (seg.vaddr + i * pageSize,
        loaded.imagePhys + (seg.vaddr + i * pageSize - loaded.imageLo)) := by
  simp only [alignedPages, mem_flatMap, mem_filter, decide_eq_true_eq, Mmu.segmentPages,
    mem_map, mem_range]
  constructor
  · rintro ⟨seg, ⟨hseg, halign⟩, i, hi, rfl⟩
    exact ⟨seg, hseg, halign, i, hi, rfl⟩
  · rintro ⟨seg, hseg, halign, i, hi, rfl⟩
    exact ⟨seg, ⟨hseg, halign⟩, i, hi, rfl⟩

theorem Placed.page (h : Placed m loaded) {q : Nat × Nat}
    (hq : q ∈ alignedPages loaded loaded.segments) :
    q.1 % pageSize = 0 ∧ userTextBase ≤ q.1 ∧ q.1 < ramEnd ∧ loaded.imageLo ≤ q.1 ∧
      q.2 / pageSize = loaded.imagePhys / pageSize + (q.1 - loaded.imageLo) / pageSize ∧
      (q.1 - loaded.imageLo) / pageSize < loaded.imagePages := by
  obtain ⟨seg, hseg, halign, i, hi, rfl⟩ := mem_alignedPages.mp hq
  obtain ⟨hlo, hbase, hend⟩ := h.placed seg hseg
  obtain ⟨n, hn, -⟩ := h.frames
  have hlt : seg.vaddr + i * pageSize < seg.vaddr + seg.memsz := by
    simp only [ceilPages, pageSize] at *
    omega
  refine ⟨?_, ?_, ?_, ?_, ?_, h.span seg hseg _ ?_ hlt⟩
  · simp only [pageSize] at *
    omega
  · omega
  · omega
  · omega
  · dsimp only
    rw [hn]
    simp only [pageSize]
    omega
  · omega

theorem Placed.assignable (h : Placed m loaded) (t : Fin maxAddrSpaces) :
    Assignable m t (alignedPages loaded loaded.segments) := by
  obtain ⟨n, hn, hframes⟩ := h.frames
  have hphys : loaded.imagePhys / pageSize = n := by rw [hn, Nat.mul_div_cancel _ (by decide)]
  have hrun : ∀ q ∈ alignedPages loaded loaded.segments,
    q.2 / pageSize ∈ run n loaded.imagePages := by
    intro q hq
    obtain ⟨-, -, -, -, hq2, hlt⟩ := h.page hq
    rw [hq2, hphys]
    exact add_mem_run hlt
  refine ⟨fun q hq => ?_, fun q hq => (hframes _ (hrun q hq)).1,
    fun q hq k hk => absurd hk ((hframes _ (hrun q hq)).2 k), fun q hq q' hq' heq => ?_⟩
  · obtain ⟨-, hlo, hhi, -⟩ := h.page hq
    rw [Mmu.l1Index_val (lt_trans hhi (by decide))]
    simp only [userTextBase, kernelMb, kernelSections] at *
    omega
  · obtain ⟨ha, -, hhi, hlo, hq2, -⟩ := h.page hq
    obtain ⟨ha', -, hhi', hlo', hq2', -⟩ := h.page hq'
    have hva : q.1 = q'.1 := by
      simp only [pageSize] at *
      omega
    rw [hva]

theorem mapSegments_spec (segs : List Segment)
    (hL : Assignable m t (alignedPages loaded loaded.segments)) (h : Isolated X m)
    (ht : m.mmu.spaceAlloc t = true) (hsegs : ∀ seg ∈ segs, seg ∈ loaded.segments) :
    Assigns X t (alignedPages loaded loaded.segments) (alignedPages loaded segs) m
      (Mmu.mapSegments t loaded segs m.mmu) := by
  induction segs generalizing m with
  | nil => exact .refl h hL rfl fun _ => rfl
  | cons seg segs ih =>
    rw [Mmu.mapSegments]
    by_cases halign : seg.vaddr % pageSize = 0
    · have hlist : alignedPages loaded (seg :: segs) =
          Mmu.segmentPages loaded seg ++ alignedPages loaded segs := by
        simp [alignedPages, halign]
      have hseg := mapPages_spec hL h ht (flagsToProt seg.flags) (Mmu.segmentPages loaded seg)
        fun q hq => by
          obtain ⟨seg', hseg', hrest⟩ := mem_alignedPages.mp (hlist ▸ mem_append_left _ hq)
          exact mem_alignedPages.mpr ⟨seg', hsegs seg' hseg', hrest⟩
      rw [if_neg (not_not.mpr halign), hlist]
      generalize Mmu.mapPages _ _ _ _ = res at hseg
      obtain ⟨ok, mmu⟩ := res
      cases ok with
      | true =>
        exact hseg.trans (ih hseg.assignable hseg.isolated (hseg.touches.live ht)
          fun seg' hseg' => hsegs seg' (by simp [hseg']))
      | false => exact hseg.stop
    · rw [if_pos halign]
      exact .refl h hL rfl nofun

theorem Assigns.none_holds (h : Assigns X t L l m res) (hnone : ∀ k, ¬m.Holds k n)
    (hl : ∀ q ∈ l, q.2 / pageSize ≠ n) (k : Holder) : ¬{ m with mmu := res.2 }.Holds k n := by
  intro hk
  cases k with
  | grant g => exact hnone (.grant g) hk
  | page t' k' =>
    obtain ⟨⟨e, he, hpage⟩, hram⟩ := hk
    rcases h.user t' k' with heq | ⟨q, hq, e', he', hpage'⟩
    · exact hnone (.page t' k') ⟨⟨e, heq.symm.trans he, hpage⟩, hram⟩
    · cases he.symm.trans he'
      exact hl q hq (hpage'.symm.trans hpage)

/-! ## The stack -/

def stackList (base pages : Nat) : List (Nat × Nat) :=
  (List.range pages).map fun i => (base + i * pageSize, base + i * pageSize)

theorem mem_stackList {base pages : Nat} {q : Nat × Nat} : q ∈ stackList base pages ↔
    ∃ i < pages, q = (base + i * pageSize, base + i * pageSize) := by
  simp [stackList, eq_comm]

theorem Assigns.stack_isSome {base pages : Nat} (h : Assigns X t L (stackList base pages) m res)
    (hok : res.1 = true) : ∀ k ∈ region base 0 pages, (res.2.user t k).isSome := by
  rintro k ⟨i, -, hi, rfl⟩
  exact h.mapped hok _ (mem_stackList.mpr ⟨i, hi, rfl⟩)

theorem stack_assignable {pages : Nat} (t : Fin maxAddrSpaces)
    (h : ∀ i ∈ run n pages, i ∈ m.inUse ∧ ∀ k, ¬m.Holds k i) :
    Assignable m t (stackList (n * pageSize) pages) := by
  have hq : ∀ q ∈ stackList (n * pageSize) pages, q.1 = q.2 ∧ q.2 % pageSize = 0 ∧
      q.2 / pageSize ∈ run n pages := by
    intro q hq
    obtain ⟨i, hi, rfl⟩ := mem_stackList.mp hq
    refine ⟨rfl, ?_, ?_⟩
    · simp only [pageSize]
      omega
    · dsimp only
      rw [← Nat.add_mul, Nat.mul_div_cancel _ (by decide), mem_run]
      omega
  have hlt : ∀ q ∈ stackList (n * pageSize) pages, q.1 < usizeSize ∧
      0x402 ≤ q.1 / 2 ^ 20 := by
    intro q hmem
    obtain ⟨heq, halign, hrun⟩ := hq q hmem
    obtain ⟨hlo, hhi⟩ := (h _ hrun).1.1
    simp only [usizeSize, pageSize] at *
    omega
  refine ⟨fun q hmem => ?_, fun q hmem => (h _ (hq q hmem).2.2).1,
    fun q hmem k hk => absurd hk ((h _ (hq q hmem).2.2).2 k), fun q hmem q' hmem' hframe => ?_⟩
  · rw [Mmu.l1Index_val (hlt q hmem).1]
    have := (hlt q hmem).2
    simp only [kernelMb, kernelSections] at *
    omega
  · obtain ⟨heq, halign, -⟩ := hq q hmem
    obtain ⟨heq', halign', -⟩ := hq q' hmem'
    have hva : q.1 = q'.1 := by
      simp only [pageSize] at *
      omega
    rw [hva]

/-! ## Loading -/

def Spare (m : Memory) (n k : Nat) : Prop := ∀ i ∈ run n k, i ∈ m.inUse ∧ ∀ key, ¬m.Holds key i

theorem Isolated.spare (h : Isolated X m) {pages : Pages} {k : Nat}
    (hh : Handed m.pages pages n k) :
    Spare { m with pages } n k := fun _ hi =>
  have ⟨husable, hused, hnone⟩ := h.handed hh hi
  ⟨⟨husable, hused⟩, hnone⟩

theorem storeAll_eq {t : Option (Fin maxAddrSpaces)} {l : List (Nat × UInt8)}
    (h : m.storeAll t l = some m') : ∃ ram, m' = { m with ram } := by
  induction l generalizing m with
  | nil => exact ⟨m.ram, (Option.some.inj h).symm⟩
  | cons w l ih =>
    obtain ⟨m₁, hm₁, hrest⟩ := Option.bind_eq_some_iff.mp h
    obtain ⟨frame, -, rfl⟩ := Option.map_eq_some_iff.mp hm₁
    obtain ⟨ram, heq⟩ := ih hrest
    exact ⟨ram, heq⟩

theorem Isolated.loadConfined (h : Isolated X m) {t : Option (Fin maxAddrSpaces)}
    {data : List UInt8} (hload : m.loadConfined t data = .loaded loaded m') :
    ∃ pages ram n, m' = { m with pages, ram } ∧ loaded.imagePhys = n * pageSize ∧
      Handed m.pages pages n loaded.imagePages ∧ Placed { m with pages, ram } loaded := by
  unfold Memory.loadConfined at hload
  split at hload
  · cases hload
  · cases hload
  rename_i entry v hv
  split at hload
  · cases hload
  split at hload
  · cases hload
  rename_i imageLo hplan
  by_cases hzero : v.totalPages = 0
  · rw [Pages.allocContiguous, if_pos hzero] at hload
    cases hload
  rcases h.managed.allocContiguous (pos_of_ne_zero hzero) with hnone | ⟨n, pages, hpair, hh⟩
  · rw [hnone] at hload
    cases hload
  rw [hpair] at hload
  dsimp only at hload
  split at hload
  · cases hload
  rename_i m₁ hstore
  cases hload
  obtain ⟨ram, rfl⟩ := storeAll_eq hstore
  obtain ⟨haccepted, -, -, hentry⟩ := validate_eq_ok hv
  have hplanned := planned_of_plan haccepted hentry hplan
  obtain ⟨imageEnd, hle, hceil, hspan⟩ := hplanned.span
  refine ⟨pages, ram, n, rfl, rfl, hh, ⟨n, rfl, h.spare hh⟩, fun seg hseg => ?_,
    fun seg hseg va hlo hlt => ?_⟩
  · obtain ⟨hbase, hend⟩ := hplanned.placed seg hseg
    exact ⟨(hspan seg hseg).1, hbase, hend⟩
  · have hend := (hspan seg hseg).2
    dsimp only at hlo ⊢
    rw [← hceil]
    simp only [ceilPages, pageSize]
    omega

/-! ## `spawn_user` -/

theorem freeContiguous_with (m : Memory) (addr k : Nat) (mmu : Mmu) :
    { m with mmu }.freeContiguous addr k = { m.freeContiguous addr k with mmu } := by
  unfold freeContiguous
  cases m.pages.freeContiguous addr k with
  | mk ok pages => cases ok <;> rfl

theorem Frees.spare {N : Set Nat} (h : Frees X N m m') {k : Nat} (hspare : Spare m n k)
    (hN : ∀ i ∈ run n k, i ∉ N) : Spare m' n k := fun i hi =>
  ⟨⟨(hspare i hi).1.1, fun hc => ((h.frames i).mp hc).elim (hspare i hi).1.2 (hN i hi)⟩,
    fun key hk => (hspare i hi).2 key (h.inert.holds.mp hk)⟩

theorem Isolated.freeContiguous (h : Isolated X m) {k : Nat} (hspare : Spare m n k) :
    Frees X (run n k) m (m.freeContiguous (n * pageSize) k) := by
  rcases Nat.eq_zero_or_pos k with rfl | hk
  · refine ⟨h, ⟨rfl, rfl, rfl⟩, fun i => (or_iff_left fun hc => ?_).symm⟩
    rw [mem_run] at hc
    omega
  obtain ⟨p', heq, hr⟩ := h.managed.freeContiguous_run hk fun i hi => (hspare i hi).1
  have hgiven := h.giveBack hr (fun i hi => (hspare i hi).1.1) fun i hi => (hspare i hi).2
  rw [Memory.freeContiguous, heq]
  refine ⟨hgiven.withRam _, ⟨rfl, rfl, rfl⟩, fun i => ?_⟩
  show i ∈ p'.frames ↔ _
  rw [hr.frames, Set.mem_union]

theorem Isolated.freeUnspawnedImage (h : Isolated X m) (hphys : loaded.imagePhys = n * pageSize)
    (himage : Spare m n loaded.imagePages) :
    Frees X (run n loaded.imagePages) m (m.freeUnspawnedImage loaded) := by
  have hfrees := h.freeContiguous himage
  unfold Memory.freeUnspawnedImage
  split
  · rwa [hphys]
  · rename_i hzero
    rw [Nat.eq_zero_of_not_pos hzero] at hfrees ⊢
    exact hfrees

theorem freeUnspawnedImage_with (m : Memory) (loaded : LoadedElf) (mmu : Mmu) :
    { m with mmu }.freeUnspawnedImage loaded = { m.freeUnspawnedImage loaded with mmu } := by
  unfold freeUnspawnedImage
  split
  · exact freeContiguous_with _ _ _ _
  · rfl

theorem Sound.take (h : Sound m) {pages : Pages} {k : Nat} (hh : Handed m.pages pages n k) :
    Sound { m with pages } := h.sameMmu (h.isolated.take hh) rfl rfl

theorem Isolated.mapSignalTrampoline (h : Isolated X m) (ht : m.mmu.spaceAlloc t = true) :
    Isolated X (m.mapSignalTrampoline t).2 ∧
      Touches t {pageIdx signalTrampolineVa} m (m.mapSignalTrampoline t).2 ∧
      (∀ i, i ∈ (m.mapSignalTrampoline t).2.pages.frames ∨
        (m.mapSignalTrampoline t).1 = some (i * pageSize) ↔ i ∈ m.pages.frames) ∧
      (∀ k i, (m.mapSignalTrampoline t).2.Holds k i → m.Holds k i ∨ i ∈ m.pages.frames) ∧
      ∀ phys, (m.mapSignalTrampoline t).1 = some phys →
        ∃ n, phys = n * pageSize ∧ n ∈ m.pages.frames ∧
          n ∉ (m.mapSignalTrampoline t).2.pages.frames := by
  unfold Memory.mapSignalTrampoline
  rcases h.managed.allocPage with hnone | ⟨n, pages, hpair, hh⟩
  · rw [hnone]
    exact ⟨h, .refl, fun _ => or_iff_left nofun, fun _ _ hk => .inl hk, fun _ hc => by cases hc⟩
  rw [hpair]
  have hmb : (l1Index signalTrampolineVa).val = 0x7FE := by decide
  have hkernel := h.shaped.not_kernel (i := l1Index signalTrampolineVa) ht
    (by rw [hmb]; decide)
  dsimp only
  rcases @Mmu.shatterAndMap_spec _ _ signalTrampolineVa (n * pageSize)
    (protToL2Flags (protRead ||| protExec)) h.owned ht hkernel with heq | ⟨mmu, heq, hmaps⟩
  · rw [heq]
    have hres := h.resettles m.ram hh
    refine ⟨hres.isolated, .ofInert hres.inert, fun i => ?_,
      fun k i hk => .inl (hres.inert.holds.mp hk), fun _ hc => by cases hc⟩
    exact (or_iff_left nofun).trans ((hres.frames i).trans (or_iff_left nofun))
  · rw [Mmu.pageEntry_mul] at hmaps
    rw [heq]
    have hfree : n ∈ m.pages.frames := hh.free n (mem_run.mpr (by omega))
    have hbacks := (Backs.refl h).add ht (Function.update m.ram n fun i =>
      trampolineBytes.getD i (m.ram n i)) hh hmaps
    rw [insert_empty_eq] at hbacks
    rw [Nat.mul_div_cancel _ (show 0 < pageSize by decide)]
    refine ⟨hbacks.isolated, hbacks.touches, fun i => ?_, fun k i hk => ?_, fun phys hphys => ?_⟩
    · show i ∈ pages.frames ∨ some (n * pageSize) = some (i * pageSize) ↔ _
      rw [hh.frames, Set.mem_sdiff, mem_run, Option.some.injEq, Nat.mul_left_inj (by decide)]
      constructor
      · rintro (hi | rfl)
        · exact hi.1
        · exact hfree
      · intro hi
        by_cases heq : n = i
        · exact .inr heq
        · exact .inl ⟨hi, by omega⟩
    · by_cases hkey : k = .page t (pageIdx signalTrampolineVa)
      · subst hkey
        obtain ⟨⟨e, he, rfl⟩, -⟩ := hk
        rw [show Mmu.user _ t _ = _ from hmaps.user ht (isUser_protToL2Flags n _) t _,
          if_pos ⟨rfl, rfl⟩] at he
        cases he
        exact .inr hfree
      · exact .inl ((hbacks.touches.holds fun _ hk' hc => hkey (hk' ▸ hc)).mp hk)
    · cases hphys
      refine ⟨n, rfl, hfree, ?_⟩
      show n ∉ pages.frames
      rw [hh.frames]
      exact fun hc => hc.2 (mem_run.mpr (by omega))

theorem Touches.none_holds (htouch : Touches t S m m') (hnone : ∀ k, ¬m.Holds k n) (k : Holder) :
    ¬{ m' with mmu := m'.mmu.freeAddrSpace t }.Holds k n := by
  intro hk
  obtain ⟨hold, hne⟩ := freeAddrSpace_holds.mp hk
  exact hnone k ((htouch.holds fun k' _ => hne k').mp hold)

theorem SpaceOk.fresh (hlive : m.mmu.spaceAlloc s.table = true)
    (hbreak : s.heapBreak = defaultHeapBreak) (hmappings : s.mappings = .empty)
    (hbase : s.stackBase = n * pageSize) (hframes : ∀ i ∈ run n s.stackPages, UsableFrame i)
    (hstack : ∀ k ∈ region s.stackBase 0 s.stackPages, (m.mmu.user s.table k).isSome) :
    SpaceOk m s where
  live := hlive
  breakAligned := by
    rw [hbreak]
    decide
  heap va _ hlo hhi := by
    rw [hbreak] at hhi
    exact absurd hlo (not_le_of_gt hhi)
  mapping i v hv := by
    rw [hmappings] at hv
    cases hv
  stackAligned := by rw [hbase, Nat.mul_mod_left]
  stackFrames j hj := by
    rw [hbase, Nat.mul_div_cancel _ (by decide)]
    exact hframes _ (add_mem_run hj)
  stack := hstack

def Apart (loaded : LoadedElf) (ns k : Nat) : Prop :=
  ∀ i ∈ run ns k, ∀ j, loaded.imagePhys = j * pageSize → i ∉ run j loaded.imagePages

theorem Isolated.fill (h : Isolated X m) (ht : m.mmu.spaceAlloc t = true)
    (hplaced : Placed m loaded) {ns k : Nat} (hspare : Spare m ns k)
    (hapart : Apart loaded ns k) :
    Assigns X t (alignedPages loaded loaded.segments) (alignedPages loaded loaded.segments) m
        (m.mmu.mapUserImage t loaded) ∧
      Assigns X t (stackList (ns * pageSize) k) (stackList (ns * pageSize) k)
        { m with mmu := (m.mmu.mapUserImage t loaded).2 }
        ((m.mmu.mapUserImage t loaded).2.mapUserStack t (ns * pageSize) k) := by
  have himage := mapSegments_spec loaded.segments (hplaced.assignable t) h ht fun _ hseg => hseg
  refine ⟨himage, ?_⟩
  obtain ⟨n, hphys, -⟩ := hplaced.frames
  have hspare' : Spare { m with mmu := (m.mmu.mapUserImage t loaded).2 } ns k := by
    intro i hi
    refine ⟨(hspare i hi).1, himage.none_holds (hspare i hi).2 fun q hq hc => ?_⟩
    obtain ⟨-, -, -, -, hq2, hlt⟩ := hplaced.page hq
    refine hapart i hi n hphys ?_
    rw [← hc, hq2, hphys, Nat.mul_div_cancel _ (by decide)]
    exact add_mem_run hlt
  exact mapPages_spec (stack_assignable t hspare') himage.isolated
    (himage.touches.live ht) _ _ fun _ hq => hq

theorem Isolated.mapUserPages (h : Isolated X m) (ht : m.mmu.spaceAlloc t = true)
    (hplaced : Placed m loaded) {ns : Nat} (hspare : Spare m ns stackPageCount)
    (hapart : Apart loaded ns stackPageCount) (tramp : Option Nat) :
    Isolated X { m with mmu := (m.mmu.mapUserPages t tramp loaded (ns * pageSize)).2 } ∧
      Touches t Set.univ m
        { m with mmu := (m.mmu.mapUserPages t tramp loaded (ns * pageSize)).2 } ∧
      ((m.mmu.mapUserPages t tramp loaded (ns * pageSize)).1 = true →
        ∀ k ∈ region (ns * pageSize) 0 stackPageCount,
          ((m.mmu.mapUserPages t tramp loaded (ns * pageSize)).2.user t k).isSome) := by
  obtain ⟨himage, hstack⟩ := h.fill ht hplaced hspare hapart
  unfold Mmu.mapUserPages
  cases tramp with
  | none => exact ⟨h, .refl, fun hc => by cases hc⟩
  | some phys =>
    cases hres : m.mmu.mapUserImage t loaded with
    | mk ok mmu =>
      rw [hres] at himage hstack
      cases ok with
      | false => exact ⟨himage.isolated, himage.touches, fun hc => by cases hc⟩
      | true =>
        exact ⟨hstack.isolated, himage.touches.trans hstack.touches, hstack.stack_isSome⟩

theorem giveUp_with (m : Memory) (tramp : Option Nat) (loaded : LoadedElf) (stackBase : Nat)
    (mmu : Mmu) : { m with mmu }.giveUp tramp loaded stackBase =
      { m.giveUp tramp loaded stackBase with mmu } := by
  have h1 : tramp.elim { m with mmu } { m with mmu }.freePage =
      { tramp.elim m m.freePage with mmu } := by
    cases tramp with
    | none => rfl
    | some phys =>
      exact (freePage_with m phys mmu m.spaces).trans
        (by rw [← (freePage_inert m phys).spaces]; rfl)
  rw [giveUp, h1, freeUnspawnedImage_with, freeContiguous_with]
  rfl

theorem Isolated.giveUp (h : Isolated X m) {tramp : Option Nat} {n ns : Nat}
    (htramp : ∀ phys, tramp = some phys →
      ∃ nt, phys = nt * pageSize ∧ UsableFrame nt ∧ ∀ k, ¬m.Holds k nt)
    (hphys : loaded.imagePhys = n * pageSize) (himage : Spare m n loaded.imagePages)
    (hstack : Spare m ns stackPageCount) (hapart : ∀ i ∈ run ns stackPageCount,
      i ∉ run n loaded.imagePages)
    (hother : ∀ i, tramp = some (i * pageSize) → i ∉ run n loaded.imagePages ∧
      i ∉ run ns stackPageCount) :
    Frees X ({i | tramp = some (i * pageSize)} ∪ run n loaded.imagePages ∪ run ns stackPageCount) m
      (m.giveUp tramp loaded (ns * pageSize)) := by
  have hfirst : Frees X {i | tramp = some (i * pageSize)} m (tramp.elim m m.freePage) := by
    cases tramp with
    | none => exact ⟨h, ⟨rfl, rfl, rfl⟩, fun _ => (or_iff_left nofun).symm⟩
    | some phys =>
      obtain ⟨nt, rfl, husable, hnone⟩ := htramp phys rfl
      have hset : {i | some (nt * pageSize) = some (i * pageSize)} =
          {i | i = nt ∧ firstFrame ≤ i} := by
        ext i
        have hram := husable.ram.1
        simp only [Option.some.injEq, Nat.mul_left_inj (show pageSize ≠ 0 by decide),
          Set.mem_ofPred_eq]
        omega
      rw [hset]
      exact h.frees fun _ => ⟨husable, hnone⟩
  have hsecond := hfirst.trans (hfirst.isolated.freeUnspawnedImage hphys
    (hfirst.spare himage fun i hi hc => (hother i hc).1 hi))
  refine hsecond.trans (hsecond.isolated.freeContiguous (hsecond.spare hstack fun i hi hc => ?_))
  rcases hc with hc | hc
  · exact (hother i hc).2 hi
  · exact hapart i hi hc

/-- What a failed `spawn_user` leaves: free frames, and tables and processes as before. -/
structure Unspawned (m : Memory) (n k : Nat) (m' : Memory) : Prop where
  sound : Sound m'
  frames : m'.pages.frames = m.pages.frames ∪ run n k
  spaceAlloc : m'.mmu.spaceAlloc = m.mmu.spaceAlloc
  l2Alloc : m'.mmu.l2Alloc = m.mmu.l2Alloc
  spaces : m'.spaces = m.spaces

theorem Sound.frees (h : Sound m) {N : Set Nat} (hf : Frees noneRevoked N m m') : Sound m' :=
  h.sameMmu hf.isolated hf.inert.mmu hf.inert.spaces

theorem Sound.unspawned (h : Sound m) {k : Nat} (hfrees : Frees noneRevoked (run n k) m m') :
    Unspawned m n k m' :=
  ⟨h.frees hfrees, Set.ext hfrees.frames, by rw [hfrees.inert.mmu], by rw [hfrees.inert.mmu],
    hfrees.inert.spaces⟩

theorem Sound.unspawnedTable (h : Sound m) {k : Nat} {m₀ m₁ : Memory} {N : Set Nat}
    (htouch : Touches t S m₀ m₁) (hnew : m.mmu.newAddrSpace = some (t, m₀.mmu))
    (hspaces : m₀.spaces = m.spaces) (hsound : Sound { m₁ with mmu := m₁.mmu.freeAddrSpace t })
    (hfrees : Frees noneRevoked N { m₁ with mmu := m₁.mmu.freeAddrSpace t } m')
    (hframes : ∀ i, i ∈ m₁.pages.frames ∨ i ∈ N ↔ i ∈ m.pages.frames ∨ i ∈ run n k) :
    Unspawned m n k m' := by
  obtain ⟨halloc, htables⟩ := htouch.undone hnew
  refine ⟨hsound.frees hfrees, Set.ext fun i => (hfrees.frames i).trans (hframes i), ?_, ?_,
    hfrees.inert.spaces.trans (htouch.spaces.trans hspaces)⟩
  · rw [hfrees.inert.mmu]
    exact halloc
  · rw [hfrees.inert.mmu]
    exact l2Alloc_eq h.isolated.owned hsound.isolated.owned halloc htables

inductive SpawnStep (m : Memory) (loaded : LoadedElf) : Bool × Memory → Prop where
  | failed {m' : Memory} {n : Nat} : loaded.imagePhys = n * pageSize →
    Unspawned m n loaded.imagePages m' → SpawnStep m loaded (false, m')
  | spawned {m' : Memory} : Sound m' → SpawnStep m loaded (true, m')

theorem SpawnStep.sound {res : Bool × Memory} (h : SpawnStep m loaded res) : Sound res.2 := by
  cases h with
  | failed _ hun => exact hun.sound
  | spawned hsound => exact hsound

theorem Sound.spawnUser (h : Sound m) (hplaced : Placed m loaded) (child : Option Pid) :
    SpawnStep m loaded (m.spawnUser child loaded) := by
  obtain ⟨n, hphys, hframes⟩ := hplaced.frames
  have hfail : SpawnStep m loaded (false, m.freeUnspawnedImage loaded) :=
    .failed hphys (h.unspawned (h.isolated.freeUnspawnedImage hphys hframes))
  unfold Memory.spawnUser
  cases child with
  | none => exact hfail
  | some child =>
    cases hnew : m.mmu.newAddrSpace with
    | none => exact hfail
    | some found =>
      obtain ⟨t, mmu⟩ := found
      obtain ⟨hsound, ht, hunused⟩ := h.newAddrSpace hnew
      have huser := Mmu.newAddrSpace_user h.isolated.kernelTables hnew
      have hholds : ∀ k i, { m with mmu }.Holds k i → m.Holds k i := by
        intro k i hk
        cases k with
        | grant g => exact hk
        | page t' s' =>
          obtain ⟨⟨e, he, hpage⟩, hram⟩ := hk
          exact ⟨⟨e, (huser t' s').symm.trans he, hpage⟩, hram⟩
      rcases hsound.isolated.managed.allocContiguous (k := stackPageCount) (by decide)
        with hnone | ⟨ns, pages, hpair, hh⟩
      · rw [show m.pages.allocContiguous stackPageCount = _ from hnone]
        have htouch : Touches t ∅ { m with mmu } { m with mmu } := .refl
        have hfreed := hsound.freeTable ht hunused
        have himage := hfreed.isolated.freeUnspawnedImage hphys fun i hi =>
          ⟨⟨(hframes i hi).1.1, (hframes i hi).1.2⟩,
            htouch.none_holds fun k hk => (hframes i hi).2 k (hholds k i hk)⟩
        rw [freeUnspawnedImage_with m] at himage
        dsimp only
        rw [freeUnspawnedImage_with m]
        exact .failed hphys (h.unspawnedTable htouch hnew rfl hfreed himage fun _ => Iff.rfl)
      · rw [show m.pages.allocContiguous stackPageCount = _ from hpair]
        have hsound₂ : Sound { m with mmu, pages } := hsound.take hh
        have hstack : Spare { m with mmu, pages } ns stackPageCount := hsound.isolated.spare hh
        have himage : Spare { m with mmu, pages } n loaded.imagePages := fun i hi =>
          ⟨⟨(hframes i hi).1.1, fun hc => (hframes i hi).1.2 (by rw [hh.frames] at hc; exact hc.1)⟩,
            fun k hk => (hframes i hi).2 k (hholds k i hk)⟩
        dsimp only
        obtain ⟨htiso, httouch, htfree, htholds, htramp⟩ :=
          hsound₂.isolated.mapSignalTrampoline (t := t) ht
        have hspare : ∀ a k, Spare { m with mmu, pages } a k →
            Spare ({ m with mmu, pages }.mapSignalTrampoline t).2 a k := fun a k ha i hi =>
          ⟨⟨(ha i hi).1.1, fun hc => (ha i hi).1.2 ((htfree i).mp (.inl hc))⟩, fun key hk =>
            (htholds key i hk).elim ((ha i hi).2 key) (ha i hi).1.2⟩
        have hstack₃ := hspare _ _ hstack
        have himage₃ := hspare _ _ himage
        generalize { m with mmu, pages }.mapSignalTrampoline t = tr at *
        obtain ⟨tramp, m₃⟩ := tr
        have hlive₃ : m₃.mmu.spaceAlloc t = true := httouch.live ht
        have hplaced₃ : Placed m₃ loaded := ⟨⟨n, hphys, himage₃⟩, hplaced.placed, hplaced.span⟩
        have hapart : Apart loaded ns stackPageCount := by
          intro i hi j hj hc
          cases Nat.eq_of_mul_eq_mul_right (by decide) (hphys.symm.trans hj)
          exact (hframes i hc).1.2 (hh.free i hi)
        have hinner := htiso.mapUserPages hlive₃ hplaced₃ hstack₃ hapart tramp
        cases hres : m₃.mmu.mapUserPages t tramp loaded (ns * pageSize) with
        | mk ok mmu₄ =>
        rw [hres] at hinner
        obtain ⟨hiso, hfill, huserStack⟩ := hinner
        -- whatever was mapped, it was mapped in the new address space
        have htouch := httouch.univ.trans hfill
        cases ok with
        | true =>
          exact .spawned (hsound₂.addSpace hiso htouch hunused (.fresh (htouch.live ht) rfl rfl rfl
            (fun i hi => (hstack i hi).1.1) (huserStack rfl)) rfl)
        | false =>
          have hsound₄ : Sound { m₃ with mmu := mmu₄ } := hsound₂.unusedTable hiso htouch hunused
          have hfreed : Sound { m₃ with mmu := mmu₄.freeAddrSpace t } := by
            refine hsound₄.freeTable (htouch.live ht) fun q u hu =>
              hunused q u ?_
            rwa [show m₃.spaces = m.spaces from htouch.spaces] at hu
          have hgone : ∀ a k, Spare { m with mmu, pages } a k → Spare m₃ a k →
              Spare { m₃ with mmu := mmu₄.freeAddrSpace t } a k := fun a k ha ha₃ i hi =>
            ⟨⟨(ha₃ i hi).1.1, (ha₃ i hi).1.2⟩, htouch.none_holds (ha i hi).2⟩
          have hloose : ∀ phys, tramp = some phys → ∃ nt, phys = nt * pageSize ∧ UsableFrame nt ∧
              ∀ k, ¬{ m₃ with mmu := mmu₄.freeAddrSpace t }.Holds k nt := by
            rintro phys rfl
            obtain ⟨nt, rfl, hnt, -⟩ := htramp phys rfl
            exact ⟨nt, rfl, hsound₂.isolated.managed.usable nt hnt,
              htouch.none_holds (hsound₂.isolated.not_holds hnt)⟩
          have hother : ∀ i, tramp = some (i * pageSize) → i ∉ run n loaded.imagePages ∧
              i ∉ run ns stackPageCount := by
            intro i hi
            have hfree := (htfree i).mp (.inr hi)
            exact ⟨fun hc => (himage i hc).1.2 hfree, fun hc => (hstack i hc).1.2 hfree⟩
          have hgiven := hfreed.isolated.giveUp hloose hphys (hgone _ _ himage himage₃)
            (hgone _ _ hstack hstack₃) (fun i hi => hapart i hi n hphys) hother
          rw [giveUp_with m₃] at hgiven
          dsimp only
          rw [giveUp_with m₃]
          refine .failed hphys (h.unspawnedTable htouch hnew rfl hfreed hgiven fun i => ?_)
          have hall : i ∈ m₃.pages.frames ∨ tramp = some (i * pageSize) ↔
              i ∈ m.pages.frames ∧ i ∉ run ns stackPageCount := by
            rw [← Set.mem_sdiff, ← hh.frames]
            exact htfree i
          have hin : i ∈ run ns stackPageCount → i ∈ m.pages.frames := hh.free i
          show i ∈ m₃.pages.frames ∨ (tramp = some (i * pageSize) ∨ _) ∨ _ ↔ _
          tauto

theorem Sound.spawn (h : Sound m) (child : Option Pid) (data : List UInt8) :
    Sound (m.spawn child data) := by
  unfold Memory.spawn
  cases hload : m.loadConfined none data with
  | halted => exact h
  | refused => exact h
  | loaded elf m' =>
    obtain ⟨pages, ram, n, rfl, -, hh, hplaced⟩ := h.isolated.loadConfined hload
    have hloaded : Sound { m with pages, ram } :=
      h.sameMmu ((h.isolated.take hh).withRam ram) rfl rfl
    exact (hloaded.spawnUser hplaced child).sound

end Memory

end Thumos
