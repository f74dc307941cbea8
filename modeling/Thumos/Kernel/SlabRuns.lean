import Thumos.Lib.GuardedRun
import Thumos.Kernel.Slab
import Thumos.Kernel.PageRuns

/-!
# Runs of the slab allocator

Allocations and deallocations in any order, with the owners of the live
allocations writing to their bytes in between.  The free lists lie in the same
memory, so the bytes that are handed out must stay apart from the free objects
for the lists to survive.

The extents of all free objects and of all live allocations are one list,
`blocks`.  A block changes sides by a permutation of that list, a refill or a
large request adds extents in pages that were free, and a large deallocation
removes one.
-/

namespace Thumos

open FreeList Pages GuardedRun Function List

/-- The allocator with the live allocations: the pointers that were returned
and not yet passed to `dealloc`, with their layouts. -/
structure SlabRun where
  slab : SlabAllocator
  arena : Arena
  live : List (Nat × Layout)

inductive SlabEvent where
  | alloc (l : Layout)
  | dealloc (ptr : Nat) (l : Layout)
  | write (addr : Nat) (byte : UInt8)

deriving instance DecidableEq for Layout

namespace SlabRun

def step (s : SlabRun) : SlabEvent → SlabRun
  | .alloc l =>
    let res := s.slab.allocInner s.arena l
    ⟨res.2.1, res.2.2, if res.1 = 0 then s.live else (res.1, l) :: s.live⟩
  | .dealloc ptr l =>
    let res := s.slab.deallocInner s.arena ptr l
    ⟨res.1, res.2, s.live.erase (ptr, l)⟩
  | .write addr byte =>
    { s with arena := { s.arena with mem := Function.update s.arena.mem addr byte } }

def requested (x : Nat × Layout) : Extent := ⟨x.1, x.2.size⟩

def ofClass (c : Fin 7) (x : Nat × Layout) : Bool := classFor x.2.charged = some c

/-- What callers owe the allocator: a deallocation passes a live pointer with
its own layout, and an owner writes within its allocation. -/
def Honest (s : SlabRun) : SlabEvent → Prop
  | .alloc _ => True
  | .dealloc ptr l => (ptr, l) ∈ s.live
  | .write addr _ => ∃ x ∈ s.live, addr ∈ (requested x).bytes

/-- Honest events that ask for no more than page alignment. -/
def PageAligned (s : SlabRun) (e : SlabEvent) : Prop :=
  s.Honest e ∧ ∀ l, e = .alloc l → l.align ≤ pageSize

structure Sound (s : SlabRun) : Prop where
  aligned : ∀ x ∈ s.live, x.1 ≠ 0 ∧ x.2.align ∣ x.1
  disjoint : s.live.Pairwise fun x y => Disjoint (requested x).bytes (requested y).bytes
  free_nodes : ∀ c, ∃ nodes, Chain s.arena.mem (s.slab.classes c).freeList nodes ∧
    ∀ a ∈ nodes, ∀ x ∈ s.live,
      Disjoint (requested x).bytes (Extent.mk a (slabSize c)).bytes
  counts : ∀ c, ((s.slab.classes c).allocCount - (s.slab.classes c).freeCount).toNat =
    s.live.countP (ofClass c)

/-! ## Extents in allocated pages -/

structure Held (p : Pages) (e : Extent) : Prop where
  pos : 0 < e.size
  base_le : p.firstPage ≤ e.base
  end_le : e.base + e.size ≤ usizeSize
  pages : ∀ a, e.base ≤ a → a < e.base + e.size →
    (a - p.firstPage) / pageSize < maxPages ∧ (a - p.firstPage) / pageSize ∉ p.free

def pageRun (p : Pages) (start n : Nat) : Extent :=
  ⟨p.firstPage + start * pageSize, n * pageSize⟩

def Room (p : Pages) : Prop := ∀ n ∈ p.free, p.firstPage + (n + 1) * pageSize ≤ usizeSize

variable {p p' : Pages} {e : Extent} {start n : Nat} {ns : List Nat}

theorem page_mem_run {a : Nat} (hle : (pageRun p start n).base ≤ a)
    (hlt : a < (pageRun p start n).base + (pageRun p start n).size) :
    (a - p.firstPage) / pageSize ∈ rangeFrom start (start + n) := by
  rw [mem_rangeFrom]
  simp only [pageRun, pageSize] at *
  omega

theorem Held.takes (h : Held p e) (ht : Takes p p' ns) : Held p' e := by
  refine ⟨h.pos, ht.firstPage ▸ h.base_le, h.end_le, fun a hle hlt => ?_⟩
  rw [ht.firstPage, ht.free]
  have hpage := h.pages a hle hlt
  exact ⟨hpage.1, fun hmem => hpage.2 (Finset.mem_sdiff.mp hmem).1⟩

theorem Held.apart (h : Held p e) (hn : 0 < n)
    (hfree : ∀ m ∈ rangeFrom start (start + n), m ∈ p.free) : e.Apart (pageRun p start n) := by
  by_contra hover
  have hpos := h.pos
  have hsize : 0 < (pageRun p start n).size := mul_pos hn (by decide)
  -- the larger of the two bases lies in both extents
  have hboth : e.base ≤ max e.base (pageRun p start n).base ∧
      max e.base (pageRun p start n).base < e.base + e.size ∧
      (pageRun p start n).base ≤ max e.base (pageRun p start n).base ∧
      max e.base (pageRun p start n).base <
        (pageRun p start n).base + (pageRun p start n).size := by
    unfold Extent.Apart at hover
    omega
  exact (h.pages _ hboth.1 hboth.2.1).2 (hfree _ (page_mem_run hboth.2.2.1 hboth.2.2.2))

theorem Room.takes (h : Room p) (ht : Takes p p' ns) : Room p' := by
  intro m hm
  rw [ht.free] at hm
  rw [ht.firstPage]
  exact h m (Finset.mem_sdiff.mp hm).1

theorem Room.run_end (h : Room p) (hn : 0 < n)
    (hfree : ∀ m ∈ rangeFrom start (start + n), m ∈ p.free) :
    (pageRun p start n).base + (pageRun p start n).size ≤ usizeSize := by
  have hlast := h (start + n - 1) (hfree _ (mem_rangeFrom.mpr (by omega)))
  simp only [pageRun, pageSize] at *
  omega

theorem Room.frame_eq (h : Room p) (hstart : start ∈ p.free) :
    p.frame start = p.firstPage + start * pageSize := by
  have hend := h start hstart
  rw [frame, Nat.mod_eq_of_lt]
  simp only [pageSize, usizeSize] at *
  omega

theorem held_of_takes (hroom : Room p) (hn : 0 < n)
    (ht : Takes p p' (rangeFrom start (start + n))) (hpos : 0 < e.size)
    (hin : e.Within (pageRun p start n)) : Held p' e := by
  have hend := hroom.run_end hn ht.clear
  unfold Extent.Within at hin
  refine ⟨hpos, ?_, by omega, fun a hle hlt => ?_⟩
  · rw [ht.firstPage]
    have hbase := hin.1
    simp only [pageRun] at hbase
    omega
  · rw [ht.firstPage, ht.free]
    have hmem : (a - p.firstPage) / pageSize ∈ rangeFrom start (start + n) :=
      page_mem_run (by omega) (by omega)
    exact ⟨free_lt (ht.clear _ hmem),
      fun hc => (Finset.mem_sdiff.mp hc).2 (mem_toFinset.mpr hmem)⟩

theorem Held.gives (h : Held p e) (hg : Gives p p' (rangeFrom start (start + n)))
    (hapart : e.Apart (pageRun p start n)) : Held p' e := by
  refine ⟨h.pos, hg.firstPage ▸ h.base_le, h.end_le, fun a hle hlt => ?_⟩
  rw [hg.firstPage, hg.free]
  have hpage := h.pages a hle hlt
  refine ⟨hpage.1, fun hc => ?_⟩
  rcases Finset.mem_union.mp hc with hc | hc
  · exact hpage.2 hc
  have hrun := mem_rangeFrom.mp (mem_toFinset.mp hc)
  have hbase := h.base_le
  unfold Extent.Apart at hapart
  simp only [pageRun, pageSize] at *
  omega

theorem Room.gives (h : Room p) (hg : Gives p p' (rangeFrom start (start + n)))
    (hend : (pageRun p start n).base + (pageRun p start n).size ≤ usizeSize) : Room p' := by
  intro m hm
  rw [hg.free] at hm
  rw [hg.firstPage]
  rcases Finset.mem_union.mp hm with hm | hm
  · exact h m hm
  · have hrun := mem_rangeFrom.mp (mem_toFinset.mp hm)
    simp only [pageRun, pageSize] at *
    omega

/-! ## The blocks of the heap -/

def node (c : Fin 7) (a : Nat) : Extent := ⟨a, slabSize c⟩

def cell (x : Nat × Layout) : Extent := ⟨x.1, x.2.reserved⟩

def nodes (frees : Fin 7 → List Nat) : List Extent :=
  (List.finRange 7).flatMap fun c => (frees c).map (node c)

def otherNodes (frees : Fin 7 → List Nat) (c : Fin 7) : List Extent :=
  ((List.finRange 7).erase c).flatMap fun d => (frees d).map (node d)

def blocks (frees : Fin 7 → List Nat) (live : List (Nat × Layout)) : List Extent :=
  nodes frees ++ live.map cell

variable {frees : Fin 7 → List Nat} {live : List (Nat × Layout)} {c : Fin 7} {x : Nat × Layout}

theorem nodes_perm (frees : Fin 7 → List Nat) (c : Fin 7) :
    (nodes frees).Perm ((frees c).map (node c) ++ otherNodes frees c) :=
  (perm_cons_erase (mem_finRange c)).flatMap_right _

theorem otherNodes_update (xs : List Nat) :
    otherNodes (update frees c xs) c = otherNodes frees c := by
  refine flatMap_congr fun d hd => ?_
  have hne : d ≠ c := ((nodup_finRange 7).mem_erase_iff.mp hd).1
  rw [update_of_ne hne]

theorem blocks_update_perm (xs : List Nat) : (blocks (update frees c xs) live).Perm
      (xs.map (node c) ++ (otherNodes frees c ++ live.map cell)) := by
  have hperm := nodes_perm (update frees c xs) c
  rw [update_self, otherNodes_update] at hperm
  rw [← append_assoc]
  exact hperm.append_right _

theorem blocks_perm (c : Fin 7) :
    (blocks frees live).Perm ((frees c).map (node c) ++ (otherNodes frees c ++ live.map cell)) := by
  rw [← append_assoc]
  exact (nodes_perm frees c).append_right _

theorem mem_blocks_node {a : Nat} (h : a ∈ frees c) : node c a ∈ blocks frees live :=
  mem_append_left _ (mem_flatMap.mpr ⟨c, mem_finRange c, mem_map_of_mem h⟩)

theorem mem_blocks_cell (h : x ∈ live) : cell x ∈ blocks frees live :=
  mem_append_right _ (mem_map_of_mem h)

structure Placed (p : Pages) (es : List Extent) : Prop where
  apart : es.Pairwise Extent.Apart
  held : ∀ e ∈ es, Held p e

theorem Placed.perm {es fs : List Extent} (h : Placed p es) (hperm : es.Perm fs) : Placed p fs :=
  ⟨(hperm.pairwise_iff Extent.Apart.symm).mp h.apart, fun e he => h.held e (hperm.mem_iff.mpr he)⟩

theorem Placed.add {es fs : List Extent} (h : Placed p es) (hroom : Room p) (hn : 0 < n)
    (ht : Takes p p' (rangeFrom start (start + n))) (hfs : fs.Pairwise Extent.Apart)
    (hin : ∀ f ∈ fs, 0 < f.size ∧ f.Within (pageRun p start n)) : Placed p' (fs ++ es) := by
  constructor
  · rw [pairwise_append]
    refine ⟨hfs, h.apart, fun f hf e he => ?_⟩
    have hrun := (h.held e he).apart hn ht.clear
    exact (hrun.mono .rfl (hin f hf).2).symm
  · intro e he
    rcases mem_append.mp he with he | he
    · exact held_of_takes hroom hn ht (hin e he).1 (hin e he).2
    · exact (h.held e he).takes ht

theorem Placed.remove {es : List Extent} (h : Placed p (pageRun p start n :: es))
    (hg : Gives p p' (rangeFrom start (start + n))) : Placed p' es := by
  have hapart := pairwise_cons.mp h.apart
  exact ⟨hapart.2, fun e he =>
    (h.held e (mem_cons_of_mem _ he)).gives hg (hapart.1 e he).symm⟩

/-! ## Carving a page -/

def carved (page objSize k : Nat) : List Nat := (List.range k).map fun i => page + i * objSize

theorem link_spec {page sz k head : Nat} {mem : FreeList.Memory} {as : List Nat}
    (hpage : 0 < page) (hsz : 4 ≤ sz) (hend : page + k * sz ≤ usizeSize)
    (hchain : Chain mem head as) (hapart : ∀ a ∈ as, Extent.Apart ⟨a, 4⟩ ⟨page, k * sz⟩) :
    let st := (range k).reverse.foldl (SlabClass.link page sz) (mem, head)
    Chain st.1 st.2 (carved page sz k ++ as) ∧
      ∀ e : Extent, e.Apart ⟨page, k * sz⟩ → Agree mem st.1 e := by
  induction k generalizing head mem as with
  | zero => exact ⟨hchain, fun e _ a _ _ => rfl⟩
  | succ k ih =>
    have hmul : (k + 1) * sz = k * sz + sz := Nat.succ_mul k sz
    rw [hmul] at hend hapart ⊢
    have hobj : page + k * sz < 2 ^ 32 := by
      simp only [usizeSize] at hend
      omega
    have hpush : Chain (storeWord mem (page + k * sz) head) (page + k * sz)
        ((page + k * sz) :: as) := by
      refine hchain.push (by omega) hobj fun b hb => ?_
      exact (hapart b hb).mono .rfl
        ⟨Nat.le_add_right _ _, by dsimp only; omega⟩
    obtain ⟨hloop, hagree⟩ := ih (by omega) hpush (by
      intro a ha
      rcases mem_cons.mp ha with rfl | ha
      · exact .inr le_rfl
      · exact (hapart a ha).mono .rfl
          ⟨le_rfl, by dsimp only; omega⟩)
    have hcarved : carved page sz (k + 1) ++ as = carved page sz k ++ ((page + k * sz) :: as) := by
      simp only [carved, range_succ, map_append, map_cons, map_nil,
        append_assoc, cons_append, nil_append]
    rw [range_succ, reverse_append, hcarved]
    refine ⟨hloop, fun e he => ?_⟩
    have hfirst : Agree mem (storeWord mem (page + k * sz) head) e :=
      agree_storeWord mem (he.mono .rfl
        ⟨Nat.le_add_right _ _, by dsimp only; omega⟩)
    exact hfirst.trans (hagree e (he.mono .rfl
      ⟨le_rfl, by dsimp only; omega⟩))

theorem carved_apart (page k : Nat) (c : Fin 7) :
    ((carved page (slabSize c) k).map (node c)).Pairwise Extent.Apart := by
  rw [carved, map_map, pairwise_map]
  refine (pairwise_lt_range (n := k)).imp fun {i j} hij => .inl ?_
  have hmul := Nat.mul_le_mul_right (slabSize c) (Nat.succ_le_of_lt hij)
  rw [Nat.succ_mul] at hmul
  simp only [comp_apply, node]
  omega

theorem carved_within {page a : Nat} {c : Fin 7}
    (h : a ∈ carved page (slabSize c) (pageSize / slabSize c)) :
    page ≤ a ∧ a + slabSize c ≤ page + pageSize ∧ (slabSize c ∣ page → slabSize c ∣ a) := by
  obtain ⟨i, hi, rfl⟩ := mem_map.mp h
  have hmul := Nat.mul_le_mul_right (slabSize c) (Nat.succ_le_of_lt (mem_range.mp hi))
  rw [Nat.succ_mul, Nat.div_mul_cancel (slabSize_spec c).2.1] at hmul
  exact ⟨Nat.le_add_right _ _, by omega, fun hdvd => Nat.dvd_add hdvd (Nat.dvd_mul_left _ _)⟩

/-! ## The invariant -/

/-- The free lists hold `frees`, all blocks are placed and aligned, and the
counters of every class differ by its live objects. -/
structure Inv (s : SlabRun) (frees : Fin 7 → List Nat) : Prop where
  initialized : s.slab.initialized = true
  objSize : ∀ c, (s.slab.classes c).objSize = slabSize c
  base_pos : 0 < s.arena.pages.firstPage
  base_aligned : pageSize ∣ s.arena.pages.firstPage
  room : Room s.arena.pages
  chain : ∀ c, Chain s.arena.mem (s.slab.classes c).freeList (frees c)
  placed : Placed s.arena.pages (blocks frees s.live)
  node_aligned : ∀ c, ∀ a ∈ frees c, slabSize c ∣ a
  object_aligned : ∀ x ∈ s.live, ∀ c, classFor x.2.charged = some c → slabSize c ∣ x.1
  live_aligned : ∀ x ∈ s.live, x.2.align ∣ x.1
  counts : ∀ c, (s.slab.classes c).allocCount =
    (s.slab.classes c).freeCount + UInt64.ofNat (s.live.countP (ofClass c))

variable {s : SlabRun} {l : Layout}

theorem Inv.dvd_pageRun (h : s.Inv frees) (start n : Nat) :
    pageSize ∣ (pageRun s.arena.pages start n).base :=
  Nat.dvd_add h.base_aligned (dvd_mul_left _ _)

theorem ofClass_iff : ofClass c x = true ↔ classFor x.2.charged = some c := decide_eq_true_iff

theorem cell_of_class (h : classFor x.2.charged = some c) : cell x = node c x.1 := by
  rw [cell, node, Layout.reserved, h]

theorem cell_of_large (h : classFor x.2.charged = none) :
    cell x = ⟨x.1, x.2.pageCount * pageSize⟩ := by
  rw [cell, Layout.reserved, h]

theorem countP_cons_ofClass (d : Fin 7) (h : classFor l.charged = some c) (a : Nat) :
    ((a, l) :: live).countP (ofClass d) = live.countP (ofClass d) + if d = c then 1 else 0 := by
  rw [countP_cons]
  by_cases hd : d = c
  · rw [if_pos (ofClass_iff.mpr (hd ▸ h)), if_pos hd]
  · have hother : ¬ofClass d (a, l) = true := fun hc =>
      hd (Option.some.inj ((ofClass_iff.mp hc).symm.trans h))
    rw [if_neg hother, if_neg hd]

theorem countP_cons_large (d : Fin 7) (h : classFor l.charged = none) (a : Nat) :
    ((a, l) :: live).countP (ofClass d) = live.countP (ofClass d) := by
  have hother : ¬ofClass d (a, l) = true := fun hc => by
    have hsome := ofClass_iff.mp hc
    rw [h] at hsome
    cases hsome
  exact countP_cons_of_neg hother

theorem Inv.setClass (h : s.Inv frees) {cls : SlabClass} {arena : Arena} {xs : List Nat}
    {live : List (Nat × Layout)} (hobj : cls.objSize = slabSize c)
    (hfirst : arena.pages.firstPage = s.arena.pages.firstPage) (hroom : Room arena.pages)
    (hchain : Chain arena.mem cls.freeList xs)
    (hagree : ∀ d, d ≠ c → ∀ a ∈ frees d, Agree s.arena.mem arena.mem ⟨a, 4⟩)
    (hplaced : Placed arena.pages (blocks (update frees c xs) live))
    (hnodes : ∀ a ∈ xs, slabSize c ∣ a)
    (hobjects : ∀ x ∈ live, ∀ d, classFor x.2.charged = some d → slabSize d ∣ x.1)
    (hlive : ∀ x ∈ live, x.2.align ∣ x.1)
    (hcount : cls.allocCount = cls.freeCount + UInt64.ofNat (live.countP (ofClass c)))
    (hcounts : ∀ d, d ≠ c → live.countP (ofClass d) = s.live.countP (ofClass d)) :
    Inv ⟨s.slab.setClass c cls, arena, live⟩ (update frees c xs) := by
  have hself : (s.slab.setClass c cls).classes c = cls := update_self ..
  have hother : ∀ d, d ≠ c → (s.slab.setClass c cls).classes d = s.slab.classes d :=
    fun d hd => update_of_ne hd ..
  refine ⟨h.initialized, ?_, hfirst ▸ h.base_pos, hfirst ▸ h.base_aligned, hroom, ?_, hplaced, ?_,
    hobjects, hlive, ?_⟩
  · intro d
    show ((s.slab.setClass c cls).classes d).objSize = slabSize d
    by_cases hd : d = c
    · rw [hd, hself, hobj]
    · rw [hother d hd, h.objSize d]
  · intro d
    show Chain arena.mem ((s.slab.setClass c cls).classes d).freeList _
    by_cases hd : d = c
    · rw [hd, hself, update_self]
      exact hchain
    · rw [hother d hd, update_of_ne hd]
      exact (h.chain d).frame (hagree d hd)
  · intro d a ha
    by_cases hd : d = c
    · subst hd
      rw [update_self] at ha
      exact hnodes a ha
    · rw [update_of_ne hd] at ha
      exact h.node_aligned d a ha
  · intro d
    show ((s.slab.setClass c cls).classes d).allocCount =
      ((s.slab.setClass c cls).classes d).freeCount + UInt64.ofNat (live.countP (ofClass d))
    by_cases hd : d = c
    · rw [hd, hself]
      exact hcount
    · rw [hother d hd, hcounts d hd]
      exact h.counts d

/-! ## Small allocations -/

theorem Inv.pop (h : s.Inv frees) {a : Nat} {rest : List Nat} (hfrees : frees c = a :: rest)
    (hl : classFor l.charged = some c) :
    Inv ⟨s.slab.setClass c ((s.slab.classes c).pop s.arena.mem), s.arena, (a, l) :: s.live⟩
      (update frees c rest) := by
  have hchain := h.chain c
  rw [hfrees] at hchain
  obtain ⟨hhead, -, -, hrest⟩ := hchain
  have hmem : ∀ b ∈ a :: rest, slabSize c ∣ b := fun b hb => h.node_aligned c b (hfrees ▸ hb)
  have hdvd := hmem a mem_cons_self
  have halign : l.align ∣ slabSize c :=
    two_pow_dvd_of_le l.align_pow (slabSize_spec c).2.2
      (l.align_le_charged.trans (le_slabSize_of_classFor hl))
  have hperm : (blocks frees s.live).Perm
      (blocks (update frees c rest) ((a, l) :: s.live)) := by
    have hcell : cell (a, l) = node c a := cell_of_class hl
    refine (blocks_perm c).trans (List.Perm.trans ?_ (blocks_update_perm rest).symm)
    rw [hfrees, map_cons, map_cons, hcell, cons_append, ← append_assoc,
      ← append_assoc]
    exact perm_middle.symm
  refine h.setClass (h.objSize c) rfl h.room ?_ (fun d _ b _ x _ _ => rfl) (h.placed.perm hperm)
    (fun b hb => hmem b (mem_cons_of_mem a hb)) ?_ ?_ ?_ ?_
  · show Chain s.arena.mem (loadWord s.arena.mem (s.slab.classes c).freeList) rest
    rw [hhead]
    exact hrest
  · refine forall_mem_cons.mpr ⟨fun d hd => ?_, h.object_aligned⟩
    obtain rfl : c = d := Option.some.inj (hl.symm.trans hd)
    exact hdvd
  · exact forall_mem_cons.mpr ⟨halign.trans hdvd, h.live_aligned⟩
  · rw [countP_cons_ofClass c hl a, if_pos rfl, UInt64.ofNat_add, ← UInt64.add_assoc]
    show (s.slab.classes c).allocCount + 1 = _
    rw [h.counts c]
    rfl
  · intro d hd
    rw [countP_cons_ofClass d hl a, if_neg hd, add_zero]

theorem Inv.refill (h : s.Inv frees) (hnil : frees c = []) :
    (s.slab.classes c).refill s.arena = (false, s.slab.classes c, s.arena) ∨
      ∃ cls arena page, (s.slab.classes c).refill s.arena = (true, cls, arena) ∧
        Inv ⟨s.slab.setClass c cls, arena, s.live⟩
          (update frees c (carved page (slabSize c) (pageSize / slabSize c))) := by
  unfold SlabClass.refill
  split
  · exact .inl rfl
  rcases s.arena.pages.allocPage_spec with hnone | ⟨start, hsome, htakes⟩
  · rw [hnone]
    exact .inl rfl
  cases hp : s.arena.pages.allocPage with
  | mk res pages =>
    rw [hp] at hsome htakes
    dsimp only at hsome htakes
    rw [hsome]
    have hstart : start ∈ s.arena.pages.free := htakes.clear start (mem_rangeFrom.mpr (by omega))
    have hframe := h.room.frame_eq hstart
    have hend := h.room.run_end Nat.one_pos htakes.clear
    have hrun : pageRun s.arena.pages start 1 = ⟨s.arena.pages.frame start, pageSize⟩ := by
      rw [pageRun, hframe, Nat.one_mul]
    rw [hrun] at hend
    have hdvd : pageSize ∣ s.arena.pages.frame start := by
      have hbase := h.dvd_pageRun start 1
      rw [hrun] at hbase
      exact hbase
    have hpos : 0 < s.arena.pages.frame start := by
      have hbase := h.base_pos
      omega
    obtain ⟨hfour, hsize, -⟩ := slabSize_spec c
    have hcover : pageSize / slabSize c * slabSize c = pageSize := Nat.div_mul_cancel hsize
    have hchain := h.chain c
    rw [hnil] at hchain
    generalize s.arena.pages.frame start = page at *
    obtain ⟨hlinked, hagree⟩ := link_spec hpos hfour (by rw [hcover]; exact hend) hchain
      (fun a ha => absurd ha not_mem_nil)
    rw [hcover] at hagree
    rw [h.objSize c]
    rw [append_nil] at hlinked
    refine .inr ⟨_, _, page, rfl, ?_⟩
    have hold : Placed s.arena.pages (otherNodes frees c ++ s.live.map cell) := by
      have hplaced := h.placed.perm (blocks_perm c)
      rw [hnil, map_nil, nil_append] at hplaced
      exact hplaced
    have hnew : Placed pages
        ((carved page (slabSize c) (pageSize / slabSize c)).map (node c) ++
          (otherNodes frees c ++ s.live.map cell)) := by
      refine hold.add h.room Nat.one_pos htakes (carved_apart page _ c) fun f hf => ?_
      obtain ⟨a, ha, rfl⟩ := mem_map.mp hf
      obtain ⟨hle, hlt, -⟩ := carved_within ha
      rw [hrun]
      exact ⟨lt_of_lt_of_le (by decide) hfour, hle, hlt⟩
    refine h.setClass rfl htakes.firstPage (h.room.takes htakes) hlinked ?_
      (hnew.perm (blocks_update_perm _).symm)
      (fun a ha => (carved_within ha).2.2 (hsize.trans hdvd)) h.object_aligned h.live_aligned
      (h.counts c) (fun d _ => rfl)
    -- a free object of another class lies in an allocated page, so the loop does not touch it
    intro d _ a ha
    have hheld := h.placed.held _ (mem_blocks_node ha)
    have hapart := hheld.apart Nat.one_pos htakes.clear
    rw [hrun] at hapart
    refine hagree _ (hapart.mono ⟨le_rfl, ?_⟩ .rfl)
    exact Nat.add_le_add_left (slabSize_spec d).1 a

theorem Inv.freeList_eq_zero (h : s.Inv frees) (c : Fin 7) :
    (s.slab.classes c).freeList = 0 ↔ frees c = [] := (h.chain c).head_eq_zero

theorem carved_ne_nil (page : Nat) (c : Fin 7) :
    ∃ rest, carved page (slabSize c) (pageSize / slabSize c) = page :: rest := by
  have hpos : 0 < pageSize / slabSize c :=
    Nat.div_pos (Nat.le_of_dvd (by decide) (slabSize_spec c).2.1)
      (lt_of_lt_of_le (by decide) (slabSize_spec c).1)
  obtain ⟨k, hk⟩ := Nat.exists_eq_succ_of_ne_zero hpos.ne'
  refine ⟨(range k).map fun i => page + (i + 1) * slabSize c, ?_⟩
  rw [hk, carved, range_succ_eq_map, map_cons, map_map, Nat.zero_mul, Nat.add_zero]
  rfl

section

variable (h : s.Inv frees)

include h

theorem Inv.allocObj (hl : classFor l.charged = some c) :
    ∃ frees', let res := (s.slab.classes c).allocObj s.arena
      Inv ⟨s.slab.setClass c res.2.1, res.2.2,
        if res.1 = 0 then s.live else (res.1, l) :: s.live⟩ frees' := by
  have hpop : ∀ {t : SlabRun} {fs : Fin 7 → List Nat}, t.Inv fs → fs c ≠ [] →
      (t.slab.classes c).freeList ≠ 0 ∧ ∃ fs',
        Inv ⟨t.slab.setClass c ((t.slab.classes c).pop t.arena.mem), t.arena,
          ((t.slab.classes c).freeList, l) :: t.live⟩ fs' := by
    intro t fs ht hne
    refine ⟨fun hzero => hne ((ht.freeList_eq_zero c).mp hzero), ?_⟩
    obtain ⟨a, rest, hfs⟩ := exists_cons_of_ne_nil hne
    have hchain := ht.chain c
    rw [hfs] at hchain
    exact ⟨_, hchain.1 ▸ ht.pop hfs hl⟩
  unfold SlabClass.allocObj
  split
  · rename_i hzero
    rcases h.refill ((h.freeList_eq_zero c).mp hzero) with hsame | ⟨cls, arena, page, hres, hinv⟩
    · rw [hsame]
      have hid : s.slab.setClass c (s.slab.classes c) = s.slab := by
        rw [SlabAllocator.setClass, update_eq_self]
      exact ⟨frees, by simpa [hid] using h⟩
    · obtain ⟨rest, hrest⟩ := carved_ne_nil page c
      have hclass : (s.slab.setClass c cls).classes c = cls := update_self ..
      obtain ⟨hne, frees', hnext⟩ := hpop hinv (by
        rw [update_self, hrest]
        exact cons_ne_nil page rest)
      rw [hclass] at hne hnext
      have htwice : ∀ cls', (s.slab.setClass c cls).setClass c cls' = s.slab.setClass c cls' := by
        intro cls'
        simp only [SlabAllocator.setClass, update_idem]
      rw [htwice] at hnext
      refine ⟨frees', ?_⟩
      rw [hres]
      dsimp only
      rw [if_neg hne]
      exact hnext
  · rename_i hzero
    obtain ⟨hne, frees', hnext⟩ := hpop h fun hnil => hzero ((h.freeList_eq_zero c).mpr hnil)
    refine ⟨frees', ?_⟩
    dsimp only
    rw [if_neg hne]
    exact hnext

theorem Inv.deallocObj {ptr : Nat} (hmem : (ptr, l) ∈ s.live) (hl : classFor l.charged = some c) :
    let res := (s.slab.classes c).deallocObj s.arena ptr
    Inv ⟨s.slab.setClass c res.1, res.2, s.live.erase (ptr, l)⟩
      (update frees c (ptr :: frees c)) := by
  have hperm := perm_cons_erase hmem
  have hcell : cell (ptr, l) = node c ptr := cell_of_class hl
  have hblocks : (blocks frees s.live).Perm
      (node c ptr :: blocks frees (s.live.erase (ptr, l))) := by
    have hmap := (hperm.map cell).append_left (nodes frees)
    rw [map_cons, hcell] at hmap
    exact hmap.trans perm_middle
  have hplaced := h.placed.perm hblocks
  have hapart := (pairwise_cons.mp hplaced.apart).1
  have hheld := hplaced.held _ mem_cons_self
  -- zeroing and linking stay within the object
  have hagree : ∀ d, ∀ a ∈ frees d, ∀ v, Agree s.arena.mem
      (storeWord (zeroBytes s.arena.mem ptr (s.slab.classes c).objSize) ptr v) ⟨a, 4⟩ := by
    intro d a ha v
    have hword : Extent.Apart ⟨a, 4⟩ (node c ptr) :=
      (hapart _ (mem_blocks_node ha)).symm.mono
        ⟨le_rfl, Nat.add_le_add_left (slabSize_spec d).1 a⟩ .rfl
    rw [h.objSize c]
    refine (agree_zeroBytes s.arena.mem hword).trans (agree_storeWord _ ?_)
    exact hword.mono .rfl
      ⟨le_rfl, Nat.add_le_add_left (slabSize_spec c).1 ptr⟩
  refine h.setClass (h.objSize c) rfl h.room ?_ (fun d _ a ha => hagree d a ha _) ?_ ?_ ?_ ?_ ?_ ?_
  · have hpos : 0 < ptr := lt_of_lt_of_le h.base_pos hheld.base_le
    have hlt : ptr < 2 ^ 32 := by
      have hsize := hheld.pos
      have hend := hheld.end_le
      simp only [node, usizeSize] at hsize hend
      omega
    have hlink := (h.chain c).frame fun a ha => hagree c a ha (s.slab.classes c).freeList
    refine ⟨rfl, hpos, hlt, ?_⟩
    show FreeList.Chain _ (loadWord (storeWord _ ptr (s.slab.classes c).freeList) ptr) _
    rw [loadWord_storeWord _ _ (h.chain c).head_lt]
    exact hlink
  · refine hplaced.perm (List.Perm.trans ?_ (blocks_update_perm _).symm)
    rw [map_cons, cons_append]
    exact (blocks_perm c).cons _
  · exact forall_mem_cons.mpr ⟨h.object_aligned _ hmem c hl, h.node_aligned c⟩
  · exact fun x hx => h.object_aligned x (mem_of_mem_erase hx)
  · exact fun x hx => h.live_aligned x (mem_of_mem_erase hx)
  · have hcount := hperm.countP_eq (ofClass c)
    rw [countP_cons_ofClass c hl ptr, if_pos rfl] at hcount
    show (s.slab.classes c).allocCount = (s.slab.classes c).freeCount + 1 + _
    rw [h.counts c, hcount, UInt64.ofNat_add, UInt64.add_assoc, UInt64.add_comm 1]
    rfl
  · intro d hd
    have hcount := hperm.countP_eq (ofClass d)
    rw [countP_cons_ofClass d hl ptr, if_neg hd, Nat.add_zero] at hcount
    exact hcount.symm

/-! ## Large allocations and writes -/

variable {slab : SlabAllocator}

theorem Inv.setPages {pages : Pages} {live : List (Nat × Layout)}
    (hinit : slab.initialized = s.slab.initialized) (hclasses : slab.classes = s.slab.classes)
    (hfirst : pages.firstPage = s.arena.pages.firstPage) (hroom : Room pages)
    (hplaced : Placed pages (blocks frees live))
    (hobjects : ∀ x ∈ live, ∀ c, classFor x.2.charged = some c → slabSize c ∣ x.1)
    (hlive : ∀ x ∈ live, x.2.align ∣ x.1)
    (hcounts : ∀ c, live.countP (ofClass c) = s.live.countP (ofClass c)) :
    Inv ⟨slab, { s.arena with pages := pages }, live⟩ frees := by
  refine ⟨hinit.trans h.initialized, ?_, hfirst ▸ h.base_pos, hfirst ▸ h.base_aligned, hroom, ?_,
    hplaced, h.node_aligned, hobjects, hlive, ?_⟩
  · rw [hclasses]
    exact h.objSize
  · show ∀ c, Chain s.arena.mem (slab.classes c).freeList (frees c)
    rw [hclasses]
    exact h.chain
  · intro c
    show (slab.classes c).allocCount = (slab.classes c).freeCount + UInt64.ofNat _
    rw [hclasses, hcounts c]
    exact h.counts c

theorem Inv.takeRun (hl : classFor l.charged = none) (halign : l.align ≤ pageSize) {pages : Pages}
    (hinit : slab.initialized = s.slab.initialized) (hclasses : slab.classes = s.slab.classes)
    (htakes : Takes s.arena.pages pages (rangeFrom start (start + l.pageCount))) :
    Inv ⟨slab, { s.arena with pages := pages },
      (s.arena.pages.frame start, l) :: s.live⟩ frees := by
  have hcount := l.pageCount_pos
  have hstart : start ∈ s.arena.pages.free := htakes.clear start (mem_rangeFrom.mpr (by omega))
  have hcell : cell (s.arena.pages.frame start, l) = pageRun s.arena.pages start l.pageCount := by
    rw [cell_of_large hl, pageRun, h.room.frame_eq hstart]
  have hdvd : l.align ∣ s.arena.pages.frame start := by
    have hpage : l.align ∣ pageSize := two_pow_dvd_of_le l.align_pow ⟨12, rfl⟩ halign
    rw [h.room.frame_eq hstart]
    exact hpage.trans (h.dvd_pageRun start l.pageCount)
  have hplaced : Placed pages (blocks frees ((s.arena.pages.frame start, l) :: s.live)) := by
    have hadd := h.placed.add h.room hcount htakes
      (pairwise_singleton Extent.Apart (pageRun s.arena.pages start l.pageCount))
      (fun f hf => by
        rw [mem_singleton.mp hf]
        exact ⟨mul_pos hcount (by decide), .rfl⟩)
    refine hadd.perm (List.Perm.symm ?_)
    rw [blocks, map_cons, hcell]
    exact perm_middle
  refine h.setPages hinit hclasses htakes.firstPage (h.room.takes htakes) hplaced ?_ ?_
    fun c => countP_cons_large c hl _
  · refine forall_mem_cons.mpr ⟨fun c hc => ?_, h.object_aligned⟩
    cases hl.symm.trans hc
  · exact forall_mem_cons.mpr ⟨hdvd, h.live_aligned⟩

theorem Inv.freeRun {ptr : Nat} (hmem : (ptr, l) ∈ s.live) (hl : classFor l.charged = none)
    {res : Bool × Pages} (hinit : slab.initialized = s.slab.initialized)
    (hclasses : slab.classes = s.slab.classes) (hfrees : Frees s.arena.pages ptr l.pageCount res) :
    Inv ⟨slab, { s.arena with pages := res.2 }, s.live.erase (ptr, l)⟩ frees := by
  have hperm := perm_cons_erase hmem
  have hplaced : Placed s.arena.pages
      (cell (ptr, l) :: blocks frees (s.live.erase (ptr, l))) := by
    have hmap := (hperm.map cell).append_left (nodes frees)
    exact h.placed.perm (hmap.trans perm_middle)
  have hcounts : ∀ c, (s.live.erase (ptr, l)).countP (ofClass c) = s.live.countP (ofClass c) :=
    fun c => by rw [hperm.countP_eq (ofClass c), countP_cons_large c hl ptr]
  have hkept : ∀ x ∈ s.live.erase (ptr, l), x ∈ s.live := fun x hx => mem_of_mem_erase hx
  have hobjects := fun x hx => h.object_aligned x (hkept x hx)
  have hlive := fun x hx => h.live_aligned x (hkept x hx)
  rcases hfrees with rfl | ⟨start, hptr, -, hgives⟩
  · refine h.setPages hinit hclasses rfl h.room ⟨(pairwise_cons.mp hplaced.apart).2, ?_⟩
      hobjects hlive hcounts
    exact fun e he => hplaced.held e (mem_cons_of_mem _ he)
  have hcell : cell (ptr, l) = pageRun s.arena.pages start l.pageCount := by
    rw [cell_of_large hl, pageRun, ← hptr]
  rw [hcell] at hplaced
  have hend := (hplaced.held _ mem_cons_self).end_le
  exact h.setPages hinit hclasses hgives.firstPage (h.room.gives hgives hend)
    (hplaced.remove hgives) hobjects hlive hcounts

theorem Inv.node_apart_cell {a : Nat} (ha : a ∈ frees c) {x : Nat × Layout} (hx : x ∈ s.live) :
    (node c a).Apart (cell x) :=
  (pairwise_append.mp h.placed.apart).2.2 _
    (mem_flatMap.mpr ⟨c, mem_finRange c, mem_map_of_mem ha⟩) _ (mem_map_of_mem hx)

theorem Inv.write {addr : Nat} (byte : UInt8) {x : Nat × Layout}
    (hx : x ∈ s.live) (haddr : addr ∈ (requested x).bytes) :
    Inv (s.step (.write addr byte)) frees := by
  refine ⟨h.initialized, h.objSize, h.base_pos, h.base_aligned, h.room, fun c => ?_, h.placed,
    h.node_aligned, h.object_aligned, h.live_aligned, h.counts⟩
  refine (h.chain c).frame fun a ha b hle hlt => update_of_ne ?_ ..
  rintro rfl
  have hapart := h.node_apart_cell ha hx
  have hsize := x.2.size_le_reserved
  have hfour := (slabSize_spec c).1
  rw [requested, Extent.bytes, Set.mem_Ico] at haddr
  simp only [Extent.Apart, node, cell] at hapart
  dsimp only at haddr hle hlt
  omega

/-! ## Every run -/

theorem Inv.step {e : SlabEvent} (hguard : s.PageAligned e) :
    ∃ frees', (s.step e).Inv frees' := by
  obtain ⟨hhonest, halign⟩ := hguard
  cases e with
  | write addr byte =>
    obtain ⟨x, hx, haddr⟩ := hhonest
    exact ⟨frees, h.write byte hx haddr⟩
  | dealloc ptr l =>
    have hheld := h.placed.held _ (mem_blocks_cell hhonest)
    have hptr : ptr ≠ 0 := by
      have hpos := h.base_pos
      have hle : s.arena.pages.firstPage ≤ ptr := hheld.base_le
      omega
    have hgo : ¬(s.slab.initialized = false ∨ ptr = 0) := by
      simp [h.initialized, hptr]
    rw [SlabRun.step, SlabAllocator.deallocInner, if_neg hgo]
    cases hl : classFor l.charged with
    | some c => exact ⟨_, h.deallocObj hhonest hl⟩
    | none =>
      have hfits : (ptr - s.arena.pages.firstPage) / pageSize + l.pageCount < usizeSize := by
        have hend := hheld.end_le
        have hcount := l.pageCount_le
        simp only [cell, pageSize, usizeSize] at *
        omega
      refine ⟨frees, ?_⟩
      dsimp only
      split
      · rename_i hone
        have hfrees := s.arena.pages.tryFreePage_spec ptr
        rw [← hone] at hfrees
        exact h.freeRun hhonest hl rfl rfl hfrees
      · exact h.freeRun hhonest hl rfl rfl (s.arena.pages.freeContiguous_spec hfits)
  | alloc l =>
    rw [SlabRun.step, SlabAllocator.allocInner, if_neg (by simp [h.initialized])]
    cases hl : classFor l.charged with
    | some c => exact h.allocObj hl
    | none =>
      have hspec : Allocates s.arena.pages l.pageCount (if l.pageCount = 1 then
          s.arena.pages.allocPage else s.arena.pages.allocContiguous l.pageCount) := by
        split
        · rename_i hone
          rw [hone]
          exact s.arena.pages.allocPage_spec
        · exact s.arena.pages.allocContiguous_spec l.pageCount
      refine ⟨frees, ?_⟩
      generalize (if l.pageCount = 1 then s.arena.pages.allocPage
        else s.arena.pages.allocContiguous l.pageCount) = res at hspec
      rcases hspec with rfl | ⟨start, hsome, htakes⟩
      · exact h
      obtain ⟨addr, pages⟩ := res
      dsimp only at hsome htakes
      have hcount := l.pageCount_pos
      have hstart : start ∈ s.arena.pages.free :=
        htakes.clear start (mem_rangeFrom.mpr (by omega))
      have hne : s.arena.pages.frame start ≠ 0 := by
        have hpos := h.base_pos
        rw [h.room.frame_eq hstart]
        omega
      rw [hsome]
      rw [if_neg hne]
      exact h.takeRun hl (halign l rfl) rfl rfl htakes

theorem Inv.length_live_lt : s.live.length < 2 ^ 64 := by
  have hplaced := (pairwise_append.mp h.placed.apart).2.1
  rw [pairwise_map] at hplaced
  have hheld : ∀ x ∈ s.live, Held s.arena.pages (cell x) := fun x hx =>
    h.placed.held _ (mem_blocks_cell hx)
  have hnodup : (s.live.map Prod.fst).Nodup := by
    rw [List.Nodup, pairwise_map]
    refine hplaced.imp_of_mem fun {x y} hx hy hapart heq => ?_
    have hxpos := (hheld x hx).pos
    have hypos := (hheld y hy).pos
    simp only [Extent.Apart, cell] at *
    omega
  have hsub : (s.live.map Prod.fst).toFinset ⊆ Finset.range usizeSize := by
    intro a ha
    obtain ⟨x, hx, rfl⟩ := mem_map.mp (mem_toFinset.mp ha)
    have hpos := (hheld x hx).pos
    have hend := (hheld x hx).end_le
    rw [Finset.mem_range]
    simp only [cell] at *
    omega
  have hcard := Finset.card_le_card hsub
  rw [toFinset_card_of_nodup hnodup, length_map, Finset.card_range] at hcard
  exact lt_of_le_of_lt hcard (by decide)

end

theorem requested_within (x : Nat × Layout) : (requested x).Within (cell x) :=
  ⟨le_rfl, Nat.add_le_add_left x.2.size_le_reserved x.1⟩

theorem Inv.sound (h : s.Inv frees) : s.Sound := by
  have hlive := (pairwise_append.mp h.placed.apart).2.1
  rw [pairwise_map] at hlive
  refine ⟨fun x hx => ⟨?_, h.live_aligned x hx⟩, ?_, fun c => ⟨frees c, h.chain c, ?_⟩, ?_⟩
  · have hpos := h.base_pos
    have hle : s.arena.pages.firstPage ≤ x.1 := (h.placed.held _ (mem_blocks_cell hx)).base_le
    omega
  · exact hlive.imp fun {x y} hapart =>
      (hapart.mono (requested_within x) (requested_within y)).disjoint
  · intro a ha x hx
    exact ((h.node_apart_cell ha hx).symm.mono (requested_within x) .rfl).disjoint
  · intro c
    have hlt : s.live.countP (ofClass c) < 2 ^ 64 :=
      lt_of_le_of_lt countP_le_length h.length_live_lt
    rw [h.counts c, UInt64.add_comm, UInt64.add_sub_cancel, UInt64.toNat_ofNat',
      Nat.mod_eq_of_lt hlt]

def boot (p : Pages) (mem : FreeList.Memory) : SlabRun := ⟨SlabAllocator.new.init, ⟨p, mem⟩, []⟩

theorem inv_boot {ramStart ramEnd kernelEnd : Nat} {p : Pages} (mem : FreeList.Memory)
    (hrange : RamRange ramStart ramEnd kernelEnd) (hpos : 0 < ramStart)
    (haligned : pageSize ∣ ramStart) (hinit : Pages.init ramStart ramEnd kernelEnd = some p) :
    (boot p mem).Inv fun _ => [] := by
  obtain ⟨hfirst, -, hfree⟩ := init_spec hrange hinit
  obtain ⟨-, -, hlt, -, -⟩ := hrange.usableStart_bounds
  refine ⟨rfl, fun _ => rfl, hfirst ▸ hpos, hfirst ▸ haligned, ?_, fun _ => rfl, ?_, ?_, ?_, ?_, ?_⟩
  · intro n hn
    show p.firstPage + (n + 1) * pageSize ≤ usizeSize
    have hpage := ((hfree n).mp hn).2
    rw [hfirst]
    simp only [pageSize, usizeSize] at *
    omega
  · have hempty : blocks (fun _ => []) (boot p mem).live = [] := by
      simp [blocks, nodes, boot]
    rw [hempty]
    exact ⟨List.Pairwise.nil, fun e he => absurd he not_mem_nil⟩
  · exact fun c a ha => absurd ha not_mem_nil
  · exact fun x hx => absurd hx not_mem_nil
  · exact fun x hx => absurd hx not_mem_nil
  · exact fun c => rfl

end SlabRun

open SlabRun in
/-- From boot, in every run of honest events in which no layout asks for more
than page alignment, the heap is sound in every state reached. -/
theorem slab_heap_sound {ramStart ramEnd kernelEnd : UInt32} {p : Pages} {mem : FreeList.Memory}
    {s : SlabRun} (hrange : RamRange ramStart.toNat ramEnd.toNat kernelEnd.toNat)
    (hpos : 0 < ramStart.toNat) (haligned : pageSize ∣ ramStart.toNat)
    (hinit : Pages.init ramStart.toNat ramEnd.toNat kernelEnd.toNat = some p)
    (hruns : Runs SlabRun.step PageAligned (boot p mem) s) : s.Sound := by
  have hinv : ∃ frees, s.Inv frees := by
    refine Runs.invariant (I := fun t => ∃ frees, t.Inv frees) hruns
      ⟨_, inv_boot mem hrange hpos haligned hinit⟩ fun t e ht hguard => ?_
    obtain ⟨frees, ht⟩ := ht
    exact ht.step hguard
  obtain ⟨frees, hinv⟩ := hinv
  exact hinv.sound

/-! ## Alignments above a page -/

def onePage : Layout := ⟨4096, 4096, ⟨12, rfl⟩, by decide⟩

def alignedPair : Layout := ⟨8192, 8192, ⟨13, rfl⟩, by decide⟩

open SlabRun in
/-- The heap that the kernel boots with, one page later. -/
theorem slab_heap_sound_boot : ∃ p,
    Pages.init (0x40000000 : UInt32).toNat (0x7FF00000 : UInt32).toNat
      (0x40200000 : UInt32).toNat = some p ∧
    ((boot p fun _ => 0).step (.alloc onePage)).Sound := by
  obtain ⟨p, hp⟩ := exists_boot
  refine ⟨p, hp, @slab_heap_sound 0x40000000 0x7FF00000 0x40200000 p (fun _ => 0) _ ramRange_boot
    (by decide) (by decide) hp (.event _ .start ⟨trivial, ?_⟩)⟩
  rintro l ⟨⟩
  decide

theorem allocContiguous_least {p : Pages} {a b n : Nat} (hfree : ∀ q, q ∈ p.free ↔ a ≤ q ∧ q < b)
    (hn : 0 < n) (hfits : a + n ≤ b) (hcount : n ≤ p.freePages) :
    p.allocContiguous n = p.handOut n a := by
  have hleast : IsLeast {s | WordBitmap.ClearRun p.bitmap n s} a :=
    ⟨fun q hle hlt => (hfree q).mpr (by omega),
      fun s hs => ((hfree s).mp (hs s le_rfl (by omega))).1⟩
  obtain ⟨hfew, -⟩ | ⟨found, hfit, heq⟩ := allocContiguous_cases p hn
  · omega
  · rw [heq, hfit.eq_some hleast]
    rfl

open SlabRun in
/-- A layout with an alignment of two pages gets two pages at any page: after
one page is taken from the boot heap, the pair begins at `0x40201000`. -/
theorem slab_alignment_above_page : ∃ p,
    Pages.init (0x40000000 : UInt32).toNat (0x7FF00000 : UInt32).toNat
      (0x40200000 : UInt32).toNat = some p ∧
    ∃ s, Runs SlabRun.step Honest (boot p fun _ => 0) s ∧
      (0x40201000, alignedPair) ∈ s.live ∧ ¬alignedPair.align ∣ 0x40201000 := by
  obtain ⟨p, hp⟩ := exists_boot
  obtain ⟨hfirst, hcounted, hfree⟩ := init_spec ramRange_boot hp
  -- the free pages are those from 512 on, up to the end of the allocator's range
  have hlow : (usableStart 0x40200000 - 0x40000000) / pageSize = 512 := by decide
  have hhigh : (usableEnd 0x7FF00000 - 0x40000000) / pageSize = 0x3FF00 := by decide
  rw [hlow, hhigh] at hfree
  have hcount : 3 ≤ p.freePages := by
    have hsub : ({512, 513, 514} : Finset Nat) ⊆ p.free := by
      intro n hn
      rw [hfree]
      simp only [Finset.mem_insert, Finset.mem_singleton] at hn
      omega
    rw [hcounted]
    exact Finset.card_le_card hsub
  have hone : p.allocPage = (some 0x40200000, p.take [512] (p.freePages - 1)) := by
    rw [show p.allocPage = _ from allocContiguous_least hfree (n := 1) (by decide) (by decide)
      (by omega), handOut, frame, hfirst]
    rfl
  have htwo : ∀ count, 2 ≤ count → ((p.take [512] count).allocContiguous 2).1 =
      some 0x40201000 := by
    intro count hle
    have hrest : ∀ q, q ∈ (p.take [512] count).free ↔ 513 ≤ q ∧ q < 0x3FF00 := by
      intro q
      rw [take_free _ (by decide), Finset.mem_sdiff, hfree, mem_toFinset, mem_singleton]
      omega
    rw [allocContiguous_least hrest (by decide) (by decide) hle]
    show some ((p.firstPage + 513 * pageSize) % usizeSize) = _
    rw [hfirst]
    rfl
  have hsingle : (boot p fun _ => 0).step (.alloc onePage) =
      ⟨{ SlabAllocator.new.init with largeAllocCount := 1 },
        ⟨p.take [512] (p.freePages - 1), fun _ => 0⟩, [(0x40200000, onePage)]⟩ := by
    have hlarge : classFor onePage.charged = none := by decide
    have hpages : onePage.pageCount = 1 := by decide
    simp only [SlabRun.step, boot, SlabAllocator.allocInner, hlarge, hpages, if_true, hone]
    rfl
  have hfirstStep : Runs SlabRun.step Honest (boot p fun _ => 0)
      ((boot p fun _ => 0).step (.alloc onePage)) := .event _ .start trivial
  have hsecondStep : Runs SlabRun.step Honest (boot p fun _ => 0)
      (((boot p fun _ => 0).step (.alloc onePage)).step (.alloc alignedPair)) :=
    .event _ hfirstStep trivial
  refine ⟨p, hp, _, hsecondStep, ?_, by decide⟩
  have hlarge : classFor alignedPair.charged = none := by decide
  have hpages : alignedPair.pageCount = 2 := by decide
  have hpair := htwo (p.freePages - 1) (by omega)
  rw [hsingle]
  generalize p.take [512] (p.freePages - 1) = q at hpair
  cases hq : q.allocContiguous 2 with
  | mk res pages =>
    rw [hq] at hpair
    dsimp only at hpair
    simp [SlabRun.step, SlabAllocator.allocInner, SlabAllocator.init, hlarge, hpages, hq, hpair]

end Thumos
