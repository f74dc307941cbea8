import Mathlib.Algebra.GroupWithZero.Nat
import Thumos.Lib.WordBitmap

/-!
# The physical page allocator

The model of `page.rs`: one bit for each 4 KB frame of up to 1 GB of RAM, the
counter of free frames, and the four entry points that change them.  `usize`
has 32 bits on the target and its arithmetic wraps, so sums are taken modulo
`usizeSize`.

The allocator seen from outside is a finite set of free page numbers.  The
last part of this file says of each entry point what it does to that set.
-/

namespace Thumos

open WordBitmap List

abbrev usizeSize : Nat := 2 ^ 32

abbrev pageSize : Nat := 4096

abbrev maxPages : Nat := 1024 * 1024 * 1024 / pageSize

-- For literals of the tables' indices.
instance neZeroPageSize : NeZero pageSize := ⟨by decide⟩

instance neZeroSixteen : NeZero 16 := ⟨by decide⟩

instance neZeroEight : NeZero 8 := ⟨by decide⟩

/-! ## The memory map of the board -/

abbrev ramStart : Nat := 0x40000000

abbrev ramEnd : Nat := 0x80000000

abbrev kernelEnd : Nat := 0x40200000

/-- The window of user images, and the end of the range that
the allocator is given. -/
abbrev userTextBase : Nat := 0x7FF00000

/-! ## The bitmap -/

def wrappingSub (a b : Nat) : Nat := (a + usizeSize - b) % usizeSize

def rangeFrom (a b : Nat) : List Nat := List.range' a (b - a)

/-- The statics of `page.rs`.  A set bit of `bitmap` is an allocated frame. -/
structure Pages where
  bitmap : List (BitVec 32)
  freePages : Nat
  firstPage : Nat
  length_eq : bitmap.length = maxPages / 32

namespace Pages

def frame (p : Pages) (n : Nat) : Nat := (p.firstPage + n * pageSize) % usizeSize

def take (p : Pages) (ns : List Nat) (count : Nat) : Pages where
  bitmap := ns.foldl set p.bitmap
  freePages := count
  firstPage := p.firstPage
  length_eq := by rw [length_foldl_set, p.length_eq]

def give (p : Pages) (ns : List Nat) (count : Nat) : Pages where
  bitmap := ns.foldl clear p.bitmap
  freePages := count
  firstPage := p.firstPage
  length_eq := by rw [length_foldl_clear, p.length_eq]

def reserved (firstPage count : Nat) : Pages where
  bitmap := List.replicate (maxPages / 32) (BitVec.allOnes 32)
  freePages := count
  firstPage := firstPage
  length_eq := List.length_replicate

def usableStart (kernelEnd : Nat) : Nat :=
  (kernelEnd + pageSize - 1) % usizeSize / pageSize * pageSize

def usableEnd (ramEnd : Nat) : Nat := ramEnd / pageSize * pageSize

/-- `page::init`.  The access `bitmap[word]` of its loop panics past the
bitmap: then there is no allocator. -/
def init (ramStart ramEnd kernelEnd : Nat) : Option Pages :=
  let total := wrappingSub (usableEnd ramEnd) (usableStart kernelEnd) / pageSize
  let startPage := wrappingSub (usableStart kernelEnd) ramStart / pageSize
  let endPage := wrappingSub (usableEnd ramEnd) ramStart / pageSize
  if startPage < endPage ∧ maxPages < endPage then none
  else some ((reserved ramStart total).give (rangeFrom startPage endPage) total)

def allocPage (p : Pages) : Option Nat × Pages :=
  if p.freePages = 0 then (none, p)
  else
    match firstClear p.bitmap with
    | none => (none, p)
    | some n => (some (p.frame n), p.take [n] (p.freePages - 1))

/-- A frame goes back unless it is below the managed base,
misaligned, past the bitmap or not allocated. -/
def tryFreePage (p : Pages) (addr : Nat) : Bool × Pages :=
  if addr < p.firstPage then (false, p)
  else if (addr - p.firstPage) % pageSize ≠ 0 then (false, p)
  else
    let page := (addr - p.firstPage) / pageSize
    if maxPages / 32 ≤ page / 32 then (false, p)
    else if test p.bitmap page = false then (false, p)
    else (true, p.give [page] ((p.freePages + 1) % usizeSize))

def freePage (p : Pages) (addr : Nat) : Pages := (p.tryFreePage addr).2

def allocContiguous (p : Pages) (n : Nat) : Option Nat × Pages :=
  if n = 0 then (none, p)
  else if n = 1 then p.allocPage
  else if p.freePages < n then (none, p)
  else
    match findRun n p.bitmap with
    | none => (none, p)
    | some start =>
      (some (p.frame start), p.take (rangeFrom start (start + n)) (p.freePages - n))

/-- Every frame of the run is checked before one is freed.
The end of the run, `start + n`, wraps. -/
def freeContiguous (p : Pages) (addr n : Nat) : Bool × Pages :=
  if n = 0 then (false, p)
  else if n = 1 then p.tryFreePage addr
  else if addr < p.firstPage then (false, p)
  else if (addr - p.firstPage) % pageSize ≠ 0 then (false, p)
  else
    let start := (addr - p.firstPage) / pageSize
    let run := rangeFrom start ((start + n) % usizeSize)
    if run.all fun q => decide (q / 32 < maxPages / 32) && test p.bitmap q then
      (true, p.give run ((p.freePages + n) % usizeSize))
    else (false, p)

/-! ## The set of free pages -/

def free (p : Pages) : Finset Nat := zeros p.bitmap

def Counted (p : Pages) : Prop := p.freePages = p.free.card

theorem lt_width (p : Pages) {n : Nat} : n < 32 * p.bitmap.length ↔ n < maxPages := by
  rw [p.length_eq, show 32 * (maxPages / 32) = maxPages by decide]

variable {p : Pages}

theorem mem_free {n : Nat} : n ∈ p.free ↔ n < maxPages ∧ test p.bitmap n = false := by
  rw [free, mem_zeros, p.lt_width]

theorem free_lt {n : Nat} (h : n ∈ p.free) : n < maxPages := (mem_free.mp h).1

theorem card_free_le (p : Pages) : p.free.card ≤ maxPages := by
  have hsub : p.free ⊆ Finset.range maxPages := fun n hn => Finset.mem_range.mpr (free_lt hn)
  simpa using Finset.card_le_card hsub

theorem take_free {ns : List Nat} (count : Nat) (h : ∀ n ∈ ns, n < maxPages) :
    (p.take ns count).free = p.free \ ns.toFinset :=
  zeros_foldl_set fun n hn => p.lt_width.mpr (h n hn)

theorem give_free {ns : List Nat} (count : Nat) (h : ∀ n ∈ ns, n < maxPages) :
    (p.give ns count).free = p.free ∪ ns.toFinset :=
  zeros_foldl_clear fun n hn => p.lt_width.mpr (h n hn)

theorem reserved_free (firstPage count : Nat) : (reserved firstPage count).free = ∅ :=
  zeros_replicate_allOnes _

/-- Different pages have different addresses: the bitmap covers 1 GB only. -/
theorem frame_inj {m n : Nat} (hm : m < maxPages) (hn : n < maxPages) (h : p.frame m = p.frame n) :
    m = n := by
  unfold frame at h
  simp only [maxPages, pageSize, usizeSize] at *
  omega

theorem mem_rangeFrom {a b n : Nat} : n ∈ rangeFrom a b ↔ a ≤ n ∧ n < b := by
  rw [rangeFrom, mem_range'_1]
  omega

theorem nodup_rangeFrom (a b : Nat) : (rangeFrom a b).Nodup := nodup_range'

theorem length_rangeFrom (a b : Nat) : (rangeFrom a b).length = b - a := length_range'

structure Takes (p p' : Pages) (ns : List Nat) : Prop where
  firstPage : p'.firstPage = p.firstPage
  nodup : ns.Nodup
  clear : ∀ n ∈ ns, n ∈ p.free
  free : p'.free = p.free \ ns.toFinset
  freePages : p'.freePages = p.freePages - ns.length

structure Gives (p p' : Pages) (ns : List Nat) : Prop where
  firstPage : p'.firstPage = p.firstPage
  nodup : ns.Nodup
  taken : ∀ n ∈ ns, n < maxPages ∧ n ∉ p.free
  free : p'.free = p.free ∪ ns.toFinset
  freePages : p'.freePages = (p.freePages + ns.length) % usizeSize

section

variable {p p' : Pages} {ns : List Nat}

theorem takes_take (hnodup : ns.Nodup) (hclear : ∀ n ∈ ns, n ∈ p.free) :
    Takes p (p.take ns (p.freePages - ns.length)) ns :=
  ⟨rfl, hnodup, hclear, take_free _ fun n hn => free_lt (hclear n hn), rfl⟩

theorem gives_give (hnodup : ns.Nodup) (htaken : ∀ n ∈ ns, n < maxPages ∧ n ∉ p.free) :
    Gives p (p.give ns ((p.freePages + ns.length) % usizeSize)) ns :=
  ⟨rfl, hnodup, htaken, give_free _ fun n hn => (htaken n hn).1, rfl⟩

theorem Takes.counted (h : Takes p p' ns) (hp : p.Counted) : p'.Counted := by
  have hsub : ns.toFinset ⊆ p.free := fun n hn => h.clear n (mem_toFinset.mp hn)
  rw [Counted, h.freePages, h.free, hp, Finset.card_sdiff_of_subset hsub,
    toFinset_card_of_nodup h.nodup]

theorem Gives.counted (h : Gives p p' ns) (hp : p.Counted) : p'.Counted := by
  have hdisj : Disjoint p.free ns.toFinset :=
    Finset.disjoint_right.mpr fun n hn => (h.taken n (mem_toFinset.mp hn)).2
  have hcard : p'.free.card = p.free.card + ns.length := by
    rw [h.free, Finset.card_union_of_disjoint hdisj, toFinset_card_of_nodup h.nodup]
  have hle := card_free_le p'
  have hlt : p'.free.card < usizeSize := lt_of_le_of_lt hle (by decide)
  rw [Counted, h.freePages, hp, ← hcard, Nat.mod_eq_of_lt hlt]

end

/-! ## What the entry points do to the free set -/

/-- An allocation fails and changes nothing, or takes a run of `n` free pages
and answers the address of the first. -/
def Allocates (p : Pages) (n : Nat) (res : Option Nat × Pages) : Prop :=
  res = (none, p) ∨ ∃ start, res.1 = some (p.frame start) ∧
    Takes p res.2 (rangeFrom start (start + n))

def handOut (p : Pages) (n start : Nat) : Option Nat × Pages :=
  (some (p.frame start), p.take (rangeFrom start (start + n)) (p.freePages - n))

theorem handOut_spec {n start : Nat} (h : ClearRun p.bitmap n start) :
    Takes p (p.handOut n start).2 (rangeFrom start (start + n)) := by
  have hlen : (rangeFrom start (start + n)).length = n := by
    rw [length_rangeFrom, Nat.add_sub_cancel_left]
  have htakes := takes_take (p := p) (nodup_rangeFrom start (start + n)) fun q hq => by
    rw [mem_rangeFrom] at hq
    exact h q hq.1 hq.2
  rw [hlen] at htakes
  exact htakes

theorem allocPage_cases (p : Pages) :
    p.freePages = 0 ∧ p.allocPage = (none, p) ∨
      ∃ found, FirstFit p.bitmap 1 found ∧ p.allocPage = found.elim (none, p) (p.handOut 1) := by
  unfold allocPage
  split
  · rename_i hfree
    exact .inl ⟨hfree, rfl⟩
  refine .inr ⟨firstClear p.bitmap, firstClear_spec (by decide), ?_⟩
  cases firstClear p.bitmap with
  | none => rfl
  | some n =>
    have hrun : rangeFrom n (n + 1) = [n] := by
      rw [rangeFrom, Nat.add_sub_cancel_left]
      rfl
    simp only [Option.elim, handOut, hrun]

theorem allocContiguous_cases (p : Pages) {n : Nat} (hn : 0 < n) :
    p.freePages < n ∧ p.allocContiguous n = (none, p) ∨
      ∃ found, FirstFit p.bitmap n found ∧
        p.allocContiguous n = found.elim (none, p) (p.handOut n) := by
  rw [allocContiguous, if_neg (ne_of_gt hn)]
  split
  · rename_i hone
    subst hone
    rw [Nat.lt_one_iff]
    exact allocPage_cases p
  split
  · rename_i hfree
    exact .inl ⟨hfree, rfl⟩
  refine .inr ⟨findRun n p.bitmap, findRun_spec (by decide) hn, ?_⟩
  cases findRun n p.bitmap <;> rfl

theorem allocates_of_cases {n : Nat} {few : Prop} {res : Option Nat × Pages}
    (h : few ∧ res = (none, p) ∨
      ∃ found, FirstFit p.bitmap n found ∧ res = found.elim (none, p) (p.handOut n)) :
    Allocates p n res := by
  obtain ⟨-, rfl⟩ | ⟨_ | start, hfit, rfl⟩ := h
  · exact .inl rfl
  · exact .inl rfl
  · exact .inr ⟨start, rfl, handOut_spec hfit.1⟩

theorem allocPage_spec (p : Pages) : Allocates p 1 p.allocPage :=
  allocates_of_cases (allocPage_cases p)

theorem allocContiguous_spec (p : Pages) (n : Nat) : Allocates p n (p.allocContiguous n) := by
  rcases Nat.eq_zero_or_pos n with rfl | hn
  · exact .inl rfl
  · exact allocates_of_cases (allocContiguous_cases p hn)

/-- A free call answers `false` and changes nothing, or puts back the run of
`n` pages that starts at `addr`. -/
def Frees (p : Pages) (addr n : Nat) (res : Bool × Pages) : Prop :=
  res = (false, p) ∨ ∃ start, addr = p.firstPage + start * pageSize ∧ res.1 = true ∧
    Gives p res.2 (rangeFrom start (start + n))

theorem eq_base_add {base addr : Nat} (hbase : ¬addr < base)
    (halign : ¬(addr - base) % pageSize ≠ 0) :
    addr = base + (addr - base) / pageSize * pageSize := by
  rw [Nat.div_mul_cancel (Nat.dvd_of_mod_eq_zero (not_not.mp halign))]
  omega

theorem tryFreePage_spec (p : Pages) (addr : Nat) : Frees p addr 1 (p.tryFreePage addr) := by
  unfold tryFreePage
  split
  · exact .inl rfl
  split
  · exact .inl rfl
  dsimp only
  split
  · exact .inl rfl
  split
  · exact .inl rfl
  rename_i hbase halign hword htest
  refine .inr ⟨(addr - p.firstPage) / pageSize, eq_base_add hbase halign, rfl, ?_⟩
  have hrun : ∀ n, rangeFrom n (n + 1) = [n] := fun n => by
    rw [rangeFrom, Nat.add_sub_cancel_left]
    rfl
  rw [hrun]
  refine gives_give (nodup_singleton _) ?_
  intro n hn
  rw [mem_singleton] at hn
  rw [mem_free, hn]
  exact ⟨by simp only [maxPages, pageSize] at *; omega, fun h => htest h.2⟩

theorem freeContiguous_spec (p : Pages) {addr n : Nat}
    (hfits : (addr - p.firstPage) / pageSize + n < usizeSize) :
    Frees p addr n (p.freeContiguous addr n) := by
  unfold freeContiguous
  split
  · exact .inl rfl
  split
  · rename_i hn
    rw [hn]
    exact tryFreePage_spec p addr
  split
  · exact .inl rfl
  split
  · exact .inl rfl
  rename_i hbase halign
  dsimp only
  rw [Nat.mod_eq_of_lt hfits]
  split
  · rename_i hall
    refine .inr ⟨(addr - p.firstPage) / pageSize, eq_base_add hbase halign, rfl, ?_⟩
    generalize (addr - p.firstPage) / pageSize = start at hall ⊢
    have hlen : (rangeFrom start (start + n)).length = n := by
      rw [length_rangeFrom, Nat.add_sub_cancel_left]
    have hgives : Gives p
        (p.give (rangeFrom start (start + n))
          ((p.freePages + (rangeFrom start (start + n)).length) % usizeSize))
        (rangeFrom start (start + n)) := by
      refine gives_give (nodup_rangeFrom _ _) ?_
      intro q hq
      have hq' := all_eq_true.mp hall q hq
      rw [Bool.and_eq_true, decide_eq_true_eq] at hq'
      rw [mem_free]
      exact ⟨by simp only [maxPages, pageSize] at *; omega,
        fun h => by rw [h.2] at hq'; exact Bool.false_ne_true hq'.2⟩
    rw [hlen] at hgives
    exact hgives
  · exact .inl rfl

theorem freeContiguous_of_false {addr n : Nat} (h : (p.freeContiguous addr n).1 = false) :
    (p.freeContiguous addr n).2 = p := by
  unfold freeContiguous at h ⊢
  split
  · rfl
  split
  · rename_i hz hn
    rw [if_neg hz, if_pos hn] at h
    rcases tryFreePage_spec p addr with heq | ⟨-, -, hok, -⟩
    · rw [heq]
    · cases hok.symm.trans h
  · split
    · rfl
    · split
      · rfl
      · rename_i hz hn hbase halign
        rw [if_neg hz, if_neg hn, if_neg hbase, if_neg halign] at h
        dsimp only at h ⊢
        split
        · rename_i hall
          rw [if_pos hall] at h
          cases h
        · rfl

structure RamRange (ramStart ramEnd kernelEnd : Nat) : Prop where
  end_lt : ramEnd < usizeSize
  start_le : ramStart ≤ kernelEnd
  le_end : kernelEnd ≤ usableEnd ramEnd

theorem RamRange.usableStart_bounds {ramStart ramEnd kernelEnd : Nat}
    (h : RamRange ramStart ramEnd kernelEnd) :
    kernelEnd ≤ usableStart kernelEnd ∧ usableStart kernelEnd ≤ usableEnd ramEnd ∧
      usableEnd ramEnd < usizeSize ∧ usableStart kernelEnd % pageSize = 0 ∧
      usableEnd ramEnd % pageSize = 0 := by
  obtain ⟨hend, -, hle⟩ := h
  simp only [usableStart, usableEnd, pageSize, usizeSize] at *
  omega

theorem wrappingSub_eq {a b : Nat} (hba : b ≤ a) (ha : a < usizeSize) :
    wrappingSub a b = a - b := by
  unfold wrappingSub
  rw [show a + usizeSize - b = a - b + usizeSize by omega, Nat.add_mod_right,
    Nat.mod_eq_of_lt (by omega)]

theorem init_spec {ramStart ramEnd kernelEnd : Nat} (hrange : RamRange ramStart ramEnd kernelEnd)
    (h : init ramStart ramEnd kernelEnd = some p) :
    p.firstPage = ramStart ∧ p.Counted ∧ ∀ n, n ∈ p.free ↔
      (usableStart kernelEnd - ramStart) / pageSize ≤ n ∧
        n < (usableEnd ramEnd - ramStart) / pageSize := by
  obtain ⟨hge, hle, hlt, hstart, hend⟩ := hrange.usableStart_bounds
  have hram := hrange.start_le
  rw [init] at h
  generalize usableStart kernelEnd = us at *
  generalize usableEnd ramEnd = ue at *
  rw [wrappingSub_eq hle hlt, wrappingSub_eq (by omega) (by omega),
    wrappingSub_eq (by omega) hlt] at h
  split at h
  · cases h
  rw [← Option.some.inj h]
  have htotal : (ue - us) / pageSize = (ue - ramStart) / pageSize - (us - ramStart) / pageSize := by
    simp only [pageSize] at *
    omega
  rw [htotal]
  generalize (us - ramStart) / pageSize = s at *
  generalize (ue - ramStart) / pageSize = e at *
  have hpage : ∀ n ∈ rangeFrom s e, n < maxPages := fun n hn => by
    rw [mem_rangeFrom] at hn
    omega
  have hfree : ((reserved ramStart (e - s)).give (rangeFrom s e) (e - s)).free =
      (rangeFrom s e).toFinset := by
    rw [give_free _ hpage, reserved_free, Finset.empty_union]
  refine ⟨rfl, ?_, ?_⟩
  · rw [Counted, hfree, toFinset_card_of_nodup (nodup_rangeFrom s e), length_rangeFrom]
    rfl
  · intro n
    rw [hfree, mem_toFinset, mem_rangeFrom]

/-! ## First fit -/

/-- The addresses at which `n` free pages start. -/
def runs (p : Pages) (n : Nat) : Set Nat :=
  {addr | ∃ start, addr = p.firstPage + start * pageSize ∧
    ∀ q, start ≤ q → q < start + n → q ∈ p.free}

theorem allocContiguous_of_lt {n : Nat} (h : p.freePages < n) :
    p.allocContiguous n = (none, p) := by
  rw [allocContiguous, if_neg (by omega)]
  rcases eq_or_ne n 1 with rfl | hone
  · rw [if_pos rfl, allocPage, if_pos (Nat.lt_one_iff.mp h)]
  · rw [if_neg hone, if_pos h]

/-- `alloc_contiguous` is first fit and complete: it answers the lowest address
at which `n` free pages start and takes exactly those pages, or there are no
`n` free pages in a row.  This is so if and only if the counter of free pages
admits the search or there is nothing to find. -/
theorem allocContiguous_first_fit (p : Pages) {n : Nat} (hn : 1 ≤ n) :
    (((p.allocContiguous n).1 = none ↔ p.runs n = ∅) ∧
      ((p.allocContiguous n).1 = none → (p.allocContiguous n).2 = p) ∧
      ∀ addr, (p.allocContiguous n).1 = some addr → ∃ start, addr = p.frame start ∧
        IsLeast (p.runs n) (p.firstPage + start * pageSize) ∧
        Takes p (p.allocContiguous n).2 (rangeFrom start (start + n))) ↔
      n ≤ p.freePages ∨ p.runs n = ∅ := by
  constructor
  · rintro ⟨hnone, -⟩
    rcases Nat.lt_or_ge p.freePages n with hfew | hmany
    · exact .inr (hnone.mp (by rw [allocContiguous_of_lt hfew]))
    · exact .inl hmany
  intro hcond
  have hcases : ∃ found, FirstFit p.bitmap n found ∧
      p.allocContiguous n = found.elim (none, p) (p.handOut n) := by
    rcases allocContiguous_cases p hn with ⟨hfew, heq⟩ | hfound
    · refine ⟨none, fun start hstart => ?_, heq⟩
      have hmem : p.firstPage + start * pageSize ∈ p.runs n := ⟨start, rfl, hstart⟩
      rw [hcond.resolve_left (by omega)] at hmem
      exact hmem
    · exact hfound
  obtain ⟨_ | start, hfit, heq⟩ := hcases
  · rw [heq]
    refine ⟨iff_of_true rfl (Set.eq_empty_of_forall_notMem ?_), fun _ => rfl, nofun⟩
    rintro _ ⟨start, -, hstart⟩
    exact hfit start hstart
  have hmem : p.firstPage + start * pageSize ∈ p.runs n := ⟨start, rfl, hfit.1⟩
  rw [heq]
  refine ⟨iff_of_false nofun (Set.nonempty_iff_ne_empty.mp ⟨_, hmem⟩), nofun, ?_⟩
  rintro _ ⟨⟩
  refine ⟨start, rfl, ⟨hmem, ?_⟩, handOut_spec hfit.1⟩
  rintro _ ⟨start', rfl, hstart'⟩
  exact Nat.add_le_add_left (Nat.mul_le_mul_right _ (hfit.2 hstart')) _

/-- A range of two usable pages, 1 and 2. -/
theorem exists_twoPages : ∃ p, init 0x40000000 0x40003000 0x40001000 = some p ∧
    p.firstPage = 0x40000000 ∧ p.freePages = 2 ∧ p.free = {1, 2} := by
  have hinit : ∃ p, init 0x40000000 0x40003000 0x40001000 = some p := by
    rw [init, if_neg (by decide)]
    exact ⟨_, rfl⟩
  obtain ⟨p, hp⟩ := hinit
  obtain ⟨hfirst, hcounted, hfree⟩ := init_spec (by constructor <;> decide) hp
  have heq : p.free = {1, 2} := by
    refine Finset.ext fun n => (hfree n).trans ?_
    rw [Finset.mem_insert, Finset.mem_singleton]
    show 1 ≤ n ∧ n < 3 ↔ _
    omega
  refine ⟨p, hp, hfirst, ?_, heq⟩
  rw [hcounted, heq]
  rfl

theorem allocContiguous_first_fit_two : ∃ p, init 0x40000000 0x40003000 0x40001000 = some p ∧
    (p.allocContiguous 2).1 ≠ none := by
  obtain ⟨p, hp, -, hcount, hfree⟩ := exists_twoPages
  have hmem : p.firstPage + 1 * pageSize ∈ p.runs 2 := by
    refine ⟨1, rfl, fun q hle hlt => ?_⟩
    rw [hfree, Finset.mem_insert, Finset.mem_singleton]
    omega
  refine ⟨p, hp, fun hnone => ?_⟩
  rw [((allocContiguous_first_fit p (by decide)).mpr (.inl hcount.ge)).1.mp hnone] at hmem
  exact hmem

/-- After a `free_contiguous` of `2^32 - 1` pages, whose end wraps, the counter
says that one page is free, and a request for two fails beside two free pages. -/
theorem allocContiguous_misses : ∃ p, init 0x40000000 0x40003000 0x40001000 = some p ∧
    ∃ p', p' = (p.freeContiguous 0x40001000 0xFFFFFFFF).2 ∧ 1 ∈ p'.free ∧ 2 ∈ p'.free ∧
      (p'.allocContiguous 2).1 = none := by
  obtain ⟨p, hp, hfirst, hcount, hfree⟩ := exists_twoPages
  have hrun : p.freeContiguous 0x40001000 0xFFFFFFFF = (true, p.give [] 1) := by
    rw [freeContiguous, hfirst, hcount]
    rfl
  have hsame : (p.give [] 1).free = {1, 2} := hfree
  refine ⟨p, hp, _, rfl, ?_⟩
  rw [hrun, hsame, allocContiguous_of_lt (p := p.give [] 1) (show 1 < 2 from Nat.one_lt_two)]
  exact ⟨by decide, by decide, rfl⟩

end Pages

end Thumos
