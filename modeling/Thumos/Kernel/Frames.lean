import Thumos.Kernel.Page

/-!
# Frames by their numbers

The page allocator of the board manages the frames between the end of the
kernel and the window of user images.  Here its entry points are described by
the numbers of the frames, that is by their addresses divided by the size of a
page.
-/

namespace Thumos

/-- The number of the first frame of RAM, `RAM_START / PAGE_SIZE`. -/
abbrev firstFrame : Nat := 0x40000

/-- The number of the frame after RAM, `RAM_END / PAGE_SIZE`. -/
abbrev endFrame : Nat := 0x80000

/-- The frames that `page::init` is given, between `KERNEL_END` and
`USER_TEXT_BASE`. -/
def UsableFrame (n : Nat) : Prop := 0x40200 ≤ n ∧ n < 0x7FF00

theorem UsableFrame.ram {n : Nat} (h : UsableFrame n) : firstFrame ≤ n ∧ n < endFrame := by
  obtain ⟨hlo, hhi⟩ := h
  simp only [firstFrame, endFrame]
  omega

namespace Pages

variable {p p' : Pages} {n k addr : Nat}

def frames (p : Pages) : Set Nat := {n | firstFrame ≤ n ∧ n - firstFrame ∈ p.free}

/-- The allocator of the board: it counts right, and no frame outside the usable
range is free. -/
structure Managed (p : Pages) : Prop where
  base : p.firstPage = ramStart
  counted : p.Counted
  usable : ∀ n ∈ p.frames, UsableFrame n

def run (n k : Nat) : Set Nat := {i | n ≤ i ∧ i < n + k}

theorem mem_run {i : Nat} : i ∈ run n k ↔ n ≤ i ∧ i < n + k := Iff.rfl

theorem add_mem_run {i : Nat} (hi : i < k) : n + i ∈ run n k :=
  ⟨Nat.le_add_right _ _, Nat.add_lt_add_left hi _⟩

theorem last_mem_run (hk : 0 < k) : n + k - 1 ∈ run n k := mem_run.mpr (by omega)

theorem mem_frames : n ∈ p.frames ↔ firstFrame ≤ n ∧ n - firstFrame ∈ p.free := Iff.rfl

theorem frame_eq (h : p.firstPage = ramStart) (hn : n < maxPages) :
    p.frame n = (firstFrame + n) * pageSize := by
  rw [frame, h]
  simp only [maxPages, pageSize, usizeSize, ramStart, firstFrame] at *
  omega

theorem Takes.frames_eq {start : Nat} (h : Takes p p' (rangeFrom start (start + k))) :
    p'.frames = p.frames \ run (firstFrame + start) k := by
  ext n
  rw [Set.mem_sdiff, mem_frames, mem_frames, h.free, Finset.mem_sdiff, List.mem_toFinset,
    mem_rangeFrom, mem_run]
  constructor
  · rintro ⟨hle, hfree, hout⟩
    exact ⟨⟨hle, hfree⟩, by omega⟩
  · rintro ⟨⟨hle, hfree⟩, hout⟩
    exact ⟨hle, hfree, by omega⟩

theorem Gives.frames_eq {start : Nat} (h : Gives p p' (rangeFrom start (start + k))) :
    p'.frames = p.frames ∪ run (firstFrame + start) k := by
  ext n
  rw [Set.mem_union, mem_frames, mem_frames, h.free, Finset.mem_union, List.mem_toFinset,
    mem_rangeFrom, mem_run]
  constructor
  · rintro ⟨hle, hfree | hin⟩
    · exact .inl ⟨hle, hfree⟩
    · exact .inr (by omega)
  · rintro (⟨hle, hfree⟩ | hin)
    · exact ⟨hle, .inl hfree⟩
    · exact ⟨by omega, .inr (by omega)⟩

structure Handed (p p' : Pages) (n k : Nat) : Prop where
  free : ∀ i ∈ run n k, i ∈ p.frames
  managed : p'.Managed
  frames : p'.frames = p.frames \ run n k

theorem Managed.handed (h : p.Managed) {res : Option Nat × Pages} (hres : Allocates p k res)
    (hk : 0 < k) : res = (none, p) ∨ ∃ n p', res = (some (n * pageSize), p') ∧ Handed p p' n k := by
  obtain ⟨addr, p'⟩ := res
  rcases hres with heq | ⟨start, rfl, htakes⟩
  · exact .inl heq
  have hframes := htakes.frames_eq
  have hlt : start < maxPages := free_lt (htakes.clear start (mem_rangeFrom.mpr (by omega)))
  refine .inr ⟨firstFrame + start, p', by rw [frame_eq h.base hlt], ?_, ?_, hframes⟩
  · intro i hi
    rw [mem_run] at hi
    refine ⟨by omega, htakes.clear _ (mem_rangeFrom.mpr (by omega))⟩
  · refine ⟨htakes.firstPage.trans h.base, htakes.counted h.counted, fun i hi => h.usable i ?_⟩
    rw [hframes] at hi
    exact hi.1

theorem Managed.allocPage (h : p.Managed) :
    p.allocPage = (none, p) ∨ ∃ n p', p.allocPage = (some (n * pageSize), p') ∧ Handed p p' n 1 :=
  h.handed p.allocPage_spec (by decide)

theorem Managed.allocContiguous (h : p.Managed) (hk : 0 < k) :
    p.allocContiguous k = (none, p) ∨
      ∃ n p', p.allocContiguous k = (some (n * pageSize), p') ∧ Handed p p' n k :=
  h.handed (p.allocContiguous_spec k) hk

structure Returned (p p' : Pages) (n k : Nat) : Prop where
  ram : ∀ i ∈ run n k, firstFrame ≤ i ∧ i < endFrame
  taken : ∀ i ∈ run n k, i ∉ p.frames
  base : p'.firstPage = ramStart
  counted : p'.Counted
  frames : p'.frames = p.frames ∪ run n k

theorem Returned.managed (h : Returned p p' n k) (hp : p.Managed)
    (husable : ∀ i ∈ run n k, UsableFrame i) : p'.Managed := by
  refine ⟨h.base, h.counted, fun i hi => ?_⟩
  rw [h.frames] at hi
  rcases hi with hi | hi
  · exact hp.usable i hi
  · exact husable i hi

theorem Managed.returned (h : p.Managed) {res : Bool × Pages} (hres : Frees p addr k res) :
    res = (false, p) ∨ ∃ n p', addr = n * pageSize ∧ res = (true, p') ∧ Returned p p' n k := by
  obtain ⟨ok, p'⟩ := res
  rcases hres with heq | ⟨start, haddr, rfl, hgives⟩
  · exact .inl heq
  refine .inr ⟨firstFrame + start, p', ?_, rfl, ?_, ?_, hgives.firstPage.trans h.base,
    hgives.counted h.counted, hgives.frames_eq⟩
  · rw [haddr, h.base]
    simp only [ramStart, pageSize, firstFrame]
    omega
  · intro i hi
    rw [mem_run] at hi
    have hlt := (hgives.taken (i - firstFrame) (mem_rangeFrom.mpr (by omega))).1
    simp only [maxPages, pageSize, firstFrame, endFrame] at *
    omega
  · intro i hi hfree
    rw [mem_run] at hi
    exact (hgives.taken (i - firstFrame) (mem_rangeFrom.mpr (by omega))).2 hfree.2

theorem Managed.tryFreePage (h : p.Managed) (addr : Nat) :
    p.tryFreePage addr = (false, p) ∨
      ∃ n p', addr = n * pageSize ∧ p.tryFreePage addr = (true, p') ∧ Returned p p' n 1 :=
  h.returned (p.tryFreePage_spec addr)

theorem Managed.freeContiguous (h : p.Managed) {addr k : Nat}
    (hk : addr / pageSize + k < usizeSize) :
    p.freeContiguous addr k = (false, p) ∨
      ∃ n p', addr = n * pageSize ∧ p.freeContiguous addr k = (true, p') ∧ Returned p p' n k := by
  refine h.returned (p.freeContiguous_spec ?_)
  refine lt_of_le_of_lt ?_ hk
  exact Nat.add_le_add_right (Nat.div_le_div_right (Nat.sub_le _ _)) k

theorem test_of_not_free {q : Nat} (hq : q < maxPages) (hfree : firstFrame + q ∉ p.frames) :
    WordBitmap.test p.bitmap q = true := by
  by_contra hclear
  refine hfree ⟨Nat.le_add_right _ _, ?_⟩
  rw [Nat.add_sub_cancel_left]
  exact mem_free.mpr ⟨hq, by simpa using hclear⟩

theorem frame_checks (q : Nat) : ¬(firstFrame + q) * pageSize < ramStart ∧
    ((firstFrame + q) * pageSize - ramStart) % pageSize = 0 ∧
    ((firstFrame + q) * pageSize - ramStart) / pageSize = q := by
  simp only [firstFrame, pageSize, ramStart]
  omega

theorem tryFreePage_ok (hbase : p.firstPage = ramStart) (hn : firstFrame ≤ n) (hlt : n < endFrame)
    (hfree : n ∉ p.frames) : (p.tryFreePage (n * pageSize)).1 = true := by
  obtain ⟨q, rfl⟩ := Nat.exists_eq_add_of_le hn
  obtain ⟨hge, halign, hpage⟩ := frame_checks q
  have hq : q < maxPages := by
    simp only [maxPages, pageSize, firstFrame, endFrame] at *
    omega
  have hword : ¬maxPages / 32 ≤ q / 32 := by
    simp only [maxPages, pageSize] at *
    omega
  unfold tryFreePage
  rw [hbase]
  simp only [hge, halign, hpage, hword, test_of_not_free hq hfree, if_false, ne_eq, not_true]
  rfl

theorem freeContiguous_ok (hbase : p.firstPage = ramStart) (hk : 0 < k) (hn : firstFrame ≤ n)
    (hlt : n + k ≤ endFrame) (hfree : ∀ i ∈ run n k, i ∉ p.frames) :
    (p.freeContiguous (n * pageSize) k).1 = true := by
  unfold freeContiguous
  rw [if_neg (by omega)]
  split
  · exact tryFreePage_ok hbase hn (by omega) (hfree n (mem_run.mpr (by omega)))
  obtain ⟨q, rfl⟩ := Nat.exists_eq_add_of_le hn
  obtain ⟨hge, halign, hpage⟩ := frame_checks q
  have hend : (q + k) % usizeSize = q + k := by
    refine Nat.mod_eq_of_lt ?_
    simp only [usizeSize, endFrame, firstFrame] at *
    omega
  have hall : (rangeFrom q (q + k)).all (fun q => decide (q / 32 < maxPages / 32) &&
      WordBitmap.test p.bitmap q) = true := by
    rw [List.all_eq_true]
    intro j hj
    rw [mem_rangeFrom] at hj
    have hlt' : j < maxPages := by
      simp only [maxPages, pageSize, firstFrame, endFrame] at *
      omega
    rw [test_of_not_free hlt' (hfree _ (mem_run.mpr (by omega))), Bool.and_true,
      decide_eq_true_eq]
    simp only [maxPages, pageSize] at *
    omega
  rw [hbase]
  simp only [hge, halign, hpage, hend, hall, if_false, if_true, ne_eq, not_true]

theorem Managed.freeContiguous_run (h : p.Managed) (hk : 0 < k)
    (hn : ∀ i ∈ run n k, UsableFrame i ∧ i ∉ p.frames) :
    ∃ p', p.freeContiguous (n * pageSize) k = (true, p') ∧ Returned p p' n k := by
  have hfirst := (hn n (mem_run.mpr (by omega))).1.ram
  have hlast := (hn (n + k - 1) (last_mem_run hk)).1.ram
  have hok := freeContiguous_ok h.base hk hfirst.1 (by omega) fun i hi => (hn i hi).2
  have hbound : n * pageSize / pageSize + k < usizeSize := by
    rw [Nat.mul_div_cancel _ (by decide)]
    simp only [endFrame, usizeSize] at *
    omega
  rcases h.freeContiguous hbound with heq | ⟨n', p', hn', heq, hr⟩
  · rw [heq] at hok
    cases hok
  · cases Nat.eq_of_mul_eq_mul_right (by decide) hn'
    exact ⟨p', heq, hr⟩

theorem init_managed (h : init ramStart userTextBase kernelEnd = some p) :
    p.Managed ∧ ∀ n, n ∈ p.frames ↔ UsableFrame n := by
  have hrange : RamRange ramStart userTextBase kernelEnd := by
    refine ⟨?_, ?_, ?_⟩ <;> decide
  obtain ⟨hbase, hcounted, hfree⟩ := init_spec hrange h
  have hframes : ∀ n, n ∈ p.frames ↔ UsableFrame n := by
    intro n
    rw [mem_frames, hfree, UsableFrame]
    simp only [usableStart, usableEnd, pageSize, ramStart, userTextBase, kernelEnd, usizeSize,
      firstFrame]
    omega
  exact ⟨⟨hbase, hcounted, fun n hn => (hframes n).mp hn⟩, hframes⟩

end Pages

end Thumos
