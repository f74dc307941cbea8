import Mathlib.Order.Interval.Finset.Nat

/-!
# Bitmaps packed in machine words

A bitmap is a list of `w`-bit words, and bit `i` is bit `i % w` of word
`i / w`.  `zeros` is the set of the clear bits: setting a bit takes it out of
the set and clearing one puts it back, so the number of clear bits follows
from facts about finite sets.

`findRun` is the first-fit scan for `n` clear bits in a row.  It works word by
word and passes over the words that are full.
-/

namespace WordBitmap

open List

variable {w : Nat} (bm : List (BitVec w))

/-- Bit `i` of the bitmap.  Past the last word every bit is clear. -/
def test (i : Nat) : Bool := (bm.getD (i / w) 0).getLsbD (i % w)

def set (i : Nat) : List (BitVec w) :=
  bm.modify (i / w) fun word => word ||| BitVec.twoPow w (i % w)

def clear (i : Nat) : List (BitVec w) :=
  bm.modify (i / w) fun word => word &&& ~~~BitVec.twoPow w (i % w)

def zeros : Finset Nat := (Finset.range (w * bm.length)).filter fun i => test bm i = false

@[simp] theorem length_set (i : Nat) : (set bm i).length = bm.length := by
  simp [set]

@[simp] theorem length_clear (i : Nat) : (clear bm i).length = bm.length := by
  simp [clear]

variable {bm}

variable {i j : Nat} {word : BitVec w} {st : Nat × Nat}

theorem mem_zeros : i ∈ zeros bm ↔ i < w * bm.length ∧ test bm i = false := by
  simp [zeros]

theorem bit_lt (h : i < w * bm.length) : i % w < w := by
  apply Nat.mod_lt
  rcases Nat.eq_zero_or_pos w with rfl | hw
  · omega
  · exact hw

/-- An update of one word, seen at a bit of that word and at the others. -/
theorem test_modify (f : BitVec w → BitVec w) (h : i < w * bm.length) :
    test (bm.modify (i / w) f) j =
      if i / w = j / w then (f (bm.getD (j / w) 0)).getLsbD (j % w) else test bm j := by
  have hlt := Nat.div_lt_of_lt_mul h
  unfold test
  by_cases hw : i / w = j / w
  · rw [if_pos hw, hw, getD_eq_getElem?_getD, getElem?_modify_eq,
      getD_eq_getElem?_getD]
    rw [hw] at hlt
    simp [hlt]
  · rw [if_neg hw, getD_eq_getElem?_getD, getElem?_modify_ne _ _ hw,
      getD_eq_getElem?_getD]

theorem test_set (h : i < w * bm.length) :
    test (set bm i) j = (decide (i = j) || test bm j) := by
  rw [set, test_modify _ h]
  have hbit := bit_lt h
  by_cases hw : i / w = j / w
  · rw [if_pos hw, BitVec.getLsbD_or, BitVec.getLsbD_twoPow, Bool.or_comm]
    have hij : (i % w = j % w) = (i = j) := propext ⟨Nat.ext_div_mod hw, fun he => by rw [he]⟩
    simp [hbit, hij, test]
  · have hij : i ≠ j := fun he => hw (by rw [he])
    simp [hw, hij]

theorem test_clear (h : i < w * bm.length) :
    test (clear bm i) j = (!decide (i = j) && test bm j) := by
  rw [clear, test_modify _ h]
  have hbit := bit_lt h
  by_cases hw : i / w = j / w
  · rw [if_pos hw, BitVec.getLsbD_and, BitVec.getLsbD_not, BitVec.getLsbD_twoPow, Bool.and_comm]
    have hij : (i % w = j % w) = (i = j) := propext ⟨Nat.ext_div_mod hw, fun he => by rw [he]⟩
    have hj : j % w < w := Nat.mod_lt _ (by omega)
    simp [hbit, hij, hj, test]
  · have hij : i ≠ j := fun he => hw (by rw [he])
    simp [hw, hij]

theorem zeros_set (h : i < w * bm.length) : zeros (set bm i) = (zeros bm).erase i := by
  ext j
  simp only [mem_zeros, Finset.mem_erase, length_set, test_set h]
  by_cases hij : i = j
  · simp [hij]
  · simp [hij, Ne.symm hij]

theorem zeros_clear (h : i < w * bm.length) :
    zeros (clear bm i) = insert i (zeros bm) := by
  ext j
  simp only [mem_zeros, Finset.mem_insert, length_clear, test_clear h]
  by_cases hij : i = j
  · simp [← hij, h]
  · simp [hij, Ne.symm hij]

/-! ## Several bits at once -/

@[simp] theorem length_foldl_set (l : List Nat) : (l.foldl set bm).length = bm.length := by
  induction l generalizing bm with
  | nil => rfl
  | cons i l ih => rw [foldl_cons, ih, length_set]

@[simp] theorem length_foldl_clear (l : List Nat) : (l.foldl clear bm).length = bm.length := by
  induction l generalizing bm with
  | nil => rfl
  | cons i l ih => rw [foldl_cons, ih, length_clear]

theorem zeros_foldl_set {l : List Nat} (h : ∀ i ∈ l, i < w * bm.length) :
    zeros (l.foldl set bm) = zeros bm \ l.toFinset := by
  induction l generalizing bm with
  | nil => simp
  | cons i l ih =>
    have hi := h i mem_cons_self
    rw [foldl_cons, ih (by simpa using fun j hj => h j (mem_cons_of_mem _ hj)),
      zeros_set hi, toFinset_cons]
    ext j
    simp only [Finset.mem_sdiff, Finset.mem_erase, Finset.mem_insert]
    tauto

theorem zeros_foldl_clear {l : List Nat} (h : ∀ i ∈ l, i < w * bm.length) :
    zeros (l.foldl clear bm) = zeros bm ∪ l.toFinset := by
  induction l generalizing bm with
  | nil => simp
  | cons i l ih =>
    have hi := h i mem_cons_self
    rw [foldl_cons, ih (by simpa using fun j hj => h j (mem_cons_of_mem _ hj)),
      zeros_clear hi, toFinset_cons]
    ext j
    simp only [Finset.mem_union, Finset.mem_insert]
    tauto

theorem zeros_replicate_allOnes (n : Nat) : zeros (replicate n (BitVec.allOnes w)) = ∅ := by
  ext i
  simp only [mem_zeros, length_replicate, Finset.notMem_empty, iff_false, not_and]
  intro hi
  have hword : i / w < n := Nat.div_lt_of_lt_mul hi
  have hlen : i < w * (replicate n (BitVec.allOnes w)).length := by simpa using hi
  have hbit : i % w < w := bit_lt hlen
  have hget : (replicate n (BitVec.allOnes w)).getD (i / w) 0 = BitVec.allOnes w := by
    rw [getD_eq_getElem?_getD, getElem?_replicate, if_pos hword]
    rfl
  rw [test, hget, BitVec.getLsbD_allOnes, decide_eq_true hbit]
  exact Bool.false_ne_true ∘ Eq.symm

theorem mem_zeros_word {k bit : Nat} (hk : k < bm.length) (hbit : bit < w) :
    k * w + bit ∈ zeros bm ↔ (bm.getD k 0).getLsbD bit = false := by
  have hw : 0 < w := by omega
  have hdiv : (k * w + bit) / w = k := by
    rw [Nat.mul_comm, Nat.mul_add_div hw, Nat.div_eq_of_lt hbit, Nat.add_zero]
  have hmod : (k * w + bit) % w = bit := by
    rw [Nat.mul_comm, Nat.mul_add_mod, Nat.mod_eq_of_lt hbit]
  have hlt : k * w + bit < w * bm.length :=
    calc k * w + bit < k * w + w := by omega
      _ = w * (k + 1) := by rw [Nat.mul_add, Nat.mul_comm k w, Nat.mul_one]
      _ ≤ w * bm.length := Nat.mul_le_mul_left w hk
  rw [mem_zeros, test, hdiv, hmod]
  exact and_iff_right hlt

def ClearRun (bm : List (BitVec w)) (n start : Nat) : Prop :=
  ∀ j, start ≤ j → j < start + n → j ∈ zeros bm

/-- What a first-fit search for `n` clear bits in a row has to answer. -/
def FirstFit (bm : List (BitVec w)) (n : Nat) : Option Nat → Prop
  | some start => IsLeast {s | ClearRun bm n s} start
  | none => ∀ s, ¬ClearRun bm n s

theorem FirstFit.eq_some {n start : Nat} {found : Option Nat} (h : FirstFit bm n found)
    (hleast : IsLeast {s | ClearRun bm n s} start) : found = some start := by
  cases found with
  | none => exact absurd hleast.1 (h start)
  | some s => rw [IsLeast.unique h hleast]

/-! ## The lowest clear bit -/

/-- The number of set bits below the lowest clear bit of a word. -/
def trailingOnes (word : BitVec w) : Nat := (List.range w).findIdx fun i => !word.getLsbD i

/-- A word that is not full has a clear bit, and `trailingOnes` names the lowest. -/
theorem trailingOnes_spec (h : word ≠ BitVec.allOnes w) :
    trailingOnes word < w ∧ word.getLsbD (trailingOnes word) = false ∧
      ∀ i < trailingOnes word, word.getLsbD i = true := by
  have hex : ∃ i ∈ range w, (!word.getLsbD i) = true := by
    by_contra hno
    refine h (BitVec.eq_of_getLsbD_eq fun i hi => ?_)
    have hset : word.getLsbD i = true := by
      cases hb : word.getLsbD i with
      | true => rfl
      | false => exact absurd ⟨i, mem_range.mpr hi, by rw [hb]; rfl⟩ hno
    rw [hset, BitVec.getLsbD_allOnes, decide_eq_true hi]
  have hlt := findIdx_lt_length_of_exists hex
  have hget := findIdx_getElem (w := hlt)
  rw [getElem_range] at hget
  rw [length_range] at hlt
  refine ⟨hlt, by simpa [trailingOnes] using hget, fun i hi => ?_⟩
  simpa using not_of_lt_findIdx hi

/-- The first word that is not full, and its lowest clear bit as a bit of the
bitmap. -/
def firstClear (bm : List (BitVec w)) : Option Nat :=
  (bm.findIdx? fun word => word != BitVec.allOnes w).map fun k =>
    k * w + trailingOnes (bm.getD k 0)

theorem firstClear_spec (hw : 0 < w) : FirstFit bm 1 (firstClear bm) := by
  have hgetD : ∀ k (hk : k < bm.length), bm.getD k 0 = bm[k] := fun k hk => by
    rw [getD_eq_getElem?_getD, getElem?_eq_getElem hk, Option.getD_some]
  -- the words before `k` are full
  have hfull : ∀ k s, (∀ i (hi : i < bm.length), i < k → bm[i] = BitVec.allOnes w) →
      s / w < k → ¬ClearRun bm 1 s := by
    intro k s hbefore hs hrun
    obtain ⟨hlt, hclear⟩ := mem_zeros.mp (hrun s le_rfl (Nat.lt_succ_self s))
    have hword := Nat.div_lt_of_lt_mul hlt
    rw [test, hgetD _ hword, hbefore _ hword hs, BitVec.getLsbD_allOnes,
      decide_eq_true (bit_lt hlt)] at hclear
    cases hclear
  rw [firstClear]
  cases hk : bm.findIdx? fun word => word != BitVec.allOnes w with
  | none =>
    intro s hrun
    have hin := Nat.div_lt_of_lt_mul (mem_zeros.mp (hrun s le_rfl (Nat.lt_succ_self s))).1
    refine hfull bm.length s (fun i hi _ => ?_) hin hrun
    simpa using findIdx?_eq_none_iff.mp hk _ (getElem_mem hi)
  | some k =>
    obtain ⟨hlt, hword, hbefore⟩ := findIdx?_eq_some_iff_getElem.mp hk
    have hne : bm.getD k 0 ≠ BitVec.allOnes w := by
      rw [hgetD k hlt]
      simpa using hword
    obtain ⟨hbit, hclear, hset⟩ := trailingOnes_spec hne
    constructor
    · intro j hj hlast
      rw [le_antisymm (Nat.le_of_lt_succ hlast) hj]
      exact (mem_zeros_word hlt hbit).mpr hclear
    · intro s hrun
      by_contra hbelow
      by_cases hs : s / w < k
      · exact hfull k s (fun i hi hik => by simpa using hbefore i hik) hs hrun
      -- a lower bit of the word `k` is set
      obtain ⟨bit, rfl⟩ := Nat.exists_eq_add_of_le ((Nat.le_div_iff_mul_le hw).mp (not_lt.mp hs))
      have hlow : bit < trailingOnes (bm.getD k 0) :=
        Nat.lt_of_add_lt_add_left (not_le.mp hbelow)
      have hmem := hrun _ le_rfl (Nat.lt_succ_self _)
      rw [mem_zeros_word hlt (by omega), hset bit hlow] at hmem
      cases hmem

/-! ## The first-fit scan

The state of the scan is the length of the run of clear bits that ends here
and the bit where that run begins.  The scan leaves with `error start` as soon
as a run is long enough. -/

def scanBit (n : Nat) (word : BitVec w) (k : Nat) (st : Nat × Nat) (bit : Nat) :
    Except Nat (Nat × Nat) :=
  if word.getLsbD bit then .ok (0, st.2)
  else
    let start := if st.1 = 0 then k * w + bit else st.2
    if st.1 + 1 = n then .error start else .ok (st.1 + 1, start)

/-- The scan over one word.  A full word ends the run, and its bits are not
looked at. -/
def scanWord (n : Nat) (st : Nat × Nat) (word : BitVec w × Nat) : Except Nat (Nat × Nat) :=
  if word.1 = BitVec.allOnes w then .ok (0, st.2)
  else (List.range w).foldlM (scanBit n word.1 word.2) st

def findRun (n : Nat) (bm : List (BitVec w)) : Option Nat :=
  match bm.zipIdx.foldlM (scanWord n) (0, 0) with
  | .error start => some start
  | .ok _ => none

/-- The state of the scan before bit `i`: its run ends right before `i`, its bits are clear,
and it is too short.  A run of `n` clear bits starts at the first bit of that run or after it. -/
structure RunAt (bm : List (BitVec w)) (n i : Nat) (st : Nat × Nat) : Prop where
  short : st.1 < n
  ends : st.1 ≠ 0 → st.2 + st.1 = i
  clear : st.1 ≠ 0 → ∀ j, st.2 ≤ j → j < i → j ∈ zeros bm
  least : ∀ start, ClearRun bm n start → i ≤ start + st.1

/-- What a scan may answer: a state that describes the run before bit `i`, or
the start of the first run of `n` clear bits. -/
def ScanAt (bm : List (BitVec w)) (n i : Nat) : Except Nat (Nat × Nat) → Prop
  | .ok st => RunAt bm n i st
  | .error start => FirstFit bm n (some start)

/-- A bit that is not clear, in or right after the run of the state, ends that run. -/
theorem RunAt.passed {n i i' : Nat} (h : RunAt bm n i st) (hi : i < i')
    (hset : ∀ j, i ≤ j → j < i' → j ∉ zeros bm) (start : Nat) : RunAt bm n i' (0, start) where
  short := Nat.zero_lt_of_lt h.short
  ends := absurd rfl
  clear := absurd rfl
  least s hs := by
    have hfrom := h.least s hs
    have hshort := h.short
    by_contra hlt
    exact hset (max s i) (by omega) (by omega) (hs _ (by omega) (by omega))

section

variable {n k m : Nat} (hk : k < bm.length) (hword : bm.getD k 0 = word)

include hk hword

theorem scanBit_spec (hbit : m < w) (hrun : RunAt bm n (k * w + m) st) :
    ScanAt bm n (k * w + m + 1) (scanBit n word k st m) := by
  have hmem := mem_zeros_word hk hbit
  rw [hword] at hmem
  unfold scanBit
  split
  · rename_i hset
    refine hrun.passed (by omega) (fun j hj hlt hclear => ?_) _
    rw [le_antisymm (Nat.le_of_lt_succ hlt) hj, hmem, hset] at hclear
    cases hclear
  rename_i hset
  -- The run with this bit added, whether it starts here or before.
  have hnext : ∀ j, (if st.1 = 0 then k * w + m else st.2) ≤ j → j < k * w + m + 1 →
      j ∈ zeros bm := by
    intro j hj hlt
    rcases lt_or_ge j (k * w + m) with hold | hnew
    · split at hj
      · omega
      · rename_i hne
        exact hrun.clear hne j hj hold
    · rw [le_antisymm (Nat.le_of_lt_succ hlt) hnew]
      exact hmem.mpr (by simpa using hset)
  have hlen : (if st.1 = 0 then k * w + m else st.2) + (st.1 + 1) = k * w + m + 1 := by
    split
    · rename_i hz
      omega
    · rename_i hne
      have := hrun.ends hne
      omega
  have hshort := hrun.short
  dsimp only
  split
  · rename_i hn
    refine ⟨fun j hj hlt => hnext j hj (by omega), fun s hs => ?_⟩
    have := hrun.least s hs
    omega
  · refine ⟨by omega, fun _ => hlen, fun _ => hnext, fun s hs => ?_⟩
    have := hrun.least s hs
    omega

theorem scanBits_spec (hm : m ≤ w) (hrun : RunAt bm n (k * w) st) :
    ScanAt bm n (k * w + m) ((range m).foldlM (scanBit n word k) st) := by
  induction m with
  | zero => exact hrun
  | succ m ih =>
    have hprev := ih (by omega)
    rw [range_succ, foldlM_append]
    cases hres : (range m).foldlM (scanBit n word k) st with
    | error start =>
      rw [hres] at hprev
      exact hprev
    | ok st' =>
      rw [hres] at hprev
      have hlast := scanBit_spec hk hword (show m < w by omega) hprev
      show ScanAt bm n (k * w + m + 1) (foldlM (scanBit n word k) st' [m])
      rw [foldlM_cons]
      cases hb : scanBit n word k st' m with
      | error start =>
        rw [hb] at hlast
        exact hlast
      | ok st'' =>
        rw [hb] at hlast
        exact hlast

theorem scanWord_spec (hw : 0 < w) (hrun : RunAt bm n (k * w) st) :
    ScanAt bm n ((k + 1) * w) (scanWord n st (word, k)) := by
  unfold scanWord
  rw [Nat.add_mul, one_mul]
  split
  · rename_i hfull
    refine hrun.passed (by omega) (fun j hj hlt hclear => ?_) _
    obtain ⟨bit, rfl⟩ := Nat.exists_eq_add_of_le hj
    have hbit : bit < w := by omega
    rw [mem_zeros_word hk hbit, hword, show word = _ from hfull, BitVec.getLsbD_allOnes,
      decide_eq_true hbit] at hclear
    cases hclear
  · exact scanBits_spec hk hword le_rfl hrun

end

theorem scanWords_spec (hw : 0 < w) {n k : Nat} {rest : List (BitVec w)} (hrest : bm.drop k = rest)
    (hk : k ≤ bm.length) (hrun : RunAt bm n (k * w) st) :
    ScanAt bm n (bm.length * w) ((rest.zipIdx k).foldlM (scanWord n) st) := by
  induction rest generalizing k st with
  | nil =>
    have hlen : bm.length = k := by
      have := drop_eq_nil_iff.mp hrest
      omega
    rw [hlen]
    exact hrun
  | cons word rest ih =>
    have hlt : k < bm.length := by
      by_contra hge
      rw [drop_eq_nil_of_le (by omega)] at hrest
      cases hrest
    rw [drop_eq_getElem_cons hlt, cons.injEq] at hrest
    have hword : bm.getD k 0 = word := by
      rw [getD_eq_getElem?_getD, getElem?_eq_getElem hlt]
      exact hrest.1
    have hstep := scanWord_spec hlt hword hw hrun
    rw [zipIdx_cons, foldlM_cons]
    cases hres : scanWord n st (word, k) with
    | error start =>
      rw [hres] at hstep
      exact hstep
    | ok st' =>
      rw [hres] at hstep
      exact ih hrest.2 hlt hstep

/-- The scan finds the first run of `n` clear bits, or there is none. -/
theorem findRun_spec (hw : 0 < w) {n : Nat} (hn : 0 < n) : FirstFit bm n (findRun n bm) := by
  have hspec : ScanAt bm n (bm.length * w) ((bm.zipIdx 0).foldlM (scanWord n) (0, 0)) :=
    scanWords_spec hw drop_zero (Nat.zero_le _) ⟨hn, absurd rfl, absurd rfl, fun s _ => by omega⟩
  rw [findRun]
  cases hres : bm.zipIdx.foldlM (scanWord n) (0, 0) with
  | error start =>
    rw [hres] at hspec
    exact hspec
  | ok st =>
    rw [hres] at hspec
    intro s hs
    -- the last bit of the run would lie past the bitmap
    have hfrom := hspec.least s hs
    have hshort := hspec.short
    have hin := (mem_zeros.mp (hs (s + n - 1) (by omega) (by omega))).1
    rw [Nat.mul_comm] at hin
    omega

end WordBitmap
