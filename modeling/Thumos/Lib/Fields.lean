import Thumos.Lib.LittleEndian

/-!
# Fields of a byte array of fixed size

`slice` reads a field and `copyAt` writes one.  A field that was written is read
back, and the fields beside it stay what they were.
-/

namespace Fields

open LittleEndian Vector

variable {n : Nat}

def slice (s : Vector UInt8 n) (off len : Nat) : List UInt8 := bytesAt s.toList off len

def overwrite : List UInt8 → Nat → List UInt8 → List UInt8
  | [], _, _ => []
  | b :: bs, 0, [] => b :: bs
  | _ :: bs, 0, x :: src => x :: overwrite bs 0 src
  | b :: bs, off + 1, src => b :: overwrite bs off src

theorem length_overwrite (bs : List UInt8) (off : Nat) (src : List UInt8) :
    (overwrite bs off src).length = bs.length := by
  induction bs, off, src using overwrite.induct with
  | case1 => rfl
  | case2 => rfl
  | case3 _ bs x src ih => rw [overwrite, List.length_cons, ih, List.length_cons]
  | case4 b bs off src ih => rw [overwrite, List.length_cons, ih, List.length_cons]

theorem overwrite_getElem? {bs src : List UInt8} {off i : Nat} (hi : i < bs.length) :
    (overwrite bs off src)[i]? =
      if off ≤ i ∧ i < off + src.length then some (src.getD (i - off) 0) else bs[i]? := by
  induction bs, off, src using overwrite.induct generalizing i with
  | case1 => exact absurd hi (Nat.not_lt_zero i)
  | case2 => rw [overwrite, if_neg (by rw [List.length_nil]; omega)]
  | case3 _ bs x src ih =>
    rw [overwrite]
    cases i with
    | zero => rw [if_pos ⟨le_rfl, Nat.succ_pos _⟩]; rfl
    | succ i =>
      rw [List.length_cons] at hi ⊢
      rw [List.getElem?_cons_succ, ih (by omega), List.getElem?_cons_succ]
      simp only [Nat.zero_le, true_and, Nat.zero_add, Nat.sub_zero, Nat.add_lt_add_iff_right,
        List.getD_cons_succ]
  | case4 b bs off src ih =>
    rw [overwrite]
    cases i with
    | zero => rw [if_neg (by omega)]; rfl
    | succ i =>
      rw [List.length_cons] at hi
      rw [List.getElem?_cons_succ, ih (by omega), List.getElem?_cons_succ, Nat.add_sub_add_right]
      simp only [Nat.succ_eq_add_one, Nat.add_le_add_iff_right,
        Nat.add_right_comm off 1 src.length, Nat.add_lt_add_iff_right]

/-- `s[off..off + src.len()].copy_from_slice(src)`. -/
def copyAt (s : Vector UInt8 n) (off : Nat) (src : List UInt8) : Vector UInt8 n where
  toArray := (overwrite s.toList off src).toArray
  size_toArray := by rw [List.size_toArray, length_overwrite, Vector.length_toList]

variable {s s' : Vector UInt8 n} {off len : Nat} {src : List UInt8}

theorem slice_length (h : off + len ≤ n) : (slice s off len).length = len := by
  simp only [slice, bytesAt, List.length_take, List.length_drop, length_toList]
  omega

theorem slice_getElem? {k : Nat} (hk : k < len) : (slice s off len)[k]? = s[off + k]? := by
  rw [slice, bytesAt_getElem? _ _ _ _ hk, getElem?_toList]

theorem copyAt_getElem? {i : Nat} (hi : i < n) : (copyAt s off src)[i]? =
      if off ≤ i ∧ i < off + src.length then some (src.getD (i - off) 0) else s[i]? := by
  rw [← getElem?_toList, copyAt, toList_mk,
    overwrite_getElem? (by rwa [length_toList]), getElem?_toList]

theorem slice_copyAt_self (h : off + src.length ≤ n) :
    slice (copyAt s off src) off src.length = src := by
  refine List.ext_getElem? fun k => ?_
  by_cases hk : k < src.length
  · rw [slice_getElem? hk, copyAt_getElem? (by omega), if_pos (by omega), Nat.add_sub_cancel_left,
      List.getD_eq_getElem?_getD, List.getElem?_eq_getElem hk]
    rfl
  · rw [List.getElem?_eq_none (by rw [slice_length h]; omega), List.getElem?_eq_none (by omega)]

theorem slice_copyAt_of_disjoint {a : Nat} (h : a + len ≤ n)
    (hd : a + len ≤ off ∨ off + src.length ≤ a) :
    slice (copyAt s off src) a len = slice s a len := by
  refine List.ext_getElem? fun k => ?_
  by_cases hk : k < len
  · rw [slice_getElem? hk, slice_getElem? hk, copyAt_getElem? (by omega), if_neg (by omega)]
  · rw [List.getElem?_eq_none (by rw [slice_length h]; omega),
      List.getElem?_eq_none (by rw [slice_length h]; omega)]

theorem ext_getElem? (h : ∀ i < n, s[i]? = s'[i]?) : s = s' := by
  refine Vector.ext fun i hi => ?_
  have hi' := h i hi
  rwa [getElem?_eq_getElem hi, getElem?_eq_getElem hi, Option.some_inj] at hi'

theorem copyAt_copyAt {src' : List UInt8} (h : src.length = src'.length) :
    copyAt (copyAt s off src) off src' = copyAt s off src' := by
  refine ext_getElem? fun i hi => ?_
  rw [copyAt_getElem? hi, copyAt_getElem? hi, copyAt_getElem? hi]
  split
  · rfl
  · rw [if_neg (by omega)]

theorem eq_of_copyAt_eq (h : copyAt s off src = copyAt s' off src)
    (hslice : slice s off src.length = slice s' off src.length) : s = s' := by
  refine ext_getElem? fun i hi => ?_
  by_cases hin : off ≤ i ∧ i < off + src.length
  · have hk : i - off < src.length := by omega
    have hfield : (slice s off src.length)[i - off]? = (slice s' off src.length)[i - off]? := by
      rw [hslice]
    rwa [slice_getElem? hk, slice_getElem? hk, Nat.add_sub_cancel' hin.1] at hfield
  · have hcopy : (copyAt s off src)[i]? = (copyAt s' off src)[i]? := by rw [h]
    rwa [copyAt_getElem? hi, copyAt_getElem? hi, if_neg hin, if_neg hin] at hcopy

end Fields
