import Mathlib.Data.List.Zip

/-!
# Comparison without an early exit

All differing bits are collected; nothing was collected exactly if the byte
strings agree.
-/

namespace ConstantTime

open List

def diff (a b : List UInt8) : UInt8 := (a.zip b).foldl (fun acc p => acc ||| (p.1 ^^^ p.2)) 0

theorem foldl_or_eq_zero (l : List (UInt8 × UInt8)) (acc : UInt8) :
    l.foldl (fun acc p => acc ||| (p.1 ^^^ p.2)) acc = 0 ↔ acc = 0 ∧ ∀ p ∈ l, p.1 = p.2 := by
  induction l generalizing acc with
  | nil => simp
  | cons p l ih =>
    rw [foldl_cons, ih, UInt8.or_eq_zero_iff, UInt8.xor_eq_zero_iff, forall_mem_cons,
      and_assoc]

theorem diff_eq_zero {a b : List UInt8} (h : a.length = b.length) : diff a b = 0 ↔ a = b := by
  rw [diff, foldl_or_eq_zero]
  constructor
  · rintro ⟨-, hall⟩
    apply ext_getElem h
    intro i ha hb
    have hmem : (a[i], b[i]) ∈ a.zip b := by
      rw [← getElem_zip (i := i)]
      exact getElem_mem (by rw [length_zip]; omega)
    exact hall _ hmem
  · rintro rfl
    refine ⟨rfl, fun p hp => ?_⟩
    obtain ⟨i, hi, rfl⟩ := mem_iff_getElem.mp hp
    simp

end ConstantTime
