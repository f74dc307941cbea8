import Mathlib.Data.Nat.Digits.Lemmas

/-!
# Numbers as decimal digits

`digits` writes a number without leading zeros and `read` reads digits, with
leading zeros or not; what was written is read back.
-/

namespace Decimal

open List Nat

def digit (d : Nat) : UInt8 := UInt8.ofNat (48 + d)

def digitValue (b : UInt8) : Option Nat :=
  if 48 ≤ b ∧ b ≤ 57 then some (b.toNat - 48) else none

def digits (n : Nat) : List UInt8 :=
  if n = 0 then [48] else ((Nat.digits 10 n).map digit).reverse

def readFrom : List UInt8 → Nat → Option Nat
  | [], n => some n
  | b :: bs, n =>
    match digitValue b with
    | none => none
    | some d => readFrom bs (n * 10 + d)

def read (bs : List UInt8) : Option Nat := if bs.isEmpty then none else readFrom bs 0

theorem toNat_digit {d : Nat} (h : d < 10) : (digit d).toNat = 48 + d := by
  rw [digit, UInt8.toNat_ofNat']
  omega

theorem digitValue_digit {d : Nat} (h : d < 10) : digitValue (digit d) = some d := by
  have h48 : (48 : UInt8) ≤ digit d := by
    rw [UInt8.le_iff_toNat_le, toNat_digit h]
    exact Nat.le_add_right _ _
  have h57 : digit d ≤ (57 : UInt8) := by
    rw [UInt8.le_iff_toNat_le, toNat_digit h]
    exact Nat.add_le_add_left (Nat.le_of_lt_succ h) 48
  rw [digitValue, if_pos ⟨h48, h57⟩, toNat_digit h, Nat.add_sub_cancel_left]

theorem readFrom_append (bs bs' : List UInt8) (n : Nat) :
    readFrom (bs ++ bs') n = (readFrom bs n).bind (readFrom bs') := by
  induction bs generalizing n with
  | nil => rfl
  | cons b bs ih =>
    rw [cons_append, readFrom, readFrom]
    cases digitValue b with
    | none => rfl
    | some d => exact ih _

theorem readFrom_digits {ds : List Nat} (h : ∀ d ∈ ds, d < 10) :
    readFrom (ds.map digit).reverse 0 = some (ofDigits 10 ds) := by
  induction ds with
  | nil => rfl
  | cons d ds ih =>
    have hd := h d (by simp)
    rw [map_cons, reverse_cons, readFrom_append,
      ih fun d' hd' => h d' (by simp [hd']), Option.bind_some, readFrom, digitValue_digit hd,
      ofDigits_cons]
    simp only [readFrom, Option.some.injEq]
    omega

theorem digits_ne_nil (n : Nat) : digits n ≠ [] := by
  rw [digits]
  split
  · simp
  · next hn => simpa [digits_ne_nil_iff_ne_zero] using hn

@[simp] theorem read_digits (n : Nat) : read (digits n) = some n := by
  rw [read, if_neg (by simpa using digits_ne_nil n), digits]
  split
  · next hn =>
    rw [hn]
    rfl
  · rw [readFrom_digits fun d hd => digits_lt_base (by decide) hd, ofDigits_digits]

theorem exists_of_mem_digits {n : Nat} {b : UInt8} (h : b ∈ digits n) : ∃ d < 10, b = digit d := by
  rw [digits] at h
  split at h
  · exact ⟨0, by decide, mem_singleton.mp h⟩
  · obtain ⟨d, hd, rfl⟩ := mem_map.mp (mem_reverse.mp h)
    exact ⟨d, digits_lt_base (by decide) hd, rfl⟩

end Decimal
