import Mathlib.Init

/-!
# Text as ASCII bytes
-/

namespace Ascii

def ascii (s : String) : List UInt8 := s.toList.map fun c => UInt8.ofNat c.toNat

def lower (b : UInt8) : UInt8 := if 0x41 ≤ b ∧ b ≤ 0x5A then b + 0x20 else b

theorem lower_eq_of_not_letter {b c : UInt8} (hc : c.toNat < 0x61) : lower b = c → b = c := by
  intro h
  rw [lower] at h
  split at h
  · next hb =>
    have h41 := UInt8.le_iff_toNat_le.mp hb.1
    have h5A := UInt8.le_iff_toNat_le.mp hb.2
    have hsum : (b + 0x20).toNat = b.toNat + 32 := by
      rw [UInt8.toNat_add]
      exact Nat.mod_eq_of_lt (Nat.lt_of_le_of_lt (Nat.add_le_add_right h5A _) (by decide))
    rw [h] at hsum
    have : (0x41 : UInt8).toNat = 0x41 := rfl
    omega
  · exact h

def eqIgnoreCase (s t : List UInt8) : Bool := s.map lower == t.map lower

end Ascii
