import Mathlib.Algebra.Group.Int.Defs
import Mathlib.Algebra.Group.Nat.Defs

/-!
# What the security modules share

The saturating `u64` arithmetic, the security modes, the sleep tiers, and the
part of the `KeyManager` that holds the derived keys.
-/

namespace Thumos

def saturatingAdd (a b : Nat) : Nat := min (a + b) (2 ^ 64 - 1)

theorem saturatingAdd_of_lt {a b : Nat} (h : a + b < 2 ^ 64) : saturatingAdd a b = a + b := by
  unfold saturatingAdd
  omega

inductive SecurityMode where
  | daily
  | sentinel
  | panic
  deriving DecidableEq, Repr

/-- `Short` keeps the keys in memory, `Long` drops them. -/
inductive SleepTier where
  | short
  | long
  deriving DecidableEq, Repr

abbrev KeyBytes (n : Nat) := Vector UInt8 n

/-- The keys that were derived from the primary key, if there are any. -/
structure KeyManager where
  primaryKeyDerived : Bool
  dataKey : Option (KeyBytes 64)
  auditKey : Option (KeyBytes 32)
  csprngKey : Option (KeyBytes 32)
  sessionKey : Option (KeyBytes 32)
  sleepTier : SleepTier

namespace KeyManager

def new : KeyManager where
  primaryKeyDerived := false
  dataKey := none
  auditKey := none
  csprngKey := none
  sessionKey := none
  sleepTier := .long

def zeroizeAll (_ : KeyManager) : KeyManager where
  primaryKeyDerived := false
  dataKey := none
  auditKey := none
  csprngKey := none
  sessionKey := none
  sleepTier := .long

def setSleepTier (k : KeyManager) (tier : SleepTier) : KeyManager :=
  let k := if tier = .long then k.zeroizeAll else k
  { k with sleepTier := tier }

structure Zeroized (k : KeyManager) : Prop where
  underived : k.primaryKeyDerived = false
  dataKey : k.dataKey = none
  auditKey : k.auditKey = none
  csprngKey : k.csprngKey = none
  sessionKey : k.sessionKey = none

theorem zeroized_setSleepTier_long (k : KeyManager) : (k.setSleepTier .long).Zeroized :=
  ⟨rfl, rfl, rfl, rfl, rfl⟩

end KeyManager

end Thumos
