import Mathlib.Algebra.BigOperators.Fin
import Mathlib.Algebra.Order.BigOperators.Group.Finset
import Mathlib.Tactic.Abel

/-!
# Tables of optional slots

A kernel table is an array of slots that are free or hold a value.  New values
go to the lowest free slot.  `sum f t` adds up `f` over the occupied slots.
-/

abbrev Slots (n : Nat) (α : Type*) := Fin n → Option α

namespace Slots

open Function

variable {n : Nat} {α M : Type*}

def empty : Slots n α := fun _ => none

@[simp] theorem empty_apply (i : Fin n) : (empty : Slots n α) i = none := rfl

def firstFreeWhere (p : Fin n → Bool) (t : Slots n α) : Option (Fin n) :=
  (List.finRange n).find? fun i => p i && (t i).isNone

def firstFree (t : Slots n α) : Option (Fin n) := firstFreeWhere (fun _ => true) t

def put (t : Slots n α) (i : Fin n) (a : α) : Slots n α := Function.update t i (some a)

def clear (t : Slots n α) (i : Fin n) : Slots n α := Function.update t i none

@[simp] theorem put_self (t : Slots n α) (i : Fin n) (a : α) : t.put i a i = some a :=
  update_self ..

@[simp] theorem clear_self (t : Slots n α) (i : Fin n) : t.clear i i = none :=
  update_self ..

variable {t : Slots n α} {i j : Fin n}

theorem put_of_ne {a : α} (h : j ≠ i) : t.put i a j = t j :=
  update_of_ne h ..

theorem clear_of_ne (h : j ≠ i) : t.clear i j = t j :=
  update_of_ne h ..

theorem put_eq_some {a b : α} :
    t.put i a j = some b ↔ j = i ∧ a = b ∨ j ≠ i ∧ t j = some b := by
  by_cases h : j = i
  · subst h
    simp
  · simp [put_of_ne h, h]

theorem clear_eq_some {b : α} :
    t.clear i j = some b ↔ j ≠ i ∧ t j = some b := by
  by_cases h : j = i
  · subst h
    simp
  · simp [clear_of_ne h, h]

@[simp] theorem put_put (t : Slots n α) (i : Fin n) (a b : α) : (t.put i a).put i b = t.put i b :=
  update_idem ..

theorem put_same {i : Fin n} {a : α} (h : t i = some a) : t.put i a = t := by
  rw [put, ← h, update_eq_self]

theorem free_of_firstFreeWhere {p : Fin n → Bool} {i : Fin n} (h : firstFreeWhere p t = some i) :
    t i = none := by
  have := List.find?_some h
  rw [Bool.and_eq_true, Option.isNone_iff_eq_none] at this
  exact this.2

theorem free_of_firstFree {i : Fin n} (h : t.firstFree = some i) : t i = none :=
  free_of_firstFreeWhere h

def sum [AddCommMonoid M] (f : α → M) (t : Slots n α) : M := ∑ i, (t i).elim 0 f

end Slots
