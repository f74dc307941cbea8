import Mathlib.Data.Set.Basic

/-!
# Exclusive ownership

Keys hold items of a pool.  `Exclusive used holds` says that every item that a
key holds is in use and that no other key holds it.  The rules say how the
property survives when a key gets an item, when keys lose items, and when an
item that no key holds goes back to the pool.
-/

namespace Ownership

variable {κ ι : Type*} {used used' : Set ι} {holds holds' : κ → ι → Prop}

/-- Every item that a key holds is in use, and no other key holds it. -/
structure Exclusive (used : Set ι) (holds : κ → ι → Prop) : Prop where
  used : ∀ {k i}, holds k i → i ∈ used
  unique : ∀ {k k' i}, holds k i → holds k' i → k = k'

theorem Exclusive.restrict (h : Exclusive used holds)
    (hsub : ∀ k i, holds' k i → holds k i ∧ i ∈ used') : Exclusive used' holds' where
  used hk := (hsub _ _ hk).2
  unique hk hk' := h.unique (hsub _ _ hk).1 (hsub _ _ hk').1

theorem Exclusive.acquire (h : Exclusive used holds) {k : κ} {i : ι}
    (hfresh : ∀ k', holds k' i → k' = k) (hi : i ∈ used') (hused : used ⊆ used')
    (hsub : ∀ k' j, holds' k' j → holds k' j ∨ k' = k ∧ j = i) : Exclusive used' holds' where
  used hk := by
    rcases hsub _ _ hk with hold | ⟨-, rfl⟩
    · exact hused (h.used hold)
    · exact hi
  unique hk hk' := by
    rcases hsub _ _ hk with hold | ⟨rfl, rfl⟩
    · rcases hsub _ _ hk' with hold' | ⟨rfl, rfl⟩
      · exact h.unique hold hold'
      · exact hfresh _ hold
    · rcases hsub _ _ hk' with hold' | ⟨rfl, -⟩
      · exact (hfresh _ hold').symm
      · rfl

theorem Exclusive.not_holds (h : Exclusive used holds) {i : ι} (hi : i ∉ used) (k : κ) :
    ¬holds k i := fun hk => hi (h.used hk)

end Ownership
