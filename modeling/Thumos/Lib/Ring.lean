import Mathlib.Algebra.Group.Fin.Basic
import Mathlib.Algebra.GroupWithZero.Nat

/-!
# Ring buffers

A ring of `n` cells is written at one place after the other, and starts again at
the first cell when it comes to the end.  `Holds cells head count xs` says that
the ring is what a writer of `xs` leaves behind: the next place to write is
`head`, and `count` cells hold the last elements of `xs`.

`window cells start m` reads `m` cells from `start` on, around the end.  A ring
that is handed out as slices of the array is such a window
(`window_eq_slice`, `window_eq_slices`).

`queue cells start m` is the queue of the `m` cells from `start` on, for a ring
that is read at one place and written `m` cells further on.
-/

namespace Ring

open Function

variable {α : Type} {n : Nat} [NeZero n]

def window (cells : Vector α n) (start m : Nat) : List α :=
  (List.range m).map fun i => cells.get (Fin.ofNat n (start + i))

@[simp]
theorem length_window (cells : Vector α n) (start m : Nat) : (window cells start m).length = m := by
  simp [window]

theorem getElem?_window (cells : Vector α n) (start : Nat) {m i : Nat} (hi : i < m) :
    (window cells start m)[i]? = cells[(start + i) % n]? := by
  have hmod : (start + i) % n < n := Nat.mod_lt _ (Nat.pos_of_neZero n)
  rw [window, List.getElem?_map, List.getElem?_range hi, Vector.getElem?_eq_getElem hmod]
  rfl

def next (i : Fin n) : Fin n := Fin.ofNat n (i + 1)

structure Holds (cells : Vector α n) (head : Fin n) (count : Nat) (xs : List α) : Prop where
  head : head.val = xs.length % n
  count : count = min xs.length n
  cells : ∀ i, i < xs.length → xs.length ≤ i + n → cells[i % n]? = xs[i]?

variable {cells : Vector α n} {head : Fin n} {count : Nat} {xs : List α}

theorem holds_nil (cells : Vector α n) : Holds cells 0 0 [] :=
  ⟨rfl, rfl, fun _ hi => absurd hi (Nat.not_lt_zero _)⟩

theorem Holds.push (h : Holds cells head count xs) (x : α) :
    Holds (cells.set head x) (next head) (if count < n then count + 1 else count) (xs ++ [x]) := by
  have hpos := Nat.pos_of_neZero n
  have hhead := h.head
  refine ⟨?_, ?_, ?_⟩
  · show (head.val + 1) % n = (xs ++ [x]).length % n
    rw [List.length_append, List.length_singleton, hhead, Nat.mod_add_mod]
  · have hcount := h.count
    rw [List.length_append, List.length_singleton]
    split <;> omega
  · intro i hi hlast
    rw [List.length_append, List.length_singleton] at hi hlast
    by_cases hnew : i = xs.length
    · subst hnew
      have hmod : xs.length % n < n := Nat.mod_lt _ hpos
      have hat : xs.length % n = head.val := hhead.symm
      rw [List.getElem?_append_right le_rfl, Nat.sub_self, List.getElem?_cons_zero, hat,
        Vector.getElem?_eq_getElem head.isLt, Vector.getElem_set_self]
    · -- less than one turn of the ring lies between `i` and the head
      have hne : i % n ≠ head.val := by
        intro hc
        rw [hhead] at hc
        have hsub := Nat.sub_mod_eq_zero_of_mod_eq hc.symm
        obtain ⟨k, hk⟩ := Nat.dvd_of_mod_eq_zero hsub
        have hk0 : k = 0 := by
          refine Nat.eq_zero_of_not_pos fun hk' => ?_
          have := Nat.le_mul_of_pos_right n hk'
          omega
        rw [hk0] at hk
        omega
      rw [List.getElem?_append_left (by omega), ← h.cells i (by omega) (by omega)]
      have hmod : i % n < n := Nat.mod_lt _ hpos
      rw [Vector.getElem?_eq_getElem hmod, Vector.getElem?_eq_getElem hmod,
        Vector.getElem_set_ne _ _ (Ne.symm hne)]

theorem Holds.window {m start : Nat} (h : Holds cells head count xs) (hm : m ≤ count)
    (hstart : start % n = (xs.length - m) % n) :
    window cells start m = xs.drop (xs.length - m) := by
  have hcount := h.count
  refine List.ext_getElem? fun i => ?_
  by_cases hi : i < m
  · have hmod : (start + i) % n = (xs.length - m + i) % n := by
      rw [Nat.add_mod, hstart, ← Nat.add_mod]
    rw [getElem?_window cells start hi, hmod, h.cells _ (by omega) (by omega), List.getElem?_drop]
  · rw [List.getElem?_eq_none (by rw [length_window]; omega),
      List.getElem?_eq_none (by rw [List.length_drop]; omega)]

theorem window_eq_slice (cells : Vector α n) {start m : Nat} (h : start + m ≤ n) :
    window cells start m = (cells.toList.drop start).take m := by
  refine List.ext_getElem? fun i => ?_
  by_cases hi : i < m
  · rw [getElem?_window cells start hi, Nat.mod_eq_of_lt (by omega), List.getElem?_take_of_lt hi,
      List.getElem?_drop, Vector.getElem?_toList]
  · rw [List.getElem?_eq_none (by rw [length_window]; omega),
      List.getElem?_eq_none (by rw [List.length_take]; omega)]

theorem window_eq_slices (cells : Vector α n) {start stop m : Nat} (hstart : start < n)
    (hstop : stop ≤ n) (h : start + m = n + stop) :
    window cells start m = cells.toList.drop start ++ cells.toList.take stop := by
  have hlen : (cells.toList.drop start).length = n - start := by simp
  refine List.ext_getElem? fun i => ?_
  by_cases hi : i < m
  · rw [getElem?_window cells start hi]
    by_cases hwrap : start + i < n
    · rw [List.getElem?_append_left (by omega), Nat.mod_eq_of_lt hwrap, List.getElem?_drop,
        Vector.getElem?_toList]
    rw [List.getElem?_append_right (by omega), hlen, Nat.mod_eq_sub_mod (by omega),
      Nat.mod_eq_of_lt (by omega), List.getElem?_take_of_lt (by omega), Vector.getElem?_toList]
    congr 1
    omega
  · rw [List.getElem?_eq_none (by rw [length_window]; omega),
      List.getElem?_eq_none (by rw [List.length_append, hlen, List.length_take]; omega)]

/-! ## Queues -/

open List

def queue (cells : Fin n → α) (start : Fin n) (m : Nat) : List α :=
  (List.range m).map fun i => cells (start + Fin.ofNat n i)

theorem add_ofNat_add (start : Fin n) (i j : Nat) :
    start + Fin.ofNat n (i + j) = start + Fin.ofNat n i + Fin.ofNat n j := by
  apply Fin.ext
  simp [Fin.val_add, add_assoc]

theorem queue_push (cells : Fin n → α) (start : Fin n) {m : Nat} (hm : m < n) (x : α) :
    queue (update cells (start + Fin.ofNat n m) x) start (m + 1) =
      queue cells start m ++ [x] := by
  rw [queue, range_succ, map_append, map_singleton, update_self, queue]
  congr 1
  refine map_congr_left fun i hi => update_of_ne ?_ ..
  intro heq
  have hlt := mem_range.mp hi
  have hval := congrArg Fin.val (add_left_cancel heq)
  rw [Fin.val_ofNat, Fin.val_ofNat, Nat.mod_eq_of_lt (by omega), Nat.mod_eq_of_lt hm] at hval
  omega

theorem queue_update_head (cells : Fin n → α) (start : Fin n) {m : Nat} (hm : m < n) (x : α) :
    queue (update cells start x) (start + Fin.ofNat n 1) m =
      queue cells (start + Fin.ofNat n 1) m := by
  refine map_congr_left fun i hi => update_of_ne ?_ ..
  rw [← add_ofNat_add]
  intro heq
  have hlt := mem_range.mp hi
  have hval := congrArg Fin.val (add_eq_left.mp heq)
  rw [Fin.val_ofNat, Fin.val_zero, Nat.mod_eq_of_lt (by omega)] at hval
  omega

theorem queue_take (cells : Fin n → α) (start : Fin n) {i m : Nat} (h : i ≤ m) :
    (queue cells start m).take i = queue cells start i := by
  rw [queue, ← map_take, take_range, min_eq_left h, queue]

theorem queue_drop (cells : Fin n → α) (start : Fin n) (i m : Nat) :
    (queue cells start m).drop i = queue cells (start + Fin.ofNat n i) (m - i) := by
  rw [queue, ← map_drop, range_eq_range', drop_range', range'_eq_map_range, map_map, queue]
  refine map_congr_left fun j _ => ?_
  simp only [comp_apply, Nat.zero_add, Nat.mul_one, add_ofNat_add]

end Ring
