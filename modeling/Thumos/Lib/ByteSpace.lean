import Thumos.Lib.LittleEndian

/-!
# A flat space of bytes

A byte at every address.  `read` and `write` move a run of bytes.  Two runs in a
row are one longer run, what was written is read back, and a read beside a write
does not see it.

`readThrough` and `writeThrough` go one byte at a time through a mapping of the
addresses.
-/

abbrev ByteSpace := Nat → UInt8

namespace ByteSpace

open List Nat

def read (m : ByteSpace) (addr n : Nat) : List UInt8 := (List.range n).map fun k => m (addr + k)

def write (m : ByteSpace) (addr : Nat) (bytes : List UInt8) : ByteSpace := fun i =>
  if addr ≤ i ∧ i < addr + bytes.length then bytes.getD (i - addr) 0 else m i

variable {m m' : ByteSpace} {addr n : Nat} {bytes : List UInt8}

@[simp] theorem length_read (m : ByteSpace) (addr n : Nat) : (m.read addr n).length = n := by
  rw [read, length_map, length_range]

theorem read_getElem? {k : Nat} (hk : k < n) : (m.read addr n)[k]? = some (m (addr + k)) := by
  rw [read, getElem?_map, getElem?_range hk]
  rfl

theorem read_zero (m : ByteSpace) (addr : Nat) : m.read addr 0 = [] := rfl

theorem read_add (m : ByteSpace) (addr a b : Nat) :
    m.read addr (a + b) = m.read addr a ++ m.read (addr + a) b := by
  simp only [read, range_add, map_append, map_map, Function.comp_def, add_assoc]

theorem read_write_self (m : ByteSpace) (addr : Nat) (bytes : List UInt8) :
    (m.write addr bytes).read addr bytes.length = bytes := by
  refine ext_getElem? fun k => ?_
  by_cases hk : k < bytes.length
  · rw [read_getElem? hk, write, if_pos (by omega), Nat.add_sub_cancel_left,
      getD_eq_getElem?_getD, getElem?_eq_getElem hk]
    rfl
  · rw [getElem?_eq_none (by rw [length_read]; omega), getElem?_eq_none (by omega)]

theorem write_nil (m : ByteSpace) (addr : Nat) : m.write addr [] = m :=
  funext fun i => if_neg (by rw [length_nil]; omega)

theorem write_drop (h : n ≤ bytes.length) :
    (m.write addr (bytes.take n)).write (addr + n) (bytes.drop n) = m.write addr bytes := by
  have htake : (bytes.take n).length = n := length_take_of_le h
  funext i
  simp only [write, htake, length_drop, getD_eq_getElem?_getD, getElem?_drop]
  by_cases hhigh : addr + n ≤ i ∧ i < addr + n + (bytes.length - n)
  · rw [if_pos hhigh, if_pos (by omega), show n + (i - (addr + n)) = i - addr by omega]
  rw [if_neg hhigh]
  by_cases hlow : addr ≤ i ∧ i < addr + n
  · rw [if_pos hlow, if_pos (by omega), getElem?_take_of_lt (by omega)]
  · rw [if_neg hlow, if_neg (by omega)]

/-! ## Through a mapping -/

section Through

variable (f : Nat → Nat)

/-- The `n` bytes at the images of the addresses from `addr` on. -/
def readThrough (m : ByteSpace) (addr : Nat) : Nat → List UInt8
  | 0 => []
  | n + 1 => m (f addr) :: m.readThrough (addr + 1) n

/-- `bytes` written to the images of the addresses from `addr` on, the first one first. -/
def writeThrough (m : ByteSpace) (addr : Nat) : List UInt8 → ByteSpace
  | [] => m
  | b :: bs => writeThrough (fun i => if i = f addr then b else m i) (addr + 1) bs

variable {f}

theorem readThrough_congr {g : Nat → Nat} {a : Nat} (h : ∀ k < n, m (f (a + k)) = m' (g (a + k))) :
    m.readThrough f a n = m'.readThrough g a n := by
  induction n generalizing a with
  | zero => rfl
  | succ n ih =>
    rw [readThrough, readThrough, show m (f a) = m' (g a) from h 0 (by omega), ih fun k hk => ?_]
    rw [add_assoc, add_comm 1 k]
    exact h (k + 1) (by omega)

theorem writeThrough_of_ne {a i : Nat} (h : ∀ k < bytes.length, f (a + k) ≠ i) :
    m.writeThrough f a bytes i = m i := by
  induction bytes generalizing m a with
  | nil => rfl
  | cons b bs ih =>
    have hfirst : i ≠ f a := Ne.symm (h 0 (succ_pos _))
    rw [writeThrough, ih fun k hk => ?_, if_neg hfirst]
    rw [add_assoc, add_comm 1 k]
    exact h (k + 1) (succ_lt_succ hk)

/-- What was written is read, when the mapping keeps the addresses of the run apart. -/
theorem readThrough_writeThrough_self {a : Nat}
    (h : ∀ j < bytes.length, ∀ k < bytes.length, f (a + j) = f (a + k) → j = k) :
    (m.writeThrough f a bytes).readThrough f a bytes.length = bytes := by
  induction bytes generalizing m a with
  | nil => rfl
  | cons b bs ih =>
    have htail : ∀ k < bs.length, f (a + 1 + k) ≠ f a := by
      intro k hk heq
      rw [add_assoc, add_comm 1 k] at heq
      exact absurd (h (k + 1) (succ_lt_succ hk) 0 (succ_pos _) heq) (by omega)
    rw [writeThrough, length_cons, readThrough, writeThrough_of_ne htail, if_pos rfl,
      ih fun j hj k hk heq => ?_]
    rw [add_assoc, add_assoc, add_comm 1 j, add_comm 1 k] at heq
    exact succ.inj (h _ (succ_lt_succ hj) _ (succ_lt_succ hk) heq)

/-- A write whose images lie beside those of the run that is read. -/
theorem readThrough_writeThrough_of_ne {a : Nat}
    (h : ∀ j < n, ∀ k < bytes.length, f (addr + k) ≠ f (a + j)) :
    (m.writeThrough f addr bytes).readThrough f a n = m.readThrough f a n :=
  readThrough_congr fun j hj => writeThrough_of_ne (h j hj)

end Through

end ByteSpace
