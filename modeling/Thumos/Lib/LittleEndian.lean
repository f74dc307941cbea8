import Mathlib.Tactic.Linarith

/-!
# Little-endian numbers in byte lists

`leBytes n v` is the `n`-byte little-endian form of `v`, and `leValue` reads
a byte list back.  `leBytes` keeps the low `8 * n` bits only, as the
fixed-width `to_le_bytes` does, so the round trip `leValue_leBytes` is modulo
`256 ^ n`.

`bytesAt l off n` is the window of `n` bytes at `off`.  `encode` and `decode`
are the codec of a record of such numbers.
-/

namespace LittleEndian

open List

def leBytes : Nat → Nat → List UInt8
  | 0, _ => []
  | n + 1, v => UInt8.ofNat v :: leBytes n (v / 256)

def leValue : List UInt8 → Nat
  | [] => 0
  | b :: bs => b.toNat + 256 * leValue bs

@[simp] theorem leBytes_length (n v : Nat) : (leBytes n v).length = n := by
  induction n generalizing v with
  | zero => rfl
  | succ n ih => simp [leBytes, ih]

theorem leValue_leBytes (n v : Nat) : leValue (leBytes n v) = v % 256 ^ n := by
  induction n generalizing v with
  | zero => simp [leBytes, leValue, Nat.mod_one]
  | succ n ih =>
    have hb : (UInt8.ofNat v).toNat = v % 256 := by simp
    rw [leBytes, leValue, ih, hb, pow_succ, mul_comm (256 ^ n) 256, Nat.mod_mul]

theorem leValue_leBytes_of_lt {n v : Nat} (h : v < 256 ^ n) : leValue (leBytes n v) = v := by
  rw [leValue_leBytes, Nat.mod_eq_of_lt h]

theorem leValue_lt (bs : List UInt8) : leValue bs < 256 ^ bs.length := by
  induction bs with
  | nil => simp [leValue]
  | cons b bs ih =>
    have hb : b.toNat < 256 := b.toNat_lt
    rw [leValue, length_cons, pow_succ]
    omega

def bytesAt (l : List UInt8) (off n : Nat) : List UInt8 := (l.drop off).take n

theorem bytesAt_length_le (l : List UInt8) (off n : Nat) : (bytesAt l off n).length ≤ n := by
  simp [bytesAt, length_take]

theorem bytesAt_getElem? (l : List UInt8) (off n k : Nat) (hk : k < n) :
    (bytesAt l off n)[k]? = l[off + k]? := by
  simp [bytesAt, hk]

/-- Whether `l` has fewer than `n` bytes, by looking at `n` of them only. -/
def shorter (l : List UInt8) (n : Nat) : Bool := (l.take n).length < n

@[simp] theorem shorter_iff (l : List UInt8) (n : Nat) : shorter l n = true ↔ l.length < n := by
  simp only [shorter, decide_eq_true_eq, length_take]
  omega

/-! ## Records

A record is a run of fields of fixed width.  `encode` writes the fields one
after the other, and `decode` reads them back, given the widths. -/

/-- The bytes of a record, given as its fields' widths and values. -/
def encode : List (Nat × Nat) → List UInt8
  | [] => []
  | (w, v) :: fs => leBytes w v ++ encode fs

/-- The values of the fields of the given widths at the start of `bs`. -/
def decode : List Nat → List UInt8 → List Nat
  | [], _ => []
  | w :: ws, bs => leValue (bs.take w) :: decode ws (bs.drop w)

@[simp] theorem decode_length (ws : List Nat) (bs : List UInt8) :
    (decode ws bs).length = ws.length := by
  induction ws generalizing bs with
  | nil => rfl
  | cons w ws ih => simp [decode, ih]

theorem encode_length (fs : List (Nat × Nat)) : (encode fs).length = (fs.map Prod.fst).sum := by
  induction fs with
  | nil => rfl
  | cons f fs ih => simp [encode, ih]

/-- Reading back a record gives its values, whatever follows the record. -/
theorem decode_encode (fs : List (Nat × Nat)) (rest : List UInt8) (h : ∀ f ∈ fs, f.2 < 256 ^ f.1) :
    decode (fs.map Prod.fst) (encode fs ++ rest) = fs.map Prod.snd := by
  induction fs with
  | nil => rfl
  | cons f fs ih =>
    obtain ⟨w, v⟩ := f
    have hv : v < 256 ^ w := h (w, v) mem_cons_self
    have htail := ih fun f hf => h f (mem_cons_of_mem _ hf)
    simp only [encode, decode, map_cons, append_assoc]
    rw [take_left' (leBytes_length w v), drop_left' (leBytes_length w v),
      leValue_leBytes_of_lt hv, htail]

theorem decode_lt (ws : List Nat) (bs : List UInt8) {i w v : Nat}
    (hw : ws[i]? = some w) (hv : (decode ws bs)[i]? = some v) : v < 256 ^ w := by
  induction ws generalizing bs i with
  | nil => simp at hw
  | cons w' ws ih =>
    cases i with
    | zero =>
      simp only [decode, getElem?_cons_zero, Option.some.injEq] at hw hv
      subst hw hv
      refine (leValue_lt _).trans_le (Nat.pow_le_pow_right (by decide) ?_)
      rw [length_take]
      omega
    | succ i => exact ih (bs.drop w') hw hv

end LittleEndian
