import Mathlib.Data.List.Basic

/-!
# UTF-8 on lists of bytes

A text is its list of characters, its bytes are the encodings of the characters
one after the other.  `decode` reads bytes back, and says whether they are
well-formed; the one-character steps are the ones of the core library.
-/

namespace Utf8

open List UInt8

def encode (cs : List Char) : List UInt8 := cs.flatMap String.utf8EncodeChar

@[simp] theorem encode_nil : encode [] = [] := rfl

@[simp] theorem encode_cons (c : Char) (cs : List Char) :
    encode (c :: cs) = String.utf8EncodeChar c ++ encode cs := flatMap_cons

theorem length_encodeChar_pos (c : Char) : 0 < (String.utf8EncodeChar c).length :=
  length_pos_of_ne_nil String.utf8EncodeChar_ne_nil

theorem encode_eq_nil {cs : List Char} : encode cs = [] ↔ cs = [] := by
  cases cs with
  | nil => simp
  | cons c cs => simp [String.utf8EncodeChar_ne_nil]

theorem encodeChar_of_ascii {c : Char} (h : c.toNat < 128) :
    String.utf8EncodeChar c = [ofNat c.toNat] := by
  have hle : c.val.toNat ≤ 127 := Nat.le_of_lt_succ h
  rw [String.utf8EncodeChar.eq_def]
  simp only [hle, if_true]
  rfl

/-- The bytes of a character beyond ASCII all have their top bit set. -/
theorem le_of_mem_encodeChar {c : Char} (h : 128 ≤ c.toNat) {b : UInt8}
    (hb : b ∈ String.utf8EncodeChar c) : 128 ≤ b.toNat := by
  have hle : ¬c.val.toNat ≤ 127 := Nat.not_le.mpr h
  rw [String.utf8EncodeChar.eq_def] at hb
  simp only [hle, if_false] at hb
  split at hb
  · simp only [mem_cons, not_mem_nil, or_false] at hb
    rcases hb with rfl | rfl <;> rw [toNat_ofNat'] <;> omega
  split at hb
  · simp only [mem_cons, not_mem_nil, or_false] at hb
    rcases hb with rfl | rfl | rfl <;> rw [toNat_ofNat'] <;> omega
  · simp only [mem_cons, not_mem_nil, or_false] at hb
    rcases hb with rfl | rfl | rfl | rfl <;> rw [toNat_ofNat'] <;> omega

def firstChar (bs : List UInt8) : Option Char := bs.toByteArray.utf8DecodeChar? 0

theorem firstChar_append (c : Char) (rest : List UInt8) :
    firstChar (String.utf8EncodeChar c ++ rest) = some c := by
  rw [firstChar, toByteArray_append]
  exact ByteArray.utf8DecodeChar?_utf8EncodeChar_append

def decodeUpTo : Nat → List UInt8 → Option (List Char)
  | _, [] => some []
  | 0, _ :: _ => none
  | n + 1, b :: bs =>
    match firstChar (b :: bs) with
    | none => none
    | some c => (decodeUpTo n ((b :: bs).drop c.utf8Size)).map (c :: ·)

def decode (bs : List UInt8) : Option (List Char) := decodeUpTo bs.length bs

theorem decodeUpTo_encode (cs : List Char) (n : Nat) (h : (encode cs).length ≤ n) :
    decodeUpTo n (encode cs) = some cs := by
  induction cs generalizing n with
  | nil => cases n <;> rfl
  | cons c cs ih =>
    have hpos := length_encodeChar_pos c
    rw [encode_cons, length_append] at h
    cases n with
    | zero => omega
    | succ n =>
      have hne : encode (c :: cs) ≠ [] := encode_eq_nil.not.mpr (by simp)
      have hdrop : (encode (c :: cs)).drop c.utf8Size = encode cs := by
        rw [encode_cons, ← String.length_utf8EncodeChar, drop_left]
      have hfirst : firstChar (encode (c :: cs)) = some c := firstChar_append c _
      generalize encode (c :: cs) = bs at hne hdrop hfirst
      cases bs with
      | nil => exact absurd rfl hne
      | cons b bs =>
        rw [decodeUpTo, hfirst]
        simp only [hdrop, ih n (by omega), Option.map_some]

@[simp] theorem decode_encode (cs : List Char) : decode (encode cs) = some cs :=
  decodeUpTo_encode cs _ (Nat.le_refl _)

/-! ## Splitting at an ASCII character -/

theorem splitOn_append_of_not_mem {α : Type} [BEq α] [LawfulBEq α] {sep : α} {s rest : List α}
    (h : sep ∉ s) : (s ++ rest).splitOn sep = (rest.splitOn sep).modifyHead (s ++ ·) := by
  induction s with
  | nil => cases hsplit : rest.splitOn sep <;> simp [hsplit]
  | cons a s ih =>
    have hne : (a == sep) = false := beq_false_of_ne fun heq => h (by simp [heq])
    have hsplit := ih fun hmem => h (by simp [hmem])
    rw [splitOn] at hsplit ⊢
    rw [cons_append, splitOnP_cons_eq_if_modifyHead, hne, hsplit,
      modifyHead_modifyHead]
    rfl

theorem splitOn_encode {sep : Char} (hsep : sep.toNat < 128) (cs : List Char) :
    (encode cs).splitOn (ofNat sep.toNat) = (cs.splitOn sep).map encode := by
  induction cs with
  | nil => rfl
  | cons c cs ih =>
    have hchars : (c :: cs).splitOn sep =
        if c == sep then [] :: cs.splitOn sep else (cs.splitOn sep).modifyHead (c :: ·) :=
      splitOnP_cons_eq_if_modifyHead ..
    rw [encode_cons, hchars]
    by_cases hc : c = sep
    · rw [hc, encodeChar_of_ascii hsep, if_pos (beq_self_eq_true sep), map_cons, ← ih]
      have hbytes := splitOnP_cons_eq_if_modifyHead (p := (· == ofNat sep.toNat))
        (ofNat sep.toNat) (encode cs)
      rw [if_pos (beq_self_eq_true _)] at hbytes
      exact hbytes
    · have hmem : ofNat sep.toNat ∉ String.utf8EncodeChar c := by
        intro hmem
        have htoNat : (ofNat sep.toNat).toNat = sep.toNat := by
          rw [toNat_ofNat']
          omega
        by_cases hlt : c.toNat < 128
        · rw [encodeChar_of_ascii hlt, mem_singleton, ← UInt8.toNat_inj, htoNat,
            toNat_ofNat', Nat.mod_eq_of_lt (by omega)] at hmem
          exact hc (Char.toNat_inj.mp hmem.symm)
        · have := le_of_mem_encodeChar (Nat.le_of_not_lt hlt) hmem
          omega
      rw [splitOn_append_of_not_mem hmem, ih, if_neg (by simpa using hc)]
      cases cs.splitOn sep with
      | nil => rfl
      | cons piece pieces => simp [encode_cons]

example : decode [0x61, 0xC3, 0xA9, 0x62] = some ['a', 'é', 'b'] := by decide
example : decode [0x61, 0xC3] = none := by decide

end Utf8
