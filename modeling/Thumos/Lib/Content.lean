import Mathlib.Tactic.SplitIfs

/-!
# Byte arrays

The content of a file as mathematics has it: a size, and a byte at every
position, with zeros from the size on.  `write` and `truncate` are given byte
by byte.  `ofList` reads a list of bytes as a content, and the lemmas at the
end say that the list operations `splice` and `resize` are `write` and
`truncate`.
-/

@[ext] structure Content where
  size : Nat
  byte : Nat → UInt8
  beyond : ∀ i, size ≤ i → byte i = 0

namespace Content

open List

def empty : Content := ⟨0, fun _ => 0, fun _ _ => rfl⟩

def write (c : Content) (offset : Nat) (buf : List UInt8) : Content where
  size := max c.size (offset + buf.length)
  byte i := if offset ≤ i ∧ i < offset + buf.length then buf.getD (i - offset) 0 else c.byte i
  beyond i hi := by
    rw [if_neg (by omega), c.beyond i (by omega)]

def truncate (c : Content) (n : Nat) : Content where
  size := n
  byte i := if i < n then c.byte i else 0
  beyond i hi := if_neg (by omega)

def read (c : Content) (offset n : Nat) : List UInt8 :=
  (List.range (min n (c.size - offset))).map fun i => c.byte (offset + i)

theorem length_read (c : Content) (offset n : Nat) :
    (c.read offset n).length = if offset < c.size then min n (c.size - offset) else 0 := by
  rw [read, length_map, length_range]
  split_ifs <;> omega

theorem read_getElem? (c : Content) {offset n i : Nat} (hi : i < (c.read offset n).length) :
    (c.read offset n)[i]? = some (c.byte (offset + i)) := by
  rw [read, length_map, length_range] at hi
  rw [read, getElem?_map, getElem?_range hi]
  rfl

/-! ## Lists as contents -/

def ofList (data : List UInt8) : Content where
  size := data.length
  byte i := data.getD i 0
  beyond i hi := by rw [List.getD_eq_getElem?_getD, List.getElem?_eq_none hi]; rfl

/-- `Vec::resize(n, 0)` -/
def resize (data : List UInt8) (n : Nat) : List UInt8 :=
  data.take n ++ List.replicate (n - data.length) 0

/-- `data[offset..offset + buf.len()].copy_from_slice(buf)` -/
def splice (data : List UInt8) (offset : Nat) (buf : List UInt8) : List UInt8 :=
  data.take offset ++ buf ++ data.drop (offset + buf.length)

theorem length_resize (data : List UInt8) (n : Nat) : (resize data n).length = n := by
  rw [resize, length_append, length_take, length_replicate]
  omega

theorem length_splice {data : List UInt8} {offset : Nat} {buf : List UInt8}
    (h : offset + buf.length ≤ data.length) : (splice data offset buf).length = data.length := by
  rw [splice, length_append, length_append, length_take, length_drop]
  omega

theorem resize_getD (data : List UInt8) (n i : Nat) :
    (resize data n).getD i 0 = if i < n then data.getD i 0 else 0 := by
  simp only [resize, getD_eq_getElem?_getD, getElem?_append, length_take,
    getElem?_take, getElem?_replicate]
  split_ifs with h₁ h₂ h₃ h₄
  · rfl
  · omega
  · rw [getElem?_eq_none (by omega)]
    rfl
  · omega
  · rw [getElem?_eq_none (by omega)]
  · rfl

theorem splice_getD {data : List UInt8} {offset : Nat} {buf : List UInt8}
    (h : offset + buf.length ≤ data.length) (i : Nat) : (splice data offset buf).getD i 0 =
      if offset ≤ i ∧ i < offset + buf.length then buf.getD (i - offset) 0 else data.getD i 0 := by
  have htake : (data.take offset).length = offset := length_take_of_le (by omega)
  simp only [splice, getD_eq_getElem?_getD]
  rcases Nat.lt_or_ge i offset with hlt | hge
  · rw [if_neg (by omega), append_assoc, getElem?_append_left (by omega),
      getElem?_take_of_lt hlt]
  rcases Nat.lt_or_ge i (offset + buf.length) with hin | hout
  · rw [if_pos ⟨hge, hin⟩, append_assoc, getElem?_append_right (by omega), htake,
      getElem?_append_left (by omega)]
  rw [if_neg (by omega), getElem?_append_right (by rw [length_append]; omega),
    length_append, htake, getElem?_drop]
  congr 2
  omega

theorem ofList_nil : ofList [] = empty := rfl

theorem ofList_resize (data : List UInt8) (n : Nat) :
    ofList (resize data n) = (ofList data).truncate n :=
  Content.ext (length_resize data n) (funext fun i => resize_getD data n i)

/-- Growing the list to the end of the write, then copying, is the write. -/
theorem ofList_splice (data : List UInt8) (offset : Nat) (buf : List UInt8) :
    ofList (splice (if data.length < offset + buf.length then resize data (offset + buf.length)
      else data) offset buf) = (ofList data).write offset buf := by
  have hgrown : ∀ i, (if data.length < offset + buf.length then
      resize data (offset + buf.length) else data).getD i 0 = data.getD i 0 := by
    intro i
    split
    · rw [resize_getD]
      split
      · rfl
      · rw [getD_eq_getElem?_getD, getElem?_eq_none (by omega)]
        rfl
    · rfl
  have hlen : (if data.length < offset + buf.length then
      resize data (offset + buf.length) else data).length =
        max data.length (offset + buf.length) := by
    split
    · rw [length_resize]
      omega
    · omega
  generalize (if data.length < offset + buf.length then
    resize data (offset + buf.length) else data) = grown at hgrown hlen
  have hfits : offset + buf.length ≤ grown.length := by omega
  refine Content.ext ((length_splice hfits).trans hlen) (funext fun i => ?_)
  have hbyte := splice_getD hfits i
  rw [hgrown] at hbyte
  exact hbyte

theorem read_ofList (data : List UInt8) (offset n : Nat) :
    (ofList data).read offset n = (data.drop offset).take (min n (data.length - offset)) := by
  refine ext_getElem? fun i => ?_
  rw [read, getElem?_map, getElem?_take, getElem?_drop]
  show Option.map (fun i => data.getD (offset + i) 0)
    (range (min n (data.length - offset)))[i]? = _
  split
  · rename_i hi
    rw [getElem?_range hi, Option.map_some, getD_eq_getElem?_getD,
      getElem?_eq_getElem (by omega)]
    rfl
  · rename_i hi
    rw [getElem?_eq_none (by rw [length_range]; omega)]
    rfl

end Content
