import Mathlib.Data.List.Basic

/-!
# Names, questions and records on the wire

A domain name is a list of labels.  On the wire it is its labels, each after its
length, up to a zero byte, or up to a pointer to another place of the message
where the name goes on.  `NameAt` says which name stands at an offset and where
it ends, `NameSpan` only where it ends; questions and resource records are read
after each other from there.
-/

namespace DnsWire

open List

abbrev Label := List UInt8

/-! ## Reading bytes at an offset -/

def sliceAt (bs : List UInt8) (pos n : Nat) : Option (List UInt8) :=
  if pos + n ≤ bs.length then some ((bs.drop pos).take n) else none

theorem sliceAt_eq_some {bs s : List UInt8} {pos n : Nat} (h : sliceAt bs pos n = some s) :
    bs.drop pos = s ++ bs.drop (pos + n) ∧ s.length = n := by
  rw [sliceAt] at h
  split at h
  · cases h
    constructor
    · rw [← drop_drop, take_append_drop]
    · rw [length_take, length_drop]
      omega
  · cases h

def be16 (hi lo : UInt8) : Nat := hi.toNat * 256 + lo.toNat

def be16At (bs : List UInt8) (pos : Nat) : Option Nat := do
  let hi ← bs[pos]?
  let lo ← bs[pos + 1]?
  some (be16 hi lo)

def be32At (bs : List UInt8) (pos : Nat) : Option Nat := do
  let hi ← be16At bs pos
  let lo ← be16At bs (pos + 2)
  some (hi * 65536 + lo)

variable {pos : Nat}

theorem be16At_isSome {bs : List UInt8} (h : pos + 2 ≤ bs.length) :
    ∃ n, be16At bs pos = some n := by
  refine ⟨be16 bs[pos] bs[pos + 1], ?_⟩
  rw [be16At, getElem?_eq_getElem (by omega), getElem?_eq_getElem (by omega)]
  rfl

def be16Bytes (n : Nat) : List UInt8 := [UInt8.ofNat (n / 256), UInt8.ofNat n]

/-! ## Names -/

/-- The two top bits of a length byte tell a pointer from a label. -/
theorem isPointer_iff (b : UInt8) : b &&& 0xC0 = 0xC0 ↔ 192 ≤ b.toNat := by
  have h : ∀ x : BitVec 8, x &&& 0xC0#8 = 0xC0#8 ↔ 192 ≤ x.toNat := by decide
  rw [← UInt8.toBitVec_inj, UInt8.toBitVec_and]
  exact h b.toBitVec

theorem isLabel_iff (b : UInt8) : b &&& 0xC0 = 0 ↔ b.toNat < 64 := by
  have h : ∀ x : BitVec 8, x &&& 0xC0#8 = 0#8 ↔ x.toNat < 64 := by decide
  rw [← UInt8.toBitVec_inj, UInt8.toBitVec_and]
  exact h b.toBitVec

def wireName (ls : List Label) : List UInt8 :=
  ls.flatMap (fun l => UInt8.ofNat l.length :: l) ++ [0]

theorem wireName_cons (l : Label) (ls : List Label) :
    wireName (l :: ls) = UInt8.ofNat l.length :: (l ++ wireName ls) := by
  rw [wireName, flatMap_cons, cons_append, cons_append, append_assoc]
  rfl

/-- The name at an offset, and the offset after it. -/
inductive NameAt (msg : List UInt8) : Nat → List Label → Nat → Prop
  | root {pos : Nat} (h : msg[pos]? = some 0) : NameAt msg pos [] (pos + 1)
  | label {pos next : Nat} {n : UInt8} {l : Label} {ls : List Label} (h : msg[pos]? = some n)
      (hpos : 0 < n.toNat) (hlt : n.toNat < 64) (hlabel : sliceAt msg (pos + 1) n.toNat = some l)
      (hrest : NameAt msg (pos + 1 + n.toNat) ls next) : NameAt msg pos (l :: ls) next
  | pointer {pos next : Nat} {hi lo : UInt8} {ls : List Label} (h : msg[pos]? = some hi)
      (hhi : 192 ≤ hi.toNat) (hlo : msg[pos + 1]? = some lo)
      (hrest : NameAt msg (be16 hi lo - 49152) ls next) : NameAt msg pos ls (pos + 2)

theorem NameAt.unique {msg : List UInt8} {pos next next' : Nat} {ls ls' : List Label}
    (h : NameAt msg pos ls next) (h' : NameAt msg pos ls' next') : ls = ls' ∧ next = next' := by
  induction h generalizing ls' next' with
  | root h =>
    cases h' with
    | root => exact ⟨rfl, rfl⟩
    | label hn hpos =>
      cases h.symm.trans hn
      cases hpos
    | pointer hn hhi =>
      cases h.symm.trans hn
      cases hhi
  | label h hpos hlt hlabel _ ih =>
    cases h' with
    | root hn =>
      cases h.symm.trans hn
      cases hpos
    | label hn _ _ hlabel' hrest' =>
      cases h.symm.trans hn
      cases hlabel.symm.trans hlabel'
      obtain ⟨rfl, rfl⟩ := ih hrest'
      exact ⟨rfl, rfl⟩
    | pointer hn hhi =>
      cases h.symm.trans hn
      omega
  | pointer h hhi hlo _ ih =>
    cases h' with
    | root hn =>
      cases h.symm.trans hn
      cases hhi
    | label hn _ hlt =>
      cases h.symm.trans hn
      omega
    | pointer hn _ hlo' hrest' =>
      cases h.symm.trans hn
      cases hlo.symm.trans hlo'
      exact ⟨(ih hrest').1, rfl⟩

theorem drop_of_getElem? {bs : List UInt8} {b : UInt8} (h : bs[pos]? = some b) :
    bs.drop pos = b :: bs.drop (pos + 1) := by
  rw [drop_eq_getElem?_toList_append, h]
  rfl

theorem getElem?_of_drop {bs rest : List UInt8} {b : UInt8} (h : bs.drop pos = b :: rest) :
    bs[pos]? = some b ∧ bs.drop (pos + 1) = rest := by
  constructor
  · rw [← head?_drop, h, head?_cons]
  · rw [← drop_drop, h, drop_one, tail_cons]

theorem sliceAt_of_drop {bs s rest : List UInt8} (hs : 0 < s.length) (h : bs.drop pos = s ++ rest) :
    sliceAt bs pos s.length = some s ∧ bs.drop (pos + s.length) = rest := by
  have hlen := congrArg length h
  rw [length_drop, length_append] at hlen
  constructor
  · rw [sliceAt, if_pos (by omega), h, take_left]
  · rw [← drop_drop, h, drop_left]

/-! ## Questions and records -/

structure Question where
  name : List Label
  qtype : Nat
  qclass : Nat

/-- Questions one after the other, and the offset after them. -/
inductive QuestionsAt (msg : List UInt8) : Nat → List Question → Nat → Prop
  | nil (pos : Nat) : QuestionsAt msg pos [] pos
  | cons {pos next fin qtype qclass : Nat} {name : List Label} {qs : List Question}
      (hname : NameAt msg pos name next) (htype : be16At msg next = some qtype)
      (hclass : be16At msg (next + 2) = some qclass) (hrest : QuestionsAt msg (next + 4) qs fin) :
      QuestionsAt msg pos (⟨name, qtype, qclass⟩ :: qs) fin

def wireQuestion (q : Question) : List UInt8 :=
  wireName q.name ++ (be16Bytes q.qtype ++ be16Bytes q.qclass)

/-- A message has a question: it stands among the ones that the header counts. -/
def HasQuestion (msg : List UInt8) (q : Question) : Prop :=
  ∃ qdcount qs fin, be16At msg 4 = some qdcount ∧ QuestionsAt msg 12 qs fin ∧
    qs.length ≤ qdcount ∧ q ∈ qs

/-- A resource record.  Its data is kept with its offset, since a name in it can point back. -/
structure Record where
  name : List Label
  rtype : Nat
  rclass : Nat
  rdataAt : Nat
  rdata : List UInt8

inductive RecordsAt (msg : List UInt8) : Nat → List Record → Nat → Prop
  | nil (pos : Nat) : RecordsAt msg pos [] pos
  | cons {pos next fin rtype rclass rdlength : Nat} {name : List Label} {rdata : List UInt8}
      {rs : List Record} (hname : NameAt msg pos name next) (htype : be16At msg next = some rtype)
      (hclass : be16At msg (next + 2) = some rclass)
      (hlength : be16At msg (next + 8) = some rdlength)
      (hrdata : sliceAt msg (next + 10) rdlength = some rdata)
      (hrest : RecordsAt msg (next + 10 + rdlength) rs fin) :
      RecordsAt msg pos (⟨name, rtype, rclass, next + 10, rdata⟩ :: rs) fin

/-! ## Skipping names

A reader that skips a name follows no pointer, so it accepts more than names. -/

/-- The bytes at an offset that a name takes up. -/
inductive NameSpan (msg : List UInt8) : Nat → Nat → Prop
  | root {pos : Nat} (h : msg[pos]? = some 0) : NameSpan msg pos (pos + 1)
  | label {pos next : Nat} {n : UInt8} (h : msg[pos]? = some n) (hpos : 0 < n.toNat)
      (hlt : n.toNat < 64) (hrest : NameSpan msg (pos + 1 + n.toNat) next) : NameSpan msg pos next
  | pointer {pos : Nat} {hi : UInt8} (h : msg[pos]? = some hi) (hhi : 192 ≤ hi.toNat) :
    NameSpan msg pos (pos + 2)

/-- So many questions, and the offset after them. -/
inductive QuestionsSpan (msg : List UInt8) : Nat → Nat → Nat → Prop
  | zero (pos : Nat) : QuestionsSpan msg 0 pos pos
  | succ {n pos next fin : Nat} (hname : NameSpan msg pos next) (hlen : next + 4 ≤ msg.length)
      (hrest : QuestionsSpan msg n (next + 4) fin) : QuestionsSpan msg (n + 1) pos fin

/-- A record without its name. -/
structure RecordBody where
  rtype : Nat
  rclass : Nat
  ttl : Nat
  rdata : List UInt8

/-- Records one after the other, whatever their names, and the offset after them. -/
inductive RecordsSpan (msg : List UInt8) : Nat → List RecordBody → Nat → Prop
  | nil (pos : Nat) : RecordsSpan msg pos [] pos
  | cons {pos next fin rtype rclass ttl rdlength : Nat} {rdata : List UInt8}
      {rs : List RecordBody} (hname : NameSpan msg pos next)
      (htype : be16At msg next = some rtype) (hclass : be16At msg (next + 2) = some rclass)
      (httl : be32At msg (next + 4) = some ttl) (hlength : be16At msg (next + 8) = some rdlength)
      (hrdata : sliceAt msg (next + 10) rdlength = some rdata)
      (hrest : RecordsSpan msg (next + 10 + rdlength) rs fin) :
      RecordsSpan msg pos (⟨rtype, rclass, ttl, rdata⟩ :: rs) fin

end DnsWire
