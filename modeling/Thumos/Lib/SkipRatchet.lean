import Mathlib.Data.List.Nodup
import Mathlib.Logic.Function.Iterate

/-!
# Receivers of a symmetric ratchet

A chain of keys is advanced by a one-way function, and the message with index `i`
is sealed under a key that is derived from the `i`-th chain key.  A receiver holds
one chain key.  For a message that is ahead of it, it walks the chain forward and
keeps the keys of the messages that it walks past; a message behind it is opened
with such a key, which is then used up.  The walk and the number of kept keys are
bounded.  Nothing changes unless the message opens.

`Scheme` is the cryptography and the two bounds.  `Receiver.receive` is the
receiver.  `Channel` adds the history of one direction: what was sent, what was
delivered, and which keys were pushed out by the bound.
-/

namespace SkipRatchet

open List Prod

variable {α K M C P E : Type*}

structure Scheme (K M C P E : Type*) where
  /-- The next chain key. -/
  next : K → K
  /-- The message key at a chain key and an index. -/
  key : K → Nat → M
  /-- Opens a message with its index. -/
  openWith : M → Nat → C → Except E P
  /-- No key is kept for the index. -/
  missing : E
  /-- The index is too far ahead. -/
  tooFar : E
  maxAhead : Nat
  maxKeys : Nat

@[ext] structure Receiver (K M : Type*) where
  chain : K
  position : Nat
  skipped : List (Nat × M)

def newest (n : Nat) (l : List α) : List α := l.drop (l.length - n)

def oldest (n : Nat) (l : List α) : List α := l.take (l.length - n)

namespace Scheme

variable (S : Scheme K M C P E)

def chainAt (root : K) (n : Nat) : K := S.next^[n] root

def keys : K → Nat → Nat → List (Nat × M)
  | _, _, 0 => []
  | k, i, n + 1 => (i, S.key k i) :: keys (S.next k) (i + 1) n

variable {S}

theorem keys_fst (k : K) (i n : Nat) : (S.keys k i n).map fst = range' i n := by
  induction n generalizing k i with
  | zero => rfl
  | succ n ih => rw [keys, map_cons, ih, range'_succ]

theorem mem_keys {k : K} {i n : Nat} {e : Nat × M} (h : e ∈ S.keys k i n) :
    i ≤ e.1 ∧ e.1 < i + n ∧ e.2 = S.key (S.chainAt k (e.1 - i)) e.1 := by
  induction n generalizing k i with
  | zero => exact absurd h not_mem_nil
  | succ n ih =>
    rcases mem_cons.mp h with rfl | h
    · refine ⟨Nat.le_refl i, by omega, ?_⟩
      rw [Nat.sub_self]
      rfl
    · obtain ⟨hlow, hhigh, hkey⟩ := ih h
      refine ⟨by omega, by omega, ?_⟩
      rw [hkey, show e.1 - i = (e.1 - (i + 1)) + 1 by omega]
      rfl

end Scheme

/-! ## The newest entries -/

def evict (n : Nat) : List α → List α
  | [] => []
  | a :: l => if n < l.length + 1 then evict n l else a :: l

def evicted (n : Nat) : List α → List α
  | [] => []
  | a :: l => if n < l.length + 1 then a :: evicted n l else []

theorem oldest_append_newest (n : Nat) (l : List α) : oldest n l ++ newest n l = l :=
  take_append_drop _ l

theorem length_newest (n : Nat) (l : List α) : (newest n l).length ≤ n := by
  rw [newest, length_drop]
  omega

theorem newest_sublist (n : Nat) (l : List α) : (newest n l).Sublist l := drop_sublist _ l

variable {β : Type*} {n : Nat} {l : List α}

theorem map_newest (f : α → β) (n : Nat) (l : List α) :
    (newest n l).map f = newest n (l.map f) := by
  rw [newest, newest, map_drop, length_map]

theorem map_oldest (f : α → β) (n : Nat) (l : List α) :
    (oldest n l).map f = oldest n (l.map f) := by
  rw [oldest, oldest, map_take, length_map]

section

variable (f : α → β) {p : α → Bool} {q : β → Bool} (h : ∀ a, q (f a) = p a) (l : List α)

include h

theorem find?_map_of_eq : (l.map f).find? q = (l.find? p).map f := by
  rw [find?_map]
  congr 2
  exact funext h

theorem eraseP_map_of_eq : (l.map f).eraseP q = (l.eraseP p).map f := by
  rw [eraseP_map]
  congr 2
  exact funext h

end

/-- Push one entry after the other, and after each drop the oldest while there are more
than `n`. -/
def storeAll (n : Nat) (l : List α) (entries : List α) : List α :=
  entries.foldl (fun l a => evict n (l ++ [a])) l

def storeAllEvicted (n : Nat) (l : List α) : List α → List α
  | [] => []
  | a :: entries =>
    evicted n (l ++ [a]) ++ storeAllEvicted n (evict n (l ++ [a])) entries

theorem evict_eq_newest (n : Nat) (l : List α) : evict n l = newest n l := by
  induction l with
  | nil => exact drop_nil.symm
  | cons a l ih =>
    rw [evict, newest, length_cons]
    split
    · rw [ih, newest, show l.length + 1 - n = (l.length - n) + 1 by omega, drop_succ_cons]
    · rw [show l.length + 1 - n = 0 by omega, drop_zero]

theorem evicted_eq_oldest (n : Nat) (l : List α) : evicted n l = oldest n l := by
  induction l with
  | nil => exact take_nil.symm
  | cons a l ih =>
    rw [evicted, oldest, length_cons]
    split
    · rw [ih, oldest, show l.length + 1 - n = (l.length - n) + 1 by omega, take_succ_cons]
    · rw [show l.length + 1 - n = 0 by omega, take_zero]

theorem newest_newest_append (n : Nat) (l m : List α) :
    newest n (newest n l ++ m) = newest n (l ++ m) := by
  rw [newest, newest, newest, ← drop_append_of_le_length (Nat.sub_le _ _), drop_drop,
    length_drop, length_append]
  congr 1
  omega

theorem oldest_newest_append (n : Nat) (l m : List α) :
    oldest n l ++ oldest n (newest n l ++ m) = oldest n (l ++ m) := by
  rw [oldest, oldest, oldest, newest, ← drop_append_of_le_length (Nat.sub_le _ _),
    length_drop, length_append, ← take_append_of_le_length (Nat.sub_le _ _)]
  rw [← take_add]
  congr 1
  omega

theorem newest_of_length_le (h : l.length ≤ n) : newest n l = l := by
  rw [newest, Nat.sub_eq_zero_of_le h, drop_zero]

theorem oldest_of_length_le (h : l.length ≤ n) : oldest n l = [] := by
  rw [oldest, Nat.sub_eq_zero_of_le h, take_zero]

theorem storeAll_eq (h : l.length ≤ n) (entries : List α) :
    storeAll n l entries = newest n (l ++ entries) := by
  induction entries generalizing l with
  | nil => rw [append_nil, newest_of_length_le h]; rfl
  | cons a entries ih =>
    change storeAll n (evict n (l ++ [a])) entries = _
    rw [evict_eq_newest, ih (length_newest n _), newest_newest_append, append_assoc]
    rfl

theorem storeAllEvicted_eq (h : l.length ≤ n) (entries : List α) :
    storeAllEvicted n l entries = oldest n (l ++ entries) := by
  induction entries generalizing l with
  | nil => rw [append_nil, oldest_of_length_le h]; rfl
  | cons a entries ih =>
    rw [storeAllEvicted, evict_eq_newest, evicted_eq_oldest, ih (length_newest n _),
      oldest_newest_append, append_assoc]
    rfl

namespace Receiver

variable (S : Scheme K M C P E)

def receive (r : Receiver K M) (i : Nat) (c : C) : Except E P × Receiver K M :=
  if i < r.position then
    match r.skipped.find? fun e => e.1 = i with
    | none => (.error S.missing, r)
    | some e =>
      match S.openWith e.2 i c with
      | .error err => (.error err, r)
      | .ok p => (.ok p, { r with skipped := r.skipped.eraseP fun e => e.1 = i })
  else if S.maxAhead < i - r.position then (.error S.tooFar, r)
  else
    let n := i - r.position
    match S.openWith (S.key (S.chainAt r.chain n) i) i c with
    | .error err => (.error err, r)
    | .ok p => (.ok p, {
        chain := S.next (S.chainAt r.chain n)
        position := i + 1
        skipped := newest S.maxKeys (r.skipped ++ S.keys r.chain r.position n) })

def kept (r : Receiver K M) : List Nat := r.skipped.map Prod.fst

def Reaches (r : Receiver K M) (i : Nat) : Prop :=
  if i < r.position then i ∈ r.kept else i - r.position ≤ S.maxAhead

def advance (r : Receiver K M) (i : Nat) : Receiver K M :=
  if i < r.position then { r with skipped := r.skipped.eraseP fun e => e.1 = i }
  else {
    chain := S.next (S.chainAt r.chain (i - r.position))
    position := i + 1
    skipped := newest S.maxKeys (r.skipped ++ S.keys r.chain r.position (i - r.position)) }

/-- The indices whose keys are pushed out when the message with index `i` is opened. -/
def evicts (r : Receiver K M) (i : Nat) : List Nat :=
  if i < r.position then []
  else oldest S.maxKeys (r.kept ++ List.range' r.position (i - r.position))

/-! ## Receivers of one chain -/

/-- The receiver is on the chain that starts with `root` at `base`, and each kept key is
the key of its index. -/
structure Sound (root : K) (base : Nat) (r : Receiver K M) : Prop where
  position : base ≤ r.position
  chain : r.chain = S.chainAt root (r.position - base)
  low : ∀ e ∈ r.skipped, base ≤ e.1 ∧ e.1 < r.position
  key : ∀ e ∈ r.skipped, e.2 = S.key (S.chainAt root (e.1 - base)) e.1
  nodup : r.kept.Nodup
  bound : r.skipped.length ≤ S.maxKeys

variable {S} {root : K} {base : Nat} {r : Receiver K M} {i : Nat} {c : C}

theorem Sound.fresh (root : K) (base : Nat) : Sound S root base ⟨root, base, []⟩ where
  position := Nat.le_refl base
  chain := by rw [Nat.sub_self]; rfl
  low := fun _ he => absurd he not_mem_nil
  key := fun _ he => absurd he not_mem_nil
  nodup := nodup_nil
  bound := Nat.zero_le _

theorem mem_kept {j : Nat} : j ∈ r.kept ↔ ∃ e ∈ r.skipped, e.1 = j := mem_map

theorem kept_eraseP (r : Receiver K M) (i : Nat) :
    kept { r with skipped := r.skipped.eraseP fun e => e.1 = i } = r.kept.erase i := by
  rw [kept, kept]
  induction r.skipped with
  | nil => rfl
  | cons e l ih =>
    by_cases hei : e.1 = i
    · rw [eraseP_cons_of_pos (by simpa using hei), map_cons, hei, erase_cons_head]
    · rw [eraseP_cons_of_neg (by simpa using hei), map_cons, map_cons, ih,
        erase_cons_tail (by simpa using hei)]

section

variable (h : Sound S root base r)

include h

theorem Sound.kept_low {j : Nat} (hj : j ∈ r.kept) :
    base ≤ j ∧ j < r.position := by
  obtain ⟨e, he, rfl⟩ := mem_kept.mp hj
  exact h.low e he

theorem Sound.chainAt_add (hi : r.position ≤ i) :
    S.chainAt r.chain (i - r.position) = S.chainAt root (i - base) := by
  have hpos := h.position
  rw [h.chain, Scheme.chainAt, Scheme.chainAt, Scheme.chainAt, ← Function.iterate_add_apply]
  congr 1
  omega

/-- A receiver opens what it reaches with the key of the index, and refuses the rest. -/
theorem Sound.receive_eq :
    (∃ err, ¬r.Reaches S i ∧ r.receive S i c = (.error err, r)) ∨
    (r.Reaches S i ∧ r.receive S i c =
      match S.openWith (S.key (S.chainAt root (i - base)) i) i c with
      | .error err => (.error err, r)
      | .ok p => (.ok p, r.advance S i)) := by
  rw [receive, Reaches, advance]
  by_cases hi : i < r.position
  · simp only [if_pos hi]
    cases hfind : r.skipped.find? fun e => e.1 = i with
    | none =>
      left
      refine ⟨S.missing, ?_, rfl⟩
      intro hkept
      obtain ⟨e, he, hei⟩ := mem_kept.mp hkept
      exact absurd (find?_eq_none.mp hfind e he) (by simpa using hei)
    | some e =>
      right
      have he := mem_of_find?_eq_some hfind
      have hei : e.1 = i := by simpa using find?_some hfind
      refine ⟨mem_kept.mpr ⟨e, he, hei⟩, ?_⟩
      dsimp only
      rw [h.key e he, hei]
  · simp only [if_neg hi]
    by_cases hfar : S.maxAhead < i - r.position
    · left
      rw [if_pos hfar]
      exact ⟨S.tooFar, Nat.not_le.mpr hfar, rfl⟩
    · right
      rw [if_neg hfar, h.chainAt_add (Nat.le_of_not_lt hi)]
      exact ⟨Nat.le_of_not_lt hfar, rfl⟩

theorem Sound.advance (hi : base ≤ i) :
    Sound S root base (r.advance S i) := by
  rw [Receiver.advance]
  by_cases hlt : i < r.position
  · rw [if_pos hlt]
    have hsub : (r.skipped.eraseP fun e => e.1 = i).Sublist r.skipped := eraseP_sublist
    exact {
      position := h.position
      chain := h.chain
      low := fun e he => h.low e (hsub.mem he)
      key := fun e he => h.key e (hsub.mem he)
      nodup := h.nodup.sublist (hsub.map _)
      bound := Nat.le_trans hsub.length_le h.bound }
  · rw [if_neg hlt]
    have hpos := h.position
    have hle : r.position ≤ i := Nat.le_of_not_lt hlt
    -- An entry is an old one or one of the keys that were walked past.
    have hentry : ∀ e ∈ r.skipped ++ S.keys r.chain r.position (i - r.position),
        (base ≤ e.1 ∧ e.1 < i + 1) ∧ e.2 = S.key (S.chainAt root (e.1 - base)) e.1 := by
      intro e he
      rcases mem_append.mp he with he | he
      · have hlow := h.low e he
        exact ⟨by omega, h.key e he⟩
      · obtain ⟨hlow, hhigh, hkey⟩ := Scheme.mem_keys he
        refine ⟨by omega, ?_⟩
        rw [hkey, h.chainAt_add hlow]
    have hsub := newest_sublist S.maxKeys (r.skipped ++ S.keys r.chain r.position (i - r.position))
    have hnodup : (r.kept ++ range' r.position (i - r.position)).Nodup := by
      refine nodup_append.mpr ⟨h.nodup, nodup_range', ?_⟩
      intro a ha b hb
      have hlow := h.kept_low ha
      have hhigh := (mem_range'_1.mp hb).1
      omega
    exact {
      position := Nat.le_succ_of_le hi
      chain := by
        rw [h.chainAt_add hle, show i + 1 - base = (i - base) + 1 by omega]
        exact (Function.iterate_succ_apply' S.next (i - base) root).symm
      low := fun e he => (hentry e (hsub.mem he)).1
      key := fun e he => (hentry e (hsub.mem he)).2
      nodup := by
        refine List.Nodup.sublist (hsub.map fst) ?_
        rw [map_append, Scheme.keys_fst]
        exact hnodup
      bound := length_newest _ _ }

theorem Sound.receive_error {err : E} {r' : Receiver K M}
    (hreceive : r.receive S i c = (.error err, r')) : r' = r := by
  rcases h.receive_eq (i := i) (c := c) with ⟨err', -, heq⟩ | ⟨-, heq⟩
  · rw [heq] at hreceive
    exact (congrArg snd hreceive).symm
  rw [heq] at hreceive
  split at hreceive
  · exact (congrArg snd hreceive).symm
  · cases hreceive

theorem Sound.receive_ok {p : P} {r' : Receiver K M} (hreceive : r.receive S i c = (.ok p, r')) :
    r.Reaches S i ∧ S.openWith (S.key (S.chainAt root (i - base)) i) i c = .ok p ∧
      r' = r.advance S i := by
  rcases h.receive_eq (i := i) (c := c) with ⟨err', -, heq⟩ | ⟨hreach, heq⟩
  · rw [heq] at hreceive
    cases hreceive
  rw [heq] at hreceive
  split at hreceive
  · cases hreceive
  · rename_i hopen
    cases hreceive
    exact ⟨hreach, hopen, rfl⟩

theorem Sound.receive_of_opens {p : P} (hreach : r.Reaches S i)
    (hopen : S.openWith (S.key (S.chainAt root (i - base)) i) i c = .ok p) :
    r.receive S i c = (.ok p, r.advance S i) := by
  rcases h.receive_eq (i := i) (c := c) with ⟨err, hnot, -⟩ | ⟨-, heq⟩
  · exact absurd hreach hnot
  · rw [heq, hopen]

theorem Sound.base_le_of_reaches (hreach : r.Reaches S i) : base ≤ i := by
  have hpos := h.position
  rw [Reaches] at hreach
  split at hreach
  · exact (h.kept_low hreach).1
  · omega

end

/-- What was behind the receiver or walked past is kept, pushed out or opened. -/
theorem advance_accounts {j : Nat}
    (hj : j ∈ r.kept ∨ r.position ≤ j ∧ j < (r.advance S i).position) :
    j = i ∨ j ∈ (r.advance S i).kept ∨ j ∈ r.evicts S i := by
  rw [Receiver.advance] at *
  rw [evicts]
  by_cases hlt : i < r.position
  · simp only [if_pos hlt] at *
    rcases hj with hj | hj
    · by_cases hji : j = i
      · exact .inl hji
      · right
        left
        rw [kept_eraseP]
        exact (mem_erase_of_ne hji).mpr hj
    · omega
  · simp only [if_neg hlt] at *
    by_cases hji : j = i
    · exact .inl hji
    right
    have hmem : j ∈ r.kept ++ range' r.position (i - r.position) := by
      refine mem_append.mpr ?_
      rcases hj with hj | hj
      · exact .inl hj
      · exact .inr (mem_range'_1.mpr (by omega))
    rw [← oldest_append_newest S.maxKeys (r.kept ++ _)] at hmem
    rcases mem_append.mp hmem with hold | hnew
    · exact .inr hold
    · left
      rw [kept, map_newest, map_append, Scheme.keys_fst]
      exact hnew

theorem Sound.advance_used (h : Sound S root base r) :
    i < (r.advance S i).position ∧ i ∉ (r.advance S i).kept := by
  rw [Receiver.advance]
  by_cases hlt : i < r.position
  · simp only [if_pos hlt] at *
    rw [kept_eraseP]
    exact ⟨hlt, h.nodup.not_mem_erase⟩
  simp only [if_neg hlt] at *
  refine ⟨Nat.lt_succ_self i, fun hkept => ?_⟩
  rw [kept, map_newest, map_append, Scheme.keys_fst] at hkept
  rcases mem_append.mp ((newest_sublist _ _).mem hkept) with hold | hnew
  · have := (h.kept_low hold).2
    omega
  · have := mem_range'_1.mp hnew
    omega

theorem advance_position_le (hle : r.position ≤ n) (hi : i < n) : (r.advance S i).position ≤ n := by
  rw [Receiver.advance]
  split
  · exact hle
  · exact hi

theorem advance_keeps_used {j : Nat} (hlt : j < r.position) (hused : j ∉ r.kept) :
    j < (r.advance S i).position ∧ j ∉ (r.advance S i).kept := by
  rw [Receiver.advance]
  by_cases hi : i < r.position
  · simp only [if_pos hi]
    rw [kept_eraseP]
    exact ⟨hlt, fun hmem => hused (mem_of_mem_erase hmem)⟩
  simp only [if_neg hi]
  refine ⟨by omega, fun hkept => ?_⟩
  rw [kept, map_newest, map_append, Scheme.keys_fst] at hkept
  rcases mem_append.mp ((newest_sublist _ _).mem hkept) with hold | hnew
  · exact hused hold
  · have := mem_range'_1.mp hnew
    omega

end Receiver

/-! ## One direction of a conversation -/

/-- A receiver with its history.  The message at position `n` of `sent` has the index
`base + n`. -/
structure Channel (K M C P : Type*) where
  sent : List (C × P)
  receiver : Receiver K M
  delivered : List (Nat × P)
  evicted : List Nat

namespace Channel

variable (S : Scheme K M C P E) (root : K) (base : Nat)

def Honest (ch : Channel K M C P) (i : Nat) (c : C) (p : P) : Prop :=
  base ≤ i ∧ ch.sent[i - base]? = some (c, p)

def send (ch : Channel K M C P) (c : C) (p : P) : Channel K M C P :=
  { ch with sent := ch.sent ++ [(c, p)] }

def deliver (ch : Channel K M C P) (i : Nat) (c : C) : Channel K M C P :=
  match ch.receiver.receive S i c with
  | (.error _, receiver) => { ch with receiver }
  | (.ok p, receiver) => {
      ch with
      receiver
      delivered := ch.delivered ++ [(i, p)]
      evicted := ch.evicted ++ ch.receiver.evicts S i }

/-- Nobody can make a message that opens, except by sending it. -/
def Unforged (ch : Channel K M C P) (i : Nat) (c : C) : Prop :=
  base ≤ i → ∀ p, S.openWith (S.key (S.chainAt root (i - base)) i) i c = .ok p →
    ch.Honest base i c p

structure Sound (ch : Channel K M C P) : Prop where
  receiver : ch.receiver.Sound S root base
  opens : ∀ i c p, ch.Honest base i c p →
    S.openWith (S.key (S.chainAt root (i - base)) i) i c = .ok p
  behind : ch.receiver.position ≤ base + ch.sent.length
  once : (ch.delivered.map Prod.fst).Nodup
  genuine : ∀ d ∈ ch.delivered, ∃ c, ch.Honest base d.1 c d.2
  used : ∀ d ∈ ch.delivered, d.1 < ch.receiver.position ∧ d.1 ∉ ch.receiver.kept
  accounted : ∀ i, base ≤ i → i < ch.receiver.position →
    i ∈ ch.delivered.map Prod.fst ∨ i ∈ ch.receiver.kept ∨ i ∈ ch.evicted

variable {S root base} {ch : Channel K M C P} {i : Nat} {c : C} {p : P}

theorem Honest.lt (h : ch.Honest base i c p) : i < base + ch.sent.length := by
  have hbound := (List.getElem?_eq_some_iff.mp h.2).1
  have := h.1
  omega

theorem honest_send {c' : C} {p' : P} : (ch.send c p).Honest base i c' p' ↔
      ch.Honest base i c' p' ∨ i = base + ch.sent.length ∧ c' = c ∧ p' = p := by
  rw [Honest, Honest, send]
  by_cases hi : base ≤ i
  · rcases Nat.lt_trichotomy (i - base) ch.sent.length with hlt | heq | hgt
    · rw [getElem?_append_left hlt]
      have hne : i ≠ base + ch.sent.length := by omega
      simp [hne]
    · rw [heq, getElem?_concat_length, getElem?_eq_none (Nat.le_refl _)]
      have hi' : i = base + ch.sent.length := by omega
      simp [hi', eq_comm]
    · rw [getElem?_eq_none (by simp; omega), getElem?_eq_none (by omega)]
      have hne : i ≠ base + ch.sent.length := by omega
      simp [hne]
  · have hne : i ≠ base + ch.sent.length := by omega
    simp [hi, hne]

theorem Sound.start (r : Receiver K M) (h : r.Sound S root base) (hpos : r.position = base) :
    Sound S root base ⟨[], r, [], []⟩ where
  receiver := h
  opens := fun i c p hh => by cases hh.2
  behind := Nat.le_of_eq hpos
  once := nodup_nil
  genuine := fun d hd => absurd hd not_mem_nil
  used := fun d hd => absurd hd not_mem_nil
  accounted := fun i hi hlt => by
    have hlt' : i < r.position := hlt
    omega

section

variable (h : Sound S root base ch)

include h

theorem Sound.send
    (hopen : S.openWith (S.key (S.chainAt root ch.sent.length) (base + ch.sent.length))
      (base + ch.sent.length) c = .ok p) : Sound S root base (ch.send c p) where
  receiver := h.receiver
  opens := by
    intro i c' p' hh
    rcases honest_send.mp hh with hh | ⟨rfl, rfl, rfl⟩
    · exact h.opens i c' p' hh
    · rw [Nat.add_sub_cancel_left]
      exact hopen
  behind := by
    have := h.behind
    simp only [Channel.send, length_append, length_singleton]
    omega
  once := h.once
  genuine := by
    intro d hd
    obtain ⟨c', hc'⟩ := h.genuine d hd
    exact ⟨c', honest_send.mpr (.inl hc')⟩
  used := h.used
  accounted := h.accounted

theorem Sound.receive_delivered (hmem : i ∈ ch.delivered.map fst) :
    ∃ err, ch.receiver.receive S i c = (.error err, ch.receiver) := by
  obtain ⟨d, hd, rfl⟩ := mem_map.mp hmem
  obtain ⟨hbehind, hused⟩ := h.used d hd
  rcases h.receiver.receive_eq (i := d.1) (c := c) with ⟨err, -, heq⟩ | ⟨hreach, -⟩
  · exact ⟨err, heq⟩
  · rw [Receiver.Reaches, if_pos hbehind] at hreach
    exact absurd hreach hused

/-- Each message is delivered with the content it was sent with, and not twice. -/
theorem Sound.receive_genuine (hunforged : ch.Unforged S root base i c)
    {r' : Receiver K M} (hreceive : ch.receiver.receive S i c = (.ok p, r')) :
    ch.Honest base i c p ∧ i ∉ ch.delivered.map fst ∧ r' = ch.receiver.advance S i := by
  obtain ⟨hreach, hopen, hadvance⟩ := h.receiver.receive_ok hreceive
  refine ⟨hunforged (h.receiver.base_le_of_reaches hreach) p hopen, ?_, hadvance⟩
  intro hmem
  obtain ⟨err, herr⟩ := h.receive_delivered (c := c) hmem
  rw [herr] at hreceive
  cases hreceive

/-- A message that was sent, is not too far ahead and whose key was not pushed out is
opened, unless it was delivered before. -/
theorem Sound.receive_honest (hh : ch.Honest base i c p)
    (hnear : i ≤ ch.receiver.position + S.maxAhead) (hkept : i ∉ ch.evicted)
    (hnew : i ∉ ch.delivered.map fst) :
    ch.receiver.receive S i c = (.ok p, ch.receiver.advance S i) := by
  refine h.receiver.receive_of_opens ?_ (h.opens i c p hh)
  rw [Receiver.Reaches]
  split
  · rename_i hlt
    rcases h.accounted i hh.1 hlt with hd | hk | he
    · exact absurd hd hnew
    · exact hk
    · exact absurd he hkept
  · omega

theorem Sound.deliver (hunforged : ch.Unforged S root base i c) :
    Sound S root base (ch.deliver S i c) := by
  rw [Channel.deliver]
  generalize hreceive : ch.receiver.receive S i c = result
  obtain ⟨answer, r'⟩ := result
  cases answer with
  | error err =>
    rw [h.receiver.receive_error hreceive]
    exact h
  | ok p =>
    obtain ⟨hh, hnew, rfl⟩ := h.receive_genuine hunforged hreceive
    have hused := h.receiver.advance_used (i := i)
    have hhonest : ∀ j c' p', Honest base
        { ch with
          receiver := ch.receiver.advance S i
          delivered := ch.delivered ++ [(i, p)]
          evicted := ch.evicted ++ ch.receiver.evicts S i } j c' p' ↔ ch.Honest base j c' p' :=
      fun j c' p' => Iff.rfl
    exact {
      receiver := h.receiver.advance hh.1
      opens := fun j c' p' hj => h.opens j c' p' ((hhonest j c' p').mp hj)
      behind := Receiver.advance_position_le h.behind hh.lt
      once := by
        rw [map_append, map_singleton]
        refine nodup_append.mpr ⟨h.once, nodup_singleton i, ?_⟩
        rintro a ha b hb rfl
        rw [mem_singleton] at hb
        subst hb
        exact hnew ha
      genuine := by
        intro d hd
        rcases mem_append.mp hd with hd | hd
        · exact h.genuine d hd
        · rw [mem_singleton.mp hd]
          exact ⟨c, hh⟩
      used := by
        intro d hd
        rcases mem_append.mp hd with hd | hd
        · obtain ⟨hlt, hnot⟩ := h.used d hd
          exact Receiver.advance_keeps_used hlt hnot
        · rw [mem_singleton.mp hd]
          exact hused
      accounted := by
        intro j hj hlt
        have hbefore : j ∈ ch.delivered.map fst ∨ j ∈ ch.evicted ∨
            (j ∈ ch.receiver.kept ∨
              ch.receiver.position ≤ j ∧ j < (ch.receiver.advance S i).position) := by
          by_cases hold : j < ch.receiver.position
          · rcases h.accounted j hj hold with hd | hk | he
            · exact .inl hd
            · exact .inr (.inr (.inl hk))
            · exact .inr (.inl he)
          · exact .inr (.inr (.inr ⟨Nat.le_of_not_lt hold, hlt⟩))
        rw [map_append, mem_append, mem_append]
        rcases hbefore with hd | he | hj
        · exact .inl (.inl hd)
        · exact .inr (.inr (.inl he))
        · rcases Receiver.advance_accounts hj with rfl | hk | he
          · exact .inl (.inr (mem_singleton.mpr rfl))
          · exact .inr (.inl hk)
          · exact .inr (.inr (.inr he)) }

end

end Channel

end SkipRatchet
