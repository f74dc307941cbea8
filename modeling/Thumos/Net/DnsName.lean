import Thumos.Lib.DnsWire
import Thumos.Lib.Utf8
import Thumos.Lib.Ascii

/-!
# The queried domain and the blocklist's suffix rule

`asphaleia-core` reads the name of the first question of a DNS message, label by
label and in lower case, and matches it against the suffixes of a blocklist.
Strings are lists of their UTF-8 bytes.

`extractQueryDomain_eq_some` says for which messages there is a domain, and
`domainMatchesSuffix_iff` what the suffix rule accepts.
-/

namespace Thumos.Asphaleia

open DnsWire Ascii List UInt8

abbrev Text := List UInt8

def dot : UInt8 := 0x2E

def dnsHeaderLen : Nat := 12

def maxLabels : Nat := 128

/-! ## `extract_query_domain` -/

def pushLabel (domain label : Text) : Text :=
  (if domain.isEmpty then domain else domain ++ [dot]) ++ label.map lower

/-- The loop over the labels; `budget` is how many more labels it takes. -/
def extractLabels (data : List UInt8) (budget pos : Nat) (domain : Text) : Option Text :=
  match data[pos]? with
  | none => none
  | some lenByte =>
    if lenByte = 0 then some domain
    -- A compression pointer.
    else if lenByte &&& 0xC0 = 0xC0 then none
    else
      match budget with
      | 0 => none
      | budget + 1 =>
        match sliceAt data (pos + 1) lenByte.toNat with
        | none => none
        | some label =>
          if (Utf8.decode label).isSome then
            extractLabels data budget (pos + 1 + lenByte.toNat) (pushLabel domain label)
          else none

/-- The name of the first question, in lower case. -/
def extractQueryDomain (data : List UInt8) : Option Text :=
  if data.length < dnsHeaderLen then none
  else
    match be16At data 4 with
    | none => none
    | some qdcount =>
      if qdcount = 0 then none
      else
        match extractLabels data maxLabels dnsHeaderLen [] with
        | none => none
        | some domain => if domain.isEmpty then none else some domain

def nameText (ls : List Label) : Text := [dot].intercalate ls

theorem nameText_cons (l : Label) (ls : List Label) :
    nameText (l :: ls) = l ++ ls.flatMap (dot :: ·) := by
  induction ls generalizing l with
  | nil => simp [nameText, intercalate]
  | cons l' ls ih =>
    have hstep : nameText (l :: l' :: ls) = l ++ dot :: nameText (l' :: ls) := by
      simp [nameText, intercalate, intersperse]
    rw [hstep, ih, flatMap_cons]
    rfl

/-- Labels as the loop takes them: short of a pointer's length, and text. -/
structure Readable (ls : List Label) : Prop where
  bounds : ∀ l ∈ ls, 0 < l.length ∧ l.length < 192
  utf8 : ∀ l ∈ ls, (Utf8.decode l).isSome

variable {ls : List Label}

theorem Readable.cons {l : Label} (h : Readable (l :: ls)) :
    (0 < l.length ∧ l.length < 192 ∧ (Utf8.decode l).isSome) ∧ Readable ls := by
  obtain ⟨hpos, hlt⟩ := h.bounds l (by simp)
  exact ⟨⟨hpos, hlt, h.utf8 l (by simp)⟩, fun l' hl' => h.bounds l' (by simp [hl']),
    fun l' hl' => h.utf8 l' (by simp [hl'])⟩

theorem extractLabels_wireName {data rest : List UInt8} (hls : Readable ls) {budget pos : Nat}
    (hbudget : ls.length ≤ budget) (h : data.drop pos = wireName ls ++ rest) (domain : Text) :
    extractLabels data budget pos domain = some (ls.foldl pushLabel domain) := by
  induction ls generalizing budget pos domain with
  | nil =>
    rw [extractLabels.eq_def, (getElem?_of_drop h).1]
    rfl
  | cons l ls ih =>
    obtain ⟨⟨hpos, hlt, hutf8⟩, htail⟩ := hls.cons
    have hlen : (ofNat l.length).toNat = l.length := by
      rw [toNat_ofNat']
      exact Nat.mod_eq_of_lt (by omega)
    have hzero : ofNat l.length ≠ 0 := by
      intro heq
      rw [heq, UInt8.toNat_zero] at hlen
      omega
    have hpointer : ¬ofNat l.length &&& 0xC0 = 0xC0 := by
      rw [isPointer_iff, hlen]
      omega
    rw [wireName_cons, cons_append, append_assoc] at h
    obtain ⟨hbyte, hdrop⟩ := getElem?_of_drop h
    obtain ⟨hlabel, hnext⟩ := sliceAt_of_drop hpos hdrop
    cases budget with
    | zero => cases hbudget
    | succ budget =>
      rw [extractLabels.eq_def, hbyte]
      simp only [hzero, hpointer, hlen, hlabel, hutf8, if_true, if_false]
      exact ih htail (Nat.le_of_succ_le_succ hbudget) hnext _

theorem of_extractLabels {data : List UInt8} {budget pos : Nat} {domain d : Text}
    (h : extractLabels data budget pos domain = some d) :
    ∃ ls rest, data.drop pos = wireName ls ++ rest ∧ Readable ls ∧ ls.length ≤ budget ∧
      d = ls.foldl pushLabel domain := by
  fun_induction extractLabels data budget pos domain with
  | case1 => cases h
  | case2 budget pos domain hbyte =>
    cases h
    refine ⟨[], data.drop (pos + 1), ?_, ⟨by simp, by simp⟩, Nat.zero_le _, rfl⟩
    exact drop_of_getElem? hbyte
  | case3 => cases h
  | case4 => cases h
  | case5 => cases h
  | case6 pos domain lenByte hbyte hzero hpointer budget label hlabel hutf8 ih =>
    obtain ⟨ls, rest, hdrop, hls, hbudget, hd⟩ := ih h
    obtain ⟨hslice, hlen⟩ := sliceAt_eq_some hlabel
    rw [isPointer_iff] at hpointer
    have hpos : 0 < label.length := by
      rw [hlen]
      exact Nat.pos_of_ne_zero fun h0 => hzero (UInt8.toNat_inj.mp h0)
    have hof : UInt8.ofNat label.length = lenByte := by rw [hlen, UInt8.ofNat_toNat]
    refine ⟨label :: ls, rest, ?_, ⟨?_, ?_⟩, Nat.succ_le_succ hbudget, hd⟩
    · rw [drop_of_getElem? hbyte, hslice, hdrop, wireName_cons, hof, cons_append,
        append_assoc]
    · rw [forall_mem_cons]
      exact ⟨⟨hpos, by omega⟩, hls.bounds⟩
    · rw [forall_mem_cons]
      exact ⟨hutf8, hls.utf8⟩
  | case7 => cases h

theorem foldl_pushLabel {domain : Text} (h : domain ≠ []) :
    ls.foldl pushLabel domain = domain ++ (ls.flatMap (dot :: ·)).map lower := by
  induction ls generalizing domain with
  | nil => simp
  | cons l ls ih =>
    have hpush : pushLabel domain l = domain ++ dot :: l.map lower := by
      rw [pushLabel, if_neg (by simpa using h), append_assoc]
      rfl
    have hdot : lower dot = dot := by decide
    rw [foldl_cons, hpush, ih (by simp), flatMap_cons, map_append, map_cons,
      hdot, append_assoc]

theorem foldl_pushLabel_nil (h : ∀ l ∈ ls, 0 < l.length) :
    ls.foldl pushLabel [] = (nameText ls).map lower := by
  cases ls with
  | nil => rfl
  | cons l ls =>
    have hl : l.map lower ≠ [] := by
      intro hnil
      have := h l (by simp)
      rw [map_eq_nil_iff.mp hnil] at this
      cases this
    have hpush : pushLabel [] l = l.map lower := rfl
    rw [foldl_cons, hpush, foldl_pushLabel hl, nameText_cons, map_append]

/-- The message has a question, and its first name is one that can be read. -/
structure FirstName (data : List UInt8) (ls : List Label) : Prop where
  header : dnsHeaderLen ≤ data.length
  counted : ∃ qdcount, be16At data 4 = some qdcount ∧ qdcount ≠ 0
  wire : ∃ rest, data.drop dnsHeaderLen = wireName ls ++ rest
  readable : Readable ls
  count : ls.length ≤ maxLabels
  nonempty : ls ≠ []

theorem nameText_ne_nil (h : ls ≠ []) (hls : ∀ l ∈ ls, 0 < l.length) :
    nameText ls ≠ [] := by
  cases ls with
  | nil => exact absurd rfl h
  | cons l ls =>
    intro hnil
    rw [nameText_cons] at hnil
    have := hls l (by simp)
    rw [(append_eq_nil_iff.mp hnil).1] at this
    cases this

theorem extractQueryDomain_eq_some {data : List UInt8} {d : Text} :
    extractQueryDomain data = some d ↔ ∃ ls, FirstName data ls ∧ d = (nameText ls).map lower := by
  constructor
  · intro h
    rw [extractQueryDomain] at h
    split at h
    · cases h
    rename_i hheader
    cases hcount : be16At data 4 with
    | none => simp only [hcount, reduceCtorEq] at h
    | some qdcount =>
      simp only [hcount] at h
      split at h
      · cases h
      rename_i hne
      cases hloop : extractLabels data maxLabels dnsHeaderLen [] with
      | none => simp only [hloop, reduceCtorEq] at h
      | some domain =>
        obtain ⟨ls, rest, hdrop, hls, hbudget, hdomain⟩ := of_extractLabels hloop
        rw [foldl_pushLabel_nil fun l hl => (hls.bounds l hl).1] at hdomain
        simp only [hloop] at h
        split at h
        · cases h
        rename_i hempty
        cases h
        refine ⟨ls, ⟨Nat.le_of_not_lt hheader, ⟨qdcount, hcount, hne⟩, ⟨rest, hdrop⟩, hls,
          hbudget, ?_⟩, hdomain⟩
        rintro rfl
        exact hempty (by rw [hdomain]; rfl)
  · rintro ⟨ls, hfirst, rfl⟩
    obtain ⟨hheader, ⟨qdcount, hcount, hne⟩, ⟨rest, hdrop⟩, hls, hbudget, hnonempty⟩ := hfirst
    have hlen : ∀ l ∈ ls, 0 < l.length := fun l hl => (hls.bounds l hl).1
    have hloop := extractLabels_wireName hls hbudget hdrop []
    rw [foldl_pushLabel_nil hlen] at hloop
    have hempty : ¬((nameText ls).map lower).isEmpty = true := by
      simpa using nameText_ne_nil hnonempty hlen
    rw [extractQueryDomain, if_neg (Nat.not_lt.mpr hheader), hcount]
    simp only [hne, hloop, hempty, if_false]
    rfl

/-! ## The suffix rule -/

def stripSuffix (s suffix : Text) : Option Text :=
  if suffix.isSuffixOf s then some (s.take (s.length - suffix.length)) else none

def domainMatchesSuffix (domain suffix : Text) : Bool :=
  domain == suffix || (stripSuffix domain suffix).any fun rest => rest.getLast? == some dot

/-- An entry of a blocklist without a leading `*.`. -/
def normalizeSuffix (entry : Text) : Text :=
  if (ascii "*.").isPrefixOf entry then entry.drop 2 else entry

/-- A suffix matches itself and every text that ends in it after a dot. -/
theorem domainMatchesSuffix_iff {domain suffix : Text} :
    domainMatchesSuffix domain suffix ↔
      domain = suffix ∨ ∃ pre, domain = pre ++ dot :: suffix := by
  rw [domainMatchesSuffix, Bool.or_eq_true, beq_iff_eq]
  refine or_congr Iff.rfl ?_
  constructor
  · intro h
    rw [stripSuffix] at h
    split at h
    · next hsuffix =>
      obtain ⟨pre, rfl⟩ := isSuffixOf_iff_suffix.mp hsuffix
      rw [Option.any_some, length_append, Nat.add_sub_cancel, take_left,
        beq_iff_eq] at h
      obtain ⟨pre', rfl⟩ := getLast?_eq_some_iff.mp h
      exact ⟨pre', by simp⟩
    · cases h
  · rintro ⟨pre, rfl⟩
    have hsuffix : suffix.isSuffixOf (pre ++ dot :: suffix) = true := by
      rw [isSuffixOf_iff_suffix]
      exact ⟨pre ++ [dot], by simp⟩
    have hlen : (pre ++ dot :: suffix).length - suffix.length = (pre ++ [dot]).length := by
      simp only [length_append, length_cons, length_nil]
      omega
    have htake : (pre ++ dot :: suffix).take (pre ++ [dot]).length = pre ++ [dot] := by
      have happend : pre ++ dot :: suffix = (pre ++ [dot]) ++ suffix := by simp
      rw [happend, take_left]
    rw [stripSuffix, if_pos hsuffix, hlen, htake]
    simp

end Thumos.Asphaleia
