import Thumos.Lib.Utf8
import Thumos.Net.HttpRequest

/-!
# HTTP responses

`HttpResponse::parse` is called on a growing buffer: it looks for the empty line
that ends the header block, reads the status line and the headers, and takes the
body that the first Content-Length header announces.

`response_framing` says that a response of well-formed headers within the
parser's limits is read back whatever follows it, and that every cut of it is
incomplete.
-/

namespace Thumos.Http

open Ascii Http1 HttpRequest Decimal List Option

def maxResponseHeaders : Nat := 64

def maxHeaderBlockSize : Nat := 16384

def maxBodySize : Nat := 1048576

/-! ## Text -/

def isWhitespace (c : Char) : Bool :=
  (9 ≤ c.toNat && c.toNat ≤ 13) || c.toNat == 0x20 || c.toNat == 0x85 || c.toNat == 0xA0 ||
    c.toNat == 0x1680 || (0x2000 ≤ c.toNat && c.toNat ≤ 0x200A) || c.toNat == 0x2028 ||
    c.toNat == 0x2029 || c.toNat == 0x202F || c.toNat == 0x205F || c.toNat == 0x3000

def trim (cs : List Char) : List Char :=
  ((cs.dropWhile isWhitespace).reverse.dropWhile isWhitespace).reverse

def trimmedText (bytes : List UInt8) : Option Text :=
  (Utf8.decode bytes).map fun cs => Utf8.encode (trim cs)

/-- The digits of `str::parse::<usize>`, of 32 bits on the target. -/
def parseUsizeDigits : Text → Nat → Option Nat
  | [], n => some n
  | b :: bs, n =>
    match Decimal.digitValue b with
    | none => none
    | some d => if 2 ^ 32 ≤ n * 10 + d then none else parseUsizeDigits bs (n * 10 + d)

/-- `str::parse::<usize>`; a plus sign may stand before the digits. -/
def parseUsize (s : Text) : Option Nat :=
  match s with
  | [] => none
  | b :: bs =>
    if b = 43 then if bs.isEmpty then none else parseUsizeDigits bs 0
    else parseUsizeDigits (b :: bs) 0

/-! ## The parser -/

def findHeaderEnd : List UInt8 → Option Nat
  | [] => none
  | b :: bs =>
    if b = 13 ∧ [10, 13, 10].isPrefixOf bs then some 0 else (findHeaderEnd bs).map (· + 1)

def findCrlf : List UInt8 → Option Nat
  | [] => none
  | b :: bs => if b = 13 ∧ bs.head? = some 10 then some 0 else (findCrlf bs).map (· + 1)

def memchrByte (needle : UInt8) (haystack : List UInt8) : Option Nat :=
  haystack.findIdx? (· == needle)

def parseU16FromAscii (bytes : List UInt8) : Option Nat :=
  match bytes with
  | [h, t, o] => do
    let h ← Decimal.digitValue h
    let t ← Decimal.digitValue t
    let o ← Decimal.digitValue o
    some (h * 100 + t * 10 + o)
  | _ => none

/-- The status code, and where the line after the status line starts. -/
def parseStatusLine (headerBlock : List UInt8) : Except HttpError (Nat × Nat) :=
  match findCrlf headerBlock with
  | none => .error .malformedStatusLine
  | some lineEnd =>
    let line := headerBlock.take lineEnd
    if line.length < 12 then .error .malformedStatusLine
    else if ¬(ascii "HTTP/").isPrefixOf line then .error .malformedStatusLine
    else
      match memchrByte 32 line with
      | none => .error .malformedStatusLine
      | some firstSpace =>
        if line.length < firstSpace + 1 + 3 then .error .malformedStatusLine
        else
          match parseU16FromAscii ((line.drop (firstSpace + 1)).take 3) with
          | none => .error .invalidStatusCode
          | some status =>
            if 100 ≤ status ∧ status ≤ 599 then .ok (status, lineEnd + 2)
            else .error .invalidStatusCode

def parseHeaderLine (line : List UInt8) : Except HttpError (Text × Text) :=
  match memchrByte 58 line with
  | none => .error .malformedHeader
  | some 0 => .error .malformedHeader
  | some colon =>
    match trimmedText (line.take colon), trimmedText (line.drop (colon + 1)) with
    | some name, some value => .ok (name, value)
    | _, _ => .error .malformedHeader

/-- The loop of `parse_headers` on what is left of the block.  Each turn takes at least one byte,
so as many turns as there are bytes are enough. -/
def parseHeaderLines : Nat → List UInt8 → List (Text × Text) → Except HttpError (List (Text × Text))
  | 0, _, headers => .ok headers
  | n + 1, data, headers =>
    if data.isEmpty then .ok headers
    else if crlf.isPrefixOf data then parseHeaderLines n (data.drop 2) headers
    else
      let lineEnd := (findCrlf data).getD data.length
      match parseHeaderLine (data.take lineEnd) with
      | .error e => .error e
      | .ok header =>
        if maxResponseHeaders < (headers ++ [header]).length then .error .tooManyHeaders
        else parseHeaderLines n (data.drop (lineEnd + 2)) (headers ++ [header])

def parseHeaders (data : List UInt8) : Except HttpError (List (Text × Text)) :=
  parseHeaderLines data.length data []

def findContentLength (headers : List (Text × Text)) : Except HttpError (Option Nat) :=
  match headers.find? fun h => eqIgnoreCase h.1 (ascii "content-length") with
  | none => .ok none
  | some h =>
    match (trimmedText h.2).bind parseUsize with
    | none => .error .invalidContentLength
    | some len => .ok (some len)

structure HttpResponse where
  status : Nat
  headers : List (Text × Text)
  body : List UInt8
  consumed : Nat
  deriving DecidableEq

def takeBody (data : List UInt8) (bodyStart : Nat) (contentLength : Option Nat) :
    Except HttpError (List UInt8) :=
  match contentLength with
  | some len =>
    if maxBodySize < len then .error .bodyTooLarge
    else if data.length - bodyStart < len then .error .incomplete
    else .ok ((data.drop bodyStart).take len)
  | none =>
    if maxBodySize < (data.drop bodyStart).length then .error .bodyTooLarge
    else .ok (data.drop bodyStart)

def HttpResponse.parse (data : List UInt8) : Except HttpError HttpResponse := do
  match findHeaderEnd data with
  | none => .error .incomplete
  | some headerEnd =>
    if maxHeaderBlockSize < headerEnd then .error .headerBlockTooLarge
    else
      let headerBlock := data.take headerEnd
      let bodyStart := headerEnd + 4
      let (status, firstLineEnd) ← parseStatusLine headerBlock
      let headers ← parseHeaders (headerBlock.drop firstLineEnd)
      let contentLength ← findContentLength headers
      let body ← takeBody data bodyStart contentLength
      .ok ⟨status, headers, body, bodyStart + body.length⟩

/-! ## Lines of a header block -/

def joinLines (line : List UInt8) (lines : List (List UInt8)) : List UInt8 :=
  line ++ lines.flatMap (crlf ++ ·)

theorem joinLines_append_crlf (line : List UInt8) (lines : List (List UInt8)) :
    joinLines line lines ++ crlf = (line :: lines).flatMap (· ++ crlf) := by
  induction lines generalizing line with
  | nil => simp [joinLines]
  | cons l lines ih =>
    rw [flatMap_cons, ← ih]
    simp [joinLines]

variable {line : List UInt8} {s : Text} {h : Text × Text} {n status : Nat} {reason : Text}
  {headers : List (Text × Text)}

theorem findHeaderEnd_append (h : 13 ∉ line) (rest : List UInt8) :
    findHeaderEnd (line ++ rest) = (findHeaderEnd rest).map (line.length + ·) := by
  induction line with
  | nil => simp
  | cons b line ih =>
    have hb : ¬(b = 13 ∧ [10, 13, 10].isPrefixOf (line ++ rest) = true) :=
      fun hb => h (by simp [hb.1])
    rw [cons_append, findHeaderEnd, if_neg hb, ih fun hmem => h (by simp [hmem]),
      Option.map_map, length_cons]
    congr 1
    funext n
    change line.length + n + 1 = line.length + 1 + n
    omega

theorem findHeaderEnd_crlf (hne : line ≠ []) (h : 13 ∉ line) (rest : List UInt8) :
    findHeaderEnd (crlf ++ (line ++ rest)) =
      (findHeaderEnd rest).map ((crlf ++ line).length + ·) := by
  cases line with
  | nil => exact absurd rfl hne
  | cons b line =>
    have hb : b ≠ 13 := fun hb => h (by simp [hb])
    have hfirst : ¬((13 : UInt8) = 13 ∧
      [10, 13, 10].isPrefixOf (10 :: (b :: line ++ rest)) = true) := by
      simp [isPrefixOf, hb.symm]
    have hsecond : ¬((10 : UInt8) = 13 ∧ [10, 13, 10].isPrefixOf (b :: line ++ rest) = true) := by
      simp
    have hcrlf : crlf ++ (b :: line ++ rest) = 13 :: 10 :: (b :: line ++ rest) := rfl
    rw [hcrlf, findHeaderEnd, if_neg hfirst, findHeaderEnd, if_neg hsecond,
      findHeaderEnd_append h, Option.map_map, Option.map_map]
    congr 1
    funext n
    simp only [Function.comp_apply, length_append, length_cons]
    have : crlf.length = 2 := rfl
    omega

theorem findHeaderEnd_joinLines {lines : List (List UInt8)} (hline : 13 ∉ line)
    (hlines : ∀ l ∈ lines, l ≠ [] ∧ 13 ∉ l) (rest : List UInt8) :
    findHeaderEnd (joinLines line lines ++ (crlf ++ (crlf ++ rest))) =
      some (joinLines line lines).length := by
  have htail : findHeaderEnd (lines.flatMap (crlf ++ ·) ++ (crlf ++ (crlf ++ rest))) =
      some (lines.flatMap (crlf ++ ·)).length := by
    induction lines with
    | nil => rfl
    | cons l lines ih =>
      obtain ⟨hne, hcr⟩ := hlines l (by simp)
      rw [flatMap_cons, append_assoc, append_assoc, findHeaderEnd_crlf hne hcr,
        ih fun l' hl' => hlines l' (by simp [hl']), map_some]
      simp only [length_append]
  rw [joinLines, append_assoc, findHeaderEnd_append hline, htail, map_some,
    length_append]

theorem add_four_le_of_findHeaderEnd {data : List UInt8} {e : Nat}
    (h : findHeaderEnd data = some e) : e + 4 ≤ data.length := by
  induction data generalizing e with
  | nil => cases h
  | cons b bs ih =>
    rw [findHeaderEnd] at h
    split at h
    · next hhere =>
      cases h
      have hlen := (List.isPrefixOf_iff_prefix.mp hhere.2).length_le
      rw [length_cons]
      exact Nat.succ_le_succ hlen
    · obtain ⟨e', he', rfl⟩ := map_eq_some_iff.mp h
      have := ih he'
      rw [length_cons]
      omega

theorem findHeaderEnd_take {data : List UInt8} {e n : Nat} (h : findHeaderEnd data = some e)
    (hn : n < e + 4) : findHeaderEnd (data.take n) = none := by
  induction data generalizing e n with
  | nil => cases h
  | cons b bs ih =>
    cases n with
    | zero => rfl
    | succ n =>
      by_contra hfound
      obtain ⟨e', he'⟩ := ne_none_iff_exists'.mp hfound
      have hlen := add_four_le_of_findHeaderEnd he'
      rw [take_succ_cons, findHeaderEnd] at he'
      rw [take_succ_cons, length_cons, length_take] at hlen
      rw [findHeaderEnd] at h
      split at h
      · cases h
        omega
      rename_i hhere
      obtain ⟨e, he, rfl⟩ := map_eq_some_iff.mp h
      rw [ih he (by omega)] at he'
      split at he'
      · next hcut =>
        -- An empty line in the cut is one in the whole.
        have hprefix := (List.isPrefixOf_iff_prefix.mp hcut.2).trans (List.take_prefix n bs)
        exact hhere ⟨hcut.1, isPrefixOf_iff_prefix.mpr hprefix⟩
      · cases he'

theorem findCrlf_append (h : 13 ∉ line) (rest : List UInt8) :
    findCrlf (line ++ rest) = (findCrlf rest).map (line.length + ·) := by
  induction line with
  | nil => simp
  | cons b line ih =>
    have hb : ¬(b = 13 ∧ (line ++ rest).head? = some 10) := fun hb => h (by simp [hb.1])
    rw [cons_append, findCrlf, if_neg hb, ih fun hmem => h (by simp [hmem]),
      Option.map_map, length_cons]
    congr 1
    funext n
    change line.length + n + 1 = line.length + 1 + n
    omega

theorem findCrlf_line (h : 13 ∉ line) (rest : List UInt8) :
    findCrlf (line ++ (crlf ++ rest)) = some line.length := by
  rw [findCrlf_append h]
  rfl

theorem findCrlf_eq_none (h : 13 ∉ line) : findCrlf line = none := by
  have hnil := findCrlf_append h []
  rw [append_nil] at hnil
  exact hnil

/-! ## Well-formed headers -/

def Trimmed (s : Text) : Prop :=
  ∃ cs, Utf8.encode cs = s ∧ (∀ c ∈ cs.head?, isWhitespace c = false) ∧
    ∀ c ∈ cs.getLast?, isWhitespace c = false

structure WellFormed (h : Text × Text) : Prop where
  name : h.1 ≠ []
  colon : 58 ∉ h.1
  cr : 13 ∉ h.1 ∧ 13 ∉ h.2
  trimmed : Trimmed h.1 ∧ Trimmed h.2

theorem dropWhile_of_head {cs : List Char} (h : ∀ c ∈ cs.head?, isWhitespace c = false) :
    cs.dropWhile isWhitespace = cs := by
  cases cs with
  | nil => rfl
  | cons c cs => exact dropWhile_cons_of_neg (by simp [h c rfl])

theorem trim_eq_self {cs : List Char} (hhead : ∀ c ∈ cs.head?, isWhitespace c = false)
    (hlast : ∀ c ∈ cs.getLast?, isWhitespace c = false) : trim cs = cs := by
  rw [trim, dropWhile_of_head hhead, dropWhile_of_head (by rwa [head?_reverse]),
    reverse_reverse]

theorem Trimmed.trimmedText (h : Trimmed s) : trimmedText s = some s := by
  obtain ⟨cs, rfl, hhead, hlast⟩ := h
  rw [Http.trimmedText, Utf8.decode_encode, map_some, trim_eq_self hhead hlast]

theorem Trimmed.trimmedText_space (h : Trimmed s) :
    Http.trimmedText (32 :: s) = some s := by
  obtain ⟨cs, rfl, hhead, hlast⟩ := h
  have hspace : Utf8.encode (' ' :: cs) = 32 :: Utf8.encode cs := by
    rw [Utf8.encode_cons]
    rfl
  have htrim : trim (' ' :: cs) = trim cs := by
    rw [trim, dropWhile_cons_of_pos (by decide)]
    rfl
  rw [← hspace, Http.trimmedText, Utf8.decode_encode, map_some, htrim,
    trim_eq_self hhead hlast]

theorem memchrByte_append {needle : UInt8} {s : List UInt8} (h : needle ∉ s) (rest : List UInt8) :
    memchrByte needle (s ++ needle :: rest) = some s.length := by
  have hnone : s.findIdx? (· == needle) = none := by
    rw [findIdx?_eq_none_iff]
    intro b hb
    exact beq_false_of_ne fun heq => h (heq ▸ hb)
  rw [memchrByte, findIdx?_append, hnone, findIdx?_cons]
  simp

theorem parseHeaderLine_headerLine (hwf : WellFormed h) :
    parseHeaderLine (headerLine h) = .ok h := by
  obtain ⟨k, hk⟩ : ∃ k, h.1.length = k + 1 :=
    Nat.exists_eq_succ_of_ne_zero fun h0 => hwf.name (length_eq_zero_iff.mp h0)
  have hline : headerLine h = h.1 ++ 58 :: (32 :: h.2) := by simp [headerLine]
  have hcolon : memchrByte 58 (headerLine h) = some (k + 1) := by
    rw [hline, memchrByte_append hwf.colon, hk]
  have hname : (headerLine h).take (k + 1) = h.1 := by
    rw [hline, ← hk, take_left]
  have hvalue : (headerLine h).drop (k + 1 + 1) = 32 :: h.2 := by
    rw [hline, ← drop_drop, ← hk, drop_left]
    rfl
  rw [parseHeaderLine, hcolon]
  simp only [hname, hvalue, hwf.trimmed.1.trimmedText, hwf.trimmed.2.trimmedText_space]

theorem headerLine_cr (hwf : WellFormed h) : 13 ∉ headerLine h := by
  simp [headerLine, hwf.cr.1, hwf.cr.2]

theorem parseHeaderLines_headerLine (hwf : WellFormed h) {acc : List (Text × Text)}
    (hcount : acc.length < maxResponseHeaders) {tail : List UInt8}
    (htail : tail = [] ∨ ∃ rest, tail = crlf ++ rest) (n : Nat) :
    parseHeaderLines (n + 1) (headerLine h ++ tail) acc =
      parseHeaderLines n (tail.drop 2) (acc ++ [h]) := by
  have hend : (findCrlf (headerLine h ++ tail)).getD (headerLine h ++ tail).length =
      (headerLine h).length := by
    rcases htail with rfl | ⟨rest, rfl⟩
    · rw [append_nil, findCrlf_eq_none (headerLine_cr hwf), getD_none]
    · rw [findCrlf_line (headerLine_cr hwf), getD_some]
  have hstart : crlf.isPrefixOf (headerLine h ++ tail) = false ∧
      (headerLine h ++ tail).isEmpty = false := by
    obtain ⟨name, value⟩ := h
    cases name with
    | nil => exact absurd rfl hwf.name
    | cons b name =>
      have hb : 13 ≠ b := fun hb => hwf.cr.1 (by simp [hb])
      simp [headerLine, crlf, isPrefixOf, hb]
  have hdrop : (headerLine h ++ tail).drop ((headerLine h).length + 2) = tail.drop 2 := by
    rw [← drop_drop, drop_left]
  have hcount' : ¬maxResponseHeaders < (acc ++ [h]).length := by
    rw [length_append, length_singleton]
    omega
  rw [parseHeaderLines]
  simp only [hstart.1, hstart.2, hend, take_left, parseHeaderLine_headerLine hwf, hcount',
    hdrop, Bool.false_eq_true, if_false]

theorem parseHeaderLines_joinLines {hs : List (Text × Text)} (hwf : ∀ x ∈ h :: hs, WellFormed x)
    {acc : List (Text × Text)} (hcount : acc.length + (h :: hs).length ≤ maxResponseHeaders)
    (hn : (h :: hs).length < n) :
    parseHeaderLines n (joinLines (headerLine h) (hs.map headerLine)) acc =
      .ok (acc ++ h :: hs) := by
  induction hs generalizing h acc n with
  | nil =>
    rw [length_singleton] at hn hcount
    obtain ⟨n, rfl⟩ : ∃ m, n = m + 2 := ⟨n - 2, by omega⟩
    have hacc : acc.length < maxResponseHeaders := by omega
    rw [joinLines, map_nil, flatMap_nil,
      parseHeaderLines_headerLine (hwf h (by simp)) hacc (.inl rfl)]
    rfl
  | cons h' hs ih =>
    rw [length_cons] at hn hcount
    obtain ⟨n, rfl⟩ : ∃ m, n = m + 1 := ⟨n - 1, by omega⟩
    have hjoin : joinLines (headerLine h) ((h' :: hs).map headerLine) =
        headerLine h ++ (crlf ++ joinLines (headerLine h') (hs.map headerLine)) := by
      simp [joinLines]
    have hdrop : (crlf ++ joinLines (headerLine h') (hs.map headerLine)).drop 2 =
        joinLines (headerLine h') (hs.map headerLine) := rfl
    rw [hjoin, parseHeaderLines_headerLine (hwf h (by simp))
      (by rw [length_cons] at hcount; omega) (.inr ⟨_, rfl⟩), hdrop,
      ih (fun x hx => hwf x (by simp [hx]))
        (by rw [length_append, length_singleton]; omega) (by omega)]
    simp

/-! ## Responses -/

def statusLine (status : Nat) (reason : Text) : List UInt8 :=
  ascii "HTTP/1.1 " ++ ([Decimal.digit (status / 100), Decimal.digit (status / 10 % 10),
    Decimal.digit (status % 10)] ++ (32 :: reason))

def headBlock (status : Nat) (reason : Text) (headers : List (Text × Text)) : List UInt8 :=
  joinLines (statusLine status reason) (headers.map headerLine)

def serialize (status : Nat) (reason : Text) (headers : List (Text × Text)) (body : List UInt8) :
    List UInt8 :=
  (statusLine status reason :: headers.map headerLine).flatMap (· ++ crlf) ++ (crlf ++ body)

theorem serialize_append (status : Nat) (reason : Text) (headers : List (Text × Text))
    (body rest : List UInt8) :
    serialize status reason headers body ++ rest =
      headBlock status reason headers ++ (crlf ++ (crlf ++ (body ++ rest))) := by
  rw [serialize, ← joinLines_append_crlf, headBlock]
  simp only [append_assoc]

theorem statusLine_cr (h599 : status ≤ 599) (hreason : 13 ∉ reason) :
    13 ∉ statusLine status reason := by
  have hdigit : ∀ d < 10, 13 ≠ digit d := by
    intro d hd heq
    have := toNat_digit hd
    rw [← heq] at this
    have h13 : (13 : UInt8).toNat = 13 := rfl
    omega
  have hversion : 13 ∉ ascii "HTTP/1.1 " := by decide
  have h₁ := hdigit (status / 100) (by omega)
  have h₂ := hdigit (status / 10 % 10) (by omega)
  have h₃ := hdigit (status % 10) (by omega)
  simp [statusLine, hversion, h₁, h₂, h₃, hreason]

theorem parseStatusLine_headBlock (h100 : 100 ≤ status) (h599 : status ≤ 599)
    (hreason : 13 ∉ reason) (hne : headers ≠ []) :
    parseStatusLine (headBlock status reason headers) =
      .ok (status, (statusLine status reason).length + 2) := by
  obtain ⟨h, hs, rfl⟩ := exists_cons_of_ne_nil hne
  have hblock : headBlock status reason (h :: hs) =
      statusLine status reason ++ (crlf ++ joinLines (headerLine h) (hs.map headerLine)) := by
    simp [headBlock, joinLines]
  have hcode : parseU16FromAscii [digit (status / 100), digit (status / 10 % 10),
      digit (status % 10)] = some status := by
    rw [parseU16FromAscii, digitValue_digit (by omega),
      digitValue_digit (by omega), digitValue_digit (by omega)]
    simp only [bind_eq_bind, bind_some, some.injEq]
    omega
  have hlength : ¬(statusLine status reason).length < 12 := by
    simp [statusLine, ascii]
  have hspace : memchrByte 32 (statusLine status reason) = some 8 := rfl
  have hthree : ((statusLine status reason).drop 9).take 3 =
      [digit (status / 100), digit (status / 10 % 10),
        digit (status % 10)] := rfl
  have hprefix : (ascii "HTTP/").isPrefixOf (statusLine status reason) = true := rfl
  rw [hblock, parseStatusLine, findCrlf_line (statusLine_cr h599 hreason)]
  simp only [take_left, hlength, hspace, hthree, hcode, hprefix, h100, h599, if_false,
    if_true, and_self, not_true_eq_false]

/-! ## The length of the body -/

theorem le_of_readFrom {n m : Nat} (h : readFrom s n = some m) : n ≤ m := by
  induction s generalizing n with
  | nil =>
    cases h
    exact le_rfl
  | cons b s ih =>
    rw [readFrom] at h
    split at h
    · cases h
    · have := ih h
      omega

theorem parseUsizeDigits_eq {n m : Nat} (h : readFrom s n = some m) (hm : m < 2 ^ 32) :
    parseUsizeDigits s n = some m := by
  induction s generalizing n with
  | nil => exact h
  | cons b s ih =>
    rw [readFrom] at h
    rw [parseUsizeDigits]
    cases hd : digitValue b with
    | none => simp only [hd, reduceCtorEq] at h
    | some d =>
      simp only [hd] at h
      have hle := le_of_readFrom h
      simp only [if_neg (show ¬2 ^ 32 ≤ n * 10 + d by omega)]
      exact ih h

theorem parseUsize_eq (h : Decimal.read s = some n) (hn : n < 2 ^ 32) : parseUsize s = some n := by
  rw [Decimal.read] at h
  cases s with
  | nil => cases h
  | cons b s =>
    have hread : readFrom (b :: s) 0 = some n := h
    have hplus : b ≠ 43 := by
      rintro rfl
      cases h
    rw [parseUsize, if_neg hplus, parseUsizeDigits_eq hread hn]

/-- One header tells the length of the body in decimal digits, and no other does. -/
def OneLength (headers : List (Text × Text)) (n : Nat) : Prop :=
  ∃ pre name value post, headers = pre ++ (name, value) :: post ∧ Decimal.read value = some n ∧
    eqIgnoreCase name (ascii "content-length") = true ∧
    ∀ h ∈ pre ++ post, eqIgnoreCase h.1 (ascii "content-length") = false

theorem findContentLength_eq (h : OneLength headers n) (hwf : ∀ x ∈ headers, WellFormed x)
    (hn : n < 2 ^ 32) :
    findContentLength headers = .ok (some n) := by
  obtain ⟨pre, name, value, post, rfl, hread, hname, hother⟩ := h
  have hpre : pre.find? (fun h => eqIgnoreCase h.1 (ascii "content-length")) = none := by
    rw [find?_eq_none]
    intro x hx
    simp [hother x (by simp [hx])]
  have hvalue := (hwf (name, value) (by simp)).trimmed.2.trimmedText
  have hfind : (pre ++ (name, value) :: post).find?
      (fun h => eqIgnoreCase h.1 (ascii "content-length")) = some (name, value) := by
    rw [find?_append, hpre, none_or, find?_cons_of_pos]
    exact hname
  rw [findContentLength, hfind]
  simp only [hvalue, bind_some, parseUsize_eq hread hn]

/-! ## Framing -/

theorem parseHeaders_headBlock (hwf : ∀ x ∈ headers, WellFormed x)
    (hcount : headers.length ≤ maxResponseHeaders) (hne : headers ≠ []) :
    parseHeaders ((headBlock status reason headers).drop ((statusLine status reason).length + 2)) =
      .ok headers := by
  obtain ⟨h, hs, rfl⟩ := exists_cons_of_ne_nil hne
  have hdrop : (headBlock status reason (h :: hs)).drop ((statusLine status reason).length + 2) =
      joinLines (headerLine h) (hs.map headerLine) := by
    have hblock : headBlock status reason (h :: hs) =
        statusLine status reason ++ (crlf ++ joinLines (headerLine h) (hs.map headerLine)) := by
      simp [headBlock, joinLines]
    rw [hblock, ← drop_drop, drop_left]
    rfl
  have hlen : ∀ ls : List (List UInt8), ls.length ≤ (ls.flatMap (crlf ++ ·)).length := by
    intro ls
    induction ls with
    | nil => exact le_refl 0
    | cons l ls ih =>
      rw [flatMap_cons, length_append, length_append, length_cons]
      have : crlf.length = 2 := rfl
      omega
  have hfuel : (h :: hs).length < (joinLines (headerLine h) (hs.map headerLine)).length := by
    have hhs := hlen (hs.map headerLine)
    rw [length_map] at hhs
    rw [joinLines, length_append, length_cons]
    have hline : 2 ≤ (headerLine h).length := by
      simp [headerLine]
      omega
    omega
  rw [hdrop, parseHeaders]
  exact parseHeaderLines_joinLines hwf (by rw [length_nil]; omega) hfuel

theorem findHeaderEnd_headBlock (h599 : status ≤ 599) (hreason : 13 ∉ reason)
    (hwf : ∀ x ∈ headers, WellFormed x) (tail : List UInt8) :
    findHeaderEnd (headBlock status reason headers ++ (crlf ++ (crlf ++ tail))) =
      some (headBlock status reason headers).length := by
  refine findHeaderEnd_joinLines (statusLine_cr h599 hreason) ?_ tail
  intro l hl
  obtain ⟨x, hx, rfl⟩ := mem_map.mp hl
  exact ⟨by simp [headerLine], headerLine_cr (hwf x hx)⟩

theorem parse_headBlock (h100 : 100 ≤ status) (h599 : status ≤ 599) (hreason : 13 ∉ reason)
    (hwf : ∀ x ∈ headers, WellFormed x) (hcount : headers.length ≤ maxResponseHeaders)
    (hlength : OneLength headers n) (hn : n < 2 ^ 32)
    (hsize : (headBlock status reason headers).length ≤ maxHeaderBlockSize) (tail : List UInt8) :
    HttpResponse.parse (headBlock status reason headers ++ (crlf ++ (crlf ++ tail))) =
      if maxBodySize < n then .error .bodyTooLarge
      else if tail.length < n then .error .incomplete
      else .ok ⟨status, headers, tail.take n,
        (headBlock status reason headers).length + 4 + n⟩ := by
  have hne : headers ≠ [] := by
    obtain ⟨pre, name, value, post, rfl, -⟩ := hlength
    simp
  have hbody : (headBlock status reason headers ++ (crlf ++ (crlf ++ tail))).drop
      ((headBlock status reason headers).length + 4) = tail := by
    rw [← drop_drop, drop_left]
    rfl
  have havailable : (headBlock status reason headers ++ (crlf ++ (crlf ++ tail))).length -
      ((headBlock status reason headers).length + 4) = tail.length := by
    rw [← length_drop, hbody]
  rw [HttpResponse.parse, findHeaderEnd_headBlock h599 hreason hwf]
  simp only [if_neg (not_lt.mpr hsize), take_left,
    parseStatusLine_headBlock h100 h599 hreason hne, parseHeaders_headBlock hwf hcount hne,
    findContentLength_eq hlength hwf hn, takeBody, hbody, havailable, bind, Except.bind]
  by_cases hmax : maxBodySize < n
  · simp only [hmax, if_true]
  by_cases hshort : tail.length < n
  · simp only [hmax, hshort, if_true, if_false]
  have htake : (tail.take n).length = n := by
    rw [length_take]
    omega
  simp only [hmax, hshort, if_false, htake]

/-- A response within the parser's limits is read back, whatever follows it, and a part of it is
incomplete. -/
theorem response_framing {status : Nat} (h100 : 100 ≤ status) (h599 : status ≤ 599)
    {reason : Text} (hreason : 13 ∉ reason) {headers : List (Text × Text)}
    (hwf : ∀ x ∈ headers, WellFormed x) (hcount : headers.length ≤ maxResponseHeaders)
    {body : List UInt8} (hlength : OneLength headers body.length)
    (hsize : (headBlock status reason headers).length ≤ maxHeaderBlockSize)
    (hbody : body.length ≤ maxBodySize) :
    (∀ rest, HttpResponse.parse (serialize status reason headers body ++ rest) =
        .ok ⟨status, headers, body, (serialize status reason headers body).length⟩) ∧
      ∀ n < (serialize status reason headers body).length,
        HttpResponse.parse ((serialize status reason headers body).take n) =
          .error .incomplete := by
  have hparse := parse_headBlock h100 h599 hreason hwf hcount hlength
    (lt_of_le_of_lt hbody (by decide)) hsize
  have hserial : serialize status reason headers body =
      headBlock status reason headers ++ (crlf ++ (crlf ++ body)) := by
    have := serialize_append status reason headers body []
    rwa [append_nil, append_nil] at this
  have hcrlf : crlf.length = 2 := rfl
  have htotal : (serialize status reason headers body).length =
      (headBlock status reason headers).length + 4 + body.length := by
    rw [hserial, length_append, length_append, length_append]
    omega
  constructor
  · intro rest
    rw [serialize_append, hparse, if_neg (not_lt.mpr hbody), if_neg (by simp), htotal,
      take_left]
  · intro n hn
    by_cases hblock : n < (headBlock status reason headers).length + 4
    · have hend := findHeaderEnd_headBlock h599 hreason hwf body
      rw [← hserial] at hend
      rw [HttpResponse.parse, findHeaderEnd_take hend hblock]
    obtain ⟨k, rfl⟩ : ∃ k, n = (headBlock status reason headers).length +
        (crlf.length + (crlf.length + k)) :=
      ⟨n - ((headBlock status reason headers).length + 4), by omega⟩
    have hshort : (body.take k).length < body.length := by
      rw [length_take]
      omega
    rw [hserial, take_length_add_append, take_length_add_append,
      take_length_add_append, hparse, if_neg (not_lt.mpr hbody), if_pos hshort]

/-! A response within the limits, one whose body is too large, one without headers and one with
two lengths. -/

theorem trimmed_of_ends (cs : List Char) (h : Utf8.encode cs = s)
    (hhead : cs.head?.all (!isWhitespace ·) = true)
    (hlast : cs.getLast?.all (!isWhitespace ·) = true) : Trimmed s := by
  refine ⟨cs, h, fun c hc => ?_, fun c hc => ?_⟩
  · rw [mem_def.mp hc] at hhead
    simpa using hhead
  · rw [mem_def.mp hc] at hlast
    simpa using hlast

def sampleHeaders (length : Text) : List (Text × Text) :=
  [(ascii "X-A", ascii "b: c"), (ascii "Content-Length", length)]

theorem sampleHeaders_wellFormed {length : Text} (hcr : 13 ∉ length) (h : Trimmed length) :
    ∀ x ∈ sampleHeaders length, WellFormed x := by
  have ha : Trimmed (ascii "X-A") :=
    trimmed_of_ends "X-A".toList (by decide) (by decide) (by decide)
  have hb : Trimmed (ascii "b: c") :=
    trimmed_of_ends "b: c".toList (by decide) (by decide) (by decide)
  have hc : Trimmed (ascii "Content-Length") :=
    trimmed_of_ends "Content-Length".toList (by decide) (by decide) (by decide)
  rw [sampleHeaders, forall_mem_cons, forall_mem_singleton]
  have hname : ascii "Content-Length" ≠ [] ∧ 58 ∉ ascii "Content-Length" ∧
      13 ∉ ascii "Content-Length" := by decide
  exact ⟨⟨by decide, by decide, by decide, ha, hb⟩,
    ⟨hname.1, hname.2.1, ⟨hname.2.2, hcr⟩, hc, h⟩⟩

theorem sampleHeaders_oneLength {length : Text} (h : Decimal.read length = some n) :
    OneLength (sampleHeaders length) n :=
  ⟨[(ascii "X-A", ascii "b: c")], ascii "Content-Length", length, [], rfl, h, by decide, by decide⟩

/-- A whole response followed by other bytes, and a cut of it. -/
theorem response_framing_sample :
    HttpResponse.parse
      (serialize 404 (ascii "Not Found") (sampleHeaders (ascii "2")) (ascii "hi") ++
        ascii "HTTP/1.1 200 OK") =
      .ok ⟨404, sampleHeaders (ascii "2"), ascii "hi", 58⟩ ∧
      HttpResponse.parse ((serialize 404 (ascii "Not Found") (sampleHeaders (ascii "2"))
        (ascii "hi")).take 57) = .error .incomplete := by
  have htwo : Trimmed (ascii "2") :=
    trimmed_of_ends ['2'] (by decide) (by decide) (by decide)
  have hstatus : 100 ≤ 404 ∧ 404 ≤ 599 := by decide
  have hreason : 13 ∉ ascii "Not Found" := by decide
  have hlength : OneLength (sampleHeaders (ascii "2")) (ascii "hi").length :=
    sampleHeaders_oneLength (by decide)
  have hmain := response_framing hstatus.1 hstatus.2 hreason
    (sampleHeaders_wellFormed (by decide) htwo) (by decide) hlength (by decide) (by decide)
  exact ⟨hmain.1 _, hmain.2 57 (by decide)⟩

/-- A body beyond the limit is refused, a response without headers is taken for malformed, and of
two lengths the first counts. -/
theorem response_not_framed :
    HttpResponse.parse (serialize 200 (ascii "OK") (sampleHeaders (ascii "1048577"))
        (List.replicate 1048577 0)) = .error .bodyTooLarge ∧
      HttpResponse.parse (serialize 200 (ascii "OK") [] []) = .error .malformedStatusLine ∧
      HttpResponse.parse (serialize 200 (ascii "OK")
        [(ascii "Content-Length", ascii "1"), (ascii "Content-Length", ascii "2")] (ascii "hi")) =
        .ok ⟨200, [(ascii "Content-Length", ascii "1"), (ascii "Content-Length", ascii "2")],
          ascii "h", 58⟩ := by
  refine ⟨?_, by decide +kernel, by decide +kernel⟩
  have hstatus : 100 ≤ 200 ∧ 200 ≤ 599 := by decide
  have hreason : 13 ∉ ascii "OK" := by decide
  have htext : Trimmed (ascii "1048577") :=
    trimmed_of_ends "1048577".toList (by decide) (by decide) (by decide)
  have hlength : OneLength (sampleHeaders (ascii "1048577")) 1048577 :=
    sampleHeaders_oneLength (by decide +kernel)
  have hparse := parse_headBlock hstatus.1 hstatus.2 hreason
    (sampleHeaders_wellFormed (by decide) htext) (by decide) hlength (by decide) (by decide)
    (List.replicate 1048577 0)
  have hserial := serialize_append 200 (ascii "OK") (sampleHeaders (ascii "1048577"))
    (List.replicate 1048577 0) []
  rw [append_nil, append_nil] at hserial
  rw [hserial, hparse, if_pos (by decide)]

end Thumos.Http
