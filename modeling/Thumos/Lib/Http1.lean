import Thumos.Lib.Ascii
import Thumos.Lib.Decimal

/-!
# Reading an HTTP/1.1 request

The reader takes lines up to an empty one, splits the request line at spaces and
each header at its first colon, and takes as many bytes of body as the headers
say.  It refuses what a server must refuse: several Host headers, lengths that
disagree, a header without a name, a transfer encoding it does not know.
-/

namespace Http1

open Ascii List

abbrev Header := List UInt8 × List UInt8

def crlf : List UInt8 := [13, 10]

/-! ## Lines -/

def takeLine : List UInt8 → Option (List UInt8 × List UInt8)
  | [] => none
  | b :: bs =>
    if b = 13 ∧ bs.head? = some 10 then some ([], bs.tail)
    else (takeLine bs).map fun (line, rest) => (b :: line, rest)

theorem takeLine_append {line : List UInt8} (h : 13 ∉ line) (rest : List UInt8) :
    takeLine (line ++ (crlf ++ rest)) = some (line, rest) := by
  induction line with
  | nil => rfl
  | cons b line ih =>
    have hb : ¬(b = 13 ∧ (line ++ (crlf ++ rest)).head? = some 10) := fun hb => h (by simp [hb.1])
    rw [cons_append, takeLine, if_neg hb, ih fun hmem => h (by simp [hmem])]
    rfl

def takeLines : Nat → List UInt8 → Option (List (List UInt8) × List UInt8)
  | 0, _ => none
  | n + 1, bs =>
    match takeLine bs with
    | none => none
    | some ([], rest) => some ([], rest)
    | some (line, rest) => (takeLines n rest).map fun (lines, rest) => (line :: lines, rest)

theorem takeLines_append {lines : List (List UInt8)} (h : ∀ l ∈ lines, l ≠ [] ∧ 13 ∉ l)
    (rest : List UInt8) {n : Nat} (hn : lines.length < n) :
    takeLines n (lines.flatMap (· ++ crlf) ++ (crlf ++ rest)) = some (lines, rest) := by
  induction lines generalizing n with
  | nil =>
    cases n with
    | zero => exact absurd hn (lt_irrefl 0)
    | succ n => rfl
  | cons line lines ih =>
    obtain ⟨hne, hcr⟩ := h line (by simp)
    cases n with
    | zero => exact absurd hn (Nat.not_lt_zero _)
    | succ n =>
      have hrest := ih (fun l hl => h l (by simp [hl])) (Nat.lt_of_succ_lt_succ hn)
      rw [flatMap_cons, append_assoc, append_assoc, takeLines,
        takeLine_append hcr]
      cases line with
      | nil => exact absurd rfl hne
      | cons b line => simp only [hrest, Option.map_some]

/-! ## Headers -/

def isOws (b : UInt8) : Bool := b == 32 || b == 9

def trimOws (s : List UInt8) : List UInt8 :=
  ((s.dropWhile isOws).reverse.dropWhile isOws).reverse

def readHeader (line : List UInt8) : Option Header :=
  let name := line.takeWhile (· != 58)
  match line.dropWhile (· != 58) with
  | [] => none
  | _ :: value => if name.isEmpty || name.any isOws then none else some (name, trimOws value)

def FieldName (name : List UInt8) : Prop := name ≠ [] ∧ ∀ b ∈ name, b ≠ 58 ∧ isOws b = false

theorem readHeader_append {name : List UInt8} (h : FieldName name) (value : List UInt8) :
    readHeader (name ++ ([58, 32] ++ value)) = some (name, trimOws value) := by
  have hcolon : ∀ b ∈ name, (b != 58) = true := fun b hb => by simp [(h.2 b hb).1]
  have htake : (name ++ ([58, 32] ++ value)).takeWhile (· != 58) = name := by
    rw [takeWhile_append_of_pos hcolon]
    simp
  have hdrop : (name ++ ([58, 32] ++ value)).dropWhile (· != 58) = [58, 32] ++ value := by
    rw [dropWhile_append_of_pos hcolon]
    rfl
  have hname : (name.isEmpty || name.any isOws) = false := by
    rw [Bool.or_eq_false_iff, any_eq_false]
    exact ⟨by simpa using h.1, fun b hb => by simp [(h.2 b hb).2]⟩
  rw [readHeader, htake, hdrop]
  simp only [cons_append, nil_append, hname, Bool.false_eq_true, if_false]
  rfl

theorem trimOws_eq_self {s : List UInt8} (h : ∀ b ∈ s, isOws b = false) : trimOws s = s := by
  have hdrop : ∀ l : List UInt8, (∀ b ∈ l, isOws b = false) → l.dropWhile isOws = l := by
    intro l hl
    cases l with
    | nil => rfl
    | cons b l => exact dropWhile_cons_of_neg (by simp [hl b (by simp)])
  rw [trimOws, hdrop s h, hdrop s.reverse fun b hb => h b (mem_reverse.mp hb),
    reverse_reverse]

variable {headers : List Header}

theorem mapM_readHeader (h : ∀ x ∈ headers, FieldName x.1 ∧ trimOws x.2 = x.2) :
    (headers.map fun x => x.1 ++ ([58, 32] ++ x.2)).mapM readHeader = some headers := by
  induction headers with
  | nil => rfl
  | cons x headers ih =>
    obtain ⟨hname, hvalue⟩ := h x (by simp)
    rw [map_cons, mapM_cons, readHeader_append hname, hvalue,
      ih fun y hy => h y (by simp [hy])]
    rfl

def valuesOf (name : String) (headers : List Header) : List (List UInt8) :=
  (headers.filter fun h => eqIgnoreCase h.1 (ascii name)).map (·.2)

theorem valuesOf_cons (name : String) (x : Header) (headers : List Header) :
    valuesOf name (x :: headers) =
      (if eqIgnoreCase x.1 (ascii name) then [x.2] else []) ++ valuesOf name headers := by
  rw [valuesOf, filter_cons]
  split <;> rfl

theorem valuesOf_append (name : String) (headers headers' : List Header) :
    valuesOf name (headers ++ headers') = valuesOf name headers ++ valuesOf name headers' := by
  rw [valuesOf, filter_append, map_append]
  rfl

theorem valuesOf_eq_nil {name : String} (h : ∀ x ∈ headers, eqIgnoreCase x.1 (ascii name) = false) :
    valuesOf name headers = [] := by
  rw [valuesOf, map_eq_nil_iff, filter_eq_nil_iff]
  intro x hx
  simp [h x hx]

def bodyLength (headers : List Header) : Option Nat :=
  if (valuesOf "transfer-encoding" headers).isEmpty then
    match (valuesOf "content-length" headers).mapM Decimal.read with
    | none => none
    | some [] => some 0
    | some (n :: ns) => if ns.all (· == n) then some n else none
  else none

/-- Lengths that agree are the length; without any the body is empty. -/
theorem bodyLength_eq {n : Nat} (hencoding : valuesOf "transfer-encoding" headers = [])
    (hlengths : ∀ v ∈ valuesOf "content-length" headers, Decimal.read v = some n)
    (hzero : valuesOf "content-length" headers = [] → n = 0) : bodyLength headers = some n := by
  have hmap : ∀ vs : List (List UInt8), (∀ v ∈ vs, Decimal.read v = some n) →
      vs.mapM Decimal.read = some (replicate vs.length n) := by
    intro vs hvs
    induction vs with
    | nil => rfl
    | cons v vs ih =>
      rw [mapM_cons, hvs v (by simp), ih fun v' hv' => hvs v' (by simp [hv'])]
      rfl
  rw [bodyLength, hencoding, isEmpty_nil, if_pos rfl, hmap _ hlengths]
  cases hvalues : valuesOf "content-length" headers with
  | nil => rw [hzero hvalues]; rfl
  | cons v vs =>
    have hall : (replicate vs.length n).all (· == n) = true := by simp
    simp only [length_cons, replicate_succ, hall, if_true]

/-! ## Requests -/

structure Request where
  method : List UInt8
  target : List UInt8
  host : List UInt8
  headers : List Header
  body : List UInt8
  deriving DecidableEq

def readRequest (bs : List UInt8) : Option (Request × List UInt8) := do
  let (lines, rest) ← takeLines bs.length bs
  let requestLine ← lines.head?
  let headers ← lines.tail.mapM readHeader
  let length ← bodyLength headers
  match requestLine.splitOn 32, valuesOf "host" headers with
  | [method, target, version], [host] =>
    if version = ascii "HTTP/1.1" ∧ length ≤ rest.length then
      some (⟨method, target, host, headers, rest.take length⟩, rest.drop length)
    else none
  | _, _ => none

theorem length_le_flatMap_crlf (lines : List (List UInt8)) :
    lines.length ≤ (lines.flatMap (· ++ crlf)).length := by
  induction lines with
  | nil => exact le_refl 0
  | cons line lines ih =>
    rw [flatMap_cons, length_append, length_append, length_cons]
    have : crlf.length = 2 := rfl
    omega

/-- A request is read from its lines and its body, whatever follows. -/
theorem readRequest_append {requestLine method target host body : List UInt8}
    {headerLines : List (List UInt8)} (hlines : ∀ l ∈ requestLine :: headerLines, l ≠ [] ∧ 13 ∉ l)
    (hsplit : requestLine.splitOn 32 = [method, target, ascii "HTTP/1.1"])
    (hheaders : headerLines.mapM readHeader = some headers)
    (hhost : valuesOf "host" headers = [host]) (hlength : bodyLength headers = some body.length)
    (rest : List UInt8) :
    readRequest ((requestLine :: headerLines).flatMap (· ++ crlf) ++ (crlf ++ (body ++ rest))) =
      some (⟨method, target, host, headers, body⟩, rest) := by
  have hfuel : (requestLine :: headerLines).length <
      ((requestLine :: headerLines).flatMap (· ++ crlf) ++ (crlf ++ (body ++ rest))).length := by
    have hle := length_le_flatMap_crlf (requestLine :: headerLines)
    have : crlf.length = 2 := rfl
    rw [length_append, length_append]
    omega
  have hbody : body.length ≤ (body ++ rest).length := by simp
  rw [readRequest, takeLines_append hlines _ hfuel]
  simp only [Option.bind_eq_bind, Option.bind_some, head?_cons, tail_cons, hheaders,
    hlength, hsplit, hhost, hbody, and_self, if_true, take_left, drop_left]

end Http1
