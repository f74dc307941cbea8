import Thumos.Lib.Http1

/-!
# HTTP requests

`build_raw` writes a request after refusing line ends in the fields.  A reader
gets back what was written when the fields are what their places in the message
can hold (`request_read_back`).  A length header that the caller supplies is
written as it is, so it can cut the body short and leave the rest to be read as
another request (`request_not_read_back`).
-/

namespace Thumos.Http

open Ascii Http1 List

abbrev Text := List UInt8

inductive HttpError
  | incomplete
  | malformedStatusLine
  | malformedHeader
  | invalidStatusCode
  | tooManyHeaders
  | headerBlockTooLarge
  | invalidContentLength
  | bodyTooLarge
  | emptyHost
  | emptyPath
  | invalidPath
  | invalidHost
  | invalidHeader
  deriving DecidableEq

inductive HttpMethod
  | get
  | post
  | put
  | delete
  deriving DecidableEq

def HttpMethod.asStr : HttpMethod → Text
  | .get => ascii "GET"
  | .post => ascii "POST"
  | .put => ascii "PUT"
  | .delete => ascii "DELETE"

def httpVersion : Text := ascii "HTTP/1.1"

structure HttpRequest where
  method : HttpMethod
  path : Text
  host : Text
  headers : List (Text × Text)
  body : Option (List UInt8)

def containsCrlf (s : Text) : Bool := s.any fun b => b == 13 || b == 10

/-- The digits are pushed from the last one on and then reversed. -/
def writeUsizeToBuf (buf : List UInt8) (n : Nat) : List UInt8 := buf ++ Decimal.digits n

namespace HttpRequest

def bodyLen (req : HttpRequest) : Nat := (req.body.map (·.length)).getD 0

def hasContentLength (req : HttpRequest) : Bool :=
  req.headers.any fun h => eqIgnoreCase h.1 (ascii "content-length")

def requestLine (req : HttpRequest) : Text :=
  req.method.asStr ++ [32] ++ req.path ++ [32] ++ httpVersion

def headerLine (h : Text × Text) : Text := h.1 ++ [58, 32] ++ h.2

/-- The length of the body, when there is one and the caller gave none. -/
def lengthLine (req : HttpRequest) : List UInt8 :=
  if 0 < req.bodyLen ∧ ¬req.hasContentLength then
    writeUsizeToBuf (ascii "Content-Length: ") req.bodyLen ++ crlf
  else []

def buildRaw (req : HttpRequest) : Except HttpError (List UInt8) :=
  if req.host.isEmpty then .error .emptyHost
  else if req.path.isEmpty then .error .emptyPath
  else if containsCrlf req.path then .error .invalidPath
  else if containsCrlf req.host then .error .invalidHost
  else if req.headers.any fun h => containsCrlf h.1 || containsCrlf h.2 then .error .invalidHeader
  else
    .ok (req.requestLine ++ crlf ++ (ascii "Host: " ++ req.host ++ crlf) ++ req.lengthLine ++
      req.headers.flatMap (fun h => headerLine h ++ crlf) ++ crlf ++ req.body.getD [])

def addedLength (req : HttpRequest) : List Header :=
  if 0 < req.bodyLen ∧ ¬req.hasContentLength then
    [(ascii "Content-Length", Decimal.digits req.bodyLen)] else []

/-- The headers on the wire: the host, the length if it is added, and the caller's own. -/
def wireHeaders (req : HttpRequest) : List Header :=
  (ascii "Host", req.host) :: (req.addedLength ++ req.headers)

theorem not_mem_of_containsCrlf {s : Text} (h : ¬containsCrlf s = true) : 13 ∉ s := by
  intro hmem
  exact h (any_eq_true.mpr ⟨13, hmem, rfl⟩)

theorem lengthLine_eq (req : HttpRequest) :
    req.lengthLine = req.addedLength.flatMap fun h => headerLine h ++ crlf := by
  rw [lengthLine, addedLength]
  split
  · rw [flatMap_singleton]
    rfl
  · rfl

variable {req : HttpRequest}

/-- What is written are the request line and the header lines, an empty line and the body; and
no line has a line end inside. -/
theorem buildRaw_ok {raw : List UInt8} (h : req.buildRaw = .ok raw) :
    raw = (req.requestLine :: req.wireHeaders.map headerLine).flatMap (· ++ crlf) ++
        (crlf ++ (req.body.getD [] ++ [])) ∧
      13 ∉ req.path ∧ 13 ∉ req.host ∧ ∀ x ∈ req.headers, 13 ∉ x.1 ∧ 13 ∉ x.2 := by
  rw [buildRaw] at h
  split at h
  · cases h
  split at h
  · cases h
  split at h
  · cases h
  rename_i hpath
  split at h
  · cases h
  rename_i hhost
  split at h
  · cases h
  rename_i hheaders
  rw [Except.ok.injEq] at h
  refine ⟨?_, not_mem_of_containsCrlf hpath, not_mem_of_containsCrlf hhost, ?_⟩
  · rw [← h, lengthLine_eq, wireHeaders, map_cons, map_append,
      flatMap_cons, flatMap_cons, flatMap_append, flatMap_map,
      flatMap_map, append_nil]
    simp only [append_assoc]
    rfl
  · intro x hx
    have hcrlf : ¬(containsCrlf x.1 || containsCrlf x.2) = true :=
      fun hcrlf => hheaders (any_eq_true.mpr ⟨x, hx, hcrlf⟩)
    rw [Bool.or_eq_true, not_or] at hcrlf
    exact ⟨not_mem_of_containsCrlf hcrlf.1, not_mem_of_containsCrlf hcrlf.2⟩

/-- A request whose fields fit their places in the message, and whose own length headers, if it
has any, tell the length of its body. -/
structure Plain (req : HttpRequest) : Prop where
  path : 32 ∉ req.path
  host : trimOws req.host = req.host
  names : ∀ x ∈ req.headers, FieldName x.1
  values : ∀ x ∈ req.headers, trimOws x.2 = x.2
  reserved : ∀ x ∈ req.headers, eqIgnoreCase x.1 (ascii "host") = false ∧
    eqIgnoreCase x.1 (ascii "transfer-encoding") = false
  lengths : ∀ x ∈ req.headers, eqIgnoreCase x.1 (ascii "content-length") = true →
    Decimal.read x.2 = some req.bodyLen

theorem wireHeaders_one_line (hhost : 13 ∉ req.host)
    (hheaders : ∀ x ∈ req.headers, 13 ∉ x.1 ∧ 13 ∉ x.2) :
    ∀ l ∈ req.wireHeaders.map headerLine, l ≠ [] ∧ 13 ∉ l := by
  have hlength : 13 ∉ ascii "Content-Length" := by decide
  have hadded : ∀ x ∈ req.addedLength, 13 ∉ x.1 ∧ 13 ∉ x.2 := by
    intro x hx
    rw [addedLength] at hx
    split at hx
    · rw [mem_singleton.mp hx]
      refine ⟨hlength, fun hmem => ?_⟩
      obtain ⟨d, hd, heq⟩ := Decimal.exists_of_mem_digits hmem
      interval_cases d <;> cases heq
    · cases hx
  have hname : 13 ∉ ascii "Host" := by decide
  intro l hl
  obtain ⟨x, hx, rfl⟩ := mem_map.mp hl
  have hx' : 13 ∉ x.1 ∧ 13 ∉ x.2 := by
    rw [wireHeaders, mem_cons, mem_append] at hx
    rcases hx with rfl | hx | hx
    · exact ⟨hname, hhost⟩
    · exact hadded x hx
    · exact hheaders x hx
  simp [headerLine, hx'.1, hx'.2]

theorem wireHeaders_plain (h : Plain req) :
    ∀ x ∈ req.wireHeaders, FieldName x.1 ∧ trimOws x.2 = x.2 := by
  have hhost : FieldName (ascii "Host") := ⟨by decide, by decide +kernel⟩
  have hlength : FieldName (ascii "Content-Length") := ⟨by decide, by decide +kernel⟩
  intro x hx
  rw [wireHeaders, mem_cons, mem_append, addedLength] at hx
  rcases hx with rfl | hx | hx
  · exact ⟨hhost, h.host⟩
  · split at hx
    · rw [mem_singleton.mp hx]
      refine ⟨hlength, trimOws_eq_self fun b hb => ?_⟩
      obtain ⟨d, hd, rfl⟩ := Decimal.exists_of_mem_digits hb
      interval_cases d <;> rfl
    · cases hx
  · exact ⟨h.names x hx, h.values x hx⟩

theorem valuesOf_addedLength {name : String}
    (hlength : eqIgnoreCase (ascii "Content-Length") (ascii name) = false) (req : HttpRequest) :
    valuesOf name req.addedLength = [] := by
  refine valuesOf_eq_nil fun x hx => ?_
  rw [addedLength] at hx
  split at hx
  · rw [mem_singleton.mp hx]
    exact hlength
  · cases hx

theorem valuesOf_wireHeaders {name : String}
    (hhost : eqIgnoreCase (ascii "Host") (ascii name) = false)
    (hlength : eqIgnoreCase (ascii "Content-Length") (ascii name) = false) (req : HttpRequest) :
    valuesOf name req.wireHeaders = valuesOf name req.headers := by
  rw [wireHeaders, valuesOf_cons, valuesOf_append, hhost, valuesOf_addedLength hlength]
  rfl

theorem lengths_wireHeaders (req : HttpRequest) :
    valuesOf "content-length" req.wireHeaders =
      req.addedLength.map (·.2) ++ valuesOf "content-length" req.headers := by
  have hhost : eqIgnoreCase (ascii "Host") (ascii "content-length") = false := by decide
  have hlength : eqIgnoreCase (ascii "Content-Length") (ascii "content-length") = true := by decide
  have hadded : valuesOf "content-length" req.addedLength = req.addedLength.map (·.2) := by
    rw [addedLength]
    split
    · rw [valuesOf_cons, hlength]
      rfl
    · rfl
  rw [wireHeaders, valuesOf_cons, valuesOf_append, hhost, hadded]
  rfl

theorem hosts_wireHeaders (h : Plain req) :
    valuesOf "host" req.wireHeaders = [req.host] := by
  have hhost : eqIgnoreCase (ascii "Host") (ascii "host") = true := by decide
  have hlength : eqIgnoreCase (ascii "Content-Length") (ascii "host") = false := by decide
  rw [wireHeaders, valuesOf_cons, valuesOf_append, hhost, valuesOf_addedLength hlength,
    valuesOf_eq_nil fun x hx => (h.reserved x hx).1]
  rfl

theorem bodyLength_wireHeaders (h : Plain req) :
    bodyLength req.wireHeaders = some req.bodyLen := by
  apply bodyLength_eq
  · rw [valuesOf_wireHeaders (by decide) (by decide)]
    exact valuesOf_eq_nil fun x hx => (h.reserved x hx).2
  · intro v hv
    rw [lengths_wireHeaders, mem_append, mem_map, addedLength] at hv
    rcases hv with ⟨x, hx, rfl⟩ | hv
    · split at hx
      · rw [mem_singleton.mp hx]
        exact Decimal.read_digits _
      · cases hx
    · obtain ⟨x, hx, rfl⟩ := mem_map.mp hv
      rw [mem_filter] at hx
      exact h.lengths x hx.1 hx.2
  · intro hnil
    rw [lengths_wireHeaders, append_eq_nil_iff, map_eq_nil_iff, addedLength] at hnil
    obtain ⟨hadded, hown⟩ := hnil
    split at hadded
    · cases hadded
    rename_i hnone
    have hno : req.hasContentLength = false := by
      rw [hasContentLength, any_eq_false]
      rw [valuesOf, map_eq_nil_iff, filter_eq_nil_iff] at hown
      exact hown
    simp only [hno, Bool.false_eq_true, not_false_eq_true, and_true] at hnone
    omega

theorem splitOn_requestLine (h : 32 ∉ req.path) :
    req.requestLine.splitOn 32 = [req.method.asStr, req.path, ascii "HTTP/1.1"] := by
  have hmethod : 32 ∉ req.method.asStr := by cases req.method <;> decide
  have hversion : 32 ∉ httpVersion := by decide
  have hline : req.requestLine =
      req.method.asStr ++ 32 :: (req.path ++ 32 :: httpVersion) := by
    simp [requestLine]
  rw [hline, splitOn_append_cons_self, splitOn_append_cons_self,
    splitOn_eq_singleton hmethod, splitOn_eq_singleton h,
    splitOn_eq_singleton hversion]
  rfl

end HttpRequest

open HttpRequest

/-- What is written for a plain request is read as that one request, with nothing left over. -/
theorem request_read_back {req : HttpRequest} {raw : List UInt8} (hplain : req.Plain)
    (h : req.buildRaw = .ok raw) :
    readRequest raw =
      some (⟨req.method.asStr, req.path, req.host, req.wireHeaders, req.body.getD []⟩, []) := by
  obtain ⟨hraw, hpath, hhost, hheaders⟩ := buildRaw_ok h
  have hlines : req.wireHeaders.map headerLine =
      req.wireHeaders.map fun x => x.1 ++ ([58, 32] ++ x.2) := by
    simp [headerLine]
  rw [hraw]
  apply readRequest_append
  · rw [forall_mem_cons]
    have hmethod : 13 ∉ req.method.asStr := by cases req.method <;> decide
    have hversion : 13 ∉ httpVersion := by decide
    exact ⟨by simp [requestLine, hmethod, hpath, hversion], wireHeaders_one_line hhost hheaders⟩
  · exact splitOn_requestLine hplain.path
  · rw [hlines]
    exact mapM_readHeader (wireHeaders_plain hplain)
  · exact hosts_wireHeaders hplain
  · rw [bodyLength_wireHeaders hplain, bodyLen]
    cases req.body <;> rfl

def sampleRequest (headers : List (Text × Text)) (body : String) : HttpRequest where
  method := .post
  path := ascii "/a"
  host := ascii "h.org"
  headers := headers
  body := some (ascii body)

/-- A request with headers and a body of its own. -/
theorem request_read_back_sample :
    let req := sampleRequest [(ascii "X-Id", ascii "7: 8"),
      (ascii "content-length", ascii "02")] "hi"
    req.Plain ∧ ∃ raw, req.buildRaw = .ok raw ∧ readRequest raw =
      some (⟨ascii "POST", ascii "/a", ascii "h.org", (ascii "Host", ascii "h.org") :: req.headers,
        ascii "hi"⟩, []) := by
  intro req
  have hplain : req.Plain :=
    ⟨by decide, by decide, by unfold FieldName; decide +kernel, by decide, by decide, by decide⟩
  exact ⟨hplain, _, rfl, request_read_back hplain rfl⟩

/-- A length that the caller supplied leaves the body to be read as another request; a space in
the path and a colon in a name change what is read. -/
theorem request_not_read_back :
    (∃ raw, (sampleRequest [(ascii "Content-Length", ascii "0")] "GET /b").buildRaw = .ok raw ∧
        readRequest raw = some (⟨ascii "POST", ascii "/a", ascii "h.org",
          [(ascii "Host", ascii "h.org"), (ascii "Content-Length", ascii "0")], []⟩,
          ascii "GET /b")) ∧
      (∃ raw, { sampleRequest [] "" with path := ascii "/a b" }.buildRaw = .ok raw ∧
        readRequest raw = none) ∧
      (∃ raw, (sampleRequest [(ascii "X:Y", ascii "z")] "").buildRaw = .ok raw ∧
        readRequest raw = some (⟨ascii "POST", ascii "/a", ascii "h.org",
          [(ascii "Host", ascii "h.org"), (ascii "X", ascii "Y: z")], []⟩, [])) := by
  refine ⟨⟨_, rfl, ?_⟩, ⟨_, rfl, ?_⟩, ⟨_, rfl, ?_⟩⟩ <;> decide +kernel

end Thumos.Http
