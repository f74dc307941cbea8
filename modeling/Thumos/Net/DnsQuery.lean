import Thumos.Net.DnsName

/-!
# DNS queries

`build_dns_query` writes an A query for a hostname.  `extractQueryDomain_query`
says that the name read out of the query is the hostname in lower case, whatever
follows the query.
-/

namespace Thumos.Dns

open DnsWire Ascii Asphaleia List

inductive DnsError
  | invalidName
  | timeout
  | serverError
  | noRecords
  | socketError
  | sendError
  | malformedResponse
  deriving DecidableEq

def dnsTypeA : Nat := 1

def dnsClassIn : Nat := 1

def dnsHeaderSize : Nat := 12

def dnsMaxNameLen : Nat := 255

/-- The loop over the labels of the hostname, with the encoded length so far. -/
def encodeLabels : List Text → Nat → List UInt8 → Except DnsError (List UInt8)
  | [], _, packet => .ok packet
  | label :: labels, qnameLen, packet =>
    if label.isEmpty ∨ 63 < label.length then .error .invalidName
    else if dnsMaxNameLen ≤ qnameLen + (1 + label.length) then .error .invalidName
    else
      encodeLabels labels (qnameLen + (1 + label.length))
        (packet ++ UInt8.ofNat label.length :: label)

/-- Transaction id, flags with RD set, one question, no records. -/
def queryHeader (txid : UInt16) : List UInt8 :=
  be16Bytes txid.toNat ++ be16Bytes 0x0100 ++ be16Bytes 1 ++ be16Bytes 0 ++ be16Bytes 0 ++
    be16Bytes 0

def buildDnsQuery (hostname : Text) (txid : UInt16) : Except DnsError (List UInt8) :=
  if hostname.isEmpty then .error .invalidName
  else
    match encodeLabels (hostname.splitOn dot) 0 (queryHeader txid) with
    | .error e => .error e
    | .ok packet => .ok (packet ++ [0] ++ be16Bytes dnsTypeA ++ be16Bytes dnsClassIn)

theorem encodeLabels_ok {labels : List Text} {qnameLen : Nat} {packet out : List UInt8}
    (h : encodeLabels labels qnameLen packet = .ok out) (hlen : qnameLen < dnsMaxNameLen) :
    out ++ [0] = packet ++ wireName labels ∧ (∀ l ∈ labels, 0 < l.length ∧ l.length < 64) ∧
      qnameLen + 2 * labels.length < dnsMaxNameLen := by
  induction labels generalizing qnameLen packet with
  | nil =>
    cases h
    exact ⟨rfl, by simp, hlen⟩
  | cons l ls ih =>
    rw [encodeLabels] at h
    split at h
    · cases h
    rename_i hlabel
    split at h
    · cases h
    rename_i htotal
    obtain ⟨hout, hls, hcount⟩ := ih h (Nat.lt_of_not_le htotal)
    rw [not_or, List.isEmpty_iff] at hlabel
    have hpos := length_pos_of_ne_nil hlabel.1
    refine ⟨?_, ?_, ?_⟩
    · rw [hout, wireName_cons, append_assoc, cons_append]
    · rw [forall_mem_cons]
      exact ⟨⟨hpos, by omega⟩, hls⟩
    · rw [length_cons]
      omega

theorem buildDnsQuery_ok {hostname : Text} {txid : UInt16} {query : List UInt8}
    (h : buildDnsQuery hostname txid = .ok query) :
    query = queryHeader txid ++ (wireName (hostname.splitOn dot) ++ [0, 1, 0, 1]) ∧
      (∀ l ∈ hostname.splitOn dot, 0 < l.length ∧ l.length < 64) ∧
      (hostname.splitOn dot).length ≤ 127 := by
  rw [buildDnsQuery] at h
  split at h
  · cases h
  · cases hlabels : encodeLabels (hostname.splitOn dot) 0 (queryHeader txid) with
    | error e => simp only [hlabels, reduceCtorEq] at h
    | ok packet =>
      simp only [hlabels, Except.ok.injEq] at h
      obtain ⟨hout, hls, hcount⟩ := encodeLabels_ok hlabels (by decide)
      refine ⟨?_, hls, ?_⟩
      · rw [← h, hout, append_assoc, append_assoc]
        rfl
      · rw [dnsMaxNameLen] at hcount
        omega

theorem extractQueryDomain_query {hostname : List Char} {txid : UInt16} {query : List UInt8}
    (h : buildDnsQuery (Utf8.encode hostname) txid = .ok query) (rest : List UInt8) :
    extractQueryDomain (query ++ rest) = some ((Utf8.encode hostname).map lower) := by
  obtain ⟨hquery, hls, hcount⟩ := buildDnsQuery_ok h
  have htext : nameText ((Utf8.encode hostname).splitOn dot) = Utf8.encode hostname :=
    intercalate_splitOn dot
  have hutf8 : ∀ l ∈ (Utf8.encode hostname).splitOn dot, (Utf8.decode l).isSome := by
    intro l hl
    have hdot : '.'.toNat < 128 := by decide
    have hsplit : (Utf8.encode hostname).splitOn dot = (hostname.splitOn '.').map Utf8.encode :=
      Utf8.splitOn_encode hdot hostname
    rw [hsplit] at hl
    obtain ⟨cs, -, rfl⟩ := mem_map.mp hl
    rw [Utf8.decode_encode]
    rfl
  rw [extractQueryDomain_eq_some]
  refine ⟨(Utf8.encode hostname).splitOn dot, ⟨?_, ⟨1, ?_, by decide⟩, ?_, ⟨?_, hutf8⟩, ?_, ?_⟩,
    by rw [htext]⟩
  · rw [hquery, append_assoc, length_append]
    exact Nat.le_add_right _ _
  · rw [hquery]
    rfl
  · refine ⟨[0, 1, 0, 1] ++ rest, ?_⟩
    rw [hquery, append_assoc, append_assoc]
    rfl
  · intro l hl
    exact ⟨(hls l hl).1, Nat.lt_trans (hls l hl).2 (by decide)⟩
  · exact Nat.le_trans hcount (by decide)
  · exact splitOnP_ne_nil _ _

end Thumos.Dns
