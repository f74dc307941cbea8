import Thumos.Net.DnsQuery

/-!
# DNS responses and the resolver's cache

`parse_dns_response` checks the id and the flags of a response, skips its
questions and returns the first A record of its answers; `process_response`
caches the address under the hostname it was asked for.

`process_response_first_address` says where an address comes from.  No name of the response
is compared with the hostname, so the address can belong to another one
(`process_response_unbound`).
-/

namespace Thumos.Dns

open DnsWire Ascii Asphaleia

abbrev Ipv4Address := Vector UInt8 4

/-! ## Parsing a response -/

def u16At (data : List UInt8) (offset : Nat) : Nat := (be16At data offset).getD 0

def u32At (data : List UInt8) (offset : Nat) : Nat := (be32At data offset).getD 0

def skipMaxLabels : Nat := 127

/-- The loop of `skip_dns_name`; `budget` is how many more labels it takes. -/
def skipLabels (data : List UInt8) (budget offset : Nat) : Except DnsError Nat :=
  match data[offset]? with
  | none => .error .malformedResponse
  | some len =>
    if len = 0 then .ok (offset + 1)
    -- A compression pointer: two bytes, and the name goes on elsewhere.
    else if len &&& 0xC0 = 0xC0 then .ok (offset + 2)
    -- A reserved label type.
    else if len &&& 0xC0 ≠ 0 then .error .malformedResponse
    else
      match budget with
      | 0 => .error .malformedResponse
      | budget + 1 => skipLabels data budget (offset + 1 + len.toNat)

def skipDnsName (data : List UInt8) (offset : Nat) : Except DnsError Nat :=
  skipLabels data skipMaxLabels offset

def skipQuestions (data : List UInt8) : Nat → Nat → Except DnsError Nat
  | 0, offset => .ok offset
  | n + 1, offset =>
    match skipDnsName data offset with
    | .error e => .error e
    | .ok offset =>
      if data.length < offset + 4 then .error .malformedResponse
      else skipQuestions data n (offset + 4)

/-- The loop over the answers, up to the first A record. -/
def findAddress (data : List UInt8) : Nat → Nat → Except DnsError (Ipv4Address × Nat)
  | 0, _ => .error .noRecords
  | n + 1, offset =>
    match skipDnsName data offset with
    | .error e => .error e
    | .ok offset =>
      if data.length < offset + 10 then .error .malformedResponse
      else
        let rtype := u16At data offset
        let rclass := u16At data (offset + 2)
        let ttl := u32At data (offset + 4)
        let rdlength := u16At data (offset + 8)
        if data.length < offset + 10 + rdlength then .error .malformedResponse
        else if rtype = dnsTypeA ∧ rclass = dnsClassIn ∧ rdlength = 4 then
          .ok (Vector.ofFn fun i => data.getD (offset + 10 + i) 0, ttl)
        else findAddress data n (offset + 10 + rdlength)

def parseDnsResponse (data : List UInt8) (expectedTxid : UInt16) :
    Except DnsError (Ipv4Address × Nat) :=
  if data.length < dnsHeaderSize then .error .malformedResponse
  else if u16At data 0 ≠ expectedTxid.toNat then .error .malformedResponse
  -- The QR bit.
  else if u16At data 2 &&& 0x8000 = 0 then .error .malformedResponse
  -- The response code.
  else if u16At data 2 &&& 0x000F ≠ 0 then .error .serverError
  else if u16At data 6 = 0 then .error .noRecords
  else
    match skipQuestions data (u16At data 4) dnsHeaderSize with
    | .error e => .error e
    | .ok offset => findAddress data (u16At data 6) offset

/-! ## The cache -/

structure DnsCacheEntry where
  name : Text
  address : Ipv4Address
  ttlRemaining : Nat
  lastUsed : UInt64

structure DnsCache where
  entries : List DnsCacheEntry
  tickCounter : UInt64

def maxCacheEntries : Nat := 64

namespace DnsCache

def new : DnsCache := ⟨[], 0⟩

def updateFirst (p : DnsCacheEntry → Bool) (f : DnsCacheEntry → DnsCacheEntry) :
    List DnsCacheEntry → List DnsCacheEntry
  | [] => []
  | e :: es => if p e then f e :: es else e :: updateFirst p f es

def lruIdx : List DnsCacheEntry → Option Nat
  | [] => none
  | e :: es =>
    match lruIdx es with
    | none => some 0
    | some i => if e.lastUsed ≤ (es.map (·.lastUsed)).getD i 0 then some 0 else some (i + 1)

/-- The last entry takes the place of the one at `i`. -/
def swapRemove (es : List DnsCacheEntry) (i : Nat) : List DnsCacheEntry :=
  match es.getLast? with
  | none => []
  | some last => (es.set i last).dropLast

def lookup (c : DnsCache) (name : Text) : Option Ipv4Address × DnsCache :=
  let tick := c.tickCounter + 1
  match c.entries.find? fun e => e.name == name && 0 < e.ttlRemaining with
  | none => (none, { c with tickCounter := tick })
  | some e =>
    (some e.address,
      ⟨updateFirst (fun e => e.name == name && 0 < e.ttlRemaining)
        (fun e => { e with lastUsed := tick }) c.entries, tick⟩)

def makeRoom (es : List DnsCacheEntry) : List DnsCacheEntry :=
  if maxCacheEntries ≤ es.length then
    match lruIdx es with
    | none => es
    | some i => swapRemove es i
  else es

def insert (c : DnsCache) (name : Text) (address : Ipv4Address) (ttl : Nat) : DnsCache :=
  let tick := c.tickCounter + 1
  if c.entries.any (·.name == name) then
    ⟨updateFirst (·.name == name)
      (fun e => { e with address := address, ttlRemaining := ttl, lastUsed := tick }) c.entries,
      tick⟩
  else ⟨makeRoom c.entries ++ [⟨name, address, ttl, tick⟩], tick⟩

end DnsCache

structure DnsResolver where
  cache : DnsCache
  lanDns : Ipv4Address
  internetDns : Ipv4Address
  useDot : Bool

def DnsResolver.processResponse (r : DnsResolver) (hostname : Text) (data : List UInt8)
    (expectedTxid : UInt16) : Except DnsError Ipv4Address × DnsResolver :=
  match parseDnsResponse data expectedTxid with
  | .error e => (.error e, r)
  | .ok (addr, ttl) =>
    -- A TTL of zero asks not to be cached.
    (.ok addr, if 0 < ttl then { r with cache := r.cache.insert hostname addr ttl } else r)

/-- A cached address; on a miss the query would have to be sent. -/
def DnsResolver.resolve (r : DnsResolver) (hostname : Text) :
    Except DnsError Ipv4Address × DnsResolver :=
  if hostname.isEmpty then (.error .invalidName, r)
  else
    match r.cache.lookup hostname with
    | (some addr, cache) => (.ok addr, { r with cache := cache })
    | (none, cache) => (.error .timeout, { r with cache := cache })

open List

/-! ## Where an address comes from -/

variable {data : List UInt8} {addr : Ipv4Address} {ttl : Nat}

theorem be16At_eq {pos : Nat} (h : pos + 2 ≤ data.length) :
    be16At data pos = some (u16At data pos) := by
  obtain ⟨n, hn⟩ := be16At_isSome h
  rw [u16At, hn]
  rfl

theorem be32At_eq {pos : Nat} (h : pos + 4 ≤ data.length) :
    be32At data pos = some (u32At data pos) := by
  rw [u32At, be32At, be16At_eq (by omega), be16At_eq (by omega)]
  rfl

theorem sliceAt_eq {pos n : Nat} (h : pos + n ≤ data.length) :
    sliceAt data pos n = some ((data.drop pos).take n) := if_pos h

theorem nameSpan_of_skipLabels {budget offset next : Nat}
    (h : skipLabels data budget offset = .ok next) : NameSpan data offset next := by
  fun_induction skipLabels data budget offset with
  | case1 => cases h
  | case2 budget offset hbyte =>
    cases h
    exact .root hbyte
  | case3 budget offset len hbyte hzero hpointer =>
    cases h
    exact .pointer hbyte ((isPointer_iff len).mp hpointer)
  | case4 => cases h
  | case5 => cases h
  | case6 offset len hbyte hzero hpointer hreserved budget ih =>
    have hpos : 0 < len.toNat := Nat.pos_of_ne_zero fun h0 => hzero (UInt8.toNat_inj.mp h0)
    have hlt : len.toNat < 64 := (isLabel_iff len).mp (not_not.mp hreserved)
    exact .label hbyte hpos hlt (ih h)

theorem questionsSpan_of_skipQuestions {n offset next : Nat}
    (h : skipQuestions data n offset = .ok next) : QuestionsSpan data n offset next := by
  induction n generalizing offset with
  | zero =>
    cases h
    exact .zero _
  | succ n ih =>
    rw [skipQuestions] at h
    cases hname : skipDnsName data offset with
    | error e => simp only [hname, reduceCtorEq] at h
    | ok next' =>
      simp only [hname] at h
      split at h
      · cases h
      · next hlen => exact .succ (nameSpan_of_skipLabels hname) (Nat.le_of_not_lt hlen) (ih h)

def IsAddress (r : RecordBody) : Prop :=
  r.rtype = dnsTypeA ∧ r.rclass = dnsClassIn ∧ r.rdata.length = 4

/-- The address is the data of the first A record among so many records from an offset on. -/
def FirstAddress (data : List UInt8) (n offset : Nat) (addr : Ipv4Address) (ttl : Nat) : Prop :=
  ∃ rs rdata fin, RecordsSpan data offset (rs ++ [⟨dnsTypeA, dnsClassIn, ttl, rdata⟩]) fin ∧
    rs.length < n ∧ rdata = addr.toList ∧ ∀ r ∈ rs, ¬IsAddress r

theorem take_four {pos : Nat} (h : pos + 4 ≤ data.length) :
    (data.drop pos).take 4 = (Vector.ofFn fun i => data.getD (pos + i) 0 : Ipv4Address).toList := by
  apply ext_getElem
  · rw [length_take, length_drop, Vector.length_toList]
    omega
  · intro i hi hi'
    rw [Vector.length_toList] at hi'
    rw [getElem_take, getElem_drop, Vector.getElem_toList, Vector.getElem_ofFn,
      getD_eq_getElem?_getD, getElem?_eq_getElem (by omega), Option.getD_some]

theorem firstAddress_of_findAddress {n offset : Nat}
    (h : findAddress data n offset = .ok (addr, ttl)) :
    FirstAddress data n offset addr ttl := by
  induction n generalizing offset with
  | zero => cases h
  | succ n ih =>
    rw [findAddress] at h
    cases hname : skipDnsName data offset with
    | error e => simp only [hname, reduceCtorEq] at h
    | ok next =>
      have hspan := nameSpan_of_skipLabels hname
      simp only [hname] at h
      split at h
      · cases h
      split at h
      · cases h
      rename_i hrdata
      have htype := be16At_eq (show next + 2 ≤ data.length by omega)
      have hclass := be16At_eq (show next + 2 + 2 ≤ data.length by omega)
      have httl := be32At_eq (show next + 4 + 4 ≤ data.length by omega)
      have hlength := be16At_eq (show next + 8 + 2 ≤ data.length by omega)
      have hslice := sliceAt_eq (Nat.le_of_not_lt hrdata)
      split at h
      · next haddress =>
        obtain ⟨hA, hIn, hfour⟩ := haddress
        rw [Except.ok.injEq, Prod.mk.injEq] at h
        obtain ⟨rfl, rfl⟩ := h
        rw [hA] at htype
        rw [hIn] at hclass
        refine ⟨[], _, _, .cons hspan htype hclass httl hlength hslice (.nil _),
          Nat.zero_lt_succ n, ?_, by simp⟩
        rw [hfour] at hrdata ⊢
        exact take_four (Nat.le_of_not_lt hrdata)
      · next haddress =>
        obtain ⟨rs, rdata, fin, hrecords, hlen, hrest, hnone⟩ := ih h
        refine ⟨_ :: rs, rdata, fin, .cons hspan htype hclass httl hlength hslice hrecords,
          Nat.succ_lt_succ hlen, hrest, ?_⟩
        rw [forall_mem_cons]
        refine ⟨?_, hnone⟩
        rintro ⟨hA, hIn, hfour⟩
        rw [length_take, length_drop] at hfour
        exact haddress ⟨hA, hIn, by omega⟩

/-- A response with an address: it has the expected id, is a response without error, and the
address is that of its first A record. -/
structure Answers (data : List UInt8) (txid : UInt16) (addr : Ipv4Address) (ttl : Nat) :
    Prop where
  txid : be16At data 0 = some txid.toNat
  response : ∃ flags, be16At data 2 = some flags ∧ flags &&& 0x8000 ≠ 0 ∧ flags &&& 0x000F = 0
  address : ∃ qdcount ancount offset, be16At data 4 = some qdcount ∧
    be16At data 6 = some ancount ∧ QuestionsSpan data qdcount dnsHeaderSize offset ∧
    FirstAddress data ancount offset addr ttl

theorem answers_of_parseDnsResponse {txid : UInt16}
    (h : parseDnsResponse data txid = .ok (addr, ttl)) :
    Answers data txid addr ttl := by
  rw [parseDnsResponse] at h
  split at h
  · cases h
  rename_i hheader
  have hlen : 12 ≤ data.length := Nat.le_of_not_lt hheader
  split at h
  · cases h
  rename_i htxid
  split at h
  · cases h
  rename_i hqr
  split at h
  · cases h
  rename_i hrcode
  split at h
  · cases h
  · cases hskip : skipQuestions data (u16At data 4) dnsHeaderSize with
    | error e => simp only [hskip, reduceCtorEq] at h
    | ok offset =>
      simp only [hskip] at h
      refine ⟨?_, ⟨_, be16At_eq (by omega), hqr, not_not.mp hrcode⟩, _, _, offset,
        be16At_eq (by omega), be16At_eq (by omega),
        questionsSpan_of_skipQuestions hskip, firstAddress_of_findAddress h⟩
      rw [be16At_eq (by omega), not_not.mp htxid]

/-! ## What is cached -/

namespace DnsCache

variable {f : DnsCacheEntry → DnsCacheEntry} {es : List DnsCacheEntry} {e : DnsCacheEntry}

theorem mem_updateFirst {p : DnsCacheEntry → Bool} (h : e ∈ updateFirst p f es) :
    e ∈ es ∨ ∃ e' ∈ es, p e' = true ∧ e = f e' := by
  induction es with
  | nil => cases h
  | cons e' es ih =>
    rw [updateFirst] at h
    split at h
    · next hp =>
      rcases mem_cons.mp h with rfl | hmem
      · exact .inr ⟨e', by simp, hp, rfl⟩
      · exact .inl (mem_cons_of_mem _ hmem)
    · rcases mem_cons.mp h with rfl | hmem
      · exact .inl (by simp)
      · rcases ih hmem with hold | ⟨e'', he'', hp, rfl⟩
        · exact .inl (mem_cons_of_mem _ hold)
        · exact .inr ⟨e'', mem_cons_of_mem _ he'', hp, rfl⟩

theorem mem_of_mem_makeRoom (h : e ∈ makeRoom es) : e ∈ es := by
  rw [makeRoom] at h
  split at h
  · split at h
    · exact h
    · rw [swapRemove] at h
      split at h
      · cases h
      rename_i hlast
      rcases mem_or_eq_of_mem_set (dropLast_subset _ h) with hmem | rfl
      · exact hmem
      · exact mem_of_getLast? hlast
  · exact h

theorem mem_insert {c : DnsCache} {name : Text} {address : Ipv4Address}
    (h : e ∈ (c.insert name address ttl).entries) :
    e ∈ c.entries ∨ e = ⟨name, address, ttl, c.tickCounter + 1⟩ := by
  rw [insert] at h
  split at h
  · rcases mem_updateFirst h with hold | ⟨e', -, hname, rfl⟩
    · exact .inl hold
    · rw [beq_iff_eq] at hname
      rw [← hname]
      exact .inr rfl
  · rcases mem_append.mp h with hold | hnew
    · exact .inl (mem_of_mem_makeRoom hold)
    · exact .inr (mem_singleton.mp hnew)

theorem find?_updateFirst {p q : DnsCacheEntry → Bool} (hpq : ∀ e, q e = true → p e = true)
    (hf : ∀ e, p e = true → q (f e) = true) (h : es.any p = true) :
    ∃ e, p e = true ∧ (updateFirst p f es).find? q = some (f e) := by
  induction es with
  | nil => cases h
  | cons e es ih =>
    rw [updateFirst]
    by_cases hp : p e = true
    · rw [if_pos hp]
      exact ⟨e, hp, find?_cons_of_pos (hf e hp)⟩
    · rw [any_cons, Bool.or_eq_true, or_iff_right hp] at h
      rw [if_neg hp, find?_cons_of_neg fun hq => hp (hpq e hq)]
      exact ih h

theorem lookup_insert (c : DnsCache) (name : Text) (address : Ipv4Address) (httl : 0 < ttl) :
    ((c.insert name address ttl).lookup name).1 = some address := by
  have hfst : ∀ c : DnsCache, (c.lookup name).1 =
      (c.entries.find? fun e => e.name == name && 0 < e.ttlRemaining).map (·.address) := by
    intro c
    rw [lookup]
    cases c.entries.find? fun e => e.name == name && decide (0 < e.ttlRemaining) <;> rfl
  rw [hfst, insert]
  split
  · next hany =>
    obtain ⟨e, -, hfind⟩ := find?_updateFirst (q := fun e => e.name == name && 0 < e.ttlRemaining)
      (f := fun e => { e with address := address, ttlRemaining := ttl,
                              lastUsed := c.tickCounter + 1 })
      (fun e he => (Bool.and_eq_true_iff.mp he).1) (fun e he => by simpa [httl] using he) hany
    simp only [hfind, Option.map_some]
  · next hany =>
    have hnone : (makeRoom c.entries).find?
        (fun e => e.name == name && decide (0 < e.ttlRemaining)) = none := by
      rw [find?_eq_none]
      intro e he hmatch
      exact hany (any_eq_true.mpr
        ⟨e, mem_of_mem_makeRoom he, (Bool.and_eq_true_iff.mp hmatch).1⟩)
    simp only [find?_append, hnone, Option.none_or]
    simp [httl]

end DnsCache

/-- A response that is not accepted changes nothing.  One that is returns the address of its
first A record, and leaves in the cache only that address, under the hostname asked for, beside
what was there; an address with a TTL of zero is not cached. -/
theorem process_response_first_address (r : DnsResolver) (hostname : Text) (data : List UInt8)
    (txid : UInt16) :
    (∃ e, r.processResponse hostname data txid = (.error e, r)) ∨
      ∃ addr ttl r', r.processResponse hostname data txid = (.ok addr, r') ∧
        Answers data txid addr ttl ∧ (ttl = 0 → r' = r) ∧
        ∀ e ∈ r'.cache.entries, e ∈ r.cache.entries ∨
          (e.name = hostname ∧ e.address = addr ∧ e.ttlRemaining = ttl) := by
  cases hparse : parseDnsResponse data txid with
  | error e => exact .inl ⟨e, by rw [DnsResolver.processResponse, hparse]⟩
  | ok found =>
    obtain ⟨addr, ttl⟩ := found
    refine .inr ⟨addr, ttl, _, by rw [DnsResolver.processResponse, hparse],
      answers_of_parseDnsResponse hparse, ?_, ?_⟩
    · rintro rfl
      rfl
    · intro e he
      split at he
      · rcases DnsCache.mem_insert he with hold | rfl
        · exact .inl hold
        · exact .inr ⟨rfl, rfl, rfl⟩
      · exact .inl he

/-- The address that was cached is the one that the resolver returns next. -/
theorem resolve_processResponse {r r' : DnsResolver} {hostname : Text} {txid : UInt16}
    (hname : hostname ≠ []) (hparse : parseDnsResponse data txid = .ok (addr, ttl)) (httl : 0 < ttl)
    (h : (r.processResponse hostname data txid).2 = r') : (r'.resolve hostname).1 = .ok addr := by
  have hcache : r'.cache = r.cache.insert hostname addr ttl := by
    rw [← h, DnsResolver.processResponse, hparse]
    simp only [httl, if_true]
  have hlookup := DnsCache.lookup_insert r.cache hostname addr httl
  rw [← hcache] at hlookup
  rw [DnsResolver.resolve, if_neg (by simpa using hname)]
  generalize r'.cache.lookup hostname = found at hlookup
  obtain ⟨found, cache⟩ := found
  cases hlookup
  rfl

/-! ## Responses about another name -/

def dnsTypeCname : Nat := 5

/-- The names reached from a name along the CNAME records of a response. -/
inductive Reaches (data : List UInt8) (rs : List Record) (name : List Label) : List Label → Prop
  | self : Reaches data rs name name
  | cname {r : Record} {target : List Label} {fin : Nat} (hr : r ∈ rs)
      (hfrom : Reaches data rs name r.name) (htype : r.rtype = dnsTypeCname)
      (hclass : r.rclass = dnsClassIn) (htarget : NameAt data r.rdataAt target fin) :
      Reaches data rs name target

/-- The response repeats the one question for the hostname, and the address belongs to a name
reached from it. -/
def BoundTo (data : List UInt8) (hostname : Text) (addr : Ipv4Address) : Prop :=
  ∃ name offset rs fin, be16At data 4 = some 1 ∧
    QuestionsAt data dnsHeaderSize [⟨name, dnsTypeA, dnsClassIn⟩] offset ∧
    eqIgnoreCase (nameText name) hostname = true ∧
    be16At data 6 = some rs.length ∧ RecordsAt data offset rs fin ∧
    ∃ r ∈ rs, r.rtype = dnsTypeA ∧ r.rclass = dnsClassIn ∧ r.rdata = addr.toList ∧
      Reaches data rs name r.name

def sampleResponse (question owner : List Label) : List UInt8 :=
  [0, 7, 0x81, 0x80, 0, 1, 0, 1, 0, 0, 0, 0] ++
    (wireQuestion ⟨question, 1, 1⟩ ++
      (wireName owner ++ [0, 1, 0, 1, 0, 0, 0, 60, 0, 4, 6, 6, 6, 6]))

def bankName : List Label := [ascii "bank", ascii "org"]

/-- A resolver whose cache is full of entries of one name. -/
def fullOf (name : Text) : DnsResolver :=
  ⟨⟨List.replicate maxCacheEntries ⟨name, #v[9, 9, 9, 9], 5, 1⟩, 1⟩, #v[1, 1, 1, 1],
    #v[2, 2, 2, 2], false⟩

/-- The new address replaces an older one, and an entry of another name if there is no room. -/
theorem resolve_processResponse_bank :
    ((((fullOf (ascii "bank.org")).processResponse (ascii "bank.org")
      (sampleResponse bankName bankName) 7).2.resolve (ascii "bank.org")).1 =
        .ok #v[6, 6, 6, 6]) ∧
    (((fullOf (ascii "old.org")).processResponse (ascii "bank.org")
      (sampleResponse bankName bankName) 7).2.resolve (ascii "bank.org")).1 =
        .ok #v[6, 6, 6, 6] := by
  have hparse : parseDnsResponse (sampleResponse bankName bankName) 7 =
      .ok (#v[6, 6, 6, 6], 60) := by decide +kernel
  exact ⟨resolve_processResponse (by decide) hparse (by decide) rfl,
    resolve_processResponse (by decide) hparse (by decide) rfl⟩

def otherName : List Label := [ascii "evil", ascii "org"]

theorem bankName_question : NameAt (sampleResponse bankName otherName) 12 bankName 22 :=
  .label rfl (by decide) (by decide) rfl (.label rfl (by decide) (by decide) rfl (.root rfl))

theorem otherName_owner : NameAt (sampleResponse bankName otherName) 26 otherName 36 :=
  .label rfl (by decide) (by decide) rfl (.label rfl (by decide) (by decide) rfl (.root rfl))

theorem otherName_question : NameAt (sampleResponse otherName otherName) 12 otherName 22 :=
  .label rfl (by decide) (by decide) rfl (.label rfl (by decide) (by decide) rfl (.root rfl))

theorem not_boundTo_question :
    ¬BoundTo (sampleResponse otherName otherName) (ascii "bank.org") #v[6, 6, 6, 6] := by
  rintro ⟨name, offset, rs, fin, -, hquestion, hname, -⟩
  cases hquestion with
  | cons hat htype hclass hrest =>
    obtain ⟨rfl, -⟩ := hat.unique otherName_question
    cases hname

/-- The question is right, and the record belongs to another name. -/
theorem not_boundTo_owner :
    ¬BoundTo (sampleResponse bankName otherName) (ascii "bank.org") #v[6, 6, 6, 6] := by
  rintro ⟨name, offset, rs, fin, -, hquestion, -, hcount, hrecords, r, hr, htype, -, -, hreach⟩
  -- There is one record, and it is no CNAME.
  have hone : be16At (sampleResponse bankName otherName) 6 = some 1 := rfl
  have hlen := Option.some_inj.mp (hcount.symm.trans hone)
  obtain ⟨r', rfl⟩ := length_eq_one_iff.mp hlen
  cases mem_singleton.mp hr
  have hself : r.name = name := by
    cases hreach with
    | self => rfl
    | cname hr' _ hcname =>
      cases mem_singleton.mp hr'
      cases htype.symm.trans hcname
  cases hquestion with
  | cons hat _ _ hrest =>
    obtain ⟨hname, hnext⟩ := hat.unique bankName_question
    cases hrest
    cases hrecords with
    | cons howner =>
      rw [hnext] at howner
      obtain ⟨hrname, -⟩ := howner.unique otherName_owner
      cases hrname.symm.trans (hself.trans hname)

/-- Both responses are accepted, and their address is cached for `bank.org`. -/
theorem process_response_unbound :
    let r : DnsResolver := ⟨DnsCache.new, #v[192, 168, 0, 1], #v[194, 242, 2, 2], false⟩
    let wrongQuestion := sampleResponse otherName otherName
    let wrongOwner := sampleResponse bankName otherName
    ((r.processResponse (ascii "bank.org") wrongQuestion 7).1.toOption = some #v[6, 6, 6, 6] ∧
        ((r.processResponse (ascii "bank.org") wrongQuestion 7).2.cache.entries.map
          fun e => (e.name, e.address)) = [(ascii "bank.org", #v[6, 6, 6, 6])] ∧
        ¬BoundTo wrongQuestion (ascii "bank.org") #v[6, 6, 6, 6]) ∧
      (r.processResponse (ascii "bank.org") wrongOwner 7).1.toOption = some #v[6, 6, 6, 6] ∧
        ((r.processResponse (ascii "bank.org") wrongOwner 7).2.cache.entries.map
          fun e => (e.name, e.address)) = [(ascii "bank.org", #v[6, 6, 6, 6])] ∧
        ¬BoundTo wrongOwner (ascii "bank.org") #v[6, 6, 6, 6] := by
  refine ⟨⟨?_, ?_, not_boundTo_question⟩, ?_, ?_, not_boundTo_owner⟩ <;> decide +kernel

end Thumos.Dns
