import Thumos.Net.DnsQuery
import Thumos.Net.Firewall

/-!
# Which DNS packets the firewall denies

The resolver's queries are denied exactly when their hostname is listed
(`firewall_denies_listed_queries`).  A packet can hold more than one such query:
several questions in a message, and several messages in a TCP segment.  The
filter reads the first name only, so a listed name behind it passes;
`dns_block_complete_iff` says for which packets nothing is missed.
-/

namespace Thumos.Firewall

open DnsWire Ascii Asphaleia Dns List

/-! ## Names on a blocklist -/

def WithinDomain (name domain : Text) : Prop := name = domain ∨ ∃ pre, name = pre ++ dot :: domain

theorem domainMatchesSuffix_iff_withinDomain {name domain : Text} :
    domainMatchesSuffix name domain ↔ WithinDomain name domain := domainMatchesSuffix_iff

def withoutTrailingDot (s : Text) : Text := if s.getLast? = some dot then s.dropLast else s

/-- A name is listed when it lies within the domain of an entry; case and a trailing dot do not
count. -/
def Listed (entries : List Text) (name : List Label) : Prop :=
  ∃ e ∈ entries, WithinDomain (withoutTrailingDot ((nameText name).map lower))
    (withoutTrailingDot (storedEntry e))

/-! ## The resolver's own queries -/

/-- The headers of a UDP packet to port 53. -/
structure UdpDnsHeaders (ip udp : List UInt8) : Prop where
  first : ∃ b, ip.head? = some b ∧ b >>> 4 = ipv4Version ∧ ¬b &&& 0x0F < minIhl ∧
    ip.length = headerLen b
  proto : ip[9]? = some protoUdp
  length : udp.length = udpHeaderLen
  port : be16At udp 2 = some dnsPort

theorem addressAt_isSome {packet : List UInt8} {pos : Nat} (h : pos + 4 ≤ packet.length) :
    ∃ addr, addressAt packet pos = some addr := by
  refine ⟨#v[packet[pos], packet[pos + 1], packet[pos + 2], packet[pos + 3]], ?_⟩
  simp only [addressAt, getElem?_eq_getElem (show pos < packet.length by omega),
    getElem?_eq_getElem (show pos + 1 < packet.length by omega),
    getElem?_eq_getElem (show pos + 2 < packet.length by omega),
    getElem?_eq_getElem (show pos + 3 < packet.length by omega), Option.bind_eq_bind,
    Option.bind_some]

theorem parsePacket_udpDns {ip udp : List UInt8} (h : UdpDnsHeaders ip udp) (body : List UInt8) :
    ∃ info, parsePacket (ip ++ (udp ++ body)) = some info ∧ inspected info = true ∧
      dnsPayload (ip ++ (udp ++ body)) info.protocol = some (some body) := by
  obtain ⟨b, hb, hversion, hihl, hip⟩ := h.first
  have hge : 20 ≤ ip.length := by
    have hle : minIhl.toNat ≤ (b &&& 0x0F).toNat := UInt8.le_iff_toNat_le.mp (UInt8.not_lt.mp hihl)
    have hmin : minIhl.toNat = 5 := rfl
    rw [hip, headerLen]
    omega
  have hlen : (ip ++ (udp ++ body)).length = ip.length + (8 + body.length) := by
    rw [length_append, length_append, h.length]
    rfl
  have hhead : (ip ++ (udp ++ body)).head? = some b := by
    rw [head?_append, hb]
    rfl
  have hproto : (ip ++ (udp ++ body))[9]? = some protoUdp := by
    rw [getElem?_append_left (by omega)]
    exact h.proto
  have hpayload : (ip ++ (udp ++ body)).drop (headerLen b) = udp ++ body := by
    rw [← hip, drop_left]
  have hport : be16At (udp ++ body) 2 = some dnsPort := by
    have h8 : udp.length = 8 := h.length
    rw [← h.port, be16At, be16At, getElem?_append_left (by omega),
      getElem?_append_left (by omega)]
  obtain ⟨src, hsrc⟩ := addressAt_isSome (show 12 + 4 ≤ (ip ++ (udp ++ body)).length by omega)
  obtain ⟨dst, hdst⟩ := addressAt_isSome (show 16 + 4 ≤ (ip ++ (udp ++ body)).length by omega)
  refine ⟨⟨.udp, src, dst, some dnsPort⟩, ?_, rfl, ?_⟩
  · have hshort : ¬(ip ++ (udp ++ body)).length < ipv4MinHeaderLen := by
      rw [hlen, ipv4MinHeaderLen]
      omega
    have hheader : ¬(ip ++ (udp ++ body)).length < headerLen b := by
      rw [hlen, ← hip]
      omega
    have hudp : ¬(udp ++ body).length < udpHeaderLen := by
      rw [length_append, h.length]
      omega
    have htcp : ¬protoUdp = protoTcp := by decide
    simp only [parsePacket, parsePorts, hshort, hhead, hversion, hihl, hheader, hproto, hsrc, hdst,
      hpayload, hudp, hport, htcp, Option.bind_eq_bind, Option.bind_some, ne_eq,
      not_true_eq_false, if_true, if_false]
  · have hstart : headerLen b + udpHeaderLen ≤ (ip ++ (udp ++ body)).length := by
      rw [hlen, ← hip, udpHeaderLen]
      omega
    have hdrop : (ip ++ (udp ++ body)).drop (headerLen b + udpHeaderLen) = body := by
      rw [← drop_drop, hpayload, ← h.length, drop_left]
    simp only [dnsPayload, hhead, tailFrom, hstart, hdrop, Option.bind_eq_bind, Option.bind_some,
      if_true, Option.map_some]

def blocking (entries : List Text) : Firewall := entries.foldl addDnsBlock Firewall.new

theorem blocking_eq (entries : List Text) :
    blocking entries = { Firewall.new with dnsBlocklist := entries.map storedEntry } := by
  have hfold : ∀ fw : Firewall, entries.foldl addDnsBlock fw =
      { fw with dnsBlocklist := fw.dnsBlocklist ++ entries.map storedEntry } := by
    induction entries with
    | nil => simp
    | cons e entries ih =>
      intro fw
      rw [foldl_cons, ih, addDnsBlock, append_assoc]
      rfl
  exact hfold Firewall.new

/-- A hostname is an entry of the list, or properly below one. -/
def HostListed (entries : List Text) (hostname : Text) : Prop :=
  ∃ e ∈ entries, hostname.map lower = storedEntry e ∨
    ∃ pre, pre ≠ [] ∧ hostname.map lower = pre ++ dot :: storedEntry e

theorem ne_nil_of_dot {pre post : Text}
    (h : ∀ l ∈ (pre ++ dot :: post).splitOn dot, 0 < l.length) : pre ≠ [] ∧ post ≠ [] := by
  rw [splitOn_append_cons_self] at h
  constructor
  · rintro rfl
    cases h [] (by simp)
  · rintro rfl
    cases h [] (by simp)

theorem hostListed_iff {entries : List Text} {hostname : Text}
    (h : ∀ l ∈ hostname.splitOn dot, 0 < l.length) :
    HostListed entries hostname ↔
      ∃ e ∈ entries, WithinDomain (hostname.map lower) (storedEntry e) := by
  constructor
  · rintro ⟨e, he, heq | ⟨pre, -, heq⟩⟩
    · exact ⟨e, he, .inl heq⟩
    · exact ⟨e, he, .inr ⟨pre, heq⟩⟩
  · rintro ⟨e, he, heq | ⟨pre, heq⟩⟩
    · exact ⟨e, he, .inl heq⟩
    · obtain ⟨s, t, rfl, rfl, ht⟩ := map_eq_append_iff.mp heq
      obtain ⟨b, t, rfl, hb, -⟩ := map_eq_cons_iff.mp ht
      have hdot : b = dot := lower_eq_of_not_letter (by decide) hb
      rw [hdot] at h
      refine ⟨e, he, .inr ⟨s.map lower, ?_, heq⟩⟩
      simpa using (ne_nil_of_dot h).1

theorem checkDnsBlocklist_ne_false {fw : Firewall} {entries : List Text}
    {packet payload : List UInt8} {info : PacketInfo} {domain : Text}
    (hlist : fw.dnsBlocklist = entries.map storedEntry)
    (hpayload : dnsPayload packet info.protocol = some (some payload))
    (hdomain : extractQueryDomain payload = some domain) :
    fw.checkDnsBlocklist packet info ≠ some false ↔
      ∃ e ∈ entries, WithinDomain domain (storedEntry e) := by
  have hcheck : fw.checkDnsBlocklist packet info = some (fw.isDnsBlockedLowercased domain) := by
    rw [checkDnsBlocklist, hpayload]
    split
    · next hempty =>
      rw [isDnsBlockedLowercased, isEmpty_iff.mp hempty]
      rfl
    · simp only [hdomain, Option.map_some]
  rw [hcheck, isDnsBlockedLowercased, hlist]
  simp only [ne_eq, Option.some.injEq, Bool.not_eq_false, any_map, any_eq_true,
    Function.comp_apply, domainMatchesSuffix_iff_withinDomain]

/-- The firewall reads the hostname out of the resolver's query, and denies the packet that
carries it exactly when the hostname is listed.  With rules of its own a firewall denies it also
when they do. -/
theorem firewall_denies_listed_queries {hostname : String} {txid : UInt16} {query : List UInt8}
    (hbuild : buildDnsQuery (Utf8.encode hostname.toList) txid = .ok query) :
    extractQueryDomain query = some ((Utf8.encode hostname.toList).map lower) ∧
      (Utf8.encode hostname.toList).getLast? ≠ some dot ∧
      ∀ ip udp rest entries, UdpDnsHeaders ip udp →
        (((blocking entries).evaluateTx (ip ++ (udp ++ (query ++ rest)))).1 = .deny ↔
          HostListed entries (Utf8.encode hostname.toList)) ∧
        ∀ fw : Firewall, fw.dnsBlocklist = entries.map storedEntry →
          ∃ info, parsePacket (ip ++ (udp ++ (query ++ rest))) = some info ∧
            ((fw.evaluateTx (ip ++ (udp ++ (query ++ rest)))).1 = .deny ↔
              HostListed entries (Utf8.encode hostname.toList) ∨
                fw.ruleAction .outbound info = .deny) := by
  obtain ⟨-, hls, -⟩ := buildDnsQuery_ok hbuild
  have hlabels := fun l hl => (hls l hl).1
  have hextract := extractQueryDomain_query hbuild
  refine ⟨?_, ?_, ?_⟩
  · rw [← hextract [], append_nil]
  · intro hlast
    obtain ⟨pre, hpre⟩ := getLast?_eq_some_iff.mp hlast
    rw [hpre] at hlabels
    exact (ne_nil_of_dot hlabels).2 rfl
  · intro ip udp rest entries hheaders
    obtain ⟨info, hparse, hinspected, hpayload⟩ := parsePacket_udpDns hheaders (query ++ rest)
    have hdeny : ∀ fw : Firewall, fw.dnsBlocklist = entries.map storedEntry →
        ((fw.evaluateTx (ip ++ (udp ++ (query ++ rest)))).1 = .deny ↔
          HostListed entries (Utf8.encode hostname.toList) ∨
            fw.ruleAction .outbound info = .deny) := by
      intro fw hlist
      rw [evaluateTx_fst, classify_eq_deny hparse, and_iff_right hinspected,
        checkDnsBlocklist_ne_false hlist hpayload (hextract rest), hostListed_iff hlabels]
    refine ⟨?_, fun fw hlist => ⟨info, hparse, hdeny fw hlist⟩⟩
    have hrule : (blocking entries).ruleAction .outbound info = .allow := by
      rw [blocking_eq]
      rfl
    rw [hdeny (blocking entries) (by rw [blocking_eq]), hrule]
    simp

def sampleIp (protocol : UInt8) : List UInt8 :=
  [0x45, 0, 0, 0, 0, 0, 0, 0, 64, protocol, 0, 0, 10, 0, 0, 2, 10, 0, 0, 1]

def sampleUdp (message : List UInt8) : List UInt8 :=
  sampleIp 17 ++ ([0x30, 0x39, 0, 53, 0, 0, 0, 0] ++ message)

def sampleQuery : List UInt8 :=
  [0, 7, 1, 0, 0, 1, 0, 0, 0, 0, 0, 0, 1, 120, 3, 65, 100, 115, 3, 110, 101, 116, 0, 0, 1, 0, 1]

/-- A query for `x.Ads.net` is denied under the entry `*.ads.net`, and passes under `s.net`. -/
theorem firewall_denies_listed_queries_sample :
    buildDnsQuery (Utf8.encode "x.Ads.net".toList) 7 = .ok sampleQuery ∧
      ((blocking [ascii "*.ads.net"]).evaluateTx (sampleUdp sampleQuery)).1 = .deny ∧
      ((blocking [ascii "s.net"]).evaluateTx (sampleUdp sampleQuery)).1 ≠ .deny := by
  have hbuild : buildDnsQuery (Utf8.encode "x.Ads.net".toList) 7 = .ok sampleQuery := by
    decide +kernel
  have hheaders : UdpDnsHeaders (sampleIp 17) [0x30, 0x39, 0, 53, 0, 0, 0, 0] :=
    ⟨⟨0x45, by decide, by decide, by decide, by decide⟩, by decide, by decide, by decide⟩
  have hmain := fun entries =>
    ((firewall_denies_listed_queries hbuild).2.2 _ _ [] entries hheaders).1
  have hrest : sampleUdp sampleQuery =
      sampleIp 17 ++ ([0x30, 0x39, 0, 53, 0, 0, 0, 0] ++ (sampleQuery ++ [])) := by
    rw [append_nil]
    rfl
  refine ⟨hbuild, ?_, by decide +kernel⟩
  rw [hrest]
  refine (hmain [ascii "*.ads.net"]).mpr ⟨_, mem_singleton_self _, .inr ⟨ascii "x", ?_⟩⟩
  decide +kernel

/-! ## The messages of a packet -/

def tcpFrame (m : List UInt8) : List UInt8 := be16Bytes m.length ++ m

/-- The DNS messages that a packet holds: the rest of a UDP datagram, or each message that is
complete in a TCP segment. -/
inductive DnsMessage (packet : List UInt8) : Protocol → List UInt8 → Prop
  | udp {b : UInt8} (hb : packet.head? = some b) :
    DnsMessage packet .udp (packet.drop (headerLen b + udpHeaderLen))
  | tcp {b offset : UInt8} {ms : List (List UInt8)} {m rest : List UInt8}
      (hb : packet.head? = some b) (hoffset : packet[headerLen b + 12]? = some offset)
      (hms : packet.drop (headerLen b + (offset >>> 4).toNat * 4) = ms.flatMap tcpFrame ++ rest)
      (hlen : ∀ m ∈ ms, m.length < 65536) (hm : m ∈ ms) : DnsMessage packet .tcp m

def AsksListed (entries : List Text) (packet : List UInt8) (protocol : Protocol) : Prop :=
  ∃ m q, DnsMessage packet protocol m ∧ HasQuestion m q ∧ Listed entries q.name

theorem of_tcpDnsPayload_empty {packet : List UInt8} {ihl : Nat} {offset : UInt8}
    (hoffset : packet[ihl + 12]? = some offset) (h : tcpDnsPayload packet ihl = some none) :
    packet.drop (ihl + (offset >>> 4).toNat * 4) = [] := by
  simp only [tcpDnsPayload, hoffset, tailFrom, Option.bind_eq_bind, Option.bind_some] at h
  split at h
  · cases h
  split at h
  · rw [Option.bind_some] at h
    split at h
    · next hempty => exact isEmpty_iff.mp hempty
    · split at h <;> cases h
  · cases h

theorem dnsPayload_ne_empty {packet m : List UInt8} {protocol : Protocol}
    (h : DnsMessage packet protocol m) : dnsPayload packet protocol ≠ some none := by
  intro hempty
  cases h with
  | udp hb =>
    simp only [dnsPayload, hb, Option.bind_eq_bind, Option.bind_some, Option.map_eq_some_iff,
      reduceCtorEq, and_false, exists_false] at hempty
  | tcp hb hoffset hms hlen hm =>
    simp only [dnsPayload, hb, Option.bind_eq_bind, Option.bind_some] at hempty
    rw [of_tcpDnsPayload_empty hoffset hempty] at hms
    obtain ⟨hframes, -⟩ := append_eq_nil_iff.mp hms.symm
    have hframe := flatMap_eq_nil_iff.mp hframes _ hm
    cases hframe

/-- The first message of a packet, and what follows it in a TCP segment. -/
inductive FirstMessage (packet : List UInt8) : Protocol → List UInt8 → List UInt8 → Prop
  | udp {b : UInt8} (hb : packet.head? = some b)
      (hlen : headerLen b + udpHeaderLen ≤ packet.length) :
    FirstMessage packet .udp (packet.drop (headerLen b + udpHeaderLen)) []
  | tcp {b offset : UInt8} {m rest : List UInt8} (hb : packet.head? = some b)
      (hoffset : packet[headerLen b + 12]? = some offset)
      (hheader : tcpMinHeaderLen ≤ (offset >>> 4).toNat * 4)
      (hm : packet.drop (headerLen b + (offset >>> 4).toNat * 4) = tcpFrame m ++ rest)
      (hlen : m.length < 65536) : FirstMessage packet .tcp m rest

theorem tcpDnsPayload_eq_some {packet payload : List UInt8} {ihl : Nat} {offset : UInt8}
    (hoffset : packet[ihl + 12]? = some offset) :
    tcpDnsPayload packet ihl = some (some payload) ↔ tcpMinHeaderLen ≤ (offset >>> 4).toNat * 4 ∧
      ∃ hi lo, packet.drop (ihl + (offset >>> 4).toNat * 4) = hi :: lo :: payload := by
  simp only [tcpDnsPayload, hoffset, tailFrom, Option.bind_eq_bind, Option.bind_some]
  by_cases hheader : (offset >>> 4).toNat * 4 < tcpMinHeaderLen
  · simp only [hheader, if_true, reduceCtorEq, false_iff]
    exact fun h => absurd h.1 (by omega)
  rw [if_neg hheader, and_iff_right (by omega)]
  by_cases hstart : ihl + (offset >>> 4).toNat * 4 ≤ packet.length
  · rw [if_pos hstart, Option.bind_some]
    rcases packet.drop _ with _ | ⟨hi, _ | ⟨lo, tail⟩⟩
    · simp
    · simp
    · simp
  · rw [if_neg hstart, drop_eq_nil_of_le (by omega)]
    simp

/-- The filter reads the first message and whatever follows it. -/
theorem dnsPayload_iff_firstMessage {packet m : List UInt8} {protocol : Protocol}
    (hm : DnsMessage packet protocol m) {payload : List UInt8} :
    dnsPayload packet protocol = some (some payload) ↔
      ∃ m rest, FirstMessage packet protocol m rest ∧ payload = m ++ rest := by
  cases hm with
  | udp hb =>
    simp only [dnsPayload, hb, tailFrom, Option.bind_eq_bind, Option.bind_some]
    constructor
    · intro h
      split at h
      · rename_i hlen
        cases h
        exact ⟨_, [], .udp hb hlen, (append_nil _).symm⟩
      · cases h
    · rintro ⟨_, _, ⟨hb', hlen⟩, rfl⟩
      cases hb.symm.trans hb'
      rw [if_pos hlen, append_nil]
      rfl
  | @tcp b offset ms m rest hb hoffset hms hlen hmem =>
    simp only [dnsPayload, hb, Option.bind_eq_bind, Option.bind_some]
    rw [tcpDnsPayload_eq_some hoffset]
    constructor
    · rintro ⟨hheader, hi, lo, hdrop⟩
      obtain ⟨first, ms, rfl⟩ := exists_cons_of_ne_nil (ne_nil_of_mem hmem)
      rw [flatMap_cons, append_assoc] at hms
      refine ⟨first, _, .tcp hb hoffset hheader hms (hlen _ mem_cons_self), ?_⟩
      exact (cons.inj (cons.inj (hdrop.symm.trans hms)).2).2
    · rintro ⟨m, rest, h, rfl⟩
      cases h with
      | tcp hb' hoffset' hheader hm hlen =>
        cases hb.symm.trans hb'
        cases hoffset.symm.trans hoffset'
        exact ⟨hheader, _, _, hm⟩

/-- The first name of a message, if it can be read, matches an entry as it is stored. -/
def FirstNameListed (entries : List Text) (message : List UInt8) : Prop :=
  ∀ ls, FirstName message ls → ∃ e ∈ entries, WithinDomain ((nameText ls).map lower) (storedEntry e)

/-- The packets that hold a listed question and are denied are those that the rules deny and
those whose first name is listed as stored or cannot be read.  The first name is the one that
starts in the first message; it is read on into what follows the message. -/
theorem dns_block_complete_iff {fw : Firewall} {entries : List Text} {packet : List UInt8}
    {info : PacketInfo} (hlist : fw.dnsBlocklist = entries.map storedEntry)
    (hparse : parsePacket packet = some info) (hinspected : inspected info = true) :
    (AsksListed entries packet info.protocol → (fw.evaluateTx packet).1 = .deny) ↔
      ¬AsksListed entries packet info.protocol ∨ fw.ruleAction .outbound info = .deny ∨
        ∀ m rest, FirstMessage packet info.protocol m rest →
          FirstNameListed entries (m ++ rest) := by
  by_cases hasks : AsksListed entries packet info.protocol
  · simp only [hasks, true_implies, not_true_eq_false, false_or]
    rw [evaluateTx_fst, classify_eq_deny hparse, and_iff_right hinspected, or_comm]
    refine or_congr Iff.rfl ?_
    obtain ⟨m, q, hm, -, e, he, -⟩ := hasks
    have hread : (∀ m rest, FirstMessage packet info.protocol m rest →
        FirstNameListed entries (m ++ rest)) ↔
          ∀ payload, dnsPayload packet info.protocol = some (some payload) →
            FirstNameListed entries payload := by
      simp only [dnsPayload_iff_firstMessage hm]
      exact ⟨fun h payload ⟨m, rest, hfirst, heq⟩ => heq ▸ h m rest hfirst,
        fun h m rest hfirst => h _ ⟨m, rest, hfirst, rfl⟩⟩
    rw [hread]
    have hne : fw.dnsBlocklist ≠ [] := by
      rw [hlist]
      exact ne_nil_of_mem (mem_map_of_mem he)
    match hpayload : dnsPayload packet info.protocol with
    | none =>
      have hcheck : fw.checkDnsBlocklist packet info = none := by
        rw [checkDnsBlocklist, if_neg (by simpa using hne), hpayload]
      simp [hcheck]
    | some none => exact absurd hpayload (dnsPayload_ne_empty hm)
    | some (some payload) =>
      rw [ne_eq, checkDnsBlocklist_eq_false hpayload hne, hlist]
      constructor
      · rintro hpass payload' hsome ls hfirst
        cases hsome
        by_contra hnone
        refine hpass ⟨ls, hfirst, fun suffix hsuffix hmatches => hnone ?_⟩
        obtain ⟨e, he, rfl⟩ := mem_map.mp hsuffix
        exact ⟨e, he, domainMatchesSuffix_iff_withinDomain.mp hmatches⟩
      · rintro hlisted ⟨ls, hfirst, hnone⟩
        obtain ⟨e, he, hwithin⟩ := hlisted payload rfl ls hfirst
        exact hnone _ (mem_map_of_mem he) (domainMatchesSuffix_iff_withinDomain.mpr hwithin)
  · simp only [hasks, false_implies, not_false_eq_true, true_or]

/-! Three packets with a listed question that pass. -/

def sampleTcp (messages : List (List UInt8)) : List UInt8 :=
  sampleIp 6 ++ ([0x30, 0x39, 0, 53, 0, 0, 0, 0, 0, 0, 0, 0, 0x50, 0, 0, 0, 0, 0, 0, 0] ++
    messages.flatMap tcpFrame)

def sampleMessage (qs : List Question) : List UInt8 :=
  [0, 7, 1, 0, 0, UInt8.ofNat qs.length, 0, 0, 0, 0, 0, 0] ++ qs.flatMap wireQuestion

def plainQuestion : Question := ⟨[ascii "ok", ascii "org"], 1, 1⟩

def adsQuestion : Question := ⟨[ascii "x", ascii "Ads", ascii "net"], 1, 1⟩

theorem adsQuestion_asked : HasQuestion (sampleMessage [adsQuestion]) adsQuestion := by
  have hname : NameAt (sampleMessage [adsQuestion]) 12 adsQuestion.name 23 :=
    .label rfl (by decide) (by decide) rfl (.label rfl (by decide) (by decide) rfl
      (.label rfl (by decide) (by decide) rfl (.root rfl)))
  exact ⟨1, [adsQuestion], _, rfl, .cons hname rfl rfl (.nil _), by decide, by simp⟩

theorem adsQuestion_asked_second :
    HasQuestion (sampleMessage [plainQuestion, adsQuestion]) adsQuestion := by
  have hplain : NameAt (sampleMessage [plainQuestion, adsQuestion]) 12 plainQuestion.name 20 :=
    .label rfl (by decide) (by decide) rfl (.label rfl (by decide) (by decide) rfl (.root rfl))
  have hads : NameAt (sampleMessage [plainQuestion, adsQuestion]) 24 adsQuestion.name 35 :=
    .label rfl (by decide) (by decide) rfl (.label rfl (by decide) (by decide) rfl
      (.label rfl (by decide) (by decide) rfl (.root rfl)))
  exact ⟨2, [plainQuestion, adsQuestion], _, rfl,
    .cons hplain rfl rfl (.cons hads rfl rfl (.nil _)), by decide, by simp⟩

theorem adsQuestion_listed :
    Listed [ascii "ads.net"] adsQuestion.name ∧ Listed [ascii "ads.net."] adsQuestion.name :=
  ⟨⟨_, mem_singleton_self _, .inr ⟨ascii "x", by decide⟩⟩,
    ⟨_, mem_singleton_self _, .inr ⟨ascii "x", by decide⟩⟩⟩

/-- A listed name in the second question, one in the second message of a segment, and one that
was listed with a trailing dot. -/
theorem dns_block_misses :
    let fw := Firewall.new.addDnsBlock (ascii "ads.net")
    let twoQuestions := sampleUdp (sampleMessage [plainQuestion, adsQuestion])
    let twoMessages := sampleTcp [sampleMessage [plainQuestion], sampleMessage [adsQuestion]]
    let dotted := Firewall.new.addDnsBlock (ascii "ads.net.")
    let oneQuestion := sampleUdp (sampleMessage [adsQuestion])
    (AsksListed [ascii "ads.net"] twoQuestions .udp ∧ (fw.evaluateTx twoQuestions).1 = .allow) ∧
      (AsksListed [ascii "ads.net"] twoMessages .tcp ∧ (fw.evaluateTx twoMessages).1 = .allow) ∧
      (AsksListed [ascii "ads.net."] oneQuestion .udp ∧
        (dotted.evaluateTx oneQuestion).1 = .allow) := by
  intro fw twoQuestions twoMessages dotted oneQuestion
  obtain ⟨hlisted, hlistedDot⟩ := adsQuestion_listed
  have hverdicts : (fw.evaluateTx twoQuestions).1 = .allow ∧
      (fw.evaluateTx twoMessages).1 = .allow ∧ (dotted.evaluateTx oneQuestion).1 = .allow := by
    decide +kernel
  refine ⟨⟨⟨_, _, .udp rfl, adsQuestion_asked_second, hlisted⟩, hverdicts.1⟩,
    ⟨⟨_, _, ?_, adsQuestion_asked, hlisted⟩, hverdicts.2.1⟩,
    ⟨⟨_, _, .udp rfl, adsQuestion_asked, hlistedDot⟩, hverdicts.2.2⟩⟩
  exact .tcp rfl rfl (append_nil _).symm (by decide) (by simp)

/-- One question in one message: nothing is missed. -/
theorem dns_block_complete_iff_single :
    let fw := Firewall.new.addDnsBlock (ascii "ads.net")
    let packet := sampleUdp (sampleMessage [adsQuestion])
    AsksListed [ascii "ads.net"] packet .udp ∧ (fw.evaluateTx packet).1 = .deny := by
  intro fw packet
  have hasks : AsksListed [ascii "ads.net"] packet .udp :=
    ⟨_, _, .udp rfl, adsQuestion_asked, adsQuestion_listed.1⟩
  have hparse : parsePacket packet = some ⟨.udp, #v[10, 0, 0, 2], #v[10, 0, 0, 1], some 53⟩ := rfl
  have hlist : fw.dnsBlocklist = [ascii "ads.net"].map storedEntry := rfl
  refine ⟨hasks, (dns_block_complete_iff hlist hparse rfl).mpr (.inr (.inr ?_)) hasks⟩
  rintro m rest hmessage ls hfirst
  have hbody : sampleMessage [adsQuestion] = m ++ rest := Option.some.inj (Option.some.inj
    ((dnsPayload_iff_firstMessage (.udp rfl)).mpr ⟨m, rest, hmessage, rfl⟩))
  rw [← hbody] at hfirst
  have hdomain : extractQueryDomain (sampleMessage [adsQuestion]) = some (ascii "x.ads.net") := by
    decide +kernel
  have hname := extractQueryDomain_eq_some.mpr ⟨ls, hfirst, rfl⟩
  refine ⟨_, mem_singleton_self _, .inr ⟨ascii "x", ?_⟩⟩
  rw [← Option.some_inj.mp (hdomain.symm.trans hname)]
  decide

end Thumos.Firewall
