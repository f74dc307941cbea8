import Mathlib.Algebra.Group.Nat.Defs
import Thumos.Net.DnsName

/-!
# The packet filter

A packet is parsed, a DNS packet is held against the blocklist, and then the
first rule that matches decides, or the default of the direction.  Every verdict
is counted and, when it is not a plain allow, queued for the audit log.

`classify_eq_deny` says which packets that parse are denied, and
`checkDnsBlocklist_eq_false` which of them the DNS check lets through.
-/

namespace Thumos

open DnsWire Ascii Asphaleia

namespace Firewall

def ipv4MinHeaderLen : Nat := 20

def ipv4Version : UInt8 := 4

def minIhl : UInt8 := 5

def tcpMinHeaderLen : Nat := 20

def udpHeaderLen : Nat := 8

def protoIcmp : UInt8 := 1

def protoTcp : UInt8 := 6

def protoUdp : UInt8 := 17

def dnsPort : Nat := 53

def eventQueueCap : Nat := 32

inductive Action
  | allow
  | deny
  | log
  deriving DecidableEq

inductive Direction
  | inbound
  | outbound
  deriving DecidableEq

inductive Protocol
  | tcp
  | udp
  | icmp
  deriving DecidableEq

structure PacketEvent where
  direction : Direction
  action : Action
  deriving DecidableEq

abbrev Ipv4Address := Vector UInt8 4

/-- A rule; a field that is `none` matches every packet. -/
structure FilterRule where
  direction : Direction
  protocol : Option Protocol
  srcAddr : Option Ipv4Address
  dstAddr : Option Ipv4Address
  dstPort : Option Nat
  action : Action

structure FirewallStats where
  packetsAllowed : Nat
  packetsDenied : Nat
  dnsBlocked : Nat

structure PacketInfo where
  protocol : Protocol
  srcAddr : Ipv4Address
  dstAddr : Ipv4Address
  dstPort : Option Nat

end Firewall

open Firewall in
structure Firewall where
  rules : List FilterRule
  dnsBlocklist : List Text
  stats : FirewallStats
  defaultInbound : Action
  defaultOutbound : Action
  events : List PacketEvent
  eventsDropped : Nat

namespace Firewall

/-! ## Parsing a packet -/

def addressAt (packet : List UInt8) (pos : Nat) : Option Ipv4Address := do
  let a ← packet[pos]?
  let b ← packet[pos + 1]?
  let c ← packet[pos + 2]?
  let d ← packet[pos + 3]?
  some #v[a, b, c, d]

def headerLen (versionIhl : UInt8) : Nat := (versionIhl &&& 0x0F).toNat * 4

/-- What a TCP or UDP header of at least `minLen` bytes says. -/
def parsePorts (protocol : Protocol) (srcAddr dstAddr : Ipv4Address) (minLen : Nat)
    (payload : List UInt8) : Option PacketInfo := do
  if payload.length < minLen then none
  else
    let dstPort ← be16At payload 2
    some ⟨protocol, srcAddr, dstAddr, some dstPort⟩

def parsePacket (packet : List UInt8) : Option PacketInfo := do
  if packet.length < ipv4MinHeaderLen then none
  else
    let versionIhl ← packet.head?
    if versionIhl >>> 4 ≠ ipv4Version then none
    else if versionIhl &&& 0x0F < minIhl then none
    else if packet.length < headerLen versionIhl then none
    else
      let protoByte ← packet[9]?
      let srcAddr ← addressAt packet 12
      let dstAddr ← addressAt packet 16
      let payload := packet.drop (headerLen versionIhl)
      if protoByte = protoTcp then parsePorts .tcp srcAddr dstAddr tcpMinHeaderLen payload
      else if protoByte = protoUdp then parsePorts .udp srcAddr dstAddr udpHeaderLen payload
      else if protoByte = protoIcmp then some ⟨.icmp, srcAddr, dstAddr, none⟩
      else none

/-! ## Rules -/

def ruleMatches (rule : FilterRule) (direction : Direction) (info : PacketInfo) : Bool :=
  rule.direction == direction &&
    rule.protocol.all (· == info.protocol) &&
    rule.srcAddr.all (· == info.srcAddr) &&
    rule.dstAddr.all (· == info.dstAddr) &&
    match rule.dstPort, info.dstPort with
    | none, _ => true
    | some rulePort, some pktPort => rulePort == pktPort
    | some _, none => false

def new : Firewall where
  rules := []
  dnsBlocklist := []
  stats := ⟨0, 0, 0⟩
  defaultInbound := .deny
  defaultOutbound := .allow
  events := []
  eventsDropped := 0

def addRule (fw : Firewall) (rule : FilterRule) : Firewall :=
  { fw with rules := rule :: fw.rules }

def storedEntry (suffix : Text) : Text := (normalizeSuffix suffix).map lower

def addDnsBlock (fw : Firewall) (suffix : Text) : Firewall :=
  { fw with dnsBlocklist := fw.dnsBlocklist ++ [storedEntry suffix] }

def ruleAction (fw : Firewall) (direction : Direction) (info : PacketInfo) : Action :=
  match fw.rules.find? (ruleMatches · direction info) with
  | some rule => rule.action
  | none =>
    match direction with
    | .inbound => fw.defaultInbound
    | .outbound => fw.defaultOutbound

/-! ## The DNS blocklist -/

def isDnsBlockedLowercased (fw : Firewall) (hostname : Text) : Bool :=
  fw.dnsBlocklist.any (domainMatchesSuffix hostname)

/-- `packet.get(start..)`. -/
def tailFrom (packet : List UInt8) (start : Nat) : Option (List UInt8) :=
  if start ≤ packet.length then some (packet.drop start) else none

/-- The DNS message of a TCP segment after its length prefix; `some none` is a segment without
data. -/
def tcpDnsPayload (packet : List UInt8) (ihl : Nat) : Option (Option (List UInt8)) := do
  let dataOffsetByte ← packet[ihl + 12]?
  let tcpHeaderLen := (dataOffsetByte >>> 4).toNat * 4
  if tcpHeaderLen < tcpMinHeaderLen then none
  else
    let tcpPayload ← tailFrom packet (ihl + tcpHeaderLen)
    if tcpPayload.isEmpty then some none
    else if tcpPayload.length < 2 then none
    else some (some (tcpPayload.drop 2))

def dnsPayload (packet : List UInt8) (protocol : Protocol) : Option (Option (List UInt8)) := do
  let versionIhl ← packet.head?
  match protocol with
  | .udp => (tailFrom packet (headerLen versionIhl + udpHeaderLen)).map some
  | .tcp => tcpDnsPayload packet (headerLen versionIhl)
  | .icmp => some none

/-- `some true` blocks, `some false` does not, `none` is a payload that cannot be read. -/
def checkDnsBlocklist (fw : Firewall) (packet : List UInt8) (info : PacketInfo) : Option Bool :=
  if fw.dnsBlocklist.isEmpty then some false
  else
    match dnsPayload packet info.protocol with
    | none => none
    | some none => some false
    | some (some payload) => (extractQueryDomain payload).map fw.isDnsBlockedLowercased

/-! ## Verdicts -/

def inspected (info : PacketInfo) : Bool :=
  (info.protocol == .udp || info.protocol == .tcp) && info.dstPort == some dnsPort

def classify (fw : Firewall) (packet : List UInt8) (direction : Direction) : Action × Firewall :=
  match parsePacket packet with
  | none => (.deny, fw)
  | some info =>
    -- A payload that cannot be read is denied.
    if inspected info && (fw.checkDnsBlocklist packet info).getD true then
      (.deny, { fw with stats := { fw.stats with dnsBlocked := fw.stats.dnsBlocked + 1 } })
    else (fw.ruleAction direction info, fw)

def record (fw : Firewall) (action : Action) : Firewall :=
  match action with
  | .allow | .log =>
    { fw with stats := { fw.stats with packetsAllowed := fw.stats.packetsAllowed + 1 } }
  | .deny => { fw with stats := { fw.stats with packetsDenied := fw.stats.packetsDenied + 1 } }

def noteEvent (fw : Firewall) (direction : Direction) (action : Action) : Firewall :=
  match action with
  | .allow => fw
  | .log | .deny =>
    if eventQueueCap ≤ fw.events.length then
      { fw with eventsDropped := min (fw.eventsDropped + 1) (2 ^ 64 - 1) }
    else { fw with events := fw.events ++ [⟨direction, action⟩] }

def evaluate (fw : Firewall) (packet : List UInt8) (direction : Direction) : Action × Firewall :=
  let (action, fw) := fw.classify packet direction
  (action, (fw.record action).noteEvent direction action)

def evaluateRx (fw : Firewall) (packet : List UInt8) : Action × Firewall :=
  fw.evaluate packet .inbound

def evaluateTx (fw : Firewall) (packet : List UInt8) : Action × Firewall :=
  fw.evaluate packet .outbound

/-! ## What is denied -/

theorem classify_eq_deny {fw : Firewall} {packet : List UInt8} {info : PacketInfo}
    (hparse : parsePacket packet = some info) (direction : Direction) :
    (fw.classify packet direction).1 = .deny ↔
      (inspected info = true ∧ fw.checkDnsBlocklist packet info ≠ some false) ∨
        fw.ruleAction direction info = .deny := by
  have hcheck : (fw.checkDnsBlocklist packet info).getD true = true ↔
      fw.checkDnsBlocklist packet info ≠ some false := by
    cases fw.checkDnsBlocklist packet info with
    | none => simp
    | some blocked => cases blocked <;> simp
  rw [classify, hparse, ← hcheck]
  simp only [Bool.and_eq_true]
  by_cases hblocked : inspected info = true ∧ (fw.checkDnsBlocklist packet info).getD true = true
  · simp only [hblocked, and_self, if_true, true_or]
  · simp only [hblocked, if_false, false_or]

theorem evaluateTx_fst (fw : Firewall) (packet : List UInt8) :
    (fw.evaluateTx packet).1 = (fw.classify packet .outbound).1 := rfl

theorem checkDnsBlocklist_eq_false {fw : Firewall} {packet payload : List UInt8}
    {info : PacketInfo} (hpayload : dnsPayload packet info.protocol = some (some payload))
    (hlist : fw.dnsBlocklist ≠ []) :
    fw.checkDnsBlocklist packet info = some false ↔
      ∃ ls, FirstName payload ls ∧
        ∀ suffix ∈ fw.dnsBlocklist, ¬domainMatchesSuffix ((nameText ls).map lower) suffix := by
  rw [checkDnsBlocklist, if_neg (by simpa using hlist), hpayload]
  simp only [Option.map_eq_some_iff, extractQueryDomain_eq_some, isDnsBlockedLowercased,
    List.any_eq_false, Bool.not_eq_true]
  constructor
  · rintro ⟨domain, ⟨ls, hfirst, rfl⟩, hnone⟩
    exact ⟨ls, hfirst, hnone⟩
  · rintro ⟨ls, hfirst, hnone⟩
    exact ⟨_, ⟨ls, hfirst, rfl⟩, hnone⟩

end Firewall

end Thumos
