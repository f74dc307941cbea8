import Mathlib.Data.List.Induction
import Thumos.Lib.Ring

/-!
# The identity filter of the modem driver

`process_modem_rx` forwards a packet unless its payload shows an identity: one of
four AT patterns, or a run of exactly 15 digits.  On one payload the scan is exact
(`containsIdentityPattern_iff`).

A byte that can be part of no identity is a separator.  A stream shows an identity
exactly if one of its parts between separators does, so a stream of payloads that
end in a separator is filtered as a whole.
-/

namespace Thumos

structure CcciHeader where
  data0 : UInt32
  data1 : UInt32
  channel : UInt32
  reserved : UInt32
  deriving DecidableEq

inductive CcciError where
  | invalidChannel (channel : UInt32)
  | packetLengthExceeded (headerLength : UInt32) (bufferLen : Nat)
  | offsetOutOfBounds (offset : UInt32) (bufferLen : Nat)
  deriving DecidableEq

namespace CcciHeader

def ccciMagic : UInt32 := 0xFFFFFFFF

def isControl (h : CcciHeader) : Bool := h.data0 == ccciMagic

/-- The channels 0 to 21 are known. -/
def validate (h : CcciHeader) : Except CcciError Unit :=
  if h.channel ≤ 21 then .ok () else .error (.invalidChannel h.channel)

end CcciHeader

def validatePacket (h : CcciHeader) (bufferLen : Nat) : Except CcciError Unit := do
  h.validate
  if !h.isControl && h.data0.toNat > bufferLen then
    throw (.packetLengthExceeded h.data0 bufferLen)
  if h.data1 ≠ 0 ∧ h.data1.toNat > bufferLen then
    throw (.offsetOutOfBounds h.data1 bufferLen)

/-! ## The scan of a payload -/

def isAsciiDigit (b : UInt8) : Bool := 48 ≤ b && b ≤ 57

def toAsciiLower (b : UInt8) : UInt8 := if 65 ≤ b ∧ b ≤ 90 then b + 32 else b

def eqIgnoreAsciiCase (a b : UInt8) : Bool := toAsciiLower a == toAsciiLower b

def identityAtCommands : List (List UInt8) :=
  [[65, 84, 43, 67, 71, 83, 78], -- AT+CGSN
    [65, 84, 43, 67, 73, 77, 73], -- AT+CIMI
    [43, 67, 71, 83, 78, 58], -- +CGSN:
    [43, 67, 73, 77, 73, 58]] -- +CIMI:

abbrev identityDigitRunLen : Nat := 15

def containsSubsequence (haystack needle : List UInt8) : Bool :=
  if needle.isEmpty then true
  else if haystack.length < needle.length then false
  else
    let limit := haystack.length - needle.length + 1
    (List.range limit).any fun i =>
      (((haystack.drop i).take needle.length).zip needle).all fun p => eqIgnoreAsciiCase p.1 p.2

/-- The loop of `contains_bare_identity_digits`, after `runLen` digits. -/
def scanDigits : Nat → List UInt8 → Bool
  | runLen, [] => runLen == identityDigitRunLen
  | runLen, b :: rest =>
    if isAsciiDigit b then scanDigits (runLen + 1) rest
    else if runLen = identityDigitRunLen then true
    else scanDigits 0 rest

def containsBareIdentityDigits (data : List UInt8) : Bool := scanDigits 0 data

def containsIdentityPattern (data : List UInt8) : Bool :=
  identityAtCommands.any (fun pattern =>
    data.length ≥ pattern.length && containsSubsequence data pattern) ||
  containsBareIdentityDigits data

/-! ## The receive path -/

inductive ModemEventKind where
  | modemRx
  | identityFiltered
  deriving DecidableEq

structure ModemAuditEntry where
  timestamp : Nat
  kind : ModemEventKind
  channel : UInt32
  payload : Vector UInt8 64
  payloadLen : Nat

def ModemAuditEntry.new (timestamp : Nat) (kind : ModemEventKind) (channel : UInt32)
    (data : List UInt8) : ModemAuditEntry where
  timestamp := timestamp
  kind := kind
  channel := channel
  payload := Vector.ofFn fun i => data.getD i 0
  payloadLen := data.length

instance neZeroSixtyFour : NeZero 64 := ⟨by decide⟩

structure AuditRing where
  entries : Vector (Option ModemAuditEntry) 64
  writeIdx : Fin 64
  totalWritten : Nat

def AuditRing.record (r : AuditRing) (entry : ModemAuditEntry) : AuditRing where
  entries := r.entries.set r.writeIdx (some entry)
  writeIdx := Ring.next r.writeIdx
  totalWritten := (r.totalWritten + 1) % 2 ^ 64

/-- The fields of the driver that the receive path reads and writes. -/
structure CcciDriver where
  audit : AuditRing
  identityFilterEnabled : Bool
  userCapabilities : UInt32
  malformedPacketCount : Nat

def capModemIdentity : UInt32 := (1 : UInt32) <<< (16 : UInt32)

structure ModemPacket where
  header : CcciHeader
  payload : List UInt8
  timestamp : Nat

namespace CcciDriver

def recordMalformedPacket (d : CcciDriver) : CcciDriver :=
  { d with malformedPacketCount := min (d.malformedPacketCount + 1) (2 ^ 32 - 1) }

def processModemRx (d : CcciDriver) (p : ModemPacket) : Except CcciError Bool × CcciDriver :=
  match validatePacket p.header p.payload.length with
  | .error e => (.error e, d.recordMalformedPacket)
  | .ok () =>
    let d := { d with
      audit := d.audit.record (.new p.timestamp .modemRx p.header.channel p.payload) }
    if d.identityFilterEnabled && containsIdentityPattern p.payload then
      let d := { d with
        audit := d.audit.record (.new p.timestamp .identityFiltered p.header.channel p.payload) }
      if d.userCapabilities &&& capModemIdentity = 0 then (.ok false, d) else (.ok true, d)
    else (.ok true, d)

def forwarded (channel : UInt32) : CcciDriver → List ModemPacket → List UInt8
  | _, [] => []
  | d, p :: packets =>
    let rest := forwarded channel (d.processModemRx p).2 packets
    if p.header.channel = channel ∧ (d.processModemRx p).1.toOption = some true then
      p.payload ++ rest
    else rest

end CcciDriver

open List Bool

/-! ## What shows an identity -/

def Mentions (data pattern : List UInt8) : Prop :=
  ∃ before found after, data = before ++ found ++ after ∧
    found.map toAsciiLower = pattern.map toAsciiLower

/-- Exactly 15 digits in a row, with no further digit next to them. -/
def HasDigitRun (data : List UInt8) : Prop :=
  ∃ before run after, data = before ++ run ++ after ∧ run.length = identityDigitRunLen ∧
    (∀ b ∈ run, isAsciiDigit b = true) ∧ (∀ b ∈ before.getLast?, isAsciiDigit b = false) ∧
    ∀ b ∈ after.head?, isAsciiDigit b = false

def Reveals (data : List UInt8) : Prop :=
  (∃ pattern ∈ identityAtCommands, Mentions data pattern) ∨ HasDigitRun data

variable {data a c : List UInt8} {b : UInt8}

theorem split_infix {before found after : List UInt8} (hb : b ∉ found)
    (h : a ++ b :: c = before ++ found ++ after) :
    (∃ after', a = before ++ found ++ after' ∧ after = after' ++ b :: c) ∨
      ∃ before', c = before' ++ found ++ after ∧ before = a ++ b :: before' := by
  rw [append_assoc] at h
  obtain ⟨gap, rfl, hgap⟩ | ⟨gap, rfl, hgap⟩ := append_eq_append_iff.mp h
  · cases gap with
    | nil =>
      cases found with
      | nil => exact .inl ⟨[], by simp, hgap.symm⟩
      | cons x found =>
        obtain ⟨rfl, -⟩ := cons.inj hgap
        exact absurd mem_cons_self hb
    | cons x gap =>
      obtain ⟨rfl, rfl⟩ := cons.inj hgap
      exact .inr ⟨gap, (append_assoc _ _ _).symm, rfl⟩
  · obtain ⟨gap', rfl, hafter⟩ | ⟨gap', rfl, hafter⟩ := append_eq_append_iff.mp hgap
    · exact .inl ⟨gap', (append_assoc _ _ _).symm, hafter⟩
    · cases gap' with
      | nil => exact .inl ⟨[], by simp, hafter.symm⟩
      | cons x gap' =>
        obtain ⟨rfl, -⟩ := cons.inj hafter
        exact absurd (mem_append_right gap mem_cons_self) hb

theorem mentions_split {pattern : List UInt8} (hb : toAsciiLower b ∉ pattern.map toAsciiLower) :
    Mentions (a ++ b :: c) pattern ↔ Mentions a pattern ∨ Mentions c pattern := by
  constructor
  · rintro ⟨before, found, after, h, hfound⟩
    have hnot : b ∉ found := by
      intro hmem
      rw [← hfound] at hb
      exact hb (mem_map_of_mem hmem)
    obtain ⟨after', ha, -⟩ | ⟨before', hc, -⟩ := split_infix hnot h
    · exact .inl ⟨before, found, after', ha, hfound⟩
    · exact .inr ⟨before', found, after, hc, hfound⟩
  · rintro (⟨before, found, after, rfl, hfound⟩ | ⟨before, found, after, rfl, hfound⟩)
    · exact ⟨before, found, after ++ b :: c, by simp, hfound⟩
    · exact ⟨a ++ b :: before, found, after, by simp, hfound⟩

theorem hasDigitRun_split (hb : isAsciiDigit b = false) :
    HasDigitRun (a ++ b :: c) ↔ HasDigitRun a ∨ HasDigitRun c := by
  constructor
  · rintro ⟨before, run, after, h, hlen, hdigits, hbefore, hafter⟩
    have hnot : b ∉ run := fun hmem => absurd (hb.symm.trans (hdigits b hmem)) (by decide)
    obtain ⟨after', ha, rfl⟩ | ⟨before', hc, rfl⟩ := split_infix hnot h
    · refine .inl ⟨before, run, after', ha, hlen, hdigits, hbefore, fun x hx => hafter x ?_⟩
      rw [head?_append, Option.mem_def.mp hx]
      rfl
    · refine .inr ⟨before', run, after, hc, hlen, hdigits, fun x hx => hbefore x ?_, hafter⟩
      rw [getLast?_append, getLast?_cons, Option.mem_def.mp hx]
      rfl
  · rintro (⟨before, run, after, rfl, hlen, hdigits, hbefore, hafter⟩ |
      ⟨before, run, after, rfl, hlen, hdigits, hbefore, hafter⟩)
    · refine ⟨before, run, after ++ b :: c, by simp, hlen, hdigits, hbefore, fun x hx => ?_⟩
      cases after with
      | nil =>
        cases hx
        exact hb
      | cons y after => exact hafter x hx
    · refine ⟨a ++ b :: before, run, after, by simp, hlen, hdigits, fun x hx => ?_, hafter⟩
      rw [getLast?_append, getLast?_cons] at hx
      cases hlast : before.getLast? with
      | none =>
        rw [hlast] at hx
        cases hx
        exact hb
      | some y =>
        rw [hlast] at hx
        cases hx
        exact hbefore y hlast

theorem hasDigitRun_digits (h : ∀ x ∈ data, isAsciiDigit x = true) :
    HasDigitRun data ↔ data.length = identityDigitRunLen := by
  constructor
  · rintro ⟨before, run, after, rfl, hlen, -, hbefore, hafter⟩
    have hbefore' : before = [] := by
      refine getLast?_eq_none_iff.mp (Option.eq_none_iff_forall_not_mem.mpr fun x hx => ?_)
      have hx' := h x (by simp [mem_of_getLast? hx])
      cases (hbefore x hx).symm.trans hx'
    have hafter' : after = [] := by
      refine head?_eq_none_iff.mp (Option.eq_none_iff_forall_not_mem.mpr fun x hx => ?_)
      have hx' := h x (by simp [mem_of_head? hx])
      cases (hafter x hx).symm.trans hx'
    rw [hbefore', hafter', nil_append, append_nil, hlen]
  · intro hlen
    exact ⟨[], data, [], by simp, hlen, h, nofun, nofun⟩

/-! ## The scan is exact -/

theorem scanDigits_iff {digits : List UInt8} (h : ∀ x ∈ digits, isAsciiDigit x = true) :
    scanDigits digits.length data = true ↔ HasDigitRun (digits ++ data) := by
  induction data generalizing digits with
  | nil => rw [append_nil, hasDigitRun_digits h, scanDigits, beq_iff_eq]
  | cons b rest ih =>
    rw [scanDigits]
    split
    next hdigit =>
      have hlen : digits.length + 1 = (digits ++ [b]).length := by simp
      have hall : ∀ x ∈ digits ++ [b], isAsciiDigit x = true := by
        intro x hx
        obtain hx | hx := mem_append.mp hx
        · exact h x hx
        · rw [mem_singleton.mp hx]
          exact hdigit
      rw [hlen, ih hall, append_assoc, singleton_append]
    next hother =>
      rw [hasDigitRun_split (eq_false_of_ne_true hother), hasDigitRun_digits h]
      split
      next hlen => simp [hlen]
      next hlen =>
        have hrest := @ih [] nofun
        simpa [hlen] using hrest

theorem zip_all_iff {found pattern : List UInt8} (hlen : found.length = pattern.length) :
    ((found.zip pattern).all fun p => eqIgnoreAsciiCase p.1 p.2) = true ↔
      found.map toAsciiLower = pattern.map toAsciiLower := by
  induction found generalizing pattern with
  | nil =>
    rw [length_eq_zero_iff.mp hlen.symm]
    simp
  | cons x found ih =>
    cases pattern with
    | nil => cases hlen
    | cons y pattern =>
      rw [zip_cons_cons, all_cons, and_eq_true, ih (Nat.succ.inj hlen),
        eqIgnoreAsciiCase, beq_iff_eq, map_cons, map_cons, cons.injEq]

theorem containsSubsequence_iff {pattern : List UInt8} (hne : pattern ≠ []) :
    containsSubsequence data pattern = true ↔ Mentions data pattern := by
  have hempty : pattern.isEmpty = false := isEmpty_eq_false_iff.mpr hne
  unfold containsSubsequence
  rw [hempty, if_neg Bool.false_ne_true]
  split
  next hshort =>
    refine ⟨nofun, ?_⟩
    rintro ⟨before, found, after, rfl, hfound⟩
    have hlen := congrArg length hfound
    simp only [length_map, length_append] at hlen hshort
    omega
  next hlong =>
    rw [any_eq_true]
    constructor
    · rintro ⟨i, hi, hall⟩
      rw [mem_range] at hi
      have hlen : ((data.drop i).take pattern.length).length = pattern.length := by
        rw [length_take, length_drop]
        omega
      refine ⟨data.take i, (data.drop i).take pattern.length,
        (data.drop i).drop pattern.length, ?_, (zip_all_iff hlen).mp hall⟩
      rw [append_assoc, take_append_drop, take_append_drop]
    · rintro ⟨before, found, after, rfl, hfound⟩
      have hlen : found.length = pattern.length := by
        have := congrArg length hfound
        rwa [length_map, length_map] at this
      refine ⟨before.length, ?_, ?_⟩
      · rw [mem_range, length_append, length_append]
        omega
      · rw [append_assoc, drop_left, ← hlen, take_left]
        exact (zip_all_iff hlen).mpr hfound

theorem containsIdentityPattern_iff : containsIdentityPattern data = true ↔ Reveals data := by
  unfold containsIdentityPattern Reveals
  rw [or_eq_true, any_eq_true, containsBareIdentityDigits]
  refine or_congr (exists_congr fun pattern => and_congr_right fun hpattern => ?_)
    (@scanDigits_iff data [] nofun)
  have hne : pattern ≠ [] := by
    revert hpattern
    revert pattern
    decide
  rw [and_eq_true, containsSubsequence_iff hne, decide_eq_true_iff]
  refine and_iff_right_of_imp ?_
  rintro ⟨before, found, after, rfl, hfound⟩
  have hlen := congrArg length hfound
  simp only [length_map, length_append] at hlen ⊢
  omega

/-! ## Streams of whole lines -/

/-- A byte that is part of no identity, such as the end of a line. -/
def isSeparator (b : UInt8) : Bool :=
  !isAsciiDigit b && identityAtCommands.all fun pattern =>
    !(pattern.map toAsciiLower).contains (toAsciiLower b)

theorem reveals_split (hb : isSeparator b = true) :
    Reveals (a ++ b :: c) ↔ Reveals a ∨ Reveals c := by
  simp only [isSeparator, and_eq_true, not_eq_true', all_eq_true,
    contains_eq_mem, decide_eq_false_iff_not] at hb
  obtain ⟨hdigit, hpatterns⟩ := hb
  unfold Reveals
  rw [hasDigitRun_split hdigit]
  have hmentions : (∃ pattern ∈ identityAtCommands, Mentions (a ++ b :: c) pattern) ↔
      (∃ pattern ∈ identityAtCommands, Mentions a pattern) ∨
        ∃ pattern ∈ identityAtCommands, Mentions c pattern := by
    constructor
    · rintro ⟨pattern, hpattern, h⟩
      obtain h | h := (mentions_split (hpatterns pattern hpattern)).mp h
      · exact .inl ⟨pattern, hpattern, h⟩
      · exact .inr ⟨pattern, hpattern, h⟩
    · rintro (⟨pattern, hpattern, h⟩ | ⟨pattern, hpattern, h⟩)
      · exact ⟨pattern, hpattern, (mentions_split (hpatterns pattern hpattern)).mpr (.inl h)⟩
      · exact ⟨pattern, hpattern, (mentions_split (hpatterns pattern hpattern)).mpr (.inr h)⟩
  rw [hmentions]
  exact or_or_or_comm

def endsInSeparator (data : List UInt8) : Bool := data.getLast?.all isSeparator

/-- A payload that ends in a separator shares no identity with what follows. -/
theorem reveals_append (h : endsInSeparator a = true) :
    Reveals (a ++ c) → Reveals a ∨ Reveals c := by
  cases a using reverseRecOn with
  | nil => exact .inr
  | append_singleton a b =>
    have hb : isSeparator b = true := by simpa [endsInSeparator] using h
    rw [append_assoc, singleton_append, reveals_split hb, reveals_split hb]
    exact Or.imp_left .inl

namespace CcciDriver

variable {d : CcciDriver} {p : ModemPacket}

theorem processModemRx_keeps :
    (d.processModemRx p).2.identityFilterEnabled = d.identityFilterEnabled ∧
      (d.processModemRx p).2.userCapabilities = d.userCapabilities := by
  unfold processModemRx
  split
  · exact ⟨rfl, rfl⟩
  dsimp only
  split
  · split <;> exact ⟨rfl, rfl⟩
  · exact ⟨rfl, rfl⟩

theorem not_reveals_of_forwarded (henabled : d.identityFilterEnabled = true)
    (hcap : d.userCapabilities &&& capModemIdentity = 0)
    (h : (d.processModemRx p).1.toOption = some true) : ¬ Reveals p.payload := by
  rw [← containsIdentityPattern_iff]
  intro hpattern
  unfold processModemRx at h
  split at h
  · cases h
  · dsimp only at h
    rw [henabled, hpattern, Bool.and_self, if_pos rfl, if_pos hcap] at h
    cases h

/-- If every payload on the channel ends in a separator, then no identity reaches
userspace on it, however the modem cuts its output. -/
theorem identity_withheld (d : CcciDriver) (henabled : d.identityFilterEnabled = true)
    (hcap : d.userCapabilities &&& capModemIdentity = 0) (channel : UInt32)
    (packets : List ModemPacket)
    (hlines : ∀ p ∈ packets, p.header.channel = channel → endsInSeparator p.payload = true) :
    ¬ Reveals (forwarded channel d packets) := by
  induction packets generalizing d with
  | nil =>
    rw [← containsIdentityPattern_iff]
    exact nofun
  | cons p packets ih =>
    obtain ⟨hfilter, hcaps⟩ := @processModemRx_keeps d p
    have hrest := ih (d.processModemRx p).2 (hfilter.trans henabled) (by rw [hcaps, hcap])
      fun q hq => hlines q (mem_cons_of_mem p hq)
    unfold forwarded
    split
    next hforwarded =>
      intro hreveals
      have hend := hlines p mem_cons_self hforwarded.1
      obtain h | h := reveals_append hend hreveals
      · exact not_reveals_of_forwarded henabled hcap hforwarded.2 h
      · exact hrest h
    next => exact hrest

def filtering : CcciDriver where
  audit := ⟨Vector.replicate 64 none, 0, 0⟩
  identityFilterEnabled := true
  userCapabilities := 0
  malformedPacketCount := 0

def uartPacket (payload : List UInt8) : ModemPacket where
  header := ⟨UInt32.ofNat payload.length, 0, 5, 0⟩
  payload := payload
  timestamp := 0

/-- Two lines, the second of which is an identity and is held back. -/
theorem identity_withheld_lines :
    forwarded 5 filtering
      [uartPacket [79, 75, 13, 10], uartPacket [43, 67, 71, 83, 78, 58, 49, 13, 10]] =
        [79, 75, 13, 10] ∧
    ¬ Reveals (forwarded 5 filtering
      [uartPacket [79, 75, 13, 10], uartPacket [43, 67, 71, 83, 78, 58, 49, 13, 10]]) :=
  ⟨by decide +kernel, identity_withheld filtering rfl (by decide) 5 _ (by decide)⟩

/-- `AT+CGSN` in two packets, and 15 digits in two packets. -/
theorem identity_leaked :
    Reveals (forwarded 5 filtering [uartPacket [65, 84, 43, 67], uartPacket [71, 83, 78]]) ∧
    Reveals (forwarded 5 filtering
      [uartPacket (List.replicate 7 49), uartPacket (List.replicate 8 49)]) := by
  rw [← containsIdentityPattern_iff, ← containsIdentityPattern_iff]
  decide +kernel

end CcciDriver

end Thumos
