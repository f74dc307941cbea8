import Thumos.Lib.LittleEndian
import Thumos.Lib.StateExcept

/-!
# The wire envelope

A frame is a header of 22 bytes and a payload of exactly the length that the header
declares.  Everything in the header is checked before the payload is looked at.
-/

namespace Thumos.Metaxu

open LittleEndian StateExcept List

inductive MessageKind where
  | taskRequest
  | taskResponse
  | sttEvent
  | authenticatedRequest
  | authenticatedResponse
  deriving DecidableEq

namespace MessageKind

def fromU16 : Nat → Option MessageKind
  | 1 => some taskRequest
  | 2 => some taskResponse
  | 3 => some sttEvent
  | 4 => some authenticatedRequest
  | 5 => some authenticatedResponse
  | _ => none

def toU16 : MessageKind → Nat
  | taskRequest => 1
  | taskResponse => 2
  | sttEvent => 3
  | authenticatedRequest => 4
  | authenticatedResponse => 5

def payloadCeiling : MessageKind → Nat
  | taskRequest => 32 * 1024
  | taskResponse => 32 * 1024
  | sttEvent => 4 * 1024
  | authenticatedRequest => 34 * 1024
  | authenticatedResponse => 33 * 1024

end MessageKind

inductive EnvelopeError where
  | badMagic
  | unsupportedSchema (schema : Nat)
  | incompatibleVersion (ours theirs : Nat)
  | unknownKind (kind : Nat)
  | frameTooLarge (kind : MessageKind) (declared ceiling : Nat)
  | truncatedFrame (expected present : Nat)
  | trailingBytes (extra : Nat)
  deriving DecidableEq

def magic : Nat := 0x3158544D
def schemaId : Nat := 1
def major : Nat := 1
def minor : Nat := 1
def headerLen : Nat := 22

structure EnvelopeHeader where
  kind : MessageKind
  correlationId : Nat
  payloadLen : Nat
  minor : Nat
  deriving DecidableEq

structure Envelope where
  header : EnvelopeHeader
  payload : List UInt8
  deriving DecidableEq

/-- The widths of the header fields: magic, schema, major, minor, kind, correlation id and
payload length. -/
def headerWidths : List Nat := [4, 2, 1, 1, 2, 8, 4]

def EnvelopeHeader.fields (h : EnvelopeHeader) : List (Nat × Nat) :=
  [(4, magic), (2, schemaId), (1, major), (1, Metaxu.minor), (2, h.kind.toU16),
    (8, h.correlationId), (4, h.payloadLen)]

def EnvelopeHeader.encode (h : EnvelopeHeader) : List UInt8 := LittleEndian.encode h.fields

def EnvelopeHeader.parse (bytes : List UInt8) : Except EnvelopeError EnvelopeHeader :=
  if bytes.length < headerLen then .error (.truncatedFrame headerLen bytes.length)
  else
    match LittleEndian.decode headerWidths bytes with
    | [frameMagic, schema, frameMajor, frameMinor, kindRaw, correlationId, payloadLen] =>
      if frameMagic ≠ magic then .error .badMagic
      else if schema ≠ schemaId then .error (.unsupportedSchema schema)
      else if frameMajor ≠ major then .error (.incompatibleVersion major frameMajor)
      else
        match MessageKind.fromU16 kindRaw with
        | none => .error (.unknownKind kindRaw)
        | some kind =>
          if payloadLen > kind.payloadCeiling then
            .error (.frameTooLarge kind payloadLen kind.payloadCeiling)
          else .ok ⟨kind, correlationId, payloadLen, frameMinor⟩
    | _ => .error .badMagic

namespace Envelope

def build (kind : MessageKind) (correlationId : Nat) (payload : List UInt8) :
    Except EnvelopeError Envelope :=
  if payload.length ≥ 2 ^ 32 then
    .error (.frameTooLarge kind (2 ^ 32 - 1) kind.payloadCeiling)
  else if payload.length > kind.payloadCeiling then
    .error (.frameTooLarge kind payload.length kind.payloadCeiling)
  else .ok ⟨⟨kind, correlationId, payload.length, Metaxu.minor⟩, payload⟩

def encode (e : Envelope) : List UInt8 := e.header.encode ++ e.payload

def decode (bytes : List UInt8) : Except EnvelopeError Envelope := do
  let header ← EnvelopeHeader.parse bytes
  let expected := headerLen + header.payloadLen
  if bytes.length < expected then .error (.truncatedFrame expected bytes.length)
  else if bytes.length > expected then .error (.trailingBytes (bytes.length - expected))
  else .ok ⟨header, (bytes.drop headerLen).take header.payloadLen⟩

end Envelope

/-! ## Round trip -/

theorem MessageKind.fromU16_toU16 (kind : MessageKind) : fromU16 kind.toU16 = some kind := by
  cases kind <;> rfl

theorem EnvelopeHeader.length_encode (h : EnvelopeHeader) : h.encode.length = headerLen := rfl

theorem EnvelopeHeader.parse_encode {h : EnvelopeHeader} (rest : List UInt8)
    (hminor : h.minor = Metaxu.minor) (hid : h.correlationId < 2 ^ 64)
    (hlen : h.payloadLen ≤ h.kind.payloadCeiling) : parse (h.encode ++ rest) = .ok h := by
  have hceiling : h.kind.payloadCeiling < 2 ^ 32 := by cases h.kind <;> decide
  have hkind : h.kind.toU16 < 256 ^ 2 := by cases h.kind <;> decide
  have hdecode : LittleEndian.decode headerWidths (h.encode ++ rest) =
      [magic, schemaId, major, Metaxu.minor, h.kind.toU16, h.correlationId, h.payloadLen] := by
    refine decode_encode h.fields rest ?_
    simp only [fields, forall_mem_cons, not_mem_nil, false_implies, implies_true, and_true]
    refine ⟨by decide, by decide, by decide, by decide, hkind, ?_, ?_⟩ <;> omega
  rw [parse, if_neg (by rw [length_append, h.length_encode]; omega), hdecode]
  simp only [ne_eq, not_true_eq_false, if_false, MessageKind.fromU16_toU16,
    if_neg (not_lt.mpr hlen), ← hminor]

section

variable {kind : MessageKind} {correlationId : Nat} {payload : List UInt8} {e : Envelope}
  (h : Envelope.build kind correlationId payload = .ok e)

include h

theorem Envelope.build_ok :
    payload.length ≤ kind.payloadCeiling ∧
      e = ⟨⟨kind, correlationId, payload.length, minor⟩, payload⟩ := by
  rw [build] at h
  split at h
  · cases h
  split at h
  · cases h
  · rename_i hceiling
    cases h
    exact ⟨not_lt.mp hceiling, rfl⟩

theorem Envelope.decode_encode (hid : correlationId < 2 ^ 64) :
    decode e.encode = .ok e := by
  obtain ⟨hceiling, rfl⟩ := build_ok h
  have hparse := EnvelopeHeader.parse_encode (h := ⟨kind, correlationId, payload.length, minor⟩)
    payload rfl hid hceiling
  refine result_bind_eq_ok.mpr ⟨_, hparse, ?_⟩
  rw [encode, length_append, EnvelopeHeader.length_encode, if_neg (lt_irrefl _),
    if_neg (lt_irrefl _), drop_left' (EnvelopeHeader.length_encode _), take_length]

end

end Thumos.Metaxu
