import Thumos.Lib.ConstantTime
import Thumos.Metaxu.Pylon

/-!
# The task exchange

The frames of `protocol.rs` and `session.rs`: a `postcard` payload in the
envelope, under the correlation id of its request.  The device accepts a response
by its MAC, whose key comes from the nonce of the grant.
-/

namespace Thumos.Metaxu

open Ascii ConstantTime LittleEndian Vector

/-- A `postcard` codec: a value is read back from its own bytes, whatever follows them. -/
structure Postcard (α : Type) where
  toBytes : α → List UInt8
  fromBytes : List UInt8 → Option α
  fromBytes_append : ∀ a rest, fromBytes (toBytes a ++ rest) = some a

inductive CoreError where
  | envelope (e : EnvelopeError)
  | unexpectedKind (expected got : MessageKind)
  | decode
  deriving DecidableEq

/-- The first 8 bytes of the request's ULID. -/
def correlationOf (id : Ulid) : Nat := leValue (id.toList.take 8)

section

variable {α : Type} (postcard : Postcard α) (kind : MessageKind)

def encodeFrame (id : Ulid) (a : α) : Except CoreError (List UInt8) :=
  match Envelope.build kind (correlationOf id) (postcard.toBytes a) with
  | .error e => .error (.envelope e)
  | .ok frame => .ok frame.encode

def decodeFrame (bytes : List UInt8) : Except CoreError α :=
  match Envelope.decode bytes with
  | .error e => .error (.envelope e)
  | .ok frame =>
    if frame.header.kind ≠ kind then .error (.unexpectedKind kind frame.header.kind)
    else
      match postcard.fromBytes frame.payload with
      | none => .error .decode
      | some a => .ok a

end

section

variable (requests : Postcard TaskRequest) (responses : Postcard TaskResponse)

def encodeRequest (request : TaskRequest) :=
  encodeFrame requests .taskRequest request.requestId request

def decodeRequest := decodeFrame requests .taskRequest

def encodeResponse (response : TaskResponse) :=
  encodeFrame responses .taskResponse response.requestId response

def decodeResponse := decodeFrame responses .taskResponse

def decodeAuthenticatedResponse (authenticated : Postcard AuthenticatedResponse) :=
  decodeFrame authenticated .authenticatedResponse

end

def AuthenticatedResponse.verify (π : Primitives) (r : AuthenticatedResponse)
    (g : SignedGrant) : Bool :=
  let expected := π.hmacSha256 (g.responseKey π).toList (π.encodeTaskResponse r.response)
  diff expected.toList r.mac.toList = 0

structure AuthenticatedSession where
  signedGrant : SignedGrant

namespace AuthenticatedSession

/-- The session for a grant that verifies; `open` in the source. -/
def opened (π : Primitives) (g : SignedGrant) (device : Vector UInt8 32) (nowMs : UInt64) :
    Except GrantError AuthenticatedSession :=
  match g.verify π device nowMs with
  | .error e => .error e
  | .ok _ => .ok ⟨g⟩

def wrap (s : AuthenticatedSession) (request : TaskRequest) : AuthenticatedRequest :=
  ⟨s.signedGrant, request⟩

def verifyResponse (π : Primitives) (s : AuthenticatedSession) (r : AuthenticatedResponse) : Bool :=
  r.verify π s.signedGrant

end AuthenticatedSession

def encodeAuthenticatedRequest (postcard : Postcard AuthenticatedRequest)
    (session : AuthenticatedSession) (request : TaskRequest) : Except CoreError (List UInt8) :=
  encodeFrame postcard .authenticatedRequest request.requestId (session.wrap request)

theorem correlationOf_lt (id : Ulid) : correlationOf id < 2 ^ 64 := by
  have hlt := leValue_lt (id.toList.take 8)
  have hlen : (id.toList.take 8).length = 8 := by simp
  rw [hlen] at hlt
  exact hlt

section

variable {α : Type} {postcard : Postcard α} {kind : MessageKind}

variable {bytes : List UInt8} {a : α}

theorem decodeFrame_of_decode {e : Envelope} (hdecode : Envelope.decode bytes = .ok e)
    (hkind : e.header.kind = kind) (ha : postcard.fromBytes e.payload = some a) :
    decodeFrame postcard kind bytes = .ok a := by
  rw [decodeFrame, hdecode]
  simp only [hkind, ne_eq, not_true, if_false, ha]

theorem Envelope.decode_eq_ok {e : Envelope} (h : decode bytes = .ok e) :
    LittleEndian.decode headerWidths bytes = [magic, schemaId, major, e.header.minor,
        e.header.kind.toU16, e.header.correlationId, e.header.payloadLen] ∧
      e.header.payloadLen ≤ e.header.kind.payloadCeiling ∧ e.payload = bytes.drop headerLen ∧
      e.payload.length = e.header.payloadLen := by
  obtain ⟨header, hparse, hrest⟩ := StateExcept.result_bind_eq_ok.mp h
  dsimp only at hrest
  split at hrest
  · cases hrest
  split at hrest
  · cases hrest
  next hshort hlong =>
    cases hrest
    have hlen : (bytes.drop headerLen).length = header.payloadLen := by
      rw [List.length_drop]
      omega
    rw [EnvelopeHeader.parse] at hparse
    split at hparse
    · cases hparse
    split at hparse
    next hfields =>
      split at hparse
      · cases hparse
      split at hparse
      · cases hparse
      split at hparse
      · cases hparse
      split at hparse
      · cases hparse
      next hmagic hschema hmajor _ kind hkind =>
        split at hparse
        · cases hparse
        next hceiling =>
          cases hparse
          have hraw : ∀ raw, MessageKind.fromU16 raw = some kind → raw = kind.toU16 := by
            intro raw hraw
            unfold MessageKind.fromU16 at hraw
            split at hraw <;> cases hraw <;> rfl
          rw [hfields, not_not.mp hmagic, not_not.mp hschema, not_not.mp hmajor, hraw _ hkind]
          refine ⟨rfl, not_lt.mp hceiling, ?_, ?_⟩
          · rw [List.take_of_length_le (le_of_eq hlen)]
          · rw [List.length_take, hlen, min_self]
    · cases hparse

theorem encodeFrame_eq_ok {id : Ulid} {frame : List UInt8}
    (h : encodeFrame postcard kind id a = .ok frame) :
    ∃ e, Envelope.decode frame = .ok e ∧ e.header.kind = kind ∧
      e.header.correlationId = correlationOf id ∧ e.payload = postcard.toBytes a := by
  rw [encodeFrame] at h
  split at h
  · cases h
  next e hbuild =>
    cases h
    refine ⟨e, Envelope.decode_encode hbuild (correlationOf_lt id), ?_⟩
    obtain ⟨-, rfl⟩ := Envelope.build_ok hbuild
    exact ⟨rfl, rfl, rfl⟩

theorem decodeFrame_encodeFrame {id : Ulid} {frame : List UInt8}
    (h : encodeFrame postcard kind id a = .ok frame) : decodeFrame postcard kind frame = .ok a := by
  obtain ⟨e, hdecode, hkind, -, hpayload⟩ := encodeFrame_eq_ok h
  refine decodeFrame_of_decode hdecode hkind ?_
  rw [hpayload, ← List.append_nil (postcard.toBytes a), postcard.fromBytes_append]

/-- The frame carries the value: its header is for that kind of message, the payload is all that
follows, and the value is read from the payload. -/
def Carries (postcard : Postcard α) (kind : MessageKind) (bytes : List UInt8) (a : α) : Prop :=
  (∃ minor correlationId, LittleEndian.decode headerWidths bytes = [magic, schemaId, major, minor,
    kind.toU16, correlationId, (bytes.drop headerLen).length]) ∧
  (bytes.drop headerLen).length ≤ kind.payloadCeiling ∧
  postcard.fromBytes (bytes.drop headerLen) = some a

theorem carries_of_decodeFrame (h : decodeFrame postcard kind bytes = .ok a) :
    Carries postcard kind bytes a := by
  rw [decodeFrame] at h
  split at h
  · cases h
  next e hdecode =>
    split at h
    · cases h
    next hkind =>
      have hkind : e.header.kind = kind := not_not.mp hkind
      split at h
      · cases h
      next hread =>
        cases h
        obtain ⟨hheader, hceiling, hpayload, hlen⟩ := Envelope.decode_eq_ok hdecode
        subst hkind
        rw [← hlen, hpayload] at hheader hceiling
        exact ⟨⟨_, _, hheader⟩, hceiling, hpayload ▸ hread⟩

def Correlated (frame : List UInt8) (id : Ulid) : Prop :=
  ∃ e, Envelope.decode frame = .ok e ∧ e.header.correlationId = correlationOf id

theorem exists_encodeFrame (id : Ulid) (h : (postcard.toBytes a).length ≤ kind.payloadCeiling) :
    ∃ frame, encodeFrame postcard kind id a = .ok frame ∧
      decodeFrame postcard kind frame = .ok a ∧ Correlated frame id := by
  have hceiling : kind.payloadCeiling < 2 ^ 32 := by cases kind <;> decide
  have hbuild : ∃ frame, encodeFrame postcard kind id a = .ok frame := by
    rw [encodeFrame, Envelope.build, if_neg (by omega), if_neg (by omega)]
    exact ⟨_, rfl⟩
  obtain ⟨frame, hframe⟩ := hbuild
  obtain ⟨e, hdecode, -, hid, -⟩ := encodeFrame_eq_ok hframe
  exact ⟨frame, hframe, decodeFrame_encodeFrame hframe, e, hdecode, hid⟩

end

/-- What fits its frame is read back, under the correlation id of its request; and an accepted
frame carries the value that was decoded. -/
theorem task_frames_carry (requests : Postcard TaskRequest) (responses : Postcard TaskResponse)
    (authenticated : Postcard AuthenticatedResponse) :
    (∀ r, (requests.toBytes r).length ≤ MessageKind.taskRequest.payloadCeiling →
      ∃ frame, encodeRequest requests r = .ok frame ∧ decodeRequest requests frame = .ok r ∧
        Correlated frame r.requestId) ∧
    (∀ r, (responses.toBytes r).length ≤ MessageKind.taskResponse.payloadCeiling →
      ∃ frame, encodeResponse responses r = .ok frame ∧ decodeResponse responses frame = .ok r ∧
        Correlated frame r.requestId) ∧
    (∀ bytes r, decodeRequest requests bytes = .ok r → Carries requests .taskRequest bytes r) ∧
    (∀ bytes r, decodeResponse responses bytes = .ok r →
      Carries responses .taskResponse bytes r) ∧
    ∀ bytes r, decodeAuthenticatedResponse authenticated bytes = .ok r →
      Carries authenticated .authenticatedResponse bytes r :=
  ⟨fun r => exists_encodeFrame r.requestId, fun r => exists_encodeFrame r.requestId,
    fun _ _ => carries_of_decodeFrame, fun _ _ => carries_of_decodeFrame,
    fun _ _ => carries_of_decodeFrame⟩

/-! ## What an observer can compute -/

def forge (π : Primitives) (postcard : Postcard AuthenticatedRequest) (frame : List UInt8)
    (response : TaskResponse) : Option AuthenticatedResponse :=
  match decodeFrame postcard .authenticatedRequest frame with
  | .error _ => none
  | .ok auth => some (.build π auth.signedGrant response)

theorem AuthenticatedResponse.verify_iff (π : Primitives) (r : AuthenticatedResponse)
    (g : SignedGrant) : r.verify π g ↔ r = .build π g r.response := by
  obtain ⟨response, mac⟩ := r
  rw [AuthenticatedResponse.verify, decide_eq_true_iff, diff_eq_zero (by simp)]
  constructor
  · intro h
    exact congrArg _ (toList_inj.mp h).symm
  · intro h
    exact congrArg (fun r => toList r.mac) h.symm

/-- The accepted responses are those with the MAC under the key from the grant's nonce, and the
frame of the request tells each of them. -/
theorem verifyResponse_iff_forge (π : Primitives) (postcard : Postcard AuthenticatedRequest)
    (session : AuthenticatedSession) (request : TaskRequest) (frame : List UInt8)
    (hframe : encodeAuthenticatedRequest postcard session request = .ok frame)
    (r : AuthenticatedResponse) :
    (session.verifyResponse π r ↔ r.mac = π.hmacSha256
      (hkdfSha256 π session.signedGrant.grant.nonce (ascii "metaxu-response-v1")).toList
      (π.encodeTaskResponse r.response)) ∧
    (session.verifyResponse π r ↔ forge π postcard frame r.response = some r) := by
  have hread := decodeFrame_encodeFrame hframe
  have hverify := r.verify_iff π session.signedGrant
  rw [forge, hread, Option.some_inj, eq_comm (b := r)]
  refine ⟨hverify.trans ?_, hverify⟩
  constructor
  · intro h
    exact congrArg AuthenticatedResponse.mac h
  · intro h
    obtain ⟨response, mac⟩ := r
    exact congrArg _ h

/-! ## Frames of a plain codec -/

def readTime (bytes : List UInt8) : UInt64 × List UInt8 :=
  (UInt64.ofNat (leValue (bytes.take 8)), bytes.drop 8)

theorem readTime_append (t : UInt64) (rest : List UInt8) :
    readTime (leBytes 8 t.toNat ++ rest) = (t, rest) := by
  have hlen : (leBytes 8 t.toNat).length = 8 := leBytes_length _ _
  rw [readTime, List.take_left' hlen, List.drop_left' hlen, leValue_leBytes_of_lt t.toNat_lt,
    UInt64.ofNat_toNat]

def taskTag : TaskRequest → UInt8
  | .sendSms _ _ => 0
  | .placeCall _ _ => 1
  | .lookupContact _ _ => 2
  | .audioSession _ _ .capture => 3
  | .audioSession _ _ .playback => 4

def plainTask (r : TaskRequest) : List UInt8 :=
  r.requestId.toList ++ (r.identity.attestationDigest.toList ++ [taskTag r])

def readTask (bytes : List UInt8) : Option TaskRequest :=
  let (id, bytes) := readArray 16 bytes
  let (digest, bytes) := readArray 32 bytes
  match bytes with
  | 0 :: _ => some (.sendSms id ⟨digest⟩)
  | 1 :: _ => some (.placeCall id ⟨digest⟩)
  | 2 :: _ => some (.lookupContact id ⟨digest⟩)
  | 3 :: _ => some (.audioSession id ⟨digest⟩ .capture)
  | 4 :: _ => some (.audioSession id ⟨digest⟩ .playback)
  | _ => none

theorem readTask_append (r : TaskRequest) (rest : List UInt8) :
    readTask (plainTask r ++ rest) = some r := by
  rw [plainTask, List.append_assoc, List.append_assoc, readTask, readArray_append]
  simp only [readArray_append]
  cases r with
  | audioSession id identity mode => cases mode <;> rfl
  | _ => rfl

def sampleTasks : Postcard TaskRequest := ⟨plainTask, readTask, readTask_append⟩

def capabilities : List Capability :=
  [.smsSend, .callDial, .contactsRead, .audioCapture, .audioPlayback, .deviceIdentityReference]

def readCapabilities : List UInt8 → List Capability × List UInt8
  | [] => ([], [])
  | 0 :: rest => ([], rest)
  | b :: rest =>
    let (caps, rest) := readCapabilities rest
    (capabilities.getD (b.toNat - 1) .smsSend :: caps, rest)

def plainCapabilities (caps : List Capability) : List UInt8 :=
  caps.map (fun c => UInt8.ofNat (capabilities.idxOf c + 1)) ++ [0]

theorem readCapabilities_append (caps : List Capability) (rest : List UInt8) :
    readCapabilities (plainCapabilities caps ++ rest) = (caps, rest) := by
  induction caps with
  | nil => rfl
  | cons c caps ih =>
    rw [plainCapabilities] at ih ⊢
    cases c <;> exact congrArg (fun p => (_ :: p.1, p.2)) ih

def plainAuthenticated (a : AuthenticatedRequest) : List UInt8 :=
  let g := a.signedGrant.grant
  g.issuer.toList ++ (g.subject.toList ++ (plainCapabilities g.capabilities ++
    (leBytes 8 g.issuedAtMs.toNat ++ (leBytes 8 g.expiresAtMs.toNat ++ (g.nonce.toList ++
      (a.signedGrant.signature.toList ++ plainTask a.request))))))

def readAuthenticated (bytes : List UInt8) : Option AuthenticatedRequest :=
  let (issuer, bytes) := readArray 32 bytes
  let (subject, bytes) := readArray 32 bytes
  let (caps, bytes) := readCapabilities bytes
  let (issued, bytes) := readTime bytes
  let (expires, bytes) := readTime bytes
  let (nonce, bytes) := readArray 16 bytes
  let (signature, bytes) := readArray 64 bytes
  (readTask bytes).map fun request =>
    ⟨⟨⟨issuer, subject, caps, issued, expires, nonce⟩, signature⟩, request⟩

def sampleRequests : Postcard AuthenticatedRequest where
  toBytes := plainAuthenticated
  fromBytes := readAuthenticated
  fromBytes_append a rest := by
    simp only [plainAuthenticated, List.append_assoc, readAuthenticated, readArray_append,
      readCapabilities_append, readTime_append, readTask_append, Option.map_some]

def sampleTask : TaskRequest := .sendSms (Vector.replicate 16 1) ⟨Vector.replicate 32 3⟩

def sampleResponses : Postcard TaskResponse :=
  ⟨plainTaskResponse, readTaskResponse, readTaskResponse_append⟩

def sampleAuthenticated : Postcard AuthenticatedResponse :=
  ⟨plainResponse, readResponse, readResponse_append⟩

/-- A message and its refusal cross in their frames, and what a frame with a MAC decodes to is what
it carries. -/
theorem task_frames_carry_sample :
    let refusal : TaskResponse := ⟨sampleTask.requestId, .rejected "no signal"⟩
    let answer : List UInt8 := Envelope.encode ⟨⟨.authenticatedResponse, 0,
      (plainResponse ⟨refusal, replicate 32 6⟩).length, minor⟩,
      plainResponse ⟨refusal, replicate 32 6⟩⟩
    (∃ frame, encodeRequest sampleTasks sampleTask = .ok frame ∧
      decodeRequest sampleTasks frame = .ok sampleTask ∧ Correlated frame sampleTask.requestId ∧
      Carries sampleTasks .taskRequest frame sampleTask) ∧
    (∃ frame, encodeResponse sampleResponses refusal = .ok frame ∧
      decodeResponse sampleResponses frame = .ok refusal ∧
      Correlated frame sampleTask.requestId ∧
      Carries sampleResponses .taskResponse frame refusal) ∧
    Carries sampleAuthenticated .authenticatedResponse answer ⟨refusal, replicate 32 6⟩ := by
  intro refusal answer
  obtain ⟨hrequest, hresponse, hsent, hback, hmac⟩ :=
    task_frames_carry sampleTasks sampleResponses sampleAuthenticated
  obtain ⟨frame, hframe, hread, hid⟩ := hrequest sampleTask (by decide +kernel)
  obtain ⟨frame', hframe', hread', hid'⟩ := hresponse refusal (by decide +kernel)
  exact ⟨⟨frame, hframe, hread, hid, hsent frame _ hread⟩,
    ⟨frame', hframe', hread', hid', hback frame' _ hread'⟩, hmac answer _ (by decide +kernel)⟩

/-- A payload with a byte left over is accepted, and so is a header with another correlation id:
neither frame is the encoding of the request. -/
theorem decodeRequest_leftover :
    let frame (correlationId : Nat) (payload : List UInt8) : List UInt8 :=
      Envelope.encode ⟨⟨.taskRequest, correlationId, payload.length, minor⟩, payload⟩
    let plain := sampleTasks.toBytes sampleTask
    let id := correlationOf sampleTask.requestId
    encodeRequest sampleTasks sampleTask = .ok (frame id plain) ∧
      decodeRequest sampleTasks (frame id (plain ++ [7])) = .ok sampleTask ∧
      decodeRequest sampleTasks (frame 0 plain) = .ok sampleTask ∧ id ≠ 0 := by
  decide +kernel

def sampleMac : Primitives :=
  { sample with
    hmacSha256 := fun key message => Vector.ofFn fun i => key.getD i 0 + message.getD i 0 }

theorem verifyResponse_iff_forge_sample :
    ∃ frame, encodeAuthenticatedRequest sampleRequests ⟨sampleGrant⟩ sampleTask = .ok frame ∧
      ∀ r, (AuthenticatedSession.mk sampleGrant).verifyResponse sampleMac r ↔
        forge sampleMac sampleRequests frame r.response = some r := by
  have hfits : (sampleRequests.toBytes ⟨sampleGrant, sampleTask⟩).length ≤
      MessageKind.authenticatedRequest.payloadCeiling := by decide +kernel
  obtain ⟨frame, hframe, -⟩ := exists_encodeFrame sampleTask.requestId hfits
  exact ⟨frame, hframe, fun r => (verifyResponse_iff_forge sampleMac _ _ _ frame hframe r).2⟩

/-- An opened session sends its request.  From the frame alone, without the nonce, a response is
computed that the session accepts; the MAC under any other nonce would be refused. -/
theorem forge_accepted :
    let session : AuthenticatedSession := ⟨sampleGrant⟩
    let accepted : TaskResponse := ⟨replicate 16 1, .accepted .none⟩
    let other : SignedGrant :=
      { sampleGrant with grant := { sampleGrant.grant with nonce := replicate 16 6 } }
    (AuthenticatedSession.opened sampleMac sampleGrant (replicate 32 3) 5000).toOption.map
        (·.signedGrant) = some sampleGrant ∧
      ((encodeAuthenticatedRequest sampleRequests session sampleTask).toOption.bind fun frame =>
        forge sampleMac sampleRequests frame accepted).any (session.verifyResponse sampleMac) ∧
      ¬session.verifyResponse sampleMac (.build sampleMac other accepted) := by
  decide +kernel

end Thumos.Metaxu
