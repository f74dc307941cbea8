import Mathlib.Data.Finset.Insert
import Thumos.Lib.Ascii
import Thumos.Metaxu.Envelope

/-!
# The pylon

An endpoint that verifies every authenticated request alone: the issuer of the grant,
its signature, the device, the expiry, the capability, and last that the request id was
not accepted before.  Only an accepted request is remembered.

Ed25519, HMAC and the postcard encoding are parameters.  Of a task the model keeps what
the pylon reads.
-/

namespace Thumos.Metaxu

open Ascii LittleEndian StateExcept Vector

abbrev PublicKey := Vector UInt8 32
abbrev Ulid := Vector UInt8 16

inductive Capability where
  | smsSend
  | callDial
  | contactsRead
  | audioCapture
  | audioPlayback
  | deviceIdentityReference
  deriving DecidableEq

structure DeviceIdentityRef where
  attestationDigest : Vector UInt8 32
  deriving DecidableEq

inductive AudioMode where
  | capture
  | playback
  deriving DecidableEq

inductive TaskRequest where
  | sendSms (requestId : Ulid) (identity : DeviceIdentityRef)
  | placeCall (requestId : Ulid) (identity : DeviceIdentityRef)
  | lookupContact (requestId : Ulid) (identity : DeviceIdentityRef)
  | audioSession (requestId : Ulid) (identity : DeviceIdentityRef) (mode : AudioMode)
  deriving DecidableEq

namespace TaskRequest

def requestId : TaskRequest → Ulid
  | sendSms id _ | placeCall id _ | lookupContact id _ | audioSession id _ _ => id

def identity : TaskRequest → DeviceIdentityRef
  | sendSms _ identity | placeCall _ identity | lookupContact _ identity
  | audioSession _ identity _ => identity

def requiredCapability : TaskRequest → Capability
  | sendSms _ _ => .smsSend
  | placeCall _ _ => .callDial
  | lookupContact _ _ => .contactsRead
  | audioSession _ _ .capture => .audioCapture
  | audioSession _ _ .playback => .audioPlayback

end TaskRequest

structure Grant where
  issuer : PublicKey
  subject : Vector UInt8 32
  capabilities : List Capability
  issuedAtMs : UInt64
  expiresAtMs : UInt64
  nonce : Vector UInt8 16
  deriving DecidableEq

structure SignedGrant where
  grant : Grant
  signature : Vector UInt8 64
  deriving DecidableEq

structure AuthenticatedRequest where
  signedGrant : SignedGrant
  request : TaskRequest
  deriving DecidableEq

inductive RejectReason where
  | grantSignature
  | grantExpired
  | wrongDevice
  | wrongIssuer
  | replay
  | capabilityDenied
  | badFrame
  deriving DecidableEq

def RejectReason.text : RejectReason → String
  | grantSignature => "grant_signature"
  | grantExpired => "grant_expired"
  | wrongDevice => "wrong_device"
  | wrongIssuer => "wrong_issuer"
  | replay => "replay"
  | capabilityDenied => "capability_denied"
  | badFrame => "bad_frame"

inductive DeviceAction where
  | none
  deriving DecidableEq

inductive TaskStatus where
  | accepted (action : DeviceAction)
  | rejected (reason : String)
  deriving DecidableEq

structure TaskResponse where
  requestId : Ulid
  status : TaskStatus
  deriving DecidableEq

structure AuthenticatedResponse where
  response : TaskResponse
  mac : Vector UInt8 32
  deriving DecidableEq

inductive GrantError where
  | badSignature
  | expired (expiredAtMs nowMs : UInt64)
  | wrongDevice
  deriving DecidableEq

structure Primitives where
  /-- The bytes are an Ed25519 public key. -/
  isKey : PublicKey → Bool
  verifyStrict : PublicKey → List UInt8 → Vector UInt8 64 → Bool
  hmacSha256 : List UInt8 → List UInt8 → Vector UInt8 32
  /-- `postcard::to_allocvec` and `postcard::from_bytes` at the types of the protocol. -/
  encodeGrant : Grant → List UInt8
  decodeRequest : List UInt8 → Option AuthenticatedRequest
  encodeTaskResponse : TaskResponse → List UInt8
  encodeResponse : AuthenticatedResponse → List UInt8
  decodeResponse : List UInt8 → Option AuthenticatedResponse

section

variable (π : Primitives)

def SignedGrant.verify (g : SignedGrant) (expectedDevice : Vector UInt8 32) (nowMs : UInt64) :
    Except GrantError Grant :=
  if ¬π.isKey g.grant.issuer then .error .badSignature
  else if ¬π.verifyStrict g.grant.issuer (π.encodeGrant g.grant) g.signature then
    .error .badSignature
  else if g.grant.subject ≠ expectedDevice then .error .wrongDevice
  else if nowMs ≥ g.grant.expiresAtMs then .error (.expired g.grant.expiresAtMs nowMs)
  else .ok g.grant

def hkdfSha256 (ikm : Vector UInt8 16) (info : List UInt8) : Vector UInt8 32 :=
  let prk := π.hmacSha256 (List.replicate 32 0) ikm.toList
  π.hmacSha256 prk.toList (info ++ [1])

def SignedGrant.responseKey (g : SignedGrant) : Vector UInt8 32 :=
  hkdfSha256 π g.grant.nonce (ascii "metaxu-response-v1")

def AuthenticatedResponse.build (g : SignedGrant) (response : TaskResponse) :
    AuthenticatedResponse :=
  ⟨response, π.hmacSha256 (g.responseKey π).toList (π.encodeTaskResponse response)⟩

end

structure Pylon where
  runtimeKey : PublicKey
  nowMs : UInt64
  seenRequestIds : Finset Ulid

namespace Pylon

def new (runtimeKey : PublicKey) (nowMs : UInt64) : Pylon := ⟨runtimeKey, nowMs, ∅⟩

def fallbackGrant (p : Pylon) : SignedGrant where
  grant := ⟨p.runtimeKey, Vector.replicate 32 0, [], 0, 0xFFFFFFFFFFFFFFFF, Vector.replicate 16 0⟩
  signature := Vector.replicate 64 0

variable (π : Primitives)

def reject (auth : AuthenticatedRequest) (reason : RejectReason) : AuthenticatedResponse :=
  .build π auth.signedGrant ⟨auth.request.requestId, .rejected reason.text⟩

def rejectUndecodable (p : Pylon) (reason : RejectReason) : AuthenticatedResponse :=
  .build π p.fallbackGrant ⟨Vector.replicate 16 0, .rejected reason.text⟩

def requestOf (frameBytes : List UInt8) : Option AuthenticatedRequest :=
  match Envelope.decode frameBytes with
  | .error _ => none
  | .ok frame =>
    if frame.header.kind ≠ .authenticatedRequest then none else π.decodeRequest frame.payload

def check (p : Pylon) (auth : AuthenticatedRequest) : Option RejectReason :=
  if auth.signedGrant.grant.issuer ≠ p.runtimeKey then some .wrongIssuer
  else
    let device := auth.request.identity.attestationDigest
    match auth.signedGrant.verify π device p.nowMs with
    | .error (.expired _ _) => some .grantExpired
    | .error .wrongDevice => some .wrongDevice
    | .error .badSignature => some .grantSignature
    | .ok _ =>
      if device ≠ auth.signedGrant.grant.subject then some .wrongDevice
      else if auth.request.requiredCapability ∉ auth.signedGrant.grant.capabilities then
        some .capabilityDenied
      else none

def answer (p : Pylon) (frameBytes : List UInt8) : AuthenticatedResponse × Pylon :=
  match requestOf π frameBytes with
  | none => (p.rejectUndecodable π .badFrame, p)
  | some auth =>
    match p.check π auth with
    | some reason => (reject π auth reason, p)
    | none =>
      if auth.request.requestId ∈ p.seenRequestIds then (reject π auth .replay, p)
      else
        (.build π auth.signedGrant ⟨auth.request.requestId, .accepted .none⟩,
          { p with seenRequestIds := insert auth.request.requestId p.seenRequestIds })

def correlationOf (frameBytes : List UInt8) : Nat :=
  if frameBytes.length < 18 then 0 else leValue (bytesAt frameBytes 10 8)

/-- The frame of a response, or nothing when it is too large. -/
def responseFrame (correlation : Nat) (response : AuthenticatedResponse) : List UInt8 :=
  match Envelope.build .authenticatedResponse correlation (π.encodeResponse response) with
  | .error _ => []
  | .ok e => e.encode

def handle (p : Pylon) (frameBytes : List UInt8) : List UInt8 × Pylon :=
  let (response, p) := p.answer π frameBytes
  (responseFrame π (correlationOf frameBytes) response, p)

def after (p : Pylon) (frames : List (List UInt8)) : Pylon :=
  frames.foldl (fun p frame => (p.handle π frame).2) p

end Pylon

/-! ## What is authorised -/

variable {π : Primitives}

/-- The returned bytes are an accepting response to the request id. -/
def Accepts (π : Primitives) (response : List UInt8) (id : Ulid) : Prop :=
  ∃ e r, Envelope.decode response = .ok e ∧ e.header.kind = .authenticatedResponse ∧
    π.decodeResponse e.payload = some r ∧ r.response.requestId = id ∧
    ∃ action, r.response.status = .accepted action

/-- The grant is signed by the pinned runtime, is not expired, was issued for the device of
the request, and contains the capability that the request needs. -/
structure Granted (π : Primitives) (p : Pylon) (auth : AuthenticatedRequest) : Prop where
  issuer : auth.signedGrant.grant.issuer = p.runtimeKey
  key : π.isKey p.runtimeKey
  signed : π.verifyStrict p.runtimeKey (π.encodeGrant auth.signedGrant.grant)
    auth.signedGrant.signature
  unexpired : p.nowMs < auth.signedGrant.grant.expiresAtMs
  subject : auth.signedGrant.grant.subject = auth.request.identity.attestationDigest
  capability : auth.request.requiredCapability ∈ auth.signedGrant.grant.capabilities

structure Primitives.Lawful (π : Primitives) : Prop where
  decode_encode : ∀ r, π.decodeResponse (π.encodeResponse r) = some r
  accepted_small : ∀ id mac,
    (π.encodeResponse ⟨⟨id, .accepted .none⟩, mac⟩).length ≤
      MessageKind.authenticatedResponse.payloadCeiling

/-- Signatures are unforgeable: a grant that verifies under the runtime key is one whose bytes
the runtime has signed. -/
def Unforged (π : Primitives) (runtimeKey : PublicKey) (signed : Set (List UInt8))
    (frame : List UInt8) : Prop :=
  ∀ auth, Pylon.requestOf π frame = some auth →
    π.verifyStrict runtimeKey (π.encodeGrant auth.signedGrant.grant) auth.signedGrant.signature →
    π.encodeGrant auth.signedGrant.grant ∈ signed

namespace Pylon

variable {p : Pylon}

theorem verify_eq_ok (g : SignedGrant) (device : Vector UInt8 32) (nowMs : UInt64) :
    (∃ grant, g.verify π device nowMs = .ok grant) ↔
      π.isKey g.grant.issuer ∧
      π.verifyStrict g.grant.issuer (π.encodeGrant g.grant) g.signature ∧
      g.grant.subject = device ∧ nowMs < g.grant.expiresAtMs := by
  rw [SignedGrant.verify]
  by_cases hkey : π.isKey g.grant.issuer
  · by_cases hsign : π.verifyStrict g.grant.issuer (π.encodeGrant g.grant) g.signature
    · by_cases hsubject : g.grant.subject = device
      · by_cases hexpired : nowMs < g.grant.expiresAtMs
        · simp [hkey, hsign, hsubject, hexpired, UInt64.not_le.mpr hexpired]
        · simp [hkey, hsign, hsubject, hexpired, UInt64.not_lt.mp hexpired]
      · simp [hkey, hsign, hsubject]
    · simp [hkey, hsign]
  · simp [hkey]

theorem check_eq_none {auth : AuthenticatedRequest} :
    p.check π auth = none ↔ Granted π p auth := by
  have hverify := verify_eq_ok (π := π) auth.signedGrant
    auth.request.identity.attestationDigest p.nowMs
  rw [check]
  by_cases hissuer : auth.signedGrant.grant.issuer = p.runtimeKey
  · rw [if_neg (not_not.mpr hissuer)]
    cases hresult : auth.signedGrant.verify π auth.request.identity.attestationDigest p.nowMs with
    | error e =>
      have hnot : ¬Granted π p auth := by
        intro h
        obtain ⟨grant, hgrant⟩ := hverify.mpr
          ⟨hissuer ▸ h.key, hissuer ▸ h.signed, h.subject, h.unexpired⟩
        cases hresult.symm.trans hgrant
      cases e <;> simp [hresult, hnot]
    | ok grant =>
      obtain ⟨hkey, hsigned, hsubject, hunexpired⟩ := hverify.mp ⟨grant, hresult⟩
      rw [hissuer] at hkey hsigned
      have hiff : Granted π p auth ↔
          auth.request.requiredCapability ∈ auth.signedGrant.grant.capabilities :=
        ⟨fun h => h.capability, fun h => ⟨hissuer, hkey, hsigned, hunexpired, hsubject, h⟩⟩
      rw [hiff]
      by_cases hcapability :
          auth.request.requiredCapability ∈ auth.signedGrant.grant.capabilities
      · simp [hresult, hsubject, hcapability]
      · simp [hresult, hsubject, hcapability]
  · rw [if_pos hissuer]
    exact ⟨fun h => (by cases h), fun h => absurd h.issuer hissuer⟩

inductive AnswerStep (π : Primitives) (p : Pylon) (frame : List UInt8) :
    AuthenticatedResponse × Pylon → Prop where
  | rejected {r : AuthenticatedResponse} {reason : String} :
    r.response.status = .rejected reason →
    (∀ auth, requestOf π frame = some auth → Granted π p auth →
      auth.request.requestId ∈ p.seenRequestIds) →
    AnswerStep π p frame (r, p)
  | accepted {auth : AuthenticatedRequest} {mac : Vector UInt8 32} :
    requestOf π frame = some auth → Granted π p auth →
    auth.request.requestId ∉ p.seenRequestIds →
    AnswerStep π p frame (⟨⟨auth.request.requestId, .accepted .none⟩, mac⟩,
      { p with seenRequestIds := insert auth.request.requestId p.seenRequestIds })

theorem answer_step (p : Pylon) (frame : List UInt8) :
    AnswerStep π p frame (p.answer π frame) := by
  cases hrequest : requestOf π frame with
  | none =>
    simp only [answer, hrequest]
    exact .rejected rfl fun auth hauth => by cases hrequest.symm.trans hauth
  | some auth =>
    have hsame : ∀ auth', requestOf π frame = some auth' → auth' = auth :=
      fun auth' hauth' => Option.some.inj (hauth'.symm.trans hrequest)
    cases hcheck : p.check π auth with
    | some reason =>
      simp only [answer, hrequest, hcheck]
      refine .rejected rfl fun auth' hauth' hgranted => ?_
      rw [hsame auth' hauth', ← check_eq_none, hcheck] at hgranted
      cases hgranted
    | none =>
      by_cases hseen : auth.request.requestId ∈ p.seenRequestIds
      · simp only [answer, hrequest, hcheck, if_pos hseen]
        refine .rejected rfl fun auth' hauth' _ => ?_
        rw [hsame auth' hauth']
        exact hseen
      · simp only [answer, hrequest, hcheck, if_neg hseen]
        exact .accepted hrequest (check_eq_none.mp hcheck) hseen

theorem correlationOf_lt (frame : List UInt8) : correlationOf frame < 2 ^ 64 := by
  rw [correlationOf]
  split
  · omega
  · refine lt_of_lt_of_le (leValue_lt _) ?_
    exact Nat.pow_le_pow_right (by decide) (bytesAt_length_le _ _ _)

theorem accepts_handle (hπ : π.Lawful) (p : Pylon) (frame : List UInt8) (id : Ulid) :
    Accepts π (p.handle π frame).1 id ↔ (p.answer π frame).1.response = ⟨id, .accepted .none⟩ := by
  change Accepts π (responseFrame π (correlationOf frame) (p.answer π frame).1) id ↔ _
  generalize (p.answer π frame).1 = r
  obtain ⟨⟨id', status⟩, mac⟩ := r
  rw [responseFrame]
  cases hbuild : Envelope.build .authenticatedResponse (correlationOf frame)
      (π.encodeResponse ⟨⟨id', status⟩, mac⟩) with
  | error e =>
    constructor
    · -- An empty frame does not decode.
      rintro ⟨e, r, hdecode, -⟩
      cases hdecode
    · intro hresponse
      cases hresponse
      rw [Envelope.build, if_neg, if_neg (not_lt.mpr (hπ.accepted_small id mac))] at hbuild
      · cases hbuild
      · exact not_le.mpr (lt_of_le_of_lt (hπ.accepted_small id mac) (by decide))
  | ok e =>
    have hdecode := Envelope.decode_encode hbuild (correlationOf_lt frame)
    obtain ⟨-, rfl⟩ := Envelope.build_ok hbuild
    constructor
    · rintro ⟨e', r, hdecode', -, hr, rfl, action, hstatus⟩
      cases hdecode.symm.trans hdecode'
      rw [hπ.decode_encode] at hr
      cases hr
      cases action
      exact congrArg (TaskResponse.mk _) hstatus
    · intro hresponse
      cases hresponse
      exact ⟨_, _, hdecode, rfl, hπ.decode_encode _, rfl, .none, rfl⟩

theorem accepts_iff (hπ : π.Lawful) (p : Pylon) (frame : List UInt8) (id : Ulid) :
    Accepts π (p.handle π frame).1 id ↔
      (∃ auth, requestOf π frame = some auth ∧ auth.request.requestId = id ∧ Granted π p auth) ∧
        id ∉ p.seenRequestIds := by
  rw [accepts_handle hπ]
  have hstep := answer_step (π := π) p frame
  generalize p.answer π frame = result at hstep
  cases hstep with
  | rejected hstatus hseen =>
    constructor
    · intro hresponse
      rw [hresponse] at hstatus
      cases hstatus
    · rintro ⟨⟨auth, hauth, rfl, hgranted⟩, hnew⟩
      exact absurd (hseen auth hauth hgranted) hnew
  | accepted hrequest hgranted hnew =>
    constructor
    · intro hresponse
      cases hresponse
      exact ⟨⟨_, hrequest, rfl, hgranted⟩, hnew⟩
    · rintro ⟨⟨auth', hauth', rfl, -⟩, -⟩
      cases hrequest.symm.trans hauth'
      rfl

theorem handle_snd (hπ : π.Lawful) (p : Pylon) (frame : List UInt8) :
    (p.handle π frame).2.runtimeKey = p.runtimeKey ∧ (p.handle π frame).2.nowMs = p.nowMs ∧
      ∀ id, id ∈ (p.handle π frame).2.seenRequestIds ↔
        id ∈ p.seenRequestIds ∨ Accepts π (p.handle π frame).1 id := by
  have haccepts := accepts_handle hπ p frame
  change (p.answer π frame).2.runtimeKey = _ ∧ (p.answer π frame).2.nowMs = _ ∧
    ∀ id, id ∈ (p.answer π frame).2.seenRequestIds ↔ _
  have hstep := answer_step (π := π) p frame
  generalize p.answer π frame = result at hstep haccepts
  cases hstep with
  | rejected hstatus hseen =>
    refine ⟨rfl, rfl, fun id => ?_⟩
    have hnot : ¬Accepts π (p.handle π frame).1 id := by
      rw [haccepts]
      intro hresponse
      rw [hresponse] at hstatus
      cases hstatus
    simp [hnot]
  | accepted hrequest hgranted hnew =>
    refine ⟨rfl, rfl, fun id => ?_⟩
    rw [haccepts, Finset.mem_insert]
    constructor
    · rintro (rfl | hid)
      · exact .inr rfl
      · exact .inl hid
    · rintro (hid | hresponse)
      · exact .inr hid
      · cases hresponse
        exact .inl rfl

theorem after_append (p : Pylon) (pre post : List (List UInt8)) :
    p.after π (pre ++ post) = (p.after π pre).after π post := List.foldl_append

theorem after_spec (hπ : π.Lawful) (p : Pylon) (frames : List (List UInt8)) :
    (p.after π frames).runtimeKey = p.runtimeKey ∧ (p.after π frames).nowMs = p.nowMs ∧
      ∀ id, id ∈ (p.after π frames).seenRequestIds ↔
        id ∈ p.seenRequestIds ∨ ∃ pre f post, frames = pre ++ f :: post ∧
          Accepts π ((p.after π pre).handle π f).1 id := by
  induction frames using List.reverseRecOn with
  | nil =>
    refine ⟨rfl, rfl, fun id => ?_⟩
    simp [after]
  | append_singleton frames frame ih =>
    obtain ⟨hkey, hnow, hseen⟩ := ih
    obtain ⟨hkey', hnow', hseen'⟩ := handle_snd hπ (p.after π frames) frame
    rw [after_append]
    refine ⟨hkey'.trans hkey, hnow'.trans hnow, fun id => ?_⟩
    change id ∈ ((p.after π frames).handle π frame).2.seenRequestIds ↔ _
    rw [hseen', hseen]
    constructor
    · rintro ((hid | ⟨pre, f, post, rfl, hf⟩) | hlast)
      · exact .inl hid
      · exact .inr ⟨pre, f, post ++ [frame], by simp, hf⟩
      · exact .inr ⟨frames, frame, [], rfl, hlast⟩
    · rintro (hid | ⟨pre, f, post, heq, hf⟩)
      · exact .inl (.inl hid)
      · rcases List.eq_nil_or_concat post with rfl | ⟨post', last, rfl⟩
        · obtain ⟨rfl, hlast⟩ := List.append_inj' heq rfl
          cases hlast
          exact .inr hf
        · rw [List.concat_eq_append, ← List.cons_append, ← List.append_assoc] at heq
          obtain ⟨rfl, -⟩ := List.append_inj' heq rfl
          exact .inl (.inr ⟨pre, f, post', rfl, hf⟩)

theorem granted_after (hπ : π.Lawful) (p : Pylon) (frames : List (List UInt8))
    (auth : AuthenticatedRequest) : Granted π (p.after π frames) auth ↔ Granted π p auth := by
  obtain ⟨hkey, hnow, -⟩ := after_spec hπ p frames
  constructor
  · intro h
    exact ⟨hkey ▸ h.issuer, hkey ▸ h.key, hkey ▸ h.signed, hnow ▸ h.unexpired, h.subject,
      h.capability⟩
  · intro h
    exact ⟨hkey ▸ h.issuer, hkey ▸ h.key, hkey ▸ h.signed, hnow ▸ h.unexpired, h.subject,
      h.capability⟩

end Pylon

open Pylon

/-- In every sequence of frames a frame is accepted exactly when it carries a granted request
whose id was not accepted before.  So an id is accepted at most once, and an id that was
rejected for another reason can still be accepted. -/
theorem pylon_authorises_granted (hπ : π.Lawful) (p : Pylon) (signed : Set (List UInt8))
    (frames : List (List UInt8)) (hunforged : ∀ f ∈ frames, Unforged π p.runtimeKey signed f) :
    (∀ pre f post id, frames = pre ++ f :: post →
      (Accepts π ((p.after π pre).handle π f).1 id ↔
        (∃ auth, requestOf π f = some auth ∧ auth.request.requestId = id ∧ Granted π p auth ∧
          π.encodeGrant auth.signedGrant.grant ∈ signed) ∧
        id ∉ p.seenRequestIds ∧
        ∀ pre' g mid, pre = pre' ++ g :: mid → ¬Accepts π ((p.after π pre').handle π g).1 id)) ∧
    ∀ pre f mid g post id, frames = pre ++ f :: (mid ++ g :: post) →
      Accepts π ((p.after π pre).handle π f).1 id →
      ¬Accepts π ((p.after π (pre ++ f :: mid)).handle π g).1 id := by
  constructor
  · rintro pre f post id rfl
    have hissued : ∀ auth, requestOf π f = some auth → Granted π p auth →
        π.encodeGrant auth.signedGrant.grant ∈ signed := by
      intro auth hauth hgranted
      exact hunforged f (by simp) auth hauth hgranted.signed
    obtain ⟨-, -, hseen⟩ := after_spec hπ p pre
    rw [accepts_iff hπ, hseen]
    constructor
    · rintro ⟨⟨auth, hauth, hid, hgranted⟩, hnew⟩
      rw [granted_after hπ] at hgranted
      refine ⟨⟨auth, hauth, hid, hgranted, hissued auth hauth hgranted⟩,
        fun h => hnew (.inl h), fun pre' g mid heq haccepts => ?_⟩
      exact hnew (.inr ⟨pre', g, mid, heq, haccepts⟩)
    · rintro ⟨⟨auth, hauth, hid, hgranted, -⟩, hold, hbefore⟩
      refine ⟨⟨auth, hauth, hid, (granted_after hπ p pre auth).mpr hgranted⟩, ?_⟩
      rintro (h | ⟨pre', g, mid, heq, haccepts⟩)
      · exact hold h
      · exact hbefore pre' g mid heq haccepts
  · intro pre f mid g post id _ haccepts hagain
    have hseen := ((after_spec hπ p (pre ++ f :: mid)).2.2 id).mpr
      (.inr ⟨pre, f, mid, rfl, haccepts⟩)
    exact ((accepts_iff hπ _ g id).mp hagain).2 hseen

/-! ## A sequence of frames -/

def readArray (n : Nat) (bytes : List UInt8) : Vector UInt8 n × List UInt8 :=
  (Vector.ofFn fun i => bytes.getD i 0, bytes.drop n)

theorem readArray_append {n : Nat} (v : Vector UInt8 n) (rest : List UInt8) :
    readArray n (v.toList ++ rest) = (v, rest) := by
  refine Prod.ext (Vector.ext fun i hi => ?_) (List.drop_left' (by simp))
  simp [readArray, List.getD_eq_getElem?_getD, List.getElem?_append_left]

-- each character after a one, and a zero after the last: the text tells where it ends
def plainText (cs : List Char) : List UInt8 := cs.flatMap (fun c => 1 :: leBytes 3 c.toNat) ++ [0]

def readText : List UInt8 → List Char × List UInt8
  | 1 :: lo :: mid :: hi :: rest =>
    let (cs, rest) := readText rest
    (Char.ofNat (leValue [lo, mid, hi]) :: cs, rest)
  | bytes => ([], bytes.tail)

theorem readText_append (cs : List Char) (rest : List UInt8) :
    readText (plainText cs ++ rest) = (cs, rest) := by
  induction cs with
  | nil => cases rest <;> rfl
  | cons c cs ih =>
    have hlt : c.toNat < 256 ^ 3 := by
      have hvalid := c.valid
      simp only [UInt32.isValidChar, Nat.isValidChar] at hvalid
      change c.val.toNat < _
      omega
    have hread := leValue_leBytes_of_lt hlt
    change ((Char.ofNat (leValue (leBytes 3 c.toNat))) :: (readText (plainText cs ++ rest)).1,
      (readText (plainText cs ++ rest)).2) = _
    rw [hread, Char.ofNat_toNat, ih]

def plainTaskResponse (r : TaskResponse) : List UInt8 :=
  r.requestId.toList ++
    match r.status with
    | .accepted _ => [0]
    | .rejected reason => 1 :: plainText reason.toList

def readTaskResponse (bytes : List UInt8) : Option TaskResponse :=
  let (id, bytes) := readArray 16 bytes
  match bytes with
  | 0 :: _ => some ⟨id, .accepted .none⟩
  | 1 :: reason => some ⟨id, .rejected (String.ofList (readText reason).1)⟩
  | _ => none

theorem readTaskResponse_append (r : TaskResponse) (rest : List UInt8) :
    readTaskResponse (plainTaskResponse r ++ rest) = some r := by
  obtain ⟨id, status⟩ := r
  rw [plainTaskResponse, List.append_assoc, readTaskResponse, readArray_append]
  cases status with
  | accepted action => rfl
  | rejected reason =>
    simp only [List.cons_append, readText_append, String.ofList_toList]

def plainResponse (r : AuthenticatedResponse) : List UInt8 :=
  r.mac.toList ++ plainTaskResponse r.response

def readResponse (bytes : List UInt8) : Option AuthenticatedResponse :=
  let (mac, bytes) := readArray 32 bytes
  (readTaskResponse bytes).map fun response => ⟨response, mac⟩

theorem readResponse_append (r : AuthenticatedResponse) (rest : List UInt8) :
    readResponse (plainResponse r ++ rest) = some r := by
  simp only [plainResponse, List.append_assoc, readResponse, readArray_append,
    readTaskResponse_append, Option.map_some]

def sampleKey : PublicKey := Vector.replicate 32 9

def sampleGrant : SignedGrant :=
  ⟨⟨sampleKey, Vector.replicate 32 3, [.smsSend], 1000, 10000, Vector.replicate 16 5⟩,
    Vector.replicate 64 7⟩

def sampleRequest (payload : List UInt8) : Option AuthenticatedRequest :=
  match payload with
  | [0] => some ⟨sampleGrant, .placeCall (Vector.replicate 16 1) ⟨Vector.replicate 32 3⟩⟩
  | [1] => some ⟨sampleGrant, .sendSms (Vector.replicate 16 1) ⟨Vector.replicate 32 3⟩⟩
  | _ => none

def sample : Primitives where
  isKey _ := true
  verifyStrict _ _ signature := signature = Vector.replicate 64 7
  hmacSha256 _ _ := Vector.replicate 32 0
  encodeGrant g := g.nonce.toList
  decodeRequest := sampleRequest
  encodeTaskResponse _ := []
  encodeResponse := plainResponse
  decodeResponse := readResponse

theorem sample_lawful : sample.Lawful where
  decode_encode r := by
    change readResponse (plainResponse r) = _
    rw [← List.append_nil (plainResponse r), readResponse_append]
  accepted_small id mac := by
    change (plainResponse _).length ≤ _
    simp [plainResponse, plainTaskResponse, MessageKind.payloadCeiling]

def sampleFrame (payload : List UInt8) : List UInt8 :=
  Envelope.encode ⟨⟨.authenticatedRequest, 0, 1, payload.length⟩, payload⟩

theorem requestOf_sampleFrame :
    requestOf sample (sampleFrame [0]) =
        some ⟨sampleGrant, .placeCall (replicate 16 1) ⟨replicate 32 3⟩⟩ ∧
      requestOf sample (sampleFrame [1]) =
        some ⟨sampleGrant, .sendSms (replicate 16 1) ⟨replicate 32 3⟩⟩ := by
  constructor <;> rfl

/-- The call is refused, the message with its id is accepted, and the message again is not. -/
theorem pylon_authorises_granted_sample :
    let p := Pylon.new sampleKey 5000
    ¬Accepts sample (p.handle sample (sampleFrame [0])).1 (replicate 16 1) ∧
      Accepts sample ((p.after sample [sampleFrame [0]]).handle sample (sampleFrame [1])).1
        (replicate 16 1) ∧
      ¬Accepts sample ((p.after sample [sampleFrame [0], sampleFrame [1]]).handle sample
        (sampleFrame [1])).1 (replicate 16 1) := by
  intro p
  obtain ⟨hcall, hsms⟩ := requestOf_sampleFrame
  have hmain := pylon_authorises_granted sample_lawful p {(replicate 16 5).toList}
    [sampleFrame [0], sampleFrame [1], sampleFrame [1]] (by
      intro f hf auth hauth _
      simp only [List.mem_cons, List.not_mem_nil, or_false, or_self] at hf
      rcases hf with rfl | rfl
      · cases hcall.symm.trans hauth
        exact rfl
      · cases hsms.symm.trans hauth
        exact rfl)
  have hrefused : ¬Accepts sample (p.handle sample (sampleFrame [0])).1 (replicate 16 1) := by
    intro haccepts
    obtain ⟨⟨auth, hauth, -, hgranted, -⟩, -⟩ :=
      (hmain.1 [] _ [sampleFrame [1], sampleFrame [1]] _ rfl).mp haccepts
    cases hcall.symm.trans hauth
    exact absurd hgranted.capability (by decide)
  have hgranted : Granted sample p
      ⟨sampleGrant, .sendSms (replicate 16 1) ⟨replicate 32 3⟩⟩ :=
    ⟨rfl, rfl, by decide, by decide, rfl, by decide⟩
  have haccepted := (hmain.1 [sampleFrame [0]] _ [sampleFrame [1]] (replicate 16 1) rfl).mpr
    ⟨⟨_, hsms, rfl, hgranted, rfl⟩, by decide, by
      intro pre' g mid heq
      cases pre' with
      | nil =>
        cases heq
        exact hrefused
      | cons f pre' => cases pre' <;> cases heq⟩
  exact ⟨hrefused, haccepted,
    hmain.2 [sampleFrame [0]] _ [] _ [] _ rfl haccepted⟩

end Thumos.Metaxu
