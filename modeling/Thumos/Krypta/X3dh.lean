import Thumos.Krypta.Ratchet
import Thumos.Lib.Ascii
import Thumos.Lib.StateExcept

/-!
# Key agreement

The initiator combines its identity and one or two ephemeral keys with the bundle of
the responder, and the responder combines the same pairs from its side.  Both hash the
agreed secrets in the same order, so they hold the same two directional keys.  When
only one side uses a one-time prekey the responder refuses.
-/

namespace Thumos.Krypta

open Ascii StateExcept

abbrev PublicIdentityKey := Key

/-- An Ed25519 identity.  The public key belongs to the seed. -/
structure IdentityKeyPair (π : Primitives) where
  privateKeyBytes : Key
  publicKeyBytes : Key
  derived : publicKeyBytes = π.verifyingKey privateKeyBytes

structure PreKeyBundle where
  identityKey : PublicIdentityKey
  signedPrekey : Key
  prekeySignature : List UInt8
  oneTimePrekey : Option Key
  deriving DecidableEq

structure OwnedBundle where
  publicBundle : PreKeyBundle
  signedPrekeyPrivate : Key
  oneTimePrekeyPrivate : Option Key
  identityX25519Private : Key
  deriving DecidableEq

structure SessionKeys where
  initiatorToResponder : Key
  responderToInitiator : Key
  deriving DecidableEq

structure InitiatorMessage where
  identityKey : PublicIdentityKey
  ephemeralKey : Key
  oneTimeEphemeralKey : Option Key
  deriving DecidableEq

def hkdfSalt : List UInt8 := List.replicate 32 0

section

variable (π : Primitives)

def toX25519 (key : PublicIdentityKey) : Except Error Key :=
  if π.isPoint key then .ok (π.toMontgomery key) else .error .invalidKey

def verify (publicKey : PublicIdentityKey) (data signature : List UInt8) : Except Error Unit :=
  if ¬π.isPoint publicKey then .error .invalidKey
  else if signature.length ≠ 64 then .error .invalidSignature
  else if π.verifyStrict publicKey data signature then .ok ()
  else .error .invalidSignature

variable {π} in
def IdentityKeyPair.x25519Secret (identity : IdentityKeyPair π) : Key :=
  π.toScalarBytes identity.privateKeyBytes

def generateX25519 (entropy : Option Key) : Except Error (Key × Key) :=
  match entropy with
  | none => .error .keyGeneration
  | some privateBytes => .ok (privateBytes, π.x25519Public privateBytes)

def agree (privKey peerPub : Key) : Except Error Key :=
  let out := π.diffieHellman privKey peerPub
  if out = Vector.replicate 32 0 then .error .keyAgreement else .ok out

def deriveKeys (ikm : List UInt8) : Key × SessionKeys :=
  (π.hkdf hkdfSalt ikm (ascii "X3DH shared secret"),
    { initiatorToResponder := π.hkdf hkdfSalt ikm (ascii "initiator-to-responder")
      responderToInitiator := π.hkdf hkdfSalt ikm (ascii "responder-to-initiator") })

def createBundle (identity : IdentityKeyPair π) (entropy entropy' : Option Key) :
    Except Error OwnedBundle := do
  let (spkPriv, spkPub) ← generateX25519 π entropy
  let (otpkPriv, otpkPub) ← generateX25519 π entropy'
  return {
    publicBundle := {
      identityKey := identity.publicKeyBytes
      signedPrekey := spkPub
      prekeySignature := π.sign identity.privateKeyBytes spkPub.toList
      oneTimePrekey := some otpkPub }
    signedPrekeyPrivate := spkPriv
    oneTimePrekeyPrivate := some otpkPriv
    identityX25519Private := identity.x25519Secret }

/-- The optional leg of `initiate_session` with a second ephemeral key, and its public
part. -/
def initiatorOneTime (oneTimePrekey : Option Key) (entropy : Option Key) :
    Except Error (List UInt8 × Option Key) :=
  match oneTimePrekey with
  | some bundleOtpPub => do
    let (otpEphPriv, otpPub) ← generateX25519 π entropy
    let legOneTime ← agree π otpEphPriv bundleOtpPub
    pure (legOneTime.toList, some otpPub)
  | none => pure ([], none)

/-- The key material of `initiate_session`, and the message to the responder. -/
def initiatorMaterial (ourIdentity : IdentityKeyPair π) (theirBundle : PreKeyBundle)
    (entropy entropy' : Option Key) : Except Error (List UInt8 × InitiatorMessage) := do
  verify π theirBundle.identityKey theirBundle.signedPrekey.toList theirBundle.prekeySignature
  let theirIdentityX25519 ← toX25519 π theirBundle.identityKey
  let (spkEphPriv, spkEphPub) ← generateX25519 π entropy
  let legIdentityPrekey ← agree π ourIdentity.x25519Secret theirBundle.signedPrekey
  let legEphemeralIdentity ← agree π spkEphPriv theirIdentityX25519
  let legEphemeralPrekey ← agree π spkEphPriv theirBundle.signedPrekey
  let (legOneTime, otpEphPub) ← initiatorOneTime π theirBundle.oneTimePrekey entropy'
  return (legIdentityPrekey.toList ++ legEphemeralIdentity.toList ++ legEphemeralPrekey.toList ++
    legOneTime, ⟨ourIdentity.publicKeyBytes, spkEphPub, otpEphPub⟩)

def initiateSession (ourIdentity : IdentityKeyPair π) (theirBundle : PreKeyBundle)
    (entropy entropy' : Option Key) : Except Error (Key × SessionKeys × InitiatorMessage) := do
  let (ikm, msg) ← initiatorMaterial π ourIdentity theirBundle entropy entropy'
  let (sharedSecret, sessionKeys) := deriveKeys π ikm
  return (sharedSecret, sessionKeys, msg)

/-- The optional leg of `respond_session`.  Both sides or neither must have the key. -/
def responderOneTime (oneTimePrekeyPrivate oneTimeEphemeralKey : Option Key) :
    Except Error (List UInt8) :=
  match oneTimePrekeyPrivate, oneTimeEphemeralKey with
  | some otpkPriv, some ek2Pub => do
    let legOneTime ← agree π otpkPriv ek2Pub
    pure legOneTime.toList
  | none, none => pure []
  | some _, none => .error .keyAgreement
  | none, some _ => .error .keyAgreement

def responderMaterial (bundle : OwnedBundle) (msg : InitiatorMessage) :
    Except Error (List UInt8) := do
  let theirIdentityX25519 ← toX25519 π msg.identityKey
  let legIdentityPrekey ← agree π bundle.signedPrekeyPrivate theirIdentityX25519
  let legEphemeralIdentity ← agree π bundle.identityX25519Private msg.ephemeralKey
  let legEphemeralPrekey ← agree π bundle.signedPrekeyPrivate msg.ephemeralKey
  let legOneTime ← responderOneTime π bundle.oneTimePrekeyPrivate msg.oneTimeEphemeralKey
  return legIdentityPrekey.toList ++ legEphemeralIdentity.toList ++ legEphemeralPrekey.toList ++
    legOneTime

def respondSession (bundle : OwnedBundle) (msg : InitiatorMessage) :
    Except Error (Key × SessionKeys) := do
  let ikm ← responderMaterial π bundle msg
  return deriveKeys π ikm

end

/-! ## Both sides agree -/

structure Primitives.Ideal (π : Primitives) : Prop where
  diffieHellman_comm : ∀ a b,
    π.diffieHellman a (π.x25519Public b) = π.diffieHellman b (π.x25519Public a)
  diffieHellman_inj : ∀ a b b',
    π.diffieHellman a (π.x25519Public b) = π.diffieHellman a (π.x25519Public b') →
      π.x25519Public b = π.x25519Public b'
  isPoint_verifyingKey : ∀ seed, π.isPoint (π.verifyingKey seed)
  toMontgomery_verifyingKey : ∀ seed,
    π.toMontgomery (π.verifyingKey seed) = π.x25519Public (π.toScalarBytes seed)
  decrypt_encrypt : ∀ k n p c, π.encryptInPlace k n p = some c → π.decryptInPlace k n c = some p
  decrypt_other : ∀ k k' n p c, π.encryptInPlace k n p = some c → k' ≠ k →
    π.decryptInPlace k' n c = none
  hmac_inj : ∀ k k' label, π.hmacSha256 k label = π.hmacSha256 k' label → k = k'
  hkdf_directions : ∀ ikm, π.hkdf hkdfSalt ikm (ascii "initiator-to-responder") ≠
    π.hkdf hkdfSalt ikm (ascii "responder-to-initiator")

variable (π : Primitives) in
structure OwnedBundle.Holds (owned : OwnedBundle) (bundle : PreKeyBundle) : Prop where
  identity : π.toMontgomery bundle.identityKey = π.x25519Public owned.identityX25519Private
  signed : bundle.signedPrekey = π.x25519Public owned.signedPrekeyPrivate

variable (π : Primitives) in
def OwnedBundle.SameOneTime (owned : OwnedBundle) (bundle : PreKeyBundle) : Prop :=
  bundle.oneTimePrekey = owned.oneTimePrekeyPrivate.map π.x25519Public

variable {π : Primitives}

theorem agree_eq_ok {a b out : Key} :
    agree π a b = .ok out ↔ π.diffieHellman a b = out ∧ out ≠ Vector.replicate 32 0 := by
  rw [agree]
  by_cases hzero : π.diffieHellman a b = Vector.replicate 32 0
  · simp only [hzero, if_true]
    constructor
    · intro h
      cases h
    · rintro ⟨rfl, h⟩
      exact absurd rfl h
  · simp only [hzero, if_false]
    constructor
    · intro h
      cases h
      exact ⟨rfl, hzero⟩
    · rintro ⟨rfl, -⟩
      rfl

theorem generateX25519_eq_ok {entropy : Option Key} {pair : Key × Key} :
    generateX25519 π entropy = .ok pair ↔ ∃ k, entropy = some k ∧ pair = (k, π.x25519Public k) := by
  cases entropy with
  | none => simp [generateX25519]
  | some k => simp [generateX25519, eq_comm]

variable {identity : IdentityKeyPair π}

theorem createBundle_holds (hπ : π.Ideal) {entropy entropy' : Option Key} {owned : OwnedBundle}
    (h : createBundle π identity entropy entropy' = .ok owned) :
    owned.Holds π owned.publicBundle ∧ owned.SameOneTime π owned.publicBundle := by
  obtain ⟨_, hspk, h⟩ := result_bind_eq_ok.mp h
  obtain ⟨_, hotpk, h⟩ := result_bind_eq_ok.mp h
  obtain ⟨spk, -, rfl⟩ := generateX25519_eq_ok.mp hspk
  obtain ⟨otpk, -, rfl⟩ := generateX25519_eq_ok.mp hotpk
  cases h
  refine ⟨⟨?_, rfl⟩, rfl⟩
  rw [identity.derived]
  exact hπ.toMontgomery_verifyingKey _

inductive OneTimeLeg (π : Primitives) : Option Key → List UInt8 → Option Key → Prop where
  | without : OneTimeLeg π none [] none
  | agreed {prekey ephemeral leg : Key} : agree π ephemeral prekey = .ok leg →
    OneTimeLeg π (some prekey) leg.toList (some (π.x25519Public ephemeral))

structure Initiated (π : Primitives) (identity : IdentityKeyPair π) (bundle : PreKeyBundle)
    (ikm : List UInt8) (msg : InitiatorMessage) : Prop where
  legs : ∃ ephemeral leg₁ leg₂ leg₃ oneTime, msg.ephemeralKey = π.x25519Public ephemeral ∧
    agree π identity.x25519Secret bundle.signedPrekey = .ok leg₁ ∧
    agree π ephemeral (π.toMontgomery bundle.identityKey) = .ok leg₂ ∧
    agree π ephemeral bundle.signedPrekey = .ok leg₃ ∧
    OneTimeLeg π bundle.oneTimePrekey oneTime msg.oneTimeEphemeralKey ∧
    ikm = leg₁.toList ++ leg₂.toList ++ leg₃.toList ++ oneTime
  identityKey : msg.identityKey = identity.publicKeyBytes

theorem initiatorMaterial_ok {bundle : PreKeyBundle} {entropy entropy' : Option Key}
    {ikm : List UInt8} {msg : InitiatorMessage}
    (h : initiatorMaterial π identity bundle entropy entropy' = .ok (ikm, msg)) :
    Initiated π identity bundle ikm msg := by
  obtain ⟨_, -, h⟩ := result_bind_eq_ok.mp h
  obtain ⟨identityX25519, hidentity, h⟩ := result_bind_eq_ok.mp h
  obtain ⟨_, hgenerate, h⟩ := result_bind_eq_ok.mp h
  obtain ⟨ephemeral, -, rfl⟩ := generateX25519_eq_ok.mp hgenerate
  obtain ⟨leg₁, hleg₁, h⟩ := result_bind_eq_ok.mp h
  obtain ⟨leg₂, hleg₂, h⟩ := result_bind_eq_ok.mp h
  obtain ⟨leg₃, hleg₃, h⟩ := result_bind_eq_ok.mp h
  obtain ⟨⟨oneTime, sent⟩, honeTime, h⟩ := result_bind_eq_ok.mp h
  cases h
  rw [toX25519] at hidentity
  split at hidentity
  · cases hidentity
    refine ⟨⟨ephemeral, leg₁, leg₂, leg₃, oneTime, rfl, hleg₁, hleg₂, hleg₃, ?_, rfl⟩, rfl⟩
    rw [initiatorOneTime.eq_def] at honeTime
    split at honeTime
    · rename_i prekey hprekey
      obtain ⟨_, hgenerate, honeTime⟩ := result_bind_eq_ok.mp honeTime
      obtain ⟨ephemeral', -, rfl⟩ := generateX25519_eq_ok.mp hgenerate
      obtain ⟨leg, hleg, honeTime⟩ := result_bind_eq_ok.mp honeTime
      cases honeTime
      rw [hprekey]
      exact .agreed hleg
    · rename_i hprekey
      cases honeTime
      rw [hprekey]
      exact .without
  · cases hidentity

theorem responderMaterial_eq (hπ : π.Ideal) {bundle : PreKeyBundle} {owned : OwnedBundle}
    {ikm : List UInt8} {msg : InitiatorMessage} (hholds : owned.Holds π bundle)
    (h : Initiated π identity bundle ikm msg) :
    ∃ legs oneTime, OneTimeLeg π bundle.oneTimePrekey oneTime msg.oneTimeEphemeralKey ∧
      ikm = legs ++ oneTime ∧
      responderMaterial π owned msg =
        (responderOneTime π owned.oneTimePrekeyPrivate msg.oneTimeEphemeralKey).map
          (legs ++ ·) := by
  obtain ⟨ephemeral, leg₁, leg₂, leg₃, oneTime, heph, hleg₁, hleg₂, hleg₃, honeTime, rfl⟩ := h.legs
  refine ⟨leg₁.toList ++ leg₂.toList ++ leg₃.toList, oneTime, honeTime, rfl, ?_⟩
  have hpoint : toX25519 π msg.identityKey = .ok (π.x25519Public identity.x25519Secret) := by
    rw [h.identityKey, identity.derived, toX25519, if_pos (hπ.isPoint_verifyingKey _),
      hπ.toMontgomery_verifyingKey]
    rfl
  have hmirror : ∀ a b leg, agree π a (π.x25519Public b) = .ok leg →
      agree π b (π.x25519Public a) = .ok leg := by
    intro a b leg hleg
    rw [agree_eq_ok] at hleg ⊢
    rw [hπ.diffieHellman_comm]
    exact hleg
  rw [hholds.signed] at hleg₁ hleg₃
  rw [hholds.identity] at hleg₂
  rw [responderMaterial, hpoint, heph]
  simp only [bind, Except.bind, hmirror _ _ _ hleg₁, hmirror _ _ _ hleg₂, hmirror _ _ _ hleg₃]
  cases responderOneTime π owned.oneTimePrekeyPrivate msg.oneTimeEphemeralKey with
  | error e => rfl
  | ok leg => rfl

section

variable {identity : IdentityKeyPair π} {bundle : PreKeyBundle} {owned : OwnedBundle}
  {ikm : List UInt8} {msg : InitiatorMessage}

section

variable (hπ : π.Ideal) (hholds : owned.Holds π bundle)

include hπ hholds

theorem responder_agrees
    (hsame : owned.SameOneTime π bundle) (h : Initiated π identity bundle ikm msg) :
    responderMaterial π owned msg = .ok ikm := by
  obtain ⟨legs, oneTime, hleg, rfl, heq⟩ := responderMaterial_eq hπ hholds h
  rw [heq]
  rw [OwnedBundle.SameOneTime] at hsame
  rw [hsame] at hleg
  generalize msg.oneTimeEphemeralKey = sent at hleg
  cases hsecret : owned.oneTimePrekeyPrivate with
  | none =>
    rw [hsecret] at hleg
    cases hleg
    rfl
  | some secret =>
    rw [hsecret, Option.map_some] at hleg
    cases hleg with
    | agreed hagree =>
      rw [agree_eq_ok, hπ.diffieHellman_comm, ← agree_eq_ok] at hagree
      rw [responderOneTime, hagree]
      rfl

theorem responder_refuses
    (hpresent : bundle.oneTimePrekey.isSome ≠ owned.oneTimePrekeyPrivate.isSome)
    (h : Initiated π identity bundle ikm msg) :
    responderMaterial π owned msg = .error .keyAgreement := by
  obtain ⟨legs, oneTime, hleg, rfl, heq⟩ := responderMaterial_eq hπ hholds h
  rw [heq]
  generalize bundle.oneTimePrekey = prekey at hleg hpresent
  generalize msg.oneTimeEphemeralKey = sent at hleg
  cases hsecret : owned.oneTimePrekeyPrivate with
  | none =>
    rw [hsecret] at hpresent
    cases hleg with
    | without => exact absurd rfl hpresent
    | agreed _ => rfl
  | some secret =>
    rw [hsecret] at hpresent
    cases hleg with
    | without => rfl
    | agreed _ => exact absurd rfl hpresent

theorem responder_differs {secret : Option Key}
    (hbundle : bundle.oneTimePrekey = secret.map π.x25519Public)
    (hother : ¬owned.SameOneTime π bundle) (h : Initiated π identity bundle ikm msg) :
    responderMaterial π owned msg ≠ .ok ikm := by
  intro hok
  by_cases hpresent : bundle.oneTimePrekey.isSome = owned.oneTimePrekeyPrivate.isSome
  · obtain ⟨legs, oneTime, hleg, rfl, heq⟩ := responderMaterial_eq hπ hholds h
    rw [heq] at hok
    rw [OwnedBundle.SameOneTime] at hother
    rw [hbundle] at hleg hother hpresent
    generalize msg.oneTimeEphemeralKey = sent at hleg hok
    cases hown : owned.oneTimePrekeyPrivate with
    | none =>
      cases hsecret : secret with
      | none => exact hother (by rw [hown, hsecret])
      | some s =>
        rw [hown, hsecret] at hpresent
        cases hpresent
    | some own =>
      cases hsecret : secret with
      | none =>
        rw [hown, hsecret] at hpresent
        cases hpresent
      | some s =>
        rw [hsecret, Option.map_some] at hleg
        rw [hown] at hok
        cases hleg with
        | agreed hagree =>
          rename_i ephemeral leg
          rw [responderOneTime] at hok
          cases hmine : agree π own (π.x25519Public ephemeral) with
          | error e =>
            rw [hmine] at hok
            cases hok
          | ok mine =>
            rw [hmine] at hok
            have hlegs : legs ++ mine.toList = legs ++ leg.toList := Except.ok.inj hok
            have hmine' : mine = leg := Vector.toList_inj.mp (List.append_cancel_left hlegs)
            rw [agree_eq_ok, hπ.diffieHellman_comm] at hmine
            rw [agree_eq_ok] at hagree
            have hpub := hπ.diffieHellman_inj ephemeral own s
              (hmine.1.trans (hmine'.trans hagree.1.symm))
            refine hother ?_
            rw [hown, hsecret, Option.map_some, Option.map_some, hpub]
  · rw [responder_refuses hπ hholds hpresent h] at hok
    cases hok

end

end

end Thumos.Krypta
