import Thumos.Krypta.X3dh

/-!
# Sessions

A session has one ratchet for each direction.  `Sending` says what the sending side
has sealed.
-/

namespace Thumos.Krypta

open SkipRatchet List

structure EncryptedMessage where
  inner : CiphertextMessage
  deriving DecidableEq

inductive PeerIdentity where
  | unverified (key : PublicIdentityKey)
  | verified (key : PublicIdentityKey)
  deriving DecidableEq

def PeerIdentity.promote : PeerIdentity → PeerIdentity
  | .unverified key => .verified key
  | .verified key => .verified key

structure Session (π : Primitives) where
  identity : IdentityKeyPair π
  peerIdentity : PeerIdentity
  sendRatchet : RatchetState
  recvRatchet : RatchetState
  initiatorMsg : Option InitiatorMessage

namespace Session

variable {π : Primitives}

def initiate (ourIdentity : IdentityKeyPair π) (theirBundle : PreKeyBundle)
    (entropy entropy' : Option Key) : Except Error (Session π) := do
  let (_, keys, initMsg) ← initiateSession π ourIdentity theirBundle entropy entropy'
  return {
    identity := ourIdentity
    peerIdentity := .unverified theirBundle.identityKey
    sendRatchet := .new keys.initiatorToResponder
    recvRatchet := .new keys.responderToInitiator
    initiatorMsg := some initMsg }

def respond (ourIdentity : IdentityKeyPair π) (ourBundle : OwnedBundle)
    (theirMessage : InitiatorMessage) : Except Error (Session π) := do
  let (_, keys) ← respondSession π ourBundle theirMessage
  return {
    identity := ourIdentity
    peerIdentity := .unverified theirMessage.identityKey
    sendRatchet := .new keys.responderToInitiator
    recvRatchet := .new keys.initiatorToResponder
    initiatorMsg := none }

def encryptMessage (s : Session π) (plaintext : List UInt8) :
    Except Error EncryptedMessage × Session π :=
  match encrypt π s.sendRatchet plaintext with
  | (.error e, sendRatchet) => (.error e, { s with sendRatchet })
  | (.ok ct, sendRatchet) => (.ok ⟨ct⟩, { s with sendRatchet })

def decryptMessage (s : Session π) (msg : EncryptedMessage) :
    Except Error (List UInt8) × Session π :=
  match decrypt π s.recvRatchet msg.inner with
  | (.error e, recvRatchet) => (.error e, { s with recvRatchet })
  | (.ok plaintext, recvRatchet) =>
    (.ok plaintext, { s with recvRatchet, peerIdentity := s.peerIdentity.promote })

end Session

/-! ## Keys and nonces -/

def messageKey (π : Primitives) (root : Key) (i : Nat) : Key :=
  deriveMessageKey π ((scheme π).chainAt root i)

variable {π : Primitives} {root root' : Key}

theorem counterNonce_inj {c c' : UInt32} (h : counterNonce c = counterNonce c') : c = c' := by
  have hbytes := append_cancel_right h
  have hvalue := congrArg LittleEndian.leValue hbytes
  rw [LittleEndian.leValue_leBytes_of_lt c.toNat_lt, LittleEndian.leValue_leBytes_of_lt c'.toNat_lt]
    at hvalue
  exact UInt32.toNat_inj.mp hvalue

theorem messageKey_inj (hπ : π.Ideal) {i : Nat}
    (h : messageKey π root i = messageKey π root' i) : root = root' := by
  have hchain := hπ.hmac_inj _ _ _ h
  have hnext : Function.Injective (scheme π).next := fun k k' hk => hπ.hmac_inj k k' _ hk
  exact hnext.iterate i hchain

theorem aeadOpen_eq_ok {key : Key} {msg : CiphertextMessage} {p : List UInt8} :
    aeadOpen π key msg = .ok p ↔
      π.decryptInPlace key (counterNonce msg.counter) msg.ciphertext = some p := by
  rw [aeadOpen]
  cases π.decryptInPlace key (counterNonce msg.counter) msg.ciphertext with
  | none => simp
  | some text => simp

/-! ## The sending side -/

/-- The ratchet has sealed these messages, each under the key and the nonce of its index. -/
structure Sending (π : Primitives) (root : Key) (ratchet : RatchetState)
    (sent : List (List UInt8 × List UInt8)) : Prop where
  chain : ratchet.chainKey = (scheme π).chainAt root sent.length
  counter : ratchet.counter = UInt32.ofNat sent.length
  sealed : ∀ i c text, sent[i]? = some (c, text) →
    π.encryptInPlace (messageKey π root i) (counterNonce (UInt32.ofNat i)) text = some c

theorem Sending.new (root : Key) : Sending π root (.new root) [] where
  chain := rfl
  counter := rfl
  sealed := fun i c text h => by cases h

variable {ratchet ratchet' : RatchetState} {text : List UInt8}

theorem encrypt_ok {m : CiphertextMessage} (h : encrypt π ratchet text = (.ok m, ratchet')) :
    π.encryptInPlace (deriveMessageKey π ratchet.chainKey) (counterNonce ratchet.counter) text =
        some m.ciphertext ∧ m.counter = ratchet.counter ∧
      ratchet' = { ratchet with
        chainKey := deriveNextChainKey π ratchet.chainKey
        counter := ratchet.counter + 1 } := by
  rw [encrypt] at h
  split at h
  · cases h
  · rename_i hseal
    cases h
    exact ⟨hseal, rfl, rfl⟩

theorem encrypt_error {e : Error} (h : encrypt π ratchet text = (.error e, ratchet')) :
    ratchet' = ratchet := by
  rw [encrypt] at h
  split at h
  · cases h
    rfl
  · cases h

theorem Sending.encrypt {sent : List (List UInt8 × List UInt8)} {m : CiphertextMessage}
    (h : Sending π root ratchet sent) (hok : encrypt π ratchet text = (.ok m, ratchet')) :
    Sending π root ratchet' (sent ++ [(m.ciphertext, text)]) := by
  obtain ⟨hseal, -, rfl⟩ := encrypt_ok hok
  refine ⟨?_, ?_, ?_⟩
  · rw [h.chain, length_append]
    exact (Function.iterate_succ_apply' (scheme π).next sent.length root).symm
  · rw [length_append, h.counter]
    exact (UInt32.ofNat_add _ _).symm
  · intro i c text' hi
    rcases Nat.lt_trichotomy i sent.length with hlt | rfl | hgt
    · rw [getElem?_append_left hlt] at hi
      exact h.sealed i c text' hi
    · rw [getElem?_concat_length] at hi
      cases hi
      rw [h.chain, h.counter] at hseal
      exact hseal
    · rw [getElem?_eq_none (by simp; omega)] at hi
      cases hi

end Thumos.Krypta
