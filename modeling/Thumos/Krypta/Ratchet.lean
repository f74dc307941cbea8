import Thumos.Lib.LittleEndian
import Thumos.Lib.SkipRatchet

/-!
# The symmetric ratchet of krypta

One HMAC-SHA256 chain a direction, with AES-256-GCM for the messages.  The nonce of
a message is its counter.  `decrypt` walks the chain on a copy and commits once the
message has opened.

The primitives are parameters.  HMAC and AES-256 take every key of 32 bytes, and HKDF
every output of 32 bytes, so the errors of their constructors cannot occur and are
left out.
-/

namespace Thumos.Krypta

open LittleEndian SkipRatchet UInt32

abbrev Key := Vector UInt8 32

inductive Error where
  | keyGeneration
  | invalidKey
  | keyAgreement
  | encryption
  | decryption
  | invalidSignature
  | keyDerivation
  deriving DecidableEq

structure Primitives where
  hmacSha256 : Key → List UInt8 → Key
  /-- HKDF-SHA256 with 32 bytes of output, of a salt, the key material and an info. -/
  hkdf : List UInt8 → List UInt8 → List UInt8 → Key
  /-- AES-256-GCM of a key, a nonce and a text, with no associated data. -/
  encryptInPlace : Key → List UInt8 → List UInt8 → Option (List UInt8)
  decryptInPlace : Key → List UInt8 → List UInt8 → Option (List UInt8)
  diffieHellman : Key → Key → Key
  x25519Public : Key → Key
  /-- The Ed25519 public key of a seed. -/
  verifyingKey : Key → Key
  /-- The X25519 secret of an Ed25519 seed. -/
  toScalarBytes : Key → Key
  /-- The bytes are an Ed25519 point. -/
  isPoint : Key → Bool
  toMontgomery : Key → Key
  sign : Key → List UInt8 → List UInt8
  verifyStrict : Key → List UInt8 → List UInt8 → Bool

def mkLabel : List UInt8 := [1]
def ckLabel : List UInt8 := [2]
def maxSkipAhead : UInt32 := 1024
def maxSkippedKeys : Nat := 1024

structure SkippedKey where
  counter : UInt32
  messageKey : Key
  deriving DecidableEq

structure CiphertextMessage where
  counter : UInt32
  ciphertext : List UInt8
  deriving DecidableEq

structure RatchetState where
  chainKey : Key
  counter : UInt32
  skipped : List SkippedKey
  deriving DecidableEq

def RatchetState.new (rootKey : Key) : RatchetState := ⟨rootKey, 0, []⟩

def counterNonce (counter : UInt32) : List UInt8 :=
  leBytes 4 counter.toNat ++ List.replicate 8 0

section

variable (π : Primitives)

def deriveMessageKey (chainKey : Key) : Key := π.hmacSha256 chainKey mkLabel
def deriveNextChainKey (chainKey : Key) : Key := π.hmacSha256 chainKey ckLabel

def encrypt (state : RatchetState) (plaintext : List UInt8) :
    Except Error CiphertextMessage × RatchetState :=
  let messageKey := deriveMessageKey π state.chainKey
  let nextChainKey := deriveNextChainKey π state.chainKey
  match π.encryptInPlace messageKey (counterNonce state.counter) plaintext with
  | none => (.error .encryption, state)
  | some ciphertext =>
    (.ok ⟨state.counter, ciphertext⟩,
      { state with chainKey := nextChainKey, counter := state.counter + 1 })

def aeadOpen (messageKey : Key) (msg : CiphertextMessage) : Except Error (List UInt8) :=
  match π.decryptInPlace messageKey (counterNonce msg.counter) msg.ciphertext with
  | none => .error .decryption
  | some plaintext => .ok plaintext

def decryptFromSkipped (state : RatchetState) (msg : CiphertextMessage) :
    Except Error (List UInt8) × RatchetState :=
  match state.skipped.find? fun k => k.counter = msg.counter with
  | none => (.error .decryption, state)
  | some entry =>
    match aeadOpen π entry.messageKey msg with
    | .error e => (.error e, state)
    | .ok plaintext =>
      (.ok plaintext,
        { state with skipped := state.skipped.eraseP fun k => k.counter = msg.counter })

def storeSkipped (state : RatchetState) (key : SkippedKey) : RatchetState :=
  { state with skipped := evict maxSkippedKeys (state.skipped ++ [key]) }

/-- The loop of `decrypt` over `n` counters: the pending keys, and the chain key it ends
at. -/
def walk : Nat → Key → UInt32 → List SkippedKey × Key
  | 0, workChainKey, _ => ([], workChainKey)
  | n + 1, workChainKey, counter =>
    let rest := walk n (deriveNextChainKey π workChainKey) (counter + 1)
    (⟨counter, deriveMessageKey π workChainKey⟩ :: rest.1, rest.2)

def decrypt (state : RatchetState) (msg : CiphertextMessage) :
    Except Error (List UInt8) × RatchetState :=
  if msg.counter < state.counter then decryptFromSkipped π state msg
  else
    let gap := msg.counter - state.counter
    if maxSkipAhead < gap then (.error .decryption, state)
    else
      let (pending, workChainKey) := walk π gap.toNat state.chainKey state.counter
      match aeadOpen π (deriveMessageKey π workChainKey) msg with
      | .error e => (.error e, state)
      | .ok plaintext =>
        let stored := pending.foldl storeSkipped state
        (.ok plaintext, {
          stored with
          chainKey := deriveNextChainKey π workChainKey
          counter := msg.counter + 1 })

/-- The counters of the keys that `store_skipped` drops when the message is opened. -/
def evictedBy (state : RatchetState) (msg : CiphertextMessage) : List UInt32 :=
  if msg.counter < state.counter then []
  else
    let pending := (walk π (msg.counter - state.counter).toNat state.chainKey state.counter).1
    (storeAllEvicted maxSkippedKeys state.skipped pending).map SkippedKey.counter

end

/-! ## The ratchet as a receiver -/

def scheme (π : Primitives) : Scheme Key Key (List UInt8) (List UInt8) Error where
  next := deriveNextChainKey π
  key := fun chainKey _ => deriveMessageKey π chainKey
  openWith := fun messageKey i ciphertext => aeadOpen π messageKey ⟨UInt32.ofNat i, ciphertext⟩
  missing := .decryption
  tooFar := .decryption
  maxAhead := maxSkipAhead.toNat
  maxKeys := maxSkippedKeys

def SkippedKey.entry (k : SkippedKey) : Nat × Key := (k.counter.toNat, k.messageKey)

def RatchetState.receiver (state : RatchetState) : Receiver Key Key :=
  ⟨state.chainKey, state.counter.toNat, state.skipped.map SkippedKey.entry⟩

variable {π : Primitives}

@[simp] theorem scheme_maxAhead : (scheme π).maxAhead = 1024 := rfl

@[simp] theorem scheme_maxKeys : (scheme π).maxKeys = maxSkippedKeys := rfl

theorem receiver_position (state : RatchetState) :
    state.receiver.position = state.counter.toNat := rfl

theorem receiver_skipped (state : RatchetState) :
    state.receiver.skipped = state.skipped.map SkippedKey.entry := rfl

theorem scheme_openWith (messageKey : Key) (msg : CiphertextMessage) :
    (scheme π).openWith messageKey msg.counter.toNat msg.ciphertext =
      aeadOpen π messageKey msg := by
  change aeadOpen π messageKey ⟨ofNat msg.counter.toNat, msg.ciphertext⟩ = _
  rw [UInt32.ofNat_toNat]

theorem receiver_new (rootKey : Key) :
    (RatchetState.new rootKey).receiver.Sound (scheme π) rootKey 0 := Receiver.Sound.fresh rootKey 0

theorem walk_eq (n : Nat) (chainKey : Key) (counter : UInt32) (h : counter.toNat + n < 2 ^ 32) :
    (walk π n chainKey counter).2 = (scheme π).chainAt chainKey n ∧
      (walk π n chainKey counter).1.map SkippedKey.entry =
        (scheme π).keys chainKey counter.toNat n := by
  induction n generalizing chainKey counter with
  | zero => exact ⟨rfl, rfl⟩
  | succ n ih =>
    have hnext : (counter + 1).toNat = counter.toNat + 1 := by
      rw [UInt32.toNat_add]
      exact Nat.mod_eq_of_lt (by simp; omega)
    obtain ⟨hchain, hkeys⟩ := ih (deriveNextChainKey π chainKey) (counter + 1) (by omega)
    refine ⟨hchain, ?_⟩
    rw [walk, List.map_cons, hkeys, hnext]
    rfl

theorem foldl_storeSkipped (pending : List SkippedKey) (state : RatchetState) :
    pending.foldl storeSkipped state =
      { state with skipped := storeAll maxSkippedKeys state.skipped pending } := by
  induction pending generalizing state with
  | nil => rfl
  | cons k pending ih => exact ih (storeSkipped state k)

theorem entry_counter_eq (msg : CiphertextMessage) (k : SkippedKey) :
    decide (k.entry.1 = msg.counter.toNat) = decide (k.counter = msg.counter) :=
  decide_eq_decide.mpr UInt32.toNat_inj

theorem decrypt_error {state state' : RatchetState} {msg : CiphertextMessage} {e : Error}
    (h : decrypt π state msg = (.error e, state')) : e = .decryption ∧ state' = state := by
  have hopen : ∀ key e', aeadOpen π key msg = .error e' → e' = .decryption := by
    intro key e' he
    rw [aeadOpen] at he
    split at he
    · cases he
      rfl
    · cases he
  rw [decrypt] at h
  split at h
  · rw [decryptFromSkipped] at h
    split at h
    · cases h
      exact ⟨rfl, rfl⟩
    split at h
    · rename_i he
      cases h
      exact ⟨hopen _ _ he, rfl⟩
    · cases h
  · dsimp only at h
    split at h
    · cases h
      exact ⟨rfl, rfl⟩
    split at h
    · rename_i he
      cases h
      exact ⟨hopen _ _ he, rfl⟩
    · cases h

section

variable (state : RatchetState) (msg : CiphertextMessage)

include state msg

theorem decryptFromSkipped_refines (hbehind : msg.counter < state.counter) :
    (decryptFromSkipped π state msg).map id RatchetState.receiver =
      state.receiver.receive (scheme π) msg.counter.toNat msg.ciphertext := by
  have hlt : msg.counter.toNat < state.receiver.position := lt_iff_toNat_lt.mp hbehind
  rw [decryptFromSkipped, Receiver.receive, if_pos hlt, receiver_skipped,
    find?_map_of_eq _ (entry_counter_eq msg)]
  cases state.skipped.find? fun k => k.counter = msg.counter with
  | none => rfl
  | some entry =>
    simp only [Option.map_some]
    rw [show entry.entry.2 = entry.messageKey from rfl, scheme_openWith]
    cases aeadOpen π entry.messageKey msg with
    | error e => rfl
    | ok p =>
      refine Prod.ext rfl (Receiver.ext rfl rfl ?_)
      exact (eraseP_map_of_eq SkippedKey.entry (entry_counter_eq msg) state.skipped).symm

/-- As long as the counter does not wrap, `decrypt` is the receiver of the library. -/
theorem decrypt_refines (hlen : state.skipped.length ≤ maxSkippedKeys)
    (hwrap : ∀ p r, state.receiver.receive (scheme π) msg.counter.toNat msg.ciphertext =
      (.ok p, r) → msg.counter.toNat + 1 < 2 ^ 32) :
    (decrypt π state msg).map id RatchetState.receiver =
      state.receiver.receive (scheme π) msg.counter.toNat msg.ciphertext := by
  rw [decrypt]
  by_cases hbehind : msg.counter < state.counter
  · rw [if_pos hbehind]
    exact decryptFromSkipped_refines state msg hbehind
  have hlt : ¬msg.counter.toNat < state.receiver.position :=
    fun h => hbehind (lt_iff_toNat_lt.mpr h)
  have hgap : (msg.counter - state.counter).toNat = msg.counter.toNat - state.receiver.position :=
    UInt32.toNat_sub_of_le _ _ (le_iff_toNat_le.mpr (not_lt.mp hlt))
  have hfar : maxSkipAhead < msg.counter - state.counter ↔
      (scheme π).maxAhead < msg.counter.toNat - state.receiver.position := by
    rw [lt_iff_toNat_lt, hgap]
    rfl
  rw [Receiver.receive, if_neg hlt] at hwrap ⊢
  rw [if_neg hbehind]
  by_cases hahead : maxSkipAhead < msg.counter - state.counter
  · simp only [if_pos hahead, if_pos (hfar.mp hahead)]
    rfl
  have hnear : ¬(scheme π).maxAhead < msg.counter.toNat - state.receiver.position :=
    fun h => hahead (hfar.mpr h)
  simp only [if_neg hahead, if_neg hnear] at hwrap ⊢
  have hbound : state.counter.toNat + (msg.counter - state.counter).toNat < 2 ^ 32 := by
    have hposition := receiver_position state
    have := msg.counter.toNat_lt
    omega
  obtain ⟨hchain, hkeys⟩ := walk_eq (π := π) (msg.counter - state.counter).toNat state.chainKey
    state.counter hbound
  rw [hgap] at hchain hkeys
  simp only [hgap, scheme_openWith, hchain, foldl_storeSkipped, storeAll_eq hlen] at hwrap ⊢
  rw [show (scheme π).key ((scheme π).chainAt state.receiver.chain _) _ =
    deriveMessageKey π ((scheme π).chainAt state.chainKey _) from rfl] at hwrap ⊢
  cases hopen : aeadOpen π (deriveMessageKey π ((scheme π).chainAt state.chainKey
      (msg.counter.toNat - state.receiver.position))) msg with
  | error e => rfl
  | ok p =>
    rw [hopen] at hwrap
    have hnext : (msg.counter + 1).toNat = msg.counter.toNat + 1 := by
      rw [UInt32.toNat_add]
      exact Nat.mod_eq_of_lt (hwrap p _ rfl)
    refine Prod.ext rfl (Receiver.ext rfl hnext ?_)
    simp only [Prod.map_snd, receiver_skipped, scheme_maxKeys, map_newest, List.map_append, hkeys]
    rfl

theorem evictedBy_eq (hlen : state.skipped.length ≤ maxSkippedKeys) :
    (evictedBy π state msg).map UInt32.toNat =
      state.receiver.evicts (scheme π) msg.counter.toNat := by
  rw [evictedBy, Receiver.evicts, receiver_position]
  by_cases hbehind : msg.counter < state.counter
  · rw [if_pos hbehind, if_pos (UInt32.lt_iff_toNat_lt.mp hbehind)]
    rfl
  have hle : state.counter ≤ msg.counter := UInt32.not_lt.mp hbehind
  have hgap := UInt32.toNat_sub_of_le _ _ hle
  have hbound : state.counter.toNat + (msg.counter - state.counter).toNat < 2 ^ 32 := by
    have := UInt32.le_iff_toNat_le.mp hle
    have := msg.counter.toNat_lt
    omega
  obtain ⟨-, hkeys⟩ := walk_eq (π := π) _ state.chainKey state.counter hbound
  have hcounters : ((walk π (msg.counter - state.counter).toNat state.chainKey state.counter).1.map
      SkippedKey.counter).map UInt32.toNat =
        List.range' state.counter.toNat (msg.counter - state.counter).toNat := by
    rw [← Scheme.keys_fst (S := scheme π) state.chainKey, ← hkeys, List.map_map, List.map_map]
    rfl
  rw [if_neg hbehind, if_neg (fun h => hbehind (UInt32.lt_iff_toNat_lt.mpr h))]
  simp only [storeAllEvicted_eq hlen]
  rw [map_oldest, map_oldest, List.map_append, List.map_append, hcounters, hgap]
  rw [Receiver.kept, receiver_skipped, List.map_map, List.map_map]
  rfl

end

end Thumos.Krypta
