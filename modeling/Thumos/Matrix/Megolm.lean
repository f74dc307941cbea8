import Thumos.Lib.Ascii
import Thumos.Lib.LittleEndian
import Thumos.Lib.SkipRatchet
import Thumos.Lib.StateExcept

/-!
# Megolm sessions

A payload is a big-endian index, an AES-CBC ciphertext and the first eight bytes of an
HMAC over both.  The keys of a message and the next ratchet key are derived with HKDF,
which fails only for outputs that are longer than any that is asked for here.
-/

namespace Thumos.Megolm

open Ascii LittleEndian SkipRatchet StateExcept

abbrev Key := Vector UInt8 32

inductive CryptoError where
  | invalidCiphertextLength
  | invalidPadding
  | keyDerivationFailed
  | emptyPlaintext
  | macVerificationFailed
  | megolmMessageTooShort
  | megolmMessageTooLong
  | roomIdMismatch
  | megolmIndexExhausted
  | megolmSkipAheadTooFar
  deriving DecidableEq

inductive SecurityError where
  | hkdfOutputTooLong
  deriving DecidableEq

structure Primitives where
  hmacSha256 : Key → List UInt8 → Key
  /-- HKDF-Extract of a salt and the key material. -/
  extract : List UInt8 → List UInt8 → Key
  /-- HKDF-Expand of an info to a number of bytes. -/
  expand : Key → List UInt8 → Nat → List UInt8
  /-- AES-256-CBC with PKCS#7 padding. -/
  encryptPadded : Key → Vector UInt8 16 → List UInt8 → List UInt8
  decryptPadded : Key → Vector UInt8 16 → List UInt8 → Option (List UInt8)

def aesBlockSize : Nat := 16
def megolmMacLen : Nat := 8
def megolmKeyMaterialLen : Nat := 32 + 32 + aesBlockSize
def megolmIndexLen : Nat := 4
def megolmMaxPayloadLen : Nat := 65536
def megolmMaxSkipAhead : UInt32 := 1024
def megolmMaxSkippedKeys : Nat := 1024

structure MegolmMessageKeys where
  aesKey : Key
  hmacKey : Key
  iv : Vector UInt8 16
  deriving DecidableEq

structure SkippedMegolmKey where
  index : UInt32
  keys : MegolmMessageKeys
  deriving DecidableEq

structure MegolmSession where
  sessionId : Key
  sessionKey : Key
  messageIndex : UInt32
  roomId : String
  skipped : List SkippedMegolmKey
  deriving DecidableEq

def toBeBytes (v : UInt32) : List UInt8 := (leBytes 4 v.toNat).reverse

def fromBeBytes (bytes : List UInt8) : UInt32 := UInt32.ofNat (leValue bytes.reverse)

def part (n : Nat) (material : List UInt8) (off : Nat) : Vector UInt8 n :=
  Vector.ofFn fun i => material.getD (off + i) 0

section

variable (π : Primitives)

def cbcEncrypt (key : Key) (iv : Vector UInt8 16) (plaintext : List UInt8) : List UInt8 :=
  π.encryptPadded key iv plaintext

def cbcDecrypt (key : Key) (iv : Vector UInt8 16) (ciphertext : List UInt8) :
    Except CryptoError (List UInt8) :=
  if ciphertext.isEmpty ∨ ciphertext.length % aesBlockSize ≠ 0 then .error .invalidCiphertextLength
  else
    match π.decryptPadded key iv ciphertext with
    | none => .error .invalidPadding
    | some plaintext => .ok plaintext

def hkdfSha256 (ikm salt info : List UInt8) (okmLen : Nat) : Except SecurityError (List UInt8) :=
  if okmLen > 255 * 32 then .error .hkdfOutputTooLong
  else .ok (π.expand (π.extract salt ikm) info okmLen)

def deriveMegolmMessageKeys (sessionKey : Key) (messageIndex : UInt32) :
    Except CryptoError MegolmMessageKeys :=
  match hkdfSha256 π sessionKey.toList [] (ascii "megolm-keys" ++ toBeBytes messageIndex)
      megolmKeyMaterialLen with
  | .error _ => .error .keyDerivationFailed
  | .ok material => .ok ⟨part 32 material 0, part 32 material 32, part 16 material 64⟩

def advanceMegolmRatchetKey (ratchetKey : Key) : Except CryptoError Key :=
  match hkdfSha256 π ratchetKey.toList [] (ascii "megolm-ratchet-advance") 32 with
  | .error _ => .error .keyDerivationFailed
  | .ok next => .ok (part 32 next 0)

def macOf (keys : MegolmMessageKeys) (body : List UInt8) : List UInt8 :=
  (π.hmacSha256 keys.hmacKey body).toList.take megolmMacLen

def encryptMegolm (session : MegolmSession) (plaintext : List UInt8) :
    Except CryptoError (List UInt8) × MegolmSession :=
  if plaintext.isEmpty then (.error .emptyPlaintext, session)
  else
    let index := session.messageIndex
    if index.toNat + 1 = 2 ^ 32 then (.error .megolmIndexExhausted, session)
    else
      match deriveMegolmMessageKeys π session.sessionKey index with
      | .error e => (.error e, session)
      | .ok keys =>
        let ciphertext := cbcEncrypt π keys.aesKey keys.iv plaintext
        let body := toBeBytes index ++ ciphertext
        let payload := body ++ macOf π keys body
        match advanceMegolmRatchetKey π session.sessionKey with
        | .error e => (.error e, session)
        | .ok nextKey =>
          (.ok payload, { session with sessionKey := nextKey, messageIndex := index + 1 })

def bodyOf (payload : List UInt8) : List UInt8 := payload.take (payload.length - megolmMacLen)
def tagOf (payload : List UInt8) : List UInt8 := payload.drop (payload.length - megolmMacLen)
def indexOf (payload : List UInt8) : UInt32 := fromBeBytes ((bodyOf payload).take megolmIndexLen)
def ciphertextOf (payload : List UInt8) : List UInt8 := (bodyOf payload).drop megolmIndexLen

/-- The MAC is checked before anything is decrypted. -/
def openPayload (keys : MegolmMessageKeys) (payload : List UInt8) :
    Except CryptoError (List UInt8) :=
  if macOf π keys (bodyOf payload) ≠ tagOf payload then .error .macVerificationFailed
  else cbcDecrypt π keys.aesKey keys.iv (ciphertextOf payload)

def decryptMegolmFromSkipped (session : MegolmSession) (payload : List UInt8) :
    Except CryptoError (List UInt8) × MegolmSession :=
  match session.skipped.find? fun k => k.index = indexOf payload with
  | none => (.error .macVerificationFailed, session)
  | some cached =>
    match openPayload π cached.keys payload with
    | .error e => (.error e, session)
    | .ok plaintext =>
      (.ok plaintext,
        { session with skipped := session.skipped.eraseP fun k => k.index = indexOf payload })

def storeSkippedMegolm (session : MegolmSession) (key : SkippedMegolmKey) : MegolmSession :=
  { session with skipped := evict megolmMaxSkippedKeys (session.skipped ++ [key]) }

/-- The loop of `decrypt_megolm` over `n` indices: the pending keys, and the ratchet key it
ends at. -/
def walk : Nat → Key → UInt32 → Except CryptoError (List SkippedMegolmKey × Key)
  | 0, workKey, _ => .ok ([], workKey)
  | n + 1, workKey, idx => do
    let msgKeys ← deriveMegolmMessageKeys π workKey idx
    let next ← advanceMegolmRatchetKey π workKey
    let (pending, workKey) ← walk n next (idx + 1)
    return (⟨idx, msgKeys⟩ :: pending, workKey)

def decryptMegolm (session : MegolmSession) (payload : List UInt8) (expectedRoomId : String) :
    Except CryptoError (List UInt8) × MegolmSession :=
  if session.roomId ≠ expectedRoomId then (.error .roomIdMismatch, session)
  else if payload.length < megolmIndexLen + megolmMacLen then
    (.error .megolmMessageTooShort, session)
  else if payload.length > megolmMaxPayloadLen then (.error .megolmMessageTooLong, session)
  else
    let index := indexOf payload
    if index < session.messageIndex then decryptMegolmFromSkipped π session payload
    else
      let gap := index - session.messageIndex
      if gap > megolmMaxSkipAhead then (.error .megolmSkipAheadTooFar, session)
      else
        match walk π gap.toNat session.sessionKey session.messageIndex with
        | .error e => (.error e, session)
        | .ok (pending, workKey) =>
          match deriveMegolmMessageKeys π workKey index with
          | .error e => (.error e, session)
          | .ok targetKeys =>
            match openPayload π targetKeys payload with
            | .error e => (.error e, session)
            | .ok plaintext =>
              -- The skipped keys are stored before the last derivation, which could fail.
              let stored := pending.foldl storeSkippedMegolm session
              match advanceMegolmRatchetKey π workKey with
              | .error e => (.error e, stored)
              | .ok post => (.ok plaintext, {
                  stored with
                  sessionKey := post
                  messageIndex := UInt32.ofNat (min (index.toNat + 1) (2 ^ 32 - 1)) })

/-- The indices of the keys that `store_skipped_megolm` drops when the payload is opened. -/
def evictedBy (session : MegolmSession) (payload : List UInt8) : List UInt32 :=
  let index := indexOf payload
  if index < session.messageIndex then []
  else
    match walk π (index - session.messageIndex).toNat session.sessionKey session.messageIndex with
    | .error _ => []
    | .ok (pending, _) =>
      (storeAllEvicted megolmMaxSkippedKeys session.skipped pending).map SkippedMegolmKey.index

end

/-! ## HKDF does not fail -/

def messageKeys (π : Primitives) (sessionKey : Key) (messageIndex : UInt32) : MegolmMessageKeys :=
  let material := π.expand (π.extract [] sessionKey.toList)
    (ascii "megolm-keys" ++ toBeBytes messageIndex) megolmKeyMaterialLen
  ⟨part 32 material 0, part 32 material 32, part 16 material 64⟩

def nextKey (π : Primitives) (ratchetKey : Key) : Key :=
  part 32 (π.expand (π.extract [] ratchetKey.toList) (ascii "megolm-ratchet-advance") 32) 0

variable {π : Primitives}

theorem deriveMegolmMessageKeys_eq (key : Key) (index : UInt32) :
    deriveMegolmMessageKeys π key index = .ok (messageKeys π key index) := rfl

theorem advanceMegolmRatchetKey_eq (key : Key) :
    advanceMegolmRatchetKey π key = .ok (nextKey π key) := rfl

/-! ## A session as a receiver -/

def scheme (π : Primitives) :
    Scheme Key MegolmMessageKeys (List UInt8) (List UInt8) CryptoError where
  next := nextKey π
  key := fun sessionKey i => messageKeys π sessionKey (UInt32.ofNat i)
  openWith := fun keys _ payload => openPayload π keys payload
  missing := .macVerificationFailed
  tooFar := .megolmSkipAheadTooFar
  maxAhead := megolmMaxSkipAhead.toNat
  maxKeys := megolmMaxSkippedKeys

def SkippedMegolmKey.entry (k : SkippedMegolmKey) : Nat × MegolmMessageKeys :=
  (k.index.toNat, k.keys)

def MegolmSession.receiver (session : MegolmSession) : Receiver Key MegolmMessageKeys :=
  ⟨session.sessionKey, session.messageIndex.toNat, session.skipped.map SkippedMegolmKey.entry⟩

theorem receiver_position (session : MegolmSession) :
    session.receiver.position = session.messageIndex.toNat := rfl

theorem receiver_skipped (session : MegolmSession) :
    session.receiver.skipped = session.skipped.map SkippedMegolmKey.entry := rfl

theorem scheme_next : (scheme π).next = nextKey π := rfl

@[simp] theorem scheme_maxKeys : (scheme π).maxKeys = megolmMaxSkippedKeys := rfl

theorem entry_index_eq (index : UInt32) (k : SkippedMegolmKey) :
    decide (k.entry.1 = index.toNat) = decide (k.index = index) :=
  decide_eq_decide.mpr UInt32.toNat_inj

theorem walk_eq (n : Nat) (key : Key) (idx : UInt32) (h : idx.toNat + n < 2 ^ 32) :
    ∃ pending, walk π n key idx = .ok (pending, (scheme π).chainAt key n) ∧
      pending.map SkippedMegolmKey.entry = (scheme π).keys key idx.toNat n := by
  induction n generalizing key idx with
  | zero => exact ⟨[], rfl, rfl⟩
  | succ n ih =>
    have hnext : (idx + 1).toNat = idx.toNat + 1 := by
      rw [UInt32.toNat_add]
      exact Nat.mod_eq_of_lt (by simp; omega)
    obtain ⟨pending, hwalk, hkeys⟩ := ih (nextKey π key) (idx + 1) (by omega)
    refine ⟨⟨idx, messageKeys π key idx⟩ :: pending, ?_, ?_⟩
    · have hchain : (scheme π).chainAt key (n + 1) = (scheme π).chainAt (nextKey π key) n := by
        rw [Scheme.chainAt, Scheme.chainAt, Function.iterate_succ_apply, scheme_next]
      simp only [walk, deriveMegolmMessageKeys_eq, advanceMegolmRatchetKey_eq, bind, Except.bind,
        pure, Except.pure, hwalk, hchain]
    · rw [List.map_cons, hkeys, hnext, Scheme.keys]
      refine congrArg (· :: _) (Prod.ext rfl ?_)
      change messageKeys π key idx = messageKeys π key (UInt32.ofNat idx.toNat)
      rw [UInt32.ofNat_toNat]

theorem foldl_storeSkippedMegolm (pending : List SkippedMegolmKey) (session : MegolmSession) :
    pending.foldl storeSkippedMegolm session =
      { session with skipped := storeAll megolmMaxSkippedKeys session.skipped pending } := by
  induction pending generalizing session with
  | nil => rfl
  | cons k pending ih => exact ih (storeSkippedMegolm session k)

structure Fits (session : MegolmSession) (payload : List UInt8) (room : String) : Prop where
  room : session.roomId = room
  short : megolmIndexLen + megolmMacLen ≤ payload.length
  long : payload.length ≤ megolmMaxPayloadLen

theorem decryptMegolm_of_not_fits {session : MegolmSession} {payload : List UInt8} {room : String}
    (h : ¬Fits session payload room) :
    ∃ e, decryptMegolm π session payload room = (.error e, session) := by
  rw [decryptMegolm]
  split
  · exact ⟨_, rfl⟩
  split
  · exact ⟨_, rfl⟩
  split
  · exact ⟨_, rfl⟩
  · rename_i hroom hshort hlong
    exact absurd ⟨not_not.mp hroom, not_lt.mp hshort, not_lt.mp hlong⟩ h

theorem decryptMegolmFromSkipped_refines (session : MegolmSession) (payload : List UInt8)
    (hbehind : indexOf payload < session.messageIndex) :
    (decryptMegolmFromSkipped π session payload).map id MegolmSession.receiver =
      session.receiver.receive (scheme π) (indexOf payload).toNat payload := by
  have hlt : (indexOf payload).toNat < session.receiver.position :=
    UInt32.lt_iff_toNat_lt.mp hbehind
  rw [decryptMegolmFromSkipped, Receiver.receive, if_pos hlt, receiver_skipped,
    find?_map_of_eq _ (entry_index_eq _)]
  cases session.skipped.find? fun k => k.index = indexOf payload with
  | none => rfl
  | some cached =>
    simp only [Option.map_some]
    rw [show (scheme π).openWith cached.entry.2 (indexOf payload).toNat payload =
      openPayload π cached.keys payload from rfl]
    cases openPayload π cached.keys payload with
    | error e => rfl
    | ok p =>
      refine Prod.ext rfl (Receiver.ext rfl rfl ?_)
      exact (eraseP_map_of_eq SkippedMegolmKey.entry (entry_index_eq _) session.skipped).symm

section

variable {session : MegolmSession} {payload : List UInt8} {room : String}
  (hfits : Fits session payload room)

include hfits

theorem decryptMegolm_ahead (hahead : ¬indexOf payload < session.messageIndex)
    (hnear : ¬indexOf payload - session.messageIndex > megolmMaxSkipAhead) :
    ∃ pending : List SkippedMegolmKey,
      pending.map SkippedMegolmKey.entry =
        (scheme π).keys session.sessionKey session.messageIndex.toNat
          (indexOf payload - session.messageIndex).toNat ∧
      decryptMegolm π session payload room =
        let workKey := (scheme π).chainAt session.sessionKey
          (indexOf payload - session.messageIndex).toNat
        match openPayload π (messageKeys π workKey (indexOf payload)) payload with
        | .error e => (.error e, session)
        | .ok plaintext => (.ok plaintext, {
            session with
            skipped := storeAll megolmMaxSkippedKeys session.skipped pending
            sessionKey := nextKey π workKey
            messageIndex := UInt32.ofNat (min ((indexOf payload).toNat + 1) (2 ^ 32 - 1)) }) := by
  have hle : session.messageIndex ≤ indexOf payload := UInt32.not_lt.mp hahead
  have hbound : session.messageIndex.toNat + (indexOf payload - session.messageIndex).toNat <
      2 ^ 32 := by
    rw [UInt32.toNat_sub_of_le _ _ hle]
    have := UInt32.le_iff_toNat_le.mp hle
    have := (indexOf payload).toNat_lt
    omega
  obtain ⟨pending, hwalk, hkeys⟩ := walk_eq (π := π) _ session.sessionKey _ hbound
  refine ⟨pending, hkeys, ?_⟩
  rw [decryptMegolm, if_neg (not_not.mpr hfits.room), if_neg (not_lt.mpr hfits.short),
    if_neg (not_lt.mpr hfits.long)]
  simp only [if_neg hahead, if_neg hnear, hwalk, deriveMegolmMessageKeys_eq,
    advanceMegolmRatchetKey_eq, foldl_storeSkippedMegolm]

theorem decryptMegolm_far (hahead : ¬indexOf payload < session.messageIndex)
    (hfar : indexOf payload - session.messageIndex > megolmMaxSkipAhead) :
    decryptMegolm π session payload room = (.error .megolmSkipAheadTooFar, session) := by
  rw [decryptMegolm, if_neg (not_not.mpr hfits.room), if_neg (not_lt.mpr hfits.short),
    if_neg (not_lt.mpr hfits.long)]
  simp only [if_neg hahead, if_pos hfar]

theorem decryptMegolm_behind (hbehind : indexOf payload < session.messageIndex) :
    decryptMegolm π session payload room = decryptMegolmFromSkipped π session payload := by
  rw [decryptMegolm, if_neg (not_not.mpr hfits.room), if_neg (not_lt.mpr hfits.short),
    if_neg (not_lt.mpr hfits.long)]
  simp only [if_pos hbehind]

end

theorem decryptMegolm_error {session session' : MegolmSession} {payload : List UInt8}
    {room : String} {e : CryptoError}
    (h : decryptMegolm π session payload room = (.error e, session')) : session' = session := by
  by_cases hfits : Fits session payload room
  · by_cases hbehind : indexOf payload < session.messageIndex
    · rw [decryptMegolm_behind hfits hbehind, decryptMegolmFromSkipped] at h
      split at h
      · cases h
        rfl
      split at h
      · cases h
        rfl
      · cases h
    · by_cases hfar : indexOf payload - session.messageIndex > megolmMaxSkipAhead
      · rw [decryptMegolm_far hfits hbehind hfar] at h
        cases h
        rfl
      · obtain ⟨pending, -, heq⟩ := decryptMegolm_ahead (π := π) hfits hbehind hfar
        rw [heq] at h
        dsimp only at h
        split at h
        · cases h
          rfl
        · cases h
  · obtain ⟨e', heq⟩ := decryptMegolm_of_not_fits (π := π) hfits
    rw [heq] at h
    cases h
    rfl

/-- Below the last index, `decrypt_megolm` is the receiver of the library. -/
theorem decryptMegolm_refines {session : MegolmSession} {payload : List UInt8} {room : String}
    (hfits : Fits session payload room) (hlen : session.skipped.length ≤ megolmMaxSkippedKeys)
    (hlast : ∀ p r, session.receiver.receive (scheme π) (indexOf payload).toNat payload =
      (.ok p, r) → (indexOf payload).toNat + 1 < 2 ^ 32) :
    (decryptMegolm π session payload room).map id MegolmSession.receiver =
      session.receiver.receive (scheme π) (indexOf payload).toNat payload := by
  by_cases hbehind : indexOf payload < session.messageIndex
  · rw [decryptMegolm_behind hfits hbehind]
    exact decryptMegolmFromSkipped_refines session payload hbehind
  have hlt : ¬(indexOf payload).toNat < session.receiver.position :=
    fun h => hbehind (UInt32.lt_iff_toNat_lt.mpr h)
  have hgap : (indexOf payload - session.messageIndex).toNat =
      (indexOf payload).toNat - session.receiver.position :=
    UInt32.toNat_sub_of_le _ _ (UInt32.not_lt.mp hbehind)
  have hiff : indexOf payload - session.messageIndex > megolmMaxSkipAhead ↔
      (scheme π).maxAhead < (indexOf payload).toNat - session.receiver.position := by
    rw [gt_iff_lt, UInt32.lt_iff_toNat_lt, hgap]
    rfl
  rw [Receiver.receive, if_neg hlt] at hlast ⊢
  by_cases hfar : indexOf payload - session.messageIndex > megolmMaxSkipAhead
  · rw [decryptMegolm_far hfits hbehind hfar, if_pos (hiff.mp hfar)]
    rfl
  obtain ⟨pending, hkeys, heq⟩ := decryptMegolm_ahead (π := π) hfits hbehind hfar
  rw [heq]
  have hnear := fun h => hfar (hiff.mpr h)
  simp only [if_neg hnear, hgap, storeAll_eq hlen] at hkeys hlast ⊢
  have hopen : (scheme π).openWith ((scheme π).key ((scheme π).chainAt session.receiver.chain
      ((indexOf payload).toNat - session.receiver.position)) (indexOf payload).toNat)
      (indexOf payload).toNat payload =
      openPayload π (messageKeys π ((scheme π).chainAt session.sessionKey
        ((indexOf payload).toNat - session.receiver.position)) (indexOf payload)) payload := by
    change openPayload π (messageKeys π _ (UInt32.ofNat (indexOf payload).toNat)) payload = _
    rw [UInt32.ofNat_toNat]
    rfl
  rw [hopen] at hlast ⊢
  generalize openPayload π _ payload = answer at hlast ⊢
  cases answer with
  | error e => rfl
  | ok p =>
    have hnext : (UInt32.ofNat (min ((indexOf payload).toNat + 1) (2 ^ 32 - 1))).toNat =
        (indexOf payload).toNat + 1 := by
      have hlt := hlast p _ rfl
      rw [Nat.min_eq_left (by omega)]
      exact UInt32.toNat_ofNat_of_lt' hlt
    refine Prod.ext rfl (Receiver.ext rfl hnext ?_)
    simp only [Prod.map_snd, receiver_skipped, scheme_maxKeys, map_newest, List.map_append, hkeys]
    rfl

theorem evictedBy_eq (session : MegolmSession) (payload : List UInt8)
    (hlen : session.skipped.length ≤ megolmMaxSkippedKeys) :
    (evictedBy π session payload).map UInt32.toNat =
      session.receiver.evicts (scheme π) (indexOf payload).toNat := by
  rw [evictedBy, Receiver.evicts, receiver_position]
  by_cases hbehind : indexOf payload < session.messageIndex
  · rw [if_pos (UInt32.lt_iff_toNat_lt.mp hbehind)]
    simp only [if_pos hbehind]
    rfl
  have hle : session.messageIndex ≤ indexOf payload := UInt32.not_lt.mp hbehind
  have hgap := UInt32.toNat_sub_of_le _ _ hle
  have hbound : session.messageIndex.toNat + (indexOf payload - session.messageIndex).toNat <
      2 ^ 32 := by
    have := UInt32.le_iff_toNat_le.mp hle
    have := (indexOf payload).toNat_lt
    omega
  obtain ⟨pending, hwalk, hkeys⟩ := walk_eq (π := π) _ session.sessionKey _ hbound
  have hindices : (pending.map SkippedMegolmKey.index).map UInt32.toNat =
      List.range' session.messageIndex.toNat (indexOf payload - session.messageIndex).toNat := by
    rw [← Scheme.keys_fst (S := scheme π) session.sessionKey, ← hkeys, List.map_map, List.map_map]
    rfl
  rw [if_neg (fun h => hbehind (UInt32.lt_iff_toNat_lt.mpr h))]
  simp only [if_neg hbehind, hwalk, storeAllEvicted_eq hlen]
  rw [map_oldest, map_oldest, List.map_append, List.map_append, hindices, hgap]
  rw [Receiver.kept, receiver_skipped, List.map_map, List.map_map]
  rfl

end Thumos.Megolm
