import Thumos.Lib.GuardedRun
import Thumos.Matrix.Megolm

/-!
# An outbound session and an inbound copy of it

The network may lose, repeat, reorder and change payloads, and show them in any room.
What it cannot do is make a tag: when the tag of a payload is right under the key of its
index, its body was tagged by the outbound session.
-/

namespace Thumos.Megolm

open LittleEndian SkipRatchet GuardedRun List UInt32

variable {π : Primitives}

/-! ## Payloads -/

def wire (π : Primitives) (keys : MegolmMessageKeys) (index : UInt32) (text : List UInt8) :
    List UInt8 :=
  let body := toBeBytes index ++ cbcEncrypt π keys.aesKey keys.iv text
  body ++ macOf π keys body

theorem fromBeBytes_toBeBytes (v : UInt32) : fromBeBytes (toBeBytes v) = v := by
  rw [fromBeBytes, toBeBytes, reverse_reverse, leValue_leBytes_of_lt v.toNat_lt,
    UInt32.ofNat_toNat]

@[simp] theorem toBeBytes_length (v : UInt32) : (toBeBytes v).length = megolmIndexLen := by
  rw [toBeBytes, length_reverse, leBytes_length]
  rfl

@[simp] theorem macOf_length (keys : MegolmMessageKeys) (body : List UInt8) :
    (macOf π keys body).length = megolmMacLen := by
  simp [macOf, megolmMacLen]

section

variable (keys : MegolmMessageKeys) (index : UInt32) (text : List UInt8)

theorem bodyOf_wire :
    bodyOf (wire π keys index text) = toBeBytes index ++ cbcEncrypt π keys.aesKey keys.iv text := by
  rw [bodyOf, wire, length_append, macOf_length, Nat.add_sub_cancel, take_left]

theorem tagOf_wire :
    tagOf (wire π keys index text) = macOf π keys (bodyOf (wire π keys index text)) := by
  rw [bodyOf_wire, tagOf, wire, length_append, macOf_length, Nat.add_sub_cancel,
    drop_left]

theorem indexOf_wire : indexOf (wire π keys index text) = index := by
  rw [indexOf, bodyOf_wire, ← toBeBytes_length index, take_left, fromBeBytes_toBeBytes]

theorem ciphertextOf_wire :
    ciphertextOf (wire π keys index text) = cbcEncrypt π keys.aesKey keys.iv text := by
  rw [ciphertextOf, bodyOf_wire, ← toBeBytes_length index, drop_left]

theorem wire_length_ge : megolmIndexLen + megolmMacLen ≤ (wire π keys index text).length := by
  rw [wire, length_append, length_append, toBeBytes_length, macOf_length]
  omega

end

def Primitives.Inverts (π : Primitives) : Prop :=
  ∀ key iv text, cbcDecrypt π key iv (cbcEncrypt π key iv text) = .ok text

theorem openPayload_wire (hπ : π.Inverts) (keys : MegolmMessageKeys) (index : UInt32)
    (text : List UInt8) : openPayload π keys (wire π keys index text) = .ok text := by
  rw [openPayload, if_neg (not_not.mpr (tagOf_wire keys index text).symm), ciphertextOf_wire]
  exact hπ _ _ _

theorem bodyOf_append_tagOf (payload : List UInt8) : bodyOf payload ++ tagOf payload = payload :=
  take_append_drop _ payload

/-! ## Runs -/

/-- The two sessions with the history of their messages.  `sent` has payloads and texts. -/
structure Exchange where
  outbound : MegolmSession
  inbound : MegolmSession
  sent : List (List UInt8 × List UInt8)
  delivered : List (Nat × List UInt8)
  /-- The indices whose keys `store_skipped_megolm` has dropped. -/
  evicted : List Nat

inductive Event where
  | encrypt (plaintext : List UInt8)
  /-- A payload arrives in a room. -/
  | decrypt (payload : List UInt8) (room : String)

namespace Exchange

def start (outbound inbound : MegolmSession) : Exchange := ⟨outbound, inbound, [], [], []⟩

variable (π) in
def step (ex : Exchange) : Event → Exchange
  | .encrypt plaintext =>
    match encryptMegolm π ex.outbound plaintext with
    | (.error _, outbound) => { ex with outbound }
    | (.ok payload, outbound) => { ex with outbound, sent := ex.sent ++ [(payload, plaintext)] }
  | .decrypt payload room =>
    match decryptMegolm π ex.inbound payload room with
    | (.error _, inbound) => { ex with inbound }
    | (.ok plaintext, inbound) => {
        ex with
        inbound
        delivered := ex.delivered ++ [((indexOf payload).toNat, plaintext)]
        evicted := ex.evicted ++ (evictedBy π ex.inbound payload).map UInt32.toNat }

end Exchange

/-- The keys of index `i` of a session that had the ratchet key `root` at index `base`. -/
def keysAt (π : Primitives) (root : Key) (base i : Nat) : MegolmMessageKeys :=
  messageKeys π ((scheme π).chainAt root (i - base)) (UInt32.ofNat i)

/-- Tags are unforgeable: a body whose tag is right under a key of the session is one that
the outbound session has tagged. -/
def Unforgeable (π : Primitives) (root : Key) (base : Nat) (ex : Exchange) : Event → Prop
  | .encrypt _ => True
  | .decrypt payload _ =>
    let keys := keysAt π root base (indexOf payload).toNat
    base ≤ (indexOf payload).toNat → macOf π keys (bodyOf payload) = tagOf payload →
      ∃ sent ∈ ex.sent, bodyOf sent.1 = bodyOf payload

/-! ## The invariant -/

variable {root : Key} {base : Nat}

structure Sending (π : Primitives) (root : Key) (base : Nat) (outbound : MegolmSession)
    (sent : List (List UInt8 × List UInt8)) : Prop where
  key : outbound.sessionKey = (scheme π).chainAt root sent.length
  index : outbound.messageIndex.toNat = base + sent.length
  sealed : ∀ j c text, sent[j]? = some (c, text) →
    c = wire π (keysAt π root base (base + j)) (UInt32.ofNat (base + j)) text

variable {outbound outbound' : MegolmSession}

theorem encryptMegolm_ok {text payload : List UInt8}
    (h : encryptMegolm π outbound text = (.ok payload, outbound')) :
    outbound.messageIndex.toNat + 1 < 2 ^ 32 ∧
      payload = wire π (messageKeys π outbound.sessionKey outbound.messageIndex)
        outbound.messageIndex text ∧
      outbound' = { outbound with
        sessionKey := nextKey π outbound.sessionKey
        messageIndex := outbound.messageIndex + 1 } := by
  rw [encryptMegolm] at h
  simp only [deriveMegolmMessageKeys_eq, advanceMegolmRatchetKey_eq] at h
  split at h
  · cases h
  split at h
  · cases h
  have := outbound.messageIndex.toNat_lt
  cases h
  exact ⟨by omega, rfl, rfl⟩

theorem encryptMegolm_error {text : List UInt8} {e : CryptoError}
    (h : encryptMegolm π outbound text = (.error e, outbound')) :
    outbound' = outbound := by
  rw [encryptMegolm] at h
  simp only [deriveMegolmMessageKeys_eq, advanceMegolmRatchetKey_eq] at h
  split at h
  · cases h
    rfl
  split at h
  · cases h
    rfl
  · cases h

theorem Sending.encrypt {sent : List (List UInt8 × List UInt8)} {text payload : List UInt8}
    (h : Sending π root base outbound sent)
    (hok : encryptMegolm π outbound text = (.ok payload, outbound')) :
    Sending π root base outbound' (sent ++ [(payload, text)]) := by
  obtain ⟨hlast, rfl, rfl⟩ := encryptMegolm_ok hok
  refine ⟨?_, ?_, ?_⟩
  · rw [h.key, length_append]
    exact (Function.iterate_succ_apply' (nextKey π) sent.length root).symm
  · rw [length_append, length_singleton, ← Nat.add_assoc, ← h.index]
    exact Nat.mod_eq_of_lt hlast
  · intro j c text' hj
    rcases Nat.lt_trichotomy j sent.length with hlt | rfl | hgt
    · rw [getElem?_append_left hlt] at hj
      exact h.sealed j c text' hj
    · rw [getElem?_concat_length] at hj
      cases hj
      rw [keysAt, Nat.add_sub_cancel_left, ← h.key, ← h.index, UInt32.ofNat_toNat]
    · rw [getElem?_eq_none (by simp; omega)] at hj
      cases hj

namespace Exchange

variable {ex : Exchange}

def channel (ex : Exchange) : Channel Key MegolmMessageKeys (List UInt8) (List UInt8) :=
  ⟨ex.sent, ex.inbound.receiver, ex.delivered, ex.evicted⟩

structure Sound (π : Primitives) (root : Key) (base : Nat) (ex : Exchange) : Prop where
  channel : ex.channel.Sound (scheme π) root base
  sending : Sending π root base ex.outbound ex.sent

theorem Sound.count (h : Sound π root base ex) : base + ex.sent.length < 2 ^ 32 := by
  rw [← h.sending.index]
  exact ex.outbound.messageIndex.toNat_lt

variable {payload : List UInt8}

theorem Sound.unforged (h : Sound π root base ex) (hπ : π.Inverts) {room : String}
    (hguard : Unforgeable π root base ex (.decrypt payload room)) :
    ex.channel.Unforged (scheme π) root base (indexOf payload).toNat payload := by
  intro hbase text hopen
  have hkeys : (scheme π).key ((scheme π).chainAt root ((indexOf payload).toNat - base))
      (indexOf payload).toNat = keysAt π root base (indexOf payload).toNat := rfl
  rw [hkeys] at hopen
  change openPayload π _ payload = _ at hopen
  have htag : macOf π (keysAt π root base (indexOf payload).toNat) (bodyOf payload) =
      tagOf payload := by
    by_contra hne
    rw [openPayload, if_pos hne] at hopen
    cases hopen
  obtain ⟨⟨c, text'⟩, hmem, hbody⟩ := hguard hbase htag
  obtain ⟨j, hj⟩ := mem_iff_getElem?.mp hmem
  have hlt : base + j < 2 ^ 32 := by
    have := (List.getElem?_eq_some_iff.mp hj).1
    have := h.count
    omega
  have hwire := h.sending.sealed j c text' hj
  -- The index is part of the body that is tagged.
  have hindex : indexOf c = indexOf payload := by
    rw [indexOf, indexOf, hbody]
  have hij : (indexOf payload).toNat = base + j := by
    rw [← hindex, hwire, indexOf_wire, toNat_ofNat_of_lt' hlt]
  have htags : tagOf c = tagOf payload := by
    rw [← htag, ← hbody, hij, hwire]
    exact tagOf_wire _ _ _
  have hc : c = payload := by
    rw [← bodyOf_append_tagOf c, hbody, htags, bodyOf_append_tagOf]
  subst hc
  have htext : text = text' := by
    rw [hij, hwire, openPayload_wire hπ] at hopen
    exact (Except.ok.inj hopen).symm
  refine ⟨hbase, ?_⟩
  rw [hij, Nat.add_sub_cancel_left, htext]
  exact hj

theorem Sound.bound (h : Sound π root base ex) :
    ex.inbound.skipped.length ≤ megolmMaxSkippedKeys := by
  have hbound := h.channel.receiver.bound
  rw [Exchange.channel, receiver_skipped, length_map] at hbound
  exact hbound

theorem Sound.receive_eq (h : Sound π root base ex) (hπ : π.Inverts) {room : String}
    (hguard : Unforgeable π root base ex (.decrypt payload room))
    (hfits : Fits ex.inbound payload room) :
    (decryptMegolm π ex.inbound payload room).map id MegolmSession.receiver =
      ex.channel.receiver.receive (scheme π) (indexOf payload).toNat payload := by
  refine decryptMegolm_refines hfits h.bound ?_
  intro text r hok
  have hhonest := (h.channel.receive_genuine (h.unforged hπ hguard) hok).1
  exact lt_of_le_of_lt hhonest.lt h.count

theorem Sound.start {outbound inbound : MegolmSession}
    (hkey : inbound.sessionKey = outbound.sessionKey)
    (hindex : inbound.messageIndex = outbound.messageIndex) (hskipped : inbound.skipped = []) :
    Sound π outbound.sessionKey outbound.messageIndex.toNat (start outbound inbound) where
  channel := by
    have hreceiver : inbound.receiver = ⟨outbound.sessionKey, outbound.messageIndex.toNat, []⟩ := by
      rw [MegolmSession.receiver, hkey, hindex, hskipped]
      rfl
    refine Channel.Sound.start inbound.receiver ?_ (congrArg toNat hindex)
    rw [hreceiver]
    exact Receiver.Sound.fresh _ _
  sending := ⟨rfl, rfl, fun j c text hj => by cases hj⟩

theorem Sound.encrypt (h : Sound π root base ex) (hπ : π.Inverts) (text : List UInt8) :
    Sound π root base (ex.step π (.encrypt text)) := by
  rw [step]
  cases hencrypt : encryptMegolm π ex.outbound text with
  | mk answer outbound =>
    cases answer with
    | error e =>
      rw [encryptMegolm_error hencrypt]
      exact h
    | ok payload =>
      refine ⟨h.channel.send ?_, h.sending.encrypt hencrypt⟩
      obtain ⟨-, rfl, -⟩ := encryptMegolm_ok hencrypt
      rw [h.sending.key, ← UInt32.ofNat_toNat (x := ex.outbound.messageIndex), h.sending.index]
      exact openPayload_wire hπ _ _ _

theorem Sound.decrypt (h : Sound π root base ex) (hπ : π.Inverts) {room : String}
    (hguard : Unforgeable π root base ex (.decrypt payload room)) :
    Sound π root base (ex.step π (.decrypt payload room)) := by
  rw [step]
  cases hdecrypt : decryptMegolm π ex.inbound payload room with
  | mk answer inbound =>
    cases answer with
    | error e =>
      rw [decryptMegolm_error hdecrypt]
      exact h
    | ok text =>
      have hfits : Fits ex.inbound payload room := by
        by_contra hnot
        obtain ⟨e, he⟩ := decryptMegolm_of_not_fits (π := π) hnot
        cases he.symm.trans hdecrypt
      have hdeliver := h.channel.deliver (h.unforged hπ hguard)
      rw [Channel.deliver, ← h.receive_eq hπ hguard hfits, hdecrypt] at hdeliver
      refine ⟨?_, h.sending⟩
      rw [Exchange.channel, evictedBy_eq _ _ h.bound]
      exact hdeliver

theorem Sound.run {outbound inbound : MegolmSession} (hπ : π.Inverts)
    (hstart : Sound π root base (Exchange.start outbound inbound))
    (hrun : Runs (step π) (Unforgeable π root base) (Exchange.start outbound inbound) ex) :
    Sound π root base ex := by
  refine hrun.invariant hstart ?_
  intro ex event h hguard
  cases event with
  | encrypt text => exact h.encrypt hπ text
  | decrypt payload room => exact h.decrypt hπ hguard

/-! ## What is delivered -/

structure Delivers (π : Primitives) (base : Nat) (ex : Exchange) : Prop where
  /-- A message that is near enough ahead, or has its key in the cache, opens. -/
  opens : ∀ j payload text, ex.sent[j]? = some (payload, text) →
    payload.length ≤ megolmMaxPayloadLen →
    (ex.inbound.messageIndex.toNat ≤ base + j ∧
        base + j ≤ ex.inbound.messageIndex.toNat + megolmMaxSkipAhead.toNat ∨
      base + j ∈ ex.inbound.skipped.map fun k => k.index.toNat) →
    ∃ inbound, decryptMegolm π ex.inbound payload ex.inbound.roomId = (.ok text, inbound)
  /-- What was delivered was sent, and does not open again. -/
  genuine : ∀ d ∈ ex.delivered, ∃ payload, base ≤ d.1 ∧ ex.sent[d.1 - base]? = some (payload, d.2)
  once : (ex.delivered.map Prod.fst).Nodup
  later : ∀ payload room, (indexOf payload).toNat ∈ ex.delivered.map Prod.fst →
    ∃ e, decryptMegolm π ex.inbound payload room = (.error e, ex.inbound)
  /-- What the session has passed was delivered, is cached, or was dropped from the cache. -/
  accounted : ∀ i, base ≤ i → i < ex.inbound.messageIndex.toNat →
    i ∈ ex.delivered.map Prod.fst ∨ i ∈ (ex.inbound.skipped.map fun k => k.index.toNat) ∨
      i ∈ ex.evicted
  unchanged : ∀ payload room e inbound,
    decryptMegolm π ex.inbound payload room = (.error e, inbound) → inbound = ex.inbound
  bounded : ex.inbound.skipped.length ≤ megolmMaxSkippedKeys
  distinct : (ex.inbound.skipped.map SkippedMegolmKey.index).Nodup
  below : ∀ k ∈ ex.inbound.skipped, k.index < ex.inbound.messageIndex

theorem kept_eq (session : MegolmSession) :
    session.receiver.kept = session.skipped.map fun k => k.index.toNat := by
  rw [Receiver.kept, receiver_skipped, map_map]
  rfl

theorem unforgeable_of_sent {j : Nat} {payload text : List UInt8}
    (hj : ex.sent[j]? = some (payload, text)) (room : String) :
    Unforgeable π root base ex (.decrypt payload room) :=
  fun _ _ => ⟨_, mem_iff_getElem?.mpr ⟨j, hj⟩, rfl⟩

theorem Sound.delivers (h : Sound π root base ex) (hπ : π.Inverts) : Delivers π base ex where
  opens := by
    intro j payload text hj hlong hplace
    have hlt : base + j < 2 ^ 32 := by
      have := (List.getElem?_eq_some_iff.mp hj).1
      have := h.count
      omega
    have hwire := h.sending.sealed j payload text hj
    have hindex : (indexOf payload).toNat = base + j := by
      rw [hwire, indexOf_wire, toNat_ofNat_of_lt' hlt]
    have hfits : Fits ex.inbound payload ex.inbound.roomId := by
      refine ⟨rfl, ?_, hlong⟩
      rw [hwire]
      exact wire_length_ge _ _ _
    have hhonest : ex.channel.Honest base (base + j) payload text := by
      refine ⟨Nat.le_add_right _ _, ?_⟩
      rw [Nat.add_sub_cancel_left]
      exact hj
    have hreach : ex.channel.receiver.Reaches (scheme π) (base + j) := by
      rw [Receiver.Reaches,
        show ex.channel.receiver.position = ex.inbound.messageIndex.toNat from rfl]
      rcases hplace with ⟨hahead, hnear⟩ | hcached
      · rw [if_neg (Nat.not_lt.mpr hahead)]
        exact Nat.sub_le_iff_le_add'.mpr hnear
      have hkept : base + j ∈ ex.channel.receiver.kept := kept_eq ex.inbound ▸ hcached
      have hlow : base + j < ex.inbound.messageIndex.toNat :=
        (h.channel.receiver.kept_low hkept).2
      rw [if_pos hlow]
      exact hkept
    have hreceive := h.receive_eq hπ (unforgeable_of_sent hj _) hfits
    rw [hindex, h.channel.receiver.receive_of_opens hreach (h.channel.opens _ _ _ hhonest)]
      at hreceive
    have hanswer : (decryptMegolm π ex.inbound payload ex.inbound.roomId).1 = .ok text :=
      congrArg Prod.fst hreceive
    exact ⟨_, Prod.ext hanswer rfl⟩
  genuine := by
    intro d hd
    obtain ⟨payload, hbase, hsent⟩ := h.channel.genuine d hd
    exact ⟨payload, hbase, hsent⟩
  once := h.channel.once
  later := by
    intro payload room hmem
    by_cases hfits : Fits ex.inbound payload room
    · obtain ⟨e, he⟩ := h.channel.receive_delivered (c := payload) hmem
      have hreceive := decryptMegolm_refines (π := π) hfits h.bound (by
        intro text r hok
        cases he.symm.trans hok)
      rw [show ex.inbound.receiver = ex.channel.receiver from rfl, he] at hreceive
      cases hdecrypt : decryptMegolm π ex.inbound payload room with
      | mk answer inbound =>
        rw [hdecrypt] at hreceive
        cases congrArg Prod.fst hreceive
        rw [decryptMegolm_error hdecrypt]
        exact ⟨e, rfl⟩
    · exact decryptMegolm_of_not_fits hfits
  accounted := by
    rw [← kept_eq]
    exact h.channel.accounted
  unchanged := fun _ _ _ _ hdecrypt => decryptMegolm_error hdecrypt
  bounded := h.bound
  distinct := by
    have hnodup := h.channel.receiver.nodup
    rw [Exchange.channel, kept_eq] at hnodup
    refine List.Nodup.of_map toNat ?_
    rw [map_map]
    exact hnodup
  below := by
    intro k hk
    have hkept : k.index.toNat ∈ ex.channel.receiver.kept := by
      rw [Exchange.channel, kept_eq]
      exact mem_map_of_mem hk
    exact lt_iff_toNat_lt.mpr (h.channel.receiver.kept_low hkept).2

end Exchange

structure CopyOf (outbound inbound : MegolmSession) : Prop where
  key : inbound.sessionKey = outbound.sessionKey
  index : inbound.messageIndex = outbound.messageIndex
  room : inbound.roomId = outbound.roomId
  skipped : inbound.skipped = []

/-- Every message opens once in every run, and failures change nothing. -/
theorem megolm_delivers_once (hπ : π.Inverts) {outbound inbound : MegolmSession}
    (hcopy : CopyOf outbound inbound) {ex : Exchange}
    (hrun : Runs (Exchange.step π)
      (Unforgeable π outbound.sessionKey outbound.messageIndex.toNat)
      (Exchange.start outbound inbound) ex) :
    ex.Delivers π outbound.messageIndex.toNat := by
  have hstart := Exchange.Sound.start (π := π) hcopy.key hcopy.index hcopy.skipped
  exact (Exchange.Sound.run hπ hstart hrun).delivers hπ

/-! ## An exchange of two messages -/

def plain : Primitives where
  hmacSha256 k _ := k
  extract _ ikm := part 32 ikm 0
  expand prk _ n := List.replicate n (prk.toList.headD 0 + 1)
  encryptPadded _ _ p := p ++ List.replicate (15 - p.length % 16) 0 ++ [UInt8.ofNat (p.length % 16)]
  decryptPadded _ _ c := some (c.take (c.length - (16 - (c.getLastD 0).toNat)))

theorem plain_inverts : plain.Inverts := by
  intro key iv text
  have hlen : (plain.encryptPadded key iv text).length = 16 * (text.length / 16) + 16 := by
    simp [plain]
    omega
  have hlast : (plain.encryptPadded key iv text).getLastD 0 = UInt8.ofNat (text.length % 16) := by
    simp [plain, getLastD_eq_getLast?]
  have hbyte : (UInt8.ofNat (text.length % 16)).toNat = text.length % 16 :=
    UInt8.toNat_ofNat_of_lt' (Nat.lt_trans (Nat.mod_lt _ (by decide)) (by decide))
  have hopen : plain.decryptPadded key iv (plain.encryptPadded key iv text) = some text := by
    change some (take _ _) = _
    rw [hlast, hbyte, hlen, show 16 * (text.length / 16) + 16 - (16 - text.length % 16) =
      text.length by omega]
    change some (take text.length (text ++ _ ++ _)) = _
    rw [append_assoc, take_left]
  have hblocks : ¬((plain.encryptPadded key iv text).isEmpty ∨
      (plain.encryptPadded key iv text).length % aesBlockSize ≠ 0) := by
    rw [List.isEmpty_iff, ← length_eq_zero_iff, hlen, aesBlockSize]
    omega
  rw [cbcDecrypt, cbcEncrypt, if_neg hblocks, hopen]

def sampleSession : MegolmSession :=
  ⟨Vector.replicate 32 0, Vector.replicate 32 0, 5, "!room:example.com", []⟩

def sampleSent : Exchange :=
  [Event.encrypt [1], .encrypt [2]].foldl (Exchange.step plain)
    (Exchange.start sampleSession sampleSession)

def samplePayload (i : Nat) : List UInt8 := (sampleSent.sent.getD i default).1

def sampleArrivals : List Event :=
  [.decrypt (samplePayload 1) "!room:example.com", .decrypt (samplePayload 0) "!room:example.com"]

theorem megolm_delivers_once_swapped :
    plain.Inverts ∧ CopyOf sampleSession sampleSession ∧
      (sampleArrivals.foldl (Exchange.step plain) sampleSent).delivered = [(6, [2]), (5, [1])] ∧
      (sampleArrivals.foldl (Exchange.step plain) sampleSent).Delivers plain 5 := by
  have hsent : ∀ i < 2, sampleSent.sent[i]? = some (samplePayload i, [UInt8.ofNat (i + 1)]) := by
    decide +kernel
  have hsame : (sampleSent.step plain (.decrypt (samplePayload 1) "!room:example.com")).sent =
      sampleSent.sent := by decide +kernel
  have hdelivered : (sampleArrivals.foldl (Exchange.step plain) sampleSent).delivered =
      [(6, [2]), (5, [1])] := by decide +kernel
  have hrun : Runs (Exchange.step plain)
      (Unforgeable plain sampleSession.sessionKey sampleSession.messageIndex.toNat)
      (Exchange.start sampleSession sampleSession) sampleSent := by
    rw [sampleSent]
    exact Runs.start.foldl ⟨trivial, trivial, trivial⟩
  have hguarded : Guarded (Exchange.step plain)
      (Unforgeable plain sampleSession.sessionKey sampleSession.messageIndex.toNat)
      sampleSent sampleArrivals :=
    ⟨Exchange.unforgeable_of_sent (hsent 1 (by decide)) _,
      Exchange.unforgeable_of_sent (hsame ▸ hsent 0 (by decide)) _, trivial⟩
  refine ⟨plain_inverts, ⟨rfl, rfl, rfl, rfl⟩, hdelivered, ?_⟩
  exact megolm_delivers_once plain_inverts ⟨rfl, rfl, rfl, rfl⟩ (hrun.foldl hguarded)

end Thumos.Megolm
