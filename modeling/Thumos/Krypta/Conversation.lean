import Thumos.Krypta.Session
import Thumos.Lib.GuardedRun

/-!
# Conversations

A pair of sessions with a network between them that may lose, repeat, reorder and
invent messages.  Beside the sessions a conversation records what was sent, what was
delivered, and which kept keys were pushed out.
-/

namespace Thumos.Krypta

open Ascii SkipRatchet StateExcept GuardedRun Function Session UInt32

inductive Party where
  | initiator
  | responder
  deriving DecidableEq

def Party.peer : Party → Party
  | .initiator => .responder
  | .responder => .initiator

/-- What happened to the messages of one party.  The message with counter `i` is the
`i`-th of `sent`. -/
structure History where
  /-- Ciphertext and plaintext. -/
  sent : List (List UInt8 × List UInt8)
  delivered : List (Nat × List UInt8)
  /-- The counters whose keys `store_skipped` has dropped. -/
  evicted : List Nat

structure Conversation (π : Primitives) where
  session : Party → Session π
  history : Party → History

inductive Event where
  /-- The party encrypts a text. -/
  | send (party : Party) (plaintext : List UInt8)
  /-- The network hands a message to the party. -/
  | receive (party : Party) (msg : EncryptedMessage)

namespace Conversation

variable {π : Primitives}

def start (initiator responder : Session π) : Conversation π where
  session
    | .initiator => initiator
    | .responder => responder
  history _ := ⟨[], [], []⟩

def step (conv : Conversation π) : Event → Conversation π
  | .send party plaintext =>
    let history := conv.history party
    match (conv.session party).encryptMessage plaintext with
    | (.error _, s) => { conv with session := Function.update conv.session party s }
    | (.ok msg, s) => {
        session := Function.update conv.session party s
        history := Function.update conv.history party
          { history with sent := history.sent ++ [(msg.inner.ciphertext, plaintext)] } }
  | .receive party msg =>
    let history := conv.history party.peer
    match (conv.session party).decryptMessage msg with
    | (.error _, s) => { conv with session := Function.update conv.session party s }
    | (.ok plaintext, s) => {
        session := Function.update conv.session party s
        history := Function.update conv.history party.peer {
          history with
          delivered := history.delivered ++ [(msg.inner.counter.toNat, plaintext)]
          evicted := history.evicted ++
            (evictedBy π (conv.session party).recvRatchet msg.inner).map UInt32.toNat } }

variable (root : Party → Key)

/-- One of the parties has sealed this text under this key and nonce. -/
def Sealed (conv : Conversation π) (key : Key) (nonce ciphertext plaintext : List UInt8) : Prop :=
  ∃ party i, (conv.history party).sent[i]? = some (ciphertext, plaintext) ∧
    messageKey π (root party) i = key ∧ counterNonce (UInt32.ofNat i) = nonce

/-- A party sends fewer than `2^32` messages.  The network can show a party what it likes,
but what opens under a key of the conversation was sealed under it. -/
def Allowed (conv : Conversation π) : Event → Prop
  | .send party _ => (conv.history party).sent.length + 1 < 2 ^ 32
  | .receive party msg =>
    let key := messageKey π (root party.peer) msg.inner.counter.toNat
    let nonce := counterNonce msg.inner.counter
    ∀ plaintext, π.decryptInPlace key nonce msg.inner.ciphertext = some plaintext →
      conv.Sealed root key nonce msg.inner.ciphertext plaintext

end Conversation

variable {π : Primitives}

/-! ## The invariant -/

@[simp] theorem Party.peer_peer (p : Party) : p.peer.peer = p := by cases p <;> rfl

theorem Party.peer_ne (p : Party) : p.peer ≠ p := by cases p <;> decide

theorem Party.eq_peer {p q : Party} (h : q ≠ p) : q = p.peer := by
  cases p <;> cases q <;> first | rfl | exact absurd rfl h

namespace Conversation

variable {root : Party → Key} {conv : Conversation π}

def channel (conv : Conversation π) (p : Party) :
    Channel Key Key (List UInt8) (List UInt8) where
  sent := (conv.history p).sent
  receiver := (conv.session p.peer).recvRatchet.receiver
  delivered := (conv.history p).delivered
  evicted := (conv.history p).evicted

structure Sends (root : Party → Key) (conv : Conversation π) : Prop where
  sending : ∀ p, Sending π (root p) (conv.session p).sendRatchet (conv.history p).sent
  count : ∀ p, (conv.history p).sent.length < 2 ^ 32

structure Sound (root : Party → Key) (conv : Conversation π) : Prop extends Sends root conv where
  channel : ∀ p, (conv.channel p).Sound (scheme π) (root p) 0

variable {p : Party} {c text : List UInt8} {msg : EncryptedMessage} {conv' : Conversation π}

theorem honest_iff {i : Nat} :
    (conv.channel p).Honest 0 i c text ↔ (conv.history p).sent[i]? = some (c, text) := by
  simp [Channel.Honest, channel]

theorem Sends.toNat_index (h : Sends root conv) {i : Nat}
    (hsent : (conv.history p).sent[i]? = some (c, text)) : (ofNat i).toNat = i :=
  toNat_ofNat_of_lt' (lt_trans (getElem?_eq_some_iff.mp hsent).1 (h.count p))

/-- What the network may show a party is not forged, since the two directions have
different keys and the counter is the nonce. -/
theorem Sound.unforged (h : Sound root conv) (hπ : π.Ideal)
    (hroot : root .initiator ≠ root .responder) (hallowed : conv.Allowed root (.receive p msg)) :
    (conv.channel p.peer).Unforged (scheme π) (root p.peer) 0 msg.inner.counter.toNat
      msg.inner.ciphertext := by
  intro _ text hopen
  rw [scheme_openWith, aeadOpen_eq_ok] at hopen
  obtain ⟨q, i, hsent, hkey, hnonce⟩ := hallowed text hopen
  have hi := h.toNat_index hsent
  rw [counterNonce_inj hnonce] at hi
  subst hi
  have hq : root q = root p.peer := messageKey_inj hπ hkey
  have hqp : q = p.peer := by
    cases p <;> cases q <;> first | rfl | exact absurd hq hroot | exact absurd hq.symm hroot
  subst hqp
  exact honest_iff.mpr hsent

theorem Sends.start {initiator responder : Session π}
    (hsend : initiator.sendRatchet = .new (root .initiator))
    (hsend' : responder.sendRatchet = .new (root .responder)) :
    Sends root (Conversation.start initiator responder) where
  sending := by
    intro p
    cases p with
    | initiator => exact hsend ▸ Sending.new _
    | responder => exact hsend' ▸ Sending.new _
  count := fun _ => by
    change 0 < 2 ^ 32
    omega

theorem Sound.start {initiator responder : Session π}
    (hsend : initiator.sendRatchet = .new (root .initiator))
    (hrecv : initiator.recvRatchet = .new (root .responder))
    (hsend' : responder.sendRatchet = .new (root .responder))
    (hrecv' : responder.recvRatchet = .new (root .initiator)) :
    Sound root (Conversation.start initiator responder) where
  toSends := Sends.start hsend hsend'
  channel := by
    intro p
    cases p with
    | initiator =>
      refine Channel.Sound.start _ ?_ ?_
      · exact hrecv' ▸ receiver_new _
      · exact congrArg (fun r => r.receiver.position) hrecv'
    | responder =>
      refine Channel.Sound.start _ ?_ ?_
      · exact hrecv ▸ receiver_new _
      · exact congrArg (fun r => r.receiver.position) hrecv

inductive SendStep (conv : Conversation π) (p : Party) (text : List UInt8) :
    Conversation π → Prop where
  | refused : SendStep conv p text conv
  | sent {m : CiphertextMessage} {ratchet : RatchetState} :
    encrypt π (conv.session p).sendRatchet text = (.ok m, ratchet) →
    SendStep conv p text
      ⟨Function.update conv.session p { conv.session p with sendRatchet := ratchet },
        Function.update conv.history p
          { conv.history p with sent := (conv.history p).sent ++ [(m.ciphertext, text)] }⟩

theorem step_send (conv : Conversation π) (p : Party) (text : List UInt8) :
    SendStep conv p text (conv.step (.send p text)) := by
  rw [step, encryptMessage]
  cases hencrypt : encrypt π (conv.session p).sendRatchet text with
  | mk answer ratchet =>
    cases answer with
    | error e =>
      have hsame := encrypt_error hencrypt
      subst hsame
      simp only [update_eq_self]
      exact .refused
    | ok m => exact .sent hencrypt

theorem Sends.send (h : Sends root conv) (hallowed : conv.Allowed root (.send p text))
    (hstep : SendStep conv p text conv') :
    Sends root conv' := by
  cases hstep with
  | refused => exact h
  | sent hencrypt =>
    refine ⟨fun q => ?_, fun q => ?_⟩
    · by_cases hq : q = p
      · subst hq
        simp only [update_self]
        exact (h.sending q).encrypt hencrypt
      · simp only [update_of_ne hq]
        exact h.sending q
    · by_cases hq : q = p
      · subst hq
        simp only [update_self, List.length_append, List.length_singleton]
        exact hallowed
      · simp only [update_of_ne hq]
        exact h.count q

theorem SendStep.recvRatchet (hstep : SendStep conv p text conv') (q : Party) :
    (conv'.session q).recvRatchet = (conv.session q).recvRatchet := by
  cases hstep with
  | refused => rfl
  | sent _ =>
    by_cases hq : q = p
    · subst hq
      simp only [update_self]
    · simp only [update_of_ne hq]

theorem channel_send (conv : Conversation π) (p : Party) (ratchet : RatchetState)
    (c text : List UInt8) :
    channel ⟨update conv.session p { conv.session p with sendRatchet := ratchet },
      update conv.history p
        { conv.history p with sent := (conv.history p).sent ++ [(c, text)] }⟩ p =
      (conv.channel p).send c text := by
  simp only [channel, Channel.send, update_self, update_of_ne p.peer_ne]

theorem channel_send_peer (conv : Conversation π) (p : Party) (ratchet : RatchetState)
    (history : History) :
    channel ⟨update conv.session p { conv.session p with sendRatchet := ratchet },
      update conv.history p history⟩ p.peer = conv.channel p.peer := by
  simp only [channel, Party.peer_peer, update_self, update_of_ne p.peer_ne]

theorem Sound.send (h : Sound root conv) (hπ : π.Ideal)
    (hallowed : conv.Allowed root (.send p text)) (hstep : SendStep conv p text conv') :
    Sound root conv' := by
  refine ⟨h.toSends.send hallowed hstep, fun q => ?_⟩
  cases hstep with
  | refused => exact h.channel q
  | sent hencrypt =>
    by_cases hq : q = p
    · subst hq
      rw [channel_send]
      have hopen := hπ.decrypt_encrypt _ _ _ _ (encrypt_ok hencrypt).1
      rw [(h.sending q).chain, (h.sending q).counter] at hopen
      refine (h.channel q).send ?_
      rw [zero_add]
      exact aeadOpen_eq_ok.mpr hopen
    · rw [Party.eq_peer hq, channel_send_peer]
      exact h.channel p.peer

theorem channel_receive (conv : Conversation π) (p : Party) (session : Session π)
    (history : History) :
    channel ⟨update conv.session p session,
      update conv.history p.peer history⟩ p = conv.channel p := by
  simp only [channel, update_of_ne p.peer_ne, update_of_ne p.peer_ne.symm]

theorem channel_receive_peer (conv : Conversation π) (p : Party) (session : Session π)
    (history : History) :
    channel ⟨update conv.session p session,
      update conv.history p.peer history⟩ p.peer =
      ⟨history.sent, session.recvRatchet.receiver, history.delivered, history.evicted⟩ := by
  simp only [channel, Party.peer_peer, update_self]

theorem Sound.bound (h : Sound root conv) (p : Party) :
    (conv.session p).recvRatchet.skipped.length ≤ maxSkippedKeys := by
  have hbound := (h.channel p.peer).receiver.bound
  rw [Conversation.channel, Party.peer_peer, receiver_skipped, List.length_map] at hbound
  exact hbound

section

variable (h : Sound root conv) (hπ : π.Ideal) (hroot : root .initiator ≠ root .responder)
  (hallowed : conv.Allowed root (.receive p msg))

include h hπ hroot hallowed

theorem Sound.receive_eq :
    (decrypt π (conv.session p).recvRatchet msg.inner).map id RatchetState.receiver =
      (conv.channel p.peer).receiver.receive (scheme π) msg.inner.counter.toNat
        msg.inner.ciphertext := by
  have hreceiver : (conv.channel p.peer).receiver = (conv.session p).recvRatchet.receiver := by
    rw [Conversation.channel, Party.peer_peer]
  rw [hreceiver]
  refine decrypt_refines _ _ (h.bound p) ?_
  intro text r hok
  rw [← hreceiver] at hok
  have hhonest := ((h.channel p.peer).receive_genuine (h.unforged hπ hroot hallowed) hok).1
  have hlt := hhonest.lt
  have hcount := h.count p.peer
  rw [zero_add] at hlt
  exact lt_of_le_of_lt hlt hcount

theorem Sound.receive :
    Sound root (conv.step (.receive p msg)) := by
  have hdeliver := (h.channel p.peer).deliver (h.unforged hπ hroot hallowed)
  have heq := h.receive_eq hπ hroot hallowed
  rw [Channel.deliver, ← heq] at hdeliver
  rw [step, decryptMessage]
  cases hdecrypt : decrypt π (conv.session p).recvRatchet msg.inner with
  | mk answer ratchet =>
    cases answer with
    | error e =>
      have hsame := (decrypt_error hdecrypt).2
      subst hsame
      simp only [update_eq_self]
      exact h
    | ok text =>
      rw [hdecrypt] at hdeliver
      refine ⟨⟨fun q => ?_, fun q => ?_⟩, fun q => ?_⟩
      · have hsending := h.sending q
        by_cases hq : q = p
        · subst hq
          simp only [update_self, update_of_ne q.peer_ne.symm]
          exact hsending
        · rw [Party.eq_peer hq] at hsending ⊢
          simp only [update_self, update_of_ne p.peer_ne]
          exact hsending
      · have hcount := h.count q
        by_cases hq : q = p.peer
        · subst hq
          simp only [update_self]
          exact hcount
        · simp only [update_of_ne hq]
          exact hcount
      · by_cases hq : q = p
        · subst hq
          rw [channel_receive]
          exact h.channel q
        · rw [Party.eq_peer hq, channel_receive_peer, evictedBy_eq _ _ (h.bound p)]
          simp only [Prod.map_apply, id_eq, Conversation.channel, Party.peer_peer] at hdeliver
          exact hdeliver

end

/-! ## What a conversation delivers -/

theorem decrypt_refuses {state : RatchetState} {m : CiphertextMessage} {e : Error}
    {r : Receiver Key Key} (hbound : state.skipped.length ≤ maxSkippedKeys)
    (h : state.receiver.receive (scheme π) m.counter.toNat m.ciphertext = (.error e, r)) :
    (decrypt π state m).1 = .error e := by
  have hrefines := decrypt_refines (π := π) state m hbound (by
    intro text r' hok
    cases h.symm.trans hok)
  rw [h] at hrefines
  exact congrArg Prod.fst hrefines

theorem decryptMessage_error {session : Session π} {e : Error}
    (h : (decrypt π session.recvRatchet msg.inner).1 = .error e) :
    session.decryptMessage msg = (.error .decryption, session) := by
  rw [decryptMessage]
  cases hdecrypt : decrypt π session.recvRatchet msg.inner with
  | mk answer ratchet =>
    rw [hdecrypt] at h
    cases h
    obtain ⟨rfl, rfl⟩ := decrypt_error hdecrypt
    rfl

theorem decryptMessage_ok {session : Session π}
    (h : (decrypt π session.recvRatchet msg.inner).1 = .ok text) :
    ∃ session', session.decryptMessage msg = (.ok text, session') := by
  rw [decryptMessage]
  cases hdecrypt : decrypt π session.recvRatchet msg.inner with
  | mk answer ratchet =>
    rw [hdecrypt] at h
    cases h
    exact ⟨_, rfl⟩

structure Delivers (root : Party → Key) (conv : Conversation π) (p : Party) : Prop where
  /-- A message opens as long as it was not delivered, is near enough, and has its key. -/
  opens : ∀ i c text, (conv.history p).sent[i]? = some (c, text) →
    i ≤ (conv.session p.peer).recvRatchet.counter.toNat + maxSkipAhead.toNat →
    i ∉ (conv.history p).evicted → i ∉ (conv.history p).delivered.map Prod.fst →
    ∃ session, (conv.session p.peer).decryptMessage ⟨⟨UInt32.ofNat i, c⟩⟩ = (.ok text, session)
  /-- What was delivered was sent, and is delivered once. -/
  genuine : ∀ d ∈ (conv.history p).delivered, ∃ c, (conv.history p).sent[d.1]? = some (c, d.2)
  once : ((conv.history p).delivered.map Prod.fst).Nodup
  replay : ∀ msg : EncryptedMessage,
    msg.inner.counter.toNat ∈ (conv.history p).delivered.map Prod.fst →
    (conv.session p.peer).decryptMessage msg = (.error .decryption, conv.session p.peer)
  forgery : ∀ msg : EncryptedMessage, conv.Allowed root (.receive p.peer msg) →
    (∀ text, (conv.history p).sent[msg.inner.counter.toNat]? ≠ some (msg.inner.ciphertext, text)) →
    (conv.session p.peer).decryptMessage msg = (.error .decryption, conv.session p.peer)
  bounded : (conv.session p.peer).recvRatchet.skipped.length ≤ maxSkippedKeys

theorem Sends.allowed (h : Sends root conv) (hπ : π.Ideal) {i : Nat}
    (hsent : (conv.history p).sent[i]? = some (c, text)) :
    conv.Allowed root (.receive p.peer ⟨⟨ofNat i, c⟩⟩) := by
  intro text' hopen
  simp only [Party.peer_peer, h.toNat_index hsent] at hopen ⊢
  have hseal := (h.sending p).sealed i c text hsent
  rw [hπ.decrypt_encrypt _ _ _ _ hseal] at hopen
  cases hopen
  exact ⟨p, i, hsent, rfl, rfl⟩

theorem Sound.delivers (h : Sound root conv) (hπ : π.Ideal)
    (hroot : root .initiator ≠ root .responder) (p : Party) : Delivers root conv p where
  opens := by
    intro i c text hsent hnear hkept hnew
    have hreceive := h.receive_eq hπ hroot (h.toSends.allowed hπ hsent)
    rw [Party.peer_peer, h.toNat_index hsent] at hreceive
    rw [(h.channel p).receive_honest (honest_iff.mpr hsent) hnear hkept hnew] at hreceive
    exact decryptMessage_ok (congrArg Prod.fst hreceive)
  genuine := by
    intro d hd
    obtain ⟨c, hc⟩ := (h.channel p).genuine d hd
    exact ⟨c, honest_iff.mp hc⟩
  once := (h.channel p).once
  replay := by
    intro msg hmem
    obtain ⟨err, herr⟩ := (h.channel p).receive_delivered (c := msg.inner.ciphertext) hmem
    exact decryptMessage_error (decrypt_refuses (h.bound p.peer) herr)
  forgery := by
    intro msg hallowed hnot
    have hreceive := h.receive_eq hπ hroot hallowed
    have hunforged := h.unforged hπ hroot hallowed
    rw [Party.peer_peer] at hreceive hunforged
    cases hanswer : (decrypt π (conv.session p.peer).recvRatchet msg.inner).1 with
    | error e => exact decryptMessage_error hanswer
    | ok text =>
      have hok : (conv.channel p).receiver.receive (scheme π) msg.inner.counter.toNat
          msg.inner.ciphertext =
            (.ok text, (decrypt π (conv.session p.peer).recvRatchet msg.inner).2.receiver) := by
        rw [← hreceive, ← hanswer]
        rfl
      have hhonest := ((h.channel p).receive_genuine hunforged hok).1
      exact absurd (honest_iff.mp hhonest) (hnot text)
  bounded := h.bound p.peer

/-! ## Sessions that do not match -/

theorem decrypt_new_error {k : Key} {msg : CiphertextMessage}
    (hopen : π.decryptInPlace (messageKey π k msg.counter.toNat) (counterNonce msg.counter)
      msg.ciphertext = none) :
    ∃ e, (decrypt π (.new k) msg).1 = .error e := by
  have hrefused : ∃ e r, (RatchetState.new k).receiver.receive (scheme π) msg.counter.toNat
      msg.ciphertext = (.error e, r) := by
    rcases (receiver_new (π := π) k).receive_eq (i := msg.counter.toNat) (c := msg.ciphertext) with
      ⟨e, -, heq⟩ | ⟨-, heq⟩
    · exact ⟨e, _, heq⟩
    · rw [scheme_openWith] at heq
      have herror : aeadOpen π (messageKey π k msg.counter.toNat) msg = .error .decryption := by
        rw [aeadOpen, hopen]
      rw [show (scheme π).key ((scheme π).chainAt k (msg.counter.toNat - 0)) msg.counter.toNat =
        messageKey π k msg.counter.toNat from rfl, herror] at heq
      exact ⟨_, _, heq⟩
  obtain ⟨e, r, heq⟩ := hrefused
  exact ⟨e, decrypt_refuses (Nat.zero_le _) heq⟩

theorem Sends.mismatch (h : Sends root conv) (hπ : π.Ideal) {k : Key}
    (hrecv : (conv.session p.peer).recvRatchet = .new k) (hk : k ≠ root p) {i : Nat}
    (hsent : (conv.history p).sent[i]? = some (c, text)) :
    (conv.session p.peer).decryptMessage ⟨⟨ofNat i, c⟩⟩ =
      (.error .decryption, conv.session p.peer) := by
  have hclosed : π.decryptInPlace (messageKey π k (ofNat i).toNat)
      (counterNonce (ofNat i)) c = none := by
    rw [h.toNat_index hsent]
    refine hπ.decrypt_other _ _ _ _ _ ((h.sending p).sealed i c text hsent) ?_
    exact fun hkey => hk (messageKey_inj hπ hkey)
  obtain ⟨e, he⟩ : ∃ e, (decrypt π (.new k) ⟨ofNat i, c⟩).1 = .error e :=
    decrypt_new_error hclosed
  rw [← hrecv] at he
  exact decryptMessage_error he

def roots (conv : Conversation π) (p : Party) : Key := (conv.session p).sendRatchet.chainKey

end Conversation

def Event.IsSend : Event → Prop
  | .send _ _ => True
  | .receive _ _ => False

/-! ## Sessions of one key agreement -/

open Conversation

section

variable {identity peer : IdentityKeyPair π} {bundle : PreKeyBundle} {owned : OwnedBundle}
  {entropy entropy' : Option Key} {alice bob : Session π} {msg : InitiatorMessage}

theorem initiate_ok (h : initiate identity bundle entropy entropy' = .ok alice) :
    ∃ ikm msg, initiatorMaterial π identity bundle entropy entropy' = .ok (ikm, msg) ∧
      alice.initiatorMsg = some msg ∧
      alice.sendRatchet = .new (deriveKeys π ikm).2.initiatorToResponder ∧
      alice.recvRatchet = .new (deriveKeys π ikm).2.responderToInitiator := by
  obtain ⟨_, hsession, h⟩ := result_bind_eq_ok.mp h
  obtain ⟨⟨ikm, msg⟩, hmaterial, hsession⟩ := result_bind_eq_ok.mp hsession
  cases hsession
  cases h
  exact ⟨ikm, msg, hmaterial, rfl, rfl, rfl⟩

theorem respond_ok (h : respond peer owned msg = .ok bob) :
    ∃ ikm, responderMaterial π owned msg = .ok ikm ∧
      bob.sendRatchet = .new (deriveKeys π ikm).2.responderToInitiator ∧
      bob.recvRatchet = .new (deriveKeys π ikm).2.initiatorToResponder := by
  obtain ⟨_, hsession, h⟩ := result_bind_eq_ok.mp h
  obtain ⟨ikm, hmaterial, hsession⟩ := result_bind_eq_ok.mp hsession
  cases hsession
  cases h
  exact ⟨ikm, hmaterial, rfl, rfl⟩

theorem respond_error {e : Error} (h : responderMaterial π owned msg = .error e) :
    respond peer owned msg = .error e := by
  rw [respond, respondSession, h]
  rfl

theorem respond_of_material (peer : IdentityKeyPair π) {ikm : List UInt8}
    (h : responderMaterial π owned msg = .ok ikm) :
    ∃ bob, respond peer owned msg = .ok bob := by
  rw [respond, respondSession, h]
  exact ⟨_, rfl⟩

def NoCollision (identity : IdentityKeyPair π) (bundle : PreKeyBundle) (owned : OwnedBundle)
    (entropy entropy' : Option Key) : Prop :=
  ∀ ikm msg ikm' info, initiatorMaterial π identity bundle entropy entropy' = .ok (ikm, msg) →
    responderMaterial π owned msg = .ok ikm' →
    π.hkdf hkdfSalt ikm info = π.hkdf hkdfSalt ikm' info → ikm = ikm'

theorem run_sound {root : Party → Key} {conv : Conversation π} (hπ : π.Ideal)
    (hroot : root .initiator ≠ root .responder) (hstart : Sound root (start alice bob))
    (hrun : Runs step (Allowed root) (start alice bob) conv) : Sound root conv := by
  refine hrun.invariant hstart ?_
  intro conv event h hallowed
  cases event with
  | send p text => exact h.send hπ hallowed (step_send conv p text)
  | receive p msg => exact h.receive hπ hroot hallowed

theorem run_sends {root : Party → Key} {conv : Conversation π}
    (hstart : Sends root (start alice bob))
    (hrun : Runs step (fun conv event => event.IsSend ∧ conv.Allowed root event)
      (start alice bob) conv) :
    Sends root conv ∧
      ∀ p, (conv.session p).recvRatchet = ((start alice bob).session p).recvRatchet := by
  refine hrun.invariant (I := fun conv => Sends root conv ∧
    ∀ p, (conv.session p).recvRatchet = ((start alice bob).session p).recvRatchet)
    ⟨hstart, fun _ => rfl⟩ ?_
  rintro conv event ⟨h, hrecv⟩ ⟨hsend, hallowed⟩
  cases event with
  | send p text =>
    have hstep := step_send conv p text
    exact ⟨h.send hallowed hstep, fun q => (hstep.recvRatchet q).trans (hrecv q)⟩
  | receive p msg => exact hsend.elim

end

/-! ## A pair of sessions -/

def transparent : Primitives where
  hmacSha256 k label := k.map (· + label.headD 0)
  hkdf _ ikm info := Vector.ofFn fun i => if i.val = 0 then info.headD 0 else ikm.getD (95 + i) 0
  encryptInPlace k nonce p := some (k.toList ++ (nonce ++ p))
  decryptInPlace k nonce c :=
    if (k.toList ++ nonce).isPrefixOf c then some (c.drop (32 + nonce.length)) else none
  diffieHellman a b := Vector.zipWith (· + ·) a b
  x25519Public k := k
  verifyingKey k := k
  toScalarBytes k := k
  isPoint _ := true
  toMontgomery k := k
  sign _ _ := List.replicate 64 0
  verifyStrict _ _ _ := true

theorem transparent_ideal : transparent.Ideal where
  diffieHellman_comm a b := by
    refine Vector.ext fun i hi => ?_
    simp [transparent, UInt8.add_comm]
  diffieHellman_inj a b b' h := by
    refine Vector.ext fun i hi => ?_
    have hi' := congrArg (fun v => v[i]) h
    simpa [transparent] using hi'
  isPoint_verifyingKey _ := rfl
  toMontgomery_verifyingKey _ := rfl
  decrypt_encrypt k n p c h := by
    cases h
    simp [transparent, ← List.append_assoc]
  decrypt_other k k' n p c h hk := by
    cases h
    refine if_neg fun h => hk ?_
    have hprefix := (List.prefix_append k'.toList n).trans (List.isPrefixOf_iff_prefix.mp h)
    have hprefix' := List.prefix_of_prefix_length_le hprefix (List.prefix_append k.toList _)
      (by simp)
    exact Vector.toList_inj.mp (hprefix'.eq_of_length (by simp))
  hmac_inj k k' label h := by
    refine Vector.ext fun i hi => ?_
    have hi' := congrArg (fun v => v[i]) h
    simpa [transparent] using hi'
  hkdf_directions ikm h := by
    have h0 := congrArg (fun v => v[0]) h
    simp [transparent] at h0
    revert h0
    decide

def sampleIdentity (b : UInt8) : IdentityKeyPair transparent :=
  ⟨Vector.replicate 32 b, Vector.replicate 32 b, rfl⟩

def sampleBundle (b : UInt8) : OwnedBundle where
  publicBundle := ⟨Vector.replicate 32 2, Vector.replicate 32 3, List.replicate 64 0,
    some (Vector.replicate 32 b)⟩
  signedPrekeyPrivate := Vector.replicate 32 3
  oneTimePrekeyPrivate := some (Vector.replicate 32 b)
  identityX25519Private := Vector.replicate 32 2

def sampleMessage : InitiatorMessage :=
  ⟨Vector.replicate 32 1, Vector.replicate 32 5, some (Vector.replicate 32 6)⟩

def sampleMaterial (b : UInt8) : List UInt8 :=
  List.replicate 32 4 ++ List.replicate 32 7 ++ List.replicate 32 8 ++ List.replicate 32 b

theorem sample_initiator :
    initiatorMaterial transparent (sampleIdentity 1) (sampleBundle 4).publicBundle
      (some (Vector.replicate 32 5)) (some (Vector.replicate 32 6)) =
        .ok (sampleMaterial 10, sampleMessage) := by
  decide +kernel

theorem sample_responder :
    responderMaterial transparent (sampleBundle 9) sampleMessage = .ok (sampleMaterial 15) := by
  decide +kernel

theorem sample_noCollision :
    NoCollision (sampleIdentity 1) (sampleBundle 4).publicBundle (sampleBundle 9)
      (some (Vector.replicate 32 5)) (some (Vector.replicate 32 6)) := by
  intro ikm msg ikm' info hikm hikm' hkey
  cases sample_initiator.symm.trans hikm
  cases sample_responder.symm.trans hikm'
  have hbyte := congrArg (fun v => v[1]) hkey
  simp [transparent, sampleMaterial] at hbyte

end Thumos.Krypta
