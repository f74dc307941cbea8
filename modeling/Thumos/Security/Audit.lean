import Mathlib.Data.List.Induction
import Thumos.Lib.LittleEndian
import Thumos.Lib.Ring

/-!
# The audit log

A ring of entries, each with a tag over its content and the tag before it.  The
tag of the entry that was overwritten last is kept as the root of the chain, so
that the oldest retained entry is verified like the others.  HMAC-SHA256 is a
parameter.

The entries of all events, the overwritten ones included, are `chain`.  The ring
holds its last entries (`Logged`).
-/

namespace Thumos

open LittleEndian Nat

inductive AuditEventType where
  | authFail
  | capDeny
  | packetDeny
  | panicTrigger
  | identityLeak
  | switchChange
  | bootVerify
  | modeChange
  | duressAttempt
  | modemAnomaly
  | modemTraffic
  | packetLog
  | userFault
  deriving DecidableEq, Repr

def eventTypeDiscriminant : AuditEventType → UInt8
  | .authFail => 0
  | .capDeny => 1
  | .packetDeny => 2
  | .panicTrigger => 3
  | .identityLeak => 4
  | .switchChange => 5
  | .bootVerify => 6
  | .modeChange => 7
  | .duressAttempt => 8
  | .modemAnomaly => 9
  | .modemTraffic => 10
  | .packetLog => 11
  | .userFault => 12

theorem eventTypeDiscriminant_injective {a b : AuditEventType}
    (h : eventTypeDiscriminant a = eventTypeDiscriminant b) : a = b := by
  revert a b
  intro a b
  cases a <;> cases b <;> decide

abbrev detailLen : Nat := 64

/-- The size of an `AuditEntry` is 112 bytes: 110 bytes of fields, rounded up to
the alignment of the timestamp. -/
def maxEntries : Nat := 64 * 1024 / 112

instance : NeZero maxEntries := ⟨by decide⟩

abbrev Tag := Vector UInt8 32
abbrev AuditKey := Vector UInt8 32

def genesisHmac : Tag := Vector.replicate 32 0

def AuditKey.isZero (key : AuditKey) : Bool := key.toList.all (· == 0)

inductive AuditError where
  | noKey
  | chainTampered
  | empty
  deriving DecidableEq, Repr

structure AuditEntry where
  timestamp : UInt64
  eventType : AuditEventType
  pid : UInt32
  detail : Vector UInt8 detailLen
  detailLen : UInt8
  hmac : Tag
  deriving DecidableEq

structure AuditEvent where
  eventType : AuditEventType
  pid : UInt32
  detail : List UInt8
  timestamp : UInt64
  deriving DecidableEq

namespace AuditEntry

def serializeForHmac (e : AuditEntry) (prevHmac : Tag) : List UInt8 :=
  leBytes 8 e.timestamp.toNat ++ ([eventTypeDiscriminant e.eventType] ++
    (leBytes 4 e.pid.toNat ++ (e.detail.toList ++ prevHmac.toList)))

def event (e : AuditEntry) : AuditEvent where
  eventType := e.eventType
  pid := e.pid
  detail := e.detail.toList.take e.detailLen.toNat
  timestamp := e.timestamp

def covered (e : AuditEntry) :
    UInt64 × AuditEventType × UInt32 × Vector UInt8 Thumos.detailLen × Tag :=
  (e.timestamp, e.eventType, e.pid, e.detail, e.hmac)

end AuditEntry

/-- A longer detail is cut off. -/
def AuditEvent.recorded (ev : AuditEvent) : AuditEvent :=
  { ev with detail := ev.detail.take detailLen }

structure AuditLog where
  entries : Vector AuditEntry maxEntries
  head : Fin maxEntries
  count : Nat
  lastHmac : Tag
  rootHmac : Tag

section

variable (hmac : AuditKey → List UInt8 → Tag) (key : AuditKey)

def AuditEvent.entry (ev : AuditEvent) (prevHmac : Tag) : AuditEntry :=
  let copyLen := min ev.detail.length detailLen
  let entry : AuditEntry :=
    { timestamp := ev.timestamp
      eventType := ev.eventType
      pid := ev.pid
      detail := Vector.ofFn fun i => (ev.detail.take copyLen).getD i 0
      detailLen := UInt8.ofNat copyLen
      hmac := Vector.replicate 32 0 }
  { entry with hmac := hmac key (entry.serializeForHmac prevHmac) }

namespace AuditLog

def new : AuditLog where
  entries := Vector.replicate maxEntries
    { timestamp := 0
      eventType := .authFail
      pid := 0
      detail := Vector.replicate detailLen 0
      detailLen := 0
      hmac := Vector.replicate 32 0 }
  head := 0
  count := 0
  lastHmac := genesisHmac
  rootHmac := genesisHmac

def logEvent (log : AuditLog) (ev : AuditEvent) : Except AuditError Unit × AuditLog :=
  if key.isZero then (.error .noKey, log)
  else
    let entry := ev.entry hmac key log.lastHmac
    -- the tag of the entry that is overwritten becomes the root
    let root := if log.count = maxEntries then (log.entries.get log.head).hmac else log.rootHmac
    (.ok (),
      { entries := log.entries.set log.head entry
        head := Ring.next log.head
        count := if log.count < maxEntries then log.count + 1 else log.count
        lastHmac := entry.hmac
        rootHmac := root })

def start (log : AuditLog) : Nat := if log.count = maxEntries then log.head else 0

def retained (log : AuditLog) : List AuditEntry := Ring.window log.entries log.start log.count

def verifyFrom : Tag → List AuditEntry → Except AuditError Unit
  | _, [] => .ok ()
  | prevHmac, entry :: rest =>
    if entry.hmac ≠ hmac key (entry.serializeForHmac prevHmac) then .error .chainTampered
    else verifyFrom entry.hmac rest

def verifyChain (log : AuditLog) : Except AuditError Unit :=
  if log.count = 0 then .error .empty
  else if key.isZero then .error .noKey
  else
    let prevHmac := if log.count = maxEntries then log.rootHmac else genesisHmac
    verifyFrom hmac key prevHmac log.retained

def recent (log : AuditLog) (n : Nat) : List AuditEntry × List AuditEntry :=
  if log.count = 0 ∨ n = 0 then ([], [])
  else
    let n := min n log.count
    let start :=
      if log.head ≥ n then log.head - n
      else if log.count = maxEntries then maxEntries - (n - log.head)
      else 0
    let stop := log.head.val
    let entries := log.entries.toList
    if start < stop then ((entries.drop start).take (stop - start), [])
    else (entries.drop start, entries.take stop)

def logged (events : List AuditEvent) : AuditLog :=
  events.foldl (fun log ev => (log.logEvent hmac key ev).2) new

end AuditLog

end

open List

/-! ## The chain of all entries -/

def lastTag (prevHmac : Tag) (entries : List AuditEntry) : Tag :=
  (entries.getLast?.map (·.hmac)).getD prevHmac

@[simp]
theorem lastTag_nil (prevHmac : Tag) : lastTag prevHmac [] = prevHmac := rfl

@[simp]
theorem lastTag_concat (prevHmac : Tag) (entries : List AuditEntry) (e : AuditEntry) :
    lastTag prevHmac (entries ++ [e]) = e.hmac := by
  simp [lastTag]

theorem lastTag_cons (prevHmac : Tag) (e : AuditEntry) (entries : List AuditEntry) :
    lastTag prevHmac (e :: entries) = lastTag e.hmac entries := by
  cases entries with
  | nil => rfl
  | cons e' entries => simp [lastTag, getLast?_cons]

section

variable {hmac : AuditKey → List UInt8 → Tag} {key : AuditKey} {prevHmac : Tag}
  {log : AuditLog} {entries : List AuditEntry}

def chain (hmac : AuditKey → List UInt8 → Tag) (key : AuditKey) :
    Tag → List AuditEvent → List AuditEntry
  | _, [] => []
  | prevHmac, ev :: events =>
    ev.entry hmac key prevHmac :: chain hmac key (ev.entry hmac key prevHmac).hmac events

theorem chain_concat (events : List AuditEvent) (ev : AuditEvent) :
    chain hmac key prevHmac (events ++ [ev]) =
      chain hmac key prevHmac events ++
        [ev.entry hmac key (lastTag prevHmac (chain hmac key prevHmac events))] := by
  induction events generalizing prevHmac with
  | nil => rfl
  | cons ev' events ih =>
    rw [cons_append, chain, ih, chain, lastTag_cons]
    rfl

@[simp]
theorem length_chain (events : List AuditEvent) :
    (chain hmac key prevHmac events).length = events.length := by
  induction events generalizing prevHmac with
  | nil => rfl
  | cons ev events ih => rw [chain, length_cons, ih, length_cons]

theorem hmac_entry (ev : AuditEvent) : (ev.entry hmac key prevHmac).hmac =
      hmac key ((ev.entry hmac key prevHmac).serializeForHmac prevHmac) := rfl

theorem event_entry (ev : AuditEvent) : (ev.entry hmac key prevHmac).event = ev.recorded := by
  have hlen : (UInt8.ofNat (min ev.detail.length detailLen)).toNat =
      min ev.detail.length detailLen := by
    rw [UInt8.toNat_ofNat']
    refine mod_eq_of_lt ?_
    simp only [detailLen]
    omega
  unfold AuditEvent.entry AuditEntry.event AuditEvent.recorded
  congr 1
  rw [hlen]
  refine ext_getElem? fun i => ?_
  by_cases hi : i < min ev.detail.length detailLen
  · have hi' : i < detailLen := by omega
    have hlt : i < ev.detail.length := by omega
    rw [getElem?_take_of_lt hi, getElem?_take_of_lt hi', Vector.getElem?_toList,
      Vector.getElem?_eq_getElem hi', Vector.getElem_ofFn, getD_eq_getElem?_getD,
      getElem?_take_of_lt hi, getElem?_eq_getElem hlt]
    rfl
  · rw [getElem?_eq_none, getElem?_eq_none]
    · rw [length_take]
      omega
    · rw [length_take]
      omega

theorem map_event_chain (events : List AuditEvent) :
    (chain hmac key prevHmac events).map AuditEntry.event = events.map AuditEvent.recorded := by
  induction events generalizing prevHmac with
  | nil => rfl
  | cons ev events ih => rw [chain, map_cons, event_entry, ih, map_cons]

/-! ## Verification -/

namespace AuditLog

theorem verifyFrom_append (xs ys : List AuditEntry) :
    verifyFrom hmac key prevHmac (xs ++ ys) = .ok () ↔
      verifyFrom hmac key prevHmac xs = .ok () ∧
        verifyFrom hmac key (lastTag prevHmac xs) ys = .ok () := by
  induction xs generalizing prevHmac with
  | nil => simp [verifyFrom]
  | cons x xs ih =>
    rw [cons_append, verifyFrom, verifyFrom, lastTag_cons]
    split
    next => simp
    next => exact ih

theorem verifyFrom_chain (events : List AuditEvent) :
    verifyFrom hmac key prevHmac (chain hmac key prevHmac events) = .ok () := by
  induction events generalizing prevHmac with
  | nil => rfl
  | cons ev events ih =>
    rw [chain, verifyFrom, if_neg (not_not.mpr (hmac_entry ev))]
    exact ih

/-! ## The ring -/

structure Logged (log : AuditLog) (entries : List AuditEntry) : Prop where
  ring : Ring.Holds log.entries log.head log.count entries
  last : log.lastHmac = lastTag genesisHmac entries
  root : log.rootHmac = lastTag genesisHmac (entries.take (entries.length - maxEntries))

theorem logged_new : Logged new [] := ⟨Ring.holds_nil _, rfl, rfl⟩

theorem Logged.logEvent (h : Logged log entries) (hkey : key.isZero = false) (ev : AuditEvent) :
    Logged (log.logEvent hmac key ev).2
      (entries ++ [ev.entry hmac key (lastTag genesisHmac entries)]) := by
  have hcount := h.ring.count
  unfold AuditLog.logEvent
  rw [hkey, if_neg Bool.false_ne_true]
  rw [h.last]
  refine ⟨h.ring.push _, (lastTag_concat _ _ _).symm, ?_⟩
  rw [length_append, length_singleton]
  split
  next hfull =>
    -- the entry at the head is the oldest one
    have hpos := pos_of_neZero maxEntries
    have hle : maxEntries ≤ entries.length := by omega
    have hlt : entries.length - maxEntries < entries.length := by omega
    have hturn : entries.length ≤ entries.length - maxEntries + maxEntries := by omega
    have hcell := h.ring.cells (entries.length - maxEntries) hlt hturn
    have hmod : (entries.length - maxEntries) % maxEntries = log.head.val := by
      rw [h.ring.head, ← mod_eq_sub_mod hle]
    have htake : entries.length + 1 - maxEntries = entries.length - maxEntries + 1 := by omega
    rw [hmod, Vector.getElem?_eq_getElem log.head.isLt, getElem?_eq_getElem hlt,
      Option.some_inj] at hcell
    have hshort : entries.length - maxEntries + 1 ≤ entries.length := by omega
    rw [htake, take_append_of_le_length hshort, take_add_one,
      getElem?_eq_getElem hlt, Option.toList_some, lastTag_concat, ← hcell]
    rfl
  next hroom =>
    have hzero : entries.length + 1 - maxEntries = 0 := by omega
    rw [h.root, hzero, show entries.length - maxEntries = 0 by omega]
    rfl

theorem logged_logged (hkey : key.isZero = false) (events : List AuditEvent) :
    Logged (logged hmac key events) (chain hmac key genesisHmac events) := by
  induction events using reverseRecOn with
  | nil => exact logged_new
  | append_singleton events ev ih =>
    rw [chain_concat]
    unfold logged
    rw [foldl_append, foldl_cons, foldl_nil]
    exact ih.logEvent hkey ev

theorem Logged.retained_eq (h : Logged log entries) :
    log.retained = entries.drop (entries.length - maxEntries) := by
  have hcount := h.ring.count
  have hdrop : entries.length - log.count = entries.length - maxEntries := by omega
  rw [← hdrop]
  refine h.ring.window le_rfl ?_
  unfold start
  split
  next hfull =>
    rw [hdrop, h.ring.head, mod_mod, mod_eq_sub_mod (by omega)]
  next hroom =>
    congr 1
    omega

theorem Logged.root_eq (h : Logged log entries) :
    (if log.count = maxEntries then log.rootHmac else genesisHmac) =
      lastTag genesisHmac (entries.take (entries.length - maxEntries)) := by
  have hcount := h.ring.count
  split
  next => exact h.root
  next hroom =>
    rw [show entries.length - maxEntries = 0 by omega]
    rfl

theorem Logged.recent_eq (h : Logged log entries) (k : Nat) :
    (log.recent k).1 ++ (log.recent k).2 = log.retained.drop (log.retained.length - k) := by
  have hcount := h.ring.count
  have hhead := h.ring.head
  have hlen : log.retained.length = log.count := Ring.length_window _ _ _
  unfold recent
  split
  next hnone =>
    rw [drop_of_length_le]
    · rfl
    · omega
  next hsome =>
    have hlast : log.retained.drop (log.retained.length - k) =
        entries.drop (entries.length - min k log.count) := by
      rw [h.retained_eq, drop_drop, length_drop]
      congr 1
      omega
    rw [hlast]
    dsimp only
    have hdiv := Nat.div_add_mod entries.length maxEntries
    by_cases hle : min k log.count ≤ log.head.val
    · rw [if_pos hle, if_pos (by omega)]
      have hmod : (log.head.val - min k log.count) % maxEntries =
          (entries.length - min k log.count) % maxEntries := by
        have hsplit : entries.length - min k log.count =
            maxEntries * (entries.length / maxEntries) + (log.head.val - min k log.count) := by
          omega
        rw [hsplit, Nat.mul_add_mod]
      have hstop : log.head.val - (log.head.val - min k log.count) = min k log.count := by omega
      rw [append_nil, ← h.ring.window (Nat.min_le_right _ _) hmod,
        Ring.window_eq_slice _ (by omega), hstop]
    · -- the entries go around the end, so the ring is full
      have hfull : log.count = maxEntries := by
        refine le_antisymm (by omega) (not_lt.mp fun hroom => hle ?_)
        rw [hhead, Nat.mod_eq_of_lt (by omega)]
        omega
      obtain ⟨q, hq⟩ : ∃ q, entries.length / maxEntries = q + 1 :=
        Nat.exists_eq_succ_of_ne_zero (Nat.div_ne_zero_iff.mpr ⟨NeZero.ne _, by omega⟩)
      rw [hq, Nat.mul_succ] at hdiv
      rw [if_neg hle, if_pos hfull, if_neg (by omega)]
      have hmod : (maxEntries - (min k log.count - log.head.val)) % maxEntries =
          (entries.length - min k log.count) % maxEntries := by
        have hsplit : entries.length - min k log.count =
            maxEntries * q + (maxEntries - (min k log.count - log.head.val)) := by
          omega
        rw [hsplit, Nat.mul_add_mod]
      rw [← h.ring.window (Nat.min_le_right _ _) hmod,
        @Ring.window_eq_slices _ _ _ log.entries _ log.head.val _ (by omega) (by omega) (by omega)]

theorem Logged.verifyChain_eq (h : Logged log entries) (hkey : key.isZero = false)
    (hne : entries ≠ []) :
    log.verifyChain hmac key = verifyFrom hmac key
      (lastTag genesisHmac (entries.take (entries.length - maxEntries))) log.retained := by
  have hcount := h.ring.count
  have hpos := pos_of_neZero maxEntries
  have hlen := length_pos_iff.mpr hne
  unfold verifyChain
  rw [if_neg (by omega), hkey, if_neg Bool.false_ne_true, h.root_eq]

theorem chain_ne_nil {events : List AuditEvent} (h : events ≠ []) :
    chain hmac key prevHmac events ≠ [] := by
  rw [← length_pos_iff, length_chain]
  exact length_pos_iff.mpr h

theorem verifyFrom_retained (hkey : key.isZero = false) (events : List AuditEvent) :
    verifyFrom hmac key (lastTag genesisHmac ((chain hmac key genesisHmac events).take
        ((chain hmac key genesisHmac events).length - maxEntries)))
      (logged hmac key events).retained = .ok () := by
  have hall := @verifyFrom_chain hmac key genesisHmac events
  rw [← take_append_drop ((chain hmac key genesisHmac events).length - maxEntries)
    (chain hmac key genesisHmac events), verifyFrom_append] at hall
  rw [(logged_logged hkey events).retained_eq]
  exact hall.2

/-- After any number of events under one key, the chain verifies, the retained
entries are the last ones in their order, and `recent` returns the last of
these. -/
theorem log_complete (hmac : AuditKey → List UInt8 → Tag) (key : AuditKey)
    (hkey : key.isZero = false) (events : List AuditEvent) (hne : events ≠ []) :
    (logged hmac key events).verifyChain hmac key = .ok () ∧
    (logged hmac key events).retained.map AuditEntry.event =
      (events.drop (events.length - maxEntries)).map AuditEvent.recorded ∧
    ∀ k, ((logged hmac key events).recent k).1 ++ ((logged hmac key events).recent k).2 =
      (logged hmac key events).retained.drop
        ((logged hmac key events).retained.length - k) := by
  have hlogged := @logged_logged hmac key hkey events
  refine ⟨?_, ?_, fun k => hlogged.recent_eq k⟩
  · rw [hlogged.verifyChain_eq hkey (chain_ne_nil hne)]
    exact verifyFrom_retained hkey events
  · rw [hlogged.retained_eq, map_drop, map_event_chain, length_chain, map_drop]

def sampleKey : AuditKey := Vector.replicate 32 7

def sampleEvent : AuditEvent := ⟨.authFail, 0, [119, 114, 111, 110, 103, 32, 80, 73, 78], 5⟩

def sampleTag : Tag :=
  #v[200, 150, 252, 28, 89, 223, 109, 246, 99, 110, 255, 67, 43, 88, 145, 165, 62, 55, 2, 0,
    32, 187, 249, 247, 181, 11, 245, 112, 168, 20, 71, 95]

def otherTag : Tag :=
  #v[236, 77, 161, 124, 100, 32, 178, 119, 203, 92, 109, 86, 248, 44, 32, 207, 93, 247, 194,
    153, 19, 146, 199, 152, 7, 215, 223, 199, 112, 9, 106, 91]

/-- HMAC-SHA256 under the key, on these two entries. -/
def sampleHmac (_ : AuditKey) (input : List UInt8) : Tag :=
  if input.getD 9 0 = 0 then sampleTag else otherTag

def sampleLog : AuditLog := logged sampleHmac sampleKey [sampleEvent]

theorem log_complete_sample : sampleLog.verifyChain sampleHmac sampleKey = .ok () :=
  (log_complete sampleHmac sampleKey (by decide) [sampleEvent] (by decide)).1

/-- Under the key of zeros nothing is logged, and there is nothing to verify. -/
theorem log_incomplete_zeroKey :
    (logged sampleHmac (Vector.replicate 32 0) [sampleEvent]).verifyChain sampleHmac
      (Vector.replicate 32 0) = .error .empty := by
  decide +kernel

/-! ## Tampering -/

/-- The inputs that the tags of a chain were computed from. -/
def inputs : Tag → List AuditEntry → List (List UInt8)
  | _, [] => []
  | prevHmac, e :: entries => e.serializeForHmac prevHmac :: inputs e.hmac entries

theorem mem_inputs {x : List UInt8} :
    x ∈ inputs prevHmac entries ↔ ∃ before e after, entries = before ++ e :: after ∧
      x = e.serializeForHmac (lastTag prevHmac before) := by
  induction entries generalizing prevHmac with
  | nil => simp [inputs]
  | cons e entries ih =>
    rw [inputs, mem_cons, ih]
    constructor
    · rintro (rfl | ⟨before, e', after, rfl, rfl⟩)
      · exact ⟨[], e, entries, rfl, rfl⟩
      · exact ⟨e :: before, e', after, rfl, by rw [lastTag_cons]⟩
    · rintro ⟨before, e', after, heq, rfl⟩
      cases before with
      | nil =>
        obtain ⟨rfl, rfl⟩ := cons.inj heq
        exact .inl rfl
      | cons b before =>
        obtain ⟨rfl, rfl⟩ := cons.inj heq
        exact .inr ⟨before, e', after, rfl, by rw [lastTag_cons]⟩

theorem serializeForHmac_injective {e e' : AuditEntry} {t t' : Tag}
    (h : e.serializeForHmac t = e'.serializeForHmac t') :
    e.timestamp = e'.timestamp ∧ e.eventType = e'.eventType ∧ e.pid = e'.pid ∧
      e.detail = e'.detail ∧ t = t' := by
  obtain ⟨htime, h⟩ := append_inj h (by simp)
  obtain ⟨htype, h⟩ := append_inj h rfl
  obtain ⟨hpid, h⟩ := append_inj h (by simp)
  obtain ⟨hdetail, htag⟩ := append_inj h (by simp)
  refine ⟨?_, eventTypeDiscriminant_injective (singleton_inj.mp htype), ?_,
    Vector.toList_inj.mp hdetail, Vector.toList_inj.mp htag⟩
  · have hvalue := congrArg leValue htime
    rw [leValue_leBytes_of_lt e.timestamp.toNat_lt, leValue_leBytes_of_lt e'.timestamp.toNat_lt]
      at hvalue
    exact UInt64.toNat_inj.mp hvalue
  · have hvalue := congrArg leValue hpid
    rw [leValue_leBytes_of_lt e.pid.toNat_lt, leValue_leBytes_of_lt e'.pid.toNat_lt] at hvalue
    exact UInt32.toNat_inj.mp hvalue

/-- HMAC cannot be forged, for the log of some entries and a changed list of
entries that is verified from the tag `root` on.  The tags of the log differ from
one another and from the first one.  And a tag that verifies in the changed list
was computed by the log itself. -/
structure Unforgeable (hmac : AuditKey → List UInt8 → Tag) (key : AuditKey)
    (entries : List AuditEntry) (root : Tag) (changed : List AuditEntry) : Prop where
  distinct : ∀ x ∈ inputs genesisHmac entries, ∀ y ∈ inputs genesisHmac entries,
    hmac key x = hmac key y → x = y
  genesis : ∀ x ∈ inputs genesisHmac entries, hmac key x ≠ genesisHmac
  unforged : ∀ before e after, changed = before ++ e :: after →
    e.hmac = hmac key (e.serializeForHmac (lastTag root before)) →
    e.serializeForHmac (lastTag root before) ∈ inputs genesisHmac entries

variable {root : Tag} {changed : List AuditEntry}

theorem hmac_of_verifyFrom (h : verifyFrom hmac key prevHmac entries = .ok ())
    {before after : List AuditEntry} {e : AuditEntry} (heq : entries = before ++ e :: after) :
    e.hmac = hmac key (e.serializeForHmac (lastTag prevHmac before)) := by
  rw [heq, verifyFrom_append, verifyFrom] at h
  have hnot := h.2
  split at hnot
  next => cases hnot
  next heq => exact Decidable.not_not.mp heq

section

variable (hmacs : Unforgeable hmac key entries root changed)
  (hverified : verifyFrom hmac key genesisHmac entries = .ok ())

include hmacs hverified

theorem Unforgeable.prefix_eq
    {xs ys xs' ys' : List AuditEntry} (h : entries = xs ++ ys) (h' : entries = xs' ++ ys')
    (htag : lastTag genesisHmac xs = lastTag genesisHmac xs') : xs = xs' := by
  -- two equal tags have equal inputs, so the tags before them are equal too
  induction xs using reverseRecOn generalizing ys xs' ys' with
  | nil =>
    cases xs' using reverseRecOn with
    | nil => rfl
    | append_singleton xs' x' =>
      rw [append_assoc, singleton_append] at h'
      rw [lastTag_nil, lastTag_concat, hmac_of_verifyFrom hverified h'] at htag
      exact absurd htag.symm (hmacs.genesis _ (mem_inputs.mpr ⟨_, _, _, h', rfl⟩))
  | append_singleton xs x ih =>
    rw [append_assoc, singleton_append] at h
    cases xs' using reverseRecOn with
    | nil =>
      rw [lastTag_nil, lastTag_concat, hmac_of_verifyFrom hverified h] at htag
      exact absurd htag (hmacs.genesis _ (mem_inputs.mpr ⟨_, _, _, h, rfl⟩))
    | append_singleton xs' x' =>
      rw [append_assoc, singleton_append] at h'
      rw [lastTag_concat, lastTag_concat, hmac_of_verifyFrom hverified h,
        hmac_of_verifyFrom hverified h'] at htag
      have hinput := hmacs.distinct _ (mem_inputs.mpr ⟨_, _, _, h, rfl⟩) _
        (mem_inputs.mpr ⟨_, _, _, h', rfl⟩) htag
      have hxs := ih h h' (serializeForHmac_injective hinput).2.2.2.2
      rw [hxs] at h
      have hx := append_cancel_left (h.symm.trans h')
      rw [hxs, (cons.inj hx).1]

theorem Unforgeable.covered_eq
    {xs ys : List AuditEntry} {y e : AuditEntry} (h : entries = xs ++ y :: ys)
    (he : e.hmac = hmac key (e.serializeForHmac (lastTag genesisHmac xs)))
    (hknown : e.serializeForHmac (lastTag genesisHmac xs) ∈ inputs genesisHmac entries) :
    e.covered = y.covered := by
  obtain ⟨xs', y', ys', h', hinput⟩ := mem_inputs.mp hknown
  obtain ⟨htime, htype, hpid, hdetail, htag⟩ := serializeForHmac_injective hinput
  obtain rfl := hmacs.prefix_eq hverified h h' htag
  obtain ⟨rfl, -⟩ := cons.inj (append_cancel_left (h.symm.trans h'))
  have hhmac : e.hmac = y.hmac := by
    rw [he, hinput, hmac_of_verifyFrom hverified h]
  unfold AuditEntry.covered
  rw [htime, htype, hpid, hdetail, hhmac]

theorem Unforgeable.map_covered_eq
    {xs ys : List AuditEntry} (h : entries = xs ++ ys) (hroot : root = lastTag genesisHmac xs)
    (hlen : changed.length = ys.length) (hchanged : verifyFrom hmac key root changed = .ok ()) :
    changed.map AuditEntry.covered = ys.map AuditEntry.covered := by
  -- along the changed list; `before` is the part that was compared already
  suffices hall : ∀ rest before done ys', changed = before ++ rest → entries = done ++ ys' →
      lastTag root before = lastTag genesisHmac done → rest.length = ys'.length →
      rest.map AuditEntry.covered = ys'.map AuditEntry.covered from
    hall changed [] xs ys rfl h hroot hlen
  intro rest
  induction rest with
  | nil =>
    intro before done ys' _ _ _ hlen
    rw [length_eq_zero_iff.mp hlen.symm]
  | cons e rest ih =>
    intro before done ys' hsplit hdone htag hlen
    cases ys' with
    | nil => cases hlen
    | cons y ys' =>
      have he := hmac_of_verifyFrom hchanged hsplit
      have hknown := hmacs.unforged before e rest hsplit he
      rw [htag] at he hknown
      have hcovered := hmacs.covered_eq hverified hdone he hknown
      have hhmac : e.hmac = y.hmac := congrArg (fun c => c.2.2.2.2) hcovered
      rw [map_cons, map_cons, hcovered,
        ih (before ++ [e]) (done ++ [y]) ys' (by rw [hsplit, append_assoc]; rfl)
          (by rw [hdone, append_assoc]; rfl) (by rw [lastTag_concat, lastTag_concat, hhmac])
          (succ.inj hlen)]

end

theorem verifyFrom_congr (h : entries.map AuditEntry.covered = changed.map AuditEntry.covered) :
    verifyFrom hmac key prevHmac entries = verifyFrom hmac key prevHmac changed := by
  induction entries generalizing prevHmac changed with
  | nil =>
    rw [map_nil, eq_comm, map_eq_nil_iff] at h
    rw [h]
  | cons e entries ih =>
    cases changed with
    | nil => cases h
    | cons e' changed =>
      rw [map_cons, map_cons] at h
      obtain ⟨hcovered, hrest⟩ := cons.inj h
      simp only [AuditEntry.covered, Prod.mk.injEq] at hcovered
      obtain ⟨htime, htype, hpid, hdetail, hhmac⟩ := hcovered
      have hinput : e.serializeForHmac prevHmac = e'.serializeForHmac prevHmac := by
        unfold AuditEntry.serializeForHmac
        rw [htime, htype, hpid, hdetail]
      rw [verifyFrom, verifyFrom, hinput, hhmac, ih hrest]

theorem verifyFrom_ne_ok (h : verifyFrom hmac key prevHmac entries ≠ .ok ()) :
    verifyFrom hmac key prevHmac entries = .error .chainTampered := by
  induction entries generalizing prevHmac with
  | nil => exact absurd rfl h
  | cons e entries ih =>
    rw [verifyFrom] at h ⊢
    split
    next => rfl
    next heq =>
      rw [if_neg heq] at h
      exact ih h

/-- Let `log'` be a copy of a log in which entries were changed.  Its verification
reports tampering exactly if a covered field of a retained entry was changed. -/
theorem tamper_evident (hmac : AuditKey → List UInt8 → Tag) (key : AuditKey)
    (hkey : key.isZero = false) (events : List AuditEvent) (hne : events ≠ []) (log' : AuditLog)
    (hcount : log'.count = (logged hmac key events).count)
    (hroot : log'.rootHmac = (logged hmac key events).rootHmac)
    (hmacs : Unforgeable hmac key (chain hmac key genesisHmac events)
      (if log'.count = maxEntries then log'.rootHmac else genesisHmac) log'.retained) :
    log'.verifyChain hmac key = .error .chainTampered ↔
      log'.retained.map AuditEntry.covered ≠
        (logged hmac key events).retained.map AuditEntry.covered := by
  have hlogged := @logged_logged hmac key hkey events
  have hverified := @verifyFrom_retained hmac key hkey events
  have hrooteq : (if log'.count = maxEntries then log'.rootHmac else genesisHmac) =
      lastTag genesisHmac ((chain hmac key genesisHmac events).take
        ((chain hmac key genesisHmac events).length - maxEntries)) := by
    rw [hcount, hroot, hlogged.root_eq]
  have hlive : log'.count ≠ 0 := by
    have hring := hlogged.ring.count
    have hpos := pos_of_neZero maxEntries
    have hlen := List.length_pos_iff.mpr (@chain_ne_nil hmac key genesisHmac events hne)
    omega
  have hverify : log'.verifyChain hmac key =
      verifyFrom hmac key (lastTag genesisHmac ((chain hmac key genesisHmac events).take
        ((chain hmac key genesisHmac events).length - maxEntries))) log'.retained := by
    unfold verifyChain
    rw [if_neg hlive, hkey, if_neg Bool.false_ne_true, hrooteq]
  rw [hverify]
  constructor
  · intro htampered hsame
    rw [verifyFrom_congr hsame, hverified] at htampered
    cases htampered
  · intro hchanged
    refine verifyFrom_ne_ok fun hok => hchanged ?_
    rw [hrooteq] at hmacs
    rw [hlogged.retained_eq]
    refine hmacs.map_covered_eq (verifyFrom_chain events) (List.take_append_drop _ _).symm rfl ?_
      hok
    rw [← hlogged.retained_eq]
    unfold retained
    rw [Ring.length_window, Ring.length_window, hcount]

def sampleEntry : AuditEntry := sampleEvent.entry sampleHmac sampleKey genesisHmac

def changedLog (change : AuditEntry → AuditEntry) : AuditLog :=
  { sampleLog with
    entries := sampleLog.entries.set 0 (change sampleEntry) (Nat.pos_of_neZero maxEntries) }

theorem retained_changedLog (change : AuditEntry → AuditEntry) :
    (changedLog change).retained = [change sampleEntry] := rfl

theorem unforgeable_sample {change : AuditEntry → AuditEntry} (h : (change sampleEntry).hmac =
        sampleHmac sampleKey ((change sampleEntry).serializeForHmac genesisHmac) →
      (change sampleEntry).serializeForHmac genesisHmac =
        sampleEntry.serializeForHmac genesisHmac) :
    Unforgeable sampleHmac sampleKey (chain sampleHmac sampleKey genesisHmac [sampleEvent])
      (if (changedLog change).count = maxEntries then (changedLog change).rootHmac else genesisHmac)
      (changedLog change).retained := by
  have hinputs : inputs genesisHmac (chain sampleHmac sampleKey genesisHmac [sampleEvent]) =
      [sampleEntry.serializeForHmac genesisHmac] := rfl
  have hroot : (if (changedLog change).count = maxEntries then (changedLog change).rootHmac
      else genesisHmac) = genesisHmac := rfl
  rw [retained_changedLog, hroot]
  refine ⟨fun x hx y hy _ => ?_, fun x hx => ?_, fun before e after heq he => ?_⟩
  · rw [hinputs, mem_singleton] at hx hy
    rw [hx, hy]
  · rw [hinputs, mem_singleton] at hx
    rw [hx]
    decide +kernel
  · obtain ⟨rfl, rfl, -⟩ := append_eq_singleton_iff.mp heq.symm |>.resolve_right (by simp)
      |>.imp id cons.inj
    rw [hinputs, mem_singleton]
    exact h he

/-- A changed PID is reported. -/
theorem tamper_evident_pid :
    (changedLog fun e => { e with pid := 1 }).verifyChain sampleHmac sampleKey =
      .error .chainTampered :=
  (tamper_evident sampleHmac sampleKey (by decide) [sampleEvent] (by decide)
    (changedLog fun e => { e with pid := 1 }) rfl rfl
    (unforgeable_sample fun h => absurd h (by decide +kernel))).mpr (by decide +kernel)

/-- A changed length of the detail is not reported, though a reader of the log sees
an empty detail. -/
theorem tampering_undetected :
    Unforgeable sampleHmac sampleKey (chain sampleHmac sampleKey genesisHmac [sampleEvent])
      (if (changedLog fun e => { e with detailLen := 0 }).count = maxEntries
        then (changedLog fun e => { e with detailLen := 0 }).rootHmac else genesisHmac)
      (changedLog fun e => { e with detailLen := 0 }).retained ∧
    (changedLog fun e => { e with detailLen := 0 }).retained.map AuditEntry.event ≠
      sampleLog.retained.map AuditEntry.event ∧
    (changedLog fun e => { e with detailLen := 0 }).verifyChain sampleHmac sampleKey = .ok () := by
  exact ⟨unforgeable_sample fun _ => rfl, by decide +kernel, by decide +kernel⟩

end AuditLog

end

end Thumos
