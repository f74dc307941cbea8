import Thumos.Lib.Ascii
import Thumos.Lib.GuardedRun

/-!
# Calls and registration

`Telephony` keeps the state of the voice call and of the registration, which
answers to its commands and unsolicited lines of the modem change.  What the
modem sends is an argument of every call: for each command the results of
`recv_line` in turn, for `poll` the line that `poll_urc_line` returns.  A line
is given by what the parsers make of it.

The state keeps a record of all commands and lines.  The code does not have
it; `lastStatus` reads the last registration status from it.
-/

namespace Thumos.Telephony
open GuardedRun Ascii

inductive TelephonyError where
  | timeout | modemError | cmeError (code : Nat) | parseError | invalidState | transportError
  | simNotReady | simPukRequired | numberTooLong
  deriving DecidableEq

inductive AtResponse where
  | ok | error | cmeError (code : Nat) | cmsError (code : Nat)
  deriving DecidableEq

inductive SimPinState where
  | ready | pinRequired | pukRequired | pin2Required | puk2Required | other

inductive RegStatus where
  | notRegistered | registeredHome | searching | denied | unknown | registeredRoaming
  deriving DecidableEq

def RegStatus.isRegistered : RegStatus → Bool
  | registeredHome | registeredRoaming => true
  | _ => false

inductive ModemState where
  | off | initializing | ready | registered | error (e : TelephonyError)
  deriving DecidableEq

/-- A number is `number[..len]` of the source. -/
inductive CallState where
  | idle | dialing (number : List UInt8) | alerting | active (startTick : Nat) | held
  | incoming (number : List UInt8) | hangup
  deriving DecidableEq

inductive Urc where
  | ring | noCarrier | busy | csq | creg (stat : RegStatus) | clip (number : List UInt8)

inductive TelephonyEvent where
  | incomingCall (number : List UInt8) | callEnded | lineBusy | signalUpdate
  | registrationUpdate (status : RegStatus) | modemError (e : TelephonyError)
  deriving DecidableEq

/-! ## Commands and their answers -/

/-- What `parse_final_result`, `parse_cpin_response`, `parse_creg_query_response`
and `parse_urc` make of a line. -/
structure Line where
  empty : Bool
  final : Option AtResponse
  cpin : Option SimPinState
  creg : Option RegStatus
  urc : Option Urc

/-- The result of `send_at` for a command and those of `recv_line` after it; a
modem that has no more to say lets `recv_line` time out. -/
structure Reply where
  sent : Except TelephonyError Unit
  lines : List (Except TelephonyError Line)

def maxResponseLines : Nat := 16

/-- The loop of `send_and_wait` with room for `cap` information lines, of which
`info` are there.  What is drained after an error is lost. -/
def collect (cap : Nat) : Nat → List (Except TelephonyError Line) → List Line →
    Except TelephonyError (AtResponse × List Line)
  | 0, _, _ | _ + 1, [], _ => .error .timeout
  | _ + 1, .error e :: _, _ => .error e
  | n + 1, .ok line :: lines, info =>
    if line.empty then collect cap n lines info
    else match line.final with
      | some result => .ok (result, info)
      | none => collect cap n lines (if info.length < cap then info ++ [line] else info)

def sendAndWait (cap : Nat) (reply : Reply) : Except TelephonyError (AtResponse × List Line) :=
  match reply.sent with
  | .error e => .error e
  | .ok () => collect cap maxResponseLines reply.lines []

def sendSimple (reply : Reply) : Except TelephonyError AtResponse :=
  (sendAndWait 0 reply).map Prod.fst

def sendWithInfo (reply : Reply) : Except TelephonyError (AtResponse × List Line) :=
  sendAndWait 1 reply

/-- The line ends the wait for a command. -/
def ends : Except TelephonyError Line → Bool
  | .error _ => true
  | .ok line => !line.empty && line.final.isSome

def text? : Except TelephonyError Line → Option Line
  | .error _ => none
  | .ok line => if line.empty then none else some line

/-- The first line of text before the `OK` that ends the wait. -/
def answerIn (read : List (Except TelephonyError Line)) : Option Line :=
  match read.find? ends with
  | some (.ok last) =>
    if last.final = some .ok then (read.takeWhile (!ends ·)).findSome? text? else none
  | _ => none

def Reply.answer (reply : Reply) : Option Line :=
  match reply.sent with
  | .error _ => none
  | .ok () => answerIn (reply.lines.take maxResponseLines)

/-- The information line of a command that the modem has answered with `OK`. -/
def okInfo : Except TelephonyError (AtResponse × List Line) → Option Line
  | .ok (.ok, info) => info.head?
  | _ => none

/-- A line that is stored already is the answer, if there is an `OK`. -/
theorem okInfo_collect (n : Nat) (lines : List (Except TelephonyError Line)) (info : List Line) :
    okInfo (collect 1 n lines info) =
      match (lines.take n).find? ends with
      | some (.ok last) =>
        if last.final = some .ok then
          info.head?.or (((lines.take n).takeWhile (!ends ·)).findSome? text?)
        else none
      | _ => none := by
  induction n, lines, info using collect.induct 1 with
  | case1 => simp [collect, okInfo]
  | case2 => simp [collect, okInfo]
  | case3 => simp [collect, okInfo, ends]
  | case4 n line lines info hempty ih => simp [collect, ends, text?, hempty, ih]
  | case5 n line lines info hempty result hfinal =>
    cases result <;> simp [collect, okInfo, ends, hempty, hfinal]
  | case6 n line lines info hempty hfinal ih =>
    rcases info with _ | ⟨first, info⟩ <;> simp_all [collect, ends, text?]

theorem okInfo_sendWithInfo (reply : Reply) : okInfo (sendWithInfo reply) = reply.answer := by
  unfold sendWithInfo sendAndWait Reply.answer
  cases reply.sent with
  | error e => rfl
  | ok => exact (okInfo_collect maxResponseLines reply.lines []).trans rfl

/-- One command with all that the modem answers, or one unsolicited line. -/
inductive Traffic where
  | command (line : List UInt8) (reply : Reply)
  | urc (line : Line)

/-- The registration status that an unsolicited line or the answer to
`AT+CREG?` gives. -/
def Traffic.status : Traffic → Option RegStatus
  | .command line reply =>
    if line = ascii "AT+CREG?" then reply.answer.bind Line.creg else none
  | .urc line =>
    match line.empty, line.urc with
    | false, some (.creg stat) => some stat
    | _, _ => none

/-- The newest traffic stands first. -/
def lastStatus (log : List Traffic) : Option RegStatus := log.findSome? Traffic.status

def classifySimpleResult : Except TelephonyError AtResponse → Except TelephonyError Unit
  | .ok .ok => .ok ()
  | .ok (.cmeError code) | .ok (.cmsError code) => .error (.cmeError code)
  | .ok .error => .error .modemError
  | .error e => .error e

def simple (reply : Reply) : Except TelephonyError Unit := classifySimpleResult (sendSimple reply)

/-- Step 4 of `initialize`. -/
def checkPin (reply : Reply) : Except TelephonyError Unit :=
  match sendWithInfo reply with
  | .ok (.ok, line :: _) =>
    match line.cpin with
    | some .ready => .ok ()
    | some .pukRequired => .error .simPukRequired
    | some .pinRequired | some .pin2Required | some .puk2Required | some .other =>
      .error .simNotReady
    | none => .error .parseError
  | .ok (.ok, []) => .error .parseError
  | .ok (.cmeError code, _) | .ok (.cmsError code, _) => .error (.cmeError code)
  | .ok (.error, _) => .error .modemError
  | .error e => .error e

def updateSignalStrength (reply : Reply) : Except TelephonyError Unit :=
  match sendWithInfo reply with
  | .ok (.ok, _) => .ok ()
  | .ok _ => .error .modemError
  | .error e => .error e

/-- The steps of `initialize` before the last one: the command and what its
answer means.  Steps 5 to 8 go on whatever the modem answers. -/
def initSteps : List (List UInt8 × (Reply → Except TelephonyError Unit)) :=
  [(ascii "AT", simple), (ascii "ATE0", simple), (ascii "AT+CFUN=1", simple),
    (ascii "AT+CPIN?", checkPin), (ascii "AT+COPS=0,,,7", fun _ => .ok ()),
    (ascii "AT+COPS?", fun _ => .ok ()), (ascii "AT+CREG=1", fun _ => .ok ()),
    (ascii "AT+CLIP=1", fun _ => .ok ()), (ascii "AT+CSQ", updateSignalStrength)]

/-! ## The calls -/

/-- `Telephony`, with all traffic so far. -/
structure State where
  modemState : ModemState
  callState : CallState
  regStatus : RegStatus
  lastSignalPoll : Nat
  log : List Traffic

namespace State

def new : State := ⟨.off, .idle, .notRegistered, 0, []⟩

variable (t : State)

def hear (traffic : Traffic) : State := { t with log := traffic :: t.log }

def applyRegStatus (stat : RegStatus) : State :=
  { t with
    regStatus := stat
    modemState := match t.modemState with
      | .ready | .registered => if stat.isRegistered then .registered else .ready
      | m => m }

/-- A list of replies that is too short stands for a modem that falls silent. -/
def nextReply (replies : List Reply) : Reply := replies.headD ⟨.ok (), []⟩

def runSteps : State → List (List UInt8 × (Reply → Except TelephonyError Unit)) → List Reply →
    State × Except TelephonyError (List Reply)
  | t, [], replies => (t, .ok replies)
  | t, (line, check) :: steps, replies =>
    let t := t.hear (.command line (nextReply replies))
    match check (nextReply replies) with
    | .error e => ({ t with modemState := .error e }, .error e)
    | .ok () => runSteps t steps replies.tail

def initializeModem (replies : List Reply) : State × Except TelephonyError Unit :=
  match runSteps { t with modemState := .initializing } initSteps replies with
  | (t, .error e) => (t, .error e)
  | (t, .ok replies) =>
    let reply := nextReply replies
    let t := { t with modemState := .ready }.hear (.command (ascii "AT+CREG?") reply)
    match (okInfo (sendWithInfo reply)).bind Line.creg with
    | some stat => (t.applyRegStatus stat, .ok ())
    | none => (t, .ok ())

def signalPollIntervalMs : Nat := 30000

def pollSignal (tick : Nat) (reply : Reply) : State × Option TelephonyEvent :=
  match t.modemState with
  | .ready | .registered =>
    if tick - t.lastSignalPoll < signalPollIntervalMs then (t, none)
    else
      let t := { t with lastSignalPoll := tick }.hear (.command (ascii "AT+CSQ") reply)
      match updateSignalStrength reply with
      | .ok () => (t, some .signalUpdate)
      | .error e => (t, some (.modemError e))
  | _ => (t, none)

/-- Digits, `+`, `*`, `#` and `A` to `D`. -/
def isValidDialByte (b : UInt8) : Bool :=
  (0x30 ≤ b && b ≤ 0x39) || b == 0x2B || b == 0x2A || b == 0x23 || (0x41 ≤ b && b ≤ 0x44)

def maxNumberLen : Nat := 32

/-- `ATD<number>;`. -/
def dialCommand (number : List UInt8) : List UInt8 := [0x41, 0x54, 0x44] ++ number ++ [0x3B]

def dial (number : List UInt8) (reply : Reply) : State × Except TelephonyError Unit :=
  match t.modemState, t.callState with
  | .registered, .idle =>
    if maxNumberLen < number.length then (t, .error .numberTooLong)
    else if number.all isValidDialByte = false then (t, .error .parseError)
    else
      let t := t.hear (.command (dialCommand number) reply)
      match simple reply with
      | .ok () => ({ t with callState := .dialing number }, .ok ())
      | .error e => (t, .error e)
  | _, _ => (t, .error .invalidState)

def answer (tick : Nat) (reply : Reply) : State × Except TelephonyError Unit :=
  match t.callState with
  | .incoming _ =>
    let t := t.hear (.command (ascii "ATA") reply)
    match simple reply with
    | .ok () => ({ t with callState := .active tick }, .ok ())
    | .error e => (t, .error e)
  | _ => (t, .error .invalidState)

def hangup (reply : Reply) : State × Except TelephonyError Unit :=
  if t.callState = .idle then (t, .error .invalidState)
  else
    let t := t.hear (.command (ascii "ATH") reply)
    match sendSimple reply with
    -- Some modems answer ERROR when the call has ended already.
    | .ok .ok | .ok .error => ({ t with callState := .idle }, .ok ())
    | .ok (.cmeError code) | .ok (.cmsError code) => (t, .error (.cmeError code))
    | .error e => (t, .error e)

def handleUrc : Urc → State × Option TelephonyEvent
  | .ring =>
    (if t.callState = .idle then { t with callState := .incoming [] } else t,
      some (.incomingCall []))
  | .clip number =>
    match t.callState with
    | .incoming _ => ({ t with callState := .incoming number }, some (.incomingCall number))
    | _ => (t, none)
  | .noCarrier => ({ t with callState := .idle }, some .callEnded)
  | .busy => ({ t with callState := .idle }, some .lineBusy)
  | .csq => (t, some .signalUpdate)
  | .creg stat => (t.applyRegStatus stat, some (.registrationUpdate stat))

/-- `line` is what `poll_urc_line` returns. -/
def poll : Option Line → State × Option TelephonyEvent
  | none => (t, none)
  | some line =>
    let t := t.hear (.urc line)
    match line.empty, line.urc with
    | false, some urc => t.handleUrc urc
    | _, _ => (t, none)

inductive Call where
  | init (replies : List Reply)
  | dial (number : List UInt8) (reply : Reply)
  | answer (tick : Nat) (reply : Reply)
  | hangup (reply : Reply)
  | poll (line : Option Line)
  | pollSignal (tick : Nat) (reply : Reply)

def step : Call → State
  | .init replies => (t.initializeModem replies).1
  | .dial number reply => (t.dial number reply).1
  | .answer tick reply => (t.answer tick reply).1
  | .hangup reply => (t.hangup reply).1
  | .poll line => (t.poll line).1
  | .pollSignal tick reply => (t.pollSignal tick reply).1

/-- One call that goes on: it is answered, or its number is shown. -/
def SameCall : CallState → CallState → Prop
  | .incoming _, .incoming _ | .incoming _, .active _ => True
  | s, s' => s = s'

theorem sameCall_refl (s : CallState) : SameCall s s := by
  cases s <;> simp [SameCall]

theorem dialByte_plain {b : UInt8} (h : isValidDialByte b) : b ∉ [0x0A, 0x0D, 0x3B] := by
  intro hmem
  simp only [List.mem_cons, List.not_mem_nil, or_false] at hmem
  obtain rfl | rfl | rfl := hmem <;> exact absurd h (by decide)

/-- The registered state has a registered status as the last one to rest on. -/
def Consistent : Prop :=
  t.modemState = .registered → ∃ stat, lastStatus t.log = some stat ∧ stat.isRegistered

variable {t}

theorem lastStatus_hear {traffic : Traffic} (h : traffic.status = none) :
    lastStatus (t.hear traffic).log = lastStatus t.log := by
  simp [lastStatus, hear, h]

theorem lastStatus_hear_of_some {traffic : Traffic} {stat : RegStatus}
    (h : traffic.status = some stat) : lastStatus (t.hear traffic).log = some stat := by
  simp [lastStatus, hear, h]

theorem status_command {line : List UInt8} (h : line ≠ ascii "AT+CREG?") (reply : Reply) :
    (Traffic.command line reply).status = none := by
  rw [Traffic.status, if_neg h]

theorem dialCommand_ne (number : List UInt8) : dialCommand number ≠ ascii "AT+CREG?" := by
  intro h
  have hthird := congrArg (·[2]?) h
  exact absurd hthird (by simp [dialCommand, ascii])

theorem Consistent.hear_command (h : t.Consistent) {line : List UInt8}
    (hline : line ≠ ascii "AT+CREG?") (reply : Reply) :
    (t.hear (.command line reply)).Consistent := by
  intro hreg
  rw [lastStatus_hear (status_command hline reply)]
  exact h hreg

theorem consistent_applyRegStatus {stat : RegStatus} (h : lastStatus t.log = some stat) :
    (t.applyRegStatus stat).Consistent := by
  intro hreg
  refine ⟨stat, h, ?_⟩
  simp only [applyRegStatus] at hreg
  grind

/-- A step that fails leaves its error as the state; calls are not touched. -/
theorem runSteps_spec {steps : List (List UInt8 × (Reply → Except TelephonyError Unit))}
    {replies : List Reply} {result : Except TelephonyError (List Reply)} {s t : State}
    (h : runSteps s steps replies = (t, result)) :
    t.callState = s.callState ∧ ∀ e, result = .error e → t.modemState = .error e := by
  induction steps generalizing s replies with
  | nil =>
    cases h
    exact ⟨rfl, nofun⟩
  | cons step steps ih =>
    obtain ⟨line, check⟩ := step
    simp only [runSteps] at h
    split at h
    · cases h
      exact ⟨rfl, fun e he => by cases he; rfl⟩
    · have hrest := ih h
      exact hrest

theorem consistent_initializeModem (replies : List Reply) :
    (t.initializeModem replies).1.Consistent := by
  unfold initializeModem
  split
  · next t' e hsteps =>
    intro hreg
    rw [(runSteps_spec hsteps).2 e rfl] at hreg
    cases hreg
  · dsimp only
    rw [okInfo_sendWithInfo]
    split
    · next stat hstat =>
      apply consistent_applyRegStatus
      apply lastStatus_hear_of_some
      rw [Traffic.status, if_pos rfl, hstat]
    · exact nofun

theorem initializeModem_callState (replies : List Reply) :
    (t.initializeModem replies).1.callState = t.callState := by
  unfold initializeModem
  split
  · next hsteps => exact (runSteps_spec hsteps).1
  · next hsteps =>
    have hcall := (runSteps_spec hsteps).1
    dsimp only
    split <;> exact hcall

/-- A line that is no unsolicited code is read without effect. -/
theorem poll_cases (line : Option Line) :
    (∃ l urc, line = some l ∧ l.empty = false ∧ l.urc = some urc ∧
      t.poll line = (t.hear (.urc l)).handleUrc urc) ∨
    (t.poll line).2 = none ∧ (t.poll line).1.callState = t.callState ∧
      (t.poll line).1.modemState = t.modemState ∧
      lastStatus (t.poll line).1.log = lastStatus t.log := by
  rcases line with _ | line
  · exact .inr ⟨rfl, rfl, rfl, rfl⟩
  unfold State.poll
  dsimp only
  split
  · next urc hempty hurc => exact .inl ⟨line, urc, rfl, hempty, hurc, rfl⟩
  · refine .inr ⟨rfl, rfl, rfl, lastStatus_hear ?_⟩
    grind [Traffic.status]

theorem Consistent.poll (h : t.Consistent) (line : Option Line) : (t.poll line).1.Consistent := by
  rcases t.poll_cases line with ⟨l, urc, -, hempty, hurc, hpoll⟩ | ⟨-, -, hmodem, hlast⟩
  · rw [hpoll]
    cases urc with
    | creg stat =>
      apply consistent_applyRegStatus
      apply lastStatus_hear_of_some
      simp [Traffic.status, hempty, hurc]
    | _ =>
      have hstatus : (Traffic.urc l).status = none := by simp [Traffic.status, hurc]
      have hlast := t.lastStatus_hear hstatus
      grind [Consistent, handleUrc, State.hear]
  · rwa [Consistent, hmodem, hlast]

theorem Consistent.step (h : t.Consistent) (call : Call) : (t.step call).Consistent := by
  cases call with
  | init replies => exact consistent_initializeModem replies
  | dial number reply =>
    have hsent := h.hear_command (dialCommand_ne number) reply
    grind [State.step, State.dial, Consistent]
  | answer tick reply =>
    have hsent := h.hear_command (show ascii "ATA" ≠ _ by decide) reply
    grind [State.step, State.answer, Consistent]
  | hangup reply =>
    have hsent := h.hear_command (show ascii "ATH" ≠ _ by decide) reply
    grind [State.step, State.hangup.eq_def, Consistent]
  | poll line => exact h.poll line
  | pollSignal tick reply =>
    have hsent := h.hear_command (show ascii "AT+CSQ" ≠ _ by decide) reply
    grind [State.step, State.pollSignal, Consistent, State.hear]

theorem step_callState (call : Call) (h : t.callState ≠ .idle) :
    (t.step call).callState = .idle ∨ SameCall t.callState (t.step call).callState := by
  have hrefl := sameCall_refl t.callState
  cases call with
  | init replies =>
    rw [State.step, initializeModem_callState]
    exact .inr hrefl
  | dial number reply => grind [State.step, State.dial]
  | answer tick reply => grind [State.step, State.answer, SameCall, State.hear]
  | hangup reply => grind [State.step, State.hangup.eq_def, State.hear]
  | poll line =>
    rcases t.poll_cases line with ⟨l, urc, -, -, -, hpoll⟩ | ⟨-, hcall, -⟩
    · rw [State.step, hpoll]
      cases urc <;> grind [handleUrc, applyRegStatus, SameCall, State.hear]
    · rw [State.step, hcall]
      exact .inr hrefl
  | pollSignal tick reply => grind [State.step, State.pollSignal, State.hear]

/-- `dial` sends nothing, or the one line for its number. -/
theorem dial_log (number : List UInt8) (reply : Reply) :
    (t.dial number reply).1.log = t.log ∨
      (t.dial number reply).1.log = .command (dialCommand number) reply :: t.log ∧
        ∀ b ∈ number, b ∉ [0x0A, 0x0D, 0x3B] := by
  have hplain : number.all isValidDialByte → ∀ b ∈ number, b ∉ [0x0A, 0x0D, 0x3B] :=
    fun hvalid b hb => dialByte_plain (List.all_eq_true.1 hvalid b hb)
  grind [State.dial, State.hear]

/-- `OK`, `+CPIN: READY`, `+CREG:` with a status, and the other unsolicited lines. -/
def okLine : Line := ⟨false, some .ok, none, none, none⟩

def cpinLine : Line := ⟨false, none, some .ready, none, none⟩

def cregLine (stat : RegStatus) : Line := ⟨false, none, none, some stat, some (.creg stat)⟩

def urcLine (urc : Urc) : Line := ⟨false, none, none, none, some urc⟩

def saying (lines : List Line) : Reply := ⟨.ok (), (lines ++ [okLine]).map .ok⟩

def registering : List Reply :=
  List.replicate 3 (saying []) ++ [saying [cpinLine]] ++ List.replicate 5 (saying []) ++
    [saying [cregLine .registeredHome]]

end State

end Thumos.Telephony
