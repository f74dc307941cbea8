import Thumos.Kernel.KernelView
import Thumos.Kernel.Memory
import Thumos.Kernel.Process
import Thumos.Lib.ByteSpace
import Thumos.Lib.GuardedRun

/-!
# Signal frames

A handled signal saves the interrupted context in 68 bytes on the user stack and
enters the handler.  `sigreturn` loads a context from the user stack again.  The
bytes belong to the process, which may change any of them, so the status word is
masked to the bits that user code may set itself.

`SignalMachine` is one process seen from its traps.  Between two traps the
process, the other processes and the rest of the kernel do what they like with
its registers, its mappings and the memory.  `frames` records the deliveries that
have not returned yet, newest first; nothing reads it.

The memory is physical.  A user address is translated by the descriptor of its
page, as the unprivileged loads and stores of the copy routines are.
-/

namespace Thumos

open LittleEndian GuardedRun

/-- The registers that a trap saves, `Context`. -/
@[ext] structure Context where
  r : Vector UInt32 13
  sp : UInt32
  lr : UInt32
  pc : UInt32
  cpsr : UInt32
deriving DecidableEq

inductive UserAccessError where
  | denied
deriving DecidableEq

/-! ## The status word -/

def cpsrModeUser : UInt32 := 0x10

/-- The flags, the IT state, GE, the byte order and Thumb. -/
def cpsrUserSettable : UInt32 :=
  0xF8000000 ||| 0x06000000 ||| 0x000F0000 ||| 0x0000FC00 ||| 0x00000200 ||| 0x00000020

def sanitizeUserCpsr (untrusted : UInt32) : UInt32 :=
  (untrusted &&& cpsrUserSettable) ||| cpsrModeUser

/-- A status word that user code can have: in the bits that it cannot set itself it is
the word of user mode with nothing masked. -/
def LegalCpsr (cpsr : UInt32) : Prop := cpsr &&& ~~~cpsrUserSettable = cpsrModeUser

instance (cpsr : UInt32) : Decidable (LegalCpsr cpsr) := inferInstanceAs (Decidable (_ = _))

def cpsrMode (cpsr : UInt32) : UInt32 := cpsr &&& 0x1F

/-- The bits of a status word that mask aborts, interrupts and fast interrupts. -/
def cpsrMasks (cpsr : UInt32) : UInt32 := cpsr &&& 0x1C0

theorem and_or_distrib_right (a b c : UInt32) : (a ||| b) &&& c = a &&& c ||| b &&& c := by
  refine UInt32.toBitVec_inj.mp ?_
  exact BitVec.and_or_distrib_right

theorem and_or_and_not (a b : UInt32) : a &&& b ||| a &&& ~~~b = a := by
  refine UInt32.toBitVec_inj.mp ?_
  simp only [UInt32.toBitVec_and, UInt32.toBitVec_or, UInt32.toBitVec_not]
  rw [← BitVec.and_or_distrib_left, BitVec.or_not_self, BitVec.and_allOnes]

variable {w : UInt32}

theorem legalCpsr_sanitizeUserCpsr (w : UInt32) : LegalCpsr (sanitizeUserCpsr w) := by
  have hdrop : w &&& cpsrUserSettable &&& ~~~cpsrUserSettable = 0 := by
    rw [UInt32.and_assoc, UInt32.and_not_self, UInt32.and_zero]
  have hkeep : cpsrModeUser &&& ~~~cpsrUserSettable = cpsrModeUser := by decide
  rw [LegalCpsr, sanitizeUserCpsr, and_or_distrib_right, hdrop, hkeep, UInt32.zero_or]

theorem sanitizeUserCpsr_of_legal (h : LegalCpsr w) : sanitizeUserCpsr w = w := by
  rw [sanitizeUserCpsr, ← show w &&& ~~~cpsrUserSettable = cpsrModeUser from h, and_or_and_not]

theorem LegalCpsr.field (h : LegalCpsr w) {field : UInt32}
    (hfield : ~~~cpsrUserSettable &&& field = field) : w &&& field = cpsrModeUser &&& field := by
  rw [← hfield, ← UInt32.and_assoc, show w &&& ~~~cpsrUserSettable = cpsrModeUser from h, hfield]

theorem LegalCpsr.mode (h : LegalCpsr w) : cpsrMode w = cpsrModeUser :=
  (h.field (by decide)).trans (by decide)

theorem LegalCpsr.masks (h : LegalCpsr w) : cpsrMasks w = 0 :=
  (h.field (by decide)).trans (by decide)

/-! ## The frame -/

abbrev signalFrameRegs : Nat := 17

abbrev signalFrameSize : Nat := signalFrameRegs * 4

def sigreturnNum : UInt32 := 81

def signalFrameAddress (sp : UInt32) : Except UserAccessError UInt32 :=
  if sp.toNat < signalFrameSize then .error .denied else .ok (sp - 68)

theorem signalFrameAddress_ok {sp addr : UInt32} (h : signalFrameAddress sp = .ok addr) :
    addr.toNat + signalFrameSize = sp.toNat := by
  rw [signalFrameAddress] at h
  split at h
  case isTrue => cases h
  case isFalse hroom =>
    have hle : signalFrameSize ≤ sp.toNat := not_lt.mp hroom
    cases h
    rw [UInt32.toNat_sub_of_le sp 68 (UInt32.le_iff_toNat_le.mpr hle)]
    exact Nat.sub_add_cancel hle

def Context.words (c : Context) : List UInt32 := c.r.toList ++ [c.sp, c.lr, c.pc, c.cpsr]

def encodeSignalFrame (c : Context) : List UInt8 := encode (c.words.map fun w => (4, w.toNat))

def decodeSignalFrame (encoded : List UInt8) : Context :=
  let words := (decode (List.replicate signalFrameRegs 4) encoded).map UInt32.ofNat
  { r := Vector.ofFn fun i => words.getD i 0
    sp := words.getD 13 0
    lr := words.getD 14 0
    pc := words.getD 15 0
    cpsr := sanitizeUserCpsr (words.getD 16 0) }

@[simp] theorem Context.length_words (c : Context) : c.words.length = signalFrameRegs := by
  simp [Context.words]

theorem Context.words_getD_control (c : Context) (k : Nat) :
    c.words.getD (13 + k) 0 = [c.sp, c.lr, c.pc, c.cpsr].getD k 0 := by
  have hlength : c.r.toList.length = 13 := by simp
  rw [Context.words, List.getD_eq_getElem?_getD, List.getD_eq_getElem?_getD,
    List.getElem?_append_right (by omega), hlength, Nat.add_sub_cancel_left]

@[simp] theorem length_encodeSignalFrame (c : Context) :
    (encodeSignalFrame c).length = signalFrameSize := by
  rw [encodeSignalFrame, encode_length, List.map_map]
  have hwidths : (Prod.fst ∘ fun w : UInt32 => (4, w.toNat)) = fun _ => 4 := rfl
  rw [hwidths, List.map_const', List.sum_replicate, c.length_words]
  rfl

theorem decode_encodeSignalFrame (c : Context) :
    (decode (List.replicate signalFrameRegs 4) (encodeSignalFrame c)).map UInt32.ofNat =
      c.words := by
  have hfits : ∀ f ∈ c.words.map fun w => (4, w.toNat), f.2 < 256 ^ f.1 := by
    intro f hf
    obtain ⟨w, -, rfl⟩ := List.mem_map.mp hf
    exact w.toNat_lt
  have hwords := decode_encode _ [] hfits
  rw [List.append_nil, List.map_map, List.map_map,
    show (Prod.fst ∘ fun w : UInt32 => (4, w.toNat)) = fun _ => 4 from rfl, List.map_const',
    c.length_words] at hwords
  rw [encodeSignalFrame, hwords, List.map_map]
  exact List.map_id'' (fun w => UInt32.ofNat_toNat) _

/-- Decoding inverts encoding, but for the bits of the status word that are not the
process's to set. -/
theorem decodeSignalFrame_encodeSignalFrame (c : Context) :
    decodeSignalFrame (encodeSignalFrame c) = { c with cpsr := sanitizeUserCpsr c.cpsr } := by
  rw [decodeSignalFrame, decode_encodeSignalFrame]
  refine Context.ext ?_ (c.words_getD_control 0) (c.words_getD_control 1) (c.words_getD_control 2)
    (congrArg sanitizeUserCpsr (c.words_getD_control 3))
  refine Vector.ext fun i hi => ?_
  have hlength : i < c.r.toList.length := by simpa using hi
  rw [Vector.getElem_ofFn, Context.words, List.getD_eq_getElem?_getD,
    List.getElem?_append_left hlength, List.getElem?_eq_getElem hlength]
  rfl

theorem decodeSignalFrame_of_legal {c : Context} (h : LegalCpsr c.cpsr) :
    decodeSignalFrame (encodeSignalFrame c) = c := by
  rw [decodeSignalFrame_encodeSignalFrame, sanitizeUserCpsr_of_legal h]

/-! ## User memory -/

/-- `Access`, seen from the kernel. -/
inductive Access where
  | read
  | write
deriving DecidableEq

def apMask : Attrs := 0x030

def apxBit : Attrs := 0x200

def pl0Grants (entry : L2Entry) : Access → Bool
  | .read => entry.isUser &&
    (entry.attrs &&& apMask == PageFlags.apReadOnly || entry.attrs &&& apMask == PageFlags.apFull)
  | .write => entry.isUser &&
    (entry.attrs &&& apMask == PageFlags.apFull && entry.attrs &&& apxBit == 0)

abbrev PageMap := Nat → Option L2Entry

/-- The loop of `range_grants`: the pages from `page` on that start below `stop`. -/
def pagesGrant (desc : PageMap) (access : Access) (stop : Nat) : Nat → Nat → Bool
  | 0, page => stop ≤ page
  | fuel + 1, page =>
    if page < stop then
      match desc page with
      | none => false
      | some entry =>
        if pl0Grants entry access then
          page + pageSize < 2 ^ 32 && pagesGrant desc access stop fuel (page + pageSize)
        else false
    else true

/-- `range_grants`.  A range of `len` bytes reaches into at most `len / pageSize + 2`
pages. -/
def rangeGrants (desc : PageMap) (ptr len : Nat) (access : Access) : Bool :=
  if len = 0 then true
  else if 2 ^ 32 ≤ ptr + len then false
  else pagesGrant desc access (ptr + len) (len / pageSize + 2) (ptr - ptr % pageSize)

/-- `validate_user_range` of a process, which has a table of its own. -/
def validateUserRange (desc : PageMap) (ptr len : Nat) (access : Access) : Bool :=
  ptr ≠ 0 && ptr + len < 2 ^ 32 && rangeGrants desc ptr len access

def userAddress (desc : PageMap) (va : Nat) : Nat :=
  ((desc (va - va % pageSize)).elim 0 L2Entry.page) * pageSize + va % pageSize

def copyToUser (memory : ByteSpace) (desc : PageMap) (dst : Nat) (src : List UInt8) :
    Except UserAccessError ByteSpace :=
  if validateUserRange desc dst src.length .write then
    .ok (memory.writeThrough (userAddress desc) dst src)
  else .error .denied

def copyFromUser (memory : ByteSpace) (desc : PageMap) (src len : Nat) :
    Except UserAccessError (List UInt8) :=
  if validateUserRange desc src len .read then
    .ok (memory.readThrough (userAddress desc) src len)
  else .error .denied

theorem pl0Grants_read {entry : L2Entry} (h : pl0Grants entry .write) : pl0Grants entry .read := by
  simp only [pl0Grants, Bool.and_eq_true, Bool.or_eq_true] at h ⊢
  exact ⟨h.1, .inr h.2.1⟩

theorem isUser_of_pl0Grants {entry : L2Entry} {access : Access} (h : pl0Grants entry access) :
    entry.isUser := by
  cases access <;> exact (Bool.and_eq_true_iff.mp h).1

section Range

variable {desc : PageMap} {access : Access} {stop fuel page ptr len : Nat}

/-- The walk can pass the page: it grants the access and is not the last of all. -/
def PageMap.Grants (desc : PageMap) (access : Access) (page : Nat) : Prop :=
  page + pageSize < 2 ^ 32 ∧ ∃ entry, desc page = some entry ∧ pl0Grants entry access

theorem pagesGrant_iff (hfuel : stop ≤ page + fuel * pageSize) :
    pagesGrant desc access stop fuel page ↔
      ∀ k, page + k * pageSize < stop → desc.Grants access (page + k * pageSize) := by
  induction fuel generalizing page with
  | zero =>
    rw [pagesGrant, decide_eq_true_eq]
    exact ⟨fun _ k hk => absurd hk (by omega), fun _ => by omega⟩
  | succ fuel ih =>
    rw [Nat.succ_mul, Nat.add_comm (fuel * pageSize), ← Nat.add_assoc] at hfuel
    rw [pagesGrant]
    by_cases hpage : page < stop
    · rw [if_pos hpage, ← Nat.and_forall_add_one]
      have hnext : ∀ k, page + (k + 1) * pageSize = page + pageSize + k * pageSize := by
        intro k
        rw [Nat.succ_mul, Nat.add_comm (k * pageSize), ← Nat.add_assoc]
      simp only [Nat.zero_mul, Nat.add_zero, hpage, forall_const, hnext, ← ih hfuel]
      cases hdesc : desc page with
      | none => simp [PageMap.Grants, hdesc]
      | some entry =>
        simp only [PageMap.Grants, hdesc, Bool.if_false_right, Bool.and_eq_true, decide_eq_true_eq,
          Option.some.injEq, exists_eq_left', and_assoc, and_left_comm]
    · rw [if_neg hpage]
      exact ⟨fun _ k hk => absurd hk (by omega), fun _ => rfl⟩

theorem validateUserRange_iff : validateUserRange desc ptr len access ↔
    ptr ≠ 0 ∧ ptr + len < 2 ^ 32 ∧
      ∀ va, ptr ≤ va → va < ptr + len → desc.Grants access (va - va % pageSize) := by
  simp only [validateUserRange, Bool.and_eq_true, rangeGrants, decide_eq_true_eq, and_assoc]
  refine and_congr_right fun _ => and_congr_right fun hwrap => ?_
  by_cases hlen : len = 0
  · rw [if_pos hlen]
    exact ⟨fun _ va hlow hhigh => absurd hhigh (by omega), fun _ => rfl⟩
  · rw [if_neg hlen, if_neg (by omega), pagesGrant_iff (by simp only [pageSize]; omega)]
    constructor
    · intro h va hlow hhigh
      have hpage : va - va % pageSize =
          ptr - ptr % pageSize + (va / pageSize - ptr / pageSize) * pageSize := by
        simp only [pageSize]
        omega
      rw [hpage]
      exact h _ (by omega)
    · intro h k hk
      -- The walk meets the page at its start, or the range starts inside it.
      have hva := h (max ptr (ptr - ptr % pageSize + k * pageSize)) (by omega) (by omega)
      have hpage : max ptr (ptr - ptr % pageSize + k * pageSize) -
          max ptr (ptr - ptr % pageSize + k * pageSize) % pageSize =
            ptr - ptr % pageSize + k * pageSize := by
        simp only [pageSize] at *
        omega
      rwa [hpage] at hva

theorem validateUserRange_read (h : validateUserRange desc ptr len .write) :
    validateUserRange desc ptr len .read := by
  rw [validateUserRange_iff] at h ⊢
  refine ⟨h.1, h.2.1, fun va hlow hhigh => ?_⟩
  obtain ⟨hlast, entry, hdesc, hgrants⟩ := h.2.2 va hlow hhigh
  exact ⟨hlast, entry, hdesc, pl0Grants_read hgrants⟩

end Range

def PageMap.Distinct (desc : PageMap) : Prop :=
  ∀ p q e e', desc (p * pageSize) = some e → desc (q * pageSize) = some e' →
    e.isUser → e'.isUser → e.page = e'.page → p = q

section Addresses

variable {desc : PageMap} {a b : Nat}

theorem userAddress_mod (desc : PageMap) (va : Nat) :
    userAddress desc va % pageSize = va % pageSize := by
  rw [userAddress, Nat.mul_add_mod', Nat.mod_mod]

theorem userAddress_div (desc : PageMap) (va : Nat) :
    userAddress desc va / pageSize = (desc (va - va % pageSize)).elim 0 L2Entry.page := by
  rw [userAddress, Nat.mul_comm, Nat.mul_add_div (by decide),
    Nat.div_eq_of_lt (Nat.mod_lt _ (by decide)), Nat.add_zero]

theorem userAddress_near {j k : Nat} (hj : j < pageSize) (hk : k < pageSize)
    (h : userAddress desc (a + j) = userAddress desc (a + k)) : j = k := by
  have hmod := congrArg (· % pageSize) h
  simp only [userAddress_mod, pageSize] at hmod hj hk
  omega

theorem PageMap.Distinct.userAddress_inj {access access' : Access} (hdistinct : desc.Distinct)
    (ha : ∃ e, desc (a - a % pageSize) = some e ∧ pl0Grants e access)
    (hb : ∃ e, desc (b - b % pageSize) = some e ∧ pl0Grants e access')
    (h : userAddress desc a = userAddress desc b) : a = b := by
  obtain ⟨e, he, hgrants⟩ := ha
  obtain ⟨e', he', hgrants'⟩ := hb
  have hoffset := congrArg (· % pageSize) h
  have hframe := congrArg (· / pageSize) h
  simp only [userAddress_mod, userAddress_div, he, he', Option.elim_some] at hoffset hframe
  have hpage (va : Nat) : va - va % pageSize = va / pageSize * pageSize := by
    simp only [pageSize]
    omega
  rw [hpage] at he he'
  have hsame := hdistinct _ _ e e' he he' (isUser_of_pl0Grants hgrants)
    (isUser_of_pl0Grants hgrants') hframe
  rw [← Nat.div_add_mod a pageSize, ← Nat.div_add_mod b pageSize, hsame, hoffset]

end Addresses

/-! ## The process and its traps -/

def Signal.number : Signal → UInt32
  | .sigkill => 9
  | .sigusr1 => 10
  | .sigusr2 => 12
  | .sigpipe => 13
  | .sigterm => 15
  | .sigchld => 17

/-- `check_pending_signal`: the first pending signal and its handler, if it has one. -/
def SignalState.checkPending (s : SignalState) : Option (Signal × UInt32) :=
  match s.nextPending with
  | none => none
  | some sig =>
    match s.handlers sig with
    | .handler addr => some (sig, addr)
    | _ => none

structure PendingFrame where
  addr : Nat
  saved : Context
deriving DecidableEq

structure SignalMachine where
  /-- The trap frame: what the exception return resumes. -/
  context : Context
  memory : ByteSpace
  desc : PageMap
  signals : SignalState
  /-- The process has ended because its stack could not take a frame. -/
  killed : Bool
  frames : List PendingFrame

inductive SignalEvent where
  /-- The process runs, or the kernel does something else for it or for another one. -/
  | run (context : Context) (memory : ByteSpace) (desc : PageMap) (signals : SignalState)
  /-- The exception return of an interrupt. -/
  | irq
  /-- A supervisor call. -/
  | svc

namespace SignalMachine

def handlerContext (interrupted : Context) (frameAddr : UInt32) (sig : Signal) (handler : UInt32) :
    Context :=
  { interrupted with
    sp := frameAddr
    pc := handler
    lr := UInt32.ofNat signalTrampolineVa
    r := interrupted.r.set 0 sig.number }

def deliver (m : SignalMachine) (sig : Signal) (handler : UInt32) :
    Except UserAccessError SignalMachine :=
  match signalFrameAddress m.context.sp with
  | .error e => .error e
  | .ok frameAddr =>
    match copyToUser m.memory m.desc frameAddr.toNat (encodeSignalFrame m.context) with
    | .error e => .error e
    | .ok memory => .ok { m with
        context := handlerContext m.context frameAddr sig handler
        memory
        signals := m.signals.clearPending sig
        frames := ⟨frameAddr.toNat, m.context⟩ :: m.frames }

/-- The end of `irq_handler_rust`. -/
def irqReturn (m : SignalMachine) : SignalMachine :=
  match m.signals.checkPending with
  | none => m
  | some (sig, handler) =>
    match m.deliver sig handler with
    | .error _ => { m with killed := true }
    | .ok m => m

def sigreturnFrame (m : SignalMachine) : Except UserAccessError Context :=
  match copyFromUser m.memory m.desc m.context.sp.toNat signalFrameSize with
  | .error e => .error e
  | .ok encoded => .ok (decodeSignalFrame encoded)

/-- The deliveries pending after a return to the frame at `addr`; all of them if none
wrote a frame there. -/
def unwind (frames : List PendingFrame) (addr : Nat) : List PendingFrame :=
  match frames.dropWhile fun f => f.addr ≠ addr with
  | [] => frames
  | _ :: older => older

/-- The branch of `svc_handler_rust` for `sigreturn`.  The other calls are runs. -/
def svcHandler (m : SignalMachine) : SignalMachine :=
  if m.context.r[7] = sigreturnNum then
    match m.sigreturnFrame with
    | .error _ => { m with context := { m.context with r := m.context.r.set 0 EFAULT } }
    | .ok restored =>
      { m with context := restored, frames := unwind m.frames m.context.sp.toNat }
  else m

def step (m : SignalMachine) (e : SignalEvent) : SignalMachine :=
  if m.killed then m
  else
    match e with
    | .run context memory desc signals => { m with context, memory, desc, signals }
    | .irq => m.irqReturn
    | .svc => m.svcHandler

/-! ## What a trap does -/

inductive IrqStep (m : SignalMachine) : SignalMachine → Prop
  | idle : IrqStep m m
  | killed : IrqStep m { m with killed := true }
  | delivered {sig : Signal} {handler frameAddr : UInt32}
      (hpending : m.signals.checkPending = some (sig, handler))
      (haddr : frameAddr.toNat + signalFrameSize = m.context.sp.toNat)
      (hvalid : validateUserRange m.desc frameAddr.toNat signalFrameSize .write) :
      IrqStep m { m with
        context := handlerContext m.context frameAddr sig handler
        memory := m.memory.writeThrough (userAddress m.desc) frameAddr.toNat
          (encodeSignalFrame m.context)
        signals := m.signals.clearPending sig
        frames := ⟨frameAddr.toNat, m.context⟩ :: m.frames }

theorem irqStep (m : SignalMachine) : IrqStep m m.irqReturn := by
  rw [irqReturn]
  cases hpending : m.signals.checkPending with
  | none => exact .idle
  | some found =>
    obtain ⟨sig, handler⟩ := found
    simp only [deliver]
    cases haddr : signalFrameAddress m.context.sp with
    | error e => exact .killed
    | ok frameAddr =>
      simp only [copyToUser, length_encodeSignalFrame]
      by_cases hvalid : validateUserRange m.desc frameAddr.toNat signalFrameSize .write
      · rw [if_pos hvalid]
        exact .delivered hpending (signalFrameAddress_ok haddr) hvalid
      · rw [if_neg hvalid]
        exact .killed

inductive SvcStep (m : SignalMachine) : SignalMachine → Prop
  | other : SvcStep m m
  | refused : SvcStep m { m with context := { m.context with r := m.context.r.set 0 EFAULT } }
  | returned (hvalid : validateUserRange m.desc m.context.sp.toNat signalFrameSize .read) :
      SvcStep m { m with
        context := decodeSignalFrame
          (m.memory.readThrough (userAddress m.desc) m.context.sp.toNat signalFrameSize)
        frames := unwind m.frames m.context.sp.toNat }

variable {m m' : SignalMachine}

theorem sigreturnFrame_of_valid
    (h : validateUserRange m.desc m.context.sp.toNat signalFrameSize .read) :
    m.sigreturnFrame = .ok (decodeSignalFrame
      (m.memory.readThrough (userAddress m.desc) m.context.sp.toNat signalFrameSize)) := by
  rw [sigreturnFrame, copyFromUser, if_pos h]

theorem sigreturnFrame_of_invalid
    (h : ¬ validateUserRange m.desc m.context.sp.toNat signalFrameSize .read) :
    m.sigreturnFrame = .error .denied := by
  rw [sigreturnFrame, copyFromUser, if_neg h]

theorem svcStep (m : SignalMachine) : SvcStep m m.svcHandler := by
  rw [svcHandler]
  by_cases hcall : m.context.r[7] = sigreturnNum
  · rw [if_pos hcall]
    by_cases hvalid : validateUserRange m.desc m.context.sp.toNat signalFrameSize .read
    · rw [sigreturnFrame_of_valid hvalid]
      exact .returned hvalid
    · rw [sigreturnFrame_of_invalid hvalid]
      exact .refused
  · rw [if_neg hcall]
    exact .other

inductive Taken (m : SignalMachine) : SignalEvent → SignalMachine → Prop
  | dead {e : SignalEvent} : Taken m e m
  | run {context : Context} {memory : ByteSpace} {desc : PageMap} {signals : SignalState} :
      Taken m (.run context memory desc signals) { m with context, memory, desc, signals }
  | irq {m' : SignalMachine} (hstep : IrqStep m m') : Taken m .irq m'
  | svc {m' : SignalMachine} (hstep : SvcStep m m') : Taken m .svc m'

theorem taken (m : SignalMachine) (e : SignalEvent) : Taken m e (m.step e) := by
  cases hkilled : m.killed with
  | true =>
    rw [step.eq_def, if_pos hkilled]
    exact .dead
  | false =>
    rw [step.eq_def, if_neg (by rw [hkilled]; exact Bool.false_ne_true)]
    cases e with
    | run => exact .run
    | irq => exact .irq m.irqStep
    | svc => exact .svc m.svcStep

theorem unwind_sublist (frames : List PendingFrame) (addr : Nat) :
    (unwind frames addr).Sublist frames := by
  rw [unwind]
  cases hdrop : frames.dropWhile fun f => f.addr ≠ addr with
  | nil => exact List.Sublist.refl frames
  | cons f older =>
    have htail : (f :: older).Sublist frames := hdrop ▸ List.dropWhile_sublist _
    exact (List.sublist_cons_self f older).trans htail

theorem unwind_head (f : PendingFrame) (older : List PendingFrame) :
    unwind (f :: older) f.addr = older := by
  rw [unwind, List.dropWhile_cons_of_neg (by simp)]

/-! ## No privilege is gained -/

theorem legalCpsr_decodeSignalFrame (encoded : List UInt8) :
    LegalCpsr (decodeSignalFrame encoded).cpsr :=
  legalCpsr_sanitizeUserCpsr _

theorem legalCpsr_sigreturnFrame {restored : Context} (h : m.sigreturnFrame = .ok restored) :
    LegalCpsr restored.cpsr := by
  by_cases hvalid : validateUserRange m.desc m.context.sp.toNat signalFrameSize .read
  · rw [sigreturnFrame_of_valid hvalid] at h
    cases h
    exact legalCpsr_decodeSignalFrame _
  · rw [sigreturnFrame_of_invalid hvalid] at h
    cases h

/-- User code leaves the bits of its status word alone that it cannot set. -/
def UserMode (_ : SignalMachine) : SignalEvent → Prop
  | .run context _ _ _ => LegalCpsr context.cpsr
  | _ => True

structure Legal (m : SignalMachine) : Prop where
  context : LegalCpsr m.context.cpsr
  frames : ∀ f ∈ m.frames, LegalCpsr f.saved.cpsr

theorem Legal.irq (h : m.Legal) (hstep : IrqStep m m') : m'.Legal := by
  cases hstep with
  | idle => exact h
  | killed => exact ⟨h.context, h.frames⟩
  | delivered =>
    exact ⟨h.context, List.forall_mem_cons.mpr ⟨h.context, h.frames⟩⟩

theorem Legal.svc (h : m.Legal) (hstep : SvcStep m m') : m'.Legal := by
  cases hstep with
  | other => exact h
  | refused => exact ⟨h.context, h.frames⟩
  | returned =>
    exact ⟨legalCpsr_decodeSignalFrame _, fun f hf => h.frames f ((unwind_sublist _ _).mem hf)⟩

theorem Legal.event {e : SignalEvent} (h : m.Legal) (hguard : m.UserMode e) (htaken : Taken m e m')
    : m'.Legal := by
  cases htaken with
  | dead => exact h
  | run => exact ⟨hguard, h.frames⟩
  | irq hstep => exact h.irq hstep
  | svc hstep => exact h.svc hstep

/-! ## Frames stay as they were written -/

/-- The process has left the frame alone: its bytes are those of the delivery, and they
can be read. -/
structure Untouched (memory : ByteSpace) (desc : PageMap) (f : PendingFrame) : Prop where
  bytes : memory.readThrough (userAddress desc) f.addr signalFrameSize = encodeSignalFrame f.saved
  readable : validateUserRange desc f.addr signalFrameSize .read

def ClearOf (sp : UInt32) (f : PendingFrame) : Prop :=
  sp.toNat ≤ f.addr ∨ f.addr + signalFrameSize + signalFrameSize ≤ sp.toNat

/-- A process that keeps the frames of its pending deliveries, with no two pages on one
frame of memory. -/
def Disciplined (m : SignalMachine) : SignalEvent → Prop
  | .run context memory desc _ => LegalCpsr context.cpsr ∧ ∀ f ∈ m.frames, Untouched memory desc f
  | .irq => m.signals.checkPending ≠ none →
    m.desc.Distinct ∧ ∀ f ∈ m.frames, ClearOf m.context.sp f
  | .svc => True

theorem untouched_delivered {memory : ByteSpace} {desc : PageMap} {addr : Nat} {c : Context}
    (hvalid : validateUserRange desc addr signalFrameSize .write) :
    Untouched (memory.writeThrough (userAddress desc) addr (encodeSignalFrame c)) desc
      ⟨addr, c⟩ := by
  refine ⟨?_, validateUserRange_read hvalid⟩
  have hlength := length_encodeSignalFrame c
  -- The frame is shorter than a page, so its bytes have different offsets in their pages.
  have hshort {k : Nat} (hk : k < (encodeSignalFrame c).length) : k < pageSize :=
    lt_trans (hlength ▸ hk) (by decide)
  have hapart : ∀ j < (encodeSignalFrame c).length, ∀ k < (encodeSignalFrame c).length,
      userAddress desc (addr + j) = userAddress desc (addr + k) → j = k :=
    fun j hj k hk heq => userAddress_near (hshort hj) (hshort hk) heq
  have hself := ByteSpace.readThrough_writeThrough_self (m := memory) hapart
  rwa [hlength] at hself

theorem Untouched.delivered {memory : ByteSpace} {desc : PageMap} {addr : Nat} {c : Context}
    {f : PendingFrame} (h : Untouched memory desc f) (hdistinct : desc.Distinct)
    (hvalid : validateUserRange desc addr signalFrameSize .write)
    (hclear : addr + signalFrameSize ≤ f.addr ∨ f.addr + signalFrameSize ≤ addr) :
    Untouched (memory.writeThrough (userAddress desc) addr (encodeSignalFrame c)) desc f := by
  refine ⟨?_, h.readable⟩
  rw [ByteSpace.readThrough_writeThrough_of_ne, h.bytes]
  intro j hj k hk heq
  rw [length_encodeSignalFrame] at hk
  have hsame : addr + k = f.addr + j :=
    hdistinct.userAddress_inj ((validateUserRange_iff.mp hvalid).2.2 _ (by omega) (by omega)).2
      ((validateUserRange_iff.mp h.readable).2.2 _ (by omega) (by omega)).2 heq
  omega

def Kept (m : SignalMachine) : Prop := ∀ f ∈ m.frames, Untouched m.memory m.desc f

theorem Kept.irq (h : m.Kept) (hguard : m.Disciplined .irq) (hstep : IrqStep m m') : m'.Kept := by
  cases hstep with
  | idle => exact h
  | killed => exact h
  | delivered hpending haddr hvalid =>
    obtain ⟨hdistinct, hclear⟩ := hguard (by rw [hpending]; exact Option.some_ne_none _)
    intro f hf
    rcases List.mem_cons.mp hf with rfl | hf
    · exact untouched_delivered hvalid
    · have hbeside := hclear f hf
      exact (h f hf).delivered hdistinct hvalid (by rw [ClearOf] at hbeside; omega)

theorem Kept.event {e : SignalEvent} (h : m.Kept) (hguard : m.Disciplined e) (htaken : Taken m e m')
    : m'.Kept := by
  cases htaken with
  | dead => exact h
  | run => exact hguard.2
  | irq hstep => exact h.irq hguard hstep
  | svc hstep =>
    cases hstep with
    | other => exact h
    | refused => exact h
    | returned => exact fun f hf => h f ((unwind_sublist _ _).mem hf)

/-! ## Returning -/

theorem svcHandler_of_untouched {f : PendingFrame} (hcall : m.context.r[7] = sigreturnNum)
    (hsp : m.context.sp.toNat = f.addr) (hf : Untouched m.memory m.desc f)
    (hlegal : LegalCpsr f.saved.cpsr) :
    m.svcHandler = { m with context := f.saved, frames := unwind m.frames f.addr } := by
  have hvalid : validateUserRange m.desc m.context.sp.toNat signalFrameSize .read :=
    hsp ▸ hf.readable
  rw [svcHandler, if_pos hcall, sigreturnFrame_of_valid hvalid, hsp, hf.bytes,
    decodeSignalFrame_of_legal hlegal]

theorem legal_of_runs {m₀ m : SignalMachine} (hcpsr : LegalCpsr m₀.context.cpsr)
    (hframes : m₀.frames = []) (hrun : Runs step UserMode m₀ m) : m.Legal := by
  refine hrun.invariant (I := Legal) ⟨hcpsr, ?_⟩ fun m e h hguard => h.event hguard (m.taken e)
  rw [hframes]
  exact fun f hf => absurd hf List.not_mem_nil

theorem kept_of_runs {m₀ m : SignalMachine} (hframes : m₀.frames = [])
    (hrun : Runs step Disciplined m₀ m) : m.Kept := by
  refine hrun.invariant (I := Kept) ?_ fun m e h hguard => h.event hguard (m.taken e)
  rw [Kept, hframes]
  exact fun f hf => absurd hf List.not_mem_nil

/-- Take any run of a process, with any activity between its traps.  The process is
always in user mode with nothing masked, and so is what `sigreturn` resumes, whatever
the memory holds.  `sigreturn` at the frame of a pending delivery that was left alone
resumes the context of that delivery; if the delivery is the newest one then the older
ones are pending after it.  Deliveries and returns leave the frames of all pending
deliveries alone: if the process does too, they all hold the contexts of their
deliveries. -/
theorem signal_frames_restore {m₀ m : SignalMachine} (hcpsr : LegalCpsr m₀.context.cpsr)
    (hframes : m₀.frames = []) (hrun : Runs step UserMode m₀ m) :
    (LegalCpsr m.context.cpsr ∧ cpsrMode m.context.cpsr = cpsrModeUser ∧
      cpsrMasks m.context.cpsr = 0) ∧
    (∀ (memory : ByteSpace) (restored : Context),
      sigreturnFrame { m with memory } = .ok restored →
        LegalCpsr restored.cpsr ∧ cpsrMode restored.cpsr = cpsrModeUser ∧
          cpsrMasks restored.cpsr = 0) ∧
    (m.killed = false → m.context.r[7] = sigreturnNum →
      (∀ f ∈ m.frames, m.context.sp.toNat = f.addr → Untouched m.memory m.desc f →
        (m.step .svc).context = f.saved) ∧
      ∀ f older, m.frames = f :: older → m.context.sp.toNat = f.addr →
        Untouched m.memory m.desc f → (m.step .svc).frames = older) ∧
    (Runs step Disciplined m₀ m → ∀ f ∈ m.frames, Untouched m.memory m.desc f) := by
  have hlegal := legal_of_runs hcpsr hframes hrun
  refine ⟨⟨hlegal.context, hlegal.context.mode, hlegal.context.masks⟩, ?_, ?_, kept_of_runs hframes⟩
  · intro memory restored hok
    have hrestored := legalCpsr_sigreturnFrame hok
    exact ⟨hrestored, hrestored.mode, hrestored.masks⟩
  · intro halive hcall
    have hstep : m.step .svc = m.svcHandler := by
      rw [step.eq_def, if_neg (by rw [halive]; exact Bool.false_ne_true)]
    rw [hstep]
    constructor
    · intro f hf hsp huntouched
      rw [svcHandler_of_untouched hcall hsp huntouched (hlegal.frames f hf)]
    · intro f older hcons hsp huntouched
      have hmem : f ∈ m.frames := hcons ▸ List.mem_cons_self
      rw [svcHandler_of_untouched hcall hsp huntouched (hlegal.frames f hmem), hcons]
      exact unwind_head f older

def interrupted : SignalMachine where
  context := ⟨Vector.replicate 13 sigreturnNum, 0x9000, 0x8004, 0x8010, 0x60000010⟩
  memory := fun _ => 0
  desc := fun va => some ⟨va / pageSize, PageFlags.smallPage ||| PageFlags.ng ||| PageFlags.apFull⟩
  signals := ⟨fun _ => .handler 0x8100, fun sig => sig = .sigusr1 ∨ sig = .sigterm⟩
  killed := false
  frames := []

theorem interrupted_distinct : interrupted.desc.Distinct := by
  intro p q e e' hp hq _ _ hpage
  cases hp
  cases hq
  simpa [pageSize] using hpage

def handling : SignalMachine := interrupted.step .irq

def nested : SignalMachine := handling.step .irq

theorem handling_frames : handling.frames = [⟨0x8FBC, interrupted.context⟩] := by
  decide +kernel

theorem nested_frames :
    nested.frames = [⟨0x8F78, handling.context⟩, ⟨0x8FBC, interrupted.context⟩] := by
  decide +kernel

theorem nested_disciplined : Runs step Disciplined interrupted nested := by
  have hfirst : interrupted.Disciplined .irq := fun _ =>
    ⟨interrupted_distinct, fun f hf => absurd hf List.not_mem_nil⟩
  have hsecond : handling.Disciplined .irq := by
    refine fun _ => ⟨interrupted_distinct, fun f hf => ?_⟩
    rw [handling_frames] at hf
    rw [List.mem_singleton.mp hf]
    exact .inl (by decide +kernel)
  exact .event _ (.event _ .start hfirst) hsecond

/-- The two returns resume the first handler and then the program. -/
theorem signal_frames_restore_nested :
    (nested.step .svc).context = handling.context ∧
      ((nested.step .svc).step .svc).context = interrupted.context := by
  have hrun : Runs step UserMode interrupted nested := .event _ (.event _ .start trivial) trivial
  obtain ⟨-, -, hreturn, hkept⟩ := signal_frames_restore (by decide) rfl hrun
  have huntouched := hkept nested_disciplined
  have htop : nested.context.sp.toNat = 0x8F78 := by decide +kernel
  rw [nested_frames] at huntouched hreturn
  exact ⟨(hreturn (by decide +kernel) (by decide +kernel)).1 _ List.mem_cons_self htop
    (huntouched _ List.mem_cons_self), by decide +kernel⟩

end SignalMachine

/-! ## User ranges -/

/-- What the descriptors let user mode do at an address: AP[1] admits it, and it may
write as well if AP[0] is set and AP[2] is not. -/
def Mmu.userMay (m : Mmu) (t : Fin maxAddrSpaces) (va : Nat) (access : Access) : Bool :=
  (m.view t (pageIdx va)).any View.user && (access = .read ||
    (m.entry t (pageIdx va)).any fun e => e.attrs.getLsbD 4 && !e.attrs.getLsbD 9)

/-- The address lies on a small page that is not global. -/
def Mmu.ownPage (m : Mmu) (t : Fin maxAddrSpaces) (va : Nat) : Bool :=
  (m.entry t (pageIdx va)).any fun e => e.attrs.getLsbD 1 && e.attrs.getLsbD 11

section Bits

variable (a : Attrs) (e : L2Entry)

theorem and_twoPow_ne_zero {k : Nat} (hk : k < 12) :
    decide (a &&& BitVec.twoPow 12 k ≠ 0) = a.getLsbD k := by
  rw [BitVec.and_twoPow, Bool.eq_iff_iff, decide_eq_true_eq]
  split
  · refine iff_of_true (fun h => ?_) ‹_›
    have := congrArg (·.getLsbD k) h
    simp [hk] at this
  · exact iff_of_false (fun h => h rfl) ‹_›

theorem and_apMask : a &&& apMask =
    (if a.getLsbD 4 then 0x010 else 0) ||| (if a.getLsbD 5 then 0x020 else 0) := by
  have hmask : apMask = BitVec.twoPow 12 4 ||| BitVec.twoPow 12 5 := rfl
  rw [hmask, BitVec.and_or_distrib_left, BitVec.and_twoPow, BitVec.and_twoPow]
  rfl

theorem L2Entry.isUser_eq : e.isUser = (e.attrs.getLsbD 1 && e.attrs.getLsbD 11) := by
  rw [L2Entry.isUser, Bool.decide_and]
  exact congrArg₂ and (and_twoPow_ne_zero e.attrs (k := 1) (by decide))
    (and_twoPow_ne_zero e.attrs (k := 11) (by decide))

theorem pl0Grants_eq (access : Access) :
    pl0Grants e access = (e.isUser && (e.attrs.getLsbD 5 && (access = .read ||
      e.attrs.getLsbD 4 && !e.attrs.getLsbD 9))) := by
  cases access with
  | read =>
    rw [pl0Grants, and_apMask]
    cases e.attrs.getLsbD 4 <;> cases e.attrs.getLsbD 5 <;> rfl
  | write =>
    have hapx : (e.attrs &&& apxBit == 0) = !e.attrs.getLsbD 9 := by
      rw [← and_twoPow_ne_zero _ (by decide), decide_not, Bool.not_not]
      rfl
    rw [pl0Grants, and_apMask, hapx]
    cases e.attrs.getLsbD 4 <;> cases e.attrs.getLsbD 5 <;> rfl

end Bits

/-- The checks of `pl0_grants` are the rules of the hardware, on pages of the process. -/
theorem Mmu.grants_iff (m : Mmu) (t : Fin maxAddrSpaces) (va : Nat) (access : Access) :
    (∃ e, m.readL2Entry t va = some e ∧ pl0Grants e access) ↔
      m.userMay t va access ∧ m.ownPage t va := by
  simp only [readL2Entry_eq, userMay, ownPage, view, viewUnder, entry]
  cases m.tables t (pageIdx va).1 with
  | absent => simp
  | sect mb type => simp
  | coarse l2 =>
    dsimp only
    generalize m.entryAt l2 (pageIdx va).2 = e
    have haccess : e.access = e.attrs.getLsbD 5 := and_twoPow_ne_zero e.attrs (k := 5) (by decide)
    simp only [Option.some.injEq, exists_eq_left', pl0Grants_eq, ← L2Entry.isUser_eq,
      Option.any_some, Bool.and_eq_true]
    by_cases huser : e.isUser = true
    · rw [if_pos (isMapped_of_isUser huser), Option.any_some, haccess]
      exact and_comm
    · exact iff_of_false (fun h => huser h.1) fun h => huser h.2

theorem pageIdx_page (va : Nat) : pageIdx (va - va % pageSize) = pageIdx va := by
  have hsection : (va - va % pageSize) / 2 ^ 20 = va / 2 ^ 20 := by
    simp only [pageSize]
    omega
  have hpage : (va - va % pageSize) / pageSize = va / pageSize := by
    simp only [pageSize]
    omega
  rw [pageIdx, l1Index, l2Index, hsection, hpage]
  rfl

/-- A range of user memory is accepted exactly if it is not null, ends before the end of
the address space and every byte lies on a page of the process, other than the last of
all, where the descriptors let user mode make the access. -/
theorem user_range_exact (m : Mmu) (t : Fin maxAddrSpaces) (ptr len : UInt32) (access : Access) :
    validateUserRange (m.readL2Entry t) ptr.toNat len.toNat access ↔
      ptr.toNat ≠ 0 ∧ ptr.toNat + len.toNat < 2 ^ 32 ∧
        ∀ va, ptr.toNat ≤ va → va < ptr.toNat + len.toNat →
          va - va % pageSize + pageSize < 2 ^ 32 ∧ m.userMay t va access ∧ m.ownPage t va := by
  rw [validateUserRange_iff]
  simp only [PageMap.Grants, Mmu.readL2Entry_eq, pageIdx_page, ← m.grants_iff]

/-- Tables that give every page the attributes. -/
def everyPage (attrs : Attrs) : Mmu where
  tables := fun _ _ => .coarse (.pool 0)
  spaceAlloc := fun _ => true
  l2Tables := fun _ i => ⟨i, attrs⟩
  l2Alloc := fun _ => true
  kernelL2 := fun _ _ => .zero

/-- Where user mode may read every page, the null address, a byte of the last page, a range
up to the end of the address space and a byte of a global page are refused. -/
theorem granted_ranges_refused :
    let m := everyPage (PageFlags.smallPage ||| PageFlags.ng ||| PageFlags.apFull)
    let shared := everyPage (PageFlags.smallPage ||| PageFlags.apFull)
    (∀ va ∈ [0, 0xFFFFEFFF, 0xFFFFF000], m.userMay 0 va .read) ∧
      ¬ validateUserRange (m.readL2Entry 0) 0 0 .read ∧
      ¬ validateUserRange (m.readL2Entry 0) 0xFFFFF000 1 .read ∧
      ¬ validateUserRange (m.readL2Entry 0) 0xFFFFEFFF 0x1001 .read ∧
      shared.userMay 0 0x1000 .read ∧
      ¬ validateUserRange (shared.readL2Entry 0) 0x1000 1 .read := by
  decide +kernel

/-! ## Pending signals -/

namespace SignalState

def handled (s : SignalState) (sig : Signal) : Bool :=
  s.pending sig && s.handlers sig matches .handler _

/-- The signals that `n` returns to user mode deliver, each cleared as it is delivered. -/
def deliveries : Nat → SignalState → List Signal
  | 0, _ => []
  | n + 1, s =>
    match s.checkPending with
    | some (sig, _) => sig :: (s.clearPending sig).deliveries n
    | none => []

/-- No pending signal without a user handler lies below one that has one. -/
def Unmasked (s : SignalState) : Prop :=
  Signal.ascending.Pairwise fun sig sig' => s.pending sig → s.handled sig' → s.handled sig

theorem find?_filter_of_pairwise {α : Type} {p q : α → Bool} {l : List α} (hqp : ∀ a, q a → p a)
    (h : l.Pairwise fun a b => p a → q b → q a) : (l.find? p).filter q = l.find? q := by
  induction h with
  | nil => rfl
  | @cons a l hhead _ ih =>
    by_cases hq : q a
    · simp [hq, hqp a hq]
    · by_cases hp : p a
      · have hrest : l.find? q = none :=
          List.find?_eq_none.mpr fun b hb hqb => hq (hhead b hb hp hqb)
        simp [hp, hq, hrest]
      · simp [hp, hq, ih]

variable {s : SignalState}

theorem Unmasked.checkPending (h : s.Unmasked) :
    s.checkPending.map Prod.fst = (Signal.ascending.filter s.handled).head? := by
  have hfilter : s.nextPending.filter s.handled = Signal.ascending.find? s.handled :=
    find?_filter_of_pairwise (fun sig hsig => (Bool.and_eq_true_iff.mp hsig).1) h
  rw [List.head?_filter, ← hfilter, SignalState.checkPending]
  cases hnext : s.nextPending with
  | none => rfl
  | some sig =>
    have hpending : s.pending sig := List.find?_some hnext
    cases haction : s.handlers sig <;> simp [Option.filter, handled, hpending, haction]

theorem handled_clearPending (s : SignalState) (sig : Signal) :
    (s.clearPending sig).handled = fun sig' => sig' != sig && s.handled sig' := by
  funext sig'
  by_cases heq : sig' = sig <;> simp [handled, clearPending, heq]

theorem Unmasked.clearPending (h : s.Unmasked) (sig : Signal) : (s.clearPending sig).Unmasked := by
  refine List.Pairwise.imp (fun {a b} hmask ha hb => ?_) h
  rw [handled_clearPending] at hb ⊢
  by_cases heq : a = sig
  · simp [SignalState.clearPending, heq] at ha
  · have hpending : s.pending a := by simpa [SignalState.clearPending, heq] using ha
    simp [heq, hmask hpending (Bool.and_eq_true_iff.mp hb).2]

theorem filter_handled_clearPending {sig : Signal} {rest : List Signal}
    (h : Signal.ascending.filter s.handled = sig :: rest) :
    Signal.ascending.filter (s.clearPending sig).handled = rest := by
  have hnodup : (Signal.ascending.filter s.handled).Nodup := .filter _ (by decide)
  rw [handled_clearPending, ← List.filter_filter, ← hnodup.erase_eq_filter, h,
    List.erase_cons_head]

theorem Unmasked.deliveries (h : s.Unmasked) (n : Nat) :
    s.deliveries n = (Signal.ascending.filter s.handled).take n := by
  induction n generalizing s with
  | zero => rfl
  | succ n ih =>
    have hfirst := h.checkPending
    rw [SignalState.deliveries]
    cases hcheck : s.checkPending with
    | none =>
      rw [hcheck] at hfirst
      rw [List.head?_eq_none_iff.mp hfirst.symm, List.take_nil]
    | some found =>
      rw [hcheck] at hfirst
      obtain ⟨rest, hrest⟩ := List.head?_eq_some_iff.mp hfirst.symm
      rw [hrest, List.take_succ_cons, ← filter_handled_clearPending hrest,
        ← ih (h.clearPending _)]

theorem checkPending_some {sig : Signal} {addr : UInt32} (h : s.checkPending = some (sig, addr)) :
    s.nextPending = some sig ∧ s.handlers sig = .handler addr := by
  rw [SignalState.checkPending] at h
  split at h
  · cases h
  · rename_i hnext
    split at h
    case h_1 haddr =>
      cases h
      exact ⟨hnext, haddr⟩
    · cases h

/-- Below the first pending signal nothing is pending, so only the signals above it can
mask one another. -/
theorem unmasked_of_clearPending {sig : Signal} (hnext : s.nextPending = some sig)
    (hhandled : s.handled sig) (h : (s.clearPending sig).Unmasked) : s.Unmasked := by
  have hnodup : Signal.ascending.Nodup := by decide
  obtain ⟨-, below, above, hsplit, hbelow⟩ := List.find?_eq_some_iff_append.mp hnext
  rw [hsplit] at hnodup
  have habove : sig ∉ above := (List.nodup_cons.mp (List.nodup_append.mp hnodup).2.1).1
  rw [Unmasked, hsplit] at h ⊢
  obtain ⟨-, h, -⟩ := List.pairwise_append.mp h
  have hidle : ∀ a ∈ below, ¬ s.pending a := fun a ha hpending => by
    have := hbelow a ha
    simp [hpending] at this
  refine List.pairwise_append.mpr ⟨?_, List.pairwise_cons.mpr ⟨fun _ _ _ _ => hhandled, ?_⟩,
    fun a ha _ _ hpending => absurd hpending (hidle a ha)⟩
  · exact List.pairwise_of_forall_mem_list fun a ha _ _ hpending => absurd hpending (hidle a ha)
  · refine (List.pairwise_cons.mp h).2.imp_of_mem fun {a b} ha hb hmask hpending hb' => ?_
    have hne : ∀ c ∈ above, c ≠ sig := fun c hc heq => habove (heq ▸ hc)
    rw [handled_clearPending] at hmask
    simpa [hne a ha, hne b hb, hb', hpending, SignalState.clearPending] using hmask

theorem unmasked_of_deliveries
    (h : ∀ n, s.deliveries n = (Signal.ascending.filter s.handled).take n) : s.Unmasked := by
  induction hfilter : Signal.ascending.filter s.handled generalizing s with
  | nil =>
    refine List.pairwise_of_forall_mem_list fun a _ b hb _ hhandled => ?_
    exact absurd hhandled (List.filter_eq_nil_iff.mp hfilter b hb)
  | cons sig rest ih =>
    rw [hfilter] at h
    cases hcheck : s.checkPending with
    | none =>
      have hfirst := h 1
      rw [SignalState.deliveries, hcheck] at hfirst
      cases hfirst
    | some found =>
      have hnext : ∀ n, found.1 :: (s.clearPending found.1).deliveries n =
          sig :: rest.take n := fun n => by
        rw [← List.take_succ_cons, ← h (n + 1), SignalState.deliveries, hcheck]
      obtain rfl : found.1 = sig := (List.cons.inj (hnext 0)).1
      have hclear := filter_handled_clearPending hfilter
      refine unmasked_of_clearPending (checkPending_some hcheck).1 ?_ (ih (fun n => ?_) hclear)
      · exact (List.mem_filter.mp (hfilter ▸ List.mem_cons_self)).2
      · rw [hclear]
        exact (List.cons.inj (hnext n)).2

/-- The lowest pending signal with a handler is returned, with its handler, and
deliveries drain these signals in the order of their numbers, if and only if none of
them is masked. -/
theorem pending_signals_drain :
    (s.checkPending.map Prod.fst = (Signal.ascending.filter s.handled).head? ∧
      (∀ sig addr, s.checkPending = some (sig, addr) → s.handlers sig = .handler addr) ∧
      ∀ n, s.deliveries n = (Signal.ascending.filter s.handled).take n) ↔ s.Unmasked :=
  ⟨fun h => unmasked_of_deliveries h.2.2,
    fun h => ⟨h.checkPending, fun _ _ hcheck => (checkPending_some hcheck).2, h.deliveries⟩⟩

/-- `sigaction` takes the handler of one of the two pending signals away. -/
def unhandling (sig : Signal) : SignalState :=
  SignalMachine.interrupted.signals.setAction sig .default

/-- The signal without a handler masks the other one. -/
theorem pending_signal_masked :
    (unhandling .sigusr1).handled .sigterm ∧ (unhandling .sigusr1).checkPending = none ∧
      (unhandling .sigusr1).deliveries 2 = [] := by
  decide

end SignalState

end Thumos
