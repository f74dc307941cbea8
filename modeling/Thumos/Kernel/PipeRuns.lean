import Thumos.Lib.Ring
import Thumos.Kernel.Fd

/-!
# Pipes as byte streams

The bytes that a pipe has accepted are those it has delivered followed by those
in its buffer, whatever is read and written (`pipe_stream`).

The second part is about the flags word of a description.  `F_SETFL` sets bit 10
of that word, and the index of a pipe lies in the bits 9 to 11: a pipe whose
descriptor is asked to append becomes another pipe.
-/

namespace Thumos

open Ring List Option UInt32

namespace PipeBuffer

def contents (buf : PipeBuffer) : List UInt8 := queue buf.data buf.readPos buf.count

theorem length_contents (buf : PipeBuffer) : buf.contents.length = buf.count := by
  simp [contents, queue]

structure Whole (buf : PipeBuffer) : Prop where
  count_le : buf.count ≤ pipeBufSize
  writePos : buf.writePos = buf.readPos + Fin.ofNat pipeBufSize buf.count

variable {buf : PipeBuffer}

theorem peek_eq (buf : PipeBuffer) (len : Nat) : buf.peek len = buf.contents.take len := by
  rcases le_total len buf.count with h | h
  · rw [contents, queue_take _ _ h, peek, min_eq_left h, queue]
  · rw [take_of_length_le (by rwa [length_contents]), peek, min_eq_right h]
    rfl

theorem foldl_writeByte (src : List UInt8) {m : Nat} (hm : m + src.length ≤ pipeBufSize)
    (hpos : buf.writePos = buf.readPos + Fin.ofNat pipeBufSize m) :
    let buf' := src.foldl writeByte buf
    buf'.readPos = buf.readPos ∧
      buf'.writePos = buf.readPos + Fin.ofNat pipeBufSize (m + src.length) ∧
      queue buf'.data buf.readPos (m + src.length) = queue buf.data buf.readPos m ++ src := by
  induction src generalizing buf m with
  | nil => exact ⟨rfl, hpos, by simp⟩
  | cons b src ih =>
    rw [length_cons, ← Nat.add_assoc, Nat.add_right_comm] at hm ⊢
    have hnext : (buf.writeByte b).writePos = buf.readPos + Fin.ofNat pipeBufSize (m + 1) := by
      rw [add_ofNat_add, ← hpos]
      rfl
    obtain ⟨hread, hwrite, hqueue⟩ := ih hm hnext
    refine ⟨hread, hwrite, hqueue.trans ?_⟩
    have hpush := queue_push buf.data buf.readPos (show m < pipeBufSize by omega) b
    rw [← hpos] at hpush
    show queue (Function.update buf.data buf.writePos b) buf.readPos (m + 1) ++ src = _
    rw [hpush, append_assoc]
    rfl

theorem writeClosed_foldl (src : List UInt8) (buf : PipeBuffer) :
    (src.foldl writeByte buf).writeClosed = buf.writeClosed := by
  induction src generalizing buf with
  | nil => rfl
  | cons b src ih => exact ih (buf.writeByte b)

theorem Whole.write (h : Whole buf) (src : List UInt8) :
    Whole (buf.write src).2 ∧
      (buf.write src).2.contents = buf.contents ++ src.take (buf.write src).1 := by
  have hle := h.count_le
  have hlen : (src.take (buf.write src).1).length = (buf.write src).1 :=
    length_take_of_le (min_le_left ..)
  have hroom : buf.count + (buf.write src).1 ≤ pipeBufSize := by
    have : (buf.write src).1 ≤ pipeBufSize - buf.count := min_le_right ..
    omega
  obtain ⟨hread, hwrite, hqueue⟩ :=
    foldl_writeByte (src.take (buf.write src).1) (by rwa [hlen]) h.writePos
  rw [hlen] at hwrite hqueue
  refine ⟨⟨hroom, hwrite.trans ?_⟩, Eq.trans ?_ hqueue⟩
  · rw [← hread]
    rfl
  · rw [← hread]
    rfl

theorem Whole.consume (h : Whole buf) {len : Nat} (hlen : len ≤ buf.count) :
    Whole (buf.consume len) ∧ (buf.consume len).contents = buf.contents.drop len := by
  rw [PipeBuffer.consume, min_eq_left hlen]
  refine ⟨⟨(Nat.sub_le ..).trans h.count_le, ?_⟩, (queue_drop ..).symm⟩
  show buf.writePos = buf.readPos + _ + _
  rw [← add_ofNat_add, Nat.add_sub_cancel' hlen]
  exact h.writePos

end PipeBuffer

/-! ## Runs -/

/-- A pipe in use, with the bytes accepted from its writers and the bytes
delivered to its readers so far. -/
structure PipeRun where
  view : FdView
  accepted : List UInt8
  delivered : List UInt8

/-- A call on the pipe, or the close of the last descriptor of one of its ends. -/
inductive PipeEvent where
  | write (bytes : List UInt8) (tr : FdView.Transfer)
  | read (count : UInt32) (tr : FdView.Transfer)
  | close (endIsWrite : Bool)

namespace PipeRun

def moved (answer : UInt32) : Nat := if answer.toNat ≤ pipeCopyChunk then answer.toNat else 0

variable (k : Fin maxPipes)

def copied (v : FdView) (answer : UInt32) : List UInt8 :=
  ((v.files.pipes k).map fun buf => buf.peek (moved answer)).getD []

def step (r : PipeRun) : PipeEvent → PipeRun
  | .write bytes tr =>
    let (answer, view) := r.view.sysPipeWrite k bytes tr
    { r with view, accepted := r.accepted ++ bytes.take (moved answer) }
  | .read count tr =>
    let (answer, view) := r.view.sysPipeRead k count tr
    { r with view, delivered := r.delivered ++ copied k r.view answer }
  | .close endIsWrite =>
    { r with view := { r.view with files := r.view.files.onPipeFdClosed k endIsWrite } }

variable {k} {r : PipeRun} {buf : PipeBuffer}

/-- What was accepted is what was delivered and, while the pipe exists, the
contents of its buffer. -/
structure Streams (k : Fin maxPipes) (r : PipeRun) : Prop where
  ordered : r.delivered <+: r.accepted
  rest : ∀ buf, r.view.files.pipes k = some buf →
    buf.Whole ∧ r.accepted = r.delivered ++ buf.contents

theorem moved_ofNat {n : Nat} (h : n ≤ pipeCopyChunk) : moved (ofNat n) = n := by
  have hn : n < 2 ^ 32 := lt_of_le_of_lt h (by decide)
  rw [moved, toNat_ofNat_of_lt' hn, if_pos h]

theorem sysPipeWrite_cases (v : FdView) (bytes : List UInt8) (tr : FdView.Transfer) :
    (∃ e, v.sysPipeWrite k bytes tr = (e, v) ∧ moved e = 0) ∨
      ∃ buf, v.files.pipes k = some buf ∧
        let src := bytes.take (min (pipeBufSize - buf.count) pipeCopyChunk)
        v.sysPipeWrite k bytes tr = (ofNat (buf.write src).1,
          ⟨v.table, { v.files with pipes := v.files.pipes.put k (buf.write src).2 }⟩) := by
  unfold FdView.sysPipeWrite
  split
  · exact .inl ⟨_, rfl, by decide⟩
  split
  · exact .inl ⟨_, rfl, by decide⟩
  rename_i buf hbuf
  split
  · exact .inl ⟨_, rfl, by decide⟩
  split
  · exact .inl ⟨_, rfl, by decide⟩
  split
  · exact .inl ⟨_, rfl, by decide⟩
  · exact .inr ⟨buf, hbuf, rfl⟩

theorem sysPipeRead_cases (v : FdView) (count : UInt32) (tr : FdView.Transfer) :
    (∃ e, v.sysPipeRead k count tr = (e, v) ∧ moved e = 0 ∧
      (e = 0 → ∃ buf, v.files.pipes k = some buf ∧ buf.count = 0 ∧ buf.writeClosed = true)) ∨
      ∃ buf, v.files.pipes k = some buf ∧ buf.count ≠ 0 ∧ tr.copied = true ∧
        let read := min (min count.toNat buf.count) pipeCopyChunk
        v.sysPipeRead k count tr = (ofNat read,
          ⟨v.table, { v.files with pipes := v.files.pipes.put k (buf.consume read) }⟩) := by
  unfold FdView.sysPipeRead
  split
  · exact .inl ⟨_, rfl, by decide, nofun⟩
  split
  · exact .inl ⟨_, rfl, by decide, nofun⟩
  rename_i buf hbuf
  split
  · rename_i hempty
    split
    · rename_i hclosed
      exact .inl ⟨_, rfl, by decide, fun _ => ⟨buf, hbuf, hempty, hclosed⟩⟩
    · exact .inl ⟨_, rfl, by decide, nofun⟩
  rename_i hcount
  split
  · exact .inl ⟨_, rfl, by decide, nofun⟩
  have hread : (buf.peek (min (min count.toNat buf.count) pipeCopyChunk)).length =
      min (min count.toNat buf.count) pipeCopyChunk := by
    rw [PipeBuffer.peek_eq, length_take, buf.length_contents]
    omega
  refine .inr ⟨buf, hbuf, hcount, by simp_all, ?_⟩
  rw [hread]

theorem Streams.put {v : FdView} {accepted delivered : List UInt8} (hwhole : buf.Whole)
    (hrest : accepted = delivered ++ buf.contents) :
    Streams k ⟨⟨v.table, { v.files with pipes := v.files.pipes.put k buf }⟩, accepted,
      delivered⟩ := by
  refine ⟨hrest ▸ prefix_append .., fun buf hbuf => ?_⟩
  rw [← some.inj ((Slots.put_self ..).symm.trans hbuf)]
  exact ⟨hwhole, hrest⟩

theorem Streams.write (h : Streams k r) (bytes : List UInt8) (tr : FdView.Transfer) :
    Streams k (r.step k (.write bytes tr)) := by
  rw [PipeRun.step]
  obtain ⟨e, heq, he⟩ | ⟨buf, hbuf, heq⟩ := sysPipeWrite_cases (k := k) r.view bytes tr
  · rw [heq]
    dsimp only
    rwa [he, take_zero, append_nil]
  obtain ⟨hwhole, hrest⟩ := h.rest buf hbuf
  rw [heq]
  have hsrc := length_take_le (min (pipeBufSize - buf.count) pipeCopyChunk) bytes
  generalize hn : min (pipeBufSize - buf.count) pipeCopyChunk = n at hsrc
  have hle : (buf.write (bytes.take n)).1 ≤ (bytes.take n).length := Nat.min_le_left ..
  obtain ⟨hwhole', hcontents⟩ := hwhole.write (bytes.take n)
  rw [take_take, Nat.min_eq_left (by omega)] at hcontents
  refine .put hwhole' ?_
  rw [moved_ofNat (by omega), hcontents, hrest, append_assoc]

theorem Streams.read (h : Streams k r) (count : UInt32) (tr : FdView.Transfer) :
    Streams k (r.step k (.read count tr)) := by
  rw [PipeRun.step]
  obtain ⟨e, heq, he, -⟩ | ⟨buf, hbuf, -, -, heq⟩ := sysPipeRead_cases (k := k) r.view count tr
  · have hnone : copied k r.view e = [] := by
      rw [copied, he]
      cases r.view.files.pipes k <;> rfl
    rw [heq]
    dsimp only
    rwa [hnone, append_nil]
  obtain ⟨hwhole, hrest⟩ := h.rest buf hbuf
  rw [heq]
  generalize hread : min (min count.toNat buf.count) pipeCopyChunk = read
  obtain ⟨hwhole', hcontents⟩ := hwhole.consume (show read ≤ buf.count by omega)
  refine .put hwhole' ?_
  rw [copied, moved_ofNat (by omega), hbuf, map_some, getD_some, PipeBuffer.peek_eq,
    hcontents, append_assoc, take_append_drop]
  exact hrest

theorem pipes_maybeFreePipe {fs : Files} {buf' : PipeBuffer}
    (h : (Files.maybeFreePipe { fs with pipes := fs.pipes.put k buf' } k).pipes k = some buf) :
    buf = buf' := by
  simp only [Files.maybeFreePipe, Slots.put_self] at h
  split at h
  · simp at h
  · exact some.inj (h.symm.trans (Slots.put_self ..))

/-- A pipe that outlives the close of one of its ends differs by the mark of that end. -/
theorem pipes_onPipeFdClosed {fs : Files} {endIsWrite : Bool}
    (h : (fs.onPipeFdClosed k endIsWrite).pipes k = some buf) :
    ∃ old, fs.pipes k = some old ∧
      buf = if endIsWrite then { old with writeClosed := true }
        else { old with readClosed := true } := by
  rw [Files.onPipeFdClosed] at h
  cases hold : fs.pipes k with
  | none =>
    rw [hold] at h
    exact absurd (hold.symm.trans h) nofun
  | some old =>
    rw [hold] at h
    exact ⟨old, rfl, pipes_maybeFreePipe h⟩

theorem Streams.close (h : Streams k r) (endIsWrite : Bool) :
    Streams k (r.step k (.close endIsWrite)) := by
  refine ⟨h.ordered, fun buf hbuf => ?_⟩
  obtain ⟨old, hold, rfl⟩ := pipes_onPipeFdClosed hbuf
  obtain ⟨hwhole, hrest⟩ := h.rest old hold
  cases endIsWrite <;> exact ⟨⟨hwhole.count_le, hwhole.writePos⟩, hrest⟩

theorem Streams.step (h : Streams k r) (e : PipeEvent) : Streams k (r.step k e) := by
  cases e with
  | write bytes tr => exact h.write bytes tr
  | read count tr => exact h.read count tr
  | close endIsWrite => exact h.close endIsWrite

/-- Only a close of the write end marks it as closed. -/
theorem writeClosed_step {e : PipeEvent} (hbuf : (r.step k e).view.files.pipes k = some buf)
    (hclosed : buf.writeClosed = true) :
    e = .close true ∨ ∃ old, r.view.files.pipes k = some old ∧ old.writeClosed = true := by
  cases e with
  | write bytes tr =>
    rw [PipeRun.step] at hbuf
    obtain ⟨e, heq, -⟩ | ⟨old, hold, heq⟩ := sysPipeWrite_cases (k := k) r.view bytes tr
    · rw [heq] at hbuf
      exact .inr ⟨buf, hbuf, hclosed⟩
    · rw [heq] at hbuf
      rw [← some.inj ((Slots.put_self ..).symm.trans hbuf)] at hclosed
      exact .inr ⟨old, hold, (PipeBuffer.writeClosed_foldl ..).symm.trans hclosed⟩
  | read count tr =>
    rw [PipeRun.step] at hbuf
    obtain ⟨e, heq, -⟩ | ⟨old, hold, -, -, heq⟩ := sysPipeRead_cases (k := k) r.view count tr
    · rw [heq] at hbuf
      exact .inr ⟨buf, hbuf, hclosed⟩
    · rw [heq] at hbuf
      rw [← some.inj ((Slots.put_self ..).symm.trans hbuf)] at hclosed
      exact .inr ⟨old, hold, hclosed⟩
  | close endIsWrite =>
    obtain ⟨old, hold, rfl⟩ := pipes_onPipeFdClosed hbuf
    cases endIsWrite with
    | true => exact .inl rfl
    | false => exact .inr ⟨old, hold, hclosed⟩

theorem close_mem_of_writeClosed {v : FdView} (hnew : v.files.pipes k = some (.new owner))
    (es : List PipeEvent)
    (hbuf : (es.foldl (PipeRun.step k) ⟨v, [], []⟩).view.files.pipes k = some buf)
    (hclosed : buf.writeClosed = true) : .close true ∈ es := by
  induction es using List.reverseRecOn generalizing buf with
  | nil =>
    rw [← some.inj (hnew.symm.trans hbuf)] at hclosed
    cases hclosed
  | append_singleton es e ih =>
    rw [foldl_concat] at hbuf
    obtain rfl | ⟨old, hold, hclosed⟩ := writeClosed_step hbuf hclosed
    · exact mem_concat_self
    · exact mem_append_left _ (ih hold hclosed)

end PipeRun

open PipeRun

/-- A new pipe is a byte stream, whatever is read, written and closed: its
readers got the first bytes that its writers gave, the buffer holds the rest,
a read that fails to copy consumes nothing, and unless no byte was asked for, 0
means that nothing is left and the write end was closed. -/
theorem pipe_stream {v : FdView} {k : Fin maxPipes} {owner : Pid}
    (hnew : v.files.pipes k = some (.new owner)) (es : List PipeEvent) :
    let r := es.foldl (PipeRun.step k) ⟨v, [], []⟩
    r.delivered <+: r.accepted ∧
      (∀ buf, r.view.files.pipes k = some buf →
        r.accepted = r.delivered ++ buf.contents ∧ buf.contents.length ≤ pipeBufSize) ∧
      (∀ count tr, tr.copied = false → (r.view.sysPipeRead k count tr).2 = r.view) ∧
      ∀ count tr, (r.view.sysPipeRead k count tr).1 = 0 → ∃ buf,
        r.view.files.pipes k = some buf ∧
          (count = 0 ∨ buf.contents = [] ∧ .close true ∈ es) := by
  intro r
  have hstart : Streams k ⟨v, [], []⟩ := by
    refine ⟨List.nil_prefix, fun buf hbuf => ?_⟩
    rw [← some.inj (hnew.symm.trans hbuf)]
    exact ⟨⟨Nat.zero_le _, rfl⟩, rfl⟩
  have hr : Streams k r := foldlRecOn es _ hstart fun r hr e _ => hr.step e
  refine ⟨hr.ordered, fun buf hbuf => ?_, fun count tr hfail => ?_, fun count tr hzero => ?_⟩
  · obtain ⟨hwhole, hrest⟩ := hr.rest buf hbuf
    exact ⟨hrest, buf.length_contents ▸ hwhole.count_le⟩
  · obtain ⟨e, heq, -⟩ | ⟨buf, -, -, hok, -⟩ := sysPipeRead_cases (k := k) r.view count tr
    · rw [heq]
    · rw [hfail] at hok
      cases hok
  · obtain ⟨e, heq, -, hend⟩ | ⟨buf, hbuf, hne, -, heq⟩ :=
      sysPipeRead_cases (k := k) r.view count tr
    · rw [heq] at hzero
      obtain ⟨buf, hbuf, hempty, hclosed⟩ := hend hzero
      rw [← buf.length_contents, length_eq_zero_iff] at hempty
      exact ⟨buf, hbuf, .inr ⟨hempty, close_mem_of_writeClosed hnew es hbuf hclosed⟩⟩
    · rw [heq] at hzero
      have hread := moved_ofNat (Nat.min_le_right (min count.toNat buf.count) pipeCopyChunk)
      rw [show UInt32.ofNat _ = 0 from hzero] at hread
      have hchunk : 0 < pipeCopyChunk := by decide
      have hcount : count.toNat = 0 := by
        have hmoved : moved 0 = 0 := by decide
        omega
      exact ⟨buf, hbuf, .inl (UInt32.toNat_inj.mp hcount)⟩

def smooth : FdView.Transfer := ⟨true, true, true, .ok 0⟩

def onePipe : FdView := ⟨.empty, { Files.boot with pipes := Slots.empty.put 0 (.new 1) }⟩

theorem pipe_stream_onePipe :
    onePipe.files.pipes 0 = some (.new 1) ∧
      (([.write [7, 8] smooth, .read 1 smooth] : List PipeEvent).foldl
        (PipeRun.step 0) ⟨onePipe, [], []⟩).delivered <+: [7, 8] :=
  ⟨rfl, (pipe_stream (v := onePipe) rfl [.write [7, 8] smooth, .read 1 smooth]).1⟩

/-- A read of no bytes answers 0 while the pipe holds a byte and its write end
is open. -/
theorem pipe_zero_before_end :
    let r := PipeRun.step 0 ⟨onePipe, [], []⟩ (.write [7] smooth)
    (r.view.sysPipeRead 0 0 smooth).1 = 0 ∧
      ∃ buf, r.view.files.pipes 0 = some buf ∧ buf.contents = [7] ∧ buf.writeClosed = false :=
  ⟨rfl, _, rfl, rfl, rfl⟩

/-! ## Status flags -/

open FdView

/-- `F_SETFL` changes no flag that a mask without `O_APPEND` keeps. -/
theorem setStatus_and {m : UInt32} (h : oAppend &&& m = 0) (arg flags : UInt32) :
    setStatus arg flags &&& m = flags &&& m := by
  apply UInt32.eq_of_toBitVec_eq
  ext i hi
  have hbit : (oAppend.toBitVec[i] && m.toBitVec[i]) = false := by
    rw [← BitVec.getElem_and, ← UInt32.toBitVec_and, h]
    simp
  rw [setStatus]
  simp only [UInt32.toBitVec_and, UInt32.toBitVec_or, UInt32.toBitVec_not, BitVec.getElem_and,
    BitVec.getElem_or, BitVec.getElem_not]
  cases hm : m.toBitVec[i] with
  | false => simp
  | true =>
    rw [hm, Bool.and_true] at hbit
    simp [hbit]

theorem setStatus_of_eq {arg flags : UInt32} (h : arg &&& oAppend = flags &&& oAppend) :
    setStatus arg flags = flags := by
  rw [setStatus, h]
  apply UInt32.eq_of_toBitVec_eq
  ext i hi
  simp [← Bool.and_or_distrib_left]

theorem and_oAppend_congr {a b : UInt32} (h : a.toBitVec.getLsbD 10 = b.toBitVec.getLsbD 10) :
    a &&& oAppend = b &&& oAppend := by
  have hbit : oAppend.toBitVec = BitVec.twoPow 32 10 := rfl
  apply UInt32.eq_of_toBitVec_eq
  rw [UInt32.toBitVec_and, UInt32.toBitVec_and, hbit, BitVec.and_twoPow, BitVec.and_twoPow, h]

theorem setStatus_and_oAppend (arg flags : UInt32) :
    setStatus arg flags &&& oAppend = arg &&& oAppend := by
  refine and_oAppend_congr ?_
  simp [setStatus, oAppend]

/-- The index of a pipe holds the bit of `O_APPEND`. -/
theorem and_oAppend_of_pipeIdx {flags flags' : UInt32}
    (h : pipeIdxFromFlags flags' = pipeIdxFromFlags flags) :
    flags' &&& oAppend = flags &&& oAppend := by
  have hlt : ∀ flags : UInt32, (flags >>> fdPipeIdxShift &&& 7).toNat < maxPipes := fun flags => by
    rw [UInt32.toNat_and]
    exact Nat.lt_succ_of_le Nat.and_le_right
  have hidx := congrArg Fin.val h
  simp only [pipeIdxFromFlags, Fin.ofNat, Nat.mod_eq_of_lt (hlt _)] at hidx
  have hbit := congrArg (fun w => w.toBitVec.getLsbD 1) (UInt32.toNat_inj.mp hidx)
  refine and_oAppend_congr ?_
  simpa [fdPipeIdxShift] using hbit

inductive Target where
  | pipe (k : Fin maxPipes) (writeEnd : Bool)
  | socket
  | file (mountIdx : UInt8) (inodeId : UInt32)
deriving DecidableEq

def FileDescriptor.target (d : FileDescriptor) : Target :=
  if isPipeFd d.flags then .pipe (pipeIdxFromFlags d.flags) (isWriteEnd d.flags)
  else if isSocketFd d.flags then .socket
  else .file d.mountIdx d.inodeId

/-- The slot of the description behind a descriptor, which is also that of its
socket, and what it reaches. -/
def FdView.reaches (v : FdView) (fd : UInt32) : Option (Fin maxOfds × Target) :=
  (v.table.get fd).bind fun e => (v.files.ofds e.ofd).map fun o => (e.ofd, o.desc.target)

def OpenFile.fixed (o : OpenFile) : OpenFile :=
  { o with desc := { o.desc with flags := o.desc.flags &&& ~~~oAppend } }

theorem target_setStatus {d : FileDescriptor} {arg : UInt32} :
    FileDescriptor.target { d with flags := setStatus arg d.flags } = d.target ↔
      (isPipeFd d.flags → arg &&& oAppend = d.flags &&& oAppend) := by
  have hkind := setStatus_and (m := fdKindMask) (by decide) arg d.flags
  have hp : isPipeFd (setStatus arg d.flags) = isPipeFd d.flags := by rw [isPipeFd, hkind, isPipeFd]
  have hs : isSocketFd (setStatus arg d.flags) = isSocketFd d.flags := by
    rw [isSocketFd, hkind, isSocketFd]
  constructor
  · intro htarget hpipe
    simp only [FileDescriptor.target, hp, hpipe, if_true, Target.pipe.injEq] at htarget
    rw [← and_oAppend_of_pipeIdx htarget.1, setStatus_and_oAppend]
  · intro h
    by_cases hpipe : isPipeFd d.flags = true
    · rw [setStatus_of_eq (h hpipe)]
    · simp only [FileDescriptor.target, hp, hs, hpipe]
      rfl

/-- A successful `F_SETFL` changes `O_APPEND` in one description and nothing
else.  All descriptors of all processes go on reaching what they reached if and
only if the bit that it sets agrees with the index of the pipe. -/
theorem fcntl_setfl_keeps {v : FdView} {fd arg : UInt32} (hok : (v.sysFcntl fd 4 arg).1 = 0) :
    let v' := (v.sysFcntl fd 4 arg).2
    (v'.table = v.table ∧ v'.files = { v.files with ofds := v'.files.ofds } ∧
      (∀ i, (v'.files.ofds i).map OpenFile.fixed = (v.files.ofds i).map OpenFile.fixed) ∧
      ∀ table fd', FdView.reaches ⟨table, v'.files⟩ fd' = FdView.reaches ⟨table, v.files⟩ fd') ↔
      ∀ flags, v.flagsOf fd = some flags → isPipeFd flags →
        arg &&& oAppend = flags &&& oAppend := by
  have hcall : v.sysFcntl fd 4 arg = v.fcntlSetFl fd arg := rfl
  rw [hcall, fcntlSetFl] at hok ⊢
  cases he : v.table.get fd with
  | none =>
    rw [he] at hok
    cases hok
  | some e =>
    cases ho : v.files.ofds e.ofd with
    | none =>
      simp only [he, ho] at hok
      cases hok
    | some o =>
      have hflags : v.flagsOf fd = some o.desc.flags := by
        rw [flagsOf, he, bind_some, ho, map_some]
      have hfixed := setStatus_and (m := ~~~oAppend) (by decide) arg o.desc.flags
      simp only [ho, Files.modifyDesc, hflags, some.injEq, forall_eq']
      constructor
      · rintro ⟨-, -, -, hreaches⟩
        have hsame := hreaches v.table fd
        simp only [reaches, he, ho, bind_some, Slots.put_self, map_some, some.injEq,
          Prod.mk.injEq, true_and] at hsame
        exact target_setStatus.mp hsame
      · intro hpipe
        refine ⟨trivial, trivial, fun i => ?_, fun table fd' => ?_⟩
        · by_cases hi : i = e.ofd
          · simp [hi, ho, OpenFile.fixed, hfixed]
          · rw [Slots.put_of_ne hi]
        · rw [reaches, reaches]
          cases table.get fd' with
          | none => rfl
          | some e' =>
            by_cases hi : e'.ofd = e.ofd
            · simp [hi, ho, target_setStatus.mpr hpipe]
            · simp only [bind_some, Slots.put_of_ne hi]

def firstPipe : FdView := (FdView.sysPipe ⟨.empty, .boot⟩ 1 true true).2

theorem fcntl_setfl_keeps_firstPipe :
    (firstPipe.sysFcntl 0 4 0).1 = 0 ∧
      (firstPipe.sysFcntl 0 4 0).2.reaches 1 = some (1, .pipe 0 true) :=
  ⟨rfl, (((@fcntl_setfl_keeps firstPipe 0 0 rfl).mpr (by
    rintro _ ⟨⟩ _
    rfl)).2.2.2 _ 1).trans rfl⟩

/-- With `O_APPEND`, the read end of pipe 0 becomes the read end of pipe 2. -/
theorem fcntl_setfl_moves_pipe :
    (firstPipe.sysFcntl 0 4 oAppend).1 = 0 ∧ firstPipe.reaches 0 = some (0, .pipe 0 false) ∧
      (firstPipe.sysFcntl 0 4 oAppend).2.reaches 0 = some (0, .pipe 2 false) :=
  ⟨rfl, rfl, rfl⟩
end Thumos
