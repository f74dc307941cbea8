import Thumos.Lib.ByteSpace
import Thumos.Storage.Block

/-!
# The encrypted device

`EncryptedBlockDevice` encrypts 4 KiB blocks, and serves reads and writes of any run
of 512-byte sectors.  A read decrypts every block that the run touches.  A write of
a part of a block reads the block first, merges the new sectors and writes the block
back.

AES-XTS is a parameter: a bijection on blocks for every key and tweak.

`PlainDevice` is what the device is for: a flat space of bytes, read and written
directly.  `plain` is the plain device that an encrypted one stands for, and every
call does on it what it says.
-/

namespace Thumos

open LittleEndian

abbrev XtsKey := Vector UInt8 64

abbrev Xts := XtsKey → List UInt8 → Equiv.Perm Block

structure EncryptedBlockDevice where
  inner : Device
  key : XtsKey

namespace EncryptedBlockDevice

section

variable (xts : Xts)

def blockToTweak (blockNum : Nat) : List UInt8 := leBytes 8 blockNum ++ List.replicate 8 0

/-- Whole blocks only. -/
def sectorCount (e : EncryptedBlockDevice) : Nat :=
  e.inner.sectorCount / sectorsPerBlock * sectorsPerBlock

def encryptBlock (e : EncryptedBlockDevice) (blockNum : Nat) (data : Block) : Block :=
  xts e.key (blockToTweak blockNum) data

def decryptBlock (e : EncryptedBlockDevice) (blockNum : Nat) (data : Block) : Block :=
  (xts e.key (blockToTweak blockNum)).symm data

def checkRange (e : EncryptedBlockDevice) (lba count len : Nat) : Except BlockError Unit :=
  if count * sectorSize ≥ u32Size then .error .invalidArgument
  else if len ≠ count * sectorSize then .error .invalidArgument
  else if count = 0 then .ok ()
  else if lba + count ≥ u64Size then .error .outOfBounds
  else if lba + count > e.sectorCount then .error .outOfBounds
  else .ok ()

/-- The loop of `read_sectors`.  `done` is the part of the buffer that is filled, and
`rest` is the part that still has the caller's bytes. -/
def readLoop : Nat → EncryptedBlockDevice → Nat → Nat → List UInt8 → List UInt8 →
    Except BlockError Unit × List UInt8 × EncryptedBlockDevice
  | 0, e, _, _, done, rest => (.ok (), done ++ rest, e)
  | fuel + 1, e, currentLba, remaining, done, rest =>
    if remaining = 0 then (.ok (), done ++ rest, e)
    else
      let blockNum := currentLba / sectorsPerBlock
      let blockStartLba := blockNum * sectorsPerBlock
      let offsetInBlock := currentLba - blockStartLba
      match e.inner.readSectors blockStartLba .zero with
      | (.error err, _, inner) => (.error err, done ++ rest, { e with inner := inner })
      | (.ok (), blockBuf, inner) =>
        let block := e.decryptBlock xts blockNum blockBuf
        -- `remaining as usize`
        let sectorsToCopy := min (remaining % u32Size) (sectorsPerBlock - offsetInBlock)
        let byteCount := sectorsToCopy * sectorSize
        readLoop fuel { e with inner := inner } (currentLba + sectorsToCopy)
          (remaining - sectorsToCopy)
          (done ++ block.slice (offsetInBlock * sectorSize) byteCount) (rest.drop byteCount)

def readSectors (e : EncryptedBlockDevice) (lba count : Nat) (buf : List UInt8) :
    Except BlockError Unit × List UInt8 × EncryptedBlockDevice :=
  match e.checkRange lba count buf.length with
  | .error err => (.error err, buf, e)
  | .ok () => readLoop xts count e lba count [] buf

/-- The new sectors are merged into `blockBuf`, which is encrypted and written. -/
def mergeBlock (e : EncryptedBlockDevice) (blockNum offsetInBlock : Nat) (bytes : List UInt8)
    (blockBuf : Block) : Except BlockError Unit × EncryptedBlockDevice :=
  let data := e.encryptBlock xts blockNum (blockBuf.copyAt (offsetInBlock * sectorSize) bytes)
  match e.inner.writeSectors (blockNum * sectorsPerBlock) data with
  | (result, inner) => (result, { e with inner := inner })

def writeBlock (e : EncryptedBlockDevice) (blockNum offsetInBlock sectorsToWrite : Nat)
    (bytes : List UInt8) : Except BlockError Unit × EncryptedBlockDevice :=
  if offsetInBlock ≠ 0 ∨ sectorsToWrite ≠ sectorsPerBlock then
    match e.inner.readSectors (blockNum * sectorsPerBlock) .zero with
    | (.error err, _, inner) => (.error err, { e with inner := inner })
    | (.ok (), blockBuf, inner) =>
      mergeBlock xts { e with inner := inner } blockNum offsetInBlock bytes
        (e.decryptBlock xts blockNum blockBuf)
  else mergeBlock xts e blockNum offsetInBlock bytes .zero

/-- The loop of `write_sectors`.  `buf` is the part that is still to be written. -/
def writeLoop : Nat → EncryptedBlockDevice → Nat → Nat → List UInt8 →
    Except BlockError Unit × EncryptedBlockDevice
  | 0, e, _, _, _ => (.ok (), e)
  | fuel + 1, e, currentLba, remaining, buf =>
    if remaining = 0 then (.ok (), e)
    else
      let blockNum := currentLba / sectorsPerBlock
      let offsetInBlock := currentLba - blockNum * sectorsPerBlock
      let sectorsToWrite := min (remaining % u32Size) (sectorsPerBlock - offsetInBlock)
      let byteCount := sectorsToWrite * sectorSize
      match e.writeBlock xts blockNum offsetInBlock sectorsToWrite (buf.take byteCount) with
      | (.error err, e) => (.error err, e)
      | (.ok (), e) =>
        writeLoop fuel e (currentLba + sectorsToWrite) (remaining - sectorsToWrite)
          (buf.drop byteCount)

def writeSectors (e : EncryptedBlockDevice) (lba count : Nat) (buf : List UInt8) :
    Except BlockError Unit × EncryptedBlockDevice :=
  match e.checkRange lba count buf.length with
  | .error err => (.error err, e)
  | .ok () => writeLoop xts count e lba count buf

end

end EncryptedBlockDevice

open List

/-! ## The plain device -/

inductive SectorCall where
  | read (lba count : Nat) (buf : List UInt8)
  | write (lba count : Nat) (buf : List UInt8)

namespace SectorCall

def lba : SectorCall → Nat
  | read lba _ _ => lba
  | write lba _ _ => lba

def count : SectorCall → Nat
  | read _ count _ => count
  | write _ count _ => count

def buf : SectorCall → List UInt8
  | read _ _ buf => buf
  | write _ _ buf => buf

/-- A `u64`, a `u32`, and a buffer on the 32-bit target. -/
def Fits (c : SectorCall) : Prop :=
  c.lba < u64Size ∧ c.count < u32Size ∧ c.buf.length < u32Size

instance (c : SectorCall) : Decidable c.Fits := inferInstanceAs (Decidable (_ ∧ _))

/-- A write whose sectors are in block `b`, all or some of them. -/
def Overwrites (c : SectorCall) (b : Nat) : Prop :=
  match c with
  | read _ _ _ => False
  | write lba count _ => ∃ l, lba ≤ l ∧ l < lba + count ∧ l / sectorsPerBlock = b

end SectorCall

abbrev SectorAnswer := Except BlockError Unit × List UInt8

@[ext] structure PlainDevice where
  sectorCount : Nat
  bytes : ByteSpace

namespace PlainDevice

def refusal (p : PlainDevice) (c : SectorCall) : Option BlockError :=
  if c.buf.length ≠ c.count * sectorSize then some .invalidArgument
  else if c.count ≠ 0 ∧ p.sectorCount < c.lba + c.count then some .outOfBounds
  else none

def call (p : PlainDevice) (c : SectorCall) : SectorAnswer × PlainDevice :=
  match p.refusal c with
  | some err => ((.error err, c.buf), p)
  | none =>
    match c with
    | .read lba count _ => ((.ok (), p.bytes.read (lba * sectorSize) (count * sectorSize)), p)
    | .write lba _ buf => ((.ok (), buf), { p with bytes := p.bytes.write (lba * sectorSize) buf })

def run : PlainDevice → List SectorCall → List SectorAnswer × PlainDevice
  | p, [] => ([], p)
  | p, c :: calls =>
    let (answer, p) := p.call c
    let (answers, p) := run p calls
    (answer :: answers, p)

variable {p : PlainDevice} {c : SectorCall} {err : BlockError}

theorem call_of_refused (h : p.refusal c = some err) : p.call c = ((.error err, c.buf), p) := by
  cases c <;> simp only [call, h]

theorem read_of_accepted {lba count : Nat} {buf : List UInt8}
    (h : p.refusal (.read lba count buf) = none) :
    p.call (.read lba count buf) =
      ((.ok (), p.bytes.read (lba * sectorSize) (count * sectorSize)), p) := by
  rw [call, h]

theorem write_of_accepted {lba count : Nat} {buf : List UInt8}
    (h : p.refusal (.write lba count buf) = none) :
    p.call (.write lba count buf) =
      ((.ok (), buf), { p with bytes := p.bytes.write (lba * sectorSize) buf }) := by
  rw [call, h]

theorem refusal_of_ok (h : (p.call c).1.1 = .ok ()) : p.refusal c = none := by
  cases hr : p.refusal c with
  | none => rfl
  | some err =>
    rw [call_of_refused hr] at h
    cases h

theorem call_sectorCount (p : PlainDevice) (c : SectorCall) :
    (p.call c).2.sectorCount = p.sectorCount := by
  cases hr : p.refusal c with
  | some err => rw [call_of_refused hr]
  | none =>
    cases c with
    | read => rw [read_of_accepted hr]
    | write => rw [write_of_accepted hr]

theorem run_sectorCount (p : PlainDevice) (calls : List SectorCall) :
    (p.run calls).2.sectorCount = p.sectorCount := by
  induction calls generalizing p with
  | nil => rfl
  | cons c calls ih => exact (ih (p.call c).2).trans (call_sectorCount p c)

end PlainDevice

namespace EncryptedBlockDevice

def call (xts : Xts) (e : EncryptedBlockDevice) :
    SectorCall → SectorAnswer × EncryptedBlockDevice
  | .read lba count buf =>
    let (result, buf, e) := e.readSectors xts lba count buf
    ((result, buf), e)
  | .write lba count buf =>
    let (result, e) := e.writeSectors xts lba count buf
    ((result, buf), e)

def run (xts : Xts) : EncryptedBlockDevice → List SectorCall →
    List SectorAnswer × EncryptedBlockDevice
  | e, [] => ([], e)
  | e, c :: calls =>
    let (answer, e) := e.call xts c
    let (answers, e) := run xts e calls
    (answer :: answers, e)

def plainBytes (xts : Xts) (e : EncryptedBlockDevice) : ByteSpace := fun i =>
  (e.decryptBlock xts (i / blockSize) (e.inner.blocks (i / blockSize))).byte (i % blockSize)

def plain (xts : Xts) (e : EncryptedBlockDevice) : PlainDevice where
  sectorCount := e.sectorCount
  bytes := e.plainBytes xts

/-! ## One block -/

def ErrorFree (e : EncryptedBlockDevice) : Prop := ∀ t, e.inner.faults t = none

section

variable {xts : Xts} {e e' : EncryptedBlockDevice} {b o n : Nat} {bytes : List UInt8}

theorem inner_fits (hb : b * sectorsPerBlock < e.sectorCount) :
    b * sectorsPerBlock + sectorsPerBlock ≤ e.inner.sectorCount := by
  simp only [sectorCount, sectorsPerBlock] at *
  omega

theorem inner_readSectors (hfree : e.ErrorFree) (hb : b * sectorsPerBlock < e.sectorCount) :
    e.inner.readSectors (b * sectorsPerBlock) .zero =
      (.ok (), e.inner.blocks b, { e.inner with ticks := e.inner.ticks + 1 }) := by
  rw [Device.readSectors, if_pos (inner_fits hb), hfree, Nat.mul_div_cancel b (by decide)]

def store (e : EncryptedBlockDevice) (b : Nat) (data : Block) : EncryptedBlockDevice :=
  { e with inner := e.inner.commit ⟨b * sectorsPerBlock, sectorsPerBlock, data⟩ }

theorem inner_writeSectors (hfree : e.ErrorFree) (hb : b * sectorsPerBlock < e.sectorCount)
    (data : Block) :
    e.inner.writeSectors (b * sectorsPerBlock) data = (.ok (), (e.store b data).inner) := by
  rw [Device.writeSectors, if_pos (inner_fits hb), hfree]
  rfl

theorem store_blocks (e : EncryptedBlockDevice) (b : Nat) (data : Block) (b' : Nat) :
    (e.store b data).inner.blocks b' = if b' = b then data else e.inner.blocks b' := by
  show (if b' = b * sectorsPerBlock / sectorsPerBlock then _ else _) = _
  rw [Nat.mul_div_cancel b (by decide)]
  split
  · exact Block.torn_full _ _
  · rfl

theorem slice_plain (h : o + n ≤ sectorsPerBlock) :
    (e.decryptBlock xts b (e.inner.blocks b)).slice (o * sectorSize) (n * sectorSize) =
      (e.plainBytes xts).read ((b * sectorsPerBlock + o) * sectorSize) (n * sectorSize) := by
  simp only [sectorsPerBlock, sectorSize] at *
  rw [Block.slice_eq_map _ (by simp only [blockSize]; omega), ByteSpace.read]
  refine map_congr_left fun k hk => ?_
  have hk := mem_range.mp hk
  have hblock : ((b * 8 + o) * 512 + k) / blockSize = b := by
    simp only [blockSize]
    omega
  have hbyte : ((b * 8 + o) * 512 + k) % blockSize = o * 512 + k := by
    simp only [blockSize]
    omega
  simp only [plainBytes, hblock, hbyte]

/-- Sectors that are merged into a block are written to the plain device, if the
block had what the plain device has, or if all of it is new. -/
theorem plainBytes_store {blockBuf : Block} (hlen : bytes.length = n * sectorSize)
    (hin : o + n ≤ sectorsPerBlock)
    (hold : blockBuf = e.decryptBlock xts b (e.inner.blocks b) ∨ o = 0 ∧ n = sectorsPerBlock) :
    (e.store b (e.encryptBlock xts b (blockBuf.copyAt (o * sectorSize) bytes))).plainBytes xts =
      (e.plainBytes xts).write ((b * sectorsPerBlock + o) * sectorSize) bytes := by
  funext i
  simp only [sectorsPerBlock, sectorSize] at *
  have hmod : i % blockSize < blockSize := Nat.mod_lt _ (by decide)
  by_cases hb : i / blockSize = b
  · have hdec : (e.store b
      (e.encryptBlock xts b (blockBuf.copyAt (o * 512) bytes))).plainBytes xts i
        = (blockBuf.copyAt (o * 512) bytes).byte (i % blockSize) := by
      rw [plainBytes, hb, store_blocks, if_pos rfl]
      exact congrArg (fun x : Block => x.byte _) (Equiv.symm_apply_apply _ _)
    have haddr : i = b * 4096 + i % blockSize := by
      simp only [blockSize] at *
      omega
    have hiff : (o * 512 ≤ i % blockSize ∧ i % blockSize < o * 512 + bytes.length) ↔
        ((b * 8 + o) * 512 ≤ i ∧ i < (b * 8 + o) * 512 + bytes.length) := by omega
    have hindex : i % blockSize - o * 512 = i - (b * 8 + o) * 512 := by omega
    rw [hdec, Block.byte_copyAt _ (by simp only [blockSize]; omega) hmod, ByteSpace.write]
    simp only [hiff, hindex]
    by_cases hnew : (b * 8 + o) * 512 ≤ i ∧ i < (b * 8 + o) * 512 + bytes.length
    · rw [if_pos hnew, if_pos hnew]
    rw [if_neg hnew, if_neg hnew]
    obtain rfl | ⟨ho, hn⟩ := hold
    · rw [plainBytes, hb]
    · simp only [blockSize] at *
      omega
  · have hother : ¬ ((b * 8 + o) * 512 ≤ i ∧ i < (b * 8 + o) * 512 + bytes.length) := by
      simp only [blockSize] at *
      omega
    rw [plainBytes, store_blocks, if_neg hb, ByteSpace.write, if_neg hother]
    rfl

/-- What a write leaves behind: the bytes in the plain device, and all blocks but
the ones in `touched`. -/
structure Wrote (xts : Xts) (e e' : EncryptedBlockDevice) (addr : Nat) (bytes : List UInt8)
    (touched : Nat → Prop) : Prop where
  errorFree : e'.ErrorFree
  inner_sectorCount : e'.inner.sectorCount = e.inner.sectorCount
  plainBytes : e'.plainBytes xts = (e.plainBytes xts).write addr bytes
  blocks : ∀ b, ¬ touched b → e'.inner.blocks b = e.inner.blocks b

theorem Wrote.sectorCount_eq {addr : Nat} {touched : Nat → Prop}
    (h : Wrote xts e e' addr bytes touched) : e'.sectorCount = e.sectorCount := by
  rw [sectorCount, h.inner_sectorCount, sectorCount]

theorem mergeBlock_wrote {blockBuf : Block} (hfree : e.ErrorFree)
    (hb : b * sectorsPerBlock < e.sectorCount) (hlen : bytes.length = n * sectorSize)
    (hin : o + n ≤ sectorsPerBlock)
    (hold : blockBuf = e.decryptBlock xts b (e.inner.blocks b) ∨ o = 0 ∧ n = sectorsPerBlock) :
    ∃ e', mergeBlock xts e b o bytes blockBuf = (.ok (), e') ∧
      Wrote xts e e' ((b * sectorsPerBlock + o) * sectorSize) bytes (· = b) := by
  refine ⟨e.store b (e.encryptBlock xts b (blockBuf.copyAt (o * sectorSize) bytes)), ?_, hfree, rfl,
    plainBytes_store hlen hin hold, fun b' hb' => ?_⟩
  · rw [mergeBlock, inner_writeSectors hfree hb]
    rfl
  · rw [store_blocks, if_neg hb']

theorem writeBlock_wrote (hfree : e.ErrorFree) (hb : b * sectorsPerBlock < e.sectorCount)
    (hlen : bytes.length = n * sectorSize) (hin : o + n ≤ sectorsPerBlock) :
    ∃ e', e.writeBlock xts b o n bytes = (.ok (), e') ∧
      Wrote xts e e' ((b * sectorsPerBlock + o) * sectorSize) bytes (· = b) := by
  rw [writeBlock]
  split
  · rw [inner_readSectors hfree hb]
    -- the read moved nothing but the count of the transfers
    obtain ⟨e', he', hwrote⟩ := @mergeBlock_wrote xts
      { e with inner := { e.inner with ticks := e.inner.ticks + 1 } } b o n bytes _
        hfree hb hlen hin
      (.inl rfl)
    exact ⟨e', he', hwrote.errorFree, hwrote.inner_sectorCount, hwrote.plainBytes, hwrote.blocks⟩
  · rename_i hwhole
    exact mergeBlock_wrote hfree hb hlen hin (.inr (by omega))

/-! ## The loops -/

theorem head_sectors (cur : Nat) {rem : Nat} (hrem : rem ≠ 0) (hlt : rem < u32Size) :
    let o := cur - cur / sectorsPerBlock * sectorsPerBlock
    let n := min (rem % u32Size) (sectorsPerBlock - o)
    cur = cur / sectorsPerBlock * sectorsPerBlock + o ∧ 0 < n ∧ n ≤ rem ∧
      o + n ≤ sectorsPerBlock := by
  rw [Nat.mod_eq_of_lt hlt]
  simp only [sectorsPerBlock]
  omega

theorem readLoop_eq {fuel cur rem : Nat} {done rest : List UInt8} (hfree : e.ErrorFree)
    (hfuel : rem ≤ fuel) (hlt : rem < u32Size) (hin : cur + rem ≤ e.sectorCount) :
    ∃ ticks, readLoop xts fuel e cur rem done rest =
      (.ok (), done ++ (e.plainBytes xts).read (cur * sectorSize) (rem * sectorSize) ++
        rest.drop (rem * sectorSize), { e with inner := { e.inner with ticks := ticks } }) := by
  induction fuel generalizing e cur rem done rest with
  | zero =>
    obtain rfl : rem = 0 := by omega
    refine ⟨e.inner.ticks, ?_⟩
    rw [readLoop, zero_mul, ByteSpace.read_zero, append_nil, drop_zero]
  | succ fuel ih =>
    by_cases hrem : rem = 0
    · refine ⟨e.inner.ticks, ?_⟩
      rw [readLoop, if_pos hrem, hrem, zero_mul, ByteSpace.read_zero, append_nil,
        drop_zero]
    obtain ⟨hcur, hpos, hle, hblock⟩ := head_sectors cur hrem hlt
    rw [readLoop, if_neg hrem]
    dsimp only
    generalize cur / sectorsPerBlock = b at *
    generalize cur - b * sectorsPerBlock = o at *
    generalize min (rem % u32Size) (sectorsPerBlock - o) = n at *
    rw [inner_readSectors hfree (by omega)]
    obtain ⟨ticks, ih⟩ := @ih { e with inner := { e.inner with ticks := e.inner.ticks + 1 } }
      (cur + n) (rem - n)
      (done ++ (e.decryptBlock xts b (e.inner.blocks b)).slice (o * sectorSize) (n * sectorSize))
      (rest.drop (n * sectorSize)) hfree (by omega) (by omega)
      (show cur + n + (rem - n) ≤ e.sectorCount by omega)
    refine ⟨ticks, ih.trans ?_⟩
    have hsplit : rem * sectorSize = n * sectorSize + (rem - n) * sectorSize := by
      rw [← add_mul, Nat.add_sub_cancel' hle]
    rw [slice_plain hblock, ← hcur, hsplit, ByteSpace.read_add, ← add_mul, drop_drop]
    simp only [append_assoc]
    rfl

theorem Wrote.trans {e'' : EncryptedBlockDevice} {addr len : Nat}
    {touched touched' all : Nat → Prop} (hlen : len ≤ bytes.length)
    (h : Wrote xts e e' addr (bytes.take len) touched)
    (h' : Wrote xts e' e'' (addr + len) (bytes.drop len) touched')
    (hall : ∀ b, touched b ∨ touched' b → all b) : Wrote xts e e'' addr bytes all where
  errorFree := h'.errorFree
  inner_sectorCount := h'.inner_sectorCount.trans h.inner_sectorCount
  plainBytes := by rw [h'.plainBytes, h.plainBytes, ByteSpace.write_drop hlen]
  blocks := by
    intro b hb
    rw [h'.blocks b fun hb' => hb (hall b (.inr hb')), h.blocks b fun hb' => hb (hall b (.inl hb'))]

theorem wrote_nil (hfree : e.ErrorFree) (addr : Nat) (touched : Nat → Prop) :
    Wrote xts e e addr [] touched :=
  ⟨hfree, rfl, (ByteSpace.write_nil _ _).symm, fun _ _ => rfl⟩

theorem writeLoop_wrote {fuel cur rem : Nat} {buf : List UInt8} (hfree : e.ErrorFree)
    (hfuel : rem ≤ fuel) (hlt : rem < u32Size) (hin : cur + rem ≤ e.sectorCount)
    (hlen : buf.length = rem * sectorSize) :
    ∃ e', writeLoop xts fuel e cur rem buf = (.ok (), e') ∧
      Wrote xts e e' (cur * sectorSize) buf
        fun b => ∃ l, cur ≤ l ∧ l < cur + rem ∧ l / sectorsPerBlock = b := by
  induction fuel generalizing e cur rem buf with
  | zero =>
    obtain rfl : rem = 0 := by omega
    obtain rfl := eq_nil_of_length_eq_zero (hlen.trans (Nat.zero_mul _))
    exact ⟨e, rfl, wrote_nil hfree _ _⟩
  | succ fuel ih =>
    by_cases hrem : rem = 0
    · subst hrem
      obtain rfl := eq_nil_of_length_eq_zero (hlen.trans (Nat.zero_mul _))
      exact ⟨e, by rw [writeLoop, if_pos rfl], wrote_nil hfree _ _⟩
    obtain ⟨hcur, hpos, hle, hblock⟩ := head_sectors cur hrem hlt
    rw [writeLoop, if_neg hrem]
    dsimp only
    generalize hb : cur / sectorsPerBlock = b at *
    generalize cur - b * sectorsPerBlock = o at *
    generalize min (rem % u32Size) (sectorsPerBlock - o) = n at *
    have hbytes : n * sectorSize ≤ buf.length := by
      rw [hlen]
      exact Nat.mul_le_mul_right _ hle
    obtain ⟨e₁, he₁, hwrote⟩ := @writeBlock_wrote xts e b o n (buf.take (n * sectorSize)) hfree
      (by omega) (length_take_of_le hbytes) hblock
    rw [he₁]
    have hdrop : (buf.drop (n * sectorSize)).length = (rem - n) * sectorSize := by
      rw [length_drop, hlen, Nat.sub_mul]
    obtain ⟨e₂, he₂, hwrote'⟩ := @ih e₁ (cur + n) (rem - n) (buf.drop (n * sectorSize))
      hwrote.errorFree (by omega) (by omega) (by rw [hwrote.sectorCount_eq]; omega) hdrop
    refine ⟨e₂, he₂, ?_⟩
    rw [← hcur] at hwrote
    rw [Nat.add_mul] at hwrote'
    refine hwrote.trans hbytes hwrote' fun b' hb' => ?_
    rcases hb' with rfl | ⟨l, hl, hl', hlb⟩
    · exact ⟨cur, le_rfl, by omega, hb⟩
    · exact ⟨l, by omega, by omega, hlb⟩

/-! ## The calls -/

theorem checkRange_eq (e : EncryptedBlockDevice) {c : SectorCall} (hc : c.Fits) :
    e.checkRange c.lba c.count c.buf.length =
      match (e.plain xts).refusal c with
      | some err => .error err
      | none => .ok () := by
  obtain ⟨-, -, hbuf⟩ := hc
  have hcount : e.sectorCount < u64Size :=
    lt_of_le_of_lt (Nat.div_mul_le_self _ _) e.inner.sectorCount_lt
  have hplain : (e.plain xts).sectorCount = e.sectorCount := rfl
  rw [checkRange, PlainDevice.refusal, hplain]
  by_cases hlen : c.buf.length = c.count * sectorSize
  · rw [if_neg (by omega), if_neg (not_not_intro hlen), if_neg (not_not_intro hlen)]
    by_cases hzero : c.count = 0
    · rw [if_pos hzero, if_neg fun h => h.1 hzero]
    rw [if_neg hzero]
    by_cases hin : c.lba + c.count ≤ e.sectorCount
    · rw [if_neg (by omega), if_neg (by omega), if_neg (by omega)]
    rw [if_pos (show c.count ≠ 0 ∧ e.sectorCount < c.lba + c.count from ⟨hzero, by omega⟩)]
    split
    · rfl
    · rw [if_pos (by omega)]
  · rw [if_pos (show c.buf.length ≠ _ from hlen)]
    split <;> rfl

structure Refines (xts : Xts) (e : EncryptedBlockDevice) (c : SectorCall)
    (r : SectorAnswer × EncryptedBlockDevice) : Prop where
  answer : r.1 = ((e.plain xts).call c).1
  plain : r.2.plain xts = ((e.plain xts).call c).2
  errorFree : r.2.ErrorFree
  blocks : ∀ b, ¬ c.Overwrites b → r.2.inner.blocks b = e.inner.blocks b
  refused : ∀ err, r.1.1 = .error err → r.2 = e

theorem refines_refused {c : SectorCall} {err : BlockError} (hfree : e.ErrorFree)
    (h : (e.plain xts).refusal c = some err) : Refines xts e c ((.error err, c.buf), e) where
  answer := by rw [PlainDevice.call_of_refused h]
  plain := by rw [PlainDevice.call_of_refused h]
  errorFree := hfree
  blocks := fun _ _ => rfl
  refused := fun _ _ => rfl

theorem accepted_inside {c : SectorCall} (h : (e.plain xts).refusal c = none) :
    c.buf.length = c.count * sectorSize ∧ (c.count = 0 ∨ c.lba + c.count ≤ e.sectorCount) := by
  have hplain : (e.plain xts).sectorCount = e.sectorCount := rfl
  rw [PlainDevice.refusal, hplain] at h
  split at h
  · cases h
  rename_i hlen
  split at h
  · cases h
  rename_i hin
  exact ⟨by omega, by omega⟩

section

variable {lba count : Nat} {buf : List UInt8} (hfree : e.ErrorFree) (hcount : count < u32Size)
    (hlen : buf.length = count * sectorSize)
  (hin : count = 0 ∨ lba + count ≤ e.sectorCount)

include hfree hcount hlen hin

theorem readLoop_of_accepted :
    ∃ ticks, readLoop xts count e lba count [] buf =
      (.ok (), (e.plainBytes xts).read (lba * sectorSize) (count * sectorSize),
        { e with inner := { e.inner with ticks := ticks } }) := by
  rcases hin with rfl | hin
  · obtain rfl := eq_nil_of_length_eq_zero (hlen.trans (zero_mul _))
    exact ⟨e.inner.ticks, rfl⟩
  · obtain ⟨ticks, hloop⟩ := @readLoop_eq xts e count lba count [] buf hfree le_rfl hcount hin
    refine ⟨ticks, hloop.trans ?_⟩
    rw [nil_append, drop_eq_nil_of_le (by omega), append_nil]

theorem writeLoop_of_accepted :
    ∃ e', writeLoop xts count e lba count buf = (.ok (), e') ∧
      Wrote xts e e' (lba * sectorSize) buf
        fun b => ∃ l, lba ≤ l ∧ l < lba + count ∧ l / sectorsPerBlock = b := by
  rcases hin with rfl | hin
  · obtain rfl := eq_nil_of_length_eq_zero (hlen.trans (zero_mul _))
    exact ⟨e, rfl, wrote_nil hfree _ _⟩
  · exact writeLoop_wrote hfree le_rfl hcount hin hlen

end

theorem call_refines {c : SectorCall} (hfree : e.ErrorFree) (hc : c.Fits) :
    Refines xts e c (e.call xts c) := by
  have hcheck := @checkRange_eq xts e c hc
  cases hrefusal : (e.plain xts).refusal c with
  | some err =>
    rw [hrefusal] at hcheck
    cases c with
    | read lba count buf =>
      have hrange : e.checkRange lba count buf.length = .error err := hcheck
      rw [call, readSectors, hrange]
      exact refines_refused hfree hrefusal
    | write lba count buf =>
      have hrange : e.checkRange lba count buf.length = .error err := hcheck
      rw [call, writeSectors, hrange]
      exact refines_refused hfree hrefusal
  | none =>
    rw [hrefusal] at hcheck
    obtain ⟨hlen, hin⟩ := accepted_inside hrefusal
    cases c with
    | read lba count buf =>
      have hrange : e.checkRange lba count buf.length = .ok () := hcheck
      obtain ⟨ticks, hloop⟩ := @readLoop_of_accepted xts e lba count buf hfree hc.2.1 hlen hin
      rw [call, readSectors, hrange]
      rw [hloop]
      have hplain := PlainDevice.read_of_accepted hrefusal
      exact ⟨by rw [hplain]; rfl, by rw [hplain]; rfl, hfree, fun _ _ => rfl, nofun⟩
    | write lba count buf =>
      have hrange : e.checkRange lba count buf.length = .ok () := hcheck
      obtain ⟨e', hloop, hwrote⟩ := @writeLoop_of_accepted xts e lba count buf hfree hc.2.1 hlen hin
      rw [call, writeSectors, hrange]
      rw [hloop]
      have hplain := PlainDevice.write_of_accepted hrefusal
      refine ⟨by rw [hplain], ?_, hwrote.errorFree, hwrote.blocks, nofun⟩
      rw [hplain]
      exact PlainDevice.ext hwrote.sectorCount_eq hwrote.plainBytes

theorem run_eq {calls : List SectorCall} (hfree : e.ErrorFree) (hcalls : ∀ c ∈ calls, c.Fits) :
    (e.run xts calls).1 = ((e.plain xts).run calls).1 ∧
    (e.run xts calls).2.plain xts = ((e.plain xts).run calls).2 ∧
      (e.run xts calls).2.ErrorFree := by
  induction calls generalizing e with
  | nil => exact ⟨rfl, rfl, hfree⟩
  | cons c calls ih =>
    have hstep := @call_refines xts e c hfree (hcalls c mem_cons_self)
    obtain ⟨hanswers, hplain, hfree'⟩ :=
      ih hstep.errorFree fun c' h => hcalls c' (mem_cons_of_mem _ h)
    rw [hstep.plain] at hanswers hplain
    exact ⟨congrArg₂ cons hstep.answer hanswers, hplain, hfree'⟩

end

/-- The encrypted device is a plain device.  After any sequence of calls the next one
is answered as the plain device answers it, it changes on the medium only the
blocks that a write overlaps, an accepted run of sectors is inside the device, and a
refused call changes nothing. -/
theorem encrypted_is_plain (xts : Xts) (e : EncryptedBlockDevice) (hfree : e.ErrorFree)
    (calls : List SectorCall) (hcalls : ∀ c ∈ calls, c.Fits) (c : SectorCall) (hc : c.Fits) :
    let e' := (e.run xts calls).2
    (e.run xts calls).1 = ((e.plain xts).run calls).1 ∧
    (e'.call xts c).1 = (((e.plain xts).run calls).2.call c).1 ∧
    (∀ b, ¬ c.Overwrites b → (e'.call xts c).2.inner.blocks b = e'.inner.blocks b) ∧
    ((e'.call xts c).1.1 = .ok () → c.count = 0 ∨ c.lba + c.count ≤ e.sectorCount) ∧
    (∀ err, (e'.call xts c).1.1 = .error err → (e'.call xts c).2.inner.log = e'.inner.log) := by
  intro e'
  obtain ⟨hanswers, hplain, hfree'⟩ := @run_eq xts e calls hfree hcalls
  have hcall := @call_refines xts e' c hfree' hc
  have hcount : e'.sectorCount = e.sectorCount :=
    (congrArg PlainDevice.sectorCount hplain).trans (PlainDevice.run_sectorCount _ _)
  refine ⟨hanswers, ?_, hcall.blocks, fun hok => ?_, fun err herr => ?_⟩
  · rw [hcall.answer, hplain]
  · rw [hcall.answer] at hok
    rw [← hcount]
    exact (accepted_inside (PlainDevice.refusal_of_ok hok)).2
  · rw [hcall.refused err herr]

def blankBlock : EncryptedBlockDevice where
  inner := ⟨8, by decide, fun _ => .zero, fun _ => none, 0, []⟩
  key := Vector.replicate 64 0

/-- A sector in the middle of the block is written and read. -/
theorem encrypted_is_plain_middle :
    ((blankBlock.run (fun _ _ => Equiv.refl _) [.write 1 1 (List.replicate 512 7)]).2.call
      (fun _ _ => Equiv.refl _) (.read 1 1 (List.replicate 512 0))).1 =
      (.ok (), List.replicate 512 7) := by
  have hread := (encrypted_is_plain (fun _ _ => Equiv.refl _) blankBlock (fun _ => rfl)
    [.write 1 1 (List.replicate 512 7)]
    (fun c hc => by rw [mem_singleton.mp hc]; decide +kernel)
    (.read 1 1 (List.replicate 512 0)) (by decide +kernel)).2.1
  rw [hread]
  have hrun (p : PlainDevice) (c : SectorCall) : (p.run [c]).2 = (p.call c).2 := rfl
  rw [hrun, PlainDevice.write_of_accepted (by decide +kernel),
    PlainDevice.read_of_accepted (by decide +kernel)]
  have hself := ByteSpace.read_write_self (blankBlock.plain fun _ _ => Equiv.refl _).bytes
    (1 * sectorSize) (List.replicate 512 7)
  rw [length_replicate] at hself
  rw [one_mul] at hself ⊢
  rw [hself]

end EncryptedBlockDevice

end Thumos
