import Mathlib.Algebra.Order.BigOperators.Group.List
import Thumos.Lib.LittleEndian
import Thumos.Kernel.Page

/-!
# The ELF loader

The model of `elf.rs`: the checks of `validate` on a file, the placement check
`plan_confined_image`, and the bytes that `load_impl` writes.  Addresses and
sizes are `usize` values of 32 bits.

A read of the file past its end is a result of its own, `Stop.outside`, beside
the errors that the loader reports.
-/

namespace Thumos

namespace Elf

open LittleEndian Pages Finset

inductive ElfError where
  | badMagic
  | not32Bit
  | notLittleEndian
  | notArm
  | outOfMemory
  | invalidSegment
deriving DecidableEq

/-- Why a file is not accepted: an error of the loader, or a read outside the
file. -/
inductive Stop where
  | error (e : ElfError)
  | outside
deriving DecidableEq

def checkedAdd (a b : Nat) : Option Nat := if a + b < usizeSize then some (a + b) else none

def checkedMul (a b : Nat) : Option Nat := if a * b < usizeSize then some (a * b) else none

def ceilPages (n : Nat) : Nat := (n + pageSize - 1) / pageSize

/-- `validate_user_buffer` of `memguard.rs`. -/
def validateUserBuffer (ptr len : Nat) : Bool :=
  if ptr = 0 then false
  else if len = 0 then true
  else match checkedAdd ptr len with
  | none => false
  | some last => kernelEnd ≤ ptr && last ≤ ramEnd

/-! ## Headers -/

/-- `size_of::<Elf32Ehdr>()` -/
def ehdrSize : Nat := 52

def phdrSize : Nat := 32

def maxElfPages : Nat := 2048

/-- The fields of `Elf32Ehdr` that `validate` looks at. -/
structure Elf32Ehdr where
  ident : List UInt8
  machine : Nat
  entry : Nat
  phoff : Nat
  phentsize : Nat
  phnum : Nat

/-- The fields of `Elf32Phdr` that `validate` looks at. -/
structure Elf32Phdr where
  type : Nat
  offset : Nat
  vaddr : Nat
  filesz : Nat
  memsz : Nat
  flags : UInt32

def field (bytes : List UInt8) (off n : Nat) : Nat := leValue (bytesAt bytes off n)

def readStruct (data : List UInt8) (off n : Nat) : Option (List UInt8) :=
  if off + n ≤ data.length then some (bytesAt data off n) else none

def parseEhdr (bytes : List UInt8) : Elf32Ehdr where
  ident := bytesAt bytes 0 16
  machine := field bytes 18 2
  entry := field bytes 24 4
  phoff := field bytes 28 4
  phentsize := field bytes 42 2
  phnum := field bytes 44 2

def parsePhdr (bytes : List UInt8) : Elf32Phdr where
  type := field bytes 0 4
  offset := field bytes 4 4
  vaddr := field bytes 8 4
  filesz := field bytes 16 4
  memsz := field bytes 20 4
  flags := UInt32.ofNat (field bytes 24 4)

def ptLoad : Nat := 1

def pfX : UInt32 := 1

def pfW : UInt32 := 2

def pfR : UInt32 := 4

/-! ## `validate` -/

structure Segment where
  vaddr : Nat
  memsz : Nat
  filesz : Nat
  fileOffset : Nat
  flags : UInt32

def Elf32Phdr.segment (p : Elf32Phdr) : Segment := ⟨p.vaddr, p.memsz, p.filesz, p.offset, p.flags⟩

structure ValidatedElf where
  segments : List Segment
  totalPages : Nat

/-- The part of the loop of `validate` after a header was read. -/
def addSegment (data : List UInt8) (v : ValidatedElf) (p : Elf32Phdr) : Except Stop ValidatedElf :=
  let invalid : Except Stop ValidatedElf := .error (.error .invalidSegment)
  if p.type ≠ ptLoad then .ok v
  else match checkedAdd p.offset p.filesz with
  | none => invalid
  | some fileEnd =>
    if fileEnd > data.length then invalid
    else if !validateUserBuffer p.vaddr p.memsz then invalid
    else match (checkedAdd p.memsz (pageSize - 1)).map (· / pageSize) with
    | none => invalid
    | some segPages =>
      match checkedAdd v.totalPages segPages with
      | none => invalid
      | some total =>
        if total > maxElfPages then invalid
        else if v.segments.length ≥ 16 then invalid
        else .ok ⟨v.segments ++ [p.segment], total⟩

/-- A turn of the loop of `validate`: the `i`-th program header. -/
def addHeader (data : List UInt8) (h : Elf32Ehdr) (v : ValidatedElf) (i : Nat) :
    Except Stop ValidatedElf :=
  match (checkedMul i h.phentsize).bind fun stride => checkedAdd stride h.phoff with
  | none => .error (.error .invalidSegment)
  | some offset =>
    match checkedAdd offset phdrSize with
    | none => .error (.error .invalidSegment)
    | some offsetEnd =>
      if offsetEnd > data.length then .error (.error .invalidSegment)
      else match readStruct data offset phdrSize with
      | none => .error .outside
      | some bytes => addSegment data v (parsePhdr bytes)

/-- The bytes of a segment's range that `validate` compares the entry with,
with a saturating sum. -/
def Segment.holds (s : Segment) (entry : Nat) : Bool :=
  s.vaddr ≤ entry && entry < min (s.vaddr + s.memsz) (usizeSize - 1)

def validate (data : List UInt8) : Except Stop (Nat × ValidatedElf) :=
  if data.length < ehdrSize then .error (.error .badMagic)
  else match readStruct data 0 ehdrSize with
  | none => .error .outside
  | some bytes =>
    let h := parseEhdr bytes
    if h.ident.take 4 ≠ [0x7F, 0x45, 0x4C, 0x46] then .error (.error .badMagic)
    else if h.ident.getD 4 0 ≠ 1 then .error (.error .not32Bit)
    else if h.ident.getD 5 0 ≠ 1 then .error (.error .notLittleEndian)
    else if h.machine ≠ 40 then .error (.error .notArm)
    else if 0 < h.phnum ∧ h.phentsize < phdrSize then .error (.error .invalidSegment)
    else match (List.range h.phnum).foldlM (addHeader data h) ⟨[], 0⟩ with
    | .error e => .error e
    | .ok v =>
      if v.segments.any fun s => s.holds h.entry then .ok (h.entry, v)
      else .error (.error .invalidSegment)

/-! ## Placement and loading -/

def Segment.last (s : Segment) : Nat := (s.vaddr + s.memsz) % usizeSize

/-- A turn of the loop of `plan_confined_image`: the lowest start and the
highest end so far. -/
def planSegment (lo hi : Nat) (span : Nat × Nat) (s : Segment) : Except ElfError (Nat × Nat) :=
  if s.vaddr < lo ∨ s.last > hi then .error .invalidSegment
  else .ok (min span.1 s.vaddr, max span.2 s.last)

/-- `plan_confined_image` up to the allocation of the frames: the lowest address of the
image. -/
def planConfinedImage (v : ValidatedElf) (lo hi : Nat) : Except ElfError Nat :=
  match v.segments.foldlM (planSegment lo hi) (usizeSize - 1, 0) with
  | .error e => .error e
  | .ok (loImg, maxEnd) =>
    if ceilPages (wrappingSub maxEnd loImg) ≠ v.totalPages then .error .invalidSegment
    else .ok loImg

def Segment.byte (data : List UInt8) (s : Segment) (byteOffset : Nat) : UInt8 :=
  if byteOffset < s.filesz then ((checkedAdd s.fileOffset byteOffset).bind fun i => data[i]?).getD 0
  else 0

/-- The writes of `load_impl` for a segment, by offsets in the frames of the image. -/
def Segment.writes (data : List UInt8) (imageLo : Nat) (s : Segment) : List (Nat × UInt8) :=
  (List.range (ceilPages s.memsz)).flatMap fun p =>
    let pageStart := p * pageSize
    let pageEnd := min (pageStart + pageSize) s.memsz
    (rangeFrom pageStart pageEnd).map fun byteOffset =>
      (s.vaddr - imageLo + p * pageSize + (byteOffset - pageStart), s.byte data byteOffset)

/-- The writes of `load_impl` for a confined image. -/
def imageWrites (data : List UInt8) (v : ValidatedElf) (imageLo : Nat) : List (Nat × UInt8) :=
  v.segments.flatMap (Segment.writes data imageLo)

/-! ## What `validate` accepts -/

variable {data : List UInt8} {v v' : ValidatedElf} {s : Segment} {entry : Nat}

/-- What `validate` has checked of a segment. -/
structure Segment.Checked (data : List UInt8) (s : Segment) : Prop where
  file : s.fileOffset + s.filesz ≤ data.length
  memory : s.memsz ≠ 0 → kernelEnd ≤ s.vaddr ∧ s.vaddr + s.memsz ≤ ramEnd
  vaddr_lt : s.vaddr < usizeSize

/-- What the loop of `validate` has made of the headers so far. -/
structure Accepted (data : List UInt8) (v : ValidatedElf) : Prop where
  checked : ∀ s ∈ v.segments, s.Checked data
  pages : v.totalPages = (v.segments.map fun s => ceilPages s.memsz).sum

theorem checkedAdd_eq_some {a b c : Nat} :
    checkedAdd a b = some c ↔ c = a + b ∧ a + b < usizeSize := by
  rw [checkedAdd]
  split
  · simp_all [eq_comm]
  · simp_all

theorem field_lt (bytes : List UInt8) (off n : Nat) : field bytes off n < 256 ^ n :=
  (leValue_lt _).trans_le (Nat.pow_le_pow_right (by decide) (bytesAt_length_le _ _ _))

theorem validateUserBuffer_eq_true {ptr len : Nat} (h : validateUserBuffer ptr len = true)
    (hlen : len ≠ 0) : kernelEnd ≤ ptr ∧ ptr + len ≤ ramEnd := by
  rw [validateUserBuffer] at h
  split at h
  · cases h
  split at h
  · cases h
  · rename_i last hlast
    obtain ⟨rfl, -⟩ := checkedAdd_eq_some.mp hlast
    simpa using h

theorem addSegment_eq_ok {p : Elf32Phdr} (h : addSegment data v p = .ok v') :
    p.type ≠ ptLoad ∧ v' = v ∨
      p.type = ptLoad ∧ p.offset + p.filesz ≤ data.length ∧
        validateUserBuffer p.vaddr p.memsz = true ∧
        v' = ⟨v.segments ++ [p.segment], v.totalPages + ceilPages p.memsz⟩ := by
  unfold addSegment at h
  split at h
  · rename_i htype
    exact .inl ⟨htype, (Except.ok.inj h).symm⟩
  rename_i htype
  split at h
  · cases h
  rename_i fileEnd hfile
  split at h
  · cases h
  rename_i hlen
  split at h
  · cases h
  rename_i hbuffer
  split at h
  · cases h
  rename_i segPages hpages
  split at h
  · cases h
  rename_i total htotal
  split at h
  · cases h
  split at h
  · cases h
  obtain ⟨rfl, -⟩ := checkedAdd_eq_some.mp hfile
  obtain ⟨rfl, -⟩ := checkedAdd_eq_some.mp htotal
  obtain ⟨rounded, hrounded, rfl⟩ := Option.map_eq_some_iff.mp hpages
  obtain ⟨rfl, -⟩ := checkedAdd_eq_some.mp hrounded
  refine .inr ⟨not_not.mp htype, not_lt.mp hlen, by simpa using hbuffer, ?_⟩
  rw [← Except.ok.inj h]
  rfl

theorem addSegment_inside (p : Elf32Phdr) : addSegment data v p ≠ .error .outside := by
  unfold addSegment
  split
  · simp
  split
  · simp
  split
  · simp
  split
  · simp
  split
  · simp
  split
  · simp
  · split
    · simp
    · split <;> simp

def header (data : List UInt8) (h : Elf32Ehdr) (i : Nat) : Elf32Phdr :=
  parsePhdr (bytesAt data (i * h.phentsize + h.phoff) phdrSize)

theorem addHeader_eq_ok {h : Elf32Ehdr} {i : Nat} (hok : addHeader data h v i = .ok v') :
    addSegment data v (header data h i) = .ok v' := by
  unfold addHeader at hok
  split at hok
  · cases hok
  rename_i offset hoffset
  obtain ⟨stride, hstride, hsum⟩ := Option.bind_eq_some_iff.mp hoffset
  rw [checkedMul] at hstride
  split at hstride
  · obtain ⟨rfl, -⟩ := checkedAdd_eq_some.mp hsum
    cases hstride
    split at hok
    · cases hok
    split at hok
    · cases hok
    unfold readStruct at hok
    split at hok
    · cases hok
    rename_i bytes hbytes
    split at hbytes
    · rwa [header, Option.some.inj hbytes]
    · cases hbytes
  · cases hstride

theorem addHeader_inside (h : Elf32Ehdr) (i : Nat) : addHeader data h v i ≠ .error .outside := by
  unfold addHeader
  split
  · simp
  split
  · simp
  rename_i offsetEnd hend
  split
  · simp
  rename_i hlen
  obtain ⟨rfl, -⟩ := checkedAdd_eq_some.mp hend
  rw [readStruct, if_pos (not_lt.mp hlen)]
  exact addSegment_inside _

theorem Accepted.addSegment {p : Elf32Phdr} (h : Accepted data v) (hvaddr : p.vaddr < usizeSize)
    (hok : addSegment data v p = .ok v') : Accepted data v' := by
  rcases addSegment_eq_ok hok with ⟨-, rfl⟩ | ⟨-, hfile, hbuffer, rfl⟩
  · exact h
  constructor
  · intro s hs
    rcases List.mem_append.mp hs with hs | hs
    · exact h.checked s hs
    · rw [List.mem_singleton.mp hs]
      exact ⟨hfile, validateUserBuffer_eq_true hbuffer, hvaddr⟩
  · simp [h.pages, Elf32Phdr.segment]

/-! ## The loops -/

section Loops

variable {ε α β : Type} {f : β → α → Except ε β}

theorem foldlM_cons_eq_ok {a : α} {l : List α} {b b' : β} :
    (a :: l).foldlM f b = .ok b' ↔ ∃ c, f b a = .ok c ∧ l.foldlM f c = .ok b' := by
  rw [List.foldlM_cons]
  cases hf : f b a with
  | error e => simp [bind, Except.bind]
  | ok c => simp [bind, Except.bind]

theorem foldlM_ne_error {e : ε} (h : ∀ b a, f b a ≠ .error e) (l : List α) (b : β) :
    l.foldlM f b ≠ .error e := by
  induction l generalizing b with
  | nil => simp [pure, Except.pure]
  | cons a l ih =>
    rw [List.foldlM_cons]
    cases hf : f b a with
    | error e' =>
      intro heq
      exact h b a (hf.trans heq)
    | ok c => exact ih c

end Loops

def loadable (data : List UInt8) (h : Elf32Ehdr) (l : List Nat) : List Segment :=
  ((l.map (header data h)).filter fun p => p.type = ptLoad).map Elf32Phdr.segment

theorem Accepted.loop {h : Elf32Ehdr} {l : List Nat} (hv : Accepted data v)
    (hok : l.foldlM (addHeader data h) v = .ok v') :
    Accepted data v' ∧ v'.segments = v.segments ++ loadable data h l := by
  induction l generalizing v with
  | nil =>
    cases hok
    exact ⟨hv, by simp [loadable]⟩
  | cons i l ih =>
    obtain ⟨w, hi, hrest⟩ := foldlM_cons_eq_ok.mp hok
    have hseg := addHeader_eq_ok hi
    have hvaddr : (header data h i).vaddr < usizeSize := field_lt _ 8 4
    obtain ⟨hv', hsegs⟩ := ih (hv.addSegment hvaddr hseg) hrest
    refine ⟨hv', ?_⟩
    rw [hsegs]
    rcases addSegment_eq_ok hseg with ⟨htype, rfl⟩ | ⟨htype, -, -, rfl⟩
    · simp [loadable, htype]
    · simp [loadable, htype]

def ehdr (data : List UInt8) : Elf32Ehdr := parseEhdr (bytesAt data 0 ehdrSize)

/-- The loadable segments of a file, as its headers describe them. -/
def loadSegments (data : List UInt8) : List Segment :=
  loadable data (ehdr data) (List.range (ehdr data).phnum)

theorem validate_eq_ok (h : validate data = .ok (entry, v)) :
    Accepted data v ∧ v.segments = loadSegments data ∧ entry = (ehdr data).entry ∧
      ∃ s ∈ v.segments, s.holds entry := by
  unfold validate at h
  split at h
  · cases h
  have hread : readStruct data 0 ehdrSize = some (bytesAt data 0 ehdrSize) :=
    if_pos (by omega)
  rw [hread] at h
  dsimp only at h
  split at h
  · cases h
  split at h
  · cases h
  split at h
  · cases h
  split at h
  · cases h
  split at h
  · cases h
  split at h
  · cases h
  rename_i w hloop
  split at h
  · rename_i hany
    cases h
    obtain ⟨hacc, hsegs⟩ := Accepted.loop ⟨by simp, rfl⟩ hloop
    obtain ⟨s, hs, hholds⟩ := List.any_eq_true.mp hany
    exact ⟨hacc, hsegs, rfl, s, hs, hholds⟩
  · cases h

theorem validate_inside (data : List UInt8) : validate data ≠ .error .outside := by
  unfold validate
  split
  · simp
  have hread : readStruct data 0 ehdrSize = some (bytesAt data 0 ehdrSize) :=
    if_pos (by omega)
  rw [hread]
  dsimp only
  split
  · simp
  split
  · simp
  split
  · simp
  split
  · simp
  split
  · simp
  split
  · rename_i e hloop
    intro heq
    cases heq
    exact foldlM_ne_error (fun _ _ => addHeader_inside _ _) _ _ hloop
  · split <;> simp

/-! ## Placement -/

theorem Segment.Checked.last_eq (h : s.Checked data) : s.last = s.vaddr + s.memsz := by
  rw [Segment.last, Nat.mod_eq_of_lt]
  by_cases hz : s.memsz = 0
  · have := h.vaddr_lt
    omega
  · have := (h.memory hz).2
    simp only [ramEnd, usizeSize] at *
    omega

/-- The span of the segments `l`, from the span `a` to the span `b`. -/
structure Spans (lo hi : Nat) (l : List Segment) (a b : Nat × Nat) : Prop where
  placed : ∀ s ∈ l, lo ≤ s.vaddr ∧ s.last ≤ hi
  start : ∀ s ∈ l, b.1 ≤ s.vaddr
  last : ∀ s ∈ l, s.last ≤ b.2
  grows : b.1 ≤ a.1 ∧ a.2 ≤ b.2
  attained : (b.1 = a.1 ∨ ∃ s ∈ l, b.1 = s.vaddr) ∧ (b.2 = a.2 ∨ ∃ s ∈ l, b.2 = s.last)

theorem spans_of_plan {lo hi : Nat} {l : List Segment} {a b : Nat × Nat}
    (h : l.foldlM (planSegment lo hi) a = .ok b) : Spans lo hi l a b := by
  induction l generalizing a with
  | nil =>
    cases h
    exact ⟨by simp, by simp, by simp, by simp, .inl rfl, .inl rfl⟩
  | cons s l ih =>
    obtain ⟨c, hs, hrest⟩ := foldlM_cons_eq_ok.mp h
    obtain ⟨hplaced, hstart, hlast, hgrows, hattained⟩ := ih hrest
    unfold planSegment at hs
    split at hs
    · cases hs
    rename_i hin
    cases hs
    refine ⟨?_, ?_, ?_, ⟨hgrows.1.trans (min_le_left ..), (le_max_left ..).trans hgrows.2⟩,
      ?_, ?_⟩
    · refine List.forall_mem_cons.mpr ⟨⟨?_, ?_⟩, hplaced⟩
      · exact not_lt.mp fun hlt => hin (.inl hlt)
      · exact not_lt.mp fun hlt => hin (.inr hlt)
    · exact List.forall_mem_cons.mpr ⟨hgrows.1.trans (min_le_right ..), hstart⟩
    · exact List.forall_mem_cons.mpr ⟨(le_max_right ..).trans hgrows.2, hlast⟩
    · rcases hattained.1 with heq | ⟨t, ht, heq⟩
      · rcases le_total a.1 s.vaddr with hle | hle
        · exact .inl (heq.trans (min_eq_left hle))
        · exact .inr ⟨s, List.mem_cons_self, heq.trans (min_eq_right hle)⟩
      · exact .inr ⟨t, List.mem_cons_of_mem s ht, heq⟩
    · rcases hattained.2 with heq | ⟨t, ht, heq⟩
      · rcases le_total a.2 s.last with hle | hle
        · exact .inr ⟨s, List.mem_cons_self, heq.trans (max_eq_right hle)⟩
        · exact .inl (heq.trans (max_eq_left hle))
      · exact .inr ⟨t, List.mem_cons_of_mem s ht, heq⟩

theorem Segment.holds_iff (h : s.Checked data) :
    s.holds entry ↔ s.vaddr ≤ entry ∧ entry < s.vaddr + s.memsz := by
  have hlast : s.vaddr + s.memsz ≤ usizeSize - 1 := by
    by_cases hz : s.memsz = 0
    · have := h.vaddr_lt
      omega
    · have := (h.memory hz).2
      simp only [ramEnd, usizeSize] at *
      omega
  rw [Segment.holds, min_eq_left hlast]
  simp

/-- An image that was placed: its span, which has as many pages as its
segments. -/
structure Planned (v : ValidatedElf) (lo hi imageLo : Nat) : Prop where
  placed : ∀ s ∈ v.segments, lo ≤ s.vaddr ∧ s.vaddr + s.memsz ≤ hi
  span : ∃ imageEnd, imageLo ≤ imageEnd ∧ ceilPages (imageEnd - imageLo) = v.totalPages ∧
    ∀ s ∈ v.segments, imageLo ≤ s.vaddr ∧ s.vaddr + s.memsz ≤ imageEnd
  attained : ∃ s ∈ v.segments, imageLo = s.vaddr

variable {lo hi imageLo : Nat}

theorem planned_of_plan (hv : Accepted data v) (hentry : ∃ s ∈ v.segments, s.holds entry)
    (h : planConfinedImage v lo hi = .ok imageLo) :
    Planned v lo hi imageLo := by
  unfold planConfinedImage at h
  split at h
  · cases h
  rename_i loImg maxEnd hplan
  split at h
  · cases h
  rename_i hpages
  cases h
  obtain ⟨hplaced, hstart, hlast, -, hlo, hhi⟩ := spans_of_plan hplan
  have hlast_eq : ∀ s ∈ v.segments, s.last = s.vaddr + s.memsz := fun s hs =>
    (hv.checked s hs).last_eq
  obtain ⟨s₀, hs₀, hholds⟩ := hentry
  have hsize := (Segment.holds_iff (hv.checked s₀ hs₀)).mp hholds
  have hchecked := (hv.checked s₀ hs₀).memory (by omega)
  have hle : imageLo ≤ maxEnd := by
    have h1 := hstart s₀ hs₀
    have h2 := hlast s₀ hs₀
    rw [hlast_eq s₀ hs₀] at h2
    omega
  have hmax : maxEnd < usizeSize := by
    rcases hhi with heq | ⟨s, -, heq⟩
    · have heq : maxEnd = 0 := heq
      rw [heq]
      decide
    · have heq : maxEnd = s.last := heq
      rw [heq]
      exact Nat.mod_lt _ (by decide)
  rw [wrappingSub_eq hle hmax] at hpages
  refine ⟨fun s hs => ?_, ⟨maxEnd, hle, not_not.mp hpages, fun s hs => ?_⟩, ?_⟩
  · rw [← hlast_eq s hs]
    exact hplaced s hs
  · rw [← hlast_eq s hs]
    exact ⟨hstart s hs, hlast s hs⟩
  · rcases hlo with heq | hlo
    · -- the initial value is above every segment
      have h1 := hstart s₀ hs₀
      simp only [ramEnd, usizeSize] at *
      omega
    · exact hlo

theorem le_ceilPages_mul (n : Nat) : n ≤ ceilPages n * pageSize := by
  simp only [ceilPages, pageSize]
  omega

theorem Planned.writes_lt (h : Planned v lo hi imageLo) {w : Nat × UInt8}
    (hw : w ∈ imageWrites data v imageLo) : w.1 < v.totalPages * pageSize := by
  obtain ⟨imageEnd, hle, hpages, hspan⟩ := h.span
  obtain ⟨s, hs, hw⟩ := List.mem_flatMap.mp hw
  obtain ⟨p, -, hw⟩ := List.mem_flatMap.mp hw
  obtain ⟨b, hb, rfl⟩ := List.mem_map.mp hw
  have hb := mem_rangeFrom.mp hb
  have hs := hspan s hs
  have hround := le_ceilPages_mul (imageEnd - imageLo)
  rw [hpages] at hround
  omega

/-! ## Tiling -/

def Segment.pages (s : Segment) : Finset Nat :=
  Finset.Ico (s.vaddr / pageSize) (ceilPages (s.vaddr + s.memsz))

/-- No segment ends further behind the page in which one starts than all the sizes in
pages add up to. -/
def Tight (l : List Segment) : Prop :=
  ∀ s ∈ l, ∀ t ∈ l,
    ceilPages (t.vaddr + t.memsz) ≤ s.vaddr / pageSize + (l.map fun s => ceilPages s.memsz).sum

/-- The segments of a file share no page and lie tight, and one that holds the entry point
is executable. -/
def Tidy (data : List UInt8) : Prop :=
  (loadSegments data).Pairwise (fun s t => Disjoint s.pages t.pages) ∧ Tight (loadSegments data) ∧
    ∃ s ∈ loadSegments data, s.vaddr ≤ (ehdr data).entry ∧
      (ehdr data).entry < s.vaddr + s.memsz ∧ s.flags &&& pfX ≠ 0

instance (data : List UInt8) : Decidable (Tidy data) :=
  inferInstanceAs (Decidable (_ ∧ (∀ s ∈ loadSegments data, ∀ t ∈ loadSegments data, _) ∧ _))

/-- Disjoint sets with no fewer members than an interval that they lie in cover
it. -/
theorem cover_of_card {I : Finset Nat} {l : List (Finset Nat)} (hdisj : l.Pairwise Disjoint)
    (hsub : ∀ A ∈ l, A ⊆ I) (hcard : I.card ≤ (l.map card).sum) {n : Nat} (hn : n ∈ I) :
    ∃ A ∈ l, n ∈ A := by
  have hmem : ∀ {l : List (Finset Nat)} {n : Nat},
      n ∈ l.foldr (· ∪ ·) ∅ ↔ ∃ A ∈ l, n ∈ A := by
    intro l n
    induction l with
    | nil => simp
    | cons A l ih => simp [ih]
  have hunion : ∀ {l : List (Finset Nat)}, l.Pairwise Disjoint →
      (l.foldr (· ∪ ·) ∅).card = (l.map card).sum := by
    intro l hl
    induction l with
    | nil => rfl
    | cons A l ih =>
      obtain ⟨hhead, htail⟩ := List.pairwise_cons.mp hl
      have hA : Disjoint A (l.foldr (· ∪ ·) ∅) := by
        rw [disjoint_left]
        intro m hm hrest
        obtain ⟨B, hB, hmB⟩ := hmem.mp hrest
        exact disjoint_left.mp (hhead B hB) hm hmB
      rw [List.foldr_cons, card_union_of_disjoint hA, ih htail, List.map_cons,
        List.sum_cons]
  have hle : l.foldr (· ∪ ·) ∅ ⊆ I := by
    intro m hm
    obtain ⟨A, hA, hmA⟩ := hmem.mp hm
    exact hsub A hA hmA
  have heq := eq_of_subset_of_card_le hle (by rwa [hunion hdisj])
  rw [← heq] at hn
  exact hmem.mp hn

theorem Segment.le_card_pages (s : Segment) : ceilPages s.memsz ≤ s.pages.card := by
  rw [Segment.pages, Nat.card_Ico]
  simp only [ceilPages, pageSize]
  omega

theorem Planned.tiles_iff (h : Planned v lo hi imageLo) (hv : Accepted data v)
    (hdisj : v.segments.Pairwise fun s t => Disjoint s.pages t.pages) :
    (∀ n, (imageLo / pageSize ≤ n ∧ n < imageLo / pageSize + v.totalPages) ↔
      ∃ s ∈ v.segments, n ∈ s.pages) ↔ Tight v.segments := by
  obtain ⟨imageEnd, hle, hpages, hspan⟩ := h.span
  rw [Tight, ← hv.pages]
  constructor
  · intro hcover s hs t ht
    have hs' := hspan s hs
    have ht' := hspan t ht
    have hmem := (hcover (ceilPages (t.vaddr + t.memsz) - 1)).mpr
    by_cases hlast : ceilPages (t.vaddr + t.memsz) - 1 ∈ t.pages
    · have := hmem ⟨t, ht, hlast⟩
      simp only [pageSize] at *
      omega
    · -- an empty segment at the start of a page
      simp only [Segment.pages, mem_Ico, ceilPages, pageSize] at *
      omega
  · intro htight n
    obtain ⟨s₀, hs₀, hlo⟩ := h.attained
    have hsub : ∀ s ∈ v.segments,
        s.pages ⊆ Finset.Ico (imageLo / pageSize) (imageLo / pageSize + v.totalPages) := by
      intro s hs n hn
      have hs' := hspan s hs
      have hend := htight s₀ hs₀ s hs
      simp only [Segment.pages, mem_Ico, pageSize] at *
      omega
    refine ⟨fun hn => ?_, fun ⟨s, hs, hn⟩ => mem_Ico.mp (hsub s hs hn)⟩
    have hcard : (Finset.Ico (imageLo / pageSize) (imageLo / pageSize + v.totalPages)).card ≤
        ((v.segments.map Segment.pages).map card).sum := by
      rw [Nat.card_Ico, Nat.add_sub_cancel_left, hv.pages, List.map_map]
      exact List.sum_le_sum fun s _ => s.le_card_pages
    obtain ⟨A, hA, hnA⟩ := cover_of_card (List.pairwise_map.mpr hdisj)
      (fun A hA => by
        obtain ⟨s, hs, rfl⟩ := List.mem_map.mp hA
        exact hsub s hs) hcard (mem_Ico.mpr hn)
    obtain ⟨s, hs, rfl⟩ := List.mem_map.mp hA
    exact ⟨s, hs, hnA⟩

/-- `validate` and `plan_confined_image` end without a read outside the file.
The segments of a file that they accept lie in the file and in user DRAM, the
entry point is in one of them, and the loader writes into the frames of the
image only.  The pages of its segments are disjoint and are exactly the pages
of the image, and the entry point is executable, if and only if it is tidy. -/
theorem accepted_image_well_formed (data : List UInt8) :
    validate data ≠ .error .outside ∧
      ∀ entry v, validate data = .ok (entry, v) → ∀ lo hi imageLo,
        planConfinedImage v lo hi = .ok imageLo →
          (∀ s ∈ v.segments, s.fileOffset + s.filesz ≤ data.length ∧
            (s.memsz ≠ 0 → kernelEnd ≤ s.vaddr ∧ s.vaddr + s.memsz ≤ ramEnd) ∧
            lo ≤ s.vaddr ∧ s.vaddr + s.memsz ≤ hi) ∧
          (∃ s ∈ v.segments, s.vaddr ≤ entry ∧ entry < s.vaddr + s.memsz) ∧
          (∀ w ∈ imageWrites data v imageLo, w.1 < v.totalPages * pageSize) ∧
          ((v.segments.Pairwise (fun s t => Disjoint s.pages t.pages) ∧
            (∀ n, (imageLo / pageSize ≤ n ∧ n < imageLo / pageSize + v.totalPages) ↔
              ∃ s ∈ v.segments, n ∈ s.pages) ∧
            ∃ s ∈ v.segments, s.vaddr ≤ entry ∧ entry < s.vaddr + s.memsz ∧
              s.flags &&& pfX ≠ 0) ↔ Tidy data) := by
  refine ⟨validate_inside data, fun entry v hvalid lo hi imageLo hplan => ?_⟩
  obtain ⟨hacc, hsegs, hentry, hheld⟩ := validate_eq_ok hvalid
  have hplanned := planned_of_plan hacc hheld hplan
  obtain ⟨s₀, hs₀, hholds⟩ := hheld
  have hrange := (Segment.holds_iff (hacc.checked s₀ hs₀)).mp hholds
  refine ⟨fun s hs => ?_, ⟨s₀, hs₀, hrange⟩, fun w hw => hplanned.writes_lt hw, ?_⟩
  · have hs' := hacc.checked s hs
    exact ⟨hs'.file, hs'.memory, hplanned.placed s hs⟩
  · rw [Tidy, ← hsegs, ← hentry]
    exact and_congr_right fun hdisj => and_congr_left fun _ => hplanned.tiles_iff hacc hdisj

/-! ## Two files -/

def headersOnly (entry : Nat) (phdrs : List (List (Nat × Nat))) : List UInt8 :=
  encode [(1, 0x7F), (1, 0x45), (1, 0x4C), (1, 0x46), (1, 1), (1, 1), (10, 0), (2, 2), (2, 40),
    (4, 1), (4, entry), (4, 52), (4, 0), (4, 0), (2, 52), (2, 32), (2, phdrs.length), (2, 0),
    (2, 0), (2, 0)] ++ phdrs.flatMap encode

def loadHeader (vaddr memsz flags : Nat) : List (Nat × Nat) :=
  [(4, 1), (4, 0), (4, vaddr), (4, vaddr), (4, 0), (4, memsz), (4, flags), (4, 4096)]

def accept (data : List UInt8) : Option (Nat × ValidatedElf × Nat) :=
  match validate data with
  | .error _ => none
  | .ok (entry, v) =>
    match planConfinedImage v userTextBase ramEnd with
    | .error _ => none
    | .ok imageLo => some (entry, v, imageLo)

theorem accept_eq_some {imageLo : Nat} (h : accept data = some (entry, v, imageLo)) :
    validate data = .ok (entry, v) ∧ planConfinedImage v userTextBase ramEnd = .ok imageLo := by
  unfold accept at h
  split at h
  · cases h
  rename_i hvalid
  split at h
  · cases h
  · rename_i hplan
    cases h
    exact ⟨hvalid, hplan⟩

def onePage : List UInt8 := headersOnly 0x7FF00000 [loadHeader 0x7FF00000 4096 5]

theorem accepted_image_well_formed_onePage :
    ∃ entry v, validate onePage = .ok (entry, v) ∧ Tidy onePage ∧
      ∃ s ∈ v.segments, s.vaddr ≤ entry ∧ entry < s.vaddr + s.memsz ∧ s.flags &&& pfX ≠ 0 := by
  have hsome : (accept onePage).isSome := by decide +kernel
  obtain ⟨⟨entry, v, imageLo⟩, haccept⟩ := Option.isSome_iff_exists.mp hsome
  obtain ⟨hvalid, hplan⟩ := accept_eq_some haccept
  have htidy : Tidy onePage := by decide +kernel
  obtain ⟨-, hall⟩ := accepted_image_well_formed onePage
  obtain ⟨-, -, -, htiles⟩ := hall entry v hvalid _ _ imageLo hplan
  exact ⟨entry, v, hvalid, htidy, (htiles.mpr htidy).2.2⟩

def doubledPage : List UInt8 :=
  headersOnly 0x7FF00000 [loadHeader 0x7FF00000 4096 4, loadHeader 0x7FF00000 4096 4,
    loadHeader 0x7FF02000 4096 4]

/-- The file is accepted, as its segments have as many pages as its span; two of
them share a page, the second page of the span is in none of them, and the
entry point is not executable. -/
theorem doubled_page_accepted :
    ∃ entry v, validate doubledPage = .ok (entry, v) ∧
      planConfinedImage v userTextBase ramEnd = .ok userTextBase ∧ v.totalPages = 3 ∧
      ¬v.segments.Pairwise (fun s t => Disjoint s.pages t.pages) ∧
      (∀ s ∈ v.segments, userTextBase / pageSize + 1 ∉ s.pages) ∧
      ∀ s ∈ v.segments, s.flags &&& pfX = 0 := by
  have hany : (accept doubledPage).any (fun r => r.2.2 = userTextBase ∧ r.2.1.totalPages = 3 ∧
      ¬r.2.1.segments.Pairwise (fun s t => Disjoint s.pages t.pages) ∧
      (∀ s ∈ r.2.1.segments, userTextBase / pageSize + 1 ∉ s.pages) ∧
      ∀ s ∈ r.2.1.segments, s.flags &&& pfX = 0) = true := by
    decide +kernel
  cases haccept : accept doubledPage with
  | none =>
    rw [haccept] at hany
    cases hany
  | some r =>
    rw [haccept] at hany
    obtain ⟨entry, v, imageLo⟩ := r
    obtain ⟨rfl, hfacts⟩ := of_decide_eq_true hany
    obtain ⟨hvalid, hplan⟩ := accept_eq_some haccept
    exact ⟨entry, v, hvalid, hplan, hfacts⟩

end Elf

end Thumos
