import Thumos.Lfs.Writing

/-!
# Directory records

What `write_dir_block` writes is what `parse_dir_entries` reads back: the names
and inode numbers of the entries, in their order.  The parser skips a record
with an empty name or with inode number 0, so such an entry is lost.

The parser also makes every name well-formed UTF-8.  A name that it has
returned once is returned unchanged from then on.
-/

namespace Thumos

open LittleEndian List

/-! ## Names -/

theorem utf8Match_take_append (rest : List UInt8) : ∀ {ranges : List (UInt8 × UInt8)}
    {bs : List UInt8}, utf8Match ranges bs = ranges.length →
    (bs.take ranges.length).length = ranges.length ∧
      utf8Match ranges (bs.take ranges.length ++ rest) = ranges.length := by
  intro ranges
  induction ranges with
  | nil =>
    intro bs _
    exact ⟨rfl, rfl⟩
  | cons r ranges ih =>
    intro bs h
    cases bs with
    | nil => cases h
    | cons c cs =>
      simp only [utf8Match, length_cons] at h
      split at h
      · rename_i hc
        obtain ⟨hlen, hmatch⟩ := ih (Nat.succ.inj h)
        simp only [length_cons, take_succ_cons, cons_append, utf8Match, if_pos hc, hlen, hmatch,
          and_self]
      · cases h

/-- A character is kept if it is well-formed, and replaced by U+FFFD if not. -/
theorem fromUtf8Lossy_cons (n : Nat) (b : UInt8) (bs : List UInt8) :
    (∃ bs', fromUtf8Lossy (n + 1) (b :: bs) = 0xEF :: 0xBF :: 0xBD :: fromUtf8Lossy n bs') ∨
      ∃ ranges, utf8Tail b = some ranges ∧ utf8Match ranges bs = ranges.length ∧
        fromUtf8Lossy (n + 1) (b :: bs) =
          b :: (bs.take ranges.length ++ fromUtf8Lossy n (bs.drop ranges.length)) := by
  cases htail : utf8Tail b with
  | none => exact .inl ⟨bs, by simp only [fromUtf8Lossy, htail]⟩
  | some ranges =>
    by_cases hmatch : utf8Match ranges bs = ranges.length
    · refine .inr ⟨ranges, rfl, hmatch, ?_⟩
      simp only [fromUtf8Lossy, htail, hmatch, if_true]
    · refine .inl ⟨bs.drop (utf8Match ranges bs), ?_⟩
      simp only [fromUtf8Lossy, htail, if_neg hmatch]

theorem fromUtf8Lossy_nil (n : Nat) : fromUtf8Lossy n [] = [] := by
  cases n <;> rfl

theorem fromUtf8Lossy_idem (n : Nat) : ∀ (bs : List UInt8) {k : Nat},
    (fromUtf8Lossy n bs).length ≤ k →
    fromUtf8Lossy k (fromUtf8Lossy n bs) = fromUtf8Lossy n bs := by
  induction n with
  | zero =>
    intro bs k _
    cases bs <;> exact fromUtf8Lossy_nil k
  | succ n ih =>
    intro bs k hk
    cases bs with
    | nil => exact fromUtf8Lossy_nil k
    | cons b bs =>
      rcases fromUtf8Lossy_cons n b bs with ⟨bs', heq⟩ | ⟨ranges, htail, hmatch, heq⟩
      · rw [heq] at hk ⊢
        simp only [length_cons] at hk
        obtain ⟨k, rfl⟩ : ∃ k', k = k' + 1 := ⟨k - 1, by omega⟩
        show 0xEF :: 0xBF :: 0xBD :: fromUtf8Lossy k (fromUtf8Lossy n bs') = _
        rw [ih bs' (by omega)]
      · obtain ⟨hlen, hmatch'⟩ := utf8Match_take_append
          (fromUtf8Lossy n (bs.drop ranges.length)) hmatch
        rw [heq] at hk ⊢
        simp only [length_cons, length_append] at hk
        obtain ⟨k, rfl⟩ : ∃ k', k = k' + 1 := ⟨k - 1, by omega⟩
        simp only [fromUtf8Lossy, htail, hmatch', if_true, take_left' hlen, drop_left' hlen]
        rw [ih _ (by omega)]

theorem fromUtf8Lossy_ne_nil {n : Nat} {bs : List UInt8} (hn : 0 < n) (hbs : bs ≠ []) :
    fromUtf8Lossy n bs ≠ [] := by
  obtain ⟨n, rfl⟩ : ∃ n', n = n' + 1 := ⟨n - 1, by omega⟩
  obtain ⟨b, bs, rfl⟩ := exists_cons_of_ne_nil hbs
  rcases fromUtf8Lossy_cons n b bs with ⟨bs', heq⟩ | ⟨ranges, -, -, heq⟩
  · rw [heq]
    exact cons_ne_nil _ _
  · rw [heq]
    exact cons_ne_nil _ _

/-! ## What the parser returns -/

namespace DiskDirEntry

structure Fits (e : DiskDirEntry) : Prop where
  recordLen_pos : 0 < e.recordLen
  recordLen_lt : e.recordLen < 2 ^ 16
  inodeId_lt : e.inodeId < u32Size

/-- An entry that `parse_dir_entries` has returned. -/
structure Stored (e : DiskDirEntry) : Prop extends Fits e where
  inodeId_ne : e.inodeId ≠ 0
  name_ne : e.name ≠ []
  utf8 : fromUtf8Lossy e.name.length e.name = e.name

/-- The part of an entry that a client sees. -/
def link (e : DiskDirEntry) : List UInt8 × Nat := (e.name, e.inodeId)

/-- What is read back of a record with this name and inode. -/
def readBack (name : List UInt8) (inodeId : Nat) : List (List UInt8 × Nat) :=
  if inodeId ≠ 0 ∧ name ≠ [] then [(fromUtf8Lossy name.length name, inodeId)] else []

def listed (e : DiskDirEntry) : List (List UInt8 × Nat) := readBack e.name e.inodeId

theorem Stored.listed {e : DiskDirEntry} (h : e.Stored) : e.listed = [e.link] := by
  rw [DiskDirEntry.listed, readBack, if_pos ⟨h.inodeId_ne, h.name_ne⟩, h.utf8]
  rfl

end DiskDirEntry

theorem parseDirRecords_stored (fuel : Nat) : ∀ {buf : List UInt8} {es : List DiskDirEntry},
    parseDirRecords fuel buf = some es → ∀ e ∈ es, e.Stored := by
  induction fuel with
  | zero =>
    intro buf es h
    cases h
    simp
  | succ fuel ih =>
    intro buf es h
    unfold parseDirRecords at h
    have hid : (decode [4, 2, 2] buf).getD 0 0 < u32Size :=
      decode_lt [4, 2, 2] buf (i := 0) (w := 4) rfl rfl
    have hlt : (decode [4, 2, 2] buf).getD 2 0 < 2 ^ 16 :=
      decode_lt [4, 2, 2] buf (i := 2) (w := 2) rfl rfl
    split at h
    · cases h
      simp
    simp only at h
    split at h
    · cases h
      simp
    rename_i hzero
    split at h
    · rename_i hlive
      split at h
      · contradiction
      split at h
      · contradiction
      rename_i hlong
      rw [shorter_iff, not_lt] at hlong
      obtain ⟨rest, hrest, hes⟩ := Option.bind_eq_some_iff.mp h
      cases hes
      intro e he
      rcases mem_cons.mp he with rfl | he
      · refine ⟨⟨Nat.pos_of_ne_zero hzero, hlt, hid⟩, hlive.1, ?_, ?_⟩
        · refine fromUtf8Lossy_ne_nil hlive.2 (length_pos_iff.mp ?_)
          rw [length_take, length_drop]
          omega
        · exact fromUtf8Lossy_idem _ _ le_rfl
      · exact ih hrest e he
    · exact ih h

variable {es : List DiskDirEntry}

theorem Node.entries_stored {n : Node} (h : n.entries = some es) : ∀ e ∈ es, e.Stored := by
  have hfold : ∀ (is : List Nat) (acc : List DiskDirEntry), (∀ e ∈ acc, e.Stored) →
      is.foldlM (fun acc i => (acc ++ ·) <$> Node.blockEntries (n.blocks i)) acc = some es →
      ∀ e ∈ es, e.Stored := by
    intro is
    induction is with
    | nil =>
      intro acc hacc h
      cases h
      exact hacc
    | cons i is ih =>
      intro acc hacc h
      rw [foldlM_cons] at h
      obtain ⟨acc', hacc', hrest⟩ := Option.bind_eq_some_iff.mp h
      obtain ⟨bs, hbs, rfl⟩ := Option.map_eq_some_iff.mp hacc'
      refine ih _ ?_ hrest
      intro e he
      rcases mem_append.mp he with he | he
      · exact hacc e he
      unfold Node.blockEntries at hbs
      split at hbs
      · cases hbs
        simp at he
      · exact parseDirRecords_stored _ hbs e he
  exact hfold _ [] (by simp) h

/-! ## What is read back -/

theorem encodeDirRecords_cons {e : DiskDirEntry} {offset : Nat} {bytes : List UInt8}
    (h : encodeDirRecords offset (e :: es) = .ok bytes) :
    e.name.length < 2 ^ 16 ∧ alignedRecordLen e.name < 2 ^ 16 ∧
      offset + alignedRecordLen e.name ≤ blockSize ∧
      ∃ rest, encodeDirRecords (offset + alignedRecordLen e.name) es = .ok rest ∧
        bytes = encode [(4, e.inodeId), (2, e.name.length), (2, alignedRecordLen e.name)] ++
          e.name.takeD (alignedRecordLen e.name - dirEntryHeaderSize) 0 ++ rest := by
  unfold encodeDirRecords at h
  simp only at h
  split at h
  · contradiction
  split at h
  · contradiction
  split at h
  · contradiction
  rename_i hname hrecord hblock
  cases hrest : encodeDirRecords (offset + alignedRecordLen e.name) es with
  | error err =>
    rw [hrest] at h
    contradiction
  | ok rest =>
    rw [hrest] at h
    cases h
    exact ⟨by omega, by omega, by omega, rest, rfl, rfl⟩

theorem le_alignedRecordLen (name : List UInt8) :
    dirEntryHeaderSize + name.length ≤ alignedRecordLen name := by
  simp only [alignedRecordLen, dirEntryHeaderSize]
  omega

theorem encodeDirRecords_length : ∀ {offset : Nat} {bytes : List UInt8},
    offset ≤ blockSize → encodeDirRecords offset es = .ok bytes →
    8 * es.length ≤ bytes.length ∧ offset + bytes.length ≤ blockSize := by
  induction es with
  | nil =>
    intro offset bytes hle h
    cases h
    exact ⟨le_rfl, hle⟩
  | cons e es ih =>
    intro offset bytes hle h
    obtain ⟨-, -, hblock, rest, hrest, rfl⟩ := encodeDirRecords_cons h
    have hrec := le_alignedRecordLen e.name
    obtain ⟨hmin, hmax⟩ := ih hblock hrest
    simp only [length_append, encode_length, length_cons, takeD_length, map_cons, map_nil, sum_cons,
      sum_nil, dirEntryHeaderSize] at *
    omega

theorem parseDirRecords_zeros (fuel z : Nat) :
    parseDirRecords fuel (replicate z 0) = some [] := by
  have hzero : ∀ k, leValue (replicate k 0) = 0 := by
    intro k
    induction k with
    | zero => rfl
    | succ k ih => simp [replicate_succ, leValue, ih]
  cases fuel with
  | zero => rfl
  | succ fuel => simp [parseDirRecords, decode, hzero]

/-- The parser takes one record off the buffer. -/
theorem parseDirRecords_record {e : DiskDirEntry} (fuel : Nat) (rest : List UInt8)
    (hid : e.inodeId < u32Size) (hname : e.name.length < 2 ^ 16)
    (hrecord : alignedRecordLen e.name < 2 ^ 16) :
    (parseDirRecords (fuel + 1)
        (encode [(4, e.inodeId), (2, e.name.length), (2, alignedRecordLen e.name)] ++
          e.name.takeD (alignedRecordLen e.name - dirEntryHeaderSize) 0 ++ rest)).map
        (map DiskDirEntry.link) =
      (parseDirRecords fuel rest).map fun es => e.listed ++ es.map DiskDirEntry.link := by
  have hlen := le_alignedRecordLen e.name
  have hdecode := decode_encode [(4, e.inodeId), (2, e.name.length), (2, alignedRecordLen e.name)]
    (e.name.takeD (alignedRecordLen e.name - dirEntryHeaderSize) 0 ++ rest)
    (by simpa using ⟨hid, hname, hrecord⟩)
  have hheader : (encode [(4, e.inodeId), (2, e.name.length),
      (2, alignedRecordLen e.name)]).length = dirEntryHeaderSize := by
    rw [encode_length]
    rfl
  generalize encode [(4, e.inodeId), (2, e.name.length), (2, alignedRecordLen e.name)] = header
    at hdecode hheader ⊢
  generalize hpad : e.name.takeD (alignedRecordLen e.name - dirEntryHeaderSize) 0 = padded
    at hdecode ⊢
  have hpadded : padded.length = alignedRecordLen e.name - dirEntryHeaderSize := by
    rw [← hpad, takeD_length]
  have hname' : (padded ++ rest).take e.name.length = e.name := by
    rw [← hpad, takeD_eq_append 0 _ _ (by omega), append_assoc, take_left' rfl]
  have hbuf : header ++ padded ++ rest = header ++ (padded ++ rest) := append_assoc ..
  have hfields : decode [4, 2, 2] (header ++ padded ++ rest) =
      [e.inodeId, e.name.length, alignedRecordLen e.name] := by
    rw [hbuf]
    exact hdecode
  have hread : ((header ++ padded ++ rest).drop dirEntryHeaderSize).take e.name.length = e.name := by
    rw [hbuf, drop_left' hheader, hname']
  have hdrop : (header ++ padded ++ rest).drop (alignedRecordLen e.name) = rest :=
    drop_left' (by rw [length_append]; omega)
  have hsize : dirEntryHeaderSize + e.name.length ≤ (header ++ padded ++ rest).length := by
    simp only [length_append]
    omega
  rw [parseDirRecords, if_neg (by rw [shorter_iff]; omega)]
  simp only [hfields, getD_cons_zero, getD_cons_succ, hread, hdrop]
  have hpos : alignedRecordLen e.name ≠ 0 := by
    simp only [dirEntryHeaderSize] at hlen
    omega
  rw [if_neg hpos]
  by_cases hlive : e.inodeId ≠ 0 ∧ 0 < e.name.length
  · rw [if_pos hlive, if_neg (not_lt.mpr hlen), if_neg (by rw [shorter_iff]; omega)]
    have hlisted : e.listed = [(fromUtf8Lossy e.name.length e.name, e.inodeId)] :=
      if_pos ⟨hlive.1, length_pos_iff.mp hlive.2⟩
    rw [hlisted]
    cases parseDirRecords fuel rest with
    | none => rfl
    | some es => rfl
  · have hlisted : e.listed = [] :=
      if_neg fun h => hlive ⟨h.1, length_pos_iff.mpr h.2⟩
    rw [if_neg hlive, hlisted]
    rfl

theorem parseDirRecords_encode (z : Nat) : ∀ {offset fuel : Nat} {bytes : List UInt8},
    (∀ e ∈ es, e.inodeId < u32Size) → es.length ≤ fuel → encodeDirRecords offset es = .ok bytes →
    (parseDirRecords fuel (bytes ++ replicate z 0)).map (map DiskDirEntry.link) =
      some (es.flatMap DiskDirEntry.listed) := by
  induction es with
  | nil =>
    intro offset fuel bytes _ _ h
    cases h
    rw [nil_append, parseDirRecords_zeros]
    rfl
  | cons e es ih =>
    intro offset fuel bytes hids hfuel h
    obtain ⟨hname, hrecord, -, rest, hrest, rfl⟩ := encodeDirRecords_cons h
    cases fuel with
    | zero => cases hfuel
    | succ fuel =>
      have htail := ih (fun e' he' => hids e' (mem_cons_of_mem _ he')) (Nat.le_of_succ_le_succ hfuel)
        hrest
      obtain ⟨es', hparse, hlinks⟩ := Option.map_eq_some_iff.mp htail
      rw [append_assoc _ rest, parseDirRecords_record fuel _ (hids e mem_cons_self) hname hrecord,
        hparse, Option.map_some, hlinks, flatMap_cons]

theorem parseDirEntries_ofBytes {bytes : List UInt8} (hids : ∀ e ∈ es, e.inodeId < u32Size)
    (h : encodeDirRecords 0 es = .ok bytes) :
    (parseDirEntries (Block.ofBytes bytes)).map (map DiskDirEntry.link) =
      some (es.flatMap DiskDirEntry.listed) := by
  obtain ⟨hmin, hmax⟩ := encodeDirRecords_length (Nat.zero_le _) h
  rw [parseDirEntries, Block.bytes_ofBytes (by omega)]
  exact parseDirRecords_encode _ hids (by omega) h

theorem flatMap_listed (h : ∀ e ∈ es, e.Stored) :
    es.flatMap DiskDirEntry.listed = es.map DiskDirEntry.link := by
  induction es with
  | nil => rfl
  | cons e es ih =>
    rw [flatMap_cons, (h e mem_cons_self).listed, ih fun e' he' => h e' (mem_cons_of_mem _ he')]
    rfl

/-! ## Directories -/

namespace Node

/-- The names of a directory with their inodes, as a client sees them. -/
def names (n : Node) : Option (List (List UInt8 × Nat)) := n.entries.map (map DiskDirEntry.link)

theorem names_of_entries {n : Node} (h : n.entries = some es) :
    n.names = some (es.map DiskDirEntry.link) := by
  rw [names, h, Option.map_some]

/-- `m'` is the directory `m` with the names `ns` for its own. -/
structure Relisted (m : Node) (ns : List (List UInt8 × Nat)) (m' : Node) : Prop where
  inodeType : m'.inodeType = m.inodeType
  linkCount : m'.linkCount = m.linkCount
  names : m'.names = some ns

theorem entries_eq_first {n : Node} (hsize : 0 < n.size)
    (hrest : ∀ i, 0 < i → n.blocks i = none) : n.entries = blockEntries (n.blocks 0) := by
  have hholes : ∀ (is : List Nat) (acc : List DiskDirEntry), (∀ i ∈ is, 0 < i) →
      is.foldlM (fun acc i => (acc ++ ·) <$> blockEntries (n.blocks i)) acc = some acc := by
    intro is
    induction is with
    | nil => exact fun _ _ => rfl
    | cons i is ih =>
      intro acc hpos
      rw [foldlM_cons, hrest i (hpos i mem_cons_self)]
      simpa [blockEntries] using ih acc fun j hj => hpos j (mem_cons_of_mem _ hj)
  obtain ⟨k, hk⟩ : ∃ k, Lfs.dataBlocks n.size = k + 1 := by
    refine ⟨Lfs.dataBlocks n.size - 1, ?_⟩
    simp only [Lfs.dataBlocks, blockSize, directBlockCount]
    omega
  rw [entries, hk, range_succ_eq_map, foldlM_cons]
  cases hfirst : blockEntries (n.blocks 0) with
  | none => rfl
  | some es => exact hholes _ es (by simp)

theorem names_put {m : Node} {size : Nat} {bytes : List UInt8} (hsize : 0 < size)
    (hrest : ∀ i, 0 < i → m.blocks i = none) (hids : ∀ e ∈ es, e.inodeId < u32Size)
    (h : encodeDirRecords 0 es = .ok bytes) :
    { m.put 0 (Block.ofBytes bytes) with size := size }.names =
      some (es.flatMap DiskDirEntry.listed) := by
  rw [names, entries_eq_first hsize fun i hi => ?_]
  · simpa [put, blockEntries] using parseDirEntries_ofBytes hids h
  · simpa [put, Function.update_of_ne (Nat.pos_iff_ne_zero.mp hi)] using hrest i hi

theorem names_of_size_zero {n : Node} (h : n.size = 0) : n.names = some [] := by
  rw [names, entries, h]
  rfl

end Node

namespace Lfs

theorem dirSize_pos (h : ∀ e ∈ es, e.Fits) (hne : es ≠ []) : 0 < dirSize es := by
  cases es with
  | nil => contradiction
  | cons e es =>
    have := (h e mem_cons_self).recordLen_pos
    simp only [dirSize, map_cons, sum_cons]
    omega

theorem dirSize_le (h : ∀ e ∈ es, e.Fits) : dirSize es ≤ es.length * 2 ^ 16 := by
  induction es with
  | nil => simp [dirSize]
  | cons e es ih =>
    have := (h e mem_cons_self).recordLen_lt
    have := ih fun e' he' => h e' (mem_cons_of_mem _ he')
    simp only [dirSize, map_cons, sum_cons, length_cons] at *
    omega

end Lfs

end Thumos
