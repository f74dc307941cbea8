import Thumos.Lfs.Mount

/-!
# A checkpoint is read back as it was written

The round trips of what a checkpoint is made of: bytes in whole blocks, the
inode map, the segment bitmap and the header.  A map is read back entry by
entry; the trees may differ, so the statement is about what they hold.
-/

namespace Thumos

open StateExcept LittleEndian List

/-! ## Bytes in whole blocks -/

theorem blocksNeeded_le (len : Nat) : len ≤ blocksNeeded len * blockSize := by
  simp only [blocksNeeded, blockSize]
  split <;> omega

theorem blocksOf_length (n : Nat) (data : List UInt8) : (blocksOf n data).length = n := by
  induction n generalizing data with
  | zero => rfl
  | succ n ih => rw [blocksOf, length_cons, ih]

theorem imageBytes_blocksOf {view : Nat → Block} (n : Nat) : ∀ (start : Nat) (data : List UInt8),
    data.length ≤ n * blockSize → (∀ i b, (blocksOf n data)[i]? = some b → view (start + i) = b) →
    imageBytes view start n = data ++ replicate (n * blockSize - data.length) 0 := by
  induction n with
  | zero =>
    intro start data hlen _
    obtain rfl : data = [] := length_eq_zero_iff.mp (by omega)
    rfl
  | succ n ih =>
    intro start data hlen hview
    rw [Nat.add_mul, Nat.one_mul] at hlen
    have hfirst : view start = Block.ofBytes (data.take blockSize) := hview 0 _ rfl
    have hrest := ih (start + 1) (data.drop blockSize)
      (by rw [length_drop]; omega) (by
        intro i b hb
        rw [Nat.add_right_comm, Nat.add_assoc]
        exact hview (i + 1) b hb)
    rw [imageBytes, hfirst, hrest, Block.bytes_ofBytes (by rw [length_take]; omega)]
    rw [Nat.add_mul, Nat.one_mul, length_take, length_drop]
    by_cases hle : blockSize ≤ data.length
    · rw [Nat.min_eq_left hle, Nat.sub_self, replicate_zero, append_nil,
        ← append_assoc, take_append_drop,
        show n * blockSize - (data.length - blockSize) =
          n * blockSize + blockSize - data.length by omega]
    · rw [take_of_length_le (by omega), drop_eq_nil_of_le (by omega), nil_append,
        append_assoc, replicate_append_replicate,
        show blockSize - min blockSize data.length + (n * blockSize - (data.length - blockSize)) =
          n * blockSize + blockSize - data.length by omega]

/-! ## The inode map -/

namespace LfsImap

def encodeEntries (es : List (Nat × Nat)) : List UInt8 :=
  es.flatMap fun e => leBytes 4 e.1 ++ leBytes 8 e.2

theorem encodeEntries_length (es : List (Nat × Nat)) :
    (encodeEntries es).length = es.length * imapEntrySize := by
  induction es with
  | nil => rfl
  | cons e es ih =>
    rw [encodeEntries, flatMap_cons, length_append, length_append]
    show _ + (encodeEntries es).length = _
    rw [ih, leBytes_length, leBytes_length, length_cons, add_mul]
    simp only [imapEntrySize]
    omega

structure EntryOk (segmentSize deviceBlocks : Nat) (e : Nat × Nat) : Prop where
  id_lt : e.1 < u32Size
  block_ge : segmentSize ≤ e.2
  block_lt : e.2 < deviceBlocks
  block_u64 : e.2 < u64Size

theorem parseEntries_encode {segmentSize deviceBlocks : Nat} (es : List (Nat × Nat)) :
    ∀ (rest : List UInt8) (m : LfsImap), (∀ e ∈ es, EntryOk segmentSize deviceBlocks e) →
    parseEntries segmentSize deviceBlocks es.length (encodeEntries es ++ rest) m =
      .ok (es.foldl (fun m e => m.insert e.1 e.2) m) := by
  induction es with
  | nil =>
    intro rest m _
    rfl
  | cons e es ih =>
    intro rest m hes
    have he := hes e mem_cons_self
    have hbuf : encodeEntries (e :: es) ++ rest =
        leBytes 4 e.1 ++ (leBytes 8 e.2 ++ (encodeEntries es ++ rest)) := by
      simp [encodeEntries]
    have hid : leValue ((encodeEntries (e :: es) ++ rest).take 4) = e.1 := by
      rw [hbuf, take_left' (leBytes_length 4 _), leValue_leBytes_of_lt]
      exact he.id_lt
    have hblock : leValue (((encodeEntries (e :: es) ++ rest).drop 4).take 8) = e.2 := by
      rw [hbuf, drop_left' (leBytes_length 4 _), take_left' (leBytes_length 8 _),
        leValue_leBytes_of_lt]
      exact he.block_u64
    have hdrop : (encodeEntries (e :: es) ++ rest).drop imapEntrySize =
      encodeEntries es ++ rest := by
      rw [hbuf, ← append_assoc, drop_left' (by simp)]
    rw [length_cons, parseEntries]
    simp only [hid, hblock, hdrop]
    rw [if_neg (by have := he.block_ge; have := he.block_lt; omega), foldl_cons]
    exact ih rest _ fun e' he' => hes e' (mem_cons_of_mem _ he')

theorem foldl_insert_getElem? (es : List (Nat × Nat)) : ∀ (m : LfsImap),
    es.Pairwise (fun a b => a.1 ≠ b.1) → ∀ k : Nat,
    (∀ v, (k, v) ∈ es → (es.foldl (fun m e => m.insert e.1 e.2) m)[k]? = some v) ∧
      ((∀ v, (k, v) ∉ es) → (es.foldl (fun m e => m.insert e.1 e.2) m)[k]? = m[k]?) := by
  induction es with
  | nil =>
    intro m _ k
    exact ⟨fun v hv => absurd hv (by simp), fun _ => rfl⟩
  | cons e es ih =>
    intro m hdistinct k
    obtain ⟨hin, hout⟩ := ih (m.insert e.1 e.2) hdistinct.tail k
    have hne : ∀ v, (e.1, v) ∉ es := fun v hv =>
      rel_of_pairwise_cons hdistinct hv rfl
    constructor
    · intro v hv
      rw [foldl_cons]
      rcases mem_cons.mp hv with rfl | hv
      · rw [hout hne, imap_getElem?_insert, if_pos rfl]
      · exact hin v hv
    · intro hno
      have hke : k ≠ e.1 := by
        intro heq
        exact hno e.2 (by rw [heq]; exact mem_cons_self)
      rw [foldl_cons, hout fun v hv => hno v (mem_cons_of_mem _ hv),
        imap_getElem?_insert, if_neg hke]

theorem deserialize_serialize {m : LfsImap} (segmentSize deviceBlocks : Nat) (rest : List UInt8)
    (hlen : (serialize m).length < u32Size)
    (hes : ∀ id b : Nat, m[id]? = some b → EntryOk segmentSize deviceBlocks (id, b)) :
    ∃ m', deserialize (serialize m ++ rest) segmentSize deviceBlocks = .ok m' ∧
      ∀ id : Nat, m'[id]? = m[id]? := by
  have hser : serialize m = leBytes 4 m.size ++ encodeEntries m.toList := rfl
  have hsize : m.size = m.toList.length := Std.TreeMap.length_toList.symm
  have hlen' : (serialize m).length = 4 + m.size * imapEntrySize := by
    rw [hser, length_append, leBytes_length, encodeEntries_length, hsize]
  refine ⟨m.toList.foldl (fun m e => m.insert e.1 e.2) ∅, ?_, ?_⟩
  · have hcount : leValue ((serialize m ++ rest).take 4) = m.size := by
      rw [hser, append_assoc, take_left' (leBytes_length 4 _), leValue_leBytes_of_lt]
      simp only [imapEntrySize, u32Size] at *
      omega
    unfold deserialize
    simp only [hcount]
    rw [if_neg, if_neg, if_neg]
    · rw [hser, append_assoc, drop_left' (leBytes_length 4 _), hsize]
      refine parseEntries_encode m.toList rest ∅ ?_
      intro e he
      exact hes e.1 e.2 (LfsImap.mem_toList.mp he)
    · rw [shorter_iff, length_append, hlen']
      simp only [imapHeaderSize]
      omega
    · rw [hlen'] at hlen
      simp only [imapHeaderSize]
      omega
    · rw [shorter_iff, length_append, hlen']
      simp only [imapHeaderSize]
      omega
  · intro id
    obtain ⟨hin, hout⟩ := foldl_insert_getElem? m.toList ∅ m.pairwise_toList id
    cases hb : m[id]? with
    | some b => exact hin b (LfsImap.mem_toList.mpr hb)
    | none =>
      rw [hout]
      · exact Std.TreeMap.getElem?_emptyc
      · intro v hv
        have := LfsImap.mem_toList.mp hv
        rw [hb] at this
        contradiction

end LfsImap

/-! ## The segment bitmap -/

namespace LfsSegmentManager

theorem bitsValue_lt (bs : List Bool) : bitsValue bs < 2 ^ bs.length := by
  induction bs with
  | nil => simp [bitsValue]
  | cons b bs ih =>
    rw [bitsValue, length_cons, pow_succ]
    cases b <;> simp <;> omega

theorem bitsValue_digit (bs : List Bool) :
    ∀ i, bitsValue bs / 2 ^ i % 2 = 1 ↔ bs[i]? = some true := by
  induction bs with
  | nil =>
    intro i
    simp [bitsValue]
  | cons b bs ih =>
    intro i
    cases i with
    | zero =>
      rw [bitsValue, getElem?_cons_zero]
      cases b <;> simp
    | succ i =>
      have hhalf : bitsValue (b :: bs) / 2 = bitsValue bs := by
        rw [bitsValue]
        cases b
        · simp
        · simp
          omega
      rw [getElem?_cons_succ, pow_succ', ← Nat.div_div_eq_div_mul, hhalf]
      exact ih i

theorem packBits_length (n : Nat) (bits : List Bool) : (packBits n bits).length = n := by
  induction n generalizing bits with
  | zero => rfl
  | succ n ih => rw [packBits, length_cons, ih]

theorem packBits_getElem? (n : Nat) : ∀ (bits : List Bool) {i : Nat}, i < n →
    (packBits n bits)[i]? = some (UInt8.ofNat (bitsValue ((bits.drop (8 * i)).take 8))) := by
  induction n with
  | zero =>
    intro bits i hi
    omega
  | succ n ih =>
    intro bits i hi
    cases i with
    | zero => rfl
    | succ i =>
      rw [packBits, getElem?_cons_succ, ih _ (by omega), drop_drop,
        show 8 + 8 * i = 8 * (i + 1) by omega]

theorem unpackBit_packBits {n i : Nat} (bits : List Bool) (rest : List UInt8) (hi : i < 8 * n) :
    unpackBit (packBits n bits ++ rest) i = bits.getD i false := by
  have hbyte : i / 8 < n := by omega
  have hget : (packBits n bits ++ rest).getD (i / 8) 0 =
      UInt8.ofNat (bitsValue ((bits.drop (8 * (i / 8))).take 8)) := by
    rw [getD_eq_getElem?_getD, getElem?_append_left (by rw [packBits_length]; exact hbyte),
      packBits_getElem? n bits hbyte, Option.getD_some]
  have hlt : bitsValue ((bits.drop (8 * (i / 8))).take 8) < 256 := by
    have hlen : ((bits.drop (8 * (i / 8))).take 8).length ≤ 8 := by
      rw [length_take]
      omega
    calc bitsValue ((bits.drop (8 * (i / 8))).take 8)
        < 2 ^ ((bits.drop (8 * (i / 8))).take 8).length := bitsValue_lt _
      _ ≤ 2 ^ 8 := Nat.pow_le_pow_right (by omega) hlen
  have hdigit := bitsValue_digit ((bits.drop (8 * (i / 8))).take 8) (i % 8)
  rw [getElem?_take_of_lt (by omega), getElem?_drop,
    show 8 * (i / 8) + i % 8 = i by omega] at hdigit
  unfold unpackBit
  rw [hget, UInt8.toNat_ofNat_of_lt' hlt, getD_eq_getElem?_getD]
  cases hb : bits[i]? with
  | none =>
    rw [hb] at hdigit
    simpa using hdigit
  | some b =>
    rw [hb] at hdigit
    cases b <;> simpa using hdigit

theorem serialize_length (m : LfsSegmentManager) :
    m.serialize.length = 8 + bitmapBytes m.segmentCount := by
  rw [serialize, length_append, length_append, leBytes_length, leBytes_length,
    packBits_length]

theorem deserialize_inv {data : List UInt8} {segmentCount segmentSize deviceBlocks : Nat}
    {m : LfsSegmentManager} (h : deserialize data segmentCount segmentSize deviceBlocks = .ok m) :
    0 < segmentSize ∧ segmentCount * segmentSize ≤ deviceBlocks ∧
      bitmapBytes segmentCount ≤ data.length - 8 ∧ m.segmentCount = segmentCount ∧
      m.segmentSize = segmentSize ∧
      m.bitmap = (range segmentCount).map (unpackBit (data.drop 8)) := by
  unfold deserialize at h
  split at h
  · contradiction
  split at h
  · contradiction
  split at h
  · contradiction
  split at h
  · contradiction
  split at h
  · contradiction
  split at h
  · contradiction
  rename_i hshort
  rw [shorter_iff, length_drop] at hshort
  cases h
  exact ⟨by omega, by omega, by omega, rfl, rfl, rfl⟩

theorem deserialize_serialize {m : LfsSegmentManager} (deviceBlocks : Nat) (rest : List UInt8)
    (hpos : 0 < m.segmentSize) (hsize : m.segmentSize < u32Size) (hcount : m.segmentCount < u32Size)
    (hfit : m.segmentCount * m.segmentSize ≤ deviceBlocks) (hdev : deviceBlocks < u64Size) :
    deserialize (m.serialize ++ rest) m.segmentCount m.segmentSize deviceBlocks = .ok m := by
  have hser : m.serialize ++ rest = leBytes 4 m.segmentCount ++ (leBytes 4 m.segmentSize ++
      (packBits (bitmapBytes m.segmentCount) m.bitmap ++ rest)) := by
    simp [serialize]
  have hbits : (range m.segmentCount).map (unpackBit ((m.serialize ++ rest).drop 8)) =
      m.bitmap := by
    rw [hser, ← append_assoc, drop_left' (by simp)]
    apply ext_getElem
    · rw [length_map, length_range, m.length_eq]
    · intro i hi hi'
      rw [length_map, length_range] at hi
      rw [getElem_map, getElem_range, unpackBit_packBits]
      · simp [hi']
      · simp only [bitmapBytes]
        omega
  unfold deserialize
  rw [if_neg (by omega), if_neg (by omega), if_neg (by omega), if_neg, if_neg, if_neg]
  · simp only [hbits]
    congr 1
    obtain ⟨bitmap, count, size, freeCount, hlen, hfree⟩ := m
    simp only [LfsSegmentManager.mk.injEq, true_and]
    exact hfree.symm
  · rw [shorter_iff, length_drop, length_append, serialize_length]
    omega
  · have h1 : leValue ((m.serialize ++ rest).take 4) = m.segmentCount := by
      rw [hser, take_left' (leBytes_length 4 _), leValue_leBytes_of_lt hcount]
    have h2 : leValue (((m.serialize ++ rest).drop 4).take 4) = m.segmentSize := by
      rw [hser, drop_left' (leBytes_length 4 _), take_left' (leBytes_length 4 _),
        leValue_leBytes_of_lt hsize]
    rw [h1, h2]
    simp
  · rw [shorter_iff, length_append, serialize_length]
    omega

end LfsSegmentManager

/-! ## The header -/

namespace CheckpointHeader

def InRange (h : CheckpointHeader) : Prop := ∀ f ∈ h.fields, f.2 < 256 ^ f.1

variable {h : CheckpointHeader}

theorem fromBlock_toBlock (hr : h.InRange) (hm : h.magic = checkpointMagic) :
    fromBlock h.toBlock = .ok h := by
  have hdec : decode widths h.toBlock.bytes = h.fields.map Prod.snd :=
    decode_ofBytes_encode rfl (by decide) hr
  unfold fromBlock
  rw [hdec]
  cases h
  simp_all [fields]

theorem parse_eq_ok {buf : Block} {n : Nat} (hp : parse buf n = .ok h) :
    fromBlock buf = .ok h := by
  obtain ⟨h', hfrom, hrest⟩ := result_bind_eq_ok.mp hp
  obtain ⟨-, -, heq⟩ := result_bind_eq_ok.mp hrest
  rw [hfrom]
  exact heq

theorem parse_toBlock {n : Nat} (hr : h.InRange) (hm : h.magic = checkpointMagic) (hn : n < u64Size)
    (himap : h.imapBlock < n) (himap' : h.imapBlock + h.imapBlockCount ≤ n)
    (hseg : h.segmentBitmapBlock < n) (hseg' : h.segmentBitmapBlock + h.segmentBitmapCount ≤ n) :
    parse h.toBlock n = .ok h := by
  have hgeom : h.validateGeometry n = .ok () := by
    unfold validateGeometry
    simp only
    rw [if_neg (by omega), if_neg (by omega), if_neg (by omega)]
  unfold parse
  rw [fromBlock_toBlock hr hm]
  simp only [bind, Except.bind, hgeom, pure, Except.pure]

end CheckpointHeader

end Thumos
