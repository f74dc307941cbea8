import Thumos.Lfs.Reading

/-!
# What the mutating calls do

The bodies of `write`, `truncate`, `create` and `unlink`, that is, the calls
without the compaction at their end.  A body stages new blocks in a copy of
the inode and then commits it.  The staging is quiet, so a body that fails
before its commit has changed nothing (`Draft`), and what a body commits is
stated about the nodes of the meaning.
-/

namespace Thumos

open StateExcept List Function Nat

namespace Node

def put (m : Node) (i : Nat) (b : Block) : Node :=
  { m with blocks := Function.update m.blocks i (some b) }

theorem byteAt_put (m : Node) (i : Nat) (b : Block) (j : Nat) : (m.put i b).byteAt j =
      if j / blockSize = i then b.byte (j % blockSize) else m.byteAt j := by
  by_cases h : j / blockSize = i
  · simp [byteAt, put, h]
  · simp [byteAt, put, h]

def empty (inodeType : Nat) : Node where
  inodeType := inodeType
  linkCount := 1
  size := 0
  blocks _ := none

structure Written (m : Node) (offset : Nat) (buf : List UInt8) (m' : Node) : Prop where
  inodeType : m'.inodeType = m.inodeType
  linkCount : m'.linkCount = m.linkCount
  size : m'.size = max m.size (offset + buf.length)
  bytes : ∀ j, m'.byteAt j =
    if offset ≤ j ∧ j < offset + buf.length then buf.getD (j - offset) 0 else m.byteAt j

structure Resized (m : Node) (size : Nat) (m' : Node) : Prop where
  inodeType : m'.inodeType = m.inodeType
  linkCount : m'.linkCount = m.linkCount
  size_eq : m'.size = size
  bytes : ∀ j < size, m'.byteAt j = m.byteAt j

end Node

namespace Lfs

/-- `s'` is `s` after commits that give it the meaning `m` and bring the inode
counter to `next`. -/
structure Commit (m : Nat → Option Node) (next : Nat) (s s' : Lfs) : Prop extends Step s s' where
  good : s'.Good
  meaning : Thumos.meaning s'.core = m
  nextInode : s'.nextInode = next
  writer : s'.writer ≠ none

/-- `n'`, staged in `s'`, is the inode `n` of `id` with other blocks. -/
structure Draft (s : Lfs) (id : Nat) (n : DiskInode) (s' : Lfs) (n' : DiskInode) : Prop where
  quiet : Quiet s s'
  ptrs : PtrsOk s'.superblock.blockCount s'.core id n'
  inodeType : n'.inodeType = n.inodeType
  linkCount : n'.linkCount = n.linkCount
  indirect : n'.indirect = n.indirect
  size : n'.size = n.size

variable {s s₁ s₂ : Lfs} {id : Nat} {n n₁ : DiskInode}

theorem Draft.start (hq : Quiet s s₁) (hs : s.Good) (hn : inodeOf s.core id = some n) :
    Draft s id n s₁ n :=
  ⟨hq, hq.ptrsOk hs (hs.ptrsOk_self hn), rfl, rfl, rfl, rfl⟩

section

variable (hd : Draft s id n s₁ n₁)

include hd

theorem Draft.of_quiet (hs : s.Good) (hq : Quiet s₁ s₂) :
    Draft s id n s₂ n₁ :=
  ⟨hd.quiet.trans hq, hq.ptrsOk (hd.quiet.good hs) hd.ptrs, hd.inodeType, hd.linkCount,
    hd.indirect, hd.size⟩

theorem Draft.nodeOf (hq : Quiet s₁ s₂) :
    nodeOf s₂.disk n₁ = nodeOf s₁.disk n₁ :=
  nodeOf_of_step hq.log hd.ptrs.prot

theorem Draft.writeDataBlock (hs : s.Good) {i : Nat} (hi : i < directBlockCount) (data : Block) :
    wp (writeDataBlock data) (fun b s₂ => Draft s id n s₂ (n₁.setPtr i b) ∧
        Thumos.nodeOf s₂.disk (n₁.setPtr i b) = (Thumos.nodeOf s₁.disk n₁).put i data)
      (fun _ s₂ => Quiet s s₂) s₁ := by
  have hs₁ := hd.quiet.good hs
  refine wp_conseq (writeDataBlock_spec hd.quiet.logOk data) ?_ fun _ _ h => hd.quiet.trans h
  intro b s₂ hpost
  obtain ⟨hq, hloose, hprot, hview⟩ := hpost
  have hd₂ := hd.of_quiet hs hq
  have hptr := fun j => n₁.ptr_setPtr b j hi
  -- the new block is none of the old ones
  have hfresh : ∀ j, n₁.ptr j ≠ 0 → n₁.ptr j ≠ b := by
    intro j hj heq
    exact hloose.free (heq ▸ hd.ptrs.prot j hj)
  have hunref : ∀ id' k, refAt s₂.core id' k ≠ some b := by
    intro id' k
    rw [refAt_of_step hs₁ hq.log (show s₂.imap[id']? = s₁.imap[id']? by rw [hq.imap])]
    exact hs₁.not_ref_of_loose hloose id' k
  have hb : b ≠ 0 := by
    have h1 := hprot.data
    have h2 := hq.logOk.segSize
    omega
  refine ⟨⟨hd₂.quiet, ⟨?_, ?_, ?_⟩, hd.inodeType, hd.linkCount, hd.indirect, hd.size⟩, ?_⟩
  · intro j hj
    rw [hptr] at hj ⊢
    split
    · exact hprot
    · rename_i hne
      rw [if_neg hne] at hj
      exact hd₂.ptrs.prot j hj
  · intro j hj
    rw [hptr] at hj ⊢
    split
    · exact .inr hunref
    · rename_i hne
      rw [if_neg hne] at hj
      exact hd₂.ptrs.own j hj
  · intro j k hj hjk
    simp only [hptr] at hj hjk
    by_cases hji : j = i
    · by_cases hki : k = i
      · rw [hji, hki]
      · rw [if_pos hji, if_neg hki] at hjk
        exact absurd hjk.symm (hfresh k (hjk ▸ hb))
    · rw [if_neg hji] at hj hjk
      by_cases hki : k = i
      · rw [if_pos hki] at hjk
        exact absurd hjk (hfresh j hj)
      · rw [if_neg hki] at hjk
        exact hd₂.ptrs.distinct j k hj hjk
  · rw [← hd.nodeOf hq]
    unfold Thumos.nodeOf Node.put
    congr 1
    funext j
    rw [hptr]
    by_cases hji : j = i
    · rw [if_pos hji, if_neg hb, hview, hji, update_self]
    · rw [if_neg hji, update_of_ne hji]

theorem Draft.writeInode (hs : s.Good) {n₂ : DiskInode}
    (hptr : ∀ i, n₂.ptr i = n₁.ptr i) (hshape : n₂.Shape) :
    wp (writeInode id n₂)
      (fun _ s₂ => Commit (update (meaning s.core) id (some (Thumos.nodeOf s₁.disk n₂)))
        s.nextInode s s₂) (fun _ s₂ => Quiet s s₂) s₁ := by
  have hptrs : PtrsOk s₁.superblock.blockCount s₁.core id n₂ :=
    hd.ptrs.of_subset fun i _ => hptr i
  have hs₁ := hd.quiet.good hs
  refine wp_conseq (writeInode_spec hs₁.log id n₂) ?_ fun _ _ h => hd.quiet.trans h
  intro _ s₂ hpost
  obtain ⟨b, hent⟩ := hpost
  obtain ⟨hgood, hmean⟩ := hent.commit hs₁ hshape hptrs
  refine ⟨hd.quiet.toStep.trans hent.toStep, hgood, ?_, ?_, hent.writer⟩
  · rw [hmean, hd.quiet.meaning hs]
  · exact hent.nextInode.trans hd.quiet.nextInode

/-! ## Write -/

theorem existingBlock_spec (isPartial : Bool) (i : Nat) :
    wp (existingBlock isPartial (n₁.ptr i))
      (fun x s₂ => Quiet s₁ s₂ ∧ (isPartial = true → ∀ k < blockSize,
        x.byte k = (Thumos.nodeOf s₁.disk n₁).byteAt (i * blockSize + k)))
      (fun _ s₂ => Quiet s s₂) s₁ := by
  have hpos : ∀ k < blockSize, (i * blockSize + k) / blockSize = i ∧
      (i * blockSize + k) % blockSize = k := by
    intro k hk
    simp only [blockSize] at *
    omega
  unfold existingBlock
  rw [wp_ite]
  constructor
  · intro hread
    have hne : n₁.ptr i ≠ 0 := by simpa using (Bool.and_eq_true_iff.mp hread).2
    refine wp_conseq (readBlock_spec hd.quiet.logOk (n₁.ptr i)) ?_ fun _ _ h => hd.quiet.trans h
    intro x s₂ hpost
    obtain ⟨rfl, hq⟩ := hpost
    refine ⟨hq, fun _ k hk => ?_⟩
    simp [Node.byteAt, Thumos.nodeOf, hpos k hk, hne]
  · intro hno
    refine ⟨Quiet.refl hd.quiet.logOk, fun hpart k hk => ?_⟩
    have h0 : n₁.ptr i = 0 := by
      by_contra hne
      exact hno (by simp [hpart, hne])
    rw [Block.zero, Block.byte_ofBytes [] hk]
    simp [Node.byteAt, Thumos.nodeOf, hpos k hk, h0]

end

theorem byteAt_overlay {m : Node} {old : Block} {pos : Nat} {src : List UInt8}
    (hsrc : pos % blockSize + src.length ≤ blockSize)
    (hold : ∀ k < blockSize, k < pos % blockSize ∨ pos % blockSize + src.length ≤ k →
      old.byte k = m.byteAt (pos / blockSize * blockSize + k)) (j : Nat) :
    (m.put (pos / blockSize) (old.copyAt (pos % blockSize) src)).byteAt j =
      if pos ≤ j ∧ j < pos + src.length then src.getD (j - pos) 0 else m.byteAt j := by
  have hmod : j % blockSize < blockSize := mod_lt _ (by decide)
  have hj := mod_add_div j blockSize
  have hp := mod_add_div pos blockSize
  rw [Node.byteAt_put]
  by_cases hblock : j / blockSize = pos / blockSize
  · rw [if_pos hblock, Block.byte_copyAt old hsrc hmod]
    rw [hblock] at hj
    by_cases hin : pos % blockSize ≤ j % blockSize ∧ j % blockSize < pos % blockSize + src.length
    · rw [if_pos hin, if_pos (by omega)]
      congr 1
      omega
    · rw [if_neg hin, if_neg (by omega), hold _ hmod (by omega)]
      congr 1
      rw [mul_comm]
      omega
  · rw [if_neg hblock, if_neg]
    intro hin
    apply hblock
    simp only [blockSize] at *
    omega

theorem writeLoop_spec (hs : s.Good) (fuel : Nat) : ∀ (pos : Nat) (rest : List UInt8)
    {s₁ : Lfs} {n₁ : DiskInode}, Draft s id n s₁ n₁ → rest.length ≤ fuel →
    wp (writeLoop fuel pos rest n₁) (fun n₂ s₂ => Draft s id n s₂ n₂ ∧
        (∀ j, (Thumos.nodeOf s₂.disk n₂).byteAt j =
          if pos ≤ j ∧ j < pos + rest.length then rest.getD (j - pos) 0
          else (Thumos.nodeOf s₁.disk n₁).byteAt j) ∧
        ∀ i, n₂.ptr i ≠ 0 → n₁.ptr i ≠ 0 ∨ i * blockSize < pos + rest.length)
      (fun _ s₂ => Quiet s s₂) s₁ := by
  have hdone : ∀ (pos : Nat) {s₁ : Lfs} {n₁ : DiskInode}, Draft s id n s₁ n₁ →
      Draft s id n s₁ n₁ ∧
        (∀ j, (Thumos.nodeOf s₁.disk n₁).byteAt j =
          if pos ≤ j ∧ j < pos + ([] : List UInt8).length then ([] : List UInt8).getD (j - pos) 0
          else (Thumos.nodeOf s₁.disk n₁).byteAt j) ∧
        ∀ i, n₁.ptr i ≠ 0 → n₁.ptr i ≠ 0 ∨ i * blockSize < pos + ([] : List UInt8).length := by
    intro pos s₁ n₁ hd
    refine ⟨hd, fun j => ?_, fun i hi => .inl hi⟩
    rw [if_neg]
    simp only [length_nil]
    omega
  induction fuel with
  | zero =>
    intro pos rest s₁ n₁ hd hfuel
    obtain rfl : rest = [] := length_eq_zero_iff.mp (by omega)
    exact hdone pos hd
  | succ fuel ih =>
    intro pos rest s₁ n₁ hd hfuel
    simp only [writeLoop]
    rw [wp_ite]
    constructor
    · intro hnil
      obtain rfl := isEmpty_iff.mp hnil
      exact hdone pos hd
    · intro hne
      have hlen : 0 < rest.length := by
        rw [length_pos_iff]
        simpa using hne
      have hmod : pos % blockSize < blockSize := mod_lt _ (by decide)
      generalize hchunk : min (blockSize - pos % blockSize) rest.length = chunk
      have htake : (rest.take chunk).length = chunk := by
        rw [length_take]
        omega
      simp only [wp_bind, wp_failIf]
      refine ⟨fun _ => hd.quiet, fun hi => ?_⟩
      have hi' : pos / blockSize < directBlockCount := by omega
      refine wp_post (existingBlock_spec hd _ (pos / blockSize)) ?_
      intro old s₂ hpost
      obtain ⟨hq, hold⟩ := hpost
      refine wp_post ((hd.of_quiet hs hq).writeDataBlock hs hi' _) ?_
      intro b s₃ hpost
      obtain ⟨hd₃, hnode⟩ := hpost
      refine wp_post (ih (pos + chunk) (rest.drop chunk) hd₃ ?_) ?_
      · rw [length_drop]
        omega
      · intro n₄ s₄ hpost
        obtain ⟨hd₄, hbytes, hptr⟩ := hpost
        refine ⟨hd₄, fun j => ?_, fun i hi => ?_⟩
        · -- the bytes of this turn, then those of the turns after it
          rw [hbytes, hnode, hd.nodeOf hq, byteAt_overlay (by omega)]
          · rw [htake, length_drop]
            by_cases hlater : pos + chunk ≤ j ∧ j < pos + chunk + (rest.length - chunk)
            · rw [if_pos hlater, if_pos (by omega), getD_eq_getElem?_getD, getElem?_drop,
                getD_eq_getElem?_getD]
              congr 2
              omega
            · rw [if_neg hlater]
              by_cases hnow : pos ≤ j ∧ j < pos + chunk
              · rw [if_pos hnow, if_pos (by omega), getD_eq_getElem?_getD,
                  getElem?_take_of_lt (by omega), getD_eq_getElem?_getD]
              · rw [if_neg hnow, if_neg (by omega)]
          · intro k hk hout
            refine hold ?_ k hk
            -- a whole block is overwritten, and nothing of the old one is left
            by_contra hfull
            simp only [Bool.or_eq_true, bne_iff_ne, ne_eq, decide_eq_true_eq, not_or,
              not_not] at hfull
            omega
        · rw [length_drop] at hptr
          rcases hptr i hi with hset | hlt
          · rw [n₁.ptr_setPtr b i hi'] at hset
            by_cases hpi : i = pos / blockSize
            · right
              have hle : pos / blockSize * blockSize ≤ pos := div_mul_le_self _ _
              rw [hpi]
              omega
            · rw [if_neg hpi] at hset
              exact .inl hset
          · right
            omega

theorem lt_dataBlocks {i size : Nat} (hi : i < directBlockCount) :
    i < dataBlocks size ↔ i * blockSize < size := by
  simp only [dataBlocks, directBlockCount, blockSize] at *
  omega

theorem ptr_before_end (hn : n.Shape) {i : Nat} (hi : n.ptr i ≠ 0) : i * blockSize < n.size := by
  have hlt : i < directBlockCount := by
    by_contra hge
    exact hi (n.ptr_of_le (by omega))
  rw [← lt_dataBlocks hlt]
  by_contra hge
  exact hi (hn.tail i (by omega))

theorem shape_file {n' : DiskInode} (hn : n.Shape) (hfile : n.inodeType ≠ inodeTypeDir)
    (htype : n'.inodeType = n.inodeType) (hlink : n'.linkCount = n.linkCount)
    (hind : n'.indirect = n.indirect) (hsize : n'.size ≤ lfsMaxFileSize)
    (htail : ∀ i, n'.ptr i ≠ 0 → i * blockSize < n'.size) : n'.Shape where
  indirect := hind.trans hn.indirect
  linkCount := hlink.trans hn.linkCount
  inodeType := by
    rw [htype]
    exact hn.inodeType
  size_lt := lt_of_le_of_lt hsize (by decide)
  file _ := hsize
  tail := by
    intro i hi
    by_contra hne
    have hlt : i < directBlockCount := by
      by_contra hge
      exact hne (n'.ptr_of_le (by omega))
    have := (lt_dataBlocks hlt).mpr (htail i hne)
    omega
  dir hdir := absurd (htype.symm.trans hdir) hfile

theorem file_size_le (hn : n.Shape) (hfile : n.inodeType ≠ inodeTypeDir) :
    n.size ≤ lfsMaxFileSize := by
  rcases hn.inodeType with ht | ht
  · exact hn.file ht
  · exact absurd ht hfile

theorem writeBody_spec (hs : s.Good) (id offset : Nat) (buf : List UInt8) :
    wp (writeBody id offset buf)
      (fun _ s' => ∃ m, meaning s.core id = some m ∧ m.inodeType ≠ inodeTypeDir ∧
        ((buf = [] ∧ Quiet s s') ∨ (buf ≠ [] ∧ ∃ m', m.Written offset buf m' ∧
          Commit (update (meaning s.core) id (some m')) s.nextInode s s')))
      (fun _ s' => Quiet s s') s := by
  simp only [writeBody, wp_bind, wp_failIf]
  refine wp_post (loadInode_spec hs.log id) ?_
  intro n s₁ hpost
  obtain ⟨hn, hq₁⟩ := hpost
  have hshape := hs.shape hn
  refine ⟨fun _ => hq₁, fun hfile => ?_⟩
  rw [wp_ite]
  constructor
  · intro hnil
    exact ⟨_, meaning_of_inodeOf hn, hfile, .inl ⟨isEmpty_iff.mp hnil, hq₁⟩⟩
  · intro hne
    simp only [wp_bind, wp_failIf]
    refine ⟨fun _ => hq₁, fun hmax => ?_⟩
    refine wp_conseq (ensureWriter_spec hq₁.logOk) ?_ fun _ _ h => hq₁.trans h
    intro _ s₂ hpost
    obtain ⟨hq₂, -⟩ := hpost
    have hd₂ := Draft.start (hq₁.trans hq₂) hs hn
    refine wp_post (writeLoop_spec hs buf.length offset buf hd₂ (le_refl _)) ?_
    intro n₃ s₃ hpost
    obtain ⟨hd₃, hbytes, htail⟩ := hpost
    have hinode : (if n₃.size < offset + buf.length then { n₃ with size := offset + buf.length }
        else n₃) = { n₃ with size := max n.size (offset + buf.length) } := by
      rw [← hd₃.size]
      split
      · rw [max_eq_right (by omega)]
      · rw [max_eq_left (by omega)]
    rw [hinode]
    have hshape' : { n₃ with size := max n.size (offset + buf.length) }.Shape := by
      have hmax' := file_size_le hshape hfile
      refine shape_file hshape hfile hd₃.inodeType hd₃.linkCount hd₃.indirect ?_ ?_
      · show max n.size (offset + buf.length) ≤ lfsMaxFileSize
        omega
      · intro i hi
        show i * blockSize < max n.size (offset + buf.length)
        rcases htail i hi with hi' | hi'
        · have := ptr_before_end hshape hi'
          omega
        · omega
    refine wp_post (hd₃.writeInode hs (fun _ => rfl) hshape') ?_
    intro _ s₄ hcommit
    refine ⟨_, meaning_of_inodeOf hn, hfile, .inr ⟨by simpa using hne, _, ?_, hcommit⟩⟩
    refine ⟨hd₃.inodeType, hd₃.linkCount, rfl, fun j => ?_⟩
    have hstart : Thumos.nodeOf s₂.disk n = Thumos.nodeOf s.disk n :=
      nodeOf_of_step (hq₁.trans hq₂).log (hs.ptr_protected hn)
    rw [hstart] at hbytes
    exact hbytes j

/-! ## Truncate -/

theorem growLoop_spec (hs : s.Good) : ∀ (is : List Nat), (∀ i ∈ is, i < directBlockCount) →
    ∀ {s₁ : Lfs} {n₁ : DiskInode}, Draft s id n s₁ n₁ →
    wp (growLoop is n₁) (fun n₂ s₂ => Draft s id n s₂ n₂ ∧
        (∀ j, (Thumos.nodeOf s₂.disk n₂).byteAt j = (Thumos.nodeOf s₁.disk n₁).byteAt j) ∧
        ∀ i, n₂.ptr i ≠ 0 → n₁.ptr i ≠ 0 ∨ i ∈ is) (fun _ s₂ => Quiet s s₂) s₁ := by
  intro is
  induction is with
  | nil =>
    intro _ s₁ n₁ hd
    exact ⟨hd, fun _ => rfl, fun _ h => .inl h⟩
  | cons i is ih =>
    intro his s₁ n₁ hd
    have his' : ∀ j ∈ is, j < directBlockCount := fun j hj => his j (mem_cons_of_mem _ hj)
    have hi := his i mem_cons_self
    simp only [growLoop]
    rw [wp_ite]
    constructor
    · intro h0
      rw [wp_bind]
      refine wp_post (hd.writeDataBlock hs hi Block.zero) ?_
      intro b s₂ hpost
      obtain ⟨hd₂, hnode⟩ := hpost
      refine wp_post (ih his' hd₂) ?_
      intro n₃ s₃ hpost
      obtain ⟨hd₃, hbytes, hptr⟩ := hpost
      refine ⟨hd₃, fun j => ?_, fun k hk => ?_⟩
      · -- a zeroed block reads as the hole it fills
        rw [hbytes, hnode, Node.byteAt_put]
        split
        · rename_i hji
          have hmod : j % blockSize < blockSize := mod_lt _ (by decide)
          rw [Block.zero, Block.byte_ofBytes [] hmod]
          simp [Node.byteAt, Thumos.nodeOf, hji, h0]
        · rfl
      · rcases hptr k hk with hset | hmem
        · rw [n₁.ptr_setPtr b k hi] at hset
          by_cases hki : k = i
          · exact .inr (hki ▸ mem_cons_self)
          · rw [if_neg hki] at hset
            exact .inl hset
        · exact .inr (mem_cons_of_mem _ hmem)
    · intro _
      refine wp_post (ih his' hd) ?_
      intro n₃ s₃ hpost
      obtain ⟨hd₃, hbytes, hptr⟩ := hpost
      refine ⟨hd₃, hbytes, fun k hk => ?_⟩
      rcases hptr k hk with h | h
      · exact .inl h
      · exact .inr (mem_cons_of_mem _ h)

theorem byteAt_lt {d : Disk} {n n' : DiskInode} {j : Nat} (size : Nat)
    (hptr : ∀ i, i * blockSize < size → n'.ptr i = n.ptr i) (hj : j < size) :
    (Thumos.nodeOf d n').byteAt j = (Thumos.nodeOf d n).byteAt j := by
  have hle : j / blockSize * blockSize ≤ j := div_mul_le_self _ _
  simp only [Node.byteAt, Thumos.nodeOf]
  rw [hptr _ (by omega)]

theorem truncate_spec (hs : s.Good) (id size : Nat) :
    wp (truncate id size)
      (fun _ s' => ∃ m m', meaning s.core id = some m ∧ m.inodeType ≠ inodeTypeDir ∧
        m.Resized size m' ∧
        Commit (update (meaning s.core) id (some m')) s.nextInode s s')
      (fun _ s' => Quiet s s') s := by
  simp only [truncate, wp_bind, wp_failIf]
  refine wp_post (loadInode_spec hs.log id) ?_
  intro n s₁ hpost
  obtain ⟨hn, hq₁⟩ := hpost
  have hshape := hs.shape hn
  refine ⟨fun _ => hq₁, fun hfile => ⟨fun _ => hq₁, fun hmax => ?_⟩⟩
  have hptrs : ∀ {s' : Lfs} {n' : DiskInode}, Quiet s s' →
    (∀ i, n'.ptr i ≠ 0 → n'.ptr i = n.ptr i) →
      PtrsOk s'.superblock.blockCount s'.core id n' := by
    intro s' n' hq hsub
    exact (hq.ptrsOk hs (hs.ptrsOk_self hn)).of_subset hsub
  have hstart : ∀ {s' : Lfs}, Quiet s s' → Thumos.nodeOf s'.disk n = Thumos.nodeOf s.disk n :=
    fun hq => nodeOf_of_step hq.log (hs.ptr_protected hn)
  -- whichever way the size goes, the staged inode has the old bytes up to the new end
  have hstage : wp (
      if size < n.size then pure ({ n with size := size }.clearFrom (dataBlocks size))
      else if n.size < size then do
        ensureWriter
        failIf (u32Size ≤ n.size) .ioError
        growLoop (range' (dataBlocks n.size) (dataBlocks size - dataBlocks n.size))
          { n with size := size }
      else (pure { n with size := size } : M DiskInode))
      (fun n₂ s₂ => Draft s id { n with size := size } s₂ n₂ ∧
        (∀ j < size, (Thumos.nodeOf s₂.disk n₂).byteAt j = (Thumos.nodeOf s.disk n).byteAt j) ∧
        ∀ i, n₂.ptr i ≠ 0 → i * blockSize < size)
      (fun _ s₂ => Quiet s s₂) s₁ := by
    rw [wp_ite]
    constructor
    · intro hshrink
      have hptr : ∀ i, ({ n with size := size }.clearFrom (dataBlocks size)).ptr i =
          if i < dataBlocks size then n.ptr i else 0 := fun i => DiskInode.ptr_clearFrom _ _ i
      have hlt : ∀ i, ({ n with size := size }.clearFrom (dataBlocks size)).ptr i ≠ 0 →
          i < dataBlocks size := by
        intro i hi
        by_contra hge
        exact hi (by rw [hptr, if_neg hge])
      refine ⟨⟨hq₁, hptrs hq₁ ?_, rfl, rfl, rfl, rfl⟩, ?_, ?_⟩
      · intro i hi
        rw [hptr, if_pos (hlt i hi)]
      · intro j hj
        rw [← hstart hq₁]
        refine byteAt_lt size ?_ hj
        intro i hi
        rw [hptr]
        by_cases hi' : i < directBlockCount
        · rw [if_pos ((lt_dataBlocks hi').mpr hi)]
        · rw [n.ptr_of_le (by omega), ite_self]
      · intro i hi
        have hi' := hlt i hi
        refine (lt_dataBlocks ?_).mp hi'
        exact lt_of_lt_of_le hi' (min_le_right _ _)
    · intro hge
      have hd₁ : ∀ {s' : Lfs}, Quiet s s' →
          Draft s id { n with size := size } s' { n with size := size } :=
        fun hq => ⟨hq, hptrs hq fun _ _ => rfl, rfl, rfl, rfl, rfl⟩
      rw [wp_ite]
      constructor
      · intro hgrow
        simp only [wp_bind, wp_failIf]
        refine wp_conseq (ensureWriter_spec hq₁.logOk) ?_ fun _ _ h => hq₁.trans h
        intro _ s₂ hpost
        have hq₂ := hq₁.trans hpost.1
        refine ⟨fun _ => hq₂, fun _ => ?_⟩
        have hlast : dataBlocks size ≤ directBlockCount := min_le_right _ _
        refine wp_post (growLoop_spec hs _ ?_ (hd₁ hq₂)) ?_
        · intro i hi
          have := mem_range'_1.mp hi
          omega
        · intro n₃ s₃ hpost
          obtain ⟨hd₃, hbytes, htail⟩ := hpost
          refine ⟨hd₃, fun j _ => ?_, fun i hi => ?_⟩
          · rw [hbytes j, ← hstart hq₂]
            rfl
          · rcases htail i hi with hi' | hi'
            · have : i * blockSize < n.size := ptr_before_end hshape hi'
              omega
            · have hrange := mem_range'_1.mp hi'
              refine (lt_dataBlocks ?_).mp ?_ <;> omega
      · intro hle
        refine ⟨hd₁ hq₁, fun j _ => ?_, fun i hi => ?_⟩
        · rw [← hstart hq₁]
          rfl
        · have : i * blockSize < n.size := ptr_before_end hshape hi
          omega
  refine wp_post hstage ?_
  intro n₂ s₂ hpost
  obtain ⟨hd₂, hbytes, htail⟩ := hpost
  refine wp_conseq (ensureWriter_spec hd₂.quiet.logOk) ?_ fun _ _ h => hd₂.quiet.trans h
  intro _ s₃ hpost
  have hd₃ := hd₂.of_quiet hs hpost.1
  have hsize : n₂.size = size := hd₂.size
  have hshape₂ : n₂.Shape := by
    refine shape_file hshape hfile hd₂.inodeType hd₂.linkCount hd₂.indirect ?_ ?_
    · omega
    · rw [hsize]
      exact htail
  refine wp_post (hd₃.writeInode hs (fun _ => rfl) hshape₂) ?_
  intro _ s₄ hcommit
  refine ⟨_, _, meaning_of_inodeOf hn, hfile, ?_, hcommit⟩
  rw [hd₂.nodeOf hpost.1]
  exact ⟨hd₂.inodeType, hd₂.linkCount, hsize, hbytes⟩

end Lfs

end Thumos
