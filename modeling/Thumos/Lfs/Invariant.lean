import Thumos.Lfs.LogStep

/-!
# The filesystem invariant and the meaning of a state

`Inv` is the invariant of a volume: every block that the inode map or an inode
of the map refers to is protected, no block is referred to twice, and the
inodes have the shape that the filesystem writes.

`meaning` is the abstract state: what each inode number stands for, as a
`Node` whose blocks are contents and no longer block numbers.  Everything
that a client can observe is a function of it.

Every change to the map is one of two events.  `Inv.commit` points an inode
number at a freshly written inode, and `Inv.erase` drops one.  Appends alone
leave the meaning as it is (`Inv.of_step`).
-/

namespace Thumos

open StateExcept Option Function

theorem imap_getElem?_insert (m : LfsImap) (id b k : Nat) :
    (m.insert id b)[k]? = if k = id then some b else m[k]? := by
  rw [Std.TreeMap.getElem?_insert]
  by_cases h : k = id
  · simp [h]
  · rw [if_neg h, if_neg]
    rw [Nat.compare_eq_eq]
    exact Ne.symm h

theorem imap_getElem?_erase (m : LfsImap) (id k : Nat) :
    (m.erase id)[k]? = if k = id then none else m[k]? := by
  rw [Std.TreeMap.getElem?_erase]
  by_cases h : k = id
  · simp [h]
  · rw [if_neg h, if_neg]
    rw [Nat.compare_eq_eq]
    exact Ne.symm h

/-! ## References -/

def inodeOf (c : Core) (id : Nat) : Option DiskInode :=
  c.imap[id]?.map fun b => DiskInode.readFrom (c.disk.view b)

/-- The places of an inode that hold a block number: its entry in the map, and
its direct pointers. -/
inductive Slot where
  | inode
  | direct (i : Nat)

def refAt (c : Core) (id : Nat) : Slot → Option Nat
  | .inode => c.imap[id]?
  | .direct i => (inodeOf c id).bind fun n => if n.ptr i = 0 then none else some (n.ptr i)

theorem refAt_direct {c : Core} {id i x : Nat} :
    refAt c id (.direct i) = some x ↔ ∃ n, inodeOf c id = some n ∧ n.ptr i = x ∧ x ≠ 0 := by
  simp only [refAt, bind_eq_some_iff]
  constructor
  · intro h
    obtain ⟨n, hn, hx⟩ := h
    split at hx
    · contradiction
    · rename_i hne
      cases hx
      exact ⟨n, hn, rfl, hne⟩
  · intro h
    obtain ⟨n, hn, rfl, hne⟩ := h
    exact ⟨n, hn, if_neg hne⟩

structure DiskInode.Shape (n : DiskInode) : Prop where
  indirect : n.indirect = 0
  linkCount : n.linkCount = 1
  inodeType : n.inodeType = inodeTypeFile ∨ n.inodeType = inodeTypeDir
  size_lt : n.size < u32Size
  file : n.inodeType = inodeTypeFile → n.size ≤ lfsMaxFileSize
  /-- Nothing is allocated past the end. -/
  tail : ∀ i, Lfs.dataBlocks n.size ≤ i → n.ptr i = 0
  /-- A directory has one block. -/
  dir : n.inodeType = inodeTypeDir → ∀ i, 0 < i → n.ptr i = 0

structure Inv (blocks : Nat) (c : Core) : Prop where
  log : LogOk blocks c
  refs : ∀ {id k x}, refAt c id k = some x → Protected blocks c x
  inj : ∀ {id k id' k' x}, refAt c id k = some x → refAt c id' k' = some x → id = id' ∧ k = k'
  shape : ∀ {id n}, inodeOf c id = some n → n.Shape

/-! ## Meaning -/

/-- An inode with its blocks' contents. -/
@[ext] structure Node where
  inodeType : Nat
  linkCount : Nat
  size : Nat
  blocks : Nat → Option Block

def nodeOf (d : Disk) (n : DiskInode) : Node where
  inodeType := n.inodeType
  linkCount := n.linkCount
  size := n.size
  blocks i := if n.ptr i = 0 then none else some (d.view (n.ptr i))

def meaning (c : Core) (id : Nat) : Option Node := (inodeOf c id).map (nodeOf c.disk)

variable {id : Nat}

theorem meaning_eq_none {c : Core} : meaning c id = none ↔ c.imap[id]? = none := by
  simp [meaning, inodeOf]

/-! ## Steps that leave the map alone -/

section

variable {blocks : Nat} {c c' : Core}

def Agrees (c c' : Core) : Prop :=
  ∀ {id k x}, refAt c id k = some x → c'.disk.view x = c.disk.view x

theorem Inv.agrees (h : Inv blocks c) (hstep : LogStep blocks c c') : Agrees c c' :=
  fun hx => hstep.view (h.refs hx)

theorem Agrees.inodeOf (h : Agrees c c') (himap : c'.imap[id]? = c.imap[id]?) :
    Thumos.inodeOf c' id = Thumos.inodeOf c id := by
  unfold Thumos.inodeOf
  rw [himap]
  cases hb : c.imap[id]? with
  | none => rfl
  | some b =>
    rw [map_some, map_some, h (show refAt c id .inode = some b from hb)]

theorem Agrees.refAt (h : Agrees c c') (himap : c'.imap[id]? = c.imap[id]?) (k : Slot) :
    Thumos.refAt c' id k = Thumos.refAt c id k := by
  cases k with
  | inode => exact himap
  | direct i => simp only [Thumos.refAt, h.inodeOf himap]

variable {n : DiskInode}

theorem nodeOf_congr {d d' : Disk} (h : ∀ i, n.ptr i ≠ 0 → d'.view (n.ptr i) = d.view (n.ptr i)) :
    nodeOf d' n = nodeOf d n := by
  unfold nodeOf
  congr 1
  funext i
  split
  · rfl
  · rename_i hne
    rw [h i hne]

theorem Agrees.meaning (h : Agrees c c') (himap : c'.imap[id]? = c.imap[id]?) :
    Thumos.meaning c' id = Thumos.meaning c id := by
  unfold Thumos.meaning
  rw [h.inodeOf himap]
  cases hn : Thumos.inodeOf c id with
  | none => rfl
  | some n =>
    rw [map_some, map_some,
      nodeOf_congr fun i hi => h (refAt_direct.mpr ⟨n, hn, rfl, hi⟩)]

theorem Inv.of_agrees (h : Inv blocks c) (hag : Agrees c c')
    (himap : ∀ id : Nat, c'.imap[id]? = c.imap[id]?) (hlog : LogOk blocks c')
    (hkeep : ∀ x, Protected blocks c x → Protected blocks c' x) :
    Inv blocks c' ∧ meaning c' = meaning c := by
  refine ⟨⟨hlog, ?_, ?_, ?_⟩, funext fun id => hag.meaning (himap id)⟩
  · intro id k x hx
    rw [hag.refAt (himap id)] at hx
    exact hkeep x (h.refs hx)
  · intro id k id' k' x hx hx'
    rw [hag.refAt (himap id)] at hx
    rw [hag.refAt (himap id')] at hx'
    exact h.inj hx hx'
  · intro id n hn
    rw [hag.inodeOf (himap id)] at hn
    exact h.shape hn

theorem inodeOf_of_step (h : Inv blocks c) (hstep : LogStep blocks c c')
    (himap : c'.imap[id]? = c.imap[id]?) : inodeOf c' id = inodeOf c id :=
  Agrees.inodeOf (h.agrees hstep) himap

theorem refAt_of_step (h : Inv blocks c) (hstep : LogStep blocks c c')
    (himap : c'.imap[id]? = c.imap[id]?) (k : Slot) : refAt c' id k = refAt c id k :=
  Agrees.refAt (h.agrees hstep) himap k

theorem nodeOf_of_step (hstep : LogStep blocks c c')
    (hprot : ∀ i, n.ptr i ≠ 0 → Protected blocks c (n.ptr i)) :
    nodeOf c'.disk n = nodeOf c.disk n :=
  nodeOf_congr fun i hi => hstep.view (hprot i hi)

theorem Inv.ptr_protected (h : Inv blocks c) (hn : inodeOf c id = some n) (i : Nat)
    (hi : n.ptr i ≠ 0) : Protected blocks c (n.ptr i) :=
  h.refs (refAt_direct.mpr ⟨n, hn, rfl, hi⟩)

theorem meaning_of_step (h : Inv blocks c) (hstep : LogStep blocks c c')
    (himap : c'.imap[id]? = c.imap[id]?) : meaning c' id = meaning c id :=
  Agrees.meaning (h.agrees hstep) himap

theorem Inv.of_step (h : Inv blocks c) (hstep : LogStep blocks c c')
    (himap : c'.imap = c.imap) : Inv blocks c' ∧ meaning c' = meaning c :=
  h.of_agrees (h.agrees hstep) (fun id => by rw [himap]) hstep.ok hstep.keep

/-! ## Committing an inode -/

/-- The pointers of `n` may be committed for `id`: they are protected, each is
the one that `id` has in the same place or is not referred to at all, and no
two are equal. -/
structure PtrsOk (blocks : Nat) (c : Core) (id : Nat) (n : DiskInode) : Prop where
  prot : ∀ i, n.ptr i ≠ 0 → Protected blocks c (n.ptr i)
  own : ∀ i, n.ptr i ≠ 0 →
    refAt c id (.direct i) = some (n.ptr i) ∨ ∀ id' k, refAt c id' k ≠ some (n.ptr i)
  distinct : ∀ i j, n.ptr i ≠ 0 → n.ptr i = n.ptr j → i = j

theorem PtrsOk.of_step (hp : PtrsOk blocks c id n) (h : Inv blocks c) (hstep : LogStep blocks c c')
    (himap : c'.imap = c.imap) :
    PtrsOk blocks c' id n := by
  have hget : ∀ id : Nat, c'.imap[id]? = c.imap[id]? := fun id => by rw [himap]
  refine ⟨fun i hi => hstep.keep _ (hp.prot i hi), fun i hi => ?_, hp.distinct⟩
  rcases hp.own i hi with hown | hnone
  · left
    rw [refAt_of_step h hstep (hget id)]
    exact hown
  · right
    intro id' k
    rw [refAt_of_step h hstep (hget id')]
    exact hnone id' k

theorem PtrsOk.of_subset {n n' : DiskInode} (hp : PtrsOk blocks c id n)
    (hsub : ∀ i, n'.ptr i ≠ 0 → n'.ptr i = n.ptr i) : PtrsOk blocks c id n' := by
  refine ⟨?_, ?_, ?_⟩
  · intro i hi
    have heq := hsub i hi
    rw [heq] at hi ⊢
    exact hp.prot i hi
  · intro i hi
    have heq := hsub i hi
    rw [heq] at hi ⊢
    exact hp.own i hi
  · intro i j hi hij
    have hj : n'.ptr j ≠ 0 := hij ▸ hi
    rw [hsub i hi, hsub j hj] at hij
    rw [hsub i hi] at hi
    exact hp.distinct i j hi hij

theorem Inv.ptrsOk_self (h : Inv blocks c) (hn : inodeOf c id = some n) : PtrsOk blocks c id n := by
  have href : ∀ i, n.ptr i ≠ 0 → refAt c id (.direct i) = some (n.ptr i) :=
    fun i hi => refAt_direct.mpr ⟨n, hn, rfl, hi⟩
  refine ⟨h.ptr_protected hn, fun i hi => .inl (href i hi), fun i j hi hij => ?_⟩
  have hj : refAt c id (.direct j) = some (n.ptr i) := by
    rw [hij]
    exact href j (hij ▸ hi)
  obtain ⟨-, hslot⟩ := h.inj (href i hi) hj
  exact Slot.direct.inj hslot

theorem Inv.inRange (h : Inv blocks c) (hshape : n.Shape) (hp : PtrsOk blocks c id n) :
    n.InRange where
  inodeType_lt := by
    rcases hshape.inodeType with ht | ht <;> rw [ht] <;> decide
  linkCount_lt := by
    rw [hshape.linkCount]
    decide
  size_lt := hshape.size_lt.trans (by decide)
  direct_lt := by
    intro p hmem
    obtain ⟨i, -, rfl⟩ := n.mem_direct_iff.mp hmem
    by_cases hi : n.ptr i = 0
    · rw [hi]
      decide
    · exact (h.log.lt_limit (hp.prot i hi).lt).trans (by decide)
  indirect_lt := by
    rw [hshape.indirect]
    decide

theorem refAt_commit {id b : Nat} {k : Slot} {x : Nat} (hself : c'.imap[id]? = some b)
    (hinode : inodeOf c' id = some n) (hx : refAt c' id k = some x) :
    (k = .inode ∧ x = b) ∨ ∃ i, k = .direct i ∧ n.ptr i = x ∧ x ≠ 0 := by
  cases k with
  | inode =>
    left
    exact ⟨rfl, (some.inj (hself.symm.trans hx)).symm⟩
  | direct i =>
    right
    obtain ⟨n', hn', hx', hne⟩ := refAt_direct.mp hx
    cases hinode.symm.trans hn'
    exact ⟨i, rfl, hx', hne⟩

theorem Inv.commit {id b : Nat} (h : Inv blocks c) (hstep : LogStep blocks c c')
    (himap : c'.imap = c.imap.insert id b) (hloose : Loose blocks c b)
    (hprot : Protected blocks c' b) (hview : c'.disk.view b = n.writeTo) (hshape : n.Shape)
    (hptr : PtrsOk blocks c id n) :
    Inv blocks c' ∧ meaning c' = update (meaning c) id (some (nodeOf c.disk n)) := by
  have hread : DiskInode.readFrom n.writeTo = n :=
    DiskInode.readFrom_writeTo (h.inRange hshape hptr)
  have hself : c'.imap[id]? = some b := by
    rw [himap, imap_getElem?_insert, if_pos rfl]
  have hother : ∀ id', id' ≠ id → c'.imap[id']? = c.imap[id']? := by
    intro id' hne
    rw [himap, imap_getElem?_insert, if_neg hne]
  have hinode : inodeOf c' id = some n := by
    rw [inodeOf, hself, map_some, hview, hread]
  have hb : ∀ id' k, refAt c id' k ≠ some b := fun id' k hx => hloose.free (h.refs hx)
  -- what the slots of `id` refer to now
  have hslots : ∀ k x, refAt c' id k = some x →
      (k = .inode ∧ x = b) ∨ ∃ i, k = .direct i ∧ n.ptr i = x ∧ x ≠ 0 :=
    fun k x hx => refAt_commit hself hinode hx
  have hptrb : ∀ i, n.ptr i ≠ 0 → n.ptr i ≠ b := by
    intro i hi heq
    exact hloose.free (heq ▸ hptr.prot i hi)
  -- no other inode refers to a block that `id` refers to now
  have hcross : ∀ k x id' k', refAt c' id k = some x → id' ≠ id → refAt c' id' k' ≠ some x := by
    intro k x id' k' hx hne hx'
    rw [refAt_of_step h hstep (hother id' hne)] at hx'
    rcases hslots k x hx with ⟨-, rfl⟩ | ⟨i, -, rfl, hi⟩
    · exact hb id' k' hx'
    · rcases hptr.own i hi with hown | hnone
      · exact hne (h.inj hx' hown).1
      · exact hnone id' k' hx'
  refine ⟨⟨hstep.ok, ?_, ?_, ?_⟩, ?_⟩
  · intro id' k x hx
    by_cases hid : id' = id
    · rw [hid] at hx
      rcases hslots k x hx with ⟨-, rfl⟩ | ⟨i, -, rfl, hi⟩
      · exact hprot
      · exact hstep.keep _ (hptr.prot i hi)
    · rw [refAt_of_step h hstep (hother id' hid)] at hx
      exact hstep.keep x (h.refs hx)
  · intro id₁ k₁ id₂ k₂ x hx₁ hx₂
    by_cases h₁ : id₁ = id
    · rw [h₁] at hx₁ ⊢
      by_cases h₂ : id₂ = id
      · rw [h₂] at hx₂ ⊢
        refine ⟨rfl, ?_⟩
        rcases hslots k₁ x hx₁ with ⟨rfl, rfl⟩ | ⟨i, rfl, rfl, hi⟩
        · rcases hslots k₂ _ hx₂ with ⟨rfl, -⟩ | ⟨j, rfl, hj, hne⟩
          · rfl
          · exact absurd hj (hptrb j (hj ▸ hne))
        · rcases hslots k₂ _ hx₂ with ⟨-, hj⟩ | ⟨j, rfl, hj, -⟩
          · exact absurd hj (hptrb i hi)
          · rw [hptr.distinct i j hi hj.symm]
      · exact absurd hx₂ (hcross k₁ x id₂ k₂ hx₁ h₂)
    · by_cases h₂ : id₂ = id
      · rw [h₂] at hx₂
        exact absurd hx₁ (hcross k₂ x id₁ k₁ hx₂ h₁)
      · rw [refAt_of_step h hstep (hother id₁ h₁)] at hx₁
        rw [refAt_of_step h hstep (hother id₂ h₂)] at hx₂
        exact h.inj hx₁ hx₂
  · intro id' n' hn'
    by_cases hid : id' = id
    · rw [hid, hinode] at hn'
      rw [← some.inj hn']
      exact hshape
    · rw [inodeOf_of_step h hstep (hother id' hid)] at hn'
      exact h.shape hn'
  · funext id'
    by_cases hid : id' = id
    · rw [hid, update_self, meaning, hinode, map_some,
        nodeOf_of_step hstep hptr.prot]
    · rw [update_of_ne hid, meaning_of_step h hstep (hother id' hid)]

/-- Committing an inode without blocks leaves the pointers of every other draft
as good as they were.  The number may even be that of the draft. -/
theorem PtrsOk.commit_new {id id₀ b : Nat} {n n₀ : DiskInode} (hp : PtrsOk blocks c id n)
    (h : Inv blocks c) (hstep : LogStep blocks c c') (himap : c'.imap = c.imap.insert id₀ b)
    (hloose : Loose blocks c b) (hinode : inodeOf c' id₀ = some n₀) (hnew : ∀ i, n₀.ptr i = 0) :
    PtrsOk blocks c' id n := by
  have hself : c'.imap[id₀]? = some b := by
    rw [himap, imap_getElem?_insert, if_pos rfl]
  have hother : ∀ id', id' ≠ id₀ → c'.imap[id']? = c.imap[id']? := by
    intro id' hne
    rw [himap, imap_getElem?_insert, if_neg hne]
  -- a pointer of the draft is not among the references of the new inode
  have hnot : ∀ i, n.ptr i ≠ 0 → ∀ k, refAt c' id₀ k ≠ some (n.ptr i) := by
    intro i hi k hx
    rcases refAt_commit hself hinode hx with ⟨-, hb⟩ | ⟨j, -, hj, hne⟩
    · exact hloose.free (hb ▸ hp.prot i hi)
    · exact hne (hj.symm.trans (hnew j))
  refine ⟨fun i hi => hstep.keep _ (hp.prot i hi), fun i hi => ?_, hp.distinct⟩
  by_cases hid : id = id₀
  · right
    intro id' k hx
    by_cases hid' : id' = id₀
    · exact hnot i hi k (hid' ▸ hx)
    rw [refAt_of_step h hstep (hother id' hid')] at hx
    rcases hp.own i hi with hown | hnone
    · exact hid' ((h.inj hx hown).1.trans hid)
    · exact hnone id' k hx
  · rcases hp.own i hi with hown | hnone
    · left
      rw [refAt_of_step h hstep (hother id hid)]
      exact hown
    · right
      intro id' k hx
      by_cases hid' : id' = id₀
      · exact hnot i hi k (hid' ▸ hx)
      · rw [refAt_of_step h hstep (hother id' hid')] at hx
        exact hnone id' k hx

theorem Inv.erase (h : Inv blocks c) (id : Nat) :
    Inv blocks { c with imap := c.imap.erase id } ∧
      meaning { c with imap := c.imap.erase id } = update (meaning c) id none := by
  have hget : ∀ id', (c.imap.erase id)[id']? = if id' = id then none else c.imap[id']? :=
    imap_getElem?_erase c.imap id
  have hinode : ∀ id', inodeOf { c with imap := c.imap.erase id } id' =
      if id' = id then none else inodeOf c id' := by
    intro id'
    simp only [inodeOf, hget]
    split <;> rfl
  have href : ∀ {id' k x}, refAt { c with imap := c.imap.erase id } id' k = some x →
      refAt c id' k = some x := by
    intro id' k x hx
    cases k with
    | inode =>
      simp only [refAt, hget] at hx
      split at hx
      · contradiction
      · exact hx
    | direct i =>
      obtain ⟨n, hn, hrest⟩ := refAt_direct.mp hx
      rw [hinode] at hn
      split at hn
      · contradiction
      · exact refAt_direct.mpr ⟨n, hn, hrest⟩
  refine ⟨⟨?_, ?_, ?_, ?_⟩, ?_⟩
  · exact ⟨h.log.coherent, h.log.fits, h.log.segSize, h.log.extent, h.log.seg0, h.log.writer⟩
  · intro id' k x hx
    have hp := h.refs (href hx)
    exact ⟨⟨hp.lt, hp.data, hp.offset, hp.range, hp.head⟩, hp.inUse⟩
  · intro id₁ k₁ id₂ k₂ x hx₁ hx₂
    exact h.inj (href hx₁) (href hx₂)
  · intro id' n hn
    rw [hinode] at hn
    split at hn
    · contradiction
    · exact h.shape hn
  · funext id'
    rw [meaning, hinode, update_apply]
    split <;> rfl

end

end Thumos
