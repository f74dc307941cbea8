import Thumos.Lfs.Directory

/-!
# Compaction preserves meaning

The compactor copies the live blocks of one segment to the write head.  Every
copy is a commit of an inode that stands for the same node, so the meaning
stays as it is (`Moved`).  The check before the segment is freed makes sure
that nothing refers into it, so freeing keeps the invariant.

Freeing takes protection away, which no append does.  `LogDone` is what is
left of the guarantee for a call that ends with a compaction.
-/

namespace Thumos

open StateExcept List

variable {m : LfsImap} {e : Nat × Nat} {es : List (Nat × Nat)}

theorem LfsImap.mem_toList :
    e ∈ m.toList ↔ m[e.1]? = some e.2 :=
  Std.TreeMap.mem_toList_iff_getElem?_eq_some

theorem LfsImap.pairwise_toList (m : LfsImap) : m.toList.Pairwise fun a b => a.1 ≠ b.1 := by
  refine (Std.TreeMap.distinct_keys_toList (t := m)).imp ?_
  intro a b hab heq
  exact hab (Nat.compare_eq_eq.mpr heq)

/-- Entries of the map that are still there, each for another inode. -/
structure Listed (m : LfsImap) (es : List (Nat × Nat)) : Prop where
  mem : ∀ e ∈ es, m[e.1]? = some e.2
  distinct : es.Pairwise fun a b => a.1 ≠ b.1

theorem Listed.toList (m : LfsImap) : Listed m m.toList :=
  ⟨fun _ he => LfsImap.mem_toList.mp he, m.pairwise_toList⟩

theorem Listed.filter (h : Listed m es) (p : Nat × Nat → Bool) : Listed m (es.filter p) :=
  ⟨fun e he => h.mem e (mem_filter.mp he).1, h.distinct.filter p⟩

theorem Listed.tail (h : Listed m (e :: es)) : Listed m es :=
  ⟨fun e' he' => h.mem e' (mem_cons_of_mem _ he'), h.distinct.tail⟩

theorem Listed.insert_head {b : Nat} (h : Listed m (e :: es)) : Listed (m.insert e.1 b) es := by
  refine ⟨fun e' he' => ?_, h.distinct.tail⟩
  have hne := rel_of_pairwise_cons h.distinct he'
  rw [imap_getElem?_insert, if_neg (Ne.symm hne)]
  exact h.mem e' (mem_cons_of_mem _ he')

namespace DiskInode

theorem ptr_redirect (n : DiskInode) {old : Nat} (new : Nat) (hold : old ≠ 0) (i : Nat) :
    (n.redirect old new).ptr i = if n.ptr i = old then new else n.ptr i := by
  simp only [ptr, redirect, getD_eq_getElem?_getD, getElem?_map]
  cases n.direct[i]? with
  | none => simp [Ne.symm hold]
  | some p => simp

theorem Shape.pointsTo {n : DiskInode} (h : n.Shape) {old : Nat} (hold : old ≠ 0) :
    n.pointsTo old = true ↔ ∃ i, n.ptr i = old := by
  have hind : (n.indirect == old) = false := by
    rw [h.indirect]
    simpa using Ne.symm hold
  rw [DiskInode.pointsTo, hind, Bool.or_false, contains_iff_mem, n.mem_direct_iff]
  constructor
  · intro hi
    obtain ⟨i, -, hi⟩ := hi
    exact ⟨i, hi⟩
  · intro hi
    obtain ⟨i, hi⟩ := hi
    refine ⟨i, ?_, hi⟩
    by_contra hge
    exact hold (hi.symm.trans (n.ptr_of_le (by omega)))

theorem Shape.redirect {n : DiskInode} (h : n.Shape) {old new : Nat} (hold : old ≠ 0) :
    (n.redirect old new).Shape where
  indirect := by
    show (if n.indirect = old then new else n.indirect) = 0
    rw [h.indirect, if_neg (Ne.symm hold)]
  linkCount := h.linkCount
  inodeType := h.inodeType
  size_lt := h.size_lt
  file := h.file
  tail i hi := by
    rw [n.ptr_redirect _ hold, h.tail i hi, if_neg (Ne.symm hold)]
  dir hdir i hi := by
    rw [n.ptr_redirect _ hold, h.dir hdir i hi, if_neg (Ne.symm hold)]

theorem Shape.mem_livePointers {n : DiskInode} (h : n.Shape) {p : Nat} :
    p ∈ n.livePointers ↔ p ≠ 0 ∧ ∃ i, n.ptr i = p := by
  have hind : (if n.indirect ≠ 0 then [n.indirect] else []) = [] := by
    rw [h.indirect]
    rfl
  rw [livePointers, hind, append_nil, mem_filter, n.mem_direct_iff]
  constructor
  · intro hp
    obtain ⟨⟨i, -, hi⟩, hne⟩ := hp
    exact ⟨by simpa using hne, i, hi⟩
  · intro hp
    obtain ⟨hne, i, hi⟩ := hp
    refine ⟨⟨i, ?_, hi⟩, by simpa using hne⟩
    by_contra hge
    exact hne (hi.symm.trans (n.ptr_of_le (by omega)))

end DiskInode

namespace Log

variable {blocks : Nat} {s s' s'' : Log}

/-- Appends that leave the invariant and the meaning in place. -/
structure Moved (blocks : Nat) (s s' : Log) : Prop where
  step : LogStep blocks s.core s'.core
  inv : Inv blocks s'.core
  meaning : Thumos.meaning s'.core = Thumos.meaning s.core

theorem Moved.refl (h : Inv blocks s.core) : Moved blocks s s := ⟨LogStep.refl h.log, h, rfl⟩

theorem Moved.trans (h : Moved blocks s s') (h' : Moved blocks s' s'') : Moved blocks s s'' :=
  ⟨h.step.trans h'.step, h'.inv, h'.meaning.trans h.meaning⟩

theorem Moved.of_step (h : Inv blocks s.core) (hstep : LogStep blocks s.core s'.core)
    (himap : s'.imap = s.imap) : Moved blocks s s' :=
  ⟨hstep, (h.of_step hstep himap).1, (h.of_step hstep himap).2⟩

/-! ## Reading -/

def Peeked (s s' : Log) : Prop := ∃ d, Disk.Still s.disk d ∧ s' = { s with disk := d }

theorem Peeked.refl (h : LogOk blocks s.core) : Peeked s s :=
  ⟨s.disk, Disk.Still.refl h.coherent, rfl⟩

theorem Peeked.trans (h : Peeked s s') (h' : Peeked s' s'') : Peeked s s'' := by
  obtain ⟨d, hd, rfl⟩ := h
  obtain ⟨d', hd', rfl⟩ := h'
  exact ⟨d', Disk.Step.trans hd hd', rfl⟩

theorem Peeked.step (h : Peeked s s') (hs : LogOk blocks s.core) :
    LogStep blocks s.core s'.core := by
  obtain ⟨d, hd, rfl⟩ := h
  exact LogStep.of_disk hs hd fun _ hf => hf.elim

theorem Peeked.imap (h : Peeked s s') : s'.imap = s.imap := by
  obtain ⟨d, -, rfl⟩ := h
  rfl

theorem Peeked.moved (h : Peeked s s') (hs : Inv blocks s.core) : Moved blocks s s' :=
  Moved.of_step hs (h.step hs.log) h.imap

theorem Peeked.segments (h : Peeked s s') : s'.segments = s.segments := by
  obtain ⟨d, -, rfl⟩ := h
  rfl

theorem Peeked.inodeOf (h : Peeked s s') (hs : Inv blocks s.core) (id : Nat) :
    inodeOf s'.core id = inodeOf s.core id := by
  refine inodeOf_of_step hs (h.step hs.log) ?_
  show s'.imap[id]? = s.imap[id]?
  rw [h.imap]

theorem readBlock_spec (h : LogOk blocks s.core) {b : Nat} (hb : b < blocks) :
    wp (readBlock b) (fun x s' => x = s.disk.view b ∧ Peeked s s') (fun _ s' => Peeked s s') s := by
  simp only [readBlock, wp_onDisk, Disk.wp_io]
  refine wp_conseq (Disk.read_step h.coherent (h.lt_limit hb)) ?_ ?_
  · intro x d hd
    exact ⟨hd.1, d, hd.2, rfl⟩
  · intro _ d hd
    exact ⟨d, hd, rfl⟩

theorem readInode_spec (h : Inv blocks s.core) (he : s.imap[e.1]? = some e.2) :
    wp (readInode e.2) (fun n s' => inodeOf s.core e.1 = some n ∧ Peeked s s')
      (fun _ s' => Peeked s s') s := by
  have hprot : Protected blocks s.core e.2 :=
    h.refs (show refAt s.core e.1 .inode = some e.2 from he)
  rw [readInode, wp_map]
  refine wp_conseq (readBlock_spec h.log hprot.lt) ?_ fun _ _ hp => hp
  intro x s' hpost
  obtain ⟨rfl, hp⟩ := hpost
  refine ⟨?_, hp⟩
  show s.imap[e.1]?.map _ = _
  rw [he]
  rfl

theorem wp_validateBlockNum {deviceBlocks b : Nat} {Q : Unit → Log → Prop}
    {E : LfsError → Log → Prop} (hQ : Q () s) (hE : E .corrupt s) :
    wp (validateBlockNum deviceBlocks b) Q E s := by
  rw [validateBlockNum, wp_failIf]
  exact ⟨fun _ => hE, fun _ => hQ⟩

/-! ## Copying -/

theorem moveInode_spec (h : Inv blocks s.core) {id : Nat} {n n' : DiskInode}
    (hn : inodeOf s.core id = some n) (hshape : n'.Shape) (hptr : PtrsOk blocks s.core id n')
    (hnode : nodeOf s.disk n' = nodeOf s.disk n) :
    wp (writeInode true id n')
      (fun b s' => Moved blocks s s' ∧ s'.imap = s.imap.insert id b ∧ Loose blocks s.core b ∧
        inodeOf s'.core id = some n') (fun _ s' => Moved blocks s s' ∧ s'.imap = s.imap) s := by
  refine wp_conseq (writeInode_spec h.log true id n') ?_ ?_
  · intro b s' hpost
    obtain ⟨hstep, himap, hloose, hprot, hview⟩ := hpost
    obtain ⟨hinv, hmean⟩ := h.commit hstep himap hloose hprot hview hshape hptr
    refine ⟨⟨hstep, hinv, ?_⟩, himap, hloose, ?_⟩
    · rw [hmean]
      apply Function.update_eq_self_iff.mpr
      show some (nodeOf s.disk n') = meaning s.core id
      rw [hnode, meaning, hn]
      rfl
    · have hget : s'.imap[id]? = some b := by
        rw [himap, imap_getElem?_insert, if_pos rfl]
      show s'.imap[id]?.map _ = _
      rw [hget, Option.map_some]
      show some (DiskInode.readFrom (s'.disk.view b)) = some n'
      rw [hview, DiskInode.readFrom_writeTo (h.inRange hshape hptr)]
  · intro _ s' hpost
    exact ⟨Moved.of_step h hpost.1 hpost.2, hpost.2⟩

theorem relocateInode_spec (h : Inv blocks s.core) (hes : Listed s.imap (e :: es)) :
    wp (relocateInode e) (fun _ s' => Moved blocks s s' ∧ Listed s'.imap es)
      (fun _ s' => Moved blocks s s') s := by
  simp only [relocateInode, wp_bind]
  refine wp_conseq (readInode_spec h (hes.mem e mem_cons_self)) ?_
    fun _ _ hp => hp.moved h
  intro n s₁ hpost
  obtain ⟨hn, hp⟩ := hpost
  have hm₁ := hp.moved h
  have hn₁ : inodeOf s₁.core e.1 = some n := (hp.inodeOf h e.1).trans hn
  refine wp_conseq (moveInode_spec hm₁.inv hn₁ (h.shape hn) (hm₁.inv.ptrsOk_self hn₁) rfl) ?_
    fun _ _ h' => hm₁.trans h'.1
  intro b s₂ hpost
  obtain ⟨hm₂, himap, -, -⟩ := hpost
  refine ⟨hm₁.trans hm₂, ?_⟩
  rw [himap, hp.imap]
  exact hes.insert_head

/-- Block `new` is a copy of `old`, and either its owner has not been
redirected yet or nothing points to `old` any more. -/
structure Copying (blocks : Nat) (s : Log) (old new : Nat) : Prop where
  oldProt : Protected blocks s.core old
  newProt : Protected blocks s.core new
  ne : new ≠ old
  view : s.disk.view new = s.disk.view old
  once : (∀ id k, refAt s.core id k ≠ some new) ∨ ∀ id i, refAt s.core id (.direct i) ≠ some old

theorem Protected.ne_zero {x : Nat} (hp : Protected blocks s.core x) (h : LogOk blocks s.core) :
    x ≠ 0 := by
  have h1 := hp.data
  have h2 := h.segSize
  omega

theorem Copying.of_step {old new : Nat} (hc : Copying blocks s old new) (h : Inv blocks s.core)
    (hstep : LogStep blocks s.core s'.core) (himap : s'.imap = s.imap) :
    Copying blocks s' old new where
  oldProt := hstep.keep _ hc.oldProt
  newProt := hstep.keep _ hc.newProt
  ne := hc.ne
  view := by
    have hnew := hstep.view hc.newProt
    have hold := hstep.view hc.oldProt
    simp only [core_disk] at hnew hold
    rw [hnew, hold, hc.view]
  once := by
    have href : ∀ id k, refAt s'.core id k = refAt s.core id k := by
      intro id k
      refine refAt_of_step h hstep ?_ k
      show s'.imap[id]? = s.imap[id]?
      rw [himap]
    simp only [href]
    exact hc.once

theorem redirect_spec {old new id : Nat} {n : DiskInode} (h : Inv blocks s.core)
    (hc : Copying blocks s old new) (hn : inodeOf s.core id = some n)
    (hpoints : n.pointsTo old = true) :
    wp (writeInode true id (n.redirect old new))
      (fun b s' => Moved blocks s s' ∧ Copying blocks s' old new ∧
        s'.imap = s.imap.insert id b) (fun _ s' => Moved blocks s s') s := by
  have hshape := h.shape hn
  have hold := Protected.ne_zero hc.oldProt h.log
  have hnew := Protected.ne_zero hc.newProt h.log
  obtain ⟨i, hi⟩ := (hshape.pointsTo hold).mp hpoints
  have href : refAt s.core id (.direct i) = some old := refAt_direct.mpr ⟨n, hn, hi, hold⟩
  have hunref : ∀ id k, refAt s.core id k ≠ some new := by
    rcases hc.once with hnone | hnone
    · exact hnone
    · exact absurd href (hnone id i)
  have hown := h.ptrsOk_self hn
  have hptr := n.ptr_redirect new hold
  have hfresh : ∀ j, n.ptr j ≠ new := by
    intro j hj
    exact hunref id (.direct j) (refAt_direct.mpr ⟨n, hn, hj, hnew⟩)
  have hptrs : PtrsOk blocks s.core id (n.redirect old new) := by
    refine ⟨?_, ?_, ?_⟩
    · intro j hj
      rw [hptr] at hj ⊢
      split
      · exact hc.newProt
      · rename_i hne
        rw [if_neg hne] at hj
        exact hown.prot j hj
    · intro j hj
      rw [hptr] at hj ⊢
      split
      · exact .inr hunref
      · rename_i hne
        rw [if_neg hne] at hj
        exact hown.own j hj
    · intro j k hj hjk
      simp only [hptr] at hj hjk
      by_cases hjo : n.ptr j = old
      · by_cases hko : n.ptr k = old
        · exact hown.distinct j k (hjo ▸ hold) (hjo.trans hko.symm)
        · rw [if_pos hjo, if_neg hko] at hjk
          exact absurd hjk.symm (hfresh k)
      · rw [if_neg hjo] at hj hjk
        by_cases hko : n.ptr k = old
        · rw [if_pos hko] at hjk
          exact absurd hjk (hfresh j)
        · rw [if_neg hko] at hjk
          exact hown.distinct j k hj hjk
  have hnode : nodeOf s.disk (n.redirect old new) = nodeOf s.disk n := by
    unfold nodeOf
    congr 1
    funext j
    rw [hptr]
    by_cases hjo : n.ptr j = old
    · rw [if_pos hjo, if_neg hnew, hc.view, hjo, if_neg hold]
    · rw [if_neg hjo]
  refine wp_conseq (moveInode_spec h hn (hshape.redirect hold) hptrs hnode) ?_ fun _ _ h' => h'.1
  intro b s' hpost
  obtain ⟨hm, himap, hloose, hn'⟩ := hpost
  refine ⟨hm, ⟨hm.step.keep _ hc.oldProt, hm.step.keep _ hc.newProt, hc.ne, ?_, .inr ?_⟩, himap⟩
  · have hnv := hm.step.view hc.newProt
    have hov := hm.step.view hc.oldProt
    simp only [core_disk] at hnv hov
    rw [hnv, hov, hc.view]
  · -- the owner was the only one
    intro id' j hx
    by_cases hid : id' = id
    · obtain ⟨n₁, hn₁, hj, -⟩ := refAt_direct.mp hx
      rw [hid, hn'] at hn₁
      cases hn₁
      rw [hptr] at hj
      split at hj
      · exact hc.ne hj
      · rename_i hne
        exact hne hj
    · have hsame : s'.imap[id']? = s.imap[id']? := by
        rw [himap, imap_getElem?_insert, if_neg hid]
      rw [refAt_of_step h hm.step hsame] at hx
      exact hid (h.inj hx href).1

theorem updateReference_spec {old new : Nat} (h : Inv blocks s.core) (hc : Copying blocks s old new)
    (hes : Listed s.imap (e :: es)) :
    wp (updateReference blocks old new e)
      (fun _ s' => Moved blocks s s' ∧ Copying blocks s' old new ∧ Listed s'.imap es)
      (fun _ s' => Moved blocks s s') s := by
  simp only [updateReference, wp_bind]
  refine wp_validateBlockNum ?_ (Moved.refl h)
  refine wp_conseq (readInode_spec h (hes.mem e mem_cons_self)) ?_ fun _ _ hp => hp.moved h
  intro n s₁ hpost
  obtain ⟨hn, hp⟩ := hpost
  have hm₁ := hp.moved h
  have hc₁ := hc.of_step h hm₁.step hp.imap
  have hn₁ : inodeOf s₁.core e.1 = some n := (hp.inodeOf h e.1).trans hn
  rw [← hp.imap] at hes
  rw [wp_ite]
  constructor
  · intro hpoints
    rw [wp_bind]
    refine wp_conseq (redirect_spec hm₁.inv hc₁ hn₁ hpoints) ?_ fun _ _ h' => hm₁.trans h'
    intro b s₂ hpost
    obtain ⟨hm₂, hc₂, himap⟩ := hpost
    refine ⟨hm₁.trans hm₂, hc₂, ?_⟩
    rw [himap]
    exact hes.insert_head
  · intro _
    exact ⟨hm₁, hc₁, hes.tail⟩

theorem updateDataBlockReferences_spec {old new : Nat} (h : Inv blocks s.core)
    (hc : Copying blocks s old new) :
    wp (updateDataBlockReferences blocks old new) (fun _ s' => Moved blocks s s')
      (fun _ s' => Moved blocks s s') s := by
  rw [updateDataBlockReferences, wp_bind, wp_get]
  have hloop := wp_foldlM (E := fun _ s' => Moved blocks s s')
    (f := fun (_ : Unit) e => updateReference blocks old new e)
    (I := fun es _ s' => Moved blocks s s' ∧ Copying blocks s' old new ∧ Listed s'.imap es)
    (by
      intro e es _ s₁ hI
      obtain ⟨hm, hc₁, hes⟩ := hI
      refine wp_conseq (updateReference_spec hm.inv hc₁ hes) ?_ fun _ _ h' => hm.trans h'
      intro _ s₂ hpost
      exact ⟨hm.trans hpost.1, hpost.2⟩)
    s.imap.toList () s ⟨Moved.refl h, hc, Listed.toList _⟩
  exact wp_conseq hloop (fun _ _ h' => h'.1) fun _ _ h' => h'

theorem relocateDataBlock_spec {old : Nat} (h : Inv blocks s.core)
    (hold : Protected blocks s.core old) :
    wp (relocateDataBlock blocks old) (fun _ s' => Moved blocks s s')
      (fun _ s' => Moved blocks s s') s := by
  simp only [relocateDataBlock, wp_bind]
  refine wp_conseq (readBlock_spec h.log hold.lt) ?_ fun _ _ hp => hp.moved h
  intro x s₁ hpost
  obtain ⟨rfl, hp⟩ := hpost
  have hm₁ := hp.moved h
  have hold₁ := hm₁.step.keep _ hold
  refine wp_conseq (append_spec hm₁.inv.log true (s.disk.view old)) ?_ ?_
  · intro new s₂ hpost
    obtain ⟨hstep, himap, hloose, hprot, hview⟩ := hpost
    have hm₂ := Moved.of_step hm₁.inv hstep himap
    refine wp_conseq (updateDataBlockReferences_spec hm₂.inv ⟨hm₂.step.keep _ hold₁, hprot, ?_, ?_,
      .inl ?_⟩) (fun _ _ h' => (hm₁.trans hm₂).trans h') fun _ _ h' => (hm₁.trans hm₂).trans h'
    · intro heq
      exact hloose.free (heq ▸ hold₁)
    · have hsame := (hm₁.trans hm₂).step.view hold
      simp only [core_disk] at hsame
      rw [hview, hsame]
    · intro id k hx
      have hsame : s₂.imap[id]? = s₁.imap[id]? := by rw [himap]
      rw [refAt_of_step hm₁.inv hstep hsame] at hx
      exact hloose.free (hm₁.inv.refs hx)
  · intro _ s₂ hpost
    exact hm₁.trans (Moved.of_step hm₁.inv hpost.1 hpost.2)

/-! ## Picking a segment -/

theorem liveDataPointers_spec (h : Inv blocks s.core) (hes : ∀ e ∈ es, s.imap[e.1]? = some e.2) :
    wp (liveDataPointers blocks es) (fun ps s' => Peeked s s' ∧ ∀ p ∈ ps, Protected blocks s.core p)
      (fun _ s' => Peeked s s') s := by
  have hloop := wp_foldlM (E := fun _ s' => Peeked s s')
    (f := fun acc e => do
      validateBlockNum blocks e.2
      let inode ← readInode e.2
      (pure (acc ++ inode.livePointers) : M (List Nat)))
    (I := fun es ps s' => (∀ e ∈ es, s.imap[e.1]? = some e.2) ∧ Peeked s s' ∧
      ∀ p ∈ ps, Protected blocks s.core p)
    (by
      intro e es ps s₁ hI
      obtain ⟨hes, hp, hps⟩ := hI
      have hm := hp.moved h
      have he : s₁.imap[e.1]? = some e.2 := by
        rw [hp.imap]
        exact hes e mem_cons_self
      simp only [wp_bind, wp_pure]
      refine wp_validateBlockNum ?_ hp
      refine wp_conseq (readInode_spec hm.inv he) ?_ fun _ _ h' => hp.trans h'
      intro n s₂ hpost
      obtain ⟨hn, hp₂⟩ := hpost
      rw [hp.inodeOf h] at hn
      refine ⟨fun e' he' => hes e' (mem_cons_of_mem _ he'), hp.trans hp₂, ?_⟩
      intro p hmem
      rcases mem_append.mp hmem with hmem | hmem
      · exact hps p hmem
      · obtain ⟨hne, i, rfl⟩ := (h.shape hn).mem_livePointers.mp hmem
        exact h.ptr_protected hn i hne)
    es [] s ⟨hes, Peeked.refl h.log, by simp⟩
  exact wp_conseq hloop (fun _ _ h' => h'.2) fun _ _ h' => h'

theorem scanSegment_foldl {m : LfsSegmentManager} {current : Nat} {entries : List (Nat × Nat)}
    {pointers segs : List Nat} {P : CompactCandidate → Prop}
    (hP : ∀ g ∈ segs, m.bitmap[g]? ≠ some false → current ≠ g →
      P (candidateOf m entries pointers g)) :
    ∀ best, (∀ c, best = some c → P c) →
      ∀ c, segs.foldl (scanSegment m current entries pointers) best = some c → P c := by
  induction segs with
  | nil =>
    intro best hbest c hc
    exact hbest c hc
  | cons g segs ih =>
    intro best hbest c hc
    rw [foldl_cons] at hc
    refine ih (fun g' hg' => hP g' (mem_cons_of_mem _ hg')) _ ?_ c hc
    intro c' hc'
    unfold scanSegment at hc'
    split at hc'
    · exact hbest c' hc'
    · rename_i hskip
      simp only [Bool.or_eq_true, not_or, LfsSegmentManager.isFree, beq_iff_eq] at hskip
      have hg := hP g mem_cons_self hskip.1 (Ne.symm hskip.2)
      split at hc'
      · obtain rfl := Option.some.inj hc'
        exact hg
      · rename_i b
        simp only at hc'
        split at hc'
        · obtain rfl := Option.some.inj hc'
          exact hg
        · obtain rfl := Option.some.inj hc'
          exact hbest b rfl

/-- What the compactor knows about the segment it picked. -/
structure Candidate (blocks : Nat) (s : Log) (c : CompactCandidate) : Prop where
  inUse : Sealed s.core c.segmentIdx
  pos : 0 < c.segmentIdx
  inodes : Listed s.imap c.liveInodes
  data : ∀ p ∈ c.liveDataBlocks, Protected blocks s.core p

theorem pickCandidate_spec (h : Inv blocks s.core) :
    wp (pickCandidate blocks) (fun c s' => Peeked s s' ∧ Candidate blocks s c)
      (fun _ s' => Peeked s s') s := by
  simp only [pickCandidate, wp_bind, wp_get, wp_okOr]
  have hlisted := Listed.toList s.imap
  refine wp_conseq (liveDataPointers_spec h hlisted.mem) ?_ fun _ _ h' => h'
  intro ps s₁ hpost
  obtain ⟨hp, hps⟩ := hpost
  refine ⟨fun c hc => ⟨hp, ?_⟩, fun _ => hp⟩
  refine scanSegment_foldl ?_ none (by simp) c hc
  intro g hg hused hcur
  have hrange := mem_range'_1.mp hg
  refine ⟨⟨hused, ?_⟩, by show 0 < g; omega, hlisted.filter _, ?_⟩
  · intro wr hwr
    cases hwr
    exact hcur
  · intro p hmem
    exact hps p (mem_filter.mp hmem).1

theorem relocate_spec (h : Inv blocks s.core) {c : CompactCandidate} (hc : Candidate blocks s c) :
    wp (relocate blocks c) (fun _ s' => Moved blocks s s') (fun _ s' => Moved blocks s s') s := by
  rw [relocate, wp_bind]
  have hinodes := wp_foldlM (E := fun _ s' => Moved blocks s s')
    (f := fun (copied : Nat) e => do
      relocateInode e
      (pure (copied + 1) : M Nat))
    (I := fun es _ s' => Moved blocks s s' ∧ Listed s'.imap es)
    (by
      intro e es copied s₁ hI
      obtain ⟨hm, hes⟩ := hI
      rw [wp_bind]
      refine wp_conseq (relocateInode_spec hm.inv hes) ?_ fun _ _ h' => hm.trans h'
      intro _ s₂ hpost
      exact ⟨hm.trans hpost.1, hpost.2⟩)
    c.liveInodes 0 s ⟨Moved.refl h, hc.inodes⟩
  refine wp_conseq hinodes ?_ fun _ _ h' => h'
  intro copied s₁ hpost
  have hdata := wp_foldlM (E := fun _ s' => Moved blocks s s')
    (f := fun (copied : Nat) old => do
      relocateDataBlock blocks old
      (pure (copied + 1) : M Nat))
    (I := fun ps _ s' => Moved blocks s s' ∧ ∀ p ∈ ps, Protected blocks s.core p)
    (by
      intro old ps copied s₂ hI
      obtain ⟨hm, hps⟩ := hI
      rw [wp_bind]
      have hold := hm.step.keep _ (hps old mem_cons_self)
      refine wp_conseq (relocateDataBlock_spec hm.inv hold) ?_ fun _ _ h' => hm.trans h'
      intro _ s₃ hm₃
      exact ⟨hm.trans hm₃, fun p hp => hps p (mem_cons_of_mem _ hp)⟩)
    c.liveDataBlocks copied s₁ ⟨hpost.1, hc.data⟩
  exact wp_conseq hdata (fun _ _ h' => h'.1) fun _ _ h' => h'

/-! ## Freeing the segment -/

theorem inSegment_iff {m : LfsSegmentManager} (hsize : 0 < m.segmentSize) {seg b : Nat} :
    inSegment m seg b = true ↔ b / m.segmentSize = seg := by
  simp only [inSegment, Bool.and_eq_true, decide_eq_true_eq]
  rw [LfsSegmentManager.segmentStartBlock, Nat.div_eq_iff hsize]
  omega

def Clear (s : Log) (seg : Nat) (es : List (Nat × Nat)) : Prop :=
  ∀ e ∈ es, ∀ k x, refAt s.core e.1 k = some x → x / s.segments.segmentSize ≠ seg

theorem segmentHasLiveBlocks_spec (h : Inv blocks s.core) (seg : Nat) :
    ∀ (es : List (Nat × Nat)), (∀ e ∈ es, s.imap[e.1]? = some e.2) →
      ∀ {s' : Log}, Peeked s s' →
      wp (segmentHasLiveBlocks blocks seg es)
        (fun live s'' => Peeked s s'' ∧ (live = false → Clear s seg es))
        (fun _ s'' => Peeked s s'') s' := by
  have hsize : 0 < s.segments.segmentSize := by
    have := h.log.segSize
    simp only [core_segments] at this
    omega
  intro es
  induction es with
  | nil =>
    intro _ s' hp
    exact ⟨hp, fun _ => by simp [Clear]⟩
  | cons e es ih =>
    intro hes s' hp
    have he := hes e mem_cons_self
    have he' : s'.imap[e.1]? = some e.2 := by
      rw [hp.imap]
      exact he
    rw [segmentHasLiveBlocks, wp_bind, wp_get, hp.segments, wp_ite]
    constructor
    · intro _
      exact ⟨hp, nofun⟩
    · intro hout
      rw [inSegment_iff hsize] at hout
      simp only [wp_bind]
      refine wp_validateBlockNum ?_ hp
      refine wp_conseq (readInode_spec (hp.moved h).inv he') ?_ fun _ _ h' => hp.trans h'
      intro n s₁ hpost
      obtain ⟨hn, hp₁⟩ := hpost
      rw [hp.inodeOf h] at hn
      rw [wp_ite]
      constructor
      · intro _
        exact ⟨hp.trans hp₁, nofun⟩
      · intro hptrs
        refine wp_conseq (ih (fun e' h' => hes e' (mem_cons_of_mem _ h')) (hp.trans hp₁)) ?_
          fun _ _ h' => h'
        intro live s₂ hpost
        refine ⟨hpost.1, fun hlive => ?_⟩
        intro e' hmem k x hx
        rcases mem_cons.mp hmem with rfl | hmem
        · cases k with
          | inode =>
            cases he.symm.trans hx
            exact hout
          | direct i =>
            obtain ⟨n', hn', rfl, hne⟩ := refAt_direct.mp hx
            cases hn.symm.trans hn'
            intro hin
            apply hptrs
            rw [any_eq_true]
            exact ⟨_, (h.shape hn).mem_livePointers.mpr ⟨hne, i, rfl⟩,
              (inSegment_iff hsize).mpr hin⟩
        · exact hpost.2 hlive e' hmem k x hx

end Log

/-- What a call that ends with a compaction leaves of `c`.  Protected blocks
have kept their content, and only their segment may have been freed. -/
structure LogDone (blocks : Nat) (c c' : Core) : Prop where
  ok : LogOk blocks c'
  disk : Disk.Step (Loose blocks c) c.disk c'.disk
  segmentSize : c'.segments.segmentSize = c.segments.segmentSize
  segmentCount : c'.segments.segmentCount = c.segments.segmentCount
  kept : ∀ x, Protected blocks c x → Kept blocks c' x

section

variable {blocks : Nat} {c c' c'' : Core}

theorem LogStep.done (h : LogStep blocks c c') : LogDone blocks c c' :=
  ⟨h.ok, h.disk, h.segmentSize, h.segmentCount, fun x hx => (h.keep x hx).toKept⟩

theorem LogStep.trans_done (h : LogStep blocks c c') (h' : LogDone blocks c' c'') :
    LogDone blocks c c'' where
  ok := h'.ok
  disk := h.disk.trans (h'.disk.mono fun _ hx => h.loose hx)
  segmentSize := h'.segmentSize.trans h.segmentSize
  segmentCount := h'.segmentCount.trans h.segmentCount
  kept x hx := h'.kept x (h.keep x hx)

theorem Inv.free {seg : Nat} (h : Inv blocks c) (hseg : Sealed c seg) (hpos : 0 < seg)
    (hclear : ∀ {id k x}, refAt c id k = some x → x / c.segments.segmentSize ≠ seg) :
    LogDone blocks c { c with segments := c.segments.free seg } ∧
      Inv blocks { c with segments := c.segments.free seg } := by
  have hbit : ∀ g, g ≠ seg → (c.segments.free seg).bitmap[g]? = c.segments.bitmap[g]? :=
    fun g hg => c.segments.free_getElem?_ne hg
  have hsize := c.segments.free_segmentSize seg
  have hcount := c.segments.free_segmentCount seg
  have hkept : ∀ x, Kept blocks c x → Kept blocks { c with segments := c.segments.free seg } x := by
    intro x hx
    refine ⟨hx.lt, ?_, ?_, ?_, ?_⟩
    · show (c.segments.free seg).segmentSize ≤ x
      rw [hsize]
      exact hx.data
    · show 0 < x % (c.segments.free seg).segmentSize
      rw [hsize]
      exact hx.offset
    · show 2 ≤ (c.segments.free seg).segmentCount →
        x < (c.segments.free seg).segmentCount * (c.segments.free seg).segmentSize
      rw [hsize, hcount]
      exact hx.range
    · intro wr hwr
      show wr.currentSegment = x / (c.segments.free seg).segmentSize →
        x % (c.segments.free seg).segmentSize < wr.writePosition
      rw [hsize]
      exact hx.head wr hwr
  have hok : LogOk blocks { c with segments := c.segments.free seg } := by
    refine ⟨h.log.coherent, h.log.fits, ?_, ?_, ?_, ?_⟩
    · show 2 ≤ (c.segments.free seg).segmentSize
      rw [hsize]
      exact h.log.segSize
    · show (c.segments.free seg).segmentCount * (c.segments.free seg).segmentSize ≤ blocks
      rw [hsize, hcount]
      exact h.log.extent
    · show (c.segments.free seg).bitmap[0]? ≠ some false
      rw [hbit 0 (by omega)]
      exact h.log.seg0
    · intro wr hwr
      have hw := h.log.writer wr hwr
      refine ⟨hw.seg_pos, ?_, hw.pos, ?_⟩
      · show (c.segments.free seg).bitmap[wr.currentSegment]? = some true
        rw [hbit _ (hseg.ne wr hwr)]
        exact hw.used
      · show wr.writePosition ≤ (c.segments.free seg).segmentSize
        rw [hsize]
        exact hw.le
  refine ⟨⟨hok, Disk.Step.refl h.log.coherent, hsize, hcount, fun x hx => hkept x hx.toKept⟩,
    hok, ?_, h.inj, h.shape⟩
  intro id k x hx
  have hp := h.refs hx
  refine ⟨hkept x hp.toKept, ?_⟩
  show (c.segments.free seg).bitmap[x / (c.segments.free seg).segmentSize]? ≠ some false
  rw [hsize, hbit _ (hclear hx)]
  exact hp.inUse

end

namespace Log

variable {blocks : Nat} {s s' : Log}

/-- The outcome of a compaction: the meaning is as before, and no reference
lies in a segment that was freed. -/
structure Compacted (blocks : Nat) (s s' : Log) : Prop where
  done : LogDone blocks s.core s'.core
  inv : Inv blocks s'.core
  meaning : Thumos.meaning s'.core = Thumos.meaning s.core

theorem Moved.compacted (h : Moved blocks s s') : Compacted blocks s s' :=
  ⟨h.step.done, h.inv, h.meaning⟩

theorem freeCompacted_spec (h : Inv blocks s.core) {seg : Nat} (hseg : Sealed s.core seg)
    (hpos : 0 < seg) :
    wp (freeCompacted blocks seg) (fun _ s' => Compacted blocks s s')
      (fun _ s' => Compacted blocks s s') s := by
  simp only [freeCompacted, wp_bind, wp_get, wp_failIf, wp_setSegments]
  have hlisted := Listed.toList s.imap
  refine wp_conseq (segmentHasLiveBlocks_spec h seg _ hlisted.mem (Peeked.refl h.log)) ?_
    fun _ _ hp => (hp.moved h).compacted
  intro live s₁ hpost
  obtain ⟨hp, hlive⟩ := hpost
  have hm := hp.moved h
  refine ⟨fun _ => hm.compacted, fun hdead => ?_⟩
  have hclear := hlive (by simpa using hdead)
  have hsame : ∀ id k, refAt s₁.core id k = refAt s.core id k := by
    intro id k
    refine refAt_of_step h hm.step ?_ k
    show s₁.imap[id]? = s.imap[id]?
    rw [hp.imap]
  have hfree := hm.inv.free (hm.step.keepSealed seg hseg) hpos (by
    intro id k x hx
    rw [hsame] at hx
    have hentry : ∃ b, s.imap[id]? = some b := by
      cases k with
      | inode => exact ⟨x, hx⟩
      | direct i =>
        obtain ⟨n, hn, -⟩ := refAt_direct.mp hx
        obtain ⟨b, hb, -⟩ := Option.map_eq_some_iff.mp hn
        exact ⟨b, hb⟩
    obtain ⟨b, hb⟩ := hentry
    have := hclear (id, b) (LfsImap.mem_toList.mpr hb) k x hx
    show x / s₁.segments.segmentSize ≠ seg
    rw [hp.segments]
    exact this)
  exact ⟨hm.step.trans_done hfree.1, hfree.2, hm.meaning⟩

theorem compactOneSegment_spec (h : Inv blocks s.core) :
    wp (compactOneSegment blocks) (fun _ s' => Compacted blocks s s')
      (fun _ s' => Compacted blocks s s') s := by
  simp only [compactOneSegment, wp_bind, wp_pure]
  refine wp_conseq (pickCandidate_spec h) ?_ fun _ _ hp => (hp.moved h).compacted
  intro c s₁ hpost
  obtain ⟨hp, hc⟩ := hpost
  have hm₁ := hp.moved h
  have hc₁ : Candidate blocks s₁ c := by
    refine ⟨hm₁.step.keepSealed _ hc.inUse, hc.pos, ?_,
      fun p hmem => hm₁.step.keep p (hc.data p hmem)⟩
    rw [hp.imap]
    exact hc.inodes
  refine wp_conseq (relocate_spec hm₁.inv hc₁) ?_ fun _ _ h' => (hm₁.trans h').compacted
  intro copied s₂ hm₂'
  have hm₂ := hm₁.trans hm₂'
  have hseg := hm₂.step.keepSealed _ hc.inUse
  have hend : ∀ s₃, Compacted blocks s₂ s₃ → Compacted blocks s s₃ := by
    intro s₃ h'
    exact ⟨hm₂.step.trans_done h'.done, h'.inv, h'.meaning.trans hm₂.meaning⟩
  exact wp_conseq (freeCompacted_spec hm₂.inv hseg hc.pos) (fun _ s₃ h' => hend s₃ h')
    fun _ s₃ h' => hend s₃ h'

end Log

end Thumos
