import Thumos.Lib.GuardedRun
import Thumos.Kernel.ForkExit

/-!
# The pool of second-level tables

Every function that builds or changes page tables keeps the ownership of the
pool, whatever addresses and attributes it is called with: a slot is used
exactly if one entry of one live address space points to it.  Nothing has to be
known about frames for that.
-/

namespace Thumos

open GuardedRun

namespace Mmu

variable {m : Mmu} {t t' : Fin maxAddrSpaces} {va phys : Nat} {attrs : Attrs}

theorem Owned.used_iff (h : m.Owned) (slot : Fin l2PoolSize) :
    m.l2Alloc slot = true ↔ ∃! k, m.Points k slot := by
  constructor
  · intro hs
    obtain ⟨k, hk⟩ := h.complete slot hs
    exact ⟨k, hk, fun k' hk' => h.exclusive.unique hk' hk⟩
  · rintro ⟨k, hk, -⟩
    exact h.exclusive.used hk

/-! ## The functions one by one -/

structure Preserves (m m' : Mmu) : Prop where
  owned : m.Owned → m'.Owned
  spaceAlloc : m'.spaceAlloc = m.spaceAlloc

theorem Preserves.refl : Preserves m m := ⟨id, rfl⟩

theorem Preserves.trans {m' m'' : Mmu} (h : Preserves m m') (h' : Preserves m' m'') :
    Preserves m m'' := ⟨h'.owned ∘ h.owned, h'.spaceAlloc.trans h.spaceAlloc⟩

theorem preserves_fill (l2 : L2Ref) (table : L2Table) : Preserves m (m.fill l2 table) :=
  ⟨fun h => h.fill, fill_spaceAlloc⟩

theorem preserves_mapPage (ht : m.spaceAlloc t = true) :
    Preserves m (m.mapPage t va phys attrs).2 := by
  unfold mapPage
  cases htab : m.tables t (l1Index va) with
  | coarse l2 => exact preserves_fill _ _
  | sect mb type => exact .refl
  | absent =>
    cases halloc : m.allocL2Table with
    | none => exact .refl
    | some found =>
      obtain ⟨slot, m'⟩ := found
      obtain ⟨hslot, rfl⟩ := allocL2Table_eq_some halloc
      refine ⟨fun h => ?_, rfl⟩
      have hinstalled : (m.install t (l1Index va) slot fun _ => .zero).Owned :=
        h.install ht hslot (by simp [htab])
      dsimp only
      exact hinstalled.writeEntry

theorem preserves_shatterSection (ht : m.spaceAlloc t = true) :
    Preserves m (m.shatterSection t va).2 := by
  cases htab : m.tables t (l1Index va) with
  | coarse l2 =>
    rw [shatterSection, htab]
    exact .refl
  | absent =>
    rw [shatterSection, htab]
    exact .refl
  | sect mb type =>
    rcases shatterSection_sect htab with heq | ⟨slot, hslot, heq⟩
    · rw [heq]
      exact .refl
    · rw [heq]
      exact ⟨fun h => h.install ht hslot (by simp [htab]), rfl⟩

theorem preserves_ensurePageMappable (ht : m.spaceAlloc t = true) :
    Preserves m (m.ensurePageMappable t va).2 := by
  unfold ensurePageMappable
  split
  · exact preserves_shatterSection ht
  · exact .refl

theorem preserves_shatterAndMap (ht : m.spaceAlloc t = true) :
    Preserves m (m.shatterAndMap t va phys attrs).2 := by
  have hshatter : Preserves m (m.shatterSection t va).2 := preserves_shatterSection ht
  unfold shatterAndMap
  cases hres : m.shatterSection t va with
  | mk ok m' =>
    rw [hres] at hshatter
    cases ok with
    | false => exact hshatter
    | true => exact hshatter.trans (preserves_mapPage (by rw [hshatter.spaceAlloc, ht]))

theorem preserves_resetShatteredSection : Preserves m (m.resetShatteredSection t va).2 := by
  unfold resetShatteredSection
  split
  · exact preserves_fill _ _
  · exact .refl

theorem preserves_updatePageProt : Preserves m (m.updatePageProt t va attrs).2 := by
  unfold updatePageProt
  split
  · dsimp only
    split
    · exact preserves_fill _ _
    · exact .refl
  · exact .refl

theorem preserves_unmapPage (ht : m.spaceAlloc t = true) : Preserves m (m.unmapPage t va) := by
  unfold unmapPage
  split
  · rename_i l2 htab
    dsimp only
    split
    · refine ⟨fun h => ?_, ?_⟩
      · exact h.writeEntry.uninstall (by rw [writeEntry_spaceAlloc, ht])
          (by rw [writeEntry_tables, htab])
      · rw [freeL2Table_spaceAlloc, setL1_spaceAlloc, writeEntry_spaceAlloc]
    · exact preserves_fill _ _
  · exact .refl

theorem forEachUserPage_keeps {σ : Type*} (P : σ → Prop) (mmu : σ → Mmu)
    (f : σ → Nat → L2Entry → Bool × σ) (hf : ∀ s va e, P s → P (f s va e).2) {s : σ} (hs : P s) :
    P (forEachUserPage mmu f t s).2 := by
  have hinner : ∀ (l2 : L2Ref) (mb : Fin 4096) (l : List (Fin 256)) (s : σ), P s →
      P (walkL2 mmu f l2 mb l s).2 := by
    intro l2 mb l
    induction l with
    | nil => exact fun s hs => hs
    | cons i l ih =>
      intro s hs
      rw [walkL2]
      split
      · have hstep := hf s (mb * 2 ^ 20 + i * pageSize) ((mmu s).entryAt l2 i) hs
        split
        · rename_i s' heq
          rw [heq] at hstep
          exact ih s' hstep
        · rename_i s' heq
          rw [heq] at hstep
          exact hstep
      · exact ih s hs
  have houter : ∀ (l : List (Fin 4096)) (s : σ), P s → P (walkL1 mmu f t l s).2 := by
    intro l
    induction l with
    | nil => exact fun s hs => hs
    | cons mb l ih =>
      intro s hs
      rw [walkL1]
      split
      · rename_i l2 _
        have hwalk := hinner l2 mb (List.finRange 256) s hs
        split
        · rename_i s' heq
          rw [heq] at hwalk
          exact ih s' hwalk
        · rename_i s' heq
          rw [heq] at hwalk
          exact hwalk
      · exact ih s hs
  exact houter _ s hs

end Mmu

namespace Memory

variable {m m' : Memory} {t : Fin maxAddrSpaces} {p child : Pid}

theorem preserves_copyPage (ht : m.mmu.spaceAlloc t = true) (va : Nat) (e : L2Entry) :
    Mmu.Preserves m.mmu (copyPage t m va e).2.mmu := by
  unfold copyPage
  split
  · exact .refl
  · cases m.pages.allocPage with
    | mk addr pages =>
      cases addr with
      | none => exact .refl
      | some phys =>
        dsimp only
        have hmap : Mmu.Preserves m.mmu (m.mmu.shatterAndMap t va phys e.attrs).2 :=
          Mmu.preserves_shatterAndMap ht
        cases hres : m.mmu.shatterAndMap t va phys e.attrs with
        | mk ok mmu =>
          rw [hres] at hmap
          cases ok with
          | true => exact hmap
          | false =>
            show Mmu.Preserves m.mmu (Memory.freePage _ phys).mmu
            rw [(freePage_inert _ _).mmu]
            exact hmap

theorem owned_forkPl0 (h : m.mmu.Owned) : (m.forkPl0 p child).2.mmu.Owned := by
  unfold forkPl0
  split
  · rename_i s t mmu _ hnew
    obtain ⟨-, hmmu⟩ := Mmu.newAddrSpace_eq_some hnew
    have hstart : ({ m with mmu } : Memory).mmu.Owned ∧
        ({ m with mmu } : Memory).mmu.spaceAlloc t = true := by
      refine ⟨h.newAddrSpace hnew, ?_⟩
      rw [hmmu]
      exact Function.update_self ..
    have hcopied := @Mmu.forEachUserPage_keeps s.table _
      (fun m => m.mmu.Owned ∧ m.mmu.spaceAlloc t = true) Memory.mmu (copyPage t)
      (fun m va e hm => by
        have hkeep := preserves_copyPage hm.2 va e
        exact ⟨hkeep.owned hm.1, by rw [hkeep.spaceAlloc, hm.2]⟩) _ hstart
    unfold forkCopyPhase
    cases hres : Mmu.forEachUserPage Memory.mmu (copyPage t) s.table { m with mmu } with
    | mk ok m' =>
      rw [hres] at hcopied
      cases ok with
      | true => exact hcopied.1
      | false =>
        show ((m'.freeUserPages t).mmu.freeAddrSpace t).Owned
        rw [(freeUserPages_inert _ _).mmu]
        exact hcopied.1.freeAddrSpace hcopied.2
  · exact h

/-! ## Runs -/

inductive TableEvent where
  | newAddrSpace
  | mapPage (t : Fin maxAddrSpaces) (va phys : Nat) (attrs : Attrs)
  | shatterSection (t : Fin maxAddrSpaces) (va : Nat)
  | ensurePageMappable (t : Fin maxAddrSpaces) (va : Nat)
  | resetShatteredSection (t : Fin maxAddrSpaces) (va : Nat)
  | updatePageProt (t : Fin maxAddrSpaces) (va : Nat) (attrs : Attrs)
  | unmapPage (t : Fin maxAddrSpaces) (va : Nat)
  | freeAddrSpace (t : Fin maxAddrSpaces)
  | fork (p child : Pid)

def TableEvent.table : TableEvent → Option (Fin maxAddrSpaces)
  | .mapPage t .. | .shatterSection t _ | .ensurePageMappable t _ | .resetShatteredSection t _
  | .updatePageProt t .. | .unmapPage t _ | .freeAddrSpace t => some t
  | .newAddrSpace | .fork .. => none

def tableStep (m : Memory) : TableEvent → Memory
  | .newAddrSpace => m.mmu.newAddrSpace.elim m fun r => { m with mmu := r.2 }
  | .mapPage t va phys attrs => { m with mmu := (m.mmu.mapPage t va phys attrs).2 }
  | .shatterSection t va => { m with mmu := (m.mmu.shatterSection t va).2 }
  | .ensurePageMappable t va => { m with mmu := (m.mmu.ensurePageMappable t va).2 }
  | .resetShatteredSection t va => { m with mmu := (m.mmu.resetShatteredSection t va).2 }
  | .updatePageProt t va attrs => { m with mmu := (m.mmu.updatePageProt t va attrs).2 }
  | .unmapPage t va => { m with mmu := m.mmu.unmapPage t va }
  | .freeAddrSpace t => { m with mmu := m.mmu.freeAddrSpace t }
  | .fork p child => (m.forkPl0 p child).2

def OnLive (m : Memory) (e : TableEvent) : Prop := ∀ t, e.table = some t → m.mmu.spaceAlloc t = true

theorem owned_tableStep (h : m.mmu.Owned) {e : TableEvent} (he : m.OnLive e) :
    (m.tableStep e).mmu.Owned := by
  cases e with
  | newAddrSpace =>
    unfold tableStep
    cases hnew : m.mmu.newAddrSpace with
    | none => exact h
    | some r => exact h.newAddrSpace (t := r.1) hnew
  | mapPage t va phys attrs => exact (Mmu.preserves_mapPage (he t rfl)).owned h
  | shatterSection t va => exact (Mmu.preserves_shatterSection (he t rfl)).owned h
  | ensurePageMappable t va => exact (Mmu.preserves_ensurePageMappable (he t rfl)).owned h
  | resetShatteredSection t va => exact Mmu.preserves_resetShatteredSection.owned h
  | updatePageProt t va attrs => exact Mmu.preserves_updatePageProt.owned h
  | unmapPage t va => exact (Mmu.preserves_unmapPage (he t rfl)).owned h
  | freeAddrSpace t => exact h.freeAddrSpace (he t rfl)
  | fork p child => exact owned_forkPl0 h

theorem owned_boot (image : KernelImage) : (Mmu.boot image).Owned :=
  ⟨⟨fun hk => absurd hk.1 (by simp [Mmu.boot]), fun hk => absurd hk.1 (by simp [Mmu.boot])⟩,
    fun slot hs => absurd hs (by simp [Mmu.boot])⟩

/-- In every state that the functions of `mmu.rs` on live tables and `fork`
reach, a slot of the pool is used exactly if one entry of one live address
space points to it, and no two entries share a slot.  No slot is freed while an
entry refers to it, and none stays used when its address space is freed. -/
theorem l2_pool_owned (m₀ : Memory) (image : KernelImage) (hboot : m₀.mmu = .boot image)
    (m : Memory) (hrun : Runs tableStep OnLive m₀ m) :
    (∀ slot, m.mmu.l2Alloc slot = true ↔ ∃! k, m.mmu.Points k slot) ∧
      (∀ k k' slot, m.mmu.Points k slot → m.mmu.Points k' slot → k = k') ∧
      (∀ e, m.OnLive e → ∀ slot, (m.tableStep e).mmu.l2Alloc slot = false →
        ∀ k, ¬(m.tableStep e).mmu.Points k slot) ∧
      ∀ t, m.mmu.spaceAlloc t = true → ∀ i slot, m.mmu.tables t i = .coarse (.pool slot) →
        (m.mmu.freeAddrSpace t).l2Alloc slot = false := by
  have howned : m.mmu.Owned := hrun.invariant (I := fun m => m.mmu.Owned)
    (by rw [hboot]; exact owned_boot image) fun m e hm he => owned_tableStep hm he
  refine ⟨howned.used_iff, fun k k' slot hk hk' => howned.exclusive.unique hk hk', ?_, ?_⟩
  · intro e he slot hslot k hk
    have hused := (owned_tableStep howned he).exclusive.used hk
    rw [Set.mem_ofPred_eq, hslot] at hused
    cases hused
  · intro t ht i slot hslot
    refine Bool.eq_false_iff.mpr fun hc => ?_
    obtain ⟨-, hother⟩ := Mmu.freeAddrSpace_l2Alloc.mp hc
    exact hother i hslot

def emptyMemory : Memory := .boot (.reserved ramStart 0) ⟨0, 0, 0⟩ fun _ => zeroFrame

def mapAndUnmap : List TableEvent :=
  [.newAddrSpace, .shatterSection 0 0x7FF00000,
    .mapPage 0 0x7FF00000 0x40200000 (protToL2Flags protRead), .unmapPage 0 0x7FF01000]

theorem l2_pool_owned_mapAndUnmap :
    (mapAndUnmap.foldl tableStep emptyMemory).mmu.l2Alloc 0 = true ∧
      ∃! k, (mapAndUnmap.foldl tableStep emptyMemory).mmu.Points k 0 := by
  have hguards : Guarded tableStep OnLive emptyMemory mapAndUnmap := by
    refine ⟨?_, ?_, ?_, ?_, trivial⟩
    · rintro t ⟨⟩
    all_goals
      rintro t ⟨⟩
      decide +kernel
  have hused : (mapAndUnmap.foldl tableStep emptyMemory).mmu.l2Alloc 0 = true := by
    decide +kernel
  obtain ⟨hiff, -⟩ := l2_pool_owned emptyMemory ⟨0, 0, 0⟩ rfl _ (Runs.start.foldl hguards)
  exact ⟨hused, (hiff 0).mp hused⟩

end Memory

end Thumos
