import Thumos.Kernel.PageLoops

/-!
# The walk over the user pages

`for_each_user_page` reads the tables while its callback may change them.  If
the callback leaves the walked address space alone, the walk is a loop over the
list of its user pages (`Mmu.forEachUserPage_eq`).
-/

namespace Thumos

open Ownership Pages List Option

def vaOf (s : PageIdx) : Nat := s.1 * 2 ^ 20 + s.2 * pageSize

theorem vaOf_lt (s : PageIdx) : vaOf s < usizeSize := by
  have h1 := s.1.isLt
  have h2 := s.2.isLt
  simp only [vaOf, pageSize, usizeSize]
  omega

theorem pageIdx_vaOf (s : PageIdx) : pageIdx (vaOf s) = s := by
  have h1 := s.1.isLt
  have h2 := s.2.isLt
  refine Prod.ext (Fin.ext ?_) (Fin.ext ?_)
  · rw [show (pageIdx (vaOf s)).1 = l1Index (vaOf s) from rfl, Mmu.l1Index_val (vaOf_lt s)]
    simp only [vaOf, pageSize]
    omega
  · rw [show (pageIdx (vaOf s)).2 = l2Index (vaOf s) from rfl, l2Index_val]
    simp only [vaOf, pageSize]
    omega

namespace Mmu

section Loop

variable {σ : Type*} (f : σ → Nat → L2Entry → Bool × σ)

def foldWhile : List (Nat × L2Entry) → σ → Bool × σ
  | [], s => (true, s)
  | (va, e) :: rest, s =>
    match f s va e with
    | (true, s) => foldWhile rest s
    | (false, s) => (false, s)

theorem foldWhile_append (l l' : List (Nat × L2Entry)) (s : σ) :
    foldWhile f (l ++ l') s =
      match foldWhile f l s with
      | (true, s) => foldWhile f l' s
      | (false, s) => (false, s) := by
  induction l generalizing s with
  | nil => rfl
  | cons p l ih =>
    obtain ⟨va, e⟩ := p
    rw [cons_append, foldWhile, foldWhile]
    split
    · exact ih _
    · rfl

end Loop

variable {m m' : Mmu} {t : Fin maxAddrSpaces}

def pageAt (m : Mmu) (t : Fin maxAddrSpaces) (s : PageIdx) : Option (Nat × L2Entry) :=
  ((m.entry t s).filter L2Entry.isUser).map fun e => (vaOf s, e)

def userPages (m : Mmu) (t : Fin maxAddrSpaces) : List (Nat × L2Entry) :=
  (List.finRange 4096 ×ˢ List.finRange 256).filterMap (m.pageAt t)

theorem pageAt_eq_some {s : PageIdx} {p : Nat × L2Entry} : m.pageAt t s = some p ↔
    m.entry t s = some p.2 ∧ p.2.isUser = true ∧ p.1 = vaOf s := by
  obtain ⟨va, e⟩ := p
  unfold pageAt
  rw [map_eq_some_iff]
  constructor
  · rintro ⟨e', he', heq⟩
    cases heq
    rw [filter_eq_some_iff] at he'
    exact ⟨he'.1, he'.2, rfl⟩
  · rintro ⟨he, huser, rfl⟩
    exact ⟨e, by rw [he, filter_some, if_pos huser], rfl⟩

theorem mem_userPages {p : Nat × L2Entry} (ht : m.spaceAlloc t = true) :
    p ∈ m.userPages t ↔ ∃ s, m.user t s = some p.2 ∧ p.1 = vaOf s := by
  unfold userPages
  rw [mem_filterMap]
  constructor
  · rintro ⟨s, -, hs⟩
    obtain ⟨he, huser, hva⟩ := pageAt_eq_some.mp hs
    exact ⟨s, user_eq_some.mpr ⟨ht, he, huser⟩, hva⟩
  · rintro ⟨s, hs, hva⟩
    obtain ⟨-, he, huser⟩ := user_eq_some.mp hs
    exact ⟨s, mem_product.mpr ⟨mem_finRange _, mem_finRange _⟩,
      pageAt_eq_some.mpr ⟨he, huser, hva⟩⟩

structure SameSpace (t : Fin maxAddrSpaces) (m m' : Mmu) : Prop where
  tables : ∀ i, m'.tables t i = m.tables t i
  entry : ∀ s, m'.entry t s = m.entry t s

theorem SameSpace.refl : SameSpace t m m := ⟨fun _ => rfl, fun _ => rfl⟩

theorem SameSpace.entryAt (h : SameSpace t m m') {l2 : L2Ref} {i : Fin 4096}
    (hi : m.tables t i = .coarse l2) (j : Fin 256) : m'.entryAt l2 j = m.entryAt l2 j := by
  have hentry := h.entry (i, j)
  rw [entry_of_coarse (s := (i, j)) hi,
    entry_of_coarse (s := (i, j)) ((h.tables i).trans hi)] at hentry
  exact some.inj hentry

section Walk

variable {σ : Type*} {mmu : σ → Mmu} {f : σ → Nat → L2Entry → Bool × σ} {m₀ : Mmu}

/-- As far as the loop over `l` runs, the address space `t` stays as it is in
`m₀`. -/
def Keeps (mmu : σ → Mmu) (f : σ → Nat → L2Entry → Bool × σ) (t : Fin maxAddrSpaces) (m₀ : Mmu)
    (l : List (Nat × L2Entry)) (s : σ) : Prop :=
  ∀ l₁ s', l₁ <+: l → foldWhile f l₁ s = (true, s') → SameSpace t m₀ (mmu s')

variable {s : σ}

theorem Keeps.start {l : List (Nat × L2Entry)} (h : Keeps mmu f t m₀ l s) :
    SameSpace t m₀ (mmu s) := h [] s nil_prefix rfl

theorem Keeps.left {l l' : List (Nat × L2Entry)} (h : Keeps mmu f t m₀ (l ++ l') s) :
    Keeps mmu f t m₀ l s := fun l₁ s' hl₁ => h l₁ s' (hl₁.trans (prefix_append l l'))

theorem Keeps.right {l l' : List (Nat × L2Entry)} {s s' : σ} (h : Keeps mmu f t m₀ (l ++ l') s)
    (hl : foldWhile f l s = (true, s')) : Keeps mmu f t m₀ l' s' := by
  intro l₁ s'' hl₁ hrun
  refine h (l ++ l₁) s'' ((prefix_append_right_inj l).mpr hl₁) ?_
  rw [foldWhile_append, hl]
  exact hrun

theorem walkL2_eq {l2 : L2Ref} {mb : Fin 4096} (hl2 : m₀.tables t mb = .coarse l2)
    (l : List (Fin 256)) (h : Keeps mmu f t m₀ (l.filterMap fun j => m₀.pageAt t (mb, j)) s) :
    walkL2 mmu f l2 mb l s = foldWhile f (l.filterMap fun j => m₀.pageAt t (mb, j)) s := by
  induction l generalizing s with
  | nil => rfl
  | cons j l ih =>
    have hentry : m₀.entry t (mb, j) = some (m₀.entryAt l2 j) := entry_of_coarse (s := (mb, j)) hl2
    rw [filterMap_cons, pageAt, hentry, filter_some] at h ⊢
    rw [walkL2, h.start.entryAt hl2 j]
    by_cases huser : (m₀.entryAt l2 j).isUser = true
    · rw [if_pos huser] at h ⊢
      rw [if_pos huser, show (mb * 2 ^ 20 + j * pageSize : Nat) = vaOf (mb, j) from rfl]
      dsimp only [map_some] at h ⊢
      rw [foldWhile]
      cases hres : f s (vaOf (mb, j)) (m₀.entryAt l2 j) with
      | mk ok s' =>
        cases ok with
        | true =>
          refine ih (Keeps.right (l := [(vaOf (mb, j), m₀.entryAt l2 j)]) h ?_)
          rw [foldWhile, hres]
          rfl
        | false => rfl
    · rw [if_neg huser] at h ⊢
      rw [if_neg huser]
      exact ih h

theorem walkL1_eq (l : List (Fin 4096)) (h : Keeps mmu f t m₀
      (l.flatMap fun mb => (finRange 256).filterMap fun j => m₀.pageAt t (mb, j)) s) :
    walkL1 mmu f t l s =
      foldWhile f
        (l.flatMap fun mb => (finRange 256).filterMap fun j => m₀.pageAt t (mb, j)) s := by
  induction l generalizing s with
  | nil => rfl
  | cons mb l ih =>
    have hstart := h.start
    rw [flatMap_cons] at h ⊢
    rw [walkL1, hstart.tables mb, foldWhile_append]
    by_cases hcoarse : ∃ l2, m₀.tables t mb = .coarse l2
    · obtain ⟨l2, hl2⟩ := hcoarse
      rw [hl2]
      dsimp only
      rw [walkL2_eq hl2 _ h.left]
      cases hrun : foldWhile f ((finRange 256).filterMap fun j => m₀.pageAt t (mb, j)) s with
      | mk ok s' =>
        cases ok with
        | true => exact ih (h.right hrun)
        | false => rfl
    · have hnone : ((finRange 256).filterMap fun j => m₀.pageAt t (mb, j)) = [] := by
        rw [filterMap_eq_nil_iff]
        intro j _
        rw [pageAt, entry_of_not_coarse (s := (mb, j)) fun l2 hl2 => hcoarse ⟨l2, hl2⟩]
        rfl
      rw [hnone] at h ⊢
      split
      · rename_i l2 hl2
        exact absurd ⟨l2, hl2⟩ hcoarse
      · exact ih h

theorem filterMap_product {α β γ : Type*} (g : α × β → Option γ) (l : List α) (l' : List β) :
    (l ×ˢ l').filterMap g = l.flatMap fun a => l'.filterMap fun b => g (a, b) := by
  induction l with
  | nil => rfl
  | cons a l ih =>
    rw [product_cons, filterMap_append, filterMap_map, ih]
    rfl

/-- The walk is a loop over the user pages if its callback leaves the address
space alone. -/
theorem forEachUserPage_eq (h : Keeps mmu f t (mmu s) ((mmu s).userPages t) s) :
    forEachUserPage mmu f t s = foldWhile f ((mmu s).userPages t) s := by
  rw [userPages, filterMap_product] at h ⊢
  rw [forEachUserPage, walkL1_eq _ h]

end Walk

end Mmu

end Thumos
