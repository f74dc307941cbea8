import Thumos.Kernel.Page
import Thumos.Lib.GuardedRun

/-!
# Runs of the page allocator

Calls with arbitrary arguments, from `page::init` on.  The ledger keeps, next
to the allocator, the frames that were handed out and not yet freed.  The
frames of the ledger stay pairwise distinct and allocated, and the counter of
free frames stays right, in every run in which no `free_contiguous` wraps.
-/

namespace Thumos

open WordBitmap Pages List GuardedRun

inductive PageCall where
  | allocPage
  | allocContiguous (n : UInt32)
  | tryFreePage (addr : UInt32)
  | freeContiguous (addr n : UInt32)

structure PageLedger where
  pages : Pages
  live : List Nat

def framesAt (addr n : Nat) : List Nat :=
  (List.range n).map fun i => (addr + i * pageSize) % usizeSize

namespace PageCall

def handedOut (p : Pages) : PageCall → List Nat
  | allocPage => p.allocPage.1.elim [] fun addr => framesAt addr 1
  | allocContiguous n => (p.allocContiguous n.toNat).1.elim [] fun addr => framesAt addr n.toNat
  | tryFreePage _ | freeContiguous _ _ => []

def freed (p : Pages) : PageCall → List Nat
  | allocPage | allocContiguous _ => []
  | tryFreePage addr => if (p.tryFreePage addr.toNat).1 then framesAt addr.toNat 1 else []
  | freeContiguous addr n =>
    if (p.freeContiguous addr.toNat n.toNat).1 then framesAt addr.toNat n.toNat else []

def run (p : Pages) : PageCall → Pages
  | allocPage => p.allocPage.2
  | allocContiguous n => (p.allocContiguous n.toNat).2
  | tryFreePage addr => (p.tryFreePage addr.toNat).2
  | freeContiguous addr n => (p.freeContiguous addr.toNat n.toNat).2

def Refused (p : Pages) : PageCall → Prop
  | allocPage | allocContiguous _ => False
  | tryFreePage addr => (p.tryFreePage addr.toNat).1 = false
  | freeContiguous addr n => (p.freeContiguous addr.toNat n.toNat).1 = false

/-- The number of the page after the run that `free_contiguous` is given fits
in a `usize`. -/
def Fits (p : Pages) : PageCall → Prop
  | allocPage | allocContiguous _ | tryFreePage _ => True
  | freeContiguous addr n => (addr.toNat - p.firstPage) / pageSize + n.toNat < usizeSize

end PageCall

namespace PageLedger

def step (s : PageLedger) (c : PageCall) : PageLedger where
  pages := c.run s.pages
  live := c.handedOut s.pages ++ s.live.filter fun a => a ∉ c.freed s.pages

/-- The counter is right, and the ledger names allocated frames, each once. -/
structure Inv (s : PageLedger) : Prop where
  counted : s.pages.Counted
  nodup : s.live.Nodup
  taken : ∀ a ∈ s.live, ∃ n, n < maxPages ∧ n ∉ s.pages.free ∧ a = s.pages.frame n

structure Sound (s : PageLedger) : Prop where
  counted : s.pages.freePages = s.pages.free.card
  live_nodup : s.live.Nodup
  handedOut_nodup : ∀ c : PageCall, (c.handedOut s.pages).Nodup
  handedOut_clear : ∀ (c : PageCall), ∀ a ∈ c.handedOut s.pages,
    a ∉ s.live ∧ ∃ n ∈ s.pages.free, a = s.pages.frame n
  refused : ∀ c : PageCall, c.Refused s.pages → c.run s.pages = s.pages

end PageLedger

/-! ## Frames and pages -/

theorem framesAt_frame (p : Pages) (start n : Nat) :
    framesAt (p.frame start) n = (rangeFrom start (start + n)).map p.frame := by
  rw [rangeFrom, Nat.add_sub_cancel_left, range'_eq_map_range, map_map]
  refine map_congr_left fun i _ => ?_
  simp only [frame, Function.comp_apply, Nat.mod_add_mod, Nat.add_mul, Nat.add_assoc]

variable {p : Pages}

theorem nodup_map_frame {ns : List Nat} (hnodup : ns.Nodup) (hlt : ∀ n ∈ ns, n < maxPages) :
    (ns.map p.frame).Nodup :=
  hnodup.map_on fun m hm n hn h => frame_inj (hlt m hm) (hlt n hn) h

theorem Pages.Frees.framesAt_eq {start addr n : Nat} (haddr : addr < usizeSize)
    (h : addr = p.firstPage + start * pageSize) :
    framesAt addr n = (rangeFrom start (start + n)).map p.frame := by
  have hframe : p.frame start = addr := by
    rw [frame, ← h, Nat.mod_eq_of_lt haddr]
  rw [← framesAt_frame, hframe]

/-! ## One call -/

/-- What a call does: it changes nothing, takes the pages of the frames it
hands out, or puts back the pages of the frames it frees. -/
inductive PageCall.Effect (p : Pages) (c : PageCall) : Prop where
  | same : c.run p = p → c.handedOut p = [] → c.freed p = [] → Effect p c
  | takes (ns : List Nat) : Takes p (c.run p) ns → c.handedOut p = ns.map p.frame →
    c.freed p = [] → Effect p c
  | gives (ns : List Nat) : Gives p (c.run p) ns → c.handedOut p = [] →
    c.freed p = ns.map p.frame → ¬c.Refused p → Effect p c

theorem PageCall.effect_of_frees {c : PageCall} {addr n : Nat} {res : Bool × Pages}
    (haddr : addr < usizeSize) (h : Frees p addr n res) (hrun : c.run p = res.2)
    (hout : c.handedOut p = []) (hfreed : c.freed p = if res.1 then framesAt addr n else [])
    (hrefused : c.Refused p ↔ res.1 = false) : c.Effect p := by
  rcases h with rfl | ⟨start, hstart, hok, hgives⟩
  · exact .same hrun hout hfreed
  refine .gives _ (hrun ▸ hgives) hout ?_ ?_
  · rw [hfreed, hok, if_pos rfl, Frees.framesAt_eq haddr hstart]
  · rw [hrefused, hok]
    exact Bool.noConfusion

theorem PageCall.effect_of_allocates {c : PageCall} {n : Nat} {res : Option Nat × Pages}
    (h : Allocates p n res) (hrun : c.run p = res.2)
    (hout : c.handedOut p = res.1.elim [] fun addr => framesAt addr n) (hfreed : c.freed p = []) :
    c.Effect p := by
  rcases h with rfl | ⟨start, hstart, htakes⟩
  · exact .same hrun hout hfreed
  · refine .takes _ (hrun ▸ htakes) ?_ hfreed
    rw [hout, hstart]
    exact framesAt_frame p start n

theorem PageCall.effect {c : PageCall} (h : c.Fits p) : c.Effect p := by
  cases c with
  | allocPage => exact effect_of_allocates p.allocPage_spec rfl rfl rfl
  | allocContiguous n => exact effect_of_allocates (p.allocContiguous_spec _) rfl rfl rfl
  | tryFreePage addr =>
    exact effect_of_frees addr.toNat_lt (p.tryFreePage_spec _) rfl rfl rfl Iff.rfl
  | freeContiguous addr n =>
    exact effect_of_frees addr.toNat_lt (p.freeContiguous_spec h) rfl rfl rfl Iff.rfl

namespace PageLedger

variable {s : PageLedger} {c : PageCall}

theorem Inv.not_live (h : s.Inv) {n : Nat} (hn : n ∈ s.pages.free) : s.pages.frame n ∉ s.live := by
  intro hlive
  obtain ⟨m, hm, hfree, heq⟩ := h.taken _ hlive
  rw [frame_inj (free_lt hn) hm heq] at hn
  exact hfree hn

theorem frame_congr {p p' : Pages} (h : p'.firstPage = p.firstPage) : p'.frame = p.frame := by
  funext n
  rw [frame, frame, h]

theorem Inv.takes (h : s.Inv) {ns : List Nat} (htakes : Takes s.pages p ns) :
    Inv ⟨p, ns.map s.pages.frame ++ s.live⟩ := by
  have hframe := frame_congr htakes.firstPage
  have hlt : ∀ n ∈ ns, n < maxPages := fun n hn => free_lt (htakes.clear n hn)
  refine ⟨htakes.counted h.counted, ?_, ?_⟩
  · show (ns.map s.pages.frame ++ s.live).Nodup
    rw [nodup_append]
    refine ⟨nodup_map_frame htakes.nodup hlt, h.nodup, ?_⟩
    intro a ha b hb heq
    obtain ⟨n, hn, rfl⟩ := mem_map.mp ha
    exact h.not_live (htakes.clear n hn) (heq ▸ hb)
  · intro a ha
    show ∃ n, n < maxPages ∧ n ∉ p.free ∧ a = p.frame n
    rw [htakes.free, hframe]
    rcases mem_append.mp ha with ha | ha
    · obtain ⟨n, hn, rfl⟩ := mem_map.mp ha
      exact ⟨n, hlt n hn, fun hc => (Finset.mem_sdiff.mp hc).2 (mem_toFinset.mpr hn), rfl⟩
    · obtain ⟨n, hn, hfree, rfl⟩ := h.taken a ha
      exact ⟨n, hn, fun hc => hfree (Finset.mem_sdiff.mp hc).1, rfl⟩

theorem Inv.gives (h : s.Inv) {ns : List Nat} (hgives : Gives s.pages p ns) :
    Inv ⟨p, s.live.filter fun a => a ∉ ns.map s.pages.frame⟩ := by
  have hframe := frame_congr hgives.firstPage
  refine ⟨hgives.counted h.counted, h.nodup.filter _, ?_⟩
  intro a ha
  rw [mem_filter, decide_eq_true_eq] at ha
  obtain ⟨n, hn, hfree, rfl⟩ := h.taken a ha.1
  show ∃ m, m < maxPages ∧ m ∉ p.free ∧ s.pages.frame n = p.frame m
  rw [hgives.free, hframe]
  refine ⟨n, hn, fun hc => ?_, rfl⟩
  rcases Finset.mem_union.mp hc with hc | hc
  · exact hfree hc
  · exact ha.2 (mem_map_of_mem (mem_toFinset.mp hc))

theorem Inv.step (h : s.Inv) (hfits : c.Fits s.pages) : (s.step c).Inv := by
  rcases c.effect hfits with ⟨hrun, hout, hfreed⟩ | ⟨ns, htakes, hout, hfreed⟩ |
    ⟨ns, hgives, hout, hfreed, -⟩
  · have hsame : s.step c = s := by simp [PageLedger.step, hrun, hout, hfreed]
    rw [hsame]
    exact h
  · have hnext : s.step c = ⟨c.run s.pages, ns.map s.pages.frame ++ s.live⟩ := by
      simp [PageLedger.step, hout, hfreed]
    rw [hnext]
    exact h.takes htakes
  · have hnext : s.step c =
        ⟨c.run s.pages, s.live.filter fun a => a ∉ ns.map s.pages.frame⟩ := by
      rw [PageLedger.step, hout, hfreed, nil_append]
    rw [hnext]
    exact h.gives hgives

theorem run_of_refused (h : c.Refused p) : c.run p = p := by
  cases c with
  | allocPage => exact h.elim
  | allocContiguous n => exact h.elim
  | tryFreePage addr =>
    rcases p.tryFreePage_spec addr.toNat with heq | ⟨-, -, hok, -⟩
    · exact congrArg Prod.snd heq
    · cases hok.symm.trans h
  | freeContiguous addr n => exact freeContiguous_of_false h

theorem Inv.sound (h : s.Inv) : s.Sound := by
  have hout : ∀ c : PageCall, c.handedOut s.pages = [] ∨
      ∃ ns : List Nat, (∀ n ∈ ns, n ∈ s.pages.free) ∧ ns.Nodup ∧
        c.handedOut s.pages = ns.map s.pages.frame := by
    intro c
    by_cases hfits : c.Fits s.pages
    · rcases c.effect hfits with ⟨-, hout, -⟩ | ⟨ns, htakes, hout, -⟩ | ⟨-, -, hout, -⟩
      · exact .inl hout
      · exact .inr ⟨ns, htakes.clear, htakes.nodup, hout⟩
      · exact .inl hout
    · cases c with
      | freeContiguous addr n => exact .inl rfl
      | allocPage | allocContiguous n | tryFreePage addr => exact absurd trivial hfits
  refine ⟨h.counted, h.nodup, ?_, ?_, fun c hc => run_of_refused hc⟩
  · intro c
    rcases hout c with hnil | ⟨ns, hclear, hnodup, heq⟩
    · rw [hnil]
      exact nodup_nil
    · rw [heq]
      exact nodup_map_frame hnodup fun n hn => free_lt (hclear n hn)
  · intro c a ha
    rcases hout c with hnil | ⟨ns, hclear, -, heq⟩
    · rw [hnil] at ha
      exact absurd ha not_mem_nil
    · rw [heq] at ha
      obtain ⟨n, hn, rfl⟩ := mem_map.mp ha
      exact ⟨h.not_live (hclear n hn), n, hclear n hn, rfl⟩

end PageLedger

open PageLedger in
/-- From `init` over a RAM range with the kernel inside it, in every run whose
`free_contiguous` calls do not wrap, the allocator is sound in every state
reached. -/
theorem page_allocator_sound {ramStart ramEnd kernelEnd : UInt32} {p : Pages} {s : PageLedger}
    (hrange : RamRange ramStart.toNat ramEnd.toNat kernelEnd.toNat)
    (hinit : Pages.init ramStart.toNat ramEnd.toNat kernelEnd.toNat = some p)
    (hruns : Runs step (fun t c => c.Fits t.pages) ⟨p, []⟩ s) : s.Sound := by
  have hstart : Inv ⟨p, []⟩ :=
    ⟨(init_spec hrange hinit).2.1, nodup_nil, fun a ha => absurd ha not_mem_nil⟩
  exact (hruns.invariant hstart fun _ _ h hfits => h.step hfits).sound

theorem ramRange_boot : RamRange 0x40000000 0x7FF00000 0x40200000 := by
  refine ⟨?_, ?_, ?_⟩ <;> decide

theorem exists_boot : ∃ p, Pages.init 0x40000000 0x7FF00000 0x40200000 = some p := by
  rw [Pages.init, if_neg (by decide)]
  exact ⟨_, rfl⟩

/-- The boot allocator, one `alloc_page` later. -/
theorem page_allocator_sound_boot : ∃ p,
    Pages.init (0x40000000 : UInt32).toNat (0x7FF00000 : UInt32).toNat
      (0x40200000 : UInt32).toNat = some p ∧
    PageLedger.Sound (PageLedger.step ⟨p, []⟩ .allocPage) := by
  obtain ⟨p, hp⟩ := exists_boot
  exact ⟨p, hp, @page_allocator_sound 0x40000000 0x7FF00000 0x40200000 p _ ramRange_boot hp
    (.event _ .start trivial)⟩

/-- `free_contiguous` of `2^32 - 1` frames from page 1 on: the end of the run
wraps to page 0, no frame is checked or freed, the call succeeds, and the
counter of free frames loses one. -/
theorem free_contiguous_wraps : ∃ p,
    Pages.init (0x40000000 : UInt32).toNat (0x7FF00000 : UInt32).toNat
      (0x40200000 : UInt32).toNat = some p ∧
    ∃ s, s = PageLedger.step ⟨p, []⟩ (.freeContiguous 0x40001000 0xFFFFFFFF) ∧
      s.pages.freePages ≠ s.pages.free.card := by
  obtain ⟨p, hp⟩ := exists_boot
  refine ⟨p, hp, _, rfl, ?_⟩
  obtain ⟨hfirst, hcounted, hfree⟩ := init_spec ramRange_boot hp
  have hrun : p.freeContiguous 0x40001000 0xFFFFFFFF =
      (true, p.give [] ((p.freePages + 0xFFFFFFFF) % usizeSize)) := by
    rw [freeContiguous, hfirst]
    rfl
  have hsame : ∀ count, (p.give [] count).free = p.free := fun _ => rfl
  have hpos : 0 < p.freePages := by
    rw [hcounted, Finset.card_pos]
    exact ⟨0x200, (hfree _).mpr (by decide)⟩
  have hle := card_free_le p
  rw [PageLedger.step]
  show (p.freeContiguous 0x40001000 0xFFFFFFFF).2.freePages ≠
    (p.freeContiguous 0x40001000 0xFFFFFFFF).2.free.card
  rw [hrun, hsame, ← show p.freePages = p.free.card from hcounted]
  show (p.freePages + 0xFFFFFFFF) % usizeSize ≠ p.freePages
  rw [← show p.freePages = p.free.card from hcounted] at hle
  simp only [usizeSize, maxPages, pageSize] at *
  omega

end Thumos
