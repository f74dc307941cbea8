import Thumos.Kernel.Replace
import Thumos.Kernel.TablePool

/-!
# Runs of the memory

The memory is sound at boot, and every event keeps it sound, so it is sound in
every state that a run reaches.  The only condition is on `FreePage`: the kernel
frees whatever frame the caller names, and a frame that somebody else still has
would be given away twice.
-/

namespace Thumos

open GuardedRun Ownership Pages

def bootPages : Pages := (Pages.init ramStart userTextBase kernelEnd).get (by decide)

theorem bootPages_managed : bootPages.Managed ∧ ∀ n, n ∈ bootPages.frames ↔ UsableFrame n :=
  init_managed (Option.some_get _).symm

namespace Memory

variable {m m' : Memory} {p : Pid} {image : KernelImage} {ram : Nat → FrameData}

def booted (image : KernelImage) (ram : Nat → FrameData) : Memory := .boot bootPages image ram

/-- Only frames that the caller got from `AllocPage` and still has are freed by
`FreePage`. -/
def Rightful (m : Memory) : MemoryEvent → Prop
  | .freePage p addr => isFreeableUserPage addr.toNat = true →
      m.grants (addr.toNat / pageSize) = some (.process p)
  | _ => True

/-! ## Soundness -/

theorem kernelImage_entry (image : KernelImage) (mb : Fin kernelSections) (j : Fin 256) :
    (image.tables mb j).Kernel mb j := by
  have hattrs : ∃ a, (image.tables mb j).attrs = PageFlags.smallPage ||| PageFlags.shareable |||
      PageFlags.normalWbWa ||| a ∧ (a = PageFlags.apKernelRo ∨
        a = PageFlags.apKernelRo ||| PageFlags.xn ∨
          a = PageFlags.apKernelOnly ||| PageFlags.xn) := by
    refine ⟨_, rfl, ?_⟩
    unfold KernelImage.wxPageAttrs
    split
    · exact .inl rfl
    · split
      · exact .inr (.inl rfl)
      · exact .inr (.inr rfl)
  obtain ⟨a, ha, hcases⟩ := hattrs
  refine ⟨?_, ?_, rfl, ?_, ?_⟩
  · rw [L2Entry.isUser, ha]
    rcases hcases with rfl | rfl | rfl <;> decide
  · rw [L2Entry.isMapped, ha]
    rcases hcases with rfl | rfl | rfl <;> decide
  · rw [L2Entry.access, ha]
    rcases hcases with rfl | rfl | rfl <;> decide
  · rw [L2Entry.type, ha]
    rcases hcases with rfl | rfl | rfl <;> decide

theorem Sound.boot (image : KernelImage) (ram : Nat → FrameData) : Sound (booted image ram) := by
  have hdead : ∀ t, (booted image ram).mmu.spaceAlloc t = false := fun _ => rfl
  have hempty : ∀ p, (booted image ram).spaces p = none := fun _ => rfl
  have hnone : ∀ t k, (booted image ram).mmu.user t k = none := fun t k =>
    Mmu.user_of_dead (hdead t)
  have hholds : ∀ k n, ¬(booted image ram).Holds k n := by
    intro k n hk
    cases k with
    | page t s =>
      obtain ⟨⟨e, he, -⟩, -⟩ := hk
      cases (hnone t s).symm.trans he
    | grant g => cases hk
  refine ⟨⟨owned_boot image, ⟨?_, ?_, ?_⟩, kernelImage_entry image,
    bootPages_managed.1, ⟨fun hk => absurd hk (hholds _ _), fun hk => absurd hk (hholds _ _)⟩, ?_⟩,
    ?_, ?_⟩
  · exact fun t i ht => nomatch (hdead t).symm.trans ht
  · exact fun t k e ht => nomatch (hdead t).symm.trans ht
  · exact fun t i ht => nomatch (hdead t).symm.trans ht
  · exact fun t k e he => nomatch (hnone t k).symm.trans he
  · exact fun p s hs => nomatch (hempty p).symm.trans hs
  · exact fun p p' s s' hs => nomatch (hempty p).symm.trans hs

theorem Sound.withRam (h : Sound m) (ram : Nat → FrameData) : Sound { m with ram } :=
  h.sameMmu (h.isolated.withRam ram) rfl rfl

theorem Sound.step (h : Sound m) {e : MemoryEvent} (he : m.Rightful e) : Sound (m.step e) := by
  cases e with
  | spawn child data =>
    unfold Memory.step
    dsimp only
    split
    · exact h.spawn child data
    · exact h
  | fork p child =>
    unfold Memory.step
    dsimp only
    split
    · exact h.fork child
    · exact h
  | execve p file args => exact h.execve file args
  | exit p => exact h.exit
  | abandon p => exact h.abandon
  | brk p req => exact h.brk req
  | mmap p length prot flagsAndFd => exact h.mmap length prot flagsAndFd
  | munmap p addr => exact h.munmap addr
  | mprotect p addr prot => exact h.mprotect addr prot
  | allocPage p => exact h.allocPage
  | freePage p addr =>
    by_cases hfreeable : isFreeableUserPage addr.toNat = true
    · exact h.freePage (he hfreeable)
    unfold Memory.step Memory.sysFreePage
    dsimp only
    split
    · exact h
    · rw [Bool.eq_false_iff.mpr hfreeable]
      exact h
  | heapGrow n => exact h.heapGrow n
  | heapShrink addr n => exact h.heapShrink addr n
  | heapWrite page data =>
    unfold Memory.step
    dsimp only
    split
    · exact h.withRam _
    · exact h
  | store p va byte =>
    unfold Memory.step Memory.userStore
    dsimp only
    split
    · exact h
    · split
      · exact h.withRam _
      · exact h

theorem Sound.runs (hrun : Runs Memory.step Rightful (booted image ram) m) : Sound m :=
  hrun.invariant (Sound.boot image ram) fun _ _ h he => h.step he

/-! ## Access of user code -/

theorem Isolated.user_of_view (h : Isolated noneRevoked m) {t : Fin maxAddrSpaces} {k : PageIdx}
    (ht : m.mmu.spaceAlloc t = true) {v : View} (hv : m.mmu.view t k = some v)
    (huser : v.user = true) : ∃ e, m.mmu.user t k = some e ∧ v.page = e.page := by
  cases htab : m.mmu.tables t k.1 with
  | absent =>
    rw [Mmu.view, Mmu.viewUnder, htab] at hv
    cases hv
  | sect mb type =>
    rw [Mmu.view, Mmu.viewUnder, htab] at hv
    cases hv
    cases huser
  | coarse l2 =>
    rw [Mmu.view_of_coarse htab, Mmu.entry_of_coarse htab] at hv
    obtain ⟨e, he, rfl⟩ := Option.map_eq_some_iff.mp hv
    obtain ⟨heq, -⟩ := Option.filter_eq_some_iff.mp he
    have hentry : m.mmu.entry t k = some e := (Mmu.entry_of_coarse htab).trans heq
    cases l2 with
    | kernel mb =>
      cases heq
      cases (h.kernelEntries mb k.2).access.symm.trans huser
    | pool slot =>
      rcases h.shaped.entry t k e ht ⟨slot, htab⟩ hentry id with hisUser | rfl | rfl
      · exact ⟨e, by rw [Mmu.user_of_entry ht, hentry, Option.filter_some, if_pos hisUser], rfl⟩
      · cases huser
      · cases (Mmu.access_identityTable _ _).symm.trans huser

theorem protToL2Flags_wx (prot : UInt32) :
    ¬(protToL2Flags prot &&& 0x230 = PageFlags.apFull ∧
      protToL2Flags prot &&& PageFlags.xn = 0) := by
  unfold protToL2Flags
  by_cases hwrite : prot &&& protWrite ≠ 0
  · rw [if_pos hwrite, if_pos (.inl hwrite)]
    decide
  · rw [if_neg hwrite]
    split_ifs <;> decide

def kernelImageFrames : Set Nat := {n | ramStart / pageSize ≤ n ∧ n < kernelEnd / pageSize}

/-- In every state that a run reaches, user code never has access to a page that
it can both write and execute, to a frame of the kernel image or to a frame of
the kernel's heap, and it has no access at all under the kernel's own table. -/
theorem user_access_confined (image : KernelImage) (ram : Nat → FrameData) (m : Memory)
    (hrun : Runs Memory.step Rightful (booted image ram) m) :
    (∀ t k v, m.mmu.spaceAlloc t = true → m.mmu.view t k = some v → v.user = true →
      ∃ e, m.mmu.entry t k = some e ∧ e.page = v.page ∧
        ¬(e.userWritable = true ∧ e.attrs &&& PageFlags.xn = 0) ∧
        e.page ∉ kernelImageFrames ∧ m.grants e.page ≠ some .kernel) ∧
      ∀ k v, m.mmu.viewUnder kernelL1 k = some v → v.user = false := by
  have hiso := (Sound.runs hrun).isolated
  refine ⟨fun t k v ht hv huser => ?_, fun k v hv => ?_⟩
  · obtain ⟨e, he, hpage⟩ := hiso.user_of_view ht hv huser
    obtain ⟨prot, hprot⟩ := hiso.attrs t k e he
    refine ⟨e, (Mmu.user_eq_some.mp he).2.1, hpage.symm, ?_, ?_, ?_⟩
    · rw [L2Entry.userWritable, decide_eq_true_eq, hprot]
      exact protToL2Flags_wx prot
    · rintro ⟨hlo, hhi⟩
      have husable := (hiso.user_inUse he hlo).1.1
      simp only [kernelEnd, pageSize] at hhi
      omega
    · intro hgrant
      have hused := hiso.exclusive.used (k := .grant .kernel) hgrant
      cases hiso.exclusive.unique
        (show m.Holds (.page t k) e.page from ⟨⟨e, he, rfl⟩, hused.1.ram.1⟩)
        (show m.Holds (.grant .kernel) e.page from hgrant)
  · unfold Mmu.viewUnder at hv
    split at hv
    · cases hv
    · cases hv
      rfl
    · rename_i l2 htab
      dsimp only at hv
      split at hv
      · cases hv
        cases l2 with
        | pool slot => exact absurd htab Mmu.kernelL1_ne_pool
        | kernel mb => exact (hiso.kernelEntries mb k.2).access
      · cases hv

def startAndProtect : List MemoryEvent :=
  [.spawn (some 1) Elf.onePage, .mmap 1 4096 3 0xFFFF0020, .mprotect 1 0x20000000 7]

theorem user_access_confined_startAndProtect :
    Runs Memory.step Rightful (booted ⟨0, 0, 0⟩ fun _ => zeroFrame)
        (startAndProtect.foldl Memory.step (booted ⟨0, 0, 0⟩ fun _ => zeroFrame)) ∧
      ∀ t k v,
        (startAndProtect.foldl Memory.step (booted ⟨0, 0, 0⟩ fun _ => zeroFrame)).mmu.spaceAlloc
          t = true →
        (startAndProtect.foldl Memory.step (booted ⟨0, 0, 0⟩ fun _ => zeroFrame)).mmu.view t k =
          some v → v.user = true → v.page ∉ kernelImageFrames := by
  have hguards : Guarded Memory.step Rightful (booted ⟨0, 0, 0⟩ fun _ => zeroFrame)
    startAndProtect := ⟨trivial, trivial, trivial, trivial⟩
  have hrun := Runs.start.foldl hguards
  refine ⟨hrun, fun t k v ht hv huser => ?_⟩
  obtain ⟨e, -, hpage, -, himage, -⟩ :=
    (user_access_confined ⟨0, 0, 0⟩ (fun _ => zeroFrame) _ hrun).1 t k v ht hv huser
  exact hpage ▸ himage

@[irreducible] def started : Memory :=
  startAndProtect.foldl Memory.step (booted ⟨0, 0, 0⟩ fun _ => zeroFrame)

theorem runs_started :
    Runs Memory.step Rightful (booted ⟨0, 0, 0⟩ fun _ => zeroFrame) started := by
  unfold started
  exact Runs.start.foldl ⟨trivial, trivial, trivial, trivial⟩

/-- A frame that a page of an address space, a caller of `AllocPage` or the
kernel's heap has is one that the allocator manages, it is not free, and nobody
else has it; and no two processes have the same table. -/
theorem frames_exclusive (hrun : Runs Memory.step Rightful (booted image ram) m) :
    (∀ k n, m.Holds k n → UsableFrame n ∧ n ∉ m.pages.frames) ∧
      (∀ k k' n, m.Holds k n → m.Holds k' n → k = k') ∧
      ∀ p p' s s', m.spaces p = some s → m.spaces p' = some s' → s.table = s'.table → p = p' :=
  have h := Sound.runs hrun
  ⟨fun _ _ hk => h.isolated.exclusive.used hk, fun _ _ _ => h.isolated.exclusive.unique, h.apart⟩

theorem frames_exclusive_started :
    Runs Memory.step Rightful (booted ⟨0, 0, 0⟩ fun _ => zeroFrame) started ∧
      ∀ k k' n, started.Holds k n → started.Holds k' n → k = k' :=
  ⟨runs_started, (frames_exclusive runs_started).2.1⟩

/-! ## A spawn that fails -/

/-- Whatever runs out, a `spawn_user` that fails leaves the pools of tables and
the processes as they were, and the free frames with those of the image, which
it owns from the call on. -/
theorem spawn_rolls_back (h : Sound m) {loaded : LoadedElf} (hplaced : Placed m loaded)
    (child : Option Pid) (hfail : m.spawnUser child loaded = (false, m')) :
    m'.pages.frames = m.pages.frames ∪ run (loaded.imagePhys / pageSize) loaded.imagePages ∧
      m'.mmu.spaceAlloc = m.mmu.spaceAlloc ∧ m'.mmu.l2Alloc = m.mmu.l2Alloc ∧
      m'.spaces = m.spaces := by
  have hstep := h.spawnUser hplaced child
  rw [hfail] at hstep
  cases hstep with
  | failed hphys hun =>
    rw [hphys, Nat.mul_div_cancel _ (by decide)]
    exact ⟨hun.frames, hun.spaceAlloc, hun.l2Alloc, hun.spaces⟩

/-- A loaded image of one page, when every frame has been handed out. -/
theorem exists_placed : ∃ m n, Sound m ∧ m.pages.frames = ∅ ∧ m.mmu.newAddrSpace.isSome ∧
    Placed m ⟨userTextBase, [⟨userTextBase, 4096, 4096, 0, 5⟩], n * pageSize, userTextBase, 1⟩ := by
  have hboot := Sound.boot ⟨0, 0, 0⟩ fun _ => zeroFrame
  have hclear : WordBitmap.ClearRun bootPages.bitmap 0x3FD00 0x200 := by
    intro j hle hlt
    have hfree := (bootPages_managed.2 (firstFrame + j)).mpr (by
      unfold UsableFrame firstFrame
      omega)
    have hpage := (mem_frames.mp hfree).2
    rwa [Nat.add_sub_cancel_left] at hpage
  rcases bootPages_managed.1.handed (.inr ⟨_, rfl, handOut_spec hclear⟩) (by decide)
    with hnone | ⟨n, pages, -, hh⟩
  · cases hnone
  have hspare := hboot.isolated.spare hh
  have hempty : pages.frames = ∅ := by
    -- as many frames as there are, so the run starts at the first
    have hlo := (bootPages_managed.2 n).mp (hh.free n (mem_run.mpr (by omega)))
    have hhi := (bootPages_managed.2 (n + 0x3FCFF)).mp (hh.free _ (mem_run.mpr (by omega)))
    rw [hh.frames, Set.sdiff_eq_empty]
    intro i hi
    have husable := (bootPages_managed.2 i).mp hi
    rw [mem_run]
    simp only [UsableFrame] at hlo hhi husable
    omega
  refine ⟨_, n, hboot.take hh, hempty, rfl, ⟨n, rfl, fun i hi => hspare i ?_⟩, ?_, ?_⟩
  · have hfirst : n ≤ i ∧ i < n + 1 := mem_run.mp hi
    rw [mem_run]
    omega
  · simp [userTextBase, ramEnd]
  · simp [userTextBase, pageSize]
    omega

/-- No frame is left for the stack: the table of the new address space is given back. -/
theorem spawn_rolls_back_noStack : ∃ m loaded, Sound m ∧ Placed m loaded ∧
    m.mmu.newAddrSpace.isSome ∧ m.pages.frames = ∅ ∧ (m.spawnUser (some 1) loaded).1 = false ∧
    (m.spawnUser (some 1) loaded).2.pages.frames = run (loaded.imagePhys / pageSize) 1 ∧
    (m.spawnUser (some 1) loaded).2.mmu.spaceAlloc = m.mmu.spaceAlloc ∧
    (m.spawnUser (some 1) loaded).2.spaces = m.spaces := by
  obtain ⟨m, n, hsound, hempty, hspace, hplaced⟩ := exists_placed
  obtain ⟨⟨t, mmu⟩, hnew⟩ := Option.isSome_iff_exists.mp hspace
  have hstack : m.pages.allocContiguous stackPageCount = (none, m.pages) := by
    rcases hsound.isolated.managed.allocContiguous (k := stackPageCount) (by decide)
      with hnone | ⟨n, p', -, hh⟩
    · exact hnone
    · have hfree := hh.free n (mem_run.mpr ⟨Nat.le_refl n, Nat.lt_add_of_pos_right (by decide)⟩)
      rw [hempty] at hfree
      exact absurd hfree (Set.notMem_empty n)
  have hfail : ∀ loaded, (m.spawnUser (some 1) loaded).1 = false := by
    intro loaded
    unfold spawnUser
    simp only [hnew, hstack]
  obtain ⟨hframes, halloc, -, hspaces⟩ :=
    spawn_rolls_back hsound hplaced (some 1) (Prod.ext (hfail _) rfl)
  rw [hempty, Set.empty_union] at hframes
  exact ⟨m, _, hsound, hplaced, hspace, hempty, hfail _, hframes, halloc, hspaces⟩

/-- The free frames are not those of before the call. -/
theorem spawn_frees_image : ∃ m loaded, Sound m ∧ Placed m loaded ∧
    (m.spawnUser none loaded).1 = false ∧
      (m.spawnUser none loaded).2.pages.frames ≠ m.pages.frames := by
  obtain ⟨m, n, hsound, hempty, -, hplaced⟩ := exists_placed
  refine ⟨m, _, hsound, hplaced, rfl, fun heq => Set.notMem_empty n ?_⟩
  rw [← hempty, ← heq]
  obtain ⟨n', hphys, hspare⟩ := hplaced.frames
  cases Nat.eq_of_mul_eq_mul_right (by decide) hphys
  exact ((hsound.isolated.freeUnspawnedImage hphys hspare).frames n).mpr
    (.inr ⟨Nat.le_refl n, Nat.lt_succ_self n⟩)

end Memory

end Thumos
