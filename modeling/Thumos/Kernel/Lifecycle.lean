import Thumos.Kernel.Sound

/-!
# Death and descent

Two laws of process life cycles, and the runs in which they hold.

A dead process stays as it is until its slot is freed, provided that no process
kills itself by a signal: `deliver_signal_to` marks the caller dead and returns
to it.

The parent link of a process is a slot number.  It names the process that
created it as long as no process dies before its children.

Both are proved from what a move does to the life of a process: its parent, the
number it was created with, the number of its creator, and whether it is dead.
-/

namespace Thumos

structure Life where
  parent : Option Pid
  birth : Nat
  creator : Nat
  dead : Bool

def Process.life (P : Process) : Life := ⟨P.parent, P.birth, P.creator, P.state = .dead⟩

namespace Kernel

open GuardedRun Slots Option

variable {k k' : Kernel} {p : Pid} {P : Process}

def lives (k : Kernel) : Slots maxProcs Life := fun p => (k.procs p).map Process.life

theorem lives_eq (h : k.procs p = some P) : k.lives p = some P.life := by
  rw [lives, h]
  rfl

variable {Q : Process} {e : KernelEvent}

theorem lives_of_put (h : k'.procs = k.procs.put p Q) :
    k'.lives = k.lives.put p Q.life := by
  funext q
  rw [lives, h]
  by_cases hq : q = p
  · subst hq
    simp
  · rw [put_of_ne hq, put_of_ne hq, lives]

theorem lives_of_same (hP : k.procs p = some P) (h : k'.procs = k.procs.put p Q)
    (hlife : Q.life = P.life) : k'.lives = k.lives := by
  rw [lives_of_put h, hlife, put_same (lives_eq hP)]

theorem life_of_state (s : ProcState) (hQ : Q = { P with state := s })
    (hs : s = .dead ↔ P.state = .dead) : Q.life = P.life := by
  subst hQ
  simp [Process.life, hs]

theorem scheduled_lives (k : Kernel) : k.scheduled.lives = k.lives := by
  funext p
  rw [lives, scheduled_procs, map_map, lives]
  congr 1
  funext P
  rw [Function.comp_apply, woken]
  split
  · rename_i h
    exact life_of_state .ready rfl (by simp [h.1])
  · rfl

theorem reschedule_lives (hP : k.procs k.current = some P) : k.reschedule.lives = k.lives := by
  rcases reschedule_cases hP with ⟨heq, -⟩ | ⟨next, Q, hne, hQ, hready, heq⟩
  · rw [heq, scheduled_lives]
  have hcur := scheduled_procs_current hP
  have hne' : next ≠ k.scheduled.current := hne
  rw [heq, ← scheduled_lives k]
  generalize k.scheduled = k₁ at *
  have hout : ({ k₁ with procs := k₁.procs.put k₁.current { woken k.ticks P with
      state := if (woken k.ticks P).state = .running then .ready else (woken k.ticks P).state } } :
      Kernel).lives = k₁.lives := by
    refine lives_of_same hcur rfl (life_of_state _ rfl ?_)
    split
    · rename_i h
      simp [h]
    · exact .rfl
  rw [← hout]
  exact lives_of_same (p := next) ((put_of_ne hne').trans hQ) rfl
    (life_of_state .running rfl (by simp [hready]))

/-! ## The dead -/

theorem Sound.dead_ne_current (h : Sound False k) (hP : k.procs p = some P)
    (hdead : P.state = .dead) : p ≠ k.current := by
  rintro rfl
  rcases h.running P hP with hs | ⟨hfalse, -⟩
  · rw [hdead] at hs
    cases hs
  · exact hfalse

theorem reschedule_dead {C : Process} (hC : k.procs k.current = some C) (hp : p ≠ k.current)
    (hP : k.procs p = some P) (hdead : P.state = .dead) : k.reschedule.procs p = some P := by
  have hwoken : k.scheduled.procs p = some P := by
    rw [scheduled_procs, hP, map_some, woken_of_ne (by simp [hdead])]
  rcases reschedule_cases hC with ⟨heq, -⟩ | ⟨next, Q, hne, hQ, hready, heq⟩
  · rw [heq, hwoken]
  have hnext : p ≠ next := by
    rintro rfl
    rw [hwoken] at hQ
    cases hQ
    rw [hdead] at hready
    cases hready
  rw [heq]
  exact (switched_other (k := k.scheduled) hnext hp).trans hwoken

theorem Sound.dead_move {π : Policy} (h : Sound False k) (hmove : Move π k k')
    (hreap : ¬π.reaps p) (hP : k.procs p = some P) (hdead : P.state = .dead) :
    k'.procs p = some P := by
  have hcur := h.dead_ne_current hP hdead
  cases hmove with
  | aside | mail => exact hP
  | @touch q Q Q' files hq hQ hlive hsame =>
    refine (put_of_ne ?_).trans hP
    rintro rfl
    rw [hP] at hQ
    cases hQ
    rcases hlive with hc | hne
    · exact hcur hc
    · exact hne hdead
  | reschedule =>
    obtain ⟨C, hC⟩ := h.occupied
    exact reschedule_dead hC hcur hP hdead
  | sleep wakeTick h0 =>
    obtain ⟨C, hC⟩ := h.occupied
    rw [h.sleepUntil_eq h0 hC]
    exact reschedule_dead (put_self ..) hcur ((put_of_ne hcur).trans hP) hdead
  | block addr h0 hC hi =>
    exact reschedule_dead (put_self ..) hcur ((put_of_ne hcur).trans hP) hdead
  | @terminate q Q hq hQ hlive =>
    rw [terminate_eq hQ]
    refine (put_of_ne ?_).trans hP
    rintro rfl
    rw [hP] at hQ
    cases hQ
    exact hlive hdead
  | exit status h0 hdie =>
    obtain ⟨C, hC⟩ := h.occupied
    rw [exitCurrent, exitCleanup_eq hC]
    exact reschedule_dead (put_self ..) hcur ((put_of_ne hcur).trans hP) hdead
  | fault kind h0 hdie =>
    obtain ⟨C, hC⟩ := h.occupied
    obtain ⟨supervisor, heq⟩ := notifyFault_eq hC kind
    rw [faultExitCurrent, exitCurrent, heq, exitCleanup_eq (put_self ..)]
    refine reschedule_dead (put_self ..) hcur ?_ hdead
    exact (put_of_ne hcur).trans ((put_of_ne hcur).trans hP)
  | @spawn C slot root hslot hC | @fork C slot root hslot hC =>
    refine (put_of_ne ?_).trans hP
    rintro rfl
    rw [hP] at hslot
    cases hslot
  | @reap q Q hQ hparent hdead' hq =>
    refine (clear_of_ne ?_).trans hP
    rintro rfl
    exact hreap hq
  | @wake i w hw =>
    obtain ⟨Q, hQ, hblocked, -⟩ := h.waiting i w hw
    rw [setState_eq (k := { k with waiters := k.waiters.clear i }) hQ]
    refine (put_of_ne ?_).trans hP
    rintro rfl
    rw [hP] at hQ
    cases hQ
    rw [hdead] at hblocked
    cases hblocked

def NoSelfKill (k : Kernel) (e : KernelEvent) : Prop := k.signalled e ≠ some k.current

instance (k : Kernel) (e : KernelEvent) : Decidable (NoSelfKill k e) :=
  inferInstanceAs (Decidable (_ ≠ _))

def noLinger (e : KernelEvent) : Policy := ⟨False, fun _ _ => True, reaps e, True, True⟩

theorem respects_noLinger (h : NoSelfKill k e) : Respects (noLinger e) k e :=
  ⟨h, fun _ _ _ _ => trivial, fun _ => id, fun _ => trivial, fun _ => trivial⟩

theorem Sound.step_noSelfKill (h : Sound False k) (he : NoSelfKill k e) :
    Sound False (k.step e) :=
  h.moves (h.step_moves (respects_noLinger he)) id

theorem Sound.dead_moves {π : Policy} (h : Sound False k) (hmoves : Moves π k k')
    (hlinger : ¬π.linger) (hreap : ¬π.reaps p) (hP : k.procs p = some P) (hdead : P.state = .dead) :
    k'.procs p = some P := by
  refine (h.moves_keep (I := fun k => k.procs p = some P) hP hmoves hlinger ?_).2
  exact fun _ _ hk hP hmove => hk.dead_move hmove hreap hP hdead

theorem waitpid_procs (k : Kernel) (p q : Pid) :
    (k.waitpid q).2.procs p = k.procs p ∨ (k.waitpid q).2.procs p = none := by
  rw [waitpid]
  split
  · exact .inl rfl
  split
  · exact .inl rfl
  split
  · exact .inl rfl
  by_cases hp : p = q
  · subst hp
    exact .inr (clear_self ..)
  · exact .inl (clear_of_ne hp)

theorem dispatch_waitpid {pid : UInt32} (h : pidOf pid = some p) :
    (k.dispatch (.waitpid pid)).2 = (k.waitpid p).2 := by
  rw [dispatch, h]
  dsimp only
  split
  · rename_i heq
    rw [heq]
  · rename_i heq
    rw [heq]

theorem reapDeadChildren_procs (k : Kernel) (p : Pid) :
    k.reapDeadChildren.procs p = k.procs p ∨ k.reapDeadChildren.procs p = none := by
  rw [reapDeadChildren]
  generalize List.finRange maxProcs = l
  induction l generalizing k with
  | nil => exact .inl rfl
  | cons q rest ih =>
    rw [List.foldl_cons]
    rcases ih (k.waitpid q).2 with heq | heq
    · rw [heq]
      exact waitpid_procs k p q
    · exact .inr heq

theorem reap_procs (he : reaps e p) :
    (k.step e).procs p = k.procs p ∨ (k.step e).procs p = none := by
  rcases e with c | t | kind | ⟨timer, frame⟩
  · cases c with
    | waitpid pid =>
      rw [step]
      split
      · exact .inl rfl
      · rw [dispatch_waitpid he]
        exact waitpid_procs k p p
    | _ => exact he.elim
  · rw [step]
    split
    · cases t with
      | reap => exact reapDeadChildren_procs k p
      | reapOne q => exact waitpid_procs k p q
      | _ => exact he.elim
    · exact .inl rfl
  · exact he.elim
  · exact he.elim

theorem sound_of_noSelfKill {tableBase : Nat} (h : Runs step NoSelfKill (boot tableBase) k) :
    Sound False k :=
  h.invariant (I := Sound False) (sound_boot tableBase) fun _ _ hk => hk.step_noSelfKill

/-- A dead process is not run, and its entry, descriptors and signals included,
stays as it is until an event that asks for its status frees the slot. -/
theorem dead_until_reaped {tableBase : Nat} (h : Runs step NoSelfKill (boot tableBase) k)
    (h' : Runs step NoSelfKill k k') (hP : k.procs p = some P) (hdead : P.state = .dead) :
    k'.procs p = some P ∧ p ≠ k'.current ∨
      ∃ m e, Runs step NoSelfKill k m ∧ m.procs p = some P ∧ p ≠ m.current ∧
        NoSelfKill m e ∧ reaps e p ∧ (m.step e).procs p = none ∧
        Runs step NoSelfKill (m.step e) k' := by
  have hsound : ∀ m, Runs step NoSelfKill k m → Sound False m := fun m hm =>
    hm.invariant (I := Sound False) (sound_of_noSelfKill h) fun _ _ hk => hk.step_noSelfKill
  induction h' with
  | start => exact .inl ⟨hP, (sound_of_noSelfKill h).dead_ne_current hP hdead⟩
  | @event m e hm hguard ih =>
    have hnext := hsound _ (.event e hm hguard)
    rcases ih with ⟨hm_procs, hm_cur⟩ | ⟨m₀, e₀, h₀, hprocs, hcur, hguard₀, hreap, hfree, hrest⟩
    · by_cases hreap : reaps e p
      · rcases reap_procs (k := m) hreap with hsame | hfree
        · rw [hm_procs] at hsame
          exact .inl ⟨hsame, hnext.dead_ne_current hsame hdead⟩
        · exact .inr ⟨m, e, hm, hm_procs, hm_cur, hguard, hreap, hfree, .start⟩
      · have hsame := (hsound m hm).dead_moves ((hsound m hm).step_moves (respects_noLinger hguard))
          id hreap hm_procs hdead
        exact .inl ⟨hsame, hnext.dead_ne_current hsame hdead⟩
    · exact .inr ⟨m₀, e₀, h₀, hprocs, hcur, hguard₀, hreap, hfree, .event e hrest hguard⟩

def firstProcess : List KernelEvent :=
  [.service (.launch none (some 1)), .service .enableScheduling, .irq true none]

def killSecond : List KernelEvent :=
  firstProcess ++ [.call (.fork (some 2)), .call (.kill 2 9)]

theorem dead_until_reaped_killSecond :
    ∃ k : Kernel, ∃ P, k.procs 2 = some P ∧ P.state = .dead ∧
      ((k.step (.call .yield)).procs 2 = some P ∨ ∃ (m : Kernel) (e : KernelEvent),
        m.procs 2 = some P ∧ reaps e 2) := by
  have hguarded : Guarded step NoSelfKill (boot 0) killSecond := by decide +kernel
  have hrun := Runs.start.foldl hguarded
  have hdead : ((killSecond.foldl step (boot 0)).procs 2).map Process.state = some .dead := by
    decide +kernel
  obtain ⟨P, hP, hstate⟩ := map_eq_some_iff.mp hdead
  have hnext : NoSelfKill (killSecond.foldl step (boot 0)) (.call .yield) := by decide +kernel
  refine ⟨_, P, hP, hstate, ?_⟩
  rcases dead_until_reaped hrun (.event (.call .yield) .start hnext) hP hstate with
    hkept | ⟨m, e, -, hprocs, -, -, hreap, -⟩
  · exact .inl hkept.1
  · exact .inr ⟨m, e, hprocs, hreap⟩

def killSelf : List KernelEvent := firstProcess ++ [.call (.kill 1 9)]

/-- A process that kills itself is dead, goes on, sleeps, and runs again. -/
theorem killed_caller_runs_on :
    ∃ k : Kernel, Runs step (fun _ _ => True) (boot 0) k ∧
      (k.procs 1).map Process.state = some .dead ∧
      ((k.step (.call (.sleep 10))).procs 1).map Process.state = some .sleeping ∧
      (((k.step (.call (.sleep 10))).step (.irq true none)).procs 1).map Process.state =
        some .running := by
  refine ⟨killSelf.foldl step (boot 0), Runs.start.foldl (.of_forall (fun _ _ => trivial) _ _), ?_,
    ?_, ?_⟩ <;> decide +kernel

/-! ## Descent -/

structure Numbered (table : Slots maxProcs Life) (births : Nat) : Prop where
  fresh : ∀ p l, table p = some l → l.birth < births
  unique : ∀ p q l m, table p = some l → table q = some m → l.birth = m.birth → p = q

/-- Only PID 0 has no parent, and a parent link leads to the creator, which lives. -/
structure Lineage (table : Slots maxProcs Life) (births : Nat) : Prop extends
    Numbered table births where
  root : ∀ p l, table p = some l → l.parent = none → p = 0
  parent : ∀ p l q, table p = some l → l.parent = some q →
    ∃ m, table q = some m ∧ m.dead = false ∧ m.birth = l.creator

section Table

variable {table : Slots maxProcs Life} {births : Nat} {l : Life}

theorem Numbered.die (h : Numbered table births) (hl : table p = some l) :
    Numbered (table.put p { l with dead := true }) births where
  fresh := by
    intro q m hm
    rcases put_eq_some.mp hm with ⟨-, rfl⟩ | ⟨-, hm⟩
    · exact h.fresh p l hl
    · exact h.fresh q m hm
  unique := by
    intro q r m n hm hn hbirth
    rcases put_eq_some.mp hm with ⟨hq, rfl⟩ | ⟨-, hm'⟩
    · rcases put_eq_some.mp hn with ⟨hr, rfl⟩ | ⟨-, hn'⟩
      · rw [hq, hr]
      · rw [hq]
        exact h.unique p r l n hl hn' hbirth
    · rcases put_eq_some.mp hn with ⟨hr, rfl⟩ | ⟨-, hn'⟩
      · rw [hr]
        exact h.unique q p m l hm' hl hbirth
      · exact h.unique q r m n hm' hn' hbirth

theorem Numbered.create {slot : Pid} (h : Numbered table births) (hl : l.birth = births) :
    Numbered (table.put slot l) (births + 1) where
  fresh := by
    intro q m hm
    rcases put_eq_some.mp hm with ⟨-, rfl⟩ | ⟨-, hm⟩
    · exact hl ▸ Nat.lt_succ_self _
    · exact Nat.lt_succ_of_lt (h.fresh q m hm)
  unique := by
    intro q r m n hm hn hbirth
    rcases put_eq_some.mp hm with ⟨hq, rfl⟩ | ⟨-, hm⟩
    · rcases put_eq_some.mp hn with ⟨hr, rfl⟩ | ⟨-, hn⟩
      · rw [hq, hr]
      · exact absurd (hl.symm.trans hbirth) (h.fresh r n hn).ne'
    · rcases put_eq_some.mp hn with ⟨-, rfl⟩ | ⟨-, hn⟩
      · exact absurd (hbirth.trans hl) (h.fresh q m hm).ne
      · exact h.unique q r m n hm hn hbirth

theorem Numbered.reap (h : Numbered table births) : Numbered (table.clear p) births where
  fresh := fun q m hm => h.fresh q m (clear_eq_some.mp hm).2
  unique := fun q r m n hm hn =>
    h.unique q r m n (clear_eq_some.mp hm).2 (clear_eq_some.mp hn).2

theorem Lineage.die (h : Lineage table births) (hl : table p = some l)
    (hchild : ∀ q m, table q = some m → m.parent ≠ some p) :
    Lineage (table.put p { l with dead := true }) births where
  toNumbered := h.toNumbered.die hl
  root := by
    intro q m hm hnone
    rcases put_eq_some.mp hm with ⟨rfl, rfl⟩ | ⟨-, hm⟩
    · exact h.root _ l hl hnone
    · exact h.root q m hm hnone
  parent := by
    intro q m r hm hparent
    have hlink : ∃ n, table q = some n ∧ n.parent = some r ∧ n.creator = m.creator := by
      rcases put_eq_some.mp hm with ⟨rfl, rfl⟩ | ⟨-, hm⟩
      · exact ⟨l, hl, hparent, rfl⟩
      · exact ⟨m, hm, hparent, rfl⟩
    obtain ⟨n, hn, hnparent, hcreator⟩ := hlink
    obtain ⟨o, ho, hlive⟩ := h.parent q n r hn hnparent
    rw [← hcreator]
    refine ⟨o, (put_of_ne ?_).trans ho, hlive⟩
    rintro rfl
    exact hchild q n hn hnparent

theorem Lineage.create {slot cur : Pid} {c : Life} (h : Lineage table births)
    (hslot : table slot = none) (hcur : table cur = some c) (hlive : c.dead = false) :
    Lineage (table.put slot ⟨some cur, births, c.birth, false⟩) (births + 1) := by
  have hne : ∀ q m, table q = some m → q ≠ slot := by
    rintro q m hm rfl
    rw [hslot] at hm
    cases hm
  refine ⟨h.toNumbered.create rfl, ?_, ?_⟩
  · intro q m hm hnone
    rcases put_eq_some.mp hm with ⟨-, rfl⟩ | ⟨-, hm⟩
    · cases hnone
    · exact h.root q m hm hnone
  · intro q m r hm hparent
    rcases put_eq_some.mp hm with ⟨-, rfl⟩ | ⟨-, hm⟩
    · cases hparent
      exact ⟨c, (put_of_ne (hne _ c hcur)).trans hcur, hlive, rfl⟩
    · obtain ⟨n, hn, hrest⟩ := h.parent q m r hm hparent
      exact ⟨n, (put_of_ne (hne r n hn)).trans hn, hrest⟩

theorem Lineage.reap (h : Lineage table births) (hl : table p = some l) (hdead : l.dead = true) :
    Lineage (table.clear p) births where
  toNumbered := h.toNumbered.reap
  root := fun q m hm => h.root q m (clear_eq_some.mp hm).2
  parent := by
    intro q m r hm hparent
    obtain ⟨n, hn, hlive, hbirth⟩ := h.parent q m r (clear_eq_some.mp hm).2 hparent
    refine ⟨n, clear_eq_some.mpr ⟨?_, hn⟩, hlive, hbirth⟩
    rintro rfl
    rw [hl] at hn
    cases hn
    rw [hdead] at hlive
    cases hlive

end Table

def Childless (k : Kernel) (p : Pid) : Prop := ∀ q Q, k.procs q = some Q → Q.parent ≠ some p

instance (k : Kernel) (p : Pid) : Decidable (Childless k p) :=
  decidable_of_iff (∀ q, (k.procs q).all fun Q => Q.parent ≠ some p) <| by
    simp [Childless, Option.all_eq_true]

theorem SameParents.childless (h : SameParents k k') (hp : Childless k p) : Childless k' p := by
  intro q Q hQ
  have hparent := h q
  rw [hQ, map_some] at hparent
  obtain ⟨R, hR, hRQ⟩ := map_eq_some_iff.mp hparent.symm
  rw [← hRQ]
  exact hp q R hR

def Descent (k : Kernel) : Prop := Lineage k.lives k.births

/-- What a move does to the lives, the numbers of creation and the inboxes. -/
inductive LifeMove (π : Policy) (k k' : Kernel) : Prop where
  | same (hlives : k'.lives = k.lives) (hbirths : k'.births = k.births)
      (hmail : k'.inboxes = k.inboxes ∨ π.mails) : LifeMove π k k'
  | die {p : Pid} {l : Life} (hl : k.lives p = some l)
      (hlives : k'.lives = k.lives.put p { l with dead := true }) (hbirths : k'.births = k.births)
      (hmay : π.mayDie k p) (hmail : k'.inboxes = Function.update k.inboxes p [] ∨ π.kills) :
      LifeMove π k k'
  | create {slot : Pid} {c : Life} (hslot : k.lives slot = none) (hcur : k.lives k.current = some c)
      (hlive : c.dead = false)
      (hlives : k'.lives = k.lives.put slot ⟨some k.current, k.births, c.birth, false⟩)
      (hbirths : k'.births = k.births + 1) (hmail : k'.inboxes = k.inboxes) : LifeMove π k k'
  | reap {p : Pid} {l : Life} (hl : k.lives p = some l) (hdead : l.dead = true)
      (hlives : k'.lives = k.lives.clear p) (hbirths : k'.births = k.births)
      (hmail : k'.inboxes = k.inboxes) : LifeMove π k k'

theorem LifeMove.reschedule {π : Policy} {k₁ : Kernel} (h : LifeMove π k k₁)
    (hP : k₁.procs k₁.current = some P) : LifeMove π k k₁.reschedule := by
  have hlives := reschedule_lives hP
  have hbirths : k₁.reschedule.births = k₁.births ∧ k₁.reschedule.inboxes = k₁.inboxes := by
    rcases reschedule_cases hP with ⟨heq, -⟩ | ⟨next, Q, -, -, -, heq⟩ <;>
      rw [heq] <;> exact ⟨rfl, rfl⟩
  obtain ⟨hbirths, hmail⟩ := hbirths
  cases h with
  | same h₁ h₂ h₃ => exact .same (hlives.trans h₁) (hbirths.trans h₂) (hmail ▸ h₃)
  | die hl h₁ h₂ hmay h₃ => exact .die hl (hlives.trans h₁) (hbirths.trans h₂) hmay (hmail ▸ h₃)
  | create hslot hcur hlive h₁ h₂ h₃ =>
    exact .create hslot hcur hlive (hlives.trans h₁) (hbirths.trans h₂) (hmail.trans h₃)
  | reap hl hdead h₁ h₂ h₃ =>
    exact .reap hl hdead (hlives.trans h₁) (hbirths.trans h₂) (hmail.trans h₃)

theorem Sound.lifeMove {π : Policy} (h : Sound False k) (hmove : Move π k k') :
    LifeMove π k k' := by
  obtain ⟨C, hC⟩ := h.occupied
  have hrunning : C.state = .running := (h.running C hC).resolve_right fun hf => hf.1
  have hlive : C.life.dead = false := by simp [Process.life, hrunning]
  -- an edit of one entry that is no death
  have hedit : ∀ {p P Q} {k₁ : Kernel}, k.procs p = some P → k₁.procs = k.procs.put p Q →
      Q.life = P.life → k₁.births = k.births → k₁.inboxes = k.inboxes → LifeMove π k k₁ :=
    fun hP hprocs hlife hbirths hmail => .same (lives_of_same hP hprocs hlife) hbirths (.inl hmail)
  have hdies : ∀ {p P Q} {k₁ : Kernel}, k.procs p = some P → k₁.procs = k.procs.put p Q →
      Q.life = { P.life with dead := true } → k₁.births = k.births → π.mayDie k p →
      (k₁.inboxes = Function.update k.inboxes p [] ∨ π.kills) → LifeMove π k k₁ :=
    fun hP hprocs hlife => .die (lives_eq hP) (hlife ▸ lives_of_put hprocs)
  cases hmove with
  | aside => exact .same rfl rfl (.inl rfl)
  | mail _ hmails => exact .same rfl rfl (.inr hmails)
  | @touch p P P' files hp hP hl hsame =>
    refine hedit hP rfl ?_ rfl rfl
    simp [Process.life, hsame.state, hsame.parent, hsame.birth, hsame.creator]
  | reschedule => exact LifeMove.reschedule (.same rfl rfl (.inl rfl)) hC
  | sleep wakeTick h0 =>
    rw [h.sleepUntil_eq h0 hC]
    refine LifeMove.reschedule (hedit hC rfl ?_ rfl rfl) (put_self ..)
    simp [Process.life, hrunning]
  | @block P i addr h0 hP hi =>
    rw [hC] at hP
    cases hP
    refine LifeMove.reschedule (hedit hC rfl ?_ rfl rfl) (put_self ..)
    simp [Process.life, hrunning]
  | @terminate p P hp hP hl hself hmay hkill =>
    rw [terminate_eq hP]
    exact hdies hP rfl rfl rfl hmay (.inr hkill)
  | exit status h0 hmay =>
    rw [exitCurrent, exitCleanup_eq hC]
    exact LifeMove.reschedule (hdies hC rfl rfl rfl hmay (.inl rfl)) (put_self ..)
  | fault kind h0 hmay =>
    obtain ⟨supervisor, heq⟩ := notifyFault_eq hC kind
    rw [faultExitCurrent, exitCurrent, heq, exitCleanup_eq (put_self ..)]
    exact LifeMove.reschedule (hdies hC (put_put ..) rfl rfl hmay (.inl rfl)) (put_self ..)
  | @spawn P slot root hslot hP | @fork P slot root hslot hP =>
    rw [hC] at hP
    cases hP
    refine .create (by rw [lives, hslot]; rfl) (lives_eq hC) hlive ?_ rfl rfl
    rw [lives_of_put (k := k) rfl]
    rfl
  | @reap p P hP hparent hdead hreap =>
    refine .reap (lives_eq hP) (by simp [Process.life, hdead]) ?_ rfl rfl
    funext q
    by_cases hq : q = p
    · subst hq
      simp [lives]
    · simp [lives, clear_of_ne hq]
  | @wake i w hw =>
    obtain ⟨P, hP, hblocked, -⟩ := h.waiting i w hw
    rw [setState_eq (k := { k with waiters := k.waiters.clear i }) hP]
    refine hedit hP rfl ?_ rfl rfl
    simp [Process.life, hblocked]

theorem Sound.descent_move {π : Policy} (h : Sound False k) (hmove : Move π k k')
    (hdie : ∀ p, π.mayDie k p → Childless k p) (hdesc : Descent k) : Descent k' := by
  rw [Descent]
  cases h.lifeMove hmove with
  | same hlives hbirths =>
    rw [hlives, hbirths]
    exact hdesc
  | die hl hlives hbirths hmay =>
    rw [hlives, hbirths]
    refine Lineage.die hdesc hl fun q m hm => ?_
    obtain ⟨Q, hQ, rfl⟩ := map_eq_some_iff.mp hm
    exact hdie _ hmay q Q hQ
  | create hslot hcur hlive hlives hbirths =>
    rw [hlives, hbirths]
    exact Lineage.create hdesc hslot hcur hlive
  | reap hl hdead hlives hbirths =>
    rw [hlives, hbirths]
    exact Lineage.reap hdesc hl hdead

/-- No process is killed by a signal of its own, and a process dies only when no
process has it as its parent. -/
def Orderly (k : Kernel) (e : KernelEvent) : Prop :=
  NoSelfKill k e ∧ ∀ p, k.signalled e = some p ∨ k.leaving e = some p → Childless k p

instance (k : Kernel) (e : KernelEvent) : Decidable (Orderly k e) :=
  inferInstanceAs (Decidable (_ ∧ ∀ _ : Pid, _ → _))

def orderly : Policy := ⟨False, Childless, fun _ => True, True, True⟩

theorem respects_orderly (h : Orderly k e) : Respects orderly k e :=
  ⟨h.1, fun _ p hsame hp => hsame.childless (h.2 p hp), fun _ _ => trivial, fun _ => trivial,
    fun _ => trivial⟩

theorem boot_lives {tableBase : Nat} {l : Life} (hl : (boot tableBase).lives p = some l) :
    p = 0 ∧ (kinit tableBase).life = l := by
  obtain ⟨P, hP, rfl⟩ := map_eq_some_iff.mp hl
  obtain ⟨rfl, rfl⟩ := boot_procs.mp hP
  exact ⟨rfl, rfl⟩

theorem numbered_boot (tableBase : Nat) :
    Numbered (boot tableBase).lives (boot tableBase).births where
  fresh := by
    intro p l hl
    obtain ⟨-, rfl⟩ := boot_lives hl
    exact zero_lt_one
  unique := by
    intro p q l m hl hm _
    rw [(boot_lives hl).1, (boot_lives hm).1]

theorem descent_of_orderly {tableBase : Nat} (h : Runs step Orderly (boot tableBase) k) :
    Sound False k ∧ Descent k := by
  refine h.invariant (I := fun k => Sound False k ∧ Descent k) ⟨sound_boot tableBase, ?_⟩ ?_
  · refine ⟨numbered_boot tableBase, fun p l hl _ => (boot_lives hl).1, fun p l q hl hparent => ?_⟩
    obtain ⟨-, rfl⟩ := boot_lives hl
    cases hparent
  · rintro k e ⟨hsound, hdesc⟩ he
    exact hsound.moves_keep hdesc (hsound.step_moves (respects_orderly he)) id
      fun _ _ hk hdesc hmove => hk.descent_move hmove (fun _ => id) hdesc

/-- In every state of an orderly run, a parent link names the process that
created the child, `waitpid` answers to the creator only, and the creator of a
dead process is there to ask for its status. -/
theorem parent_links_truthful {tableBase : Nat} (h : Runs step Orderly (boot tableBase) k) :
    (∀ p q P Q, k.procs p = some P → k.procs q = some Q → P.birth = Q.birth → p = q) ∧
      (∀ p P q, k.procs p = some P → P.parent = some q →
        ∃ Q, k.procs q = some Q ∧ Q.birth = P.creator) ∧
      (∀ p status, (k.waitpid p).1 = some status → ∃ P C, k.procs p = some P ∧ P.state = .dead ∧
        k.procs k.current = some C ∧ P.creator = C.birth) ∧
      ∀ p P, k.procs p = some P → P.state = .dead → ∃ q Q, k.procs q = some Q ∧
        Q.state ≠ .dead ∧ Q.birth = P.creator ∧
        (({ k with current := q } : Kernel).waitpid p).1 = some P.exitStatus := by
  obtain ⟨hsound, hdesc⟩ := descent_of_orderly h
  have hparent : ∀ p P q, k.procs p = some P → P.parent = some q →
      ∃ Q, k.procs q = some Q ∧ Q.state ≠ .dead ∧ Q.birth = P.creator := by
    intro p P q hP hq
    obtain ⟨m, hm, hlive, hbirth⟩ := hdesc.parent p P.life q (lives_eq hP) hq
    obtain ⟨Q, hQ, rfl⟩ := map_eq_some_iff.mp hm
    exact ⟨Q, hQ, of_decide_eq_false hlive, hbirth⟩
  refine ⟨fun p q P Q hP hQ hbirth => ?_, fun p P q hP hq => ?_, fun p status hs => ?_,
    fun p P hP hdead => ?_⟩
  · exact hdesc.unique p q P.life Q.life (lives_eq hP) (lives_eq hQ) hbirth
  · obtain ⟨Q, hQ, -, hbirth⟩ := hparent p P q hP hq
    exact ⟨Q, hQ, hbirth⟩
  · rw [waitpid] at hs
    split at hs
    · cases hs
    rename_i P hP
    split at hs
    · cases hs
    rename_i hq
    split at hs
    · cases hs
    · rename_i hdead
      obtain ⟨C, hC, -, hbirth⟩ := hparent p P _ hP (not_not.mp hq)
      exact ⟨P, C, hP, not_not.mp hdead, hC, hbirth.symm⟩
  · cases hq : P.parent with
    | none =>
      -- PID 0 has no parent and is not dead
      obtain rfl := hdesc.root p P.life (lives_eq hP) hq
      obtain ⟨P₀, hP₀, -, -, hstate⟩ := hsound.kinit
      rw [hP] at hP₀
      cases hP₀
      rw [hdead] at hstate
      split at hstate <;> cases hstate
    | some q =>
      obtain ⟨Q, hQ, hlive, hbirth⟩ := hparent p P q hP hq
      refine ⟨q, Q, hQ, hlive, hbirth, ?_⟩
      simp [waitpid, hP, hq, hdead]

theorem parent_links_truthful_killSecond :
    ∃ k : Kernel, ∃ P, k.procs 2 = some P ∧ P.state = .dead ∧ ∃ q Q, k.procs q = some Q ∧
      Q.birth = P.creator ∧ (({ k with current := q } : Kernel).waitpid 2).1 =
        some P.exitStatus := by
  have hguarded : Guarded step Orderly (boot 0) killSecond := by decide +kernel
  have hdead : ((killSecond.foldl step (boot 0)).procs 2).map Process.state = some .dead := by
    decide +kernel
  obtain ⟨P, hP, hstate⟩ := map_eq_some_iff.mp hdead
  obtain ⟨-, -, -, hreap⟩ := parent_links_truthful (Runs.start.foldl hguarded)
  obtain ⟨q, Q, hQ, -, hbirth, hwait⟩ := hreap 2 P hP hstate
  exact ⟨_, P, hP, hstate, q, Q, hQ, hbirth, hwait⟩

def reuseParentSlot : List KernelEvent :=
  firstProcess ++ [.call (.fork (some 2)), .call (.exit 0), .irq true none, .service .reap,
    .service (.launch none (some 3))]

/-- The parent link of the second process then names the third. -/
theorem parent_slot_reused :
    ∃ k : Kernel, Runs step (fun _ _ => True) (boot 0) k ∧
      (k.procs 2).map (fun P => (P.parent, P.creator)) = some (some 1, 1) ∧
      (k.procs 1).map Process.birth = some 3 := by
  refine ⟨reuseParentSlot.foldl step (boot 0),
    Runs.start.foldl (.of_forall (fun _ _ => trivial) _ _), ?_, ?_⟩ <;> decide +kernel

end Kernel

end Thumos
