import Thumos.Kernel.Sound

/-!
# Runs of the futex queue

In every state that the machine reaches, the waiter slots are the blocked
processes, one slot for each.  A wake takes the first matching slots in the
order of the table, so that it makes as many processes ready as were asked for
and as there are, and touches no others.
-/

namespace Thumos

namespace Kernel

open GuardedRun List

variable {k : Kernel} {addr : UInt32} {space : Nat}

def waitsAt (k : Kernel) (addr : UInt32) (space : Nat) (i : Fin maxFutexWaiters) : Bool :=
  (k.waiters i).any fun w => w.addr = addr ∧ w.addressSpace = space

def waitersOn (k : Kernel) (addr : UInt32) (space : Nat) : Nat :=
  (List.finRange maxFutexWaiters).countP (k.waitsAt addr space)

def stateOf (k : Kernel) (p : Pid) : Option ProcState := (k.procs p).map Process.state

def WaitsIn (k : Kernel) (slots : List (Fin maxFutexWaiters)) (p : Pid) : Prop :=
  ∃ i ∈ slots, ∃ w, k.waiters i = some w ∧ w.pid = p

theorem setState_procs (k : Kernel) (p q : Pid) (state : ProcState) : (k.setState q state).procs p =
      if p = q then (k.procs p).map fun P => { P with state } else k.procs p := by
  rw [setState, modify]
  by_cases h : p = q
  · subst h
    cases hP : k.procs p with
    | none => simp [hP]
    | some P => simp
  · cases hQ : k.procs q with
    | none => simp [h]
    | some Q => simp [h, Slots.put_of_ne h]

theorem setState_waiters (k : Kernel) (q : Pid) (state : ProcState) :
    (k.setState q state).waiters = k.waiters := by
  rw [setState, modify]
  split <;> rfl

def taken (k : Kernel) (addr : UInt32) (space : Nat) (l : List (Fin maxFutexWaiters)) (n : Nat) :
    List (Fin maxFutexWaiters) := (l.filter (k.waitsAt addr space)).take n

theorem wakeLoop_spec {maxWake : Nat} (l : List (Fin maxFutexWaiters)) (hl : l.Nodup) (n : Nat)
    (k : Kernel) :
    (wakeLoop addr maxWake space l n k).1 = n + (k.taken addr space l (maxWake - n)).length ∧
      ∀ p, (k.WaitsIn (k.taken addr space l (maxWake - n)) p →
          (wakeLoop addr maxWake space l n k).2.procs p =
            (k.procs p).map fun P => { P with state := .ready }) ∧
        (¬k.WaitsIn (k.taken addr space l (maxWake - n)) p →
          (wakeLoop addr maxWake space l n k).2.procs p = k.procs p) := by
  induction l generalizing n k with
  | nil => simp [wakeLoop, taken, WaitsIn]
  | cons i rest ih =>
    obtain ⟨hi, hrest⟩ := nodup_cons.mp hl
    rw [wakeLoop]
    split
    · rename_i hn
      simp [taken, Nat.sub_eq_zero_of_le hn, WaitsIn]
    cases hw : k.waiters i with
    | none =>
      have htaken : k.taken addr space (i :: rest) (maxWake - n) =
          k.taken addr space rest (maxWake - n) := by
        rw [taken, filter_cons_of_neg (by simp [waitsAt, hw]), taken]
      rw [htaken]
      exact ih hrest n k
    | some w =>
      dsimp only
      split
      · rename_i hmatch
        generalize hk₁ : ({ k with waiters := k.waiters.clear i } : Kernel).setState
          w.pid .ready = k₁
        have hwaiters : ∀ j ∈ rest, k₁.waiters j = k.waiters j := by
          rintro j hj
          rw [← hk₁, setState_waiters]
          exact Slots.clear_of_ne fun h => hi (h ▸ hj)
        have hprocs : ∀ p, k₁.procs p =
            if p = w.pid then (k.procs p).map fun P => { P with state := .ready }
            else k.procs p := by
          intro p
          rw [← hk₁, setState_procs]
        have hsame : k₁.taken addr space rest (maxWake - (n + 1)) =
            k.taken addr space rest (maxWake - (n + 1)) := by
          have hfilter : rest.filter (k₁.waitsAt addr space) = rest.filter (k.waitsAt addr space) :=
            filter_congr fun j hj => by rw [waitsAt, waitsAt, hwaiters j hj]
          rw [taken, taken, hfilter]
        have htaken : k.taken addr space (i :: rest) (maxWake - n) =
            i :: k.taken addr space rest (maxWake - (n + 1)) := by
          rw [taken, filter_cons_of_pos (by simpa [waitsAt, hw] using hmatch),
            show maxWake - n = maxWake - (n + 1) + 1 by omega, take_succ_cons, taken]
        have hmem : ∀ j ∈ k.taken addr space rest (maxWake - (n + 1)), j ∈ rest := fun j hj =>
          mem_of_mem_filter (mem_of_mem_take hj)
        have hwaits : ∀ p, k₁.WaitsIn (k.taken addr space rest (maxWake - (n + 1))) p ↔
            k.WaitsIn (k.taken addr space rest (maxWake - (n + 1))) p := by
          intro p
          refine exists_congr fun j => and_congr_right fun hj => ?_
          rw [hwaiters j (hmem j hj)]
        have hcons : ∀ p, k.WaitsIn (i :: k.taken addr space rest (maxWake - (n + 1))) p ↔
            p = w.pid ∨ k.WaitsIn (k.taken addr space rest (maxWake - (n + 1))) p := by
          simp [WaitsIn, hw, eq_comm]
        obtain ⟨hcount, hrest'⟩ := ih hrest (n + 1) k₁
        simp only [hsame, hwaits, hprocs] at hcount hrest'
        simp only [htaken, hcons]
        refine ⟨by rw [hcount, length_cons]; omega, fun p => ?_⟩
        obtain ⟨hin, hout⟩ := hrest' p
        by_cases hp : p = w.pid
        · refine ⟨fun _ => ?_, fun h => absurd (.inl hp) h⟩
          by_cases hagain : k.WaitsIn (k.taken addr space rest (maxWake - (n + 1))) p
          · rw [hin hagain, if_pos hp, Option.map_map]
            rfl
          · rw [hout hagain, if_pos hp]
        · simp only [hp, false_or, if_false] at hin hout ⊢
          exact ⟨hin, hout⟩
      · rename_i hmatch
        have htaken : k.taken addr space (i :: rest) (maxWake - n) =
            k.taken addr space rest (maxWake - n) := by
          rw [taken, filter_cons_of_neg (by simpa [waitsAt, hw] using hmatch), taken]
        rw [htaken]
        exact ih hrest n k

/-! ## What a wake does -/

structure WakesExactly (k : Kernel) (addr maxWake : UInt32) (space : Nat) : Prop where
  /-- The result is the number of processes whose state changed. -/
  count : (k.wakeWaitersForAddressSpace addr maxWake space).1 =
    (Finset.univ.filter fun p =>
      (k.wakeWaitersForAddressSpace addr maxWake space).2.stateOf p ≠ k.stateOf p).card
  /-- It is the number that was asked for or of those there are. -/
  exact : (k.wakeWaitersForAddressSpace addr maxWake space).1 =
    min maxWake.toNat (k.waitersOn addr space)
  /-- A process whose state changed was blocked on the address and is ready. -/
  woken : ∀ p, (k.wakeWaitersForAddressSpace addr maxWake space).2.stateOf p ≠ k.stateOf p →
    k.stateOf p = some .blocked ∧
      (k.wakeWaitersForAddressSpace addr maxWake space).2.stateOf p = some .ready ∧
      ∃ i w, k.waiters i = some w ∧ w.pid = p ∧ w.addr = addr ∧ w.addressSpace = space

def waiterPid (k : Kernel) (i : Fin maxFutexWaiters) : Pid :=
  ((k.waiters i).map FutexWaiter.pid).getD 0

theorem mem_taken {l : List (Fin maxFutexWaiters)} {n : Nat} {i : Fin maxFutexWaiters}
    (h : i ∈ k.taken addr space l n) :
    ∃ w, k.waiters i = some w ∧ w.addr = addr ∧ w.addressSpace = space := by
  have hwaits := (mem_filter.mp (mem_of_mem_take h)).2
  rw [waitsAt, Option.any_eq_true] at hwaits
  obtain ⟨w, hw, hmatch⟩ := hwaits
  exact ⟨w, hw, of_decide_eq_true hmatch⟩

theorem Parked.wakesExactly (h : Parked k) (addr maxWake : UInt32) (space : Nat) :
    k.WakesExactly addr maxWake space := by
  obtain ⟨hcount, hprocs⟩ := @wakeLoop_spec addr space maxWake.toNat
    (finRange maxFutexWaiters) (nodup_finRange _) 0 k
  have hnodup : (k.taken addr space (finRange maxFutexWaiters) (maxWake.toNat - 0)).Nodup :=
    ((nodup_finRange _).filter _).take
  have hlength : (k.taken addr space (finRange maxFutexWaiters) (maxWake.toNat - 0)).length =
      min maxWake.toNat (k.waitersOn addr space) := by
    rw [taken, length_take, waitersOn, countP_eq_length_filter, Nat.sub_zero]
  have hmem : ∀ i ∈ k.taken addr space (finRange maxFutexWaiters) (maxWake.toNat - 0),
      ∃ w, k.waiters i = some w ∧ w.addr = addr ∧ w.addressSpace = space := fun i => mem_taken
  have hres : k.wakeWaitersForAddressSpace addr maxWake space = wakeLoop addr maxWake.toNat space
      (finRange maxFutexWaiters) 0 k := rfl
  simp only [← hres] at hcount hprocs
  generalize k.taken addr space (finRange maxFutexWaiters) (maxWake.toNat - 0) = S at *
  have hstate : ∀ p, k.WaitsIn S p → k.stateOf p = some .blocked ∧
      (k.wakeWaitersForAddressSpace addr maxWake space).2.stateOf p = some .ready := by
    rintro p hp
    obtain ⟨i, hi, w, hw, rfl⟩ := hp
    obtain ⟨P, hP, hblocked, -⟩ := h.waiting i w hw
    refine ⟨by rw [stateOf, hP, Option.map_some, hblocked], ?_⟩
    rw [stateOf, (hprocs w.pid).1 ⟨i, hi, w, hw, rfl⟩, hP]
    rfl
  have hchanged : ∀ p, (k.wakeWaitersForAddressSpace addr maxWake space).2.stateOf p ≠ k.stateOf p ↔
      k.WaitsIn S p := by
    intro p
    constructor
    · intro hne
      by_contra hp
      exact hne (by rw [stateOf, (hprocs p).2 hp, stateOf])
    · intro hp
      rw [(hstate p hp).1, (hstate p hp).2]
      decide
  have himage : (Finset.univ.filter fun p =>
      (k.wakeWaitersForAddressSpace addr maxWake space).2.stateOf p ≠ k.stateOf p) =
      S.toFinset.image k.waiterPid := by
    ext p
    rw [Finset.mem_filter, hchanged, Finset.mem_image]
    constructor
    · rintro ⟨-, i, hi, w, hw, rfl⟩
      exact ⟨i, mem_toFinset.mpr hi, by simp [waiterPid, hw]⟩
    · rintro ⟨i, hi, rfl⟩
      have hi := mem_toFinset.mp hi
      obtain ⟨w, hw, -⟩ := hmem i hi
      exact ⟨Finset.mem_univ _, i, hi, w, hw, by simp [waiterPid, hw]⟩
  have hinj : Set.InjOn k.waiterPid S.toFinset := by
    intro i hi j hj heq
    obtain ⟨w, hw, -⟩ := hmem i (mem_toFinset.mp hi)
    obtain ⟨w', hw', -⟩ := hmem j (mem_toFinset.mp hj)
    exact h.once i j w w' hw hw' (by simpa [waiterPid, hw, hw'] using heq)
  refine ⟨?_, by rw [hcount, hlength, Nat.zero_add], fun p hp => ?_⟩
  · rw [himage, Finset.card_image_of_injOn hinj, toFinset_card_of_nodup hnodup, hcount,
      Nat.zero_add]
  · obtain ⟨i, hi, w, hw, hpid⟩ := (hchanged p).mp hp
    obtain ⟨w', hw', hmatch⟩ := hmem i hi
    rw [hw] at hw'
    cases hw'
    exact ⟨(hstate p ⟨i, hi, w, hw, hpid⟩).1, (hstate p ⟨i, hi, w, hw, hpid⟩).2, i, w, hw, hpid,
      hmatch⟩

/-! ## Runs -/

def unrestricted : Policy := ⟨True, fun _ _ => True, fun _ => True, True, True⟩

theorem respects_unrestricted (k : Kernel) (e : KernelEvent) : Respects unrestricted k e :=
  ⟨fun _ => trivial, fun _ _ _ _ => trivial, fun _ _ => trivial, fun _ => trivial, fun _ => trivial⟩

theorem sound_of_runs {tableBase : Nat}
    (h : Runs step (fun _ _ => True) (boot tableBase) k) : Sound True k := by
  refine h.invariant (I := Sound True) (sound_boot tableBase) fun k e hk _ => ?_
  exact hk.moves (hk.step_moves (respects_unrestricted k e)) id

/-- The futex queue in every state that system calls, faults, signals,
interrupts and the turns of PID 0 reach. -/
theorem futex_queue_consistent {tableBase : Nat}
    (h : Runs step (fun _ _ => True) (boot tableBase) k) :
    (∀ i w, k.waiters i = some w → ∃ P, k.procs w.pid = some P ∧ P.state = .blocked) ∧
      (∀ p P, k.procs p = some P → P.state = .blocked →
        ∃! i, ∃ w, k.waiters i = some w ∧ w.pid = p) ∧
      (∀ addr maxWake space, k.WakesExactly addr maxWake space) ∧
      ∀ addr val word, word ≠ val → k.sysFutexWait addr val (some word) = (EAGAIN, k) := by
  have hsound := sound_of_runs h
  refine ⟨fun i w hw => ?_, fun p P hP hblocked => ?_, hsound.wakesExactly,
    fun addr val word hne => ?_⟩
  · obtain ⟨P, hP, hblocked, -⟩ := hsound.waiting i w hw
    exact ⟨P, hP, hblocked⟩
  · obtain ⟨i, w, hw, hpid⟩ := hsound.waits p P hP hblocked
    refine ⟨i, ⟨w, hw, hpid⟩, ?_⟩
    rintro j ⟨w', hw', hpid'⟩
    exact hsound.once j i w' w hw' hw (hpid'.trans hpid.symm)
  · exact if_pos hne

def waitOnce (addr : UInt32) : List KernelEvent :=
  [.service (.launch none (some 1)), .service .enableScheduling, .irq true none,
    .call (.futex addr 0 0 (some 0))]

theorem futex_queue_consistent_waitOnce :
    ∃ k : Kernel, k.waiters 0 = some ⟨4, 1, 1⟩ ∧ (∃ P, k.procs 1 = some P ∧ P.state = .blocked) ∧
      (k.wakeWaitersForAddressSpace 4 7 1).1 = 1 := by
  have hrun : Runs step (fun _ _ => True) (boot 0) ((waitOnce 4).foldl step (boot 0)) :=
    Runs.start.foldl (.of_forall (fun _ _ => trivial) _ _)
  obtain ⟨hwaiting, -, hwakes, -⟩ := futex_queue_consistent hrun
  have hw : ((waitOnce 4).foldl step (boot 0)).waiters 0 = some ⟨4, 1, 1⟩ := by decide +kernel
  refine ⟨_, hw, hwaiting 0 _ hw, ?_⟩
  decide +kernel

end Kernel

end Thumos
