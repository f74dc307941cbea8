import Mathlib.Data.List.Nodup
import Thumos.Kernel.Services
import Thumos.Lib.GuardedRun

/-!
# The supervisor

The abort handler queues fault reports, with the service that the process was at
the time of the fault, and the service loop decides about them.  Restarts are
counted in windows that a fault after their end replaces, and a service that spends
its restarts in one window is given up.
-/

namespace Thumos.Supervisor

open GuardedRun List

inductive Call where
  | register (path : String) (pid : Nat)
  | setCurrentPid (path : String) (pid : Option Nat)
  | reportFault (pid : Nat) (kind : UInt8) (faultAddr faultStatus : UInt32)
  | popReport
  | decide (report : FaultReport) (now : Nat)
  | clearPid (pid : Nat)

/-- What a call tells: a report is queued or dropped, one is returned, a decision is made. -/
inductive Answer where
  | done
  | queued (report : FaultReport)
  | dropped
  | popped (report : Option FaultReport)
  | decided (decision : Decision)
  deriving DecidableEq

def State.call (s : State) : Call → State × Answer
  | .register path pid => (s.register path pid, .done)
  | .setCurrentPid path pid => (s.setCurrentPid path pid, .done)
  | .reportFault pid kind addr status => (s.reportFault pid kind addr status,
      if ringSize ≤ s.ring.count then .dropped else .queued (s.faultReport pid kind addr status))
  | .popReport => (s.popReport.2, .popped s.popReport.1)
  | .decide report now => ((s.decide report now).2, .decided (s.decide report now).1)
  | .clearPid pid => (s.clearPid pid, .done)

structure Entry where
  before : State
  call : Call
  answer : Answer

structure Run where
  state : State := .new
  log : List Entry := []

def Run.step (r : Run) (call : Call) : Run :=
  ⟨(r.state.call call).1, ⟨r.state, call, (r.state.call call).2⟩ :: r.log⟩

def lastTick (log : List Entry) : Nat :=
  (log.findSome? fun e => match e.call with
    | .decide _ now => some now
    | _ => none).getD 0

def queued (log : List Entry) : List FaultReport :=
  log.reverse.filterMap fun e => match e.answer with
    | .queued report => some report
    | _ => none

def popped (log : List Entry) : List FaultReport :=
  log.reverse.filterMap fun e => match e.answer with
    | .popped report => report
    | _ => none

def Entry.restartTick (path : String) (e : Entry) : Option Nat :=
  match e.call with
  | .decide _ now => if e.answer = .decided (.restart path) then some now else none
  | _ => none

def restarts (path : String) (log : List Entry) : List Nat := log.filterMap (·.restartTick path)

def Allowed (r : Run) : Call → Prop
  | .decide report now => report ∈ popped r.log ∧ lastTick r.log ≤ now
  | _ => True

instance (r : Run) (call : Call) : Decidable (Allowed r call) := by
  unfold Allowed
  split <;> infer_instance

/-! ## The ring -/

namespace FaultRing

/-- The cells that are to be read, in order. -/
def contents (r : FaultRing) : List (Option FaultReport) := Ring.queue r.cells r.head r.count

variable {r : FaultRing}

theorem contents_push (h : r.count < ringSize) (report : FaultReport) :
    (r.push report).contents = r.contents ++ [some report] := by
  rw [push, if_neg (not_le.mpr h)]
  exact Ring.queue_push r.cells r.head h (some report)

theorem contents_pop (hpos : r.count ≠ 0) (hle : r.count ≤ ringSize) :
    r.contents = r.pop.1 :: r.pop.2.contents := by
  have hhead : r.contents.head? = some (r.cells r.head) := by
    rw [contents, Ring.queue, head?_map, head?_range, if_neg hpos, Option.map_some]
    simp
  have hrest := Ring.queue_drop r.cells r.head 1 r.count
  rw [← Ring.queue_update_head r.cells r.head (by omega) none] at hrest
  rw [pop, if_neg hpos]
  obtain ⟨rest, hcons⟩ := head?_eq_some_iff.mp hhead
  rw [hcons]
  refine congrArg _ (Eq.trans ?_ hrest)
  show rest = r.contents.drop 1
  rw [hcons, drop_one, tail_cons]

end FaultRing

/-! ## The window of a service -/

/-- The restarts of a service, as its window counts them. -/
structure Rated (svc : SupervisedService) (ticks : List Nat) (last : Nat) : Prop where
  start_le : svc.windowStartTick ≤ last
  tick_le : ∀ t ∈ ticks, t ≤ svc.windowStartTick + windowTicks
  window : ticks.countP (svc.windowStartTick ≤ ·) ≤ svc.restartsInWindow
  restarts_le : svc.restartsInWindow ≤ maxRestarts
  since : ∀ a, svc.windowStartTick ≤ a + windowTicks →
    ticks.countP (a ≤ ·) ≤ maxRestarts + svc.restartsInWindow
  rate : ∀ a, ticks.countP (fun t => a ≤ t ∧ t ≤ a + windowTicks) ≤ 2 * maxRestarts

variable {svc : SupervisedService} {ticks : List Nat} {last now : Nat}

theorem Rated.mono (h : Rated svc ticks last) (hle : last ≤ now) : Rated svc ticks now :=
  { h with start_le := le_trans h.start_le hle }

theorem Rated.opened (h : Rated svc ticks last) (hnow : now - svc.windowStartTick > windowTicks) :
    Rated { svc with windowStartTick := now, restartsInWindow := 0 } ticks now where
  start_le := le_rfl
  tick_le t ht := by
    have := h.tick_le t ht
    dsimp only
    omega
  window := by
    rw [Nat.le_zero, countP_eq_zero]
    intro t ht hle
    have := h.tick_le t ht
    have hle : now ≤ t := of_decide_eq_true hle
    omega
  restarts_le := Nat.zero_le _
  since a ha := by
    -- Only restarts of the window before lie so near.
    refine le_trans (countP_mono_left fun t _ hle => ?_)
      (le_trans h.window h.restarts_le)
    have hle : a ≤ t := of_decide_eq_true hle
    refine decide_eq_true ?_
    dsimp only at ha
    omega
  rate := h.rate

theorem Rated.restart (h : Rated svc ticks now) (hroom : svc.restartsInWindow < maxRestarts)
    (hnow : now ≤ svc.windowStartTick + windowTicks) :
    Rated { svc with restartsInWindow := svc.restartsInWindow + 1 } (now :: ticks) now where
  start_le := h.start_le
  tick_le := forall_mem_cons.mpr ⟨hnow, h.tick_le⟩
  window := by
    rw [countP_cons, if_pos (decide_eq_true h.start_le)]
    exact Nat.succ_le_succ h.window
  restarts_le := hroom
  since a ha := by
    have := h.since a ha
    rw [countP_cons]
    dsimp only
    split <;> omega
  rate a := by
    rw [countP_cons]
    split
    next hin =>
      have hin : a ≤ now ∧ now ≤ a + windowTicks := of_decide_eq_true hin
      have hsince := h.since a (le_trans h.start_le hin.2)
      have hmono : ticks.countP (fun t => a ≤ t ∧ t ≤ a + windowTicks) ≤ ticks.countP (a ≤ ·) :=
        countP_mono_left fun t _ ht => decide_eq_true (of_decide_eq_true ht).1
      omega
    · exact h.rate a

inductive Decided (svc : SupervisedService) (ticks : List Nat) (now : Nat) :
    Decision × SupervisedService → Prop where
  | none : svc.gaveUp = true → Decided svc ticks now (.none, svc)
  | restart {svc' : SupervisedService} : svc.gaveUp = false → svc'.path = svc.path →
    svc'.gaveUp = false → Rated svc' (now :: ticks) now →
    Decided svc ticks now (.restart svc.path, svc')
  | giveUp {svc' : SupervisedService} : svc'.path = svc.path → svc'.gaveUp = true →
    Rated svc' ticks now → Decided svc ticks now (.giveUp svc.path, svc')

theorem Rated.decided (h : Rated svc ticks last) (hnow : last ≤ now) :
    Decided svc ticks now (svc.decide now) := by
  rw [SupervisedService.decide]
  split
  next hgave => exact .none hgave
  next hgave =>
    have hgave : svc.gaveUp = false := Bool.not_eq_true _ ▸ hgave
    by_cases hopen : now - svc.windowStartTick > windowTicks
    · have h := h.opened hopen
      rw [if_pos hopen]
      exact .restart hgave rfl hgave (h.restart (Nat.zero_lt_succ 2) (Nat.le_add_right _ _))
    have h := h.mono hnow
    rw [if_neg hopen]
    dsimp only
    split
    next hroom => exact .restart hgave rfl hgave (h.restart hroom (by omega))
    · exact .giveUp rfl rfl ⟨h.1, h.2, h.3, h.4, h.5, h.6⟩

/-! ## Runs -/

def GivenUp (path : String) (log : List Entry) : Prop :=
  ∃ e ∈ log, e.answer = .decided (.giveUp path)

/-- The report was queued for a process that was the service at that time. -/
def Reported (path : String) (report : FaultReport) (log : List Entry) : Prop :=
  ∃ f ∈ log, f.answer = .queued report ∧
    ∃ svc ∈ f.before.services, svc.path = path ∧ svc.currentPid = some report.pid

structure Fair (e : Entry) (older : List Entry) : Prop where
  given_up : ∀ path, GivenUp path older → e.answer ≠ .decided (.restart path)
  fault : ∀ pid kind addr status, e.call = .reportFault pid kind addr status →
    (∃ svc ∈ e.before.services, svc.currentPid = some pid) → e.before.ring.count < ringSize →
    ∃ svc ∈ e.before.services, svc.currentPid = some pid ∧
      e.answer = .queued ⟨pid, kind, addr, status, some svc.path⟩
  decision : ∀ report now path, e.call = .decide report now → report.service = some path →
    e.answer = .decided (.restart path) ∨ e.answer = .decided (.giveUp path) ∨
      e.answer = .decided .none ∧ GivenUp path older
  restart : ∀ path, e.answer = .decided (.restart path) → ∃ report now,
    e.call = .decide report now ∧ report.service = some path ∧ Reported path report older

structure Supervises (r : Run) : Prop where
  rate : ∀ path a, (restarts path r.log).countP (fun t => a ≤ t ∧ t < a + windowTicks) ≤
    2 * maxRestarts
  fifo : (queued r.log).map some = (popped r.log).map some ++ r.state.ring.contents
  fair : ∀ e older, e :: older <:+ r.log → Fair e older

def Entry.Names (e : Entry) (path : String) : Prop :=
  e.answer = .decided (.restart path) ∨ e.answer = .decided (.giveUp path) ∨
    ∃ report, e.answer = .queued report ∧ report.service = some path

structure Ok (l : Services) (log : List Entry) : Prop where
  nodup : (l.map (·.path)).Nodup
  rated : ∀ svc ∈ l, Rated svc (restarts svc.path log) (lastTick log)
  gaveUp : ∀ svc ∈ l, svc.gaveUp = true ↔ GivenUp svc.path log
  registered : ∀ e ∈ log, ∀ path, e.Names path → path ∈ l.map (·.path)

variable {l l' : Services} {log : List Entry} {e : Entry} {path : String}

theorem restartTick_eq_none (h : e.answer ≠ .decided (.restart path)) :
    e.restartTick path = none := by
  unfold Entry.restartTick
  split
  · exact if_neg h
  · rfl

theorem givenUp_cons (h : e.answer ≠ .decided (.giveUp path)) :
    GivenUp path (e :: log) ↔ GivenUp path log := by
  rw [GivenUp, exists_mem_cons_iff, or_iff_right h, GivenUp]

theorem Ok.congr (h : Ok l log)
    (hl : l'.map (SupervisedService.point none) = l.map (SupervisedService.point none)) :
    Ok l' log := by
  have hpath : l'.map (·.path) = l.map (·.path) := by
    have := congrArg (map SupervisedService.path) hl
    rwa [map_map, map_map] at this
  have hmem : ∀ svc' ∈ l', ∃ svc ∈ l, svc.point none = svc'.point none :=
    fun svc' h' => mem_map.mp (hl ▸ mem_map_of_mem h')
  refine ⟨hpath ▸ h.nodup, fun ⟨path, pid, n, start, gave⟩ h' => ?_,
    fun ⟨path, pid, n, start, gave⟩ h' => ?_, hpath ▸ h.registered⟩
  · obtain ⟨⟨_, pid', _, _, _⟩, hsvc, ⟨⟩⟩ := hmem _ h'
    have h := h.rated _ hsvc
    exact ⟨h.1, h.2, h.3, h.4, h.5, h.6⟩
  · obtain ⟨⟨_, pid', _, _, _⟩, hsvc, ⟨⟩⟩ := hmem _ h'
    exact (h.gaveUp _ hsvc :)

theorem point_modify (l : Services) (i : Nat) (pid : Option Nat) :
    (l.modify i (.point pid)).map (SupervisedService.point none) =
      l.map (SupervisedService.point none) := by
  induction l generalizing i with
  | nil => cases i <;> rfl
  | cons svc l ih =>
    cases i with
    | zero => rfl
    | succ i => exact congrArg (svc.point none :: ·) (ih i)

theorem Ok.quiet (h : Ok l log) (hlast : lastTick log ≤ lastTick (e :: log))
    (hanswer : ∀ path, e.answer ≠ .decided (.restart path) ∧ e.answer ≠ .decided (.giveUp path))
    (hreport : ∀ report path, e.answer = .queued report → report.service = some path →
      path ∈ l.map (·.path)) : Ok l (e :: log) := by
  refine ⟨h.nodup, fun svc hsvc => ?_, fun svc hsvc => ?_, ?_⟩
  · rw [restarts, filterMap_cons_none (restartTick_eq_none (hanswer _).1)]
    exact (h.rated svc hsvc).mono hlast
  · rw [givenUp_cons (hanswer _).2]
    exact h.gaveUp svc hsvc
  · rintro e' (_ | ⟨_, he'⟩) path hpath
    · rcases hpath with hpath | hpath | ⟨report, hqueued, hservice⟩
      · exact absurd hpath (hanswer _).1
      · exact absurd hpath (hanswer _).2
      · exact hreport report path hqueued hservice
    · exact h.registered e' he' path hpath

theorem Ok.restarts_eq_nil (h : Ok l log) (hpath : path ∉ l.map (·.path)) :
    restarts path log = [] := by
  refine filterMap_eq_nil_iff.mpr fun e he => restartTick_eq_none fun hanswer => ?_
  exact hpath (h.registered e he path (.inl hanswer))

theorem Ok.register (h : Ok l log) (hpath : path ∉ l.map (·.path)) (pid : Nat) :
    Ok (l ++ [⟨path, some pid, 0, 0, false⟩]) log := by
  refine ⟨?_, ?_, ?_, fun e he path' hnames => ?_⟩
  · rw [map_append]
    exact nodup_append'.mpr ⟨h.nodup, nodup_singleton _,
      disjoint_singleton.mpr hpath⟩
  · simp only [mem_append, mem_singleton]
    rintro svc (hsvc | rfl)
    · exact h.rated svc hsvc
    · rw [h.restarts_eq_nil hpath]
      constructor <;> simp
  · simp only [mem_append, mem_singleton]
    rintro svc (hsvc | rfl)
    · exact h.gaveUp svc hsvc
    · constructor
      · intro hgave
        cases hgave
      · rintro ⟨e, he, hanswer⟩
        exact absurd (h.registered e he path (.inr (.inl hanswer))) hpath
  · rw [map_append]
    exact mem_append_left _ (h.registered e he path' hnames)

variable {report : FaultReport}

theorem Ok.decide (h : Ok l log) {i : Nat} (hi : l[i]? = some svc) (hnow : lastTick log ≤ now)
    (hcall : e.call = .decide report now) (hanswer : e.answer = .decided (svc.decide now).1) :
    Ok (l.set i (svc.decide now).2) (e :: log) := by
  have hmem := mem_of_getElem? hi
  have hlt := (List.getElem?_eq_some_iff.mp hi).1
  have hlast : lastTick (e :: log) = now := by simp [lastTick, hcall]
  have hd := (h.rated svc hmem).decided hnow
  generalize svc.decide now = result at hd hanswer
  have hset : ∀ svc', svc'.path = svc.path → (l.set i svc').map (·.path) = l.map (·.path) := by
    intro svc' hpath
    rw [map_set, hpath]
    refine ext_getElem? fun j => ?_
    rw [getElem?_set]
    split
    next hj => rw [← hj, if_pos (by simpa using hlt), getElem?_map, hi, Option.map_some]
    · rfl
  -- The other services have another path.
  have hother : ∀ svc' x, svc'.path = svc.path → x ∈ l.set i svc' → x = svc' ∨
      x ∈ l ∧ x.path ≠ svc.path := by
    intro svc' x hpath hx
    refine or_iff_not_imp_left.mpr fun hne => ?_
    refine ⟨(mem_or_eq_of_mem_set hx).resolve_right hne, fun heq => hne ?_⟩
    have hself : svc' ∈ l.set i svc' := mem_set hlt svc'
    exact inj_on_of_nodup_map (hset svc' hpath ▸ h.nodup) hx hself (heq.trans hpath.symm)
  have hanswer' : ∀ path, path ≠ svc.path →
      e.answer ≠ .decided (.restart path) ∧ e.answer ≠ .decided (.giveUp path) := by
    intro path hne
    rw [hanswer]
    cases hd <;> simp [Ne.symm hne]
  have hok : ∀ svc', svc'.path = svc.path → Rated svc' (restarts svc.path (e :: log)) now →
      (svc'.gaveUp = true ↔ GivenUp svc.path (e :: log)) → Ok (l.set i svc') (e :: log) := by
    intro svc' hpath hrated hgave
    refine ⟨hset svc' hpath ▸ h.nodup, fun x hx => ?_, fun x hx => ?_, ?_⟩
    · rw [hlast]
      rcases hother svc' x hpath hx with rfl | ⟨hx, hne⟩
      · exact hpath ▸ hrated
      · rw [restarts, filterMap_cons_none (restartTick_eq_none (hanswer' _ hne).1)]
        exact (h.rated x hx).mono hnow
    · rcases hother svc' x hpath hx with rfl | ⟨hx, hne⟩
      · exact hpath ▸ hgave
      · rw [givenUp_cons (hanswer' _ hne).2]
        exact h.gaveUp x hx
    · rw [hset svc' hpath]
      rintro e' (_ | ⟨_, he'⟩) path hnames
      · by_cases hne : path = svc.path
        · exact hne ▸ mem_map_of_mem hmem
        · rcases hnames with hnames | hnames | ⟨_, hqueued, -⟩
          · exact absurd hnames (hanswer' path hne).1
          · exact absurd hnames (hanswer' path hne).2
          · cases hanswer.symm.trans hqueued
      · exact h.registered e' he' path hnames
  cases hd with
  | none hgave =>
    have hquiet : restarts svc.path (e :: log) = restarts svc.path log :=
      filterMap_cons_none (restartTick_eq_none (by simp [hanswer]))
    refine hok svc rfl (hquiet ▸ (h.rated svc hmem).mono hnow) ?_
    rw [givenUp_cons (by simp [hanswer])]
    exact h.gaveUp svc hmem
  | restart hgave hpath hgave' hrated =>
    have hcons : restarts svc.path (e :: log) = now :: restarts svc.path log :=
      filterMap_cons_some (by simp [Entry.restartTick, hcall, hanswer])
    refine hok _ hpath (hcons ▸ hrated) ?_
    rw [givenUp_cons (by simp [hanswer]), ← h.gaveUp svc hmem, hgave, hgave']
  | giveUp hpath hgave hrated =>
    have hquiet : restarts svc.path (e :: log) = restarts svc.path log :=
      filterMap_cons_none (restartTick_eq_none (by simp [hanswer]))
    exact hok _ hpath (hquiet ▸ hrated) ⟨fun _ => ⟨e, mem_cons_self, hanswer⟩, fun _ => hgave⟩

variable {r : Run} {call : Call} {s : State}

theorem getElem?_indexOf (l : Services) (path : String) :
    path ∉ l.map (·.path) ∨ ∃ svc, l[l.indexOf path]? = some svc ∧ svc.path = path := by
  by_cases hlt : l.indexOf path < l.length
  · refine .inr ⟨_, getElem?_eq_getElem hlt, ?_⟩
    exact of_decide_eq_true (findIdx_getElem (w := hlt))
  · refine .inl fun hmem => ?_
    obtain ⟨svc, hsvc, hpath⟩ := mem_map.mp hmem
    exact hlt (findIdx_lt_length_of_exists ⟨svc, hsvc, decide_eq_true hpath⟩)

theorem service_of_queued (h : (s.call call).2 = .queued report)
    (hservice : report.service = some path) :
    ∃ svc ∈ s.services, svc.path = path ∧ svc.currentPid = some report.pid := by
  cases call with
  | reportFault pid kind addr status =>
    change (if ringSize ≤ s.ring.count then _ else _) = _ at h
    split at h
    · cases h
    · cases h
      obtain ⟨svc, hsvc, rfl⟩ := Option.map_eq_some_iff.mp hservice
      exact ⟨svc, mem_of_find?_eq_some hsvc, rfl, of_decide_eq_true (find?_some hsvc :)⟩
  | _ => cases h

theorem queued_of_fault {pid : Nat} {kind : UInt8} {addr status : UInt32}
    (hcurrent : ∃ svc ∈ s.services, svc.currentPid = some pid)
    (hroom : s.ring.count < ringSize) : ∃ svc ∈ s.services, svc.currentPid = some pid ∧
      (s.call (.reportFault pid kind addr status)).2 =
        .queued ⟨pid, kind, addr, status, some svc.path⟩ := by
  obtain ⟨svc, hsvc, hpid⟩ := hcurrent
  have hsome : (s.services.find? (·.currentPid = some pid)).isSome :=
    find?_isSome.mpr ⟨svc, hsvc, decide_eq_true hpid⟩
  obtain ⟨first, hfirst⟩ := Option.isSome_iff_exists.mp hsome
  refine ⟨first, mem_of_find?_eq_some hfirst, of_decide_eq_true (find?_some hfirst :), ?_⟩
  change (if ringSize ≤ s.ring.count then _ else _) = _
  rw [if_neg (not_le.mpr hroom), State.faultReport, hfirst, Option.map_some]

structure Inv (r : Run) : Prop where
  ok : Ok r.state.services r.log
  fifo : (queued r.log).map some = (popped r.log).map some ++ r.state.ring.contents
  room : r.state.ring.count ≤ ringSize
  genuine : ∀ e ∈ r.log, e.answer = (e.before.call e.call).2
  fair : ∀ e older, e :: older <:+ r.log → Fair e older

theorem Inv.ok_step (h : Inv r) (hallowed : Allowed r call) :
    Ok (r.step call).state.services (r.step call).log := by
  cases call with
  | register path pid =>
    have hquiet : Ok r.state.services (r.step (.register path pid)).log :=
      h.ok.quiet le_rfl (fun _ => ⟨nofun, nofun⟩) nofun
    change Ok (r.state.services.register path pid) _
    rw [Services.register]
    split
    · exact hquiet.congr (point_modify _ _ _)
    split
    next hnot _ =>
      rcases getElem?_indexOf r.state.services path with hpath | ⟨svc, hsvc, -⟩
      · exact hquiet.register hpath pid
      · exact absurd (List.getElem?_eq_some_iff.mp hsvc).1 hnot
    · exact hquiet
  | setCurrentPid path pid =>
    refine Ok.congr ?_ (point_modify _ _ _)
    exact h.ok.quiet le_rfl (fun _ => ⟨nofun, nofun⟩) nofun
  | reportFault pid kind addr status =>
    refine Ok.congr ?_ (point_modify _ _ _)
    refine h.ok.quiet le_rfl (fun path => ?_) fun report path hqueued hservice => ?_
    · change (if ringSize ≤ r.state.ring.count then _ else _) ≠ _ ∧
        (if ringSize ≤ r.state.ring.count then _ else _) ≠ _
      split <;> exact ⟨nofun, nofun⟩
    · obtain ⟨svc, hsvc, hpath, -⟩ := service_of_queued hqueued hservice
      exact hpath ▸ mem_map_of_mem hsvc
  | popReport => exact h.ok.quiet le_rfl (fun _ => ⟨nofun, nofun⟩) nofun
  | clearPid pid =>
    refine Ok.congr (h.ok.quiet le_rfl (fun _ => ⟨nofun, nofun⟩) nofun) ?_
    change map _ (map _ _) = _
    rw [map_map]
    refine map_congr_left fun svc _ => ?_
    rw [Function.comp_apply]
    split <;> rfl
  | decide report now =>
    simp only [Run.step, State.call, State.decide, Services.decide]
    split
    · exact h.ok.quiet hallowed.2 (fun _ => ⟨nofun, nofun⟩) nofun
    · split
      · exact h.ok.quiet hallowed.2 (fun _ => ⟨nofun, nofun⟩) nofun
      next hsvc => exact h.ok.decide hsvc hallowed.2 rfl rfl

theorem queued_cons (e : Entry) (log : List Entry) :
    queued (e :: log) = queued log ++ queued [e] ∧
      popped (e :: log) = popped log ++ popped [e] := by
  simp only [queued, popped, reverse_cons, filterMap_append, reverse_nil,
    nil_append, and_self]

theorem Inv.fifo_step (h : Inv r) (call : Call) :
    (queued (r.step call).log).map some =
        (popped (r.step call).log).map some ++ (r.step call).state.ring.contents ∧
      (r.step call).state.ring.count ≤ ringSize := by
  have hfifo := h.fifo
  have hroom := h.room
  rw [Run.step, (queued_cons _ _).1, (queued_cons _ _).2, map_append, map_append, hfifo]
  cases call with
  | reportFault pid kind addr status =>
    simp only [State.call, State.reportFault]
    by_cases hfull : ringSize ≤ r.state.ring.count
    · rw [FaultRing.push, if_pos hfull]
      simpa [queued, popped, hfull] using hroom
    · rw [FaultRing.contents_push (not_le.mp hfull), FaultRing.push]
      simp only [queued, popped, hfull, if_false]
      exact ⟨by simp, not_le.mp hfull⟩
  | popReport =>
    simp only [State.call, State.popReport]
    by_cases hempty : r.state.ring.count = 0
    · rw [FaultRing.pop, if_pos hempty]
      simpa [queued, popped] using hroom
    · have hpop := FaultRing.contents_pop hempty hroom
      have hmem : r.state.ring.pop.1 ∈ (queued r.log).map some := by
        rw [hfifo, hpop]
        exact mem_append_right _ mem_cons_self
      -- No cell in use is empty: it was pushed.
      obtain ⟨report, -, hreport⟩ := mem_map.mp hmem
      rw [hpop, ← hreport]
      refine ⟨by simp [queued, popped], ?_⟩
      rw [FaultRing.pop, if_neg hempty]
      exact (Nat.sub_le ..).trans hroom
  | _ => exact ⟨by simp [State.call, queued, popped]; rfl, hroom⟩

theorem Inv.decided (h : Inv r) (hreport : report ∈ popped r.log) (hnow : lastTick r.log ≤ now)
    (hservice : report.service = some path) :
    ∃ svc svc', svc.path = path ∧ (svc.gaveUp = true ↔ GivenUp path r.log) ∧
      Decided svc (restarts path r.log) now ((r.state.services.decide report now).2, svc') ∧
      Reported path report r.log := by
  have hqueued : report ∈ queued r.log := by
    have hmem : some report ∈ (queued r.log).map some := by
      rw [h.fifo]
      exact mem_append_left _ (mem_map_of_mem hreport)
    simpa using hmem
  obtain ⟨f, hf, hanswer⟩ := mem_filterMap.mp hqueued
  rw [mem_reverse] at hf
  split at hanswer
  next report' hqueued =>
    cases hanswer
    have hfault := service_of_queued ((h.genuine f hf).symm.trans hqueued) hservice
    have hmem := h.ok.registered f hf path (.inr (.inr ⟨report, hqueued, hservice⟩))
    rcases getElem?_indexOf r.state.services path with hnot | ⟨svc, hsvc, rfl⟩
    · exact absurd hmem hnot
    have hin := mem_of_getElem? hsvc
    refine ⟨svc, (svc.decide now).2, rfl, h.ok.gaveUp svc hin, ?_, f, hf, hqueued, hfault⟩
    have hdecided := (h.ok.rated svc hin).decided hnow
    simp only [Services.decide, hservice, hsvc]
    exact hdecided
  · cases hanswer

theorem Inv.restart (h : Inv r) (hallowed : Allowed r (.decide report now))
    (hrestart : (r.state.services.decide report now).2 = .restart path) :
    report.service = some path ∧ ¬GivenUp path r.log ∧ Reported path report r.log := by
  cases hservice : report.service with
  | none => simp [Services.decide, hservice] at hrestart
  | some path' =>
    obtain ⟨svc, svc', rfl, hgave, hdecided, hfault⟩ := h.decided hallowed.1 hallowed.2 hservice
    rw [hrestart] at hdecided
    cases hdecided with
    | restart hnot =>
      rw [← hgave, hnot]
      exact ⟨rfl, Bool.false_ne_true, hfault⟩

theorem Inv.fair_step (h : Inv r) (hallowed : Allowed r call) :
    Fair ⟨r.state, call, (r.state.call call).2⟩ r.log := by
  have hdecide : ∀ path, (r.state.call call).2 = .decided (.restart path) →
      ∃ report now, call = .decide report now ∧
        (r.state.services.decide report now).2 = .restart path := by
    intro path hanswer
    cases call with
    | decide report now => exact ⟨report, now, rfl, Answer.decided.inj hanswer⟩
    | reportFault pid kind addr status =>
      change (if ringSize ≤ r.state.ring.count then _ else _) = _ at hanswer
      split at hanswer <;> cases hanswer
    | _ => cases hanswer
  constructor
  · intro path hgiven hanswer
    obtain ⟨report, now, rfl, hrestart⟩ := hdecide path hanswer
    exact (h.restart hallowed hrestart).2.1 hgiven
  · rintro pid kind addr status rfl hcurrent hroom
    exact queued_of_fault hcurrent hroom
  · rintro report now path rfl hservice
    obtain ⟨svc, svc', rfl, hgave, hdecided, -⟩ := h.decided hallowed.1 hallowed.2 hservice
    simp only [State.call, State.decide]
    generalize (r.state.services.decide report now).2 = decision at hdecided
    cases hdecided with
    | none hgave' => exact .inr (.inr ⟨rfl, hgave.mp hgave'⟩)
    | restart => exact .inl rfl
    | giveUp => exact .inr (.inl rfl)
  · intro path hanswer
    obtain ⟨report, now, rfl, hrestart⟩ := hdecide path hanswer
    obtain ⟨hservice, -, hfault⟩ := h.restart hallowed hrestart
    exact ⟨report, now, rfl, hservice, hfault⟩

theorem Inv.step (h : Inv r) (hallowed : Allowed r call) : Inv (r.step call) where
  ok := h.ok_step hallowed
  fifo := (h.fifo_step call).1
  room := (h.fifo_step call).2
  genuine := forall_mem_cons.mpr ⟨rfl, h.genuine⟩
  fair e older hsuffix := by
    rcases suffix_cons_iff.mp hsuffix with heq | hsuffix
    · cases heq
      exact h.fair_step hallowed
    · exact h.fair e older hsuffix

/-- In every run a service is restarted at most six times within a window's length and never after
it was given up; reports come back in the order of the faults, and a fault that finds room in the
ring is reported; a decision about a report of a service restarts it or gives it up unless it was
given up, and a restart answers a fault of the process that was the service. -/
theorem supervisor_supervises (r : Run) (hr : Runs Run.step Allowed {} r) : Supervises r := by
  have h : Inv r := by
    refine hr.invariant ?_ fun _ _ h hallowed => h.step hallowed
    refine ⟨⟨List.nodup_nil, nofun, nofun, nofun⟩, rfl, Nat.zero_le _, nofun,
      fun e older hsuffix => ?_⟩
    cases List.suffix_nil.mp hsuffix
  refine ⟨fun path a => ?_, h.fifo, h.fair⟩
  by_cases hpath : path ∈ r.state.services.map (·.path)
  · obtain ⟨svc, hsvc, rfl⟩ := List.mem_map.mp hpath
    refine le_trans (List.countP_mono_left fun t _ ht => ?_) ((h.ok.rated svc hsvc).rate a)
    have ht : a ≤ t ∧ t < a + windowTicks := of_decide_eq_true ht
    exact decide_eq_true ⟨ht.1, le_of_lt ht.2⟩
  · rw [h.ok.restarts_eq_nil hpath]
    exact Nat.zero_le _

def faultsAt (ticks : List Nat) : List Call :=
  .register "shell" 1 :: ticks.flatMap fun now =>
    [.reportFault 1 1 0 0, .popReport, .decide ⟨1, 1, 0, 0, some "shell"⟩ now,
      .setCurrentPid "shell" (some 1)]

def runOf (calls : List Call) : Run := calls.foldl Run.step {}

/-- Four faults in one window: three restarts, then the service is given up. -/
theorem supervisor_supervises_faults : Supervises (runOf (faultsAt [7, 8, 9, 10, 600])) :=
  supervisor_supervises _ (Runs.start.foldl (by decide +kernel))

/-- Six restarts within 500 ticks; and the seventeenth fault that is not drained is lost, although
its process was the current one of a service. -/
theorem supervisor_two_windows :
    Guarded Run.step Allowed {} (faultsAt [499, 499, 499, 501, 501, 501]) ∧
      (restarts "shell" (runOf (faultsAt [499, 499, 499, 501, 501, 501])).log).countP
        (fun t => 499 ≤ t ∧ t < 499 + windowTicks) = 6 ∧
      let s := (runOf (.register "shell" 1 :: List.replicate 16 (.reportFault 2 1 0 0))).state
      s.services.map (·.currentPid) = [some 1] ∧
        (s.call (.reportFault 1 1 0 0)).2 = .dropped := by
  decide +kernel

end Thumos.Supervisor
