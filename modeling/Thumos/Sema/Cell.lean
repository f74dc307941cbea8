import Mathlib.Algebra.Order.BigOperators.Group.Finset
import Mathlib.Data.Fintype.BigOperators
import Mathlib.Data.List.GetD
import Mathlib.Data.List.Sort
import Mathlib.Order.Lattice.Nat

/-!
# Alerts about cell towers

`detect_imsi_catcher_with_config` goes over the cell events and raises alerts,
the last one when many changes of the serving cell fall into one window of time.
`score_threat_with_config` weighs the alerts: the n-th of a kind has the weight
of its kind divided by n.
-/

namespace Thumos.Sema

inductive CellTechnology
  | gsm | umts | lte
  deriving DecidableEq

inductive CipherAlgorithm
  | a5_0 | a5_1 | a5_2 | a5_3 | a5_4
  deriving DecidableEq

instance : ToString CellTechnology :=
  ⟨fun | .gsm => "GSM (2G)" | .umts => "UMTS (3G)" | .lte => "LTE (4G)"⟩

instance : ToString CipherAlgorithm :=
  ⟨fun | .a5_0 => "A5/0 (no encryption)" | .a5_1 => "A5/1" | .a5_2 => "A5/2" | .a5_3 => "A5/3"
       | .a5_4 => "A5/4"⟩

/-- The timestamp is in nanoseconds. -/
structure CellTower where
  mcc : Nat
  mnc : Nat
  lac : Nat
  cid : Nat
  signalDbm : Int
  technology : CellTechnology
  timestamp : Int
  deriving DecidableEq

def CellTower.id (t : CellTower) : Nat × Nat × Nat × Nat := (t.mcc, t.mnc, t.lac, t.cid)

inductive CellEvent
  | connected (tower : CellTower)
  | disconnected (tower : CellTower)
  | handoverTo (tower : CellTower)
  | neighborSeen (tower : CellTower)
  | cipherChange (algorithm : CipherAlgorithm)

inductive ImsiCatcherAlert
  | technologyDowngrade (source target : CellTechnology)
  | unusuallyStrongNewTower (tower : CellTower)
  | suddenTowerChange (previous current : CellTower)
  | cipherDowngrade (algorithm : CipherAlgorithm)
  | rapidReselection (count : Nat)
  deriving DecidableEq

structure Config where
  unusuallyStrongSignalDbm : Int
  rapidReselectionThreshold : Nat
  rapidReselectionWindowSecs : Nat
  weightCipherDowngrade : Nat
  weightUnusualLacCid : Nat
  weightAbnormalSignal : Nat
  weightRapidReselection : Nat

namespace Config

def default : Config := ⟨-50, 3, 300, 40, 30, 20, 10⟩

/-- A value out of its range is replaced by the default. -/
def bounded {α : Type} [LE α] [DecidableLE α] (v default min max : α) : α :=
  if min ≤ v ∧ v ≤ max then v else default

def strongSignalDbm (c : Config) : Int := bounded c.unusuallyStrongSignalDbm (-50) (-110) (-30)

def threshold (c : Config) : Nat := bounded c.rapidReselectionThreshold 3 1 100

/-- In nanoseconds. -/
def window (c : Config) : Int := bounded c.rapidReselectionWindowSecs 300 10 3600 * 1000000000

def boundedWeight (v default : Nat) : Nat := if v ≤ 80 then v else default

end Config

def u32Max : Nat := 2 ^ 32 - 1

theorem Config.threshold_le (c : Config) : c.threshold ≤ u32Max := by
  rw [Config.threshold, Config.bounded, u32Max]
  split <;> omega

/-! ## The threat score -/

inductive ThreatLevel
  | low | medium | high | critical

/-- The order in which the levels are declared. -/
instance : LE ThreatLevel := ⟨fun a b => a.ctorIdx ≤ b.ctorIdx⟩

def levelFromScore (score : Nat) : ThreatLevel :=
  if score < 30 then .low else if score < 60 then .medium else if score < 80 then .high
  else .critical

structure ThreatFactor where
  name : String
  weight : Nat
  description : String

/-- Without the calibration mark, which is the same for every score. -/
structure ThreatScore where
  total : Nat
  level : ThreatLevel
  factors : List ThreatFactor

def kindIdx : ImsiCatcherAlert → Fin 5
  | .technologyDowngrade .. => 0
  | .cipherDowngrade _ => 1
  | .suddenTowerChange .. => 2
  | .unusuallyStrongNewTower _ => 3
  | .rapidReselection _ => 4

def baseWeight (c : Config) : Fin 5 → Nat
  | 0 | 1 => Config.boundedWeight c.weightCipherDowngrade 40
  | 2 => Config.boundedWeight c.weightUnusualLacCid 30
  | 3 => Config.boundedWeight c.weightAbnormalSignal 20
  | 4 => Config.boundedWeight c.weightRapidReselection 10

def describe : ImsiCatcherAlert → String × String
  | .technologyDowngrade source target =>
    ("tech_downgrade", s!"technology downgrade: {source} → {target}")
  | .cipherDowngrade algorithm => ("cipher_downgrade", s!"weak cipher negotiated: {algorithm}")
  | .suddenTowerChange previous current => ("unusual_lac_cid",
    s!"handover to unannounced tower: LAC {previous.lac} CID {previous.cid} → " ++
      s!"LAC {current.lac} CID {current.cid}")
  | .unusuallyStrongNewTower tower =>
    ("abnormal_signal", s!"unknown tower at {tower.signalDbm} dBm (CID {tower.cid})")
  | .rapidReselection count =>
    ("rapid_reselection", s!"{count} cell reselections in observation window")

structure Scoring where
  total : Nat
  factors : List ThreatFactor
  /-- In the source words of 32 bits, which fewer than 2^32 alerts do not overflow. -/
  kindCounts : Fin 5 → Nat

def scoreAlert (c : Config) (s : Scoring) (alert : ImsiCatcherAlert) : Scoring :=
  let k := kindIdx alert
  let n := s.kindCounts k + 1
  let weight := baseWeight c k / n
  let (name, description) := describe alert
  ⟨min (s.total + weight) u32Max, s.factors ++ [⟨name, weight, description⟩],
    Function.update s.kindCounts k n⟩

def scoreAlerts (c : Config) (alerts : List ImsiCatcherAlert) : Scoring :=
  alerts.foldl (scoreAlert c) ⟨0, [], fun _ => 0⟩

def scoreThreatWithConfig (alerts : List ImsiCatcherAlert) (c : Config) : ThreatScore :=
  let s := scoreAlerts c alerts
  ⟨s.total, levelFromScore s.total, s.factors⟩

def kindCount (alerts : List ImsiCatcherAlert) (k : Fin 5) : Nat := alerts.countP (kindIdx · = k)

def weigh (c : Config) (counts : Fin 5 → Nat) : Nat :=
  ∑ k, ∑ i ∈ Finset.range (counts k), baseWeight c k / (i + 1)

theorem weigh_update (c : Config) (counts : Fin 5 → Nat) (k : Fin 5) :
    weigh c (Function.update counts k (counts k + 1)) =
      weigh c counts + baseWeight c k / (counts k + 1) := by
  rw [weigh, weigh, ← Finset.add_sum_erase _ _ (Finset.mem_univ k),
    ← Finset.add_sum_erase (a := k) _ _ (Finset.mem_univ k), Function.update_self,
    Finset.sum_range_succ, add_right_comm]
  congr 2
  apply Finset.sum_congr rfl
  intro k' hk'
  rw [Function.update_of_ne (Finset.ne_of_mem_erase hk')]

theorem weigh_mono (c : Config) {m n : Fin 5 → Nat} (h : m ≤ n) : weigh c m ≤ weigh c n := by
  apply Finset.sum_le_sum
  intro k _
  exact Finset.sum_le_sum_of_subset (Finset.range_subset_range.mpr (h k))

theorem kindCount_concat (alerts : List ImsiCatcherAlert) (a : ImsiCatcherAlert) :
    kindCount (alerts ++ [a]) =
      Function.update (kindCount alerts) (kindIdx a) (kindCount alerts (kindIdx a) + 1) := by
  funext k
  rw [kindCount, List.countP_append, List.countP_singleton]
  by_cases hk : k = kindIdx a
  · rw [hk, Function.update_self, kindCount]
    simp
  · rw [Function.update_of_ne hk, kindCount]
    simp [Ne.symm hk]

theorem scoreAlerts_spec (c : Config) (alerts : List ImsiCatcherAlert) :
    (scoreAlerts c alerts).kindCounts = kindCount alerts ∧
      (scoreAlerts c alerts).total = min (weigh c (kindCount alerts)) u32Max := by
  induction alerts using List.reverseRecOn with
  | nil => exact ⟨rfl, rfl⟩
  | append_singleton alerts a ih =>
    have hstep : scoreAlerts c (alerts ++ [a]) = scoreAlert c (scoreAlerts c alerts) a :=
      List.foldl_concat ..
    rw [hstep, kindCount_concat, weigh_update]
    refine ⟨by rw [scoreAlert, ih.1], ?_⟩
    rw [scoreAlert, ih.1, ih.2]
    generalize baseWeight c (kindIdx a) / (kindCount alerts (kindIdx a) + 1) = weight
    dsimp only
    omega

theorem levelFromScore_mono {m n : Nat} (h : m ≤ n) : levelFromScore m ≤ levelFromScore n := by
  show (levelFromScore m).ctorIdx ≤ (levelFromScore n).ctorIdx
  unfold levelFromScore
  split_ifs <;> first | omega | decide

/-- The total and the level depend on the numbers of alerts of each kind only, and one more
alert lowers neither. -/
theorem score_threat_counts (c : Config) :
    (∀ as bs, kindCount as = kindCount bs →
      (scoreThreatWithConfig as c).total = (scoreThreatWithConfig bs c).total ∧
      (scoreThreatWithConfig as c).level = (scoreThreatWithConfig bs c).level) ∧
    ∀ as bs a,
      (scoreThreatWithConfig (as ++ bs) c).total ≤
        (scoreThreatWithConfig (as ++ a :: bs) c).total ∧
      (scoreThreatWithConfig (as ++ bs) c).level ≤
        (scoreThreatWithConfig (as ++ a :: bs) c).level := by
  have htotal := fun alerts => (scoreAlerts_spec c alerts).2
  refine ⟨?_, ?_⟩
  · intro as bs h
    have heq : (scoreAlerts c as).total = (scoreAlerts c bs).total := by
      rw [htotal, htotal, h]
    exact ⟨heq, congrArg levelFromScore heq⟩
  · intro as bs a
    have hcount : kindCount (as ++ bs) ≤ kindCount (as ++ a :: bs) := fun k =>
      ((List.sublist_cons_self a bs).append_left as).countP_le
    have hle : (scoreAlerts c (as ++ bs)).total ≤ (scoreAlerts c (as ++ a :: bs)).total := by
      rw [htotal, htotal]
      have := weigh_mono c hcount
      omega
    exact ⟨hle, levelFromScore_mono hle⟩

/-- A cipher downgrade and a burst of reselections in either order, and one alert more. -/
theorem score_threat_counts_reordered :
    let as : List ImsiCatcherAlert := [.cipherDowngrade .a5_0, .rapidReselection 3]
    let bs : List ImsiCatcherAlert := [.rapidReselection 7, .cipherDowngrade .a5_2]
    kindCount as = kindCount bs ∧
      (scoreThreatWithConfig as .default).total = (scoreThreatWithConfig bs .default).total ∧
      (scoreThreatWithConfig as .default).total ≤
        (scoreThreatWithConfig (as ++ [.cipherDowngrade .a5_1]) .default).total := by
  have hcount : kindCount [.cipherDowngrade .a5_0, .rapidReselection 3] =
      kindCount [.rapidReselection 7, .cipherDowngrade .a5_2] := funext (by decide)
  intro as bs
  obtain ⟨hcounts, hmono⟩ := score_threat_counts .default
  refine ⟨hcount, (hcounts as bs hcount).1, ?_⟩
  have hle := (hmono as [] (.cipherDowngrade .a5_1)).1
  rwa [List.append_nil] at hle

/-! ## Rapid reselection -/

def isTechnologyDowngrade : CellTechnology → CellTechnology → Bool
  | .lte, .umts | .lte, .gsm | .umts, .gsm => true
  | _, _ => false

structure Scan where
  alerts : List ImsiCatcherAlert
  seenTowerIds : List (Nat × Nat × Nat × Nat)
  knownNeighborIds : List (Nat × Nat × Nat × Nat)
  prevServing : Option CellTower
  reselectionTimestamps : List Int

namespace Scan

def strongNewTower (strongSignalDbm : Int) (s : Scan) (tower : CellTower) : List ImsiCatcherAlert :=
  if tower.id ∉ s.seenTowerIds ∧ strongSignalDbm < tower.signalDbm then
    [.unusuallyStrongNewTower tower]
  else []

def downgrade (s : Scan) (tower : CellTower) : List ImsiCatcherAlert :=
  match s.prevServing with
  | none => []
  | some prev =>
    if isTechnologyDowngrade prev.technology tower.technology then
      [.technologyDowngrade prev.technology tower.technology]
    else []

def suddenChange (s : Scan) (tower : CellTower) : List ImsiCatcherAlert :=
  match s.prevServing with
  | none => []
  | some prev => if tower.id ∉ s.knownNeighborIds then [.suddenTowerChange prev tower] else []

def step (strongSignalDbm : Int) (s : Scan) : CellEvent → Scan
  | .neighborSeen tower =>
    { s with knownNeighborIds := tower.id :: s.knownNeighborIds,
             seenTowerIds := tower.id :: s.seenTowerIds }
  | .connected tower =>
    { alerts := s.alerts ++ s.strongNewTower strongSignalDbm tower ++ s.downgrade tower
      seenTowerIds := tower.id :: s.seenTowerIds
      knownNeighborIds := tower.id :: s.knownNeighborIds
      prevServing := some tower
      reselectionTimestamps := s.reselectionTimestamps ++
        if s.prevServing.any (·.id ≠ tower.id) then [tower.timestamp] else [] }
  | .handoverTo tower =>
    { s with
      alerts := s.alerts ++ s.suddenChange tower ++ s.downgrade tower ++
        s.strongNewTower strongSignalDbm tower
      seenTowerIds := tower.id :: s.seenTowerIds
      prevServing := some tower
      -- A handover counts as a reselection also to the same tower.
      reselectionTimestamps := s.reselectionTimestamps ++ [tower.timestamp] }
  | .cipherChange algorithm =>
    if algorithm ∈ [.a5_0, .a5_1, .a5_2] then
      { s with alerts := s.alerts ++ [.cipherDowngrade algorithm] }
    else s
  | .disconnected _ => s

end Scan

/-- The inner loop moves `left` up to the window that ends at `right`, where the span is zero. -/
def moveLeft (ts : List Int) (window : Int) (right left : Nat) : Nat :=
  if left < right ∧ window < ts.getD right 0 - ts.getD left 0 then
    moveLeft ts window right (left + 1)
  else left
termination_by right - left

/-- One turn of the loop over the sorted timestamps: `left` and `max_count`. -/
def windowStep (ts : List Int) (window : Int) (s : Nat × Nat) (right : Nat) : Nat × Nat :=
  let left := moveLeft ts window right s.1
  let count := min (right - left + 1) u32Max
  (left, if s.2 < count then count else s.2)

def maxReselectionsInWindow (timestamps : List Int) (window : Int) : Nat :=
  let ts := timestamps.mergeSort
  ((List.range ts.length).foldl (windowStep ts window) (0, 0)).2

def scanEvents (c : Config) (events : List CellEvent) : Scan :=
  events.foldl (Scan.step c.strongSignalDbm) ⟨[], [], [], none, []⟩

def detectImsiCatcherWithConfig (events : List CellEvent) (c : Config) : List ImsiCatcherAlert :=
  let s := scanEvents c events
  let maxInWindow := maxReselectionsInWindow s.reselectionTimestamps c.window
  s.alerts ++ if c.threshold ≤ maxInWindow then [.rapidReselection maxInWindow] else []

/-- The changes of the serving cell: the times at which a device with the serving cell `serving`
goes to a cell, if that one is another or if `handovers` all count. -/
def servingChanges (handovers : Bool) : Option CellTower → List CellEvent → List Int
  | _, [] => []
  | serving, .connected tower :: events =>
    (if serving.any (·.id ≠ tower.id) then [tower.timestamp] else []) ++
      servingChanges handovers (some tower) events
  | serving, .handoverTo tower :: events =>
    (if handovers || serving.any (·.id ≠ tower.id) then [tower.timestamp] else []) ++
      servingChanges handovers (some tower) events
  | serving, _ :: events => servingChanges handovers serving events

theorem servingChanges_sublist (serving : Option CellTower) (events : List CellEvent) :
    (servingChanges false serving events).Sublist (servingChanges true serving events) := by
  induction events generalizing serving with
  | nil => exact .slnil
  | cons e events ih =>
    cases e with
    | connected tower => exact (ih (some tower)).append_left _
    | handoverTo tower =>
      refine List.Sublist.append ?_ (ih (some tower))
      cases serving.any (·.id ≠ tower.id) with
      | true => exact .refl _
      | false => exact List.nil_sublist _
    | disconnected tower | neighborSeen tower | cipherChange algorithm => exact ih serving

def inWindow (times : List Int) (length start : Int) : Nat :=
  times.countP fun t => start ≤ t ∧ t ≤ start + length

def IsMostInWindow (times : List Int) (length : Int) (n : Nat) : Prop :=
  (∃ start, inWindow times length start = n) ∧ ∀ start, inWindow times length start ≤ n

theorem Scan.not_rapidReselection (strong : Int) {s : Scan} {n : Nat} (e : CellEvent)
    (h : .rapidReselection n ∉ s.alerts) : .rapidReselection n ∉ (s.step strong e).alerts := by
  have hstrong (t) : .rapidReselection n ∉ s.strongNewTower strong t := by
    rw [strongNewTower]
    split <;> simp
  have hdowngrade (t) : .rapidReselection n ∉ s.downgrade t := by
    rw [downgrade]
    repeat' split <;> simp
  have hsudden (t) : .rapidReselection n ∉ s.suddenChange t := by
    rw [suddenChange]
    repeat' split <;> simp
  cases e with
  | connected t => simp [step, h, hstrong, hdowngrade]
  | handoverTo t => simp [step, h, hstrong, hdowngrade, hsudden]
  | cipherChange algorithm =>
    rw [step]
    split <;> simp [h]
  | neighborSeen t => exact h
  | disconnected t => exact h

theorem Scan.foldl_step (strong : Int) (events : List CellEvent) (s : Scan) {n : Nat}
    (h : .rapidReselection n ∉ s.alerts) : (events.foldl (step strong) s).reselectionTimestamps =
        s.reselectionTimestamps ++ servingChanges true s.prevServing events ∧
      .rapidReselection n ∉ (events.foldl (step strong) s).alerts := by
  induction events generalizing s with
  | nil => exact ⟨(List.append_nil _).symm, h⟩
  | cons e events ih =>
    obtain ⟨htimes, halerts⟩ := ih _ (Scan.not_rapidReselection strong e h)
    refine ⟨htimes.trans ?_, halerts⟩
    cases e with
    | connected t => simp [step, servingChanges]
    | handoverTo t => simp [step, servingChanges]
    | cipherChange algorithm =>
      rw [step]
      split <;> rfl
    | neighborSeen t => rfl
    | disconnected t => rfl

section Window

variable {ts : List Int} {window : Int} {left right : Nat}

/-- The times from `left` to `right` are those up to `right` that are at most a window before it. -/
structure Span (ts : List Int) (window : Int) (left right : Nat) : Prop where
  le : left ≤ right
  lt : right < ts.length
  within : ts.getD right 0 - ts.getD left 0 ≤ window
  before : ∀ i < left, window < ts.getD right 0 - ts.getD i 0

theorem span_moveLeft (hwindow : 0 ≤ window) (hright : right < ts.length) (hle : left ≤ right)
    (hbefore : ∀ i < left, window < ts.getD right 0 - ts.getD i 0) :
    Span ts window (moveLeft ts window right left) right := by
  fun_induction moveLeft ts window right left with
  | case1 left h ih =>
    refine ih h.1 fun i hi => ?_
    rcases Nat.lt_succ_iff_lt_or_eq.mp hi with hi | rfl
    · exact hbefore i hi
    · exact h.2
  | case2 left h =>
    refine ⟨hle, hright, ?_, hbefore⟩
    rcases hle.lt_or_eq with hlt | rfl
    · exact not_lt.mp fun hspan => h ⟨hlt, hspan⟩
    · omega

/-- After the turns for the first `n` times, `left` can go on and `most` is the largest count. -/
structure Swept (ts : List Int) (window : Int) (n left most : Nat) : Prop where
  le : left ≤ n
  before : ∀ i < left, ∀ j, n ≤ j + 1 → j < ts.length → window < ts.getD j 0 - ts.getD i 0
  bound : ∀ r < n, ∃ l, Span ts window l r ∧ min (r - l + 1) u32Max ≤ most
  reached : most = 0 ∨ ∃ l r, Span ts window l r ∧ most = min (r - l + 1) u32Max

variable (hsorted : ts.Pairwise (· ≤ ·))

include hsorted in
theorem getD_le_getD {i j : Nat} (hij : i ≤ j) (hj : j < ts.length) :
    ts.getD i 0 ≤ ts.getD j 0 := by
  rw [List.getD_eq_getElem _ _ hj, List.getD_eq_getElem _ _ (hij.trans_lt hj)]
  exact hsorted.rel_get_of_le (a := ⟨i, hij.trans_lt hj⟩) (b := ⟨j, hj⟩) hij

include hsorted in
theorem swept_foldl (hwindow : 0 ≤ window) {n : Nat} (hn : n ≤ ts.length) :
    let s := (List.range n).foldl (windowStep ts window) (0, 0)
    Swept ts window n s.1 s.2 := by
  induction n with
  | zero => exact ⟨le_rfl, by simp, by simp, .inl rfl⟩
  | succ n ih =>
    rw [List.range_succ, List.foldl_concat]
    have hs := ih (by omega)
    generalize (List.range n).foldl (windowStep ts window) (0, 0) = s at hs
    have hspan := span_moveLeft hwindow hn hs.le fun i hi => hs.before i hi n (by omega) hn
    simp only [windowStep]
    generalize moveLeft ts window n s.1 = left at hspan
    refine ⟨hspan.le.trans (Nat.le_succ n), ?_, ?_, ?_⟩
    · intro i hi j hj hlt
      have := getD_le_getD hsorted (show n ≤ j by omega) hlt
      have := hspan.before i hi
      omega
    · intro r hr
      rcases Nat.lt_succ_iff_lt_or_eq.mp hr with hr | rfl
      · obtain ⟨l, hl, hle⟩ := hs.bound r hr
        exact ⟨l, hl, by split <;> omega⟩
      · exact ⟨left, hspan, by split <;> omega⟩
    · split
      · exact .inr ⟨left, n, hspan, rfl⟩
      · exact hs.reached

theorem mem_slice {a b : Nat} {t : Int} (h : t ∈ (ts.take b).drop a) :
    ∃ i, a ≤ i ∧ i < b ∧ i < ts.length ∧ ts.getD i 0 = t := by
  obtain ⟨i, hi, rfl⟩ := List.mem_iff_getElem.mp h
  rw [List.length_drop, List.length_take] at hi
  refine ⟨a + i, by omega, by omega, by omega, ?_⟩
  rw [List.getElem_drop, List.getElem_take, List.getD_eq_getElem]

theorem inWindow_split (start : Int) {a b : Nat} (h : a ≤ b) :
    inWindow ts window start = inWindow ((ts.take a).drop 0) window start +
      inWindow ((ts.take b).drop a) window start +
      inWindow ((ts.take ts.length).drop b) window start := by
  have htake : ts.take a = (ts.take b).take a := by rw [List.take_take, min_eq_left h]
  rw [List.drop_zero, List.take_length, htake, inWindow, inWindow, inWindow, inWindow,
    ← List.countP_append, List.take_append_drop, ← List.countP_append, List.take_append_drop]

include hsorted in
theorem Span.le_inWindow (h : Span ts window left right) :
    right - left + 1 ≤ inWindow ts window (ts.getD right 0 - window) := by
  have hall : inWindow ((ts.take (right + 1)).drop left) window (ts.getD right 0 - window) =
      ((ts.take (right + 1)).drop left).length := by
    rw [inWindow, List.countP_eq_length]
    intro t ht
    obtain ⟨i, hl, hr, hlt, rfl⟩ := mem_slice ht
    have hle := getD_le_getD hsorted hl hlt
    have hle' := getD_le_getD hsorted (show i ≤ right by omega) h.lt
    have hwithin := h.within
    rw [decide_eq_true_eq]
    omega
  have hle := h.le
  have hlt := h.lt
  rw [List.length_drop, List.length_take] at hall
  rw [inWindow_split _ (show left ≤ right + 1 by omega), hall]
  omega

theorem Span.inWindow_le (h : Span ts window left right) {start : Int}
    (hin : ts.getD right 0 ≤ start + window)
    (hlast : ∀ i, right < i → i < ts.length → start + window < ts.getD i 0) :
    inWindow ts window start ≤ right - left + 1 := by
  have hle := h.le
  have hbefore : inWindow ((ts.take left).drop 0) window start = 0 := by
    rw [inWindow, List.countP_eq_zero]
    intro t ht
    obtain ⟨i, -, hi, -, rfl⟩ := mem_slice ht
    have := h.before i hi
    rw [decide_eq_true_eq]
    omega
  have hafter : inWindow ((ts.take ts.length).drop (right + 1)) window start = 0 := by
    rw [inWindow, List.countP_eq_zero]
    intro t ht
    obtain ⟨i, hi, -, hlt, rfl⟩ := mem_slice ht
    have := hlast i (by omega) hlt
    rw [decide_eq_true_eq]
    omega
  have hmid : inWindow ((ts.take (right + 1)).drop left) window start ≤
      ((ts.take (right + 1)).drop left).length := List.countP_le_length
  rw [List.length_drop, List.length_take] at hmid
  rw [inWindow_split _ (show left ≤ right + 1 by omega), hbefore, hafter]
  omega

theorem exists_isMostInWindow (ts : List Int) (window : Int) : ∃ n, IsMostInWindow ts window n := by
  have hbdd : BddAbove (Set.range (inWindow ts window)) := by
    refine ⟨ts.length, ?_⟩
    rintro _ ⟨start, rfl⟩
    exact List.countP_le_length
  exact ⟨sSup (Set.range (inWindow ts window)), Nat.sSup_mem (Set.range_nonempty _) hbdd,
    fun start => le_csSup hbdd ⟨start, rfl⟩⟩

include hsorted in
theorem Swept.most_eq {most n : Nat} (h : Swept ts window ts.length left most)
    (hn : IsMostInWindow ts window n) : most = min n u32Max := by
  obtain ⟨⟨start, rfl⟩, hmax⟩ := hn
  apply le_antisymm
  · rcases h.reached with rfl | ⟨l, r, hspan, rfl⟩
    · exact Nat.zero_le _
    · have := hspan.le_inWindow hsorted
      have := hmax (ts.getD r 0 - window)
      omega
  · -- `r` is the last time that is not after the window.
    let P := fun i => i < ts.length ∧ ts.getD i 0 ≤ start + window
    rcases Nat.eq_zero_or_pos (inWindow ts window start) with hzero | hpos
    · rw [hzero]
      omega
    · obtain ⟨t, ht, hin⟩ := List.countP_pos_iff.mp hpos
      rw [← List.take_length (l := ts), ← List.drop_zero (l := ts.take _)] at ht
      obtain ⟨i, -, -, hlt, rfl⟩ := mem_slice ht
      have hr : P (Nat.findGreatest P ts.length) :=
        Nat.findGreatest_spec hlt.le ⟨hlt, (of_decide_eq_true hin).2⟩
      obtain ⟨l, hspan, hle⟩ := h.bound _ hr.1
      have := hspan.inWindow_le hr.2 fun j hj hlt' =>
        not_le.mp fun hle' => Nat.findGreatest_is_greatest hj hlt'.le ⟨hlt', hle'⟩
      omega

end Window

theorem maxReselectionsInWindow_eq {times : List Int} {window : Int} {n : Nat}
    (hwindow : 0 ≤ window) (h : IsMostInWindow times window n) :
    maxReselectionsInWindow times window = min n u32Max := by
  have hsorted : times.mergeSort.Pairwise (· ≤ ·) := List.pairwise_mergeSort' (· ≤ ·) times
  refine (swept_foldl hsorted hwindow le_rfl).most_eq hsorted ?_
  have hperm (start : Int) : inWindow times.mergeSort window start = inWindow times window start :=
    (List.mergeSort_perm times _).countP_eq _
  simpa only [IsMostInWindow, hperm] using h

/-- `RapidReselection` is raised exactly when the largest number of reselections in one window
reaches the threshold, with that number as a `u32`.  The order of the timestamps does not
matter; a handover counts also if the tower stays the same. -/
theorem rapid_reselection_exact (events : List CellEvent) (c : Config) :
    ∃ n, IsMostInWindow (servingChanges true none events) c.window n ∧
      ∀ count, .rapidReselection count ∈ detectImsiCatcherWithConfig events c ↔
        c.threshold ≤ n ∧ count = min n u32Max := by
  obtain ⟨n, hn⟩ := exists_isMostInWindow (servingChanges true none events) c.window
  refine ⟨n, hn, fun count => ?_⟩
  have hwindow : 0 ≤ c.window := by
    rw [Config.window]
    omega
  have hthreshold := c.threshold_le
  obtain ⟨htimes, halerts⟩ := Scan.foldl_step c.strongSignalDbm events ⟨[], [], [], none, []⟩
    (n := count) (by simp)
  rw [detectImsiCatcherWithConfig, scanEvents, htimes, List.nil_append,
    maxReselectionsInWindow_eq hwindow hn, List.mem_append, or_iff_right halerts]
  split <;> simp <;> omega

def sampleTower (timestamp : Int) : CellTower := ⟨234, 15, 1, 1, -70, .lte, timestamp⟩

end Thumos.Sema
