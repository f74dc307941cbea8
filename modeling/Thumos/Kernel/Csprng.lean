import Mathlib.Algebra.BigOperators.Intervals
import Mathlib.Algebra.Ring.Periodic
import Thumos.Lib.LittleEndian

/-!
# The kernel's random generator

Timer samples are credited by how far their interval departs from the interval
before it, and the generator is seeded once the credit reaches 256 bits.  The
ChaCha20 generator is a parameter.
-/

namespace Thumos.Csprng

open LittleEndian UInt32 Finset Nat

def reseedThreshold : Nat := 1 <<< 20
def seedEntropyBits : Nat := 256
def timerJitterMask : UInt32 := 0xFFF
def maxCreditBitsPerSample : Nat := 4

structure EntropyPool where
  pool : Vector UInt8 32 := Vector.replicate 32 0
  entropyBits : Nat := 0
  lastSample : UInt32 := 0
  lastDelta : UInt32 := 0
  lastJitter : UInt32 := 0
  haveSample : Bool := false
  haveDelta : Bool := false
  haveJitter : Bool := false
  cursor : Fin 32 := 0

def countOnes (x : UInt32) : Nat := (List.range 32).countP x.toNat.testBit

def credit (jitter : UInt32) : Nat :=
  min (countOnes (jitter &&& timerJitterMask)) maxCreditBitsPerSample

namespace EntropyPool

def mixBytes (p : EntropyPool) (data : List UInt8) : EntropyPool :=
  data.foldl (fun p byte =>
    { p with pool := p.pool.set p.cursor (p.pool[p.cursor] ^^^ byte), cursor := p.cursor + 1 }) p

def addTimerSample (p : EntropyPool) (sample : UInt32) : EntropyPool :=
  let p := p.mixBytes (leBytes 4 sample.toNat)
  let delta := sample - p.lastSample
  let jitter := delta - p.lastDelta
  let p :=
    if p.haveDelta then
      let repeated := p.haveJitter ∧ (jitter = p.lastJitter ∨ jitter = -p.lastJitter)
      let bits := if repeated then p.entropyBits
        else min (p.entropyBits + credit jitter) (2 ^ 32 - 1)
      { p with entropyBits := bits, lastJitter := jitter, haveJitter := true }
    else p
  let p := if p.haveSample then { p with lastDelta := delta, haveDelta := true } else p
  { p with lastSample := sample, haveSample := true }

def isSeeded (p : EntropyPool) : Bool := p.entropyBits ≥ seedEntropyBits

end EntropyPool

structure ChaCha (Rng : Type) where
  fromSeed : Vector UInt8 32 → Rng
  fillBytes : Rng → Nat → List UInt8 × Rng

inductive Call where
  | addTimerSample (sample : UInt32)
  | addEntropy (data : List UInt8)

structure State (Rng : Type) where
  entropy : EntropyPool := {}
  /-- The generator and the bytes it gave since it was seeded. -/
  csprng : Option (Rng × Nat) := none
  initialized : Bool := false

inductive CsprngError where
  | notSeeded
  deriving DecidableEq

namespace State

variable {Rng : Type} (chacha : ChaCha Rng)

def call (s : State Rng) : Call → State Rng
  | .addTimerSample sample => { s with entropy := s.entropy.addTimerSample sample }
  | .addEntropy data => { s with entropy := s.entropy.mixBytes data }

def run (s : State Rng) (calls : List Call) : State Rng := calls.foldl call s

def seed (s : State Rng) : State Rng :=
  { s with csprng := some (chacha.fromSeed s.entropy.pool, 0), initialized := true }

/-- The loop of `init`: the calls that arrive between two polls, until the timeout. -/
def init (s : State Rng) : List (List Call) → Bool × State Rng
  | [] => if s.entropy.isSeeded then (true, s.seed chacha) else (false, s)
  | calls :: waits =>
    if s.entropy.isSeeded then (true, s.seed chacha) else init (s.run calls) waits

def kernelRandomBytes (s : State Rng) (buf : List UInt8) :
    Except CsprngError Unit × List UInt8 × State Rng :=
  if ¬s.initialized then (.error .notSeeded, buf, s)
  else
    match s.csprng with
    | none => (.error .notSeeded, buf, s)
    | some (rng, generated) =>
      let (buf, rng) := chacha.fillBytes rng buf.length
      let generated := min (generated + buf.length) (2 ^ 64 - 1)
      if generated ≥ reseedThreshold then
        let (mixer, _) := chacha.fillBytes rng 32
        let seed := Vector.ofFn fun i : Fin 32 => s.entropy.pool[i] ^^^ mixer.getD i 0
        (.ok (), buf, { s with csprng := some (chacha.fromSeed seed, 0) })
      else (.ok (), buf, { s with csprng := some (rng, generated) })

end State

/-! ## The credit of a sequence of samples -/

def interval (samples : Nat → UInt32) (k : Nat) : UInt32 := samples (k + 1) - samples k

def jitterAt (samples : Nat → UInt32) (k : Nat) : UInt32 :=
  interval samples (k + 1) - interval samples k

/-- The jitter is the one before it, up to its sign. -/
def Repeats (samples : Nat → UInt32) (k : Nat) : Prop :=
  jitterAt samples (k + 1) = jitterAt samples k ∨ jitterAt samples (k + 1) = -jitterAt samples k

instance (samples : Nat → UInt32) (k : Nat) : Decidable (Repeats samples k) :=
  inferInstanceAs (Decidable (_ ∨ _))

def creditAt (samples : Nat → UInt32) : Nat → Nat
  | 0 => credit (jitterAt samples 0)
  | k + 1 => if Repeats samples k then 0 else credit (jitterAt samples (k + 1))

/-- The pool after the first `n` samples. -/
structure Follows (samples : Nat → UInt32) (n : Nat) (p : EntropyPool) : Prop where
  haveSample : p.haveSample = decide (1 ≤ n)
  haveDelta : p.haveDelta = decide (2 ≤ n)
  haveJitter : p.haveJitter = decide (3 ≤ n)
  lastSample : ∀ k, n = k + 1 → p.lastSample = samples k
  lastDelta : ∀ k, n = k + 2 → p.lastDelta = interval samples k
  lastJitter : ∀ k, n = k + 3 → p.lastJitter = jitterAt samples k
  bits : p.entropyBits = min (∑ k ∈ Finset.range (n - 2), creditAt samples k) (2 ^ 32 - 1)

section

variable {samples : Nat → UInt32} {n : Nat} {p : EntropyPool}

theorem Follows.mixBytes (h : Follows samples n p) (data : List UInt8) :
    Follows samples n (p.mixBytes data) := by
  induction data generalizing p with
  | nil => exact h
  | cons byte data ih =>
    exact ih ⟨h.haveSample, h.haveDelta, h.haveJitter, h.lastSample, h.lastDelta, h.lastJitter,
      h.bits⟩

theorem Follows.addTimerSample (h : Follows samples n p) :
    Follows samples (n + 1) (p.addTimerSample (samples n)) := by
  have h := h.mixBytes (leBytes 4 (samples n).toNat)
  rw [EntropyPool.addTimerSample]
  generalize p.mixBytes _ = p at h
  match n with
  | 0 =>
    have hs := h.haveSample
    have hd := h.haveDelta
    constructor <;> simp_all [h.haveJitter, h.bits]
  | 1 =>
    have hs := h.haveSample
    have hd := h.haveDelta
    constructor <;> simp_all [h.haveJitter, h.bits, h.lastSample 0, interval]
  | k + 2 =>
    have hdelta : samples (k + 2) - p.lastSample = interval samples (k + 1) := by
      rw [h.lastSample (k + 1) rfl, interval]
    have hjitter : interval samples (k + 1) - p.lastDelta = jitterAt samples k := by
      rw [h.lastDelta k rfl, jitterAt]
    have hs : p.haveSample := h.haveSample.trans (by simp)
    have hd : p.haveDelta := h.haveDelta.trans (by simp)
    simp only [hdelta, hjitter, hs, hd, if_true]
    refine ⟨by simp, by simp, by simp, ?_, ?_, ?_, ?_⟩
    · rintro _ ⟨⟩
      rfl
    · rintro _ ⟨⟩
      rfl
    · rintro _ ⟨⟩
      rfl
    · have hbits := h.bits
      rw [Nat.add_sub_cancel] at hbits
      rw [show k + 2 + 1 - 2 = k + 1 by omega, sum_range_succ, hbits, h.haveJitter]
      -- The repetition guard needs the jitter before this one.
      cases k with
      | zero => simp [creditAt]
      | succ k =>
        rw [h.lastJitter k rfl, creditAt]
        by_cases hrepeats : Repeats samples k
        · rw [if_pos ⟨by simp, hrepeats⟩, if_pos hrepeats]
          simp
        · rw [if_neg fun hr => hrepeats hr.2, if_neg hrepeats]
          dsimp only
          omega

theorem countOnes_eq_zero {x : UInt32} : countOnes x = 0 ↔ x = 0 := by
  rw [countOnes, List.countP_eq_zero]
  constructor
  · intro h
    apply UInt32.toNat_inj.mp
    apply eq_of_testBit_eq
    intro i
    rw [UInt32.toNat_zero, zero_testBit]
    by_cases hi : i < 32
    · exact Bool.not_eq_true _ ▸ h i (List.mem_range.mpr hi)
    · exact testBit_lt_two_pow
        (lt_of_lt_of_le x.toNat_lt (Nat.pow_le_pow_right (by decide) (by omega)))
  · rintro rfl
    simp

theorem credit_eq_zero {jitter : UInt32} : credit jitter = 0 ↔ jitter &&& timerJitterMask = 0 := by
  rw [credit, ← countOnes_eq_zero, min_eq_zero_iff, maxCreditBitsPerSample]
  omega

theorem creditAt_succ_eq_zero {k : Nat} : creditAt samples (k + 1) = 0 ↔
    Repeats samples k ∨ jitterAt samples (k + 1) &&& timerJitterMask = 0 := by
  rw [creditAt, ← credit_eq_zero]
  split <;> simp_all

theorem sum_creditAt_le (h : ∀ k, creditAt samples (k + 1) = 0) (n : Nat) :
    ∑ k ∈ range n, creditAt samples k ≤ maxCreditBitsPerSample := by
  cases n with
  | zero => simp
  | succ n =>
    rw [sum_range_succ', sum_eq_zero fun k _ => h k, zero_add]
    exact min_le_right _ _

theorem le_sum_creditAt {p k : Nat} (hp : 0 < p)
    (hperiod : Function.Periodic (interval samples) p) (hk : creditAt samples (k + 1) ≠ 0)
    (m : Nat) : m ≤ ∑ i ∈ range (k + 1 + m * p), creditAt samples i := by
  induction m with
  | zero => exact zero_le _
  | succ m ih =>
    have hinterval : Function.Periodic (interval samples) (m * p) := hperiod.nat_mul m
    have hjitter : ∀ i, jitterAt samples (i + m * p) = jitterAt samples i := by
      intro i
      rw [jitterAt, add_right_comm, hinterval (i + 1), hinterval i, ← jitterAt]
    have hrepeats : Repeats samples (k + m * p) ↔ Repeats samples k := by
      unfold Repeats
      rw [add_right_comm, hjitter, hjitter]
    have hcredit : creditAt samples (k + 1 + m * p) = creditAt samples (k + 1) := by
      rw [add_right_comm]
      simp only [creditAt, hrepeats]
      rw [add_right_comm, hjitter]
    calc m + 1 ≤ ∑ i ∈ range (k + 1 + m * p + 1), creditAt samples i := by
          rw [sum_range_succ, hcredit]
          omega
      _ ≤ _ := by
          refine sum_le_sum_of_subset (range_mono ?_)
          rw [succ_mul]
          omega

def Feeds (samples : Nat → UInt32) : Nat → List Call → Prop
  | _, [] => True
  | n, .addTimerSample sample :: calls => sample = samples n ∧ Feeds samples (n + 1) calls
  | n, .addEntropy _ :: calls => Feeds samples n calls

def timerCalls (samples : Nat → UInt32) : Nat → Nat → List Call
  | _, 0 => []
  | n, m + 1 => .addTimerSample (samples n) :: timerCalls samples (n + 1) m

variable {Rng : Type} {s : State Rng}

theorem feeds_timerCalls (samples : Nat → UInt32) (n m : Nat) :
    Feeds samples n (timerCalls samples n m) := by
  induction m generalizing n with
  | zero => trivial
  | succ m ih => exact ⟨rfl, ih (n + 1)⟩

theorem Follows.timerCalls (h : Follows samples n s.entropy) (m : Nat) :
    Follows samples (n + m) (s.run (timerCalls samples n m)).entropy := by
  induction m generalizing n s with
  | zero => exact h
  | succ m ih =>
    rw [show n + (m + 1) = n + 1 + m by omega]
    exact ih (s := s.call _) h.addTimerSample

theorem Follows.run {calls rest : List Call} (h : Follows samples n s.entropy)
    (hfeeds : Feeds samples n (calls ++ rest)) :
    ∃ m, Follows samples m (s.run calls).entropy ∧ Feeds samples m rest := by
  induction calls generalizing n s with
  | nil => exact ⟨n, h, hfeeds⟩
  | cons call calls ih =>
    cases call with
    | addTimerSample sample =>
      obtain ⟨rfl, hfeeds⟩ := hfeeds
      exact ih (s := s.call _) h.addTimerSample hfeeds
    | addEntropy data => exact ih (s := s.call _) (h.mixBytes data) hfeeds

theorem follows_fresh : Follows samples 0 ({} : State Rng).entropy := by
  constructor <;> simp

theorem Follows.isSeeded (h : Follows samples n p) :
    p.isSeeded ↔ seedEntropyBits ≤ ∑ k ∈ range (n - 2), creditAt samples k := by
  rw [EntropyPool.isSeeded, decide_eq_true_iff, h.bits, seedEntropyBits]
  omega

theorem run_initialized (s : State Rng) (calls : List Call) :
    (s.run calls).initialized = s.initialized := by
  induction calls generalizing s with
  | nil => rfl
  | cons call calls ih => exact (ih _).trans (by cases call <;> rfl)

theorem init_eq_false (chacha : ChaCha Rng) (h : Follows samples n s.entropy)
    (hs : s.initialized = false) (hlow : ∀ n, ∑ k ∈ range n, creditAt samples k < seedEntropyBits)
    (waits : List (List Call)) (hfeeds : Feeds samples n waits.flatten) :
    (s.init chacha waits).1 = false ∧ (s.init chacha waits).2.initialized = false := by
  have hseeded : ¬s.entropy.isSeeded := by
    rw [h.isSeeded]
    exact not_le.mpr (hlow _)
  induction waits generalizing n s with
  | nil =>
    rw [State.init, if_neg hseeded]
    exact ⟨rfl, hs⟩
  | cons calls waits ih =>
    rw [State.init, if_neg hseeded]
    obtain ⟨m, hm, hrest⟩ := h.run hfeeds
    refine ih hm ((run_initialized s calls).trans hs) hrest ?_
    rw [hm.isSeeded]
    exact not_le.mpr (hlow _)

end

/-- Whatever is mixed in between: the credit stays below the threshold, `init` fails and
nothing is generated. -/
def NeverSeeds {Rng : Type} (chacha : ChaCha Rng) (samples : Nat → UInt32) : Prop :=
  ∀ (before : List Call) (waits : List (List Call)), Feeds samples 0 (before ++ waits.flatten) →
    let fresh : State Rng := {}
    let (seeded, s) := (fresh.run before).init chacha waits
    (fresh.run (before ++ waits.flatten)).entropy.entropyBits < seedEntropyBits ∧
      seeded = false ∧ ∀ buf, s.kernelRandomBytes chacha buf = (.error .notSeeded, buf, s)

/-- A timer with periodic intervals never seeds the generator exactly if each jitter repeats the
one before it or lies above the mask. -/
theorem periodic_neverSeeds_iff {Rng : Type} (chacha : ChaCha Rng) (samples : Nat → UInt32)
    (p : Nat) (hp : 0 < p) (hperiod : Function.Periodic (interval samples) p) :
    NeverSeeds chacha samples ↔
      ∀ k, Repeats samples k ∨ jitterAt samples (k + 1) &&& timerJitterMask = 0 := by
  simp only [← creditAt_succ_eq_zero]
  constructor
  · intro h k
    by_contra hk
    -- Every period is credited at least once more.
    have hsum := le_sum_creditAt hp hperiod hk seedEntropyBits
    have hfresh : Follows samples 0 ({} : State Rng).entropy := follows_fresh
    have hfollows := hfresh.timerCalls (k + 1 + seedEntropyBits * p + 2)
    rw [zero_add] at hfollows
    have hseeded := hfollows.isSeeded.mpr hsum
    rw [EntropyPool.isSeeded, decide_eq_true_iff] at hseeded
    have hfeeds := feeds_timerCalls samples 0 (k + 1 + seedEntropyBits * p + 2)
    rw [← List.append_nil (timerCalls _ _ _), ← List.flatten_nil] at hfeeds
    have hlow := (h _ [] hfeeds).1
    rw [List.flatten_nil, List.append_nil] at hlow
    exact absurd hlow (not_lt.mpr hseeded)
  · intro h before waits hfeeds
    have hlow : ∀ n, ∑ k ∈ range n, creditAt samples k < seedEntropyBits :=
      fun n => lt_of_le_of_lt (sum_creditAt_le h n) (by decide)
    have hfresh : Follows samples 0 ({} : State Rng).entropy := follows_fresh
    obtain ⟨n, hn, hwaits⟩ := hfresh.run hfeeds
    obtain ⟨hfalse, hinit⟩ := init_eq_false chacha hn (run_initialized _ _) hlow waits hwaits
    refine ⟨?_, hfalse, fun buf => ?_⟩
    · rw [← List.append_nil (before ++ waits.flatten)] at hfeeds
      obtain ⟨m, hm, -⟩ := hfresh.run hfeeds
      have hbits := hm.isSeeded.not.mpr (not_le.mpr (hlow _))
      rw [EntropyPool.isSeeded, decide_eq_true_iff] at hbits
      exact not_le.mp hbits
    · rw [State.kernelRandomBytes, if_pos (by simp [hinit])]

def sampleChaCha : ChaCha Nat := ⟨fun _ => 0, fun rng n => (List.replicate n 0, rng + n)⟩

/-- A constant interval earns nothing. -/
theorem constant_neverSeeds : NeverSeeds sampleChaCha fun k => ofNat (k * 65000) := by
  have hinterval : ∀ k, interval (fun k => ofNat (k * 65000)) k = 65000 := by
    simp only [interval, add_mul, ofNat_add]
    grind
  refine (periodic_neverSeeds_iff sampleChaCha _ 1 one_pos fun k => ?_).mpr fun k => .inl ?_
  · rw [hinterval, hinterval]
  · left
    simp only [jitterAt, hinterval]

/-- The samples of the intervals 0, 1, 3, 0, 1, 3, and so on. -/
def threeSamples (k : Nat) : UInt32 := UInt32.ofNat (k / 3 * 4 + if k % 3 = 2 then 1 else 0)

/-- They have the period 3, and 140 of them seed the generator. -/
theorem threeSamples_seed :
    Function.Periodic (interval threeSamples) 3 ∧
      ((({} : State Nat).run (timerCalls threeSamples 0 140)).init sampleChaCha []).1 = true := by
  refine ⟨fun k => ?_, by decide +kernel⟩
  have hnext : ∀ k, threeSamples (k + 3) = threeSamples k + 4 := by
    intro k
    rw [threeSamples, add_div_right k (by decide), add_mod_right, threeSamples,
      succ_mul, add_right_comm, ofNat_add]
    rfl
  rw [interval, add_right_comm, hnext, hnext, interval]
  grind

end Thumos.Csprng
