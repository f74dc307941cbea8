import Mathlib.Order.Monotone.Basic
import Mathlib.Tactic.IntervalCases

/-!
# Calendar dates

`decompose_epoch` finds the date of a day in closed form, and `days_from_epoch` of the
SMS module finds the day of a date by another closed form.  Both are compared with the
Gregorian calendar, in which each day is the one after the day before it.
-/

namespace Thumos.Time

/-! ## The calendar -/

@[ext]
structure Date where
  year : Nat
  month : Nat
  day : Nat

abbrev Leap (year : Nat) : Prop := year % 4 = 0 ∧ (year % 100 ≠ 0 ∨ year % 400 = 0)

def daysInMonth (year month : Nat) : Nat :=
  if month = 2 then if Leap year then 29 else 28
  else if month = 4 ∨ month = 6 ∨ month = 9 ∨ month = 11 then 30 else 31

namespace Date

def Valid (d : Date) : Prop :=
  1 ≤ d.month ∧ d.month ≤ 12 ∧ 1 ≤ d.day ∧ d.day ≤ daysInMonth d.year d.month

def next (d : Date) : Date :=
  if d.day < daysInMonth d.year d.month then ⟨d.year, d.month, d.day + 1⟩
  else if d.month < 12 then ⟨d.year, d.month + 1, 1⟩
  else ⟨d.year + 1, 1, 1⟩

def ofDays : Nat → Date
  | 0 => ⟨1970, 1, 1⟩
  | n + 1 => (ofDays n).next

end Date

/-! ## The closed forms -/

/-- The end of `civil_from_days`: day `doy` of the year that starts in March. -/
def ofMarch (y doy : Nat) : Date :=
  let mp := (5 * doy + 2) / 153
  let d := doy - (153 * mp + 2) / 5 + 1
  let m := if mp < 10 then mp + 3 else mp - 9
  ⟨if m ≤ 2 then y + 1 else y, m, d⟩

/-- `civil_from_days` before the year is made a `u16`. -/
def civilDate (days : Nat) : Date :=
  let z := days + 719468
  let era := z / 146097
  let doe := z - era * 146097
  let yoe := (doe - doe / 1460 + doe / 36524 - doe / 146096) / 365
  ofMarch (yoe + era * 400) (doe - (365 * yoe + yoe / 4 - yoe / 100))

def civilFromDays (days : Nat) : Date :=
  { civilDate days with year := min (civilDate days).year 65535 }

def decomposeEpoch (epoch : Nat) : Nat × Nat × Date :=
  if epoch = 0 then (0, 0, ⟨0, 0, 0⟩)
  else (epoch % 86400 / 3600, epoch % 86400 % 3600 / 60, civilFromDays (epoch / 86400))

/-- Without an answer a sum or a product would have wrapped around. -/
def daysFromEpoch (year month day : Nat) : Option Nat :=
  let y := if month ≤ 2 then year - 1 else year
  let m := if month ≤ 2 then month + 9 else month - 3
  let c := y / 100
  let ya := y - c * 100
  let total := 146097 * c / 4 + 1461 * ya / 4 + (153 * m + 2) / 5 + day
  if 1 ≤ year ∧ 146097 * c < 2 ^ 64 ∧ 1461 * ya < 2 ^ 64 ∧ 153 * m + 2 < 2 ^ 64 ∧ total < 2 ^ 64
  then some (total - 719469) else none

def pair (b : UInt8) : Nat := (b &&& 0x0F).toNat * 10 + (b >>> 4).toNat

def maxSctsTzQuarters : Nat := 14 * 4

/-- Without an answer the arithmetic on octets or on the time would have wrapped around. -/
def decodeSctsEpoch : List UInt8 → Option Nat
  | o0 :: o1 :: o2 :: o3 :: o4 :: o5 :: tz :: _ =>
    match daysFromEpoch (2000 + pair o0) (pair o1) (pair o2) with
    | none => none
    | some days =>
      let localTime := days * 86400 + pair o3 * 3600 + pair o4 * 60 + pair o5
      let quarters := (tz &&& 0x07).toNat * 10 + (tz >>> 4).toNat
      let offset := quarters * 15 * 60
      if [o0, o1, o2, o3, o4, o5].all (pair · < 2 ^ 8) ∧ quarters < 2 ^ 8 ∧ localTime < 2 ^ 64 then
        some (if maxSctsTzQuarters < quarters then localTime
          -- The sign is a bit of the tens.
          else if tz &&& 0x08 ≠ 0 then min (localTime + offset) (2 ^ 64 - 1)
          else localTime - offset)
      else none
  | _ => some 0

/-! ## Years from March on -/

def yearLength (y : Nat) : Nat := 365 + if Leap (y + 1) then 1 else 0

theorem yearLength_le (y : Nat) : 365 ≤ yearLength y ∧ yearLength y ≤ 366 := by
  rw [yearLength]
  split_ifs <;> omega

def daysBefore (y : Nat) : Nat := 365 * y + y / 4 - y / 100 + y / 400

theorem daysBefore_succ (y : Nat) : daysBefore (y + 1) = daysBefore y + yearLength y := by
  have h4 : (y + 1) / 4 = y / 4 + if (y + 1) % 4 = 0 then 1 else 0 := by split_ifs <;> omega
  have h100 : (y + 1) / 100 = y / 100 + if (y + 1) % 100 = 0 then 1 else 0 := by
    split_ifs <;> omega
  have h400 : (y + 1) / 400 = y / 400 + if (y + 1) % 400 = 0 then 1 else 0 := by
    split_ifs <;> omega
  have hle : y / 100 ≤ 365 * y := by omega
  rw [daysBefore, daysBefore, yearLength, h4, h100, h400]
  clear h4 h100 h400
  split_ifs <;> omega

theorem daysBefore_inj {y y' doy doy' : Nat} (h : doy < yearLength y) (h' : doy' < yearLength y')
    (heq : daysBefore y + doy = daysBefore y' + doy') : y = y' ∧ doy = doy' := by
  have hmono : Monotone daysBefore := monotone_nat_of_le_succ fun y => by
    rw [daysBefore_succ]
    exact Nat.le_add_right ..
  have hlt {y y' doy : Nat} (h : doy < yearLength y) (hyy : y < y') :
      daysBefore y + doy < daysBefore y' := by
    apply lt_of_lt_of_le _ (hmono hyy)
    rw [Nat.succ_eq_add_one, daysBefore_succ]
    omega
  rcases Nat.lt_trichotomy y y' with hyy | rfl | hyy
  · have := hlt h hyy
    omega
  · exact ⟨rfl, by omega⟩
  · have := hlt h' hyy
    omega

/-- The months before February have the lengths that the closed form gives them. -/
theorem daysInMonth_eq (y : Nat) {k : Nat} (hk : k ≤ 10) :
    (153 * k + 2) / 5 + daysInMonth y (if k < 10 then k + 3 else k - 9) =
      (153 * (k + 1) + 2) / 5 := by
  interval_cases k <;> rfl

theorem ofMarch_eq {doy k : Nat} (y : Nat) (hk : (5 * doy + 2) / 153 = k) :
    ofMarch y doy = ⟨if (if k < 10 then k + 3 else k - 9) ≤ 2 then y + 1 else y,
      if k < 10 then k + 3 else k - 9, doy - (153 * k + 2) / 5 + 1⟩ := by
  rw [← hk]
  rfl

theorem ofMarch_next {y doy : Nat} (h : doy < yearLength y) :
    (ofMarch y doy).Valid ∧ (ofMarch y doy).next =
      if doy + 1 < yearLength y then ofMarch y (doy + 1) else ofMarch (y + 1) 0 := by
  have hyear := yearLength_le y
  generalize hk : (5 * doy + 2) / 153 = k
  rw [ofMarch_eq y hk, Date.Valid, Date.next]
  dsimp only
  rcases Nat.lt_or_ge k 11 with hlt | hge
  · have hlen := daysInMonth_eq (if (if k < 10 then k + 3 else k - 9) ≤ 2 then y + 1 else y)
      (show k ≤ 10 by omega)
    generalize daysInMonth _ _ = len at hlen ⊢
    refine ⟨by split_ifs <;> omega, ?_⟩
    rcases Nat.lt_or_ge (doy + 1) ((153 * (k + 1) + 2) / 5) with hday | hday
    · rw [if_pos (show doy - (153 * k + 2) / 5 + 1 < len by omega),
        if_pos (show doy + 1 < yearLength y by omega), ofMarch_eq y (show _ = k by omega),
        Nat.sub_add_comm (by omega)]
    · rw [if_neg (show ¬doy - (153 * k + 2) / 5 + 1 < len by omega),
        if_pos (show doy + 1 < yearLength y by omega), ofMarch_eq y (show _ = k + 1 by omega)]
      ext <;> dsimp only <;> split_ifs <;> dsimp only <;> omega
  · -- February
    obtain rfl : k = 11 := by omega
    have hlen : daysInMonth (y + 1) 2 + 337 = yearLength y := by
      rw [daysInMonth, if_pos rfl, yearLength]
      split_ifs <;> rfl
    show (1 ≤ 2 ∧ 2 ≤ 12 ∧ 1 ≤ doy - 337 + 1 ∧ doy - 337 + 1 ≤ daysInMonth (y + 1) 2) ∧
      (if doy - 337 + 1 < daysInMonth (y + 1) 2 then Date.mk (y + 1) 2 (doy - 337 + 1 + 1)
        else ⟨y + 1, 3, 1⟩) = _
    refine ⟨by omega, ?_⟩
    rcases Nat.lt_or_ge (doy + 1) (yearLength y) with hday | hday
    · rw [if_pos (by omega), if_pos hday, ofMarch_eq y (show _ = 11 by omega),
        ← Nat.sub_add_comm (by omega)]
      rfl
    · rw [if_neg (by omega), if_neg (by omega)]
      rfl

theorem cycle_cases {doe : Nat} (h : doe < 146097) : ∃ c a b doy,
    doe = 36524 * c + 1461 * a + 365 * b + doy ∧ c < 4 ∧ a < 25 ∧ b < 4 ∧
      (doy < 365 ∨ doy = 365 ∧ b = 3 ∧ (a < 24 ∨ c = 3)) := by
  obtain ⟨c, r, hr, hc, hr'⟩ : ∃ c r, doe = 36524 * c + r ∧ c < 4 ∧
      (r < 36524 ∨ r = 36524 ∧ c = 3) :=
    ⟨min (doe / 36524) 3, doe - 36524 * min (doe / 36524) 3, by omega, by omega, by omega⟩
  obtain ⟨a, q, hq, ha, hq'⟩ : ∃ a q, r = 1461 * a + q ∧ a < 25 ∧ q < 1461 :=
    ⟨r / 1461, r % 1461, by omega, by omega, by omega⟩
  exact ⟨c, a, min (q / 365) 3, q - 365 * min (q / 365) 3, by omega, hc, ha, by omega, by omega⟩

/-- The correction terms of `civil_from_days` count the leap days. -/
theorem yoe_eq {doe c a b doy : Nat} (hdoe : doe = 36524 * c + 1461 * a + 365 * b + doy)
    (hc : c < 4) (ha : a < 25) (hb : b < 4)
    (hdoy : doy < 365 ∨ doy = 365 ∧ b = 3 ∧ (a < 24 ∨ c = 3)) :
    (doe - doe / 1460 + doe / 36524 - doe / 146096) / 365 = 100 * c + 4 * a + b := by
  have hcentury : doe / 36524 = c + doe / 146096 := by
    rcases Nat.lt_or_ge doe 146096 with hlt | hge
    · rw [Nat.div_eq_of_lt hlt]
      omega
    · omega
  have hquad : doe / 1460 = 25 * c + a ∧ 24 * c + a + 365 * b + doy < 1460 ∨
      doe / 1460 = 25 * c + a + 1 ∧ 1460 ≤ 24 * c + a + 365 * b + doy := by omega
  rw [hcentury]
  omega

theorem daysBefore_cycle {c a b : Nat} (era : Nat) (hc : c < 4) (ha : a < 25) (hb : b < 4) :
    daysBefore (100 * c + 4 * a + b + era * 400) =
      146097 * era + 36524 * c + 1461 * a + 365 * b := by
  have h4 : (100 * c + 4 * a + b + era * 400) / 4 = 25 * c + a + 100 * era := by omega
  have h100 : (100 * c + 4 * a + b + era * 400) / 100 = c + 4 * era := by omega
  have h400 : (100 * c + 4 * a + b + era * 400) / 400 = era := by omega
  rw [daysBefore, h4, h100, h400]
  omega

theorem civilDate_eq (n : Nat) : ∃ y doy, civilDate n = ofMarch y doy ∧
    daysBefore y + doy = n + 719468 ∧ doy < yearLength y := by
  have hz := Nat.div_add_mod (n + 719468) 146097
  obtain ⟨c, a, b, doy, hdoe, hc, ha, hb, hdoy⟩ :=
    cycle_cases (Nat.mod_lt (n + 719468) (show 0 < 146097 by decide))
  have hyear := daysBefore_cycle ((n + 719468) / 146097) hc ha hb
  refine ⟨_, doy, ?_, (congrArg (· + doy) hyear).trans (by omega), ?_⟩
  · have hsub : n + 719468 - (n + 719468) / 146097 * 146097 = (n + 719468) % 146097 := by omega
    have h4 : (100 * c + 4 * a + b) / 4 = 25 * c + a := by omega
    have h100 : (100 * c + 4 * a + b) / 100 = c := by omega
    rw [civilDate, hsub, yoe_eq hdoe hc ha hb hdoy, h4, h100, hdoe]
    exact congrArg _ (by omega)
  · rw [yearLength]
    rcases hdoy with hlt | ⟨rfl, rfl, hlast⟩
    · omega
    · rw [if_pos (by omega)]
      omega

theorem civilDate_eq_ofDays (n : Nat) : civilDate n = Date.ofDays n := by
  induction n with
  | zero => rfl
  | succ n ih =>
    obtain ⟨y, doy, hdate, hdays, hdoy⟩ := civilDate_eq n
    obtain ⟨y', doy', hdate', hdays', hdoy'⟩ := civilDate_eq (n + 1)
    rw [Date.ofDays, ← ih, hdate, (ofMarch_next hdoy).2, hdate']
    split_ifs with hlast
    · obtain ⟨rfl, rfl⟩ := daysBefore_inj hlast hdoy' (show daysBefore y + (doy + 1) = _ by omega)
      rfl
    · have hsucc := daysBefore_succ y
      have hpos : 0 < yearLength (y + 1) := (yearLength_le _).1.trans_lt' (by decide)
      obtain ⟨rfl, rfl⟩ := daysBefore_inj hpos hdoy' (by omega)
      rfl

theorem daysBefore_eq (y : Nat) :
    146097 * (y / 100) / 4 + 1461 * (y - y / 100 * 100) / 4 = daysBefore y := by
  obtain ⟨era, c, a, b, rfl, hc, ha, hb⟩ : ∃ era c a b,
      y = 100 * c + 4 * a + b + era * 400 ∧ c < 4 ∧ a < 25 ∧ b < 4 :=
    ⟨y / 400, y % 400 / 100, y % 100 / 4, y % 4, by omega, by omega, by omega, by omega⟩
  have h100 : (100 * c + 4 * a + b + era * 400) / 100 = c + 4 * era := by omega
  have hsub : 100 * c + 4 * a + b + era * 400 - (c + 4 * era) * 100 = 4 * a + b := by omega
  rw [daysBefore_cycle era hc ha hb, h100, hsub]
  omega

theorem daysFromEpoch_isSome {year month day : Nat} (hyear : 1 ≤ year ∧ year < 2 ^ 16)
    (hmonth : month < 2 ^ 8) (hday : day < 2 ^ 8) :
    ∃ n < 2 ^ 32, daysFromEpoch year month day = some n := by
  refine ⟨_, ?_, if_pos ⟨hyear.1, ?_⟩⟩ <;> split_ifs <;> omega

theorem daysFromEpoch_ofMarch {y doy : Nat} (hy : y < 2 ^ 16) (hdoy : doy < yearLength y)
    (hpos : 719468 ≤ daysBefore y + doy) :
    daysFromEpoch (ofMarch y doy).year (ofMarch y doy).month (ofMarch y doy).day =
      some (daysBefore y + doy - 719468) := by
  have hlen := yearLength_le y
  generalize hk : (5 * doy + 2) / 153 = k
  rw [ofMarch_eq y hk]
  generalize hM : (if k < 10 then k + 3 else k - 9) = M
  have hyear : (if M ≤ 2 then (if M ≤ 2 then y + 1 else y) - 1 else if M ≤ 2 then y + 1 else y) =
      y := by split_ifs <;> omega
  have hmonth : (if M ≤ 2 then M + 9 else M - 3) = k := by
    rw [← hM]
    split_ifs <;> omega
  have hcount := daysBefore_eq y
  have hday : (153 * k + 2) / 5 + (doy - (153 * k + 2) / 5 + 1) = doy + 1 := by omega
  have hpos' : 1 ≤ if M ≤ 2 then y + 1 else y := by
    rw [daysBefore] at hpos
    split_ifs <;> omega
  simp only [daysFromEpoch, hyear, hmonth, hcount, add_assoc _ _ (doy - _ + 1), hday]
  rw [if_pos ⟨hpos', by omega, by omega, by omega, by rw [daysBefore]; omega⟩]
  exact congrArg some (by omega)

theorem daysFromEpoch_ofDays {n : Nat} (hyear : (Date.ofDays n).year ≤ 65534) :
    (Date.ofDays n).Valid ∧
      daysFromEpoch (Date.ofDays n).year (Date.ofDays n).month (Date.ofDays n).day = some n := by
  obtain ⟨y, doy, hdate, hdays, hdoy⟩ := civilDate_eq n
  rw [← civilDate_eq_ofDays, hdate] at hyear ⊢
  have hy : y ≤ 65534 := by
    refine le_trans ?_ hyear
    rw [ofMarch]
    dsimp only
    split_ifs <;> omega
  refine ⟨(ofMarch_next hdoy).1, ?_⟩
  rw [daysFromEpoch_ofMarch (by omega) hdoy (by omega), hdays]
  exact congrArg some (by omega)

/-- Every epoch but 0, up to the end of the year 65534, is taken apart into the date of its day
and the time of the day; no other day has that date, and `days_from_epoch` finds the day again. -/
theorem decompose_epoch_exact (epoch : Nat) (hpos : 0 < epoch)
    (hyear : (Date.ofDays (epoch / 86400)).year ≤ 65534) :
    let date := Date.ofDays (epoch / 86400)
    decomposeEpoch epoch = (epoch % 86400 / 3600, epoch % 3600 / 60, date) ∧ date.Valid ∧
      (∀ n, Date.ofDays n = date → n = epoch / 86400) ∧
      daysFromEpoch date.year date.month date.day = some (epoch / 86400) := by
  intro date
  obtain ⟨hvalid, hdays⟩ := daysFromEpoch_ofDays hyear
  refine ⟨?_, hvalid, ?_, hdays⟩
  · have hmin : epoch % 86400 % 3600 = epoch % 3600 := by omega
    rw [decomposeEpoch, if_neg (by omega), civilFromDays, civilDate_eq_ofDays, hmin,
      min_eq_left (by omega)]
  · intro n hn
    have hdays' := (daysFromEpoch_ofDays (n := n) (by rw [hn]; exact hyear)).2
    rw [hn] at hdays'
    exact Option.some_inj.mp (hdays'.symm.trans hdays)

theorem ofDays_leapDay : Date.ofDays 11016 = ⟨2000, 2, 29⟩ := by
  rw [← civilDate_eq_ofDays]
  rfl

/-- One hour, one minute and one second into the leap day of a year that 400 divides. -/
theorem decompose_epoch_exact_leapDay :
    decomposeEpoch 951786061 = (1, 1, ⟨2000, 2, 29⟩) ∧ daysFromEpoch 2000 2 29 = some 11016 := by
  have hdate : Date.ofDays (951786061 / 86400) = ⟨2000, 2, 29⟩ := ofDays_leapDay
  have hexact := decompose_epoch_exact 951786061 (by decide) (by rw [hdate]; decide)
  simp only [hdate] at hexact
  exact ⟨hexact.1, hexact.2.2.2⟩

/-! ## Timestamps of messages -/

def bcd (n : Nat) : UInt8 := .ofNat (n / 10 + 16 * (n % 10))

def tzOctet (quarters : Nat) (negative : Bool) : UInt8 :=
  .ofNat (quarters / 10 + (if negative then 8 else 0) + 16 * (quarters % 10))

theorem pair_bcd : ∀ n < 100, pair (bcd n) = n := by decide

theorem tzOctet_spec : ∀ q < 57, ∀ negative, (tzOctet q negative &&& 0x08 ≠ 0 ↔ negative = true) ∧
    (tzOctet q negative &&& 0x07).toNat * 10 + (tzOctet q negative >>> 4).toNat = q := by decide

theorem octet_lt (b m : UInt8) : (b &&& m).toNat * 10 + (b >>> 4).toNat ≤ m.toNat * 10 + 15 := by
  have hlo : (b &&& m).toNat ≤ m.toNat := by
    rw [UInt8.toNat_and]
    exact Nat.and_le_right
  have hhi : (b >>> 4).toNat ≤ 15 := by
    have := b.toNat_lt
    rw [UInt8.toNat_shiftRight]
    simp only [UInt8.reduceToNat, Nat.reduceMod, Nat.shiftRight_eq_div_pow]
    omega
  omega

theorem pair_lt (b : UInt8) : pair b < 2 ^ 8 := (octet_lt b 0x0F).trans_lt (by decide)

/-- A timestamp that encodes a local time of a date in 2000 to 2099 and an offset of at most 14
hours is decoded to the Unix time.  No octets make the arithmetic wrap around. -/
theorem scts_epoch_exact :
    (∀ n year month day hour minute second quarters (negative : Bool), year < 100 →
      Date.ofDays n = ⟨2000 + year, month, day⟩ → hour < 24 → minute < 60 → second < 60 →
      quarters ≤ 56 →
      ∃ t : Nat, decodeSctsEpoch [bcd year, bcd month, bcd day, bcd hour, bcd minute, bcd second,
          tzOctet quarters negative] = some t ∧
        (t : Int) = n * 86400 + hour * 3600 + minute * 60 + second -
          (if negative then -1 else 1) * (quarters * 900)) ∧
    ∀ scts, (decodeSctsEpoch scts).isSome := by
  refine ⟨?_, ?_⟩
  · intro n year month day hour minute second quarters negative hy hdate hh hmin hs hq
    obtain ⟨⟨-, hm, -, hd⟩, hdays⟩ :=
      daysFromEpoch_ofDays (n := n) (by rw [hdate]; dsimp only; omega)
    rw [hdate] at hm hd hdays
    dsimp only at hm
    have hd31 : day ≤ 31 := hd.trans (by rw [daysInMonth]; split_ifs <;> omega)
    obtain ⟨n', hlt, hdays'⟩ := daysFromEpoch_isSome (show 1 ≤ 2000 + year ∧ _ by omega)
      (show month < _ by omega) (show day < _ by omega)
    cases hdays.symm.trans hdays'
    have hpos : n ≠ 0 := by
      rintro rfl
      have : 1970 = 2000 + year := congrArg Date.year hdate
      omega
    obtain ⟨hsign, hquarters⟩ := tzOctet_spec quarters (by omega) negative
    simp only [decodeSctsEpoch, pair_bcd _ hy, pair_bcd month (by omega),
      pair_bcd day (by omega), pair_bcd hour (by omega), pair_bcd minute (by omega),
      pair_bcd second (by omega), hdays, hquarters, hsign, maxSctsTzQuarters]
    rw [if_pos ⟨List.all_eq_true.2 fun o _ => decide_eq_true (pair_lt o), by omega, by omega⟩,
      if_neg (by omega)]
    refine ⟨_, rfl, ?_⟩
    cases negative <;> simp <;> omega
  · intro scts
    unfold decodeSctsEpoch
    split
    · rename_i o0 o1 o2 o3 o4 o5 tz rest
      have h0 := pair_lt o0
      have h3 := pair_lt o3
      have h4 := pair_lt o4
      have h5 := pair_lt o5
      obtain ⟨days, hlt, hdays⟩ :=
        daysFromEpoch_isSome (show 1 ≤ 2000 + pair o0 ∧ _ by omega) (pair_lt o1) (pair_lt o2)
      simp only [hdays]
      rw [if_pos ⟨List.all_eq_true.2 fun o _ => decide_eq_true (pair_lt o),
        (octet_lt tz 0x07).trans_lt (by decide), by omega⟩]
      rfl
    · rfl

/-- The same second, in a zone one hour ahead. -/
theorem scts_epoch_exact_leapDay :
    ∃ t : Nat, decodeSctsEpoch [bcd 0, bcd 2, bcd 29, bcd 2, bcd 1, bcd 1, tzOctet 4 false] =
      some t ∧ (t : Int) = 951786061 := by
  obtain ⟨t, hdecode, ht⟩ := scts_epoch_exact.1 11016 0 2 29 2 1 1 4 false (by decide)
    ofDays_leapDay (by decide) (by decide) (by decide) (by decide)
  exact ⟨t, hdecode, ht.trans (by decide)⟩

end Thumos.Time
