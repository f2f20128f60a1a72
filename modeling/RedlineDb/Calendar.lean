import Mathlib.Order.Monotone.Basic
import Mathlib.Tactic.IntervalCases

/-!
# The civil calendar

`datetime.rs`: seconds since 1970 as a date of the proleptic Gregorian calendar with a time of day,
and back. The source counts in eras of 400 years that begin in March, so that the leap day is a
year's last one.
-/

namespace RedlineDb.DateTimes

structure DateTime where
  year : Int
  month : Nat
  day : Nat
  hour : Nat
  minute : Nat
  second : Nat
  micro : Nat
  isLocal : Bool
  /-- Bits of the number that was out of range. -/
  outOfRange : Option UInt64
deriving DecidableEq

abbrev Date := Int × Nat × Nat

def DateTime.date (d : DateTime) : Date := (d.year, d.month, d.day)

def yearOfEra (doe : Nat) : Nat := (doe - doe / 1460 + doe / 36524 - doe / 146096) / 365

def monthOf (mp : Nat) : Nat := if mp < 10 then mp + 3 else mp - 9

def monthFromMarch (month : Nat) : Nat := if 2 < month then month - 3 else month + 9

/-- The date in `from_unix`, before its year is cast to 32 bits. -/
def civil (days : Int) : Date :=
  let d := days + 719468
  let doe := (d % 146097).toNat
  let yoe := yearOfEra doe
  let doy := doe - (365 * yoe + yoe / 4 - yoe / 100)
  let mp := (5 * doy + 2) / 153
  let month := monthOf mp
  (yoe + d / 146097 * 400 + (if month ≤ 2 then 1 else 0), month, doy - (153 * mp + 2) / 5 + 1)

def fromUnix (secs : Int) (micro : Nat) : DateTime :=
  let s := (secs % 86400).toNat
  let (year, month, day) := civil (secs / 86400)
  ⟨year.bmod (2 ^ 32), month, day, s / 3600, s % 3600 / 60, s % 3600 % 60, micro, false, none⟩

/-- The days in `to_unix`. -/
def days : Date → Int
  | (year, month, day) =>
  let y := year - if month ≤ 2 then 1 else 0
  let yoe := (y % 400).toNat
  let doy := (153 * monthFromMarch month + 2) / 5 + day - 1
  y / 400 * 146097 + ((yoe * 365 + yoe / 4 - yoe / 100 + doy : Nat) : Int) - 719468

def DateTime.toUnix (d : DateTime) : Int :=
  days d.date * 86400 + d.hour * 3600 + d.minute * 60 + d.second

def daysInMonth (year : Int) (month : Nat) : Nat :=
  match month with
  | 1 | 3 | 5 | 7 | 8 | 10 | 12 => 31
  | 4 | 6 | 9 | 11 => 30
  | 2 => if year.tmod 4 = 0 ∧ year.tmod 100 ≠ 0 ∨ year.tmod 400 = 0 then 29 else 28
  | _ => 30

def IsLeap (year : Int) : Prop := 4 ∣ year ∧ (100 ∣ year → 400 ∣ year)

def IsDate : Date → Prop
  | (year, month, day) => 1 ≤ month ∧ month ≤ 12 ∧ 1 ≤ day ∧ day ≤ daysInMonth year month

def FitsI32 (year : Int) : Prop := -2 ^ 31 ≤ year ∧ year < 2 ^ 31

def DateTime.IsValid (d : DateTime) : Prop :=
  FitsI32 d.year ∧ IsDate d.date ∧ d.hour < 24 ∧ d.minute < 60 ∧ d.second < 60

def nextDate : Date → Date
  | (year, month, day) =>
    if day < daysInMonth year month then (year, month, day + 1)
    else if month < 12 then (year, month + 1, 1)
    else (year + 1, 1, 1)

def DateTime.nextDay (d : DateTime) : DateTime :=
  let (year, month, day) := nextDate d.date
  { d with year, month, day }

def daysBefore (y : Nat) : Nat := 365 * y + y / 4 - y / 100 + y / 400

theorem yearOfEra_mono : Monotone yearOfEra :=
  monotone_nat_of_le_succ fun n => Nat.div_le_div_right (by
    have h1 : (n + 1) / 1460 ≤ n / 1460 + 1 := by omega
    have h2 : (n + 1) / 36524 = n / 36524 + 1 ∧ (n + 1) / 146096 ≤ n / 146096 + 1 ∨
      (n + 1) / 36524 = n / 36524 ∧ (n + 1) / 146096 = n / 146096 := by omega
    generalize (n + 1) / 1460 = a', n / 1460 = a, (n + 1) / 36524 = b', n / 36524 = b,
      (n + 1) / 146096 = c',
      n / 146096 = c at h1 h2 ⊢
    omega)

theorem yearOfEra_ends : ∀ y < 400, yearOfEra (daysBefore y) = y ∧
    yearOfEra (daysBefore (y + 1) - 1) = y := by
  decide +kernel

theorem yearOfEra_eq {y doe : Nat} (hy : y < 400) (h : daysBefore y ≤ doe)
    (h' : doe < daysBefore (y + 1)) :
    yearOfEra doe = y := by
  obtain ⟨hfirst, hlast⟩ := yearOfEra_ends y hy
  have hge := hfirst ▸ yearOfEra_mono h
  have hle := hlast ▸ yearOfEra_mono (Nat.le_sub_one_of_lt h')
  exact le_antisymm hle hge

theorem exists_year {doe : Nat} : ∀ n, doe < daysBefore n → ∃ y < n, daysBefore y ≤ doe ∧
    doe < daysBefore (y + 1)
  | 0, h => absurd h (Nat.not_lt_zero _)
  | n + 1, h => by
    by_cases hn : doe < daysBefore n
    · obtain ⟨y, hy, hdoe⟩ := exists_year n hn
      exact ⟨y, by omega, hdoe⟩
    · exact ⟨n, by omega, by omega, h⟩

theorem daysInMonth_february (year : Int) :
    daysInMonth year 2 = if year % 4 = 0 ∧ (year % 100 = 0 → year % 400 = 0) then 29 else 28 := by
  simp only [daysInMonth, ne_eq, ← Int.dvd_iff_tmod_eq_zero]
  split <;> split <;> omega

theorem daysInMonth_pos (year : Int) (month : Nat) : 1 ≤ daysInMonth year month := by
  unfold daysInMonth
  split <;> try decide
  split <;> decide

theorem daysInMonth_eq (year : Int) {month : Nat} (h1 : 1 ≤ month) (h12 : month ≤ 12)
    (h2 : month ≠ 2) :
    (153 * monthFromMarch month + 2) / 5 + daysInMonth year month =
    (153 * (monthFromMarch month + 1) + 2) / 5 := by
  interval_cases month <;> simp [daysInMonth, monthFromMarch] at h2 ⊢

theorem daysBefore_eq {yoe : Nat} (h : yoe < 400) :
    365 * yoe + yoe / 4 - yoe / 100 = daysBefore yoe := by
  unfold daysBefore
  omega

theorem civil_of {era : Int} {yoe doy : Nat} (hyoe : yoe < 400)
    (hdoy : daysBefore yoe + doy < daysBefore (yoe + 1)) :
    civil (era * 146097 + (daysBefore yoe + doy : Nat) - 719468) =
      (yoe + era * 400 + (if monthOf ((5 * doy + 2) / 153) ≤ 2 then 1 else 0),
        monthOf ((5 * doy + 2) / 153),
        doy - (153 * ((5 * doy + 2) / 153) + 2) / 5 + 1) := by
  have hera : daysBefore yoe + doy < 146097 := by
    unfold daysBefore at hdoy ⊢
    omega
  have hdoe : ((era * 146097 + (daysBefore yoe + doy : Nat) - 719468 + 719468) % 146097).toNat =
      daysBefore yoe + doy := by omega
  have hquot : (era * 146097 + (daysBefore yoe + doy : Nat) - 719468 + 719468) / 146097 =
      era := by omega
  simp only [civil, hdoe, hquot, yearOfEra_eq hyoe (Nat.le_add_right ..) hdoy, daysBefore_eq hyoe,
    Nat.add_sub_cancel_left]

theorem IsDate.fits {year : Int} {month day : Nat} (h : IsDate (year, month, day)) :
    let yoe := ((year - if month ≤ 2 then 1 else 0) % 400).toNat
    let doy := (153 * monthFromMarch month + 2) / 5 + day - 1
    daysBefore yoe + doy < daysBefore (yoe + 1) ∧ (5 * doy + 2) / 153 = monthFromMarch month := by
  obtain ⟨h1, h12, hday, hlen⟩ := h
  unfold daysBefore
  by_cases h2 : month = 2
  · subst h2
    rw [daysInMonth_february] at hlen
    simp only [monthFromMarch, le_refl, if_true, lt_irrefl, if_false]
    split at hlen <;> omega
  · have hq := daysInMonth_eq year h1 h12 h2
    have hm : monthFromMarch month ≤ 10 := by
      unfold monthFromMarch
      split <;> omega
    generalize monthFromMarch month = m at hq hm
    omega

theorem days_eq {year : Int} {month day : Nat} :
    let yoe := ((year - if month ≤ 2 then 1 else 0) % 400).toNat
    days (year, month, day) = (year - if month ≤ 2 then 1 else 0) / 400 * 146097 +
      (daysBefore yoe + ((153 * monthFromMarch month + 2) / 5 + day - 1) : Nat) - 719468 := by
  intro yoe
  have hyoe : yoe < 400 := by omega
  simp only [days, ← daysBefore_eq hyoe, Nat.mul_comm 365, yoe]

theorem civil_days {d : Date} (h : IsDate d) : civil (days d) = d := by
  obtain ⟨year, month, day⟩ := d
  obtain ⟨hdoy, hm⟩ := h.fits
  have hmonth : monthOf (monthFromMarch month) = month := by
    obtain ⟨h1, h12, -⟩ := h
    unfold monthOf monthFromMarch
    split <;> split <;> omega
  rw [days_eq, civil_of (by omega) hdoy, hm, hmonth]
  refine Prod.ext ?_ (Prod.ext rfl ?_)
  · dsimp only
    omega
  · have := h.2.2.1
    dsimp only
    omega

theorem days_civil (n : Int) : days (civil n) = n ∧ IsDate (civil n) := by
  obtain ⟨yoe, hyoe, hle, hlt⟩ := @exists_year ((n + 719468) % 146097).toNat 400 (by
    have : daysBefore 400 = 146097 := rfl
    omega)
  obtain ⟨doy, hdoy⟩ := Nat.exists_eq_add_of_le hle
  rw [hdoy] at hlt
  obtain ⟨era, rfl⟩ : ∃ era : Int, n = era * 146097 + (daysBefore yoe + doy : Nat) - 719468 :=
    ⟨(n + 719468) / 146097, by omega⟩
  clear hle hdoy
  rw [civil_of hyoe hlt]
  unfold daysBefore at hlt
  generalize hmp : (5 * doy + 2) / 153 = mp
  have hback : monthFromMarch (monthOf mp) = mp ∧ 1 ≤ monthOf mp ∧ monthOf mp ≤ 12 ∧
      (monthOf mp = 2 → mp = 11) := by
    unfold monthOf monthFromMarch
    split <;> split <;> omega
  obtain ⟨hback, h1, h12, hfeb⟩ := hback
  refine ⟨?_, h1, h12, Nat.le_add_left .., ?_⟩
  · have hyear : ((yoe + era * 400 : Int) % 400).toNat = yoe ∧
        (yoe + era * 400 : Int) / 400 = era := by omega
    simp only [days_eq, add_sub_cancel_right, hyear, hback]
    omega
  · by_cases h2 : monthOf mp = 2
    · rw [h2, daysInMonth_february, if_pos le_rfl]
      have := hfeb h2
      split <;> omega
    · have hlen := daysInMonth_eq (yoe + era * 400 + if monthOf mp ≤ 2 then 1 else 0) h1 h12 h2
      rw [hback] at hlen
      omega

theorem days_nextDate {d : Date} (h : IsDate d) :
    days (nextDate d) = days d + 1 ∧ IsDate (nextDate d) := by
  obtain ⟨year, month, day⟩ := d
  obtain ⟨h1, h12, hday, hlen⟩ := h
  simp only [nextDate]
  split
  next hlt =>
    refine ⟨?_, h1, h12, Nat.le_add_left .., hlt⟩
    simp only [days]
    omega
  next hend =>
    obtain rfl : day = daysInMonth year month := Nat.le_antisymm hlen (Nat.not_lt.mp hend)
    by_cases h2 : month = 2
    · subst h2
      refine ⟨?_, by decide, by decide, le_rfl, daysInMonth_pos ..⟩
      have hfeb := daysInMonth_february year
      simp only [days, monthFromMarch, le_refl, lt_irrefl, Nat.reduceAdd, Nat.reduceLT,
        Nat.reduceLeDiff, if_true,
        if_false]
      split at hfeb <;> omega
    · have hlen := daysInMonth_eq year h1 h12 h2
      have hm : monthFromMarch (month + 1) = monthFromMarch month + 1 := by
        unfold monthFromMarch
        split <;> split <;> omega
      split
      next h11 =>
        refine ⟨?_, Nat.le_add_left .., h11, le_rfl, daysInMonth_pos ..⟩
        have hy : (month + 1 ≤ 2) = (month ≤ 2) := propext (by omega)
        simp only [days, hm, ← hlen, hy]
        omega
      next h11 =>
        obtain rfl : month = 12 := by omega
        refine ⟨?_, le_rfl, by decide, le_rfl, daysInMonth_pos ..⟩
        simp only [days, monthFromMarch, daysInMonth, Nat.reduceLT, Nat.reduceLeDiff, if_true,
          if_false]
        omega

theorem civil_succ (n : Int) : civil (n + 1) = nextDate (civil n) := by
  obtain ⟨hn, hdate⟩ := days_civil n
  obtain ⟨hnext, hdate'⟩ := days_nextDate hdate
  rw [← civil_days hdate', hnext, hn]

theorem bmod_of_fits {year : Int} (h : FitsI32 year) : year.bmod (2 ^ 32) = year :=
  Int.bmod_eq_of_le (by have := h.1; omega) (by have := h.2; omega)

variable {s : Int} {micro : Nat}

theorem date_fromUnix (h : FitsI32 (civil (s / 86400)).1) :
    (fromUnix s micro).date = civil (s / 86400) := by
  simp only [DateTime.date, fromUnix, bmod_of_fits h]

theorem toUnix_fromUnix (h : FitsI32 (civil (s / 86400)).1) : (fromUnix s micro).toUnix = s := by
  rw [DateTime.toUnix, date_fromUnix h, (days_civil _).1]
  simp only [fromUnix]
  omega

theorem civil_calendar (micro : Nat) :
    (∀ s : Int, FitsI32 (civil (s / 86400)).1 → (fromUnix s micro).IsValid ∧
      (fromUnix s micro).toUnix = s ∧
      (FitsI32 (civil ((s + 86400) / 86400)).1 →
        fromUnix (s + 86400) micro = (fromUnix s micro).nextDay)) ∧
    ∀ d : DateTime, d.IsValid →
      fromUnix d.toUnix d.micro = { d with isLocal := false, outOfRange := none } := by
  constructor
  · intro s hfits
    refine ⟨?_, toUnix_fromUnix hfits, fun hfits' => ?_⟩
    · rw [DateTime.IsValid, date_fromUnix hfits]
      simp only [fromUnix, bmod_of_fits hfits]
      exact ⟨hfits, (days_civil _).2, by omega, by omega, by omega⟩
    · have hdiv : (s + 86400) / 86400 = s / 86400 + 1 := by omega
      rw [hdiv, civil_succ] at hfits'
      rw [DateTime.nextDay, date_fromUnix hfits]
      simp only [fromUnix, hdiv, civil_succ, bmod_of_fits hfits', Int.add_emod_right]
  · intro d hd
    obtain ⟨hfits, hdate, hhour, hminute, hsecond⟩ := hd
    have hdiv : d.toUnix / 86400 = days d.date := by
      unfold DateTime.toUnix
      omega
    have hmod : (d.toUnix % 86400).toNat = d.hour * 3600 + d.minute * 60 + d.second := by
      unfold DateTime.toUnix
      omega
    simp only [fromUnix, hdiv, hmod, civil_days hdate]
    simp only [DateTime.date, bmod_of_fits hfits, DateTime.mk.injEq, true_and, and_true]
    omega

/-! ### Weekdays and weeks (`format.rs`, `modifiers.rs`) -/

def DateTime.marchYear (d : DateTime) : Int := if d.month < 3 then d.year - 1 else d.year

def Format.dayOfWeek (d : DateTime) : Nat :=
  let m := if d.month < 3 then d.month + 12 else d.month
  let k := d.marchYear.tmod 100
  let j := d.marchYear.tdiv 100
  let h := (((d.day + 13 * (m + 1) / 5 : Nat) : Int) + k + k.tdiv 4 + j.tdiv 4 + 5 * j).tmod 7
  ((h + 6).tmod 7).toNat

def Modifiers.dayOfWeek : DateTime → Nat := Format.dayOfWeek

def dayOfYear (d : DateTime) : Nat :=
  ((List.range' 1 (d.month - 1)).map (daysInMonth d.year)).sum + d.day

def weekOfYear (jan1 doy : Nat) : Nat :=
  let offset := (7 - jan1) % 7
  if doy ≤ offset then 0 else (doy - offset - 1) / 7 + 1

def DateTime.jan1 (d : DateTime) : DateTime := ⟨d.year, 1, 1, 0, 0, 0, 0, false, none⟩

def weekOfYearSunday (d : DateTime) : Nat := weekOfYear (Format.dayOfWeek d.jan1) (dayOfYear d)

def weekOfYearMonday (d : DateTime) : Nat :=
  weekOfYear ((Format.dayOfWeek d.jan1 + 6) % 7) (dayOfYear d)

def advanceToWeekday (d : DateTime) (target : Nat) : DateTime :=
  let delta := ((target : Int) - Modifiers.dayOfWeek d) % 7
  if delta = 0 then d else { fromUnix (d.toUnix + delta * 86400) d.micro with isLocal := d.isLocal }

def DateTime.isFormattable (d : DateTime) : Bool :=
  d.outOfRange.isNone && !(decide (9999 < d.year) || decide (d.year < -4713)) &&
    !(d.year == -4713 && (decide (d.month < 11) || d.month == 11 && decide (d.day < 24)))

/-- The weekday by the count of days, 0 for a Sunday: 1970 began on a Thursday. -/
def weekday (date : Date) : Int := (days date + 4) % 7

/-- A year (from March on) with which the truncating divisions do no harm. -/
def Sound (y : Int) : Prop := 0 ≤ y ∨ IsLeap y

theorem days_flat (year : Int) (month day : Nat) (h : 1 ≤ day) :
    let y := year - if month ≤ 2 then 1 else 0
    days (year, month, day) =
      365 * y + y / 4 - y / 100 + y / 400 + ((153 * monthFromMarch month + 2) / 5 + day : Nat) -
        719469 := by
  intro y
  simp only [days]
  omega

theorem zeller (y : Int) : ∃ e : Int, (e = 0 ∨ e = 1) ∧ (e = 0 ↔ Sound y) ∧
    ∀ t, (t + y.tmod 100 + (y.tmod 100).tdiv 4 + (y.tdiv 100).tdiv 4 + 5 * y.tdiv 100) % 7 =
      (t + y + y / 4 - y / 100 + y / 400 + e) % 7 := by
  obtain ⟨n, rfl | rfl⟩ := y.eq_nat_or_neg
  all_goals
    have h4 : (n : Int) / 4 = 25 * (n / 100) + n % 100 / 4 := by omega
    have h400 : (n : Int) / 400 = n / 100 / 4 := by omega
    simp only [Int.neg_tdiv, Int.neg_tmod, Int.tdiv_eq_ediv_of_nonneg (Int.natCast_nonneg _),
      Int.tmod_eq_emod_of_nonneg (Int.natCast_nonneg _)]
    rw [Int.tdiv_eq_ediv_of_nonneg (by omega), Int.tdiv_eq_ediv_of_nonneg (by omega)]
  · refine ⟨0, .inl rfl, iff_of_true rfl (.inl (Int.natCast_nonneg n)), fun t => ?_⟩
    omega
  · have h4' : -(n : Int) / 4 = -(n / 4) - if (n : Int) % 4 = 0 then 0 else 1 := by split <;> omega
    have h100 : -(n : Int) / 100 = -(n / 100) - if (n : Int) % 100 = 0 then 0 else 1 := by
      split <;> omega
    have h400' : -(n : Int) / 400 = -(n / 400) - if (n : Int) % 400 = 0 then 0 else 1 := by
      split <;> omega
    rw [h4', h100, h400', h4, h400]
    by_cases hs : Sound (-n)
    · refine ⟨0, .inl rfl, iff_of_true rfl hs, fun t => ?_⟩
      unfold Sound IsLeap at hs
      split <;> split <;> split <;> omega
    · refine ⟨1, .inr rfl, iff_of_false one_ne_zero hs, fun t => ?_⟩
      unfold Sound IsLeap at hs
      split <;> split <;> split <;> omega

theorem dayOfWeek_eq {d : DateTime} (h : IsDate d.date) :
    ∃ e : Int, (e = 0 ∨ e = 1) ∧ (e = 0 ↔ Sound d.marchYear) ∧
    (Format.dayOfWeek d : Int) = (days d.date + 4 + e) % 7 := by
  obtain ⟨h1, h12, hday, -⟩ := h
  obtain ⟨e, he, hsound, hz⟩ := zeller d.marchYear
  refine ⟨e, he, hsound, ?_⟩
  have hlast : ∀ t : Int, (t.tmod 7 + 6).tmod 7 = (t + 6) % 7 := fun t => by
    rw [Int.tmod_eq_emod_of_nonneg] <;> rw [Int.tmod_eq_emod] <;> split <;> omega
  have hyear : d.year - (if d.month ≤ 2 then 1 else 0) = d.marchYear := by
    unfold DateTime.marchYear
    split <;> split <;> omega
  have hmonth : 13 * ((if d.month < 3 then d.month + 12 else d.month) + 1) / 5 +
      28 * monthFromMarch d.month =
      (153 * monthFromMarch d.month + 2) / 5 + 10 := by
    unfold monthFromMarch
    split <;> split <;> omega
  simp only [Format.dayOfWeek, hlast, DateTime.date, days_flat _ _ _ hday, hyear]
  generalize 13 * ((if d.month < 3 then d.month + 12 else d.month) + 1) / 5 = m at hmonth ⊢
  specialize hz ((d.day + m : Nat) : Int)
  omega

theorem days_day (year : Int) (month : Nat) {day : Nat} (h : 1 ≤ day) :
    days (year, month, day) = days (year, month, 1) + day - 1 := by
  simp only [days]
  omega

theorem days_month (year : Int) : ∀ m < 12,
    days (year, m + 1, 1) = days (year, 1, 1) +
      (((List.range' 1 m).map (daysInMonth year)).sum : Nat)
  | 0, _ => by simp
  | m + 1, hm => by
    have hdate : IsDate (year, m + 1, daysInMonth year (m + 1)) :=
      ⟨Nat.le_add_left .., hm.le, daysInMonth_pos .., le_rfl⟩
    have hnext := (days_nextDate hdate).1
    simp only [nextDate, lt_irrefl, hm, if_true, if_false] at hnext
    rw [hnext, days_day _ _ (daysInMonth_pos ..), days_month year m (by omega),
      List.range'_1_concat, List.map_append,
      List.sum_append, List.map_singleton, List.sum_singleton, Nat.add_comm 1 m]
    omega

theorem days_dayOfYear {d : DateTime} (h : IsDate d.date) :
    days d.date = days (d.year, 1, 1) + dayOfYear d - 1 := by
  obtain ⟨h1, h12, hday, -⟩ := h
  have hmonth := days_month d.year (d.month - 1) (by omega)
  rw [Nat.sub_add_cancel h1] at hmonth
  rw [DateTime.date, days_day _ _ hday, hmonth, dayOfYear]
  omega

theorem weekOfYear_succ {jan1 doy : Nat} (h : jan1 < 7) (hdoy : 1 ≤ doy) :
    weekOfYear jan1 (doy + 1) = weekOfYear jan1 doy + if (doy + jan1) % 7 = 0 then 1 else 0 := by
  simp only [weekOfYear]
  split <;> split <;> split <;> omega

theorem year_civil_add (n : Int) : ∀ k : Nat, (civil n).1 ≤ (civil (n + k)).1 ∧
    (civil (n + k)).1 ≤ (civil n).1 + k
  | 0 => by simp
  | k + 1 => by
    have hk := year_civil_add n k
    have hnext : (civil (n + k + 1)).1 = (civil (n + k)).1 ∨
        (civil (n + k + 1)).1 = (civil (n + k)).1 + 1 := by
      rw [civil_succ, nextDate]
      split
      · exact .inl rfl
      · split
        · exact .inl rfl
        · exact .inr rfl
    rw [Nat.cast_succ, ← add_assoc]
    omega

variable {d : DateTime}

theorem year_of_formattable (h : d.isFormattable) : -4713 ≤ d.year ∧ d.year ≤ 9999 := by
  simp only [DateTime.isFormattable, Bool.and_eq_true, Bool.not_eq_true', Bool.or_eq_false_iff,
    decide_eq_false_iff_not] at h
  omega

theorem advanceToWeekday_eq (hv : d.IsValid) (hf : d.isFormattable) (n : Nat) :
    let delta := ((n : Int) - Modifiers.dayOfWeek d) % 7
    (advanceToWeekday d n).toUnix = d.toUnix + delta * 86400 ∧ days
    (advanceToWeekday d n).date = days d.date + delta := by
  intro delta
  simp only [advanceToWeekday]
  split
  next h0 => simp only [delta, h0, zero_mul, add_zero, and_self]
  next h0 =>
    obtain ⟨-, hdate, hhour, hminute, hsecond⟩ := hv
    have hdiv : (d.toUnix + delta * 86400) / 86400 = days d.date + delta := by
      unfold DateTime.toUnix
      omega
    obtain ⟨k, hk⟩ : ∃ k : Nat, delta = k := ⟨delta.toNat, by omega⟩
    have hyear := year_of_formattable hf
    have hfits : FitsI32 (civil ((d.toUnix + delta * 86400) / 86400)).1 := by
      have := year_civil_add (days d.date) k
      rw [civil_days hdate, ← hk, ← hdiv] at this
      simp only [DateTime.date] at this
      unfold FitsI32
      omega
    have hdays : days (fromUnix (d.toUnix + delta * 86400) d.micro).date = days d.date + delta := by
      rw [date_fromUnix hfits, (days_civil _).1, hdiv]
    exact ⟨@toUnix_fromUnix _ d.micro hfits, hdays⟩

theorem dayOfWeek_jan1 (d : DateTime) : ∃ e : Int, (e = 0 ∨ e = 1) ∧ (e = 0 ↔ Sound (d.year - 1)) ∧
    (Format.dayOfWeek d.jan1 : Int) = (days (d.year, 1, 1) + 4 + e) % 7 :=
  @dayOfWeek_eq d.jan1 ⟨le_rfl, (by decide : 1 ≤ 12), le_rfl, daysInMonth_pos ..⟩

theorem weekOfYear_nextDay (hdate : IsDate d.date) (hyear : d.nextDay.year = d.year) :
    let jan1 := Format.dayOfWeek d.jan1
    weekOfYearSunday d.nextDay = weekOfYearSunday d +
      (if (dayOfYear d + jan1) % 7 = 0 then 1 else 0) ∧
    weekOfYearMonday d.nextDay = weekOfYearMonday d +
      (if (dayOfYear d + (jan1 + 6) % 7) % 7 = 0 then 1 else 0) ∧
    weekday d.nextDay.date = (days (d.year, 1, 1) + dayOfYear d + 4) % 7 := by
  obtain ⟨hdays, hdate'⟩ := days_nextDate hdate
  replace hdays : days d.nextDay.date = days d.date + 1 := hdays
  have hdoy := days_dayOfYear hdate
  have hdoy' := @days_dayOfYear d.nextDay hdate'
  rw [hyear] at hdoy'
  have hpos : 1 ≤ dayOfYear d := le_add_left hdate.2.2.1
  have hjan1 : d.nextDay.jan1 = d.jan1 := by rw [DateTime.jan1, hyear, DateTime.jan1]
  obtain ⟨_, -, -, hdow⟩ := dayOfWeek_jan1 d
  rw [weekOfYearSunday, weekOfYearMonday, hjan1, show dayOfYear d.nextDay = dayOfYear d +
    1 by omega]
  refine ⟨weekOfYear_succ (by omega) hpos, weekOfYear_succ (by omega) hpos, ?_⟩
  rw [weekday]
  omega

theorem weekday_arithmetic (d : DateTime) (year : Int) :
    (d.IsValid → d.isFormattable →
      weekday d.nextDay.date = (weekday d.date + 1) % 7 ∧
      ((Format.dayOfWeek d : Int) = weekday d.date ↔ Sound d.marchYear) ∧
      ((Modifiers.dayOfWeek d : Int) = weekday d.date ↔ Sound d.marchYear) ∧
      ∀ n < 7, ∃ k : Nat, k ≤ 6 ∧ (advanceToWeekday d n).toUnix = d.toUnix + k * 86400 ∧
        (weekday (advanceToWeekday d n).date = n ↔ Sound d.marchYear)) ∧
    (-4713 ≤ year → year ≤ 9999 →
      ((∀ d' : DateTime, d'.IsValid → d'.isFormattable → d'.year = year → d'.nextDay.year = year →
          weekOfYearSunday d'.nextDay = weekOfYearSunday d' +
            (if weekday d'.nextDay.date = 0 then 1 else 0) ∧
          weekOfYearMonday d'.nextDay = weekOfYearMonday d' +
            (if weekday d'.nextDay.date = 1 then 1 else 0)) ↔
        Sound (year - 1))) := by
  constructor
  · intro hv hf
    obtain ⟨e, he, hsound, hdow⟩ := dayOfWeek_eq hv.2.1
    have hnext : days d.nextDay.date = days d.date + 1 := (days_nextDate hv.2.1).1
    rw [← hsound]
    have hagree : (Format.dayOfWeek d : Int) = weekday d.date ↔ e = 0 := by
      unfold weekday
      omega
    refine ⟨?_, hagree, hagree, fun n hn => ?_⟩
    · unfold weekday
      omega
    · obtain ⟨hunix, hdays⟩ := advanceToWeekday_eq hv hf n
      refine ⟨(((n : Int) - Modifiers.dayOfWeek d) % 7).toNat, by omega, by omega, ?_⟩
      rw [weekday, hdays, Modifiers.dayOfWeek]
      omega
  · intro hlo hhi
    constructor
    · intro h
      -- December has a Sunday among its days from the second to the eighth
      obtain ⟨k, hk1, hk7, hk⟩ : ∃ k : Nat, 1 ≤ k ∧ k ≤ 7 ∧ (weekday (year, 12, 1) + k) % 7 = 0 :=
        ⟨(7 - weekday (year, 12, 1)).toNat, by unfold weekday; omega⟩
      let d : DateTime := ⟨year, 12, k, 0, 0, 0, 0, false, none⟩
      have hdate : IsDate d.date :=
        ⟨(by decide : 1 ≤ 12), le_rfl, hk1, hk7.trans (by decide : 7 ≤ 31)⟩
      have hfits : FitsI32 year := by
        unfold FitsI32
        omega
      have hvalid : d.IsValid :=
        ⟨hfits, hdate, Nat.zero_lt_succ _, Nat.zero_lt_succ _, Nat.zero_lt_succ _⟩
      have hf : d.isFormattable := by
        simp only [DateTime.isFormattable, d]
        simp
        omega
      have hnext : d.nextDay.date = (year, 12, k + 1) := if_pos (by omega : k < 31)
      have hyear : d.nextDay.year = year := congrArg Prod.fst hnext
      obtain ⟨e, he, hsound, hdow⟩ := dayOfWeek_jan1 d
      obtain ⟨hsun, -, hday⟩ := weekOfYear_nextDay hdate hyear
      have hsunday : weekday d.nextDay.date = 0 := by
        rw [hnext, weekday, days_day _ _ (Nat.le_add_left ..)]
        unfold weekday at hk
        omega
      have := (h d hvalid hf rfl hyear).1
      rw [if_pos hsunday, hsun] at this
      rw [hsunday] at hday
      refine hsound.mp ?_
      split at this <;> omega
    · rintro hs d hv hf rfl hyear
      obtain ⟨e, he, hsound, hdow⟩ := dayOfWeek_jan1 d
      obtain ⟨hsun, hmon, hday⟩ := weekOfYear_nextDay hv.2.1 hyear
      have := hsound.mpr hs
      rw [hsun, hmon, hday]
      constructor
      · split <;> split <;> omega
      · split <;> split <;> omega

/-- 1 June of the year -1 is a Tuesday. -/
theorem weekday_before_year_zero : ∃ d : DateTime, d.IsValid ∧ d.isFormattable ∧
    weekday d.date = 2 ∧
    Format.dayOfWeek d = 3 ∧ weekday (advanceToWeekday d 2).date = 1 :=
  ⟨⟨-1, 6, 1, 0, 0, 0, 0, false, none⟩, by
    simp only [DateTime.IsValid, FitsI32, IsDate, DateTime.date]; decide,
    by decide⟩

end RedlineDb.DateTimes
