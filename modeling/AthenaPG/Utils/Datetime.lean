import Mathlib.Tactic

/-!
Calendar conversion (`src/backend/utils/adt/datetime.c`, the ISO weeks of `timestamp.c`).

* `julian_nextDay`, `j2date_julian`: the next day has the next Julian day, and `j2date` inverts
  `date2j`. Both are proved by the years that start in March, in which the leap day comes last.
* `isoyear_spec`, `january_fits`: the ISO year is the one whose weeks hold the day, and computing
  it does not overflow.
* `calendar_conversion`: the conversions are inverse and follow the calendar, and the ISO week of a
  date belongs to the year of its Thursday.
-/

namespace AthenaPG

/-- The values `date2j` computes one after the other, its result last. -/
def date2jValues (year month day : Int) : List Int :=
  let month' := if month > 2 then month + 1 else month + 13
  let year' := if month > 2 then year + 4800 else year + 4799
  let century := year'.tdiv 100
  let julian := year' * 365 - 32167
  let leaps := year'.tdiv 4 - century + century.tdiv 4
  let days := (7834 * month').tdiv 256
  [month', year', century, year' * 365, julian, year'.tdiv 4, year'.tdiv 4 - century,
    century.tdiv 4, leaps, julian + leaps, 7834 * month', days, days + day,
    julian + leaps + (days + day)]

def date2j (year month day : Int) : Int := (date2jValues year month day).getLastD 0

structure Date where
  year : Int
  month : Int
  day : Int

open Date

/-- `j2date`, in unsigned arithmetic. -/
def j2date (jd : Int) : Date :=
  let julian := (jd + 32044) % 2 ^ 32
  let quad := julian / 146097
  let extra := ((julian - quad * 146097) * 4 + 3) % 2 ^ 32
  let julian := (julian + (60 + quad * 3 + extra / 146097)) % 2 ^ 32
  let quad := julian / 1461
  let julian := julian - quad * 1461
  let y := julian * 4 / 1461
  let julian := (if y ≠ 0 then (julian + 305) % 365 else (julian + 306) % 366) + 123
  let year := y + quad * 4 - 4800
  let quad := julian * 2141 / 65536
  ⟨year, (quad + 10) % 12 + 1, julian - 7834 * quad / 256⟩

def j2day (date : Int) : Int :=
  let date := (date + 1).tmod 7
  if date < 0 then date + 7 else date

def isoweek2j (year week : Int) : Int :=
  let day4 := date2j year 1 4
  let day0 := j2day (day4 - 1)
  (week - 1) * 7 + (day4 - day0)

variable (year mon mday : Int)

def date2isoweek : Int :=
  let dayn := date2j year mon mday
  let day4 := date2j year 1 4
  let day0 := j2day (day4 - 1)
  let early := dayn < day4 - day0
  let day4 := if early then date2j (year - 1) 1 4 else day4
  let day0 := if early then j2day (day4 - 1) else day0
  let result := (dayn - (day4 - day0)).tdiv 7 + 1
  if result ≥ 52 then
    let day4 := date2j (year + 1) 1 4
    let day0 := j2day (day4 - 1)
    if dayn ≥ day4 - day0 then (dayn - (day4 - day0)).tdiv 7 + 1 else result
  else result

def date2isoyear : Int :=
  let dayn := date2j year mon mday
  let day4 := date2j year 1 4
  let day0 := j2day (day4 - 1)
  let early := dayn < day4 - day0
  let day4 := if early then date2j (year - 1) 1 4 else day4
  let day0 := if early then j2day (day4 - 1) else day0
  let year := if early then year - 1 else year
  let result := (dayn - (day4 - day0)).tdiv 7 + 1
  if result ≥ 52 then
    let day4 := date2j (year + 1) 1 4
    let day0 := j2day (day4 - 1)
    if dayn ≥ day4 - day0 then year + 1 else year
  else year

def date2isoyearday : Int := date2j year mon mday - isoweek2j (date2isoyear year mon mday) 1 + 1

/-! ## The calendar -/

def isleap (y : Int) : Prop := y.tmod 4 = 0 ∧ (y.tmod 100 ≠ 0 ∨ y.tmod 400 = 0)

instance (y : Int) : Decidable (isleap y) := by unfold isleap; infer_instance

def dayTab (year month : Int) : Int :=
  if month = 2 then if isleap year then 29 else 28
  else if month = 4 ∨ month = 6 ∨ month = 9 ∨ month = 11 then 30 else 31

namespace Date

/-- A date of the proleptic Gregorian calendar, with a year zero. -/
structure Valid (d : Date) : Prop where
  month_pos : 1 ≤ d.month
  month_le : d.month ≤ 12
  day_pos : 1 ≤ d.day
  day_le : d.day ≤ dayTab d.year d.month

variable (d : Date)

/-- The successor in the calendar. -/
def nextDay : Date :=
  if d.day < dayTab d.year d.month then ⟨d.year, d.month, d.day + 1⟩
  else if d.month < 12 then ⟨d.year, d.month + 1, 1⟩
  else ⟨d.year + 1, 1, 1⟩

def julian : Int := date2j d.year d.month d.day

/-- The dates that the `date` type supports: `IS_VALID_JULIAN`, then `IS_VALID_DATE` of the days
since 2000-01-01. -/
def Supported : Prop :=
  (d.year > -4713 ∨ d.year = -4713 ∧ d.month ≥ 11) ∧
    (d.year < 5874898 ∨ d.year = 5874898 ∧ d.month < 6) ∧
    0 - 2451545 ≤ d.julian - 2451545 ∧ d.julian - 2451545 < 2147483494 - 2451545

/-- The year of the date when years start in March, from -4800. -/
def marchYear : Int := if d.month > 2 then d.year + 4800 else d.year + 4799

/-- The days of that year before the date. -/
def marchDay : Int := 7834 * (if d.month > 2 then d.month + 1 else d.month + 13) / 256 + d.day - 123

end Date

/-- The days before a year that starts in March. -/
def marchStart (Y : Int) : Int := Y * 365 + Y / 4 - Y / 100 + Y / 400

theorem isleap_iff (y : Int) : isleap y ↔ y % 4 = 0 ∧ (y % 100 ≠ 0 ∨ y % 400 = 0) := by
  have h (n : Int) : y.tmod n = 0 ↔ y % n = 0 := by
    rw [← Int.dvd_iff_tmod_eq_zero, Int.dvd_iff_emod_eq_zero]
  simp only [isleap, ne_eq, h]

theorem dayTab_bounds (year month : Int) : 28 ≤ dayTab year month ∧ dayTab year month ≤ 31 := by
  unfold dayTab
  split_ifs <;> omega

theorem marchStart_add_one (Y : Int) :
    marchStart (Y + 1) = marchStart Y + if isleap (Y + 1) then 366 else 365 := by
  have h4 : (Y + 1) / 4 = Y / 4 + if (Y + 1) % 4 = 0 then 1 else 0 := by split <;> omega
  have h100 : (Y + 1) / 100 = Y / 100 + if (Y + 1) % 100 = 0 then 1 else 0 := by split <;> omega
  have h400 : (Y + 1) / 400 = Y / 400 + if (Y + 1) % 400 = 0 then 1 else 0 := by split <;> omega
  simp only [marchStart, isleap_iff, h4, h100, h400]
  split_ifs <;> omega

section Valid

variable {d : Date} (hvalid : d.Valid)
include hvalid

theorem nextDay_valid : d.nextDay.Valid := by
  have hn := dayTab_bounds d.year (d.month + 1)
  have hf := dayTab_bounds (d.year + 1) 1
  obtain ⟨hm1, hm2, hd1, hd2⟩ := hvalid
  unfold nextDay
  split_ifs <;> constructor <;> dsimp only <;> omega

theorem marchDay_spec : 0 ≤ d.marchDay ∧ d.marchDay ≤ 365 ∧
    (d.marchDay = 365 → isleap (d.marchYear + 1)) ∧ (d.month > 2 ↔ d.marchDay < 306) ∧
    (d.marchDay + 123) * 2141 / 65536 = if d.month > 2 then d.month + 1 else d.month + 13 := by
  obtain ⟨year, month, day⟩ := d
  obtain ⟨hm1, hm2, hd1, hd2⟩ := hvalid
  simp only [isleap_iff, dayTab, marchDay, marchYear] at *
  interval_cases month
  all_goals
    try split_ifs at hd2
    all_goals omega

theorem nextDay_march : d.nextDay.marchYear = d.marchYear ∧ d.nextDay.marchDay = d.marchDay + 1 ∨
    d.marchDay = (if isleap (d.marchYear + 1) then 365 else 364) ∧
      d.nextDay.marchYear = d.marchYear + 1 ∧ d.nextDay.marchDay = 0 := by
  obtain ⟨year, month, day⟩ := d
  obtain ⟨hm1, hm2, hd1, hd2⟩ := hvalid
  dsimp only [nextDay] at *
  by_cases hdy : day < dayTab year month
  · rw [if_pos hdy]
    exact .inl ⟨rfl, by simp only [marchDay]; ring⟩
  rw [if_neg hdy, show day = dayTab year month by omega]
  by_cases hmn : month < 12
  · rw [if_pos hmn]
    simp only [isleap_iff, dayTab, marchDay, marchYear]
    interval_cases month
    all_goals norm_num
    split_ifs <;> omega
  rw [if_neg hmn, show month = 12 by omega]
  exact .inl ⟨show year + 1 + 4799 = year + 4800 by ring, rfl⟩

variable (hyear : 0 ≤ d.marchYear)
include hyear

/-- The values of `date2j` for a date, and none overflows if the last does not. -/
theorem julian_march : d.julian + 32044 = marchStart d.marchYear + d.marchDay ∧
    (d.julian < 2 ^ 31 → ∀ v ∈ date2jValues d.year d.month d.day, -2 ^ 31 ≤ v ∧ v < 2 ^ 31) := by
  have hk := marchDay_spec hvalid
  obtain ⟨hm1, hm2, hd1, hd2⟩ := hvalid
  have hq (n : Int) : d.marchYear.tdiv n = d.marchYear / n := Int.tdiv_eq_ediv_of_nonneg hyear
  have hl : (d.marchYear / 100).tdiv 4 = d.marchYear / 100 / 4 :=
    Int.tdiv_eq_ediv_of_nonneg (by omega)
  have hmr : (if d.month > 2 then d.year + 4800 else d.year + 4799) = d.marchYear := rfl
  obtain ⟨m, hm⟩ : ∃ m, (if d.month > 2 then d.month + 1 else d.month + 13) = m := ⟨_, rfl⟩
  have hmq : (7834 * m).tdiv 256 = 7834 * m / 256 := Int.tdiv_eq_ediv_of_nonneg (by omega)
  simp only [julian, date2j, date2jValues, List.getLastD_cons, List.getLastD_nil, hm, hmr,
    hq, hl, hmq, marchStart, marchDay, List.forall_mem_cons, List.not_mem_nil,
    IsEmpty.forall_iff, implies_true, and_true] at hk ⊢
  refine ⟨by omega, fun hmx => ?_⟩
  and_intros <;> omega

theorem julian_nextDay : d.nextDay.julian = d.julian + 1 := by
  have h := (julian_march hvalid hyear).1
  obtain ⟨hY, hk⟩ | ⟨hl, hY, hk⟩ := nextDay_march hvalid
  · have h' := (julian_march (nextDay_valid hvalid) (by omega)).1
    rw [hY, hk] at h'
    omega
  have h' := (julian_march (nextDay_valid hvalid) (by omega)).1
  rw [hY, hk, marchStart_add_one] at h'
  split_ifs at hl h' <;> omega

end Valid

/-! ## From the Julian day to the date -/

/-- A March year by its cycle of 400 years, its century, its four years and its year in them. Only
the last of four years can have a leap day, and the last of a century only at the end of a cycle. -/
theorem marchYear_digits {Y k : Int} (hk : k ≤ 365) (hl : k = 365 → isleap (Y + 1)) :
    ∃ q c a b : Int, Y = 400 * q + 100 * c + 4 * a + b ∧ (0 ≤ c ∧ c ≤ 3) ∧ (0 ≤ a ∧ a ≤ 24) ∧
      (0 ≤ b ∧ b ≤ 3) ∧ (k ≤ 364 ∨ k = 365 ∧ b = 3 ∧ (a = 24 → c = 3)) := by
  refine ⟨Y / 400, Y % 400 / 100, Y % 100 / 4, Y % 4, by omega, by omega, by omega, by omega, ?_⟩
  obtain hk | hk := hk.lt_or_eq
  · exact Or.inl (by omega)
  have := (isleap_iff _).1 (hl hk)
  exact Or.inr (by omega)

/-- The two months before March belong to the next year, which may start the next four years. -/
theorem fourYears (A : Int) {b k : Int} (hb : 0 ≤ b ∧ b ≤ 3) (hk : 0 ≤ k)
    (hl : k ≤ 364 ∨ k = 365 ∧ b = 3) :
    ∃ quad rest y : Int, (1461 * A + 365 * b + (k + 60)) / 1461 = quad ∧
      1461 * A + 365 * b + (k + 60) - quad * 1461 = rest ∧ rest * 4 / 1461 = y ∧
      (if y ≠ 0 then (rest + 305) % 365 else (rest + 306) % 366) = k ∧
      y + quad * 4 = 4 * A + b + if k < 306 then 0 else 1 := by
  obtain hm | hj := lt_or_ge k 306
  · refine ⟨A, 365 * b + (k + 60), b, by omega, by omega, by omega, ?_, ?_⟩
    all_goals split_ifs <;> omega
  obtain hb3 | hb3 := hb.2.lt_or_eq
  · refine ⟨A, 365 * b + (k + 60), b + 1, by omega, by omega, by omega, ?_, ?_⟩
    all_goals split_ifs <;> omega
  refine ⟨A + 1, k - 306, 0, by omega, by omega, by omega, ?_, ?_⟩
  all_goals split_ifs <;> omega

theorem j2date_cycle {jd q c a b k : Int} (hjd : 0 ≤ jd) (hm : jd ≤ 2147483647)
    (hc : 0 ≤ c ∧ c ≤ 3) (ha : 0 ≤ a ∧ a ≤ 24) (hb : 0 ≤ b ∧ b ≤ 3) (hk : 0 ≤ k)
    (hl : k ≤ 364 ∨ k = 365 ∧ b = 3 ∧ (a = 24 → c = 3))
    (h : jd + 32044 = 146097 * q + (36524 * c + 1461 * a + 365 * b + k)) :
    j2date jd = ⟨400 * q + 100 * c + 4 * a + b + (if k < 306 then 0 else 1) - 4800,
      ((k + 123) * 2141 / 65536 + 10) % 12 + 1,
      k + 123 - 7834 * ((k + 123) * 2141 / 65536) / 256⟩ := by
  have hj : (jd + 32044) % 2 ^ 32 = jd + 32044 := by omega
  have hqd : (jd + 32044) / 146097 = q := by omega
  have he : ((jd + 32044 - q * 146097) * 4 + 3) % 2 ^ 32 / 146097 = c := by
    obtain ⟨r, hr⟩ : ∃ r, r = 1461 * a + 365 * b + k := ⟨_, rfl⟩
    have hrs : 0 ≤ r ∧ (r ≤ 36523 ∨ r = 36524 ∧ c = 3) := by omega
    rw [show (jd + 32044 - q * 146097) * 4 + 3 = 146096 * c + 4 * r + 3 by omega]
    obtain ⟨hc0, hc3⟩ := hc
    interval_cases c <;> omega
  have hj' : (jd + 32044 + (60 + q * 3 + c)) % 2 ^ 32 =
      1461 * (100 * q + 25 * c + a) + 365 * b + (k + 60) := by omega
  obtain ⟨quad, rest, y, hq, hrs, hy, hd, hyear⟩ :=
    fourYears (100 * q + 25 * c + a) hb hk (hl.imp_right fun h => ⟨h.1, h.2.1⟩)
  simp only [j2date, hj, hqd, he, hj', hq, hrs, hy, hd, hyear]
  congr 1
  ring

theorem j2date_julian {d : Date} (hva : d.Valid) (hye : 0 ≤ d.marchYear)
    (hp : 0 ≤ d.julian) (hmx : d.julian ≤ 2147483647) : j2date d.julian = d := by
  obtain ⟨hk, hk', hl, hmn, hm⟩ := marchDay_spec hva
  obtain ⟨q, c, a, b, hY, hc, ha, hb, hls⟩ := marchYear_digits hk' hl
  have hmr := (julian_march hva hye).1
  rw [marchStart, show d.marchYear / 4 = 100 * q + 25 * c + a by omega,
    show d.marchYear / 100 = 4 * q + c by omega, show d.marchYear / 400 = q by omega] at hmr
  obtain ⟨hm1, hm2, _, _⟩ := hva
  rw [@j2date_cycle _ q _ _ _ _ hp hmx hc ha hb hk hls (by linarith), hm, ← hY]
  obtain ⟨year, month, day⟩ := d
  simp only [marchYear, marchDay] at *
  split_ifs <;> simp only [mk.injEq] <;> omega

/-- One more Julian day is one more day of the calendar. -/
theorem j2date_nextDay {jd : Int} (hjd : 0 ≤ jd) (hm : jd < 2147483647)
    (hva : (j2date jd).Valid) (hye : 0 ≤ (j2date jd).marchYear)
    (h : (j2date jd).julian = jd) : j2date (jd + 1) = (j2date jd).nextDay := by
  have hn := julian_nextDay hva hye
  have hyear' : 0 ≤ (j2date jd).nextDay.marchYear := by have := nextDay_march hva; omega
  have hi := j2date_julian (nextDay_valid hva) hyear' (by omega) (by omega)
  rwa [hn, h] at hi

/-- Day after day from Julian day 0, `j2date` runs through the calendar. -/
theorem j2date_valid (jd : Nat) (hm : (jd : Int) ≤ 2147483647) :
    (j2date jd).Valid ∧ 0 ≤ (j2date jd).marchYear ∧ (j2date jd).julian = jd := by
  induction jd with
  | zero => exact ⟨⟨by decide, by decide, by decide, by decide⟩, by decide, by decide⟩
  | succ jd ih =>
    obtain ⟨hvalid, hyear, hj⟩ := ih (by omega)
    rw [Nat.cast_succ, j2date_nextDay (by omega) (by omega) hvalid hyear hj,
      julian_nextDay hvalid hyear, hj]
    exact ⟨nextDay_valid hvalid, by have := nextDay_march hvalid; omega, rfl⟩

/-! ## ISO weeks -/

/-- The Monday of a week from one of its days. -/
theorem monday (day : Int) : day - j2day (day - 1) = day / 7 * 7 := by
  simp only [j2day, Int.tmod_eq_emod]
  split_ifs <;> omega

theorem january_four (year : Int) : date2j year 1 4 = date2j year 1 1 + 3 := by
  simp only [date2j, date2jValues, List.getLastD_cons, List.getLastD_nil]
  ring

theorem january_valid (year : Int) {day : Int} (hd : 1 ≤ day) (h : day ≤ 28) :
    Date.Valid ⟨year, 1, day⟩ :=
  ⟨le_rfl, by norm_num, hd, h.trans (dayTab_bounds year 1).1⟩

theorem january {year : Int} (hyear : -4799 ≤ year) :
    date2j year 1 1 + 32044 = marchStart (year + 4799) + 306 :=
  (julian_march (january_valid year le_rfl (by norm_num)) (show 0 ≤ year + 4799 by omega)).1

/-- A year has 365 or 366 days. -/
theorem january_add_one {year : Int} (hye : -4799 ≤ year) :
    date2j (year + 1) 1 1 = date2j year 1 1 + if isleap (year + 4800) then 366 else 365 := by
  have h := january hye
  have h' := january (show -4799 ≤ year + 1 by omega)
  have hl := marchStart_add_one (year + 4799)
  rw [show year + 4799 + 1 = year + 4800 by ring] at hl
  rw [show year + 1 + 4799 = year + 4800 by ring] at h'
  linarith

/-- A day lies in its year. -/
theorem year_bounds {d : Date} (hva : d.Valid) (hye : -4799 ≤ d.year) :
    date2j d.year 1 1 ≤ d.julian ∧ d.julian < date2j (d.year + 1) 1 1 := by
  have hf := january hye
  have hn := january_add_one hye
  have hl := marchStart_add_one (d.year + 4799)
  rw [show d.year + 4799 + 1 = d.year + 4800 by ring] at hl
  obtain ⟨hk, hk', -, hmn, -⟩ := marchDay_spec hva
  by_cases hm : d.month > 2
  · have hY : d.marchYear = d.year + 4800 := if_pos hm
    have hd := (julian_march hva (by omega)).1
    rw [hY] at hd
    split_ifs at hn hl <;> omega
  have hY : d.marchYear = d.year + 4799 := if_neg hm
  have hd := (julian_march hva (by omega)).1
  rw [hY] at hd
  split_ifs at hn hl <;> omega

/-- The ISO year is the one whose weeks hold the day, and the ISO week is counted in it. -/
theorem isoyear_spec {d : Date} (hva : d.Valid) (hyear : -4798 ≤ d.year) :
    ∃ y, date2isoyear d.year d.month d.day = y ∧ -4799 ≤ y ∧
      (date2j y 1 1 + 3) / 7 * 7 ≤ d.julian ∧ d.julian < (date2j (y + 1) 1 1 + 3) / 7 * 7 ∧
      date2isoweek d.year d.month d.day = (d.julian - (date2j y 1 1 + 3) / 7 * 7) / 7 + 1 := by
  have hd := year_bounds hva (by omega)
  have hp := january_add_one (show -4799 ≤ d.year - 1 by omega)
  have hn := january_add_one (show -4799 ≤ d.year by omega)
  have hls := january_add_one (show -4799 ≤ d.year + 1 by omega)
  rw [sub_add_cancel] at hp
  have hj : date2j d.year d.month d.day = d.julian := rfl
  simp only [date2isoyear, date2isoweek, monday, january_four, hj]
  by_cases he : d.julian < (date2j d.year 1 1 + 3) / 7 * 7
  · simp only [if_pos he, sub_add_cancel, monday]
    have hl : ¬ d.julian ≥ (date2j (d.year + 1) 1 1 + 3) / 7 * 7 := by split_ifs at hn <;> omega
    rw [Int.tdiv_eq_ediv_of_nonneg (by split_ifs at hp <;> omega)]
    refine ⟨d.year - 1, ?_, by omega, ?_, by rwa [sub_add_cancel], ?_⟩
    · rw [if_neg (not_le.2 he), ite_self]
    · split_ifs at hp <;> omega
    · rw [if_neg hl, ite_self]
  simp only [if_neg he, monday]
  rw [Int.tdiv_eq_ediv_of_nonneg (by omega)]
  by_cases hl : d.julian ≥ (date2j (d.year + 1) 1 1 + 3) / 7 * 7
  · have hr : (d.julian - (date2j d.year 1 1 + 3) / 7 * 7) / 7 + 1 ≥ 52 := by
      split_ifs at hn <;> omega
    refine ⟨d.year + 1, ?_, by omega, hl, ?_, ?_⟩
    · rw [if_pos hr, if_pos hl]
    · split_ifs at hls <;> omega
    · rw [if_pos hr, if_pos hl, Int.tdiv_eq_ediv_of_nonneg (by omega)]
  refine ⟨d.year, ?_, by omega, by omega, by omega, ?_⟩
  all_goals rw [if_neg hl, ite_self]

/-- None of the calls of `date2j` for the ISO week of a date overflows. -/
theorem january_fits {d : Date} (hva : d.Valid) (hs : d.Supported) :
    ∀ y ∈ [d.year - 1, d.year, d.year + 1], ∀ v ∈ date2jValues y 1 4, -2 ^ 31 ≤ v ∧ v < 2 ^ 31 := by
  obtain ⟨hm, hmx, -, he⟩ := hs
  have hd := year_bounds hva (by omega)
  have hf := january (show -4799 ≤ d.year by omega)
  have hl : d.year ≤ 5874897 := by
    unfold marchStart at hf
    omega
  intro y hy
  simp only [List.mem_cons, List.not_mem_nil, or_false] at hy
  have hb : -4799 ≤ y ∧ y ≤ 5874898 := by omega
  have h := january hb.1
  have h4 := january_four y
  refine (julian_march (january_valid y (by norm_num) (by norm_num))
    (show 0 ≤ y + 4799 by omega)).2 (show date2j y 1 4 < _ from ?_)
  unfold marchStart at h
  omega

/-- The last supported date. -/
theorem january_fits_last : date2j 5874898 1 4 < 2 ^ 31 :=
  (@january_fits ⟨5874897, 12, 31⟩ ⟨by decide, by decide, by decide, by decide⟩
    ⟨by decide, by decide, by decide, by decide⟩ 5874898 (by simp) _ (by decide)).2

/-- **The conversions between dates, Julian days and ISO weeks.** -/
theorem calendar_conversion {jd : Int} (hjd : 0 ≤ jd) (hmax : jd ≤ 2147483647) {d : Date}
    (hvalid : d.Valid) (hsupp : d.Supported) :
    ((j2date jd).Valid ∧ (j2date jd).julian = jd ∧
      (∀ v ∈ date2jValues (j2date jd).year (j2date jd).month (j2date jd).day,
        -2 ^ 31 ≤ v ∧ v < 2 ^ 31) ∧
      (jd < 2147483647 → j2date (jd + 1) = (j2date jd).nextDay)) ∧
    ∃ y w, date2isoyear d.year d.month d.day = y ∧ date2isoweek d.year d.month d.day = w ∧
      1 ≤ w ∧ w ≤ 53 ∧ isoweek2j y w ≤ d.julian ∧ d.julian < isoweek2j y w + 7 ∧
      -- The Thursday of the week.
      date2j y 1 1 ≤ isoweek2j y w + 3 ∧ isoweek2j y w + 3 ≤ date2j y 12 31 ∧
      date2isoyearday d.year d.month d.day = 7 * (w - 1) + (d.julian - isoweek2j y w + 1) := by
  constructor
  · lift jd to ℕ using hjd
    obtain ⟨hv, hyear, h⟩ := j2date_valid jd hmax
    exact ⟨hv, h, (julian_march hv hyear).2 (by omega),
      fun hlt => j2date_nextDay (by omega) hlt hv hyear h⟩
  obtain ⟨hm, -⟩ := hsupp
  obtain ⟨y, hy, hym, hf, hl, hw⟩ := isoyear_spec hvalid (by omega)
  have hn := january_add_one hym
  have hd : date2j (y + 1) 1 1 = date2j y 12 31 + 1 :=
    @julian_nextDay ⟨y, 12, 31⟩ ⟨by norm_num, by norm_num, by norm_num, le_rfl⟩
      (show 0 ≤ y + 4800 by omega)
  refine ⟨y, _, hy, rfl, ?_⟩
  have hj : date2j d.year d.month d.day = d.julian := rfl
  simp only [date2isoyearday, isoweek2j, monday, january_four, hw, hy, hj]
  split_ifs at hn <;> and_intros <;> omega

/-- The last Julian day, and a Friday in the last ISO week of the year before its own. -/
theorem calendar_conversion_friday :
    (j2date 2147483647).julian = 2147483647 ∧ ∃ w, date2isoweek 2027 1 1 = w ∧ w ≤ 53 := by
  obtain ⟨⟨-, h, -⟩, y, w, -, hw, -, hle, -⟩ :=
    @calendar_conversion 2147483647 (by decide) le_rfl ⟨2027, 1, 1⟩
      ⟨by decide, by decide, by decide, by decide⟩ ⟨by decide, by decide, by decide, by decide⟩
  exact ⟨h, w, hw, hle⟩

end AthenaPG
