import EsOs.Lib.Calendar
import EsOs.Es.DateTime

/-!
# Dates and ticks

The ticks of a `DateTime` are the number of a date of the calendar and a time of the day. Both
directions of the conversion meet there: `dateToTicks` computes the number of a date, and `getDates`
finds the one date that has the number.
-/

namespace EsOs.Es.DateTime

open EsOs.Lib.Gregorian

variable {t : DateTime} {d : Date}

theorem isLeapYear_iff (y : Nat) : isLeapYear y = true ↔ Leap y := by
  have hmod : ∀ k : Nat, (y : Int).tmod k = 0 ↔ y % k = 0 := by
    intro k
    rw [← Int.ofNat_tmod]
    exact Int.ofNat_eq_zero
  have h4 := hmod 4
  have h100 := hmod 100
  have h400 := hmod 400
  simp only [isLeapYear, Leap, Bool.and_eq_true, Bool.or_eq_true, decide_eq_true_eq, ne_eq]
  exact and_congr h4 (or_congr (not_congr h100) h400)

/-- The tables hold the days of the first months of a year. -/
theorem days_eq (y : Nat) {m : Nat} (hm : m ≤ 12) : days y m = daysOfMonths y m := by
  have hleaps : ∀ m ≤ 12, leapYearDays.getD m 0 = daysOfMonths 4 m := by decide
  have hcommon : ∀ m ≤ 12, yearDays.getD m 0 = daysOfMonths 1 m := by decide
  unfold days
  by_cases hleap : Leap y
  · rw [if_pos ((isLeapYear_iff y).mpr hleap), hleaps m hm]
    exact daysOfMonths_congr (iff_of_true (by decide) hleap) m
  · rw [if_neg fun h => hleap ((isLeapYear_iff y).mp h), hcommon m hm]
    exact daysOfMonths_congr (iff_of_false (by decide) hleap) m

theorem daysInMonth_eq (y : Nat) {m : Nat} (hpos : 1 ≤ m) (hm : m ≤ 12) :
    daysInMonth y m = .ok (monthLength y m) := by
  obtain ⟨k, rfl⟩ := Nat.exists_eq_add_of_le' hpos
  rw [daysInMonth, if_neg (by omega), Int.toNat_natCast, days_eq y hm, days_eq y (by omega),
    Nat.add_sub_cancel, daysOfMonths, Nat.add_sub_cancel_left]

/-- The ticks of a date are its number. -/
theorem dateToTicks_eq (hy : d.year ≤ 9999) :
    dateToTicks d.year d.month d.day = .ok (d.number * TICKS_PER_DAY) := by
  have hyear := d.year_pos
  have hmonth := d.month_pos
  have hmonths := d.month_le
  have hday := d.day_pos
  have hdays := d.day_le
  have hlength := daysInMonth_eq d.year hmonth hmonths
  rw [daysInMonth, if_neg (by omega)] at hlength
  have hlength := Except.ok.inj hlength
  have hyears := daysOfYears_eq (d.year - 1)
  have hbefore := days_eq d.year (Nat.le_trans (Nat.sub_le d.month 1) hmonths)
  rw [dateToTicks, if_neg (by omega), if_neg (by omega), hlength, if_neg (by omega)]
  simp only [Int.toNat_natCast, hbefore]
  rw [show ((d.year : Int) - 1).toNat = d.year - 1 by omega]
  congr 2
  unfold Date.number
  omega

theorem timeToTicks_eq {h m s : Nat} (hh : h < 24) (hm : m < 60) (hs : s < 60) :
    timeToTicks h m s = .ok ((h * 3600 + m * 60 + s) * TICKS_PER_SECOND) := by
  rw [timeToTicks, if_neg (by omega), if_neg (by omega), if_neg (by omega)]
  rfl

theorem ofDate_eq (hy : d.year ≤ 9999) :
    ∃ t, ofDate d.year d.month d.day = .ok t ∧ t.ticks = d.number * TICKS_PER_DAY := by
  have hdate := dateToTicks_eq hy
  unfold ofDate
  split
  · rename_i he
    rw [hdate] at he
    cases he
  · rename_i hok
    rw [hdate] at hok
    obtain rfl := Except.ok.inj hok
    exact ⟨_, rfl, rfl⟩

theorem ofFields_ok {year month day hour minute second milli micro : Int} {date time : Nat}
    (hdate : dateToTicks year month day = .ok date)
    (htime : timeToTicks hour minute second = .ok time) (hmilli : 0 ≤ milli ∧ milli < 1000)
    (hmicro : 0 ≤ micro ∧ micro < 1000) :
    ∃ t, ofFields year month day hour minute second milli micro = .ok t ∧
      t.ticks = date + time + milli.toNat * TICKS_PER_MILLISECOND +
        micro.toNat * TICKS_PER_MICROSECOND := by
  unfold ofFields
  split
  · rename_i he
    rw [hdate] at he
    cases he
  · rename_i hok
    obtain rfl := Except.ok.inj (hdate.symm.trans hok)
    split
    · rename_i he
      rw [htime] at he
      cases he
    · rename_i hok
      obtain rfl := Except.ok.inj (htime.symm.trans hok)
      rw [dif_neg (by omega), dif_neg (by omega)]
      exact ⟨_, rfl, rfl⟩

theorem ticksPerDay_eq : TICKS_PER_DAY = 24 * 60 * 60 * 1000 * 10000 := rfl

theorem ticksPerHour_eq : TICKS_PER_HOUR = 60 * 60 * 1000 * 10000 := rfl

theorem ticksPerMinute_eq : TICKS_PER_MINUTE = 60 * 1000 * 10000 := rfl

theorem ticksPerSecond_eq : TICKS_PER_SECOND = 1000 * 10000 := rfl

theorem ticksPerMillisecond_eq : TICKS_PER_MILLISECOND = 10000 := rfl

theorem ticksPerMicrosecond_eq : TICKS_PER_MICROSECOND = 10 := rfl

/-- The ticks of a day and a time of the day. -/
theorem ticks_sum (n h m s ms us : Nat) :
    n * TICKS_PER_DAY + (h * 3600 + m * 60 + s) * TICKS_PER_SECOND + ms * TICKS_PER_MILLISECOND +
      us * TICKS_PER_MICROSECOND =
    ((((n * 24 + h) * 60 + m) * 60 + s) * 1000 + ms) * 10000 + us * 10 := by
  rw [ticksPerDay_eq, ticksPerSecond_eq, ticksPerMillisecond_eq, ticksPerMicrosecond_eq]
  omega

theorem ofFields_eq (hy : d.year ≤ 9999) {h m s ms us : Nat} (hh : h < 24) (hm : m < 60)
    (hs : s < 60) (hms : ms < 1000) (hus : us < 1000) :
    ∃ t, ofFields d.year d.month d.day h m s ms us = .ok t ∧
      t.ticks = ((((d.number * 24 + h) * 60 + m) * 60 + s) * 1000 + ms) * 10000 + us * 10 := by
  obtain ⟨t, hok, hticks⟩ := ofFields_ok (dateToTicks_eq hy) (timeToTicks_eq hh hm hs)
    (show 0 ≤ (ms : Int) ∧ (ms : Int) < 1000 by omega)
    (show 0 ≤ (us : Int) ∧ (us : Int) < 1000 by omega)
  exact ⟨t, hok, hticks.trans (ticks_sum d.number h m s ms us)⟩

/-- The loop over the months ends at the one that holds the day. -/
theorem monthLoop_spec {f : Nat → Nat} {day fuel month k : Nat} (hpos : 1 ≤ month)
    (hlo : f (month - 1) ≤ day) (hk : month ≤ k) (hfuel : k ≤ month + fuel) (hend : day < f k) :
    1 ≤ monthLoop f day fuel month ∧ monthLoop f day fuel month ≤ k ∧
      f (monthLoop f day fuel month - 1) ≤ day ∧ day < f (monthLoop f day fuel month) := by
  induction fuel generalizing month with
  | zero =>
    obtain rfl : month = k := by omega
    exact ⟨hpos, Nat.le_refl _, hlo, hend⟩
  | succ fuel ih =>
    unfold monthLoop
    split
    · rename_i hle
      have hne : month ≠ k := by
        rintro rfl
        omega
      exact ih (by omega) hle (by omega) (by omega)
    · rename_i hlt
      exact ⟨hpos, hk, hlo, Nat.lt_of_not_le hlt⟩

/-- The month and the day of a day of the year. -/
theorem month_spec {y day : Nat} (hy : 1 ≤ y) (hday : day < yearLength y) :
    ∃ d : Date, d.year = y ∧ d.yearDay = day ∧
      d.month = monthLoop (days y) day 12 ((day >>> 5) + 1) ∧
      d.day = day - days y (monthLoop (days y) day 12 ((day >>> 5) + 1) - 1) + 1 := by
  have hlength : yearLength y ≤ 366 := by
    unfold yearLength
    split <;> omega
  have hshift : day >>> 5 = day / 32 := Nat.shiftRight_eq_div_pow day 5
  have hstart : days y ((day >>> 5) + 1 - 1) ≤ day := by
    have := daysOfMonths_le y (day / 32)
    rw [hshift, Nat.add_sub_cancel, days_eq y (by omega)]
    omega
  have hend : day < days y 12 := by
    rwa [days_eq y (Nat.le_refl 12), daysOfMonths_twelve]
  have hloop := monthLoop_spec (Nat.le_add_left 1 (day >>> 5)) hstart (k := 12)
    (by omega) (show 12 ≤ (day >>> 5) + 1 + 12 by omega) hend
  generalize monthLoop (days y) day 12 ((day >>> 5) + 1) = m at hloop ⊢
  obtain ⟨hpos, hle, hlo, hhi⟩ := hloop
  rw [days_eq y (by omega)] at hlo ⊢
  rw [days_eq y hle] at hhi
  have hmonth : daysOfMonths y m = daysOfMonths y (m - 1) + monthLength y m := by
    obtain ⟨k, rfl⟩ := Nat.exists_eq_add_of_le' hpos
    rw [daysOfMonths, Nat.add_sub_cancel]
  refine ⟨⟨y, m, day - daysOfMonths y (m - 1) + 1, hy, hpos, hle, Nat.le_add_left 1 _, by omega⟩,
    rfl, ?_, rfl, rfl⟩
  simp only [Date.yearDay]
  omega

/-- `year` and the day of the year of `getDates`, from the number of the day. -/
theorem year_spec (n : Nat) {y100 y1 : Nat}
    (h100 : y100 = if n % 146097 / 36524 = 4 then 3 else n % 146097 / 36524)
    (h1 : y1 = if (n % 146097 - y100 * 36524) % 1461 / 365 = 4 then 3
      else (n % 146097 - y100 * 36524) % 1461 / 365) :
    daysOfYears (n / 146097 * 400 + y100 * 100 + (n % 146097 - y100 * 36524) / 1461 * 4 + y1) +
        ((n % 146097 - y100 * 36524) % 1461 - y1 * 365) = n ∧
      (n % 146097 - y100 * 36524) % 1461 - y1 * 365 <
        yearLength (n / 146097 * 400 + y100 * 100 + (n % 146097 - y100 * 36524) / 1461 * 4 + y1 +
          1) := by
  have hcentury : y100 ≤ 3 ∧ y100 * 36524 ≤ n % 146097 ∧
      (n % 146097 - y100 * 36524 < 36524 ∨ y100 = 3 ∧ n % 146097 - y100 * 36524 = 36524) := by
    split at h100 <;> omega
  have hn := Nat.div_add_mod n 146097
  generalize hr : n % 146097 - y100 * 36524 = r at *
  have hfour := Nat.div_add_mod r 1461
  have hrest := Nat.mod_lt r (show 0 < 1461 by decide)
  have hc : r / 1461 ≤ 24 := by omega
  have hyear : y1 ≤ 3 ∧ y1 * 365 ≤ r % 1461 ∧
      (r % 1461 - y1 * 365 < 365 ∨ y1 = 3 ∧ r % 1461 - y1 * 365 = 365) := by
    split at h1 <;> omega
  rw [daysOfYears_cycle _ hcentury.1 hc hyear.1, yearLength_cycle _ hcentury.1 hc hyear.1]
  refine ⟨by omega, ?_⟩
  split
  · omega
  · omega

/-- The dates of ticks are those of the calendar. -/
theorem getDates_spec {ticks : Nat} (h : ticks ≤ MAX_TICKS) :
    ∃ d : Date, d.number = ticks / TICKS_PER_DAY ∧ d.year ≤ 9999 ∧
      getDates ticks = ⟨d.year, d.month, d.day, d.yearDay + 1⟩ := by
  have hlast : ticks / TICKS_PER_DAY < daysOfYears 9999 := by
    have hmax : MAX_TICKS + 1 = 3652059 * TICKS_PER_DAY := by decide
    have hyears := daysOfYears_eq 9999
    rw [Nat.div_lt_iff_lt_mul (by decide)]
    have : daysOfYears 9999 = 3652059 := by omega
    rw [this]
    omega
  obtain ⟨hnumber, hday⟩ := year_spec (ticks / TICKS_PER_DAY) rfl rfl
  obtain ⟨d, hyear, hyday, hmonth, hdays⟩ := month_spec (Nat.le_add_left 1 _) hday
  have heq : d.number = ticks / TICKS_PER_DAY := by
    rw [Date.number_eq, hyday, hyear, Nat.add_sub_cancel]
    exact hnumber
  refine ⟨d, heq, ?_, ?_⟩
  · have hbefore : daysOfYears (d.year - 1) < daysOfYears 9999 := by
      rw [Date.number_eq] at heq
      omega
    have := daysOfYears_strictMono.lt_iff_lt.mp hbefore
    omega
  · rw [← hyear] at hmonth hdays
    rw [hyday, hmonth, hdays, hyear]
    rfl

/-- Ticks of a date, with a time of the day, show that date. -/
theorem getDates_number (hy : d.year ≤ 9999) {r : Nat} (hr : r < TICKS_PER_DAY) :
    getDates (d.number * TICKS_PER_DAY + r) = ⟨d.year, d.month, d.day, d.yearDay + 1⟩ := by
  have hroom := dateToTicks_lt (dateToTicks_eq hy)
  obtain ⟨e, hnumber, -, hdates⟩ :=
    getDates_spec (show d.number * TICKS_PER_DAY + r ≤ MAX_TICKS by omega)
  have hday : (d.number * TICKS_PER_DAY + r) / TICKS_PER_DAY = d.number := by
    rw [Nat.mul_comm, Nat.mul_add_div (by decide), Nat.div_eq_of_lt hr, Nat.add_zero]
  rw [hday] at hnumber
  rw [hdates, Date.number_injective hnumber]

/-- The date that a date and time shows. -/
def Shows (t : DateTime) (d : Date) : Prop :=
  t.getYear = d.year ∧ t.getMonth = d.month ∧ t.getDay = d.day

theorem shows_spec (t : DateTime) :
    ∃ d : Date, d.number = t.ticks / TICKS_PER_DAY ∧ d.year ≤ 9999 ∧ t.Shows d := by
  obtain ⟨d, hnumber, hy, hdates⟩ := getDates_spec t.le_max
  refine ⟨d, hnumber, hy, ?_, ?_, ?_⟩
  · rw [getYear, hdates]
  · rw [getMonth, hdates]
  · rw [getDay, hdates]

theorem shows_number (hy : d.year ≤ 9999) {r : Nat} (hr : r < TICKS_PER_DAY)
    (ht : t.ticks = d.number * TICKS_PER_DAY + r) : t.Shows d := by
  have hdates := getDates_number hy hr
  rw [← ht] at hdates
  refine ⟨?_, ?_, ?_⟩
  · rw [getYear, hdates]
  · rw [getMonth, hdates]
  · rw [getDay, hdates]

theorem Shows.unique {e : Date} (hd : t.Shows d) (he : t.Shows e) : d = e :=
  Date.ext (hd.1.symm.trans he.1) (hd.2.1.symm.trans he.2.1) (hd.2.2.symm.trans he.2.2)

/-- A day later the next date of the calendar is shown. -/
theorem shows_next {t' : DateTime} (hd : t.Shows d)
    (hday : t'.ticks / TICKS_PER_DAY = t.ticks / TICKS_PER_DAY + 1) : t'.Shows d.next := by
  obtain ⟨e, hnumber, -, he⟩ := t.shows_spec
  obtain ⟨e', hnumber', -, he'⟩ := t'.shows_spec
  rw [hday, ← hnumber, ← Date.number_next] at hnumber'
  rwa [hd.unique he, ← Date.number_injective hnumber']

/-- The getters of the time of the day, one from the other. -/
theorem time_spec (t : DateTime) :
    t.getMicrosecond = t.ticks / 10 % 1000 ∧ t.getMillisecond = t.ticks / 10 / 1000 % 1000 ∧
      t.getSecond = t.ticks / 10 / 1000 / 1000 % 60 ∧
      t.getMinute = t.ticks / 10 / 1000 / 1000 / 60 % 60 ∧
      t.getHour = t.ticks / 10 / 1000 / 1000 / 60 / 60 % 24 ∧
      t.ticks / TICKS_PER_DAY = t.ticks / 10 / 1000 / 1000 / 60 / 60 / 24 := by
  have hms : t.ticks / TICKS_PER_MILLISECOND = t.ticks / 10 / 1000 :=
    (Nat.div_div_eq_div_mul _ TICKS_PER_MICROSECOND 1000).symm
  have hs : t.ticks / TICKS_PER_SECOND = t.ticks / 10 / 1000 / 1000 := by
    rw [← hms]
    exact (Nat.div_div_eq_div_mul _ TICKS_PER_MILLISECOND 1000).symm
  have hm : t.ticks / TICKS_PER_MINUTE = t.ticks / 10 / 1000 / 1000 / 60 := by
    rw [← hs]
    exact (Nat.div_div_eq_div_mul _ TICKS_PER_SECOND 60).symm
  have hh : t.ticks / TICKS_PER_HOUR = t.ticks / 10 / 1000 / 1000 / 60 / 60 := by
    rw [← hm]
    exact (Nat.div_div_eq_div_mul _ TICKS_PER_MINUTE 60).symm
  have hd : t.ticks / TICKS_PER_DAY = t.ticks / 10 / 1000 / 1000 / 60 / 60 / 24 := by
    rw [← hh]
    exact (Nat.div_div_eq_div_mul _ TICKS_PER_HOUR 24).symm
  rw [getMillisecond, getSecond, getMinute, getHour, hms, hs, hm, hh, hd]
  exact ⟨rfl, rfl, rfl, rfl, rfl, rfl⟩

/-- The conversions between ticks and fields, and the addition of months. -/
structure Laws : Prop where
  milliseconds : ∀ t : DateTime, ∃ t', ofFields t.getYear t.getMonth t.getDay t.getHour t.getMinute
      t.getSecond t.getMillisecond 0 = .ok t' ∧
    t'.ticks = t.ticks - t.ticks % TICKS_PER_MILLISECOND
  microseconds : ∀ t : DateTime, ∃ t', ofFields t.getYear t.getMonth t.getDay t.getHour t.getMinute
      t.getSecond t.getMillisecond t.getMicrosecond = .ok t' ∧
    t'.ticks = t.ticks - t.ticks % TICKS_PER_MICROSECOND
  date : ∀ d : Date, d.year ≤ 9999 → ∃ t, ofDate d.year d.month d.day = .ok t ∧ t.Shows d ∧
    t.getHour = 0 ∧ t.getMinute = 0 ∧ t.getSecond = 0 ∧ t.getMillisecond = 0 ∧
    t.getMicrosecond = 0
  fields : ∀ (d : Date) (h m s ms us : Nat), d.year ≤ 9999 → h < 24 → m < 60 → s < 60 →
    ms < 1000 → us < 1000 → ∃ t, ofFields d.year d.month d.day h m s ms us = .ok t ∧ t.Shows d ∧
      t.getHour = h ∧ t.getMinute = m ∧ t.getSecond = s ∧ t.getMillisecond = ms ∧
      t.getMicrosecond = us
  valid : ∀ t : DateTime, ∃ d : Date, d.year ≤ 9999 ∧ t.Shows d ∧
    t.getDayOfYear = d.yearDay + 1 ∧ t.getHour < 24 ∧ t.getMinute < 60 ∧ t.getSecond < 60 ∧
    t.getMillisecond < 1000 ∧ t.getMicrosecond < 1000
  addMonths : ∀ (t : DateTime) (n : Int) (target : Int),
    target = (t.getYear : Int) * 12 + (t.getMonth - 1) + n →
    if 1 ≤ target / 12 ∧ target / 12 ≤ 9999 then
      ∃ t', t.addMonths n = .ok t' ∧ t'.getYear = target / 12 ∧ t'.getMonth = target % 12 + 1 ∧
        t'.getDay = min t.getDay (monthLength t'.getYear t'.getMonth) ∧
        t'.ticks % TICKS_PER_DAY = t.ticks % TICKS_PER_DAY
    else ∃ e, t.addMonths n = .error e

/-- The fields of a date and time down to the microsecond lead back to it. -/
theorem ofFields_getters (t : DateTime) {us : Nat} (hus : us < 1000) :
    ∃ t', ofFields t.getYear t.getMonth t.getDay t.getHour t.getMinute t.getSecond
        t.getMillisecond us = .ok t' ∧ t'.ticks = t.ticks / 10 / 1000 * 10000 + us * 10 := by
  obtain ⟨d, hnumber, hy, hyear, hmonth, hday⟩ := t.shows_spec
  obtain ⟨-, hms, hs, hm, hh, hdays⟩ := t.time_spec
  obtain ⟨t', hok, hticks⟩ := ofFields_eq hy (show t.getHour < 24 by omega)
    (show t.getMinute < 60 by omega) (show t.getSecond < 60 by omega)
    (show t.getMillisecond < 1000 by omega) hus
  rw [hyear, hmonth, hday]
  refine ⟨t', hok, ?_⟩
  rw [hticks, hnumber, hdays, hms, hs, hm, hh]
  generalize t.ticks / 10 / 1000 = n
  omega

theorem fields_spec (hy : d.year ≤ 9999) {h m s ms us : Nat} (hh : h < 24) (hm : m < 60)
    (hs : s < 60) (hms : ms < 1000) (hus : us < 1000)
    (ht : t.ticks = ((((d.number * 24 + h) * 60 + m) * 60 + s) * 1000 + ms) * 10000 + us * 10) :
    t.Shows d ∧ t.getHour = h ∧ t.getMinute = m ∧ t.getSecond = s ∧ t.getMillisecond = ms ∧
      t.getMicrosecond = us := by
  obtain ⟨husec, hmsec, hsec, hmin, hhour, -⟩ := t.time_spec
  have h10 : t.ticks / 10 = ((((d.number * 24 + h) * 60 + m) * 60 + s) * 1000 + ms) * 1000 + us := by
    omega
  have h1000 : t.ticks / 10 / 1000 = (((d.number * 24 + h) * 60 + m) * 60 + s) * 1000 + ms := by
    omega
  have hseconds : t.ticks / 10 / 1000 / 1000 = ((d.number * 24 + h) * 60 + m) * 60 + s := by
    omega
  have hminutes : t.ticks / 10 / 1000 / 1000 / 60 = (d.number * 24 + h) * 60 + m := by
    omega
  have hhours : t.ticks / 10 / 1000 / 1000 / 60 / 60 = d.number * 24 + h := by
    omega
  refine ⟨shows_number hy (r := (((h * 60 + m) * 60 + s) * 1000 + ms) * 10000 + us * 10) ?_ ?_,
    by omega, by omega, by omega, by omega, by omega⟩
  · rw [ticksPerDay_eq]
    omega
  · rw [ht, ticksPerDay_eq]
    omega

/-- The carry of `addMonths` is the division that rounds down. -/
theorem carryMonth_eq (year month : Int) :
    carryMonth year month = ((year * 12 + month) / 12, (year * 12 + month) % 12 + 1) := by
  have hdiv : month.tdiv 12 = month / 12 + if 0 ≤ month ∨ 12 ∣ month then 0 else 1 :=
    Int.tdiv_eq_ediv
  have hmod := Int.tmod_def month 12
  simp only [carryMonth, hmod, hdiv]
  split <;> split <;> ext <;> dsimp only <;> omega

theorem ofDate_year {year : Int} (month day : Int) (hy : year < 1 ∨ 9999 < year) :
    ofDate year month day = .error "year" := by
  have hdate : dateToTicks year month day = .error "year" := by
    rw [dateToTicks, if_pos hy]
  unfold ofDate
  split
  · rename_i he
    rw [hdate] at he
    rw [Except.error.inj he]
  · rename_i hok
    rw [hdate] at hok
    cases hok

theorem ofTicks_ok {ticks : Nat} (h : ticks ≤ MAX_TICKS) : ofTicks ticks = .ok ⟨ticks, h⟩ := by
  have hmin : MIN_TICKS = 0 := rfl
  rw [ofTicks, dif_neg (by omega)]
  rfl

/-- Adding months goes to the date that is made of the target month and the day clamped to it. -/
theorem addMonths_date {e : Date} {n : Int} (hn : -120000 ≤ n ∧ n ≤ 120000)
    (hshow : t.Shows d) (hyear : ((d.year : Int) * 12 + (d.month - 1) + n) / 12 = e.year)
    (hmonth : ((d.year : Int) * 12 + (d.month - 1) + n) % 12 + 1 = e.month)
    (hday : e.day = min d.day (monthLength e.year e.month)) (hy : e.year ≤ 9999) :
    ∃ t', t.addMonths n = .ok t' ∧
      t'.ticks = e.number * TICKS_PER_DAY + t.ticks % TICKS_PER_DAY := by
  obtain ⟨hyears, hmonths, hdays⟩ := hshow
  have hyears : (getDates t.ticks).year = d.year := hyears
  have hmonths : (getDates t.ticks).month = d.month := hmonths
  have hdays : (getDates t.ticks).day = d.day := hdays
  have hsum : (d.year : Int) * 12 + (d.month - 1 + n) = (d.year : Int) * 12 + (d.month - 1) + n := by
    omega
  have hclamp : (if monthLength e.year e.month < d.day then monthLength e.year e.month else d.day) =
      e.day := by
    rw [hday]
    split <;> omega
  obtain ⟨t₁, hok, hticks⟩ := ofDate_eq hy
  have hroom := dateToTicks_lt (dateToTicks_eq hy)
  have hrest : t.ticks % TICKS_PER_DAY < TICKS_PER_DAY := Nat.mod_lt _ (by decide)
  have hmax : t₁.ticks + t.ticks % TICKS_PER_DAY ≤ MAX_TICKS := by omega
  refine ⟨⟨_, hmax⟩, ?_, congrArg (· + _) hticks⟩
  rw [addMonths, if_neg (by omega)]
  simp only [carryMonth_eq, hyears, hmonths, hdays, hsum, hyear, hmonth,
    daysInMonth_eq e.year e.month_pos e.month_le, bind, Except.bind, hclamp, hok, addTicks]
  exact ofTicks_ok hmax

theorem addMonths_error {n : Int}
    (hn : n < -120000 ∨ 120000 < n ∨ ((t.getYear : Int) * 12 + (t.getMonth - 1) + n) / 12 < 1 ∨
      9999 < ((t.getYear : Int) * 12 + (t.getMonth - 1) + n) / 12) :
    ∃ e, t.addMonths n = .error e := by
  rw [addMonths]
  split
  · exact ⟨_, rfl⟩
  · rename_i hlimit
    have hyear : (t.getYear : Int) * 12 + (t.getMonth - 1 + n) =
        (t.getYear : Int) * 12 + (t.getMonth - 1) + n := by
      omega
    have hmonth : ∃ days, daysInMonth (((t.getYear : Int) * 12 + (t.getMonth - 1) + n) / 12)
        (((t.getYear : Int) * 12 + (t.getMonth - 1) + n) % 12 + 1) = .ok days := by
      rw [daysInMonth, if_neg (by omega)]
      exact ⟨_, rfl⟩
    obtain ⟨days, hdays⟩ := hmonth
    unfold getYear getMonth at *
    simp only [carryMonth_eq, hyear, hdays, bind, Except.bind]
    rw [ofDate_year _ _ (by omega)]
    exact ⟨_, rfl⟩

theorem addMonths_spec (t : DateTime) (n target : Int)
    (htarget : target = (t.getYear : Int) * 12 + (t.getMonth - 1) + n) :
    if 1 ≤ target / 12 ∧ target / 12 ≤ 9999 then
      ∃ t', t.addMonths n = .ok t' ∧ t'.getYear = target / 12 ∧ t'.getMonth = target % 12 + 1 ∧
        t'.getDay = min t.getDay (monthLength t'.getYear t'.getMonth) ∧
        t'.ticks % TICKS_PER_DAY = t.ticks % TICKS_PER_DAY
    else ∃ e, t.addMonths n = .error e := by
  obtain ⟨d, -, hd, hshow⟩ := t.shows_spec
  obtain ⟨hyear, hmonth, hday⟩ := id hshow
  split
  · rename_i hrange
    have hpos := d.year_pos
    have hmonths := d.month_pos
    have hmonthle := d.month_le
    have hlength := monthLength_pos (target / 12).toNat (target % 12 + 1).toNat
    let e : Date := {
      year := (target / 12).toNat
      month := (target % 12 + 1).toNat
      day := min d.day (monthLength (target / 12).toNat (target % 12 + 1).toNat)
      year_pos := by omega
      month_pos := by omega
      month_le := by omega
      day_pos := Nat.le_min.mpr ⟨d.day_pos, hlength⟩
      day_le := Nat.min_le_right _ _ }
    have hey : ((e.year : Nat) : Int) = target / 12 := Int.toNat_of_nonneg (by omega)
    have hem : ((e.month : Nat) : Int) = target % 12 + 1 := Int.toNat_of_nonneg (by omega)
    rw [hyear, hmonth] at htarget
    obtain ⟨t', hok, hticks⟩ := addMonths_date (e := e) (by omega) hshow (htarget ▸ hey.symm)
      (htarget ▸ hem.symm) rfl (by omega)
    have hrest : t.ticks % TICKS_PER_DAY < TICKS_PER_DAY := Nat.mod_lt _ (by decide)
    obtain ⟨hyear', hmonth', hday'⟩ := shows_number (d := e) (by omega) hrest hticks
    refine ⟨t', hok, by rw [hyear', hey], by rw [hmonth', hem], ?_, ?_⟩
    · rw [hday', hyear', hmonth', hday]
    · rw [hticks, Nat.mul_comm, Nat.mul_add_mod, Nat.mod_mod]
  · rename_i hrange
    exact addMonths_error (by omega)

/-- All conversions are right, over the whole range of ticks. -/
theorem laws : Laws where
  milliseconds t := by
    obtain ⟨t', hok, hticks⟩ := t.ofFields_getters (show 0 < 1000 by decide)
    refine ⟨t', hok, ?_⟩
    rw [hticks, ticksPerMillisecond_eq]
    omega
  microseconds t := by
    obtain ⟨husec, -⟩ := t.time_spec
    obtain ⟨t', hok, hticks⟩ := t.ofFields_getters (show t.getMicrosecond < 1000 by omega)
    refine ⟨t', hok, ?_⟩
    rw [hticks, husec, ticksPerMicrosecond_eq]
    omega
  date d hy := by
    obtain ⟨t, hok, hticks⟩ := ofDate_eq hy
    have hzero : 0 < 24 ∧ 0 < 60 ∧ 0 < 1000 := by decide
    refine ⟨t, hok, fields_spec hy hzero.1 hzero.2.1 hzero.2.1 hzero.2.2 hzero.2.2 ?_⟩
    rw [hticks, ticksPerDay_eq]
    omega
  fields d h m s ms us hy hh hm hs hms hus := by
    obtain ⟨t, hok, hticks⟩ := ofFields_eq hy hh hm hs hms hus
    exact ⟨t, hok, fields_spec hy hh hm hs hms hus hticks⟩
  valid t := by
    obtain ⟨d, hnumber, hy, hdates⟩ := getDates_spec t.le_max
    refine ⟨d, hy, ⟨?_, ?_, ?_⟩, ?_, Nat.mod_lt _ (by decide), Nat.mod_lt _ (by decide),
      Nat.mod_lt _ (by decide), Nat.mod_lt _ (by decide), Nat.mod_lt _ (by decide)⟩
    · rw [getYear, hdates]
    · rw [getMonth, hdates]
    · rw [getDay, hdates]
    · rw [getDayOfYear, hdates]
  addMonths := addMonths_spec

end EsOs.Es.DateTime
