/-!
# Date and time

The class of `es/dateTime.h` with the tables of `libes++/src/dateTime.cpp`. A date and time is a
number of ticks of 100 ns since 1 January 1. An `int` parameter is an integer; what is computed
from the ticks is never negative and is a natural number. An exception is an error with its text.
-/

namespace EsOs.Es

namespace DateTime

def TICKS_PER_MICROSECOND : Nat := 10
def TICKS_PER_MILLISECOND : Nat := TICKS_PER_MICROSECOND * 1000
def TICKS_PER_SECOND : Nat := TICKS_PER_MILLISECOND * 1000
def TICKS_PER_MINUTE : Nat := TICKS_PER_SECOND * 60
def TICKS_PER_HOUR : Nat := TICKS_PER_MINUTE * 60
def TICKS_PER_DAY : Nat := TICKS_PER_HOUR * 24

def DAYS_PER_YEAR : Nat := 365
def DAYS_PER_4YEARS : Nat := DAYS_PER_YEAR * 4 + 1
def DAYS_PER_100YEARS : Nat := DAYS_PER_4YEARS * 25 - 1
def DAYS_PER_400YEARS : Nat := DAYS_PER_100YEARS * 4 + 1

def MAX_TICKS : Nat := (DAYS_PER_400YEARS * 25 - 366) * TICKS_PER_DAY - 1
def MIN_TICKS : Nat := 0

/-- `DateTime::yearDays` (`dateTime.cpp:20-23`). -/
def yearDays : List Nat :=
  [0, 31, 59, 90, 120, 151, 181, 212, 243, 273, 304, 334, 365]

/-- `DateTime::leapYearDays` (`dateTime.cpp:25-28`). -/
def leapYearDays : List Nat :=
  [0, 31, 60, 91, 121, 152, 182, 213, 244, 274, 305, 335, 366]

/-- `DateTime::isLeapYear` (`dateTime.h:484-487`). -/
def isLeapYear (year : Int) : Bool :=
  year.tmod 4 = 0 && (year.tmod 100 ≠ 0 || year.tmod 400 = 0)

/-- `days[month]` of the table that is chosen for the year (`dateTime.h:79`). -/
def days (year : Int) (month : Nat) : Nat :=
  (if isLeapYear year then leapYearDays else yearDays).getD month 0

/-- `DateTime::daysInMonth` (`dateTime.h:495-503`). -/
def daysInMonth (year month : Int) : Except String Nat :=
  if month < 1 ∨ 12 < month then .error "month"
  else .ok (days year month.toNat - days year (month.toNat - 1))

/-- `DateTime::dateToTicks` (`dateTime.h:69-87`). -/
def dateToTicks (year month day : Int) : Except String Nat :=
  if year < 1 ∨ 9999 < year then .error "year"
  else if month < 1 ∨ 12 < month then .error "month"
  else if day < 1 ∨ ((days year month.toNat - days year (month.toNat - 1) : Nat) : Int) < day then
    .error "date"
  else
    let y := (year - 1).toNat
    let n := y * 365 + y / 4 - y / 100 + y / 400 + days year (month.toNat - 1) + day.toNat - 1
    .ok (n * TICKS_PER_DAY)

/-- `DateTime::timeToTicks` (`dateTime.h:89-104`). -/
def timeToTicks (hour minute second : Int) : Except String Nat :=
  if hour < 0 ∨ 24 ≤ hour then .error "hour"
  else if minute < 0 ∨ 60 ≤ minute then .error "minute"
  else if second < 0 ∨ 60 ≤ second then .error "second"
  else .ok ((hour.toNat * 3600 + minute.toNat * 60 + second.toNat) * TICKS_PER_SECOND)

/-- The loop of `getDates` over the months (`dateTime.h:136-139`), where at most `fuel` months
    remain. -/
def monthLoop (days : Nat → Nat) (day : Nat) : Nat → Nat → Nat
  | 0, month => month
  | fuel + 1, month => if days month ≤ day then monthLoop days day fuel (month + 1) else month

/-- What `getDates` computes (`dateTime.h:106-141`). -/
structure Dates where
  year : Nat
  month : Nat
  day : Nat
  yday : Nat
deriving DecidableEq, Repr

/-- `DateTime::getDates` (`dateTime.h:106-141`). -/
def getDates (ticks : Nat) : Dates :=
  let day := ticks / TICKS_PER_DAY
  let y400 := day / DAYS_PER_400YEARS
  let day := day % DAYS_PER_400YEARS
  let y100 := day / DAYS_PER_100YEARS
  let y100 := if y100 = 4 then 3 else y100
  let day := day - y100 * DAYS_PER_100YEARS
  let y4 := day / DAYS_PER_4YEARS
  let day := day % DAYS_PER_4YEARS
  let y1 := day / DAYS_PER_YEAR
  let y1 := if y1 = 4 then 3 else y1
  let day := day - y1 * DAYS_PER_YEAR
  let year := y400 * 400 + y100 * 100 + y4 * 4 + y1 + 1
  let month := monthLoop (days year) day 12 ((day >>> 5) + 1)
  { year := year, month := month, day := day - days year (month - 1) + 1, yday := day + 1 }

end DateTime

open DateTime in
/-- `DateTime` (`dateTime.h:43-48`): the ticks, in the range that every constructor keeps to. -/
structure DateTime where
  ticks : Nat
  le_max : ticks ≤ MAX_TICKS
deriving DecidableEq, Repr

namespace DateTime

theorem days_le (year : Int) (m : Nat) :
    days year m ≤ 366 ∧ (isLeapYear year = false → days year m ≤ 365) := by
  have htable : ∀ m < 13, yearDays.getD m 0 ≤ 365 ∧ leapYearDays.getD m 0 ≤ 366 := by decide
  have hle : yearDays.getD m 0 ≤ 365 ∧ leapYearDays.getD m 0 ≤ 366 := by
    by_cases hm : m < 13
    · exact htable m hm
    · rw [List.getD_eq_getElem?_getD, List.getD_eq_getElem?_getD,
        List.getElem?_eq_none (Nat.le_of_not_lt hm), List.getElem?_eq_none (Nat.le_of_not_lt hm)]
      exact ⟨Nat.zero_le _, Nat.zero_le _⟩
  unfold days
  split
  · rename_i hleap
    exact ⟨hle.2, fun hcommon => absurd hleap (hcommon ▸ Bool.false_ne_true)⟩
  · exact ⟨Nat.le_succ_of_le hle.1, fun _ => hle.1⟩

/-- The ticks of a date leave room for the time of the day. -/
theorem dateToTicks_lt {year month day : Int} {t : Nat} (h : dateToTicks year month day = .ok t) :
    t + TICKS_PER_DAY ≤ MAX_TICKS + 1 := by
  unfold dateToTicks at h
  split at h
  · cases h
  split at h
  · cases h
  split at h
  · cases h
  rename_i hyear hmonth hday
  cases h
  obtain ⟨hle, hcommon⟩ := days_le year month.toNat
  have hlast : year = 9999 → isLeapYear year = false := by
    rintro rfl
    decide
  have hn : (year - 1).toNat * 365 + (year - 1).toNat / 4 - (year - 1).toNat / 100 +
      (year - 1).toNat / 400 + days year (month.toNat - 1) + day.toNat - 1 + 1 ≤ 3652059 := by
    by_cases hend : year = 9999
    · have := hcommon (hlast hend)
      omega
    · omega
  refine Nat.le_trans (Nat.le_of_eq (Nat.succ_mul _ _).symm) ?_
  exact Nat.mul_le_mul_right TICKS_PER_DAY hn

theorem timeToTicks_lt {hour minute second : Int} {t : Nat}
    (h : timeToTicks hour minute second = .ok t) : t + TICKS_PER_SECOND ≤ TICKS_PER_DAY := by
  unfold timeToTicks at h
  split at h
  · cases h
  split at h
  · cases h
  split at h
  · cases h
  cases h
  have hseconds : hour.toNat * 3600 + minute.toNat * 60 + second.toNat + 1 ≤ 86400 := by
    omega
  refine Nat.le_trans (Nat.le_of_eq (Nat.succ_mul _ _).symm) ?_
  exact Nat.mul_le_mul_right TICKS_PER_SECOND hseconds

/-- `DateTime(s64)` (`dateTime.h:153-160`). -/
def ofTicks (ticks : Int) : Except String DateTime :=
  if h : ticks < MIN_TICKS ∨ MAX_TICKS < ticks then .error "ticks"
  else .ok ⟨ticks.toNat, by omega⟩

/-- `DateTime(int, int, int)` (`dateTime.h:168-171`). -/
def ofDate (year month day : Int) : Except String DateTime :=
  match h : dateToTicks year month day with
  | .error e => .error e
  | .ok date => .ok ⟨date, by
      have := dateToTicks_lt h
      have : 0 < TICKS_PER_DAY := by decide
      omega⟩

/-- `DateTime(int, int, int, int, int, int, int, int)` (`dateTime.h:184-202`). -/
def ofFields (year month day hour minute second millisecond microsecond : Int) :
    Except String DateTime :=
  match hdate : dateToTicks year month day with
  | .error e => .error e
  | .ok date =>
    match htime : timeToTicks hour minute second with
    | .error e => .error e
    | .ok time =>
      if hmilli : millisecond < 0 ∨ 1000 ≤ millisecond then .error "millisecond"
      else if hmicro : microsecond < 0 ∨ 1000 ≤ microsecond then .error "microsecond"
      else .ok {
        ticks := date + time + millisecond.toNat * TICKS_PER_MILLISECOND +
          microsecond.toNat * TICKS_PER_MICROSECOND
        le_max := by
          have := dateToTicks_lt hdate
          have := timeToTicks_lt htime
          unfold TICKS_PER_SECOND TICKS_PER_MILLISECOND TICKS_PER_MICROSECOND at *
          omega }

section Getters

variable (t : DateTime)

/-- `DateTime::getHour` (`dateTime.h:215-218`). -/
def getHour : Nat := t.ticks / TICKS_PER_HOUR % 24

/-- `DateTime::getMinute` (`dateTime.h:224-227`). -/
def getMinute : Nat := t.ticks / TICKS_PER_MINUTE % 60

/-- `DateTime::getSecond` (`dateTime.h:233-236`). -/
def getSecond : Nat := t.ticks / TICKS_PER_SECOND % 60

/-- `DateTime::getMillisecond` (`dateTime.h:242-245`). -/
def getMillisecond : Nat := t.ticks / TICKS_PER_MILLISECOND % 1000

/-- `DateTime::getMicrosecond` (`dateTime.h:251-254`). -/
def getMicrosecond : Nat := t.ticks / TICKS_PER_MICROSECOND % 1000

/-- `DateTime::getYear` (`dateTime.h:260-265`). -/
def getYear : Nat := (getDates t.ticks).year

/-- `DateTime::getDayOfYear` (`dateTime.h:272-277`). -/
def getDayOfYear : Nat := (getDates t.ticks).yday

/-- `DateTime::getMonth` (`dateTime.h:283-288`). -/
def getMonth : Nat := (getDates t.ticks).month

/-- `DateTime::getDay` (`dateTime.h:294-299`). -/
def getDay : Nat := (getDates t.ticks).day

end Getters

/-- `DateTime::addTicks` (`dateTime.h:370-373`). -/
def addTicks (t : DateTime) (value : Int) : Except String DateTime :=
  ofTicks (t.ticks + value)

/-- `year`, `month` of `addMonths` after the division (`dateTime.h:448-460`), with the month
    counted from 0 before it. -/
def carryMonth (year month : Int) : Int × Int :=
  let year := year + month.tdiv 12
  let month := month.tmod 12
  if 0 ≤ month then (year, month + 1) else (year - 1, month + 13)

/-- `DateTime::addMonths` (`dateTime.h:440-467`). -/
def addMonths (t : DateTime) (months : Int) : Except String DateTime :=
  if months < -120000 ∨ 120000 < months then .error "month"
  else do
    let dates := getDates t.ticks
    let (year, month) := carryMonth dates.year (dates.month - 1 + months)
    let days ← daysInMonth year month
    let day := if days < dates.day then days else dates.day
    let date ← ofDate year month day
    date.addTicks ↑(t.ticks % TICKS_PER_DAY)

end DateTime

end EsOs.Es
