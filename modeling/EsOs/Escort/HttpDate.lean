import EsOs.Lib.Calendar
import EsOs.Escort.HttpHeader

/-!
# HTTP dates

`parseTime` and what it is made of (`escort/src/http/HTTPUtil.cpp:143-152`, `226-307`). The bytes
from `start` to `end` are a list and a pointer is its index, which may be past the end. The result
is `none` where a byte outside of them is read. A `long long` and an `int` wrap.
-/

namespace EsOs.Escort

open EsOs.Lib.Gregorian

/-- A `long long`. -/
def longLong (n : Int) : Int :=
  n.bmod 0x10000000000000000

/-- An `int`. -/
def int (n : Int) : Int :=
  n.bmod 0x100000000

/-- `isdigit` of the C locale. -/
def isdigit (c : UInt8) : Bool :=
  0x30 ≤ c && c ≤ 0x39

/-- `std::find` from `start` on, after `fuel` bytes at most. -/
def findLoop (s : Octets) (delim : UInt8) : Nat → Nat → Option Nat
  | 0, _ => none
  | fuel + 1, start =>
    if start = s.length then some start
    else do
      let c ← s[start]?
      if c = delim then some start else findLoop s delim fuel (start + 1)

def find (s : Octets) (start : Nat) (delim : UInt8) : Option Nat :=
  findLoop s delim (s.length + 1) start

/-- The loop of `skipSpace`. -/
def skipLoop (s : Octets) : Nat → Nat → Option Nat
  | 0, _ => none
  | fuel + 1, start =>
    if start < s.length then do
      let c ← s[start]?
      if c ≠ 0x20 ∧ c ≠ 0x09 then some start else skipLoop s fuel (start + 1)
    else some start

/-- `skipSpace` (`HTTPUtil.cpp:143-152`). -/
def skipSpace (s : Octets) (start : Nat) : Option Nat :=
  skipLoop s (s.length + 1) start

/-- The loop of `parseDigits`. -/
def digitsLoop (s : Octets) : Nat → Nat → Int → Option (Nat × Int)
  | 0, _, _ => none
  | fuel + 1, start, value =>
    if start < s.length then do
      let c ← s[start]?
      if isdigit c then digitsLoop s fuel (start + 1) (longLong (10 * value + c.toNat - 0x30))
      else some (start, value)
    else some (start, value)

/-- `parseDigits` for an `int` (`HTTPUtil.cpp:226-237`). -/
def parseDigits (s : Octets) (start : Nat) : Option (Nat × Int) := do
  let start ← skipSpace s start
  let (start, value) ← digitsLoop s (s.length + 1) start 0
  some (start, int value)

/-- `months` (`HTTPUtil.cpp:48-51`). -/
def months : List Octets :=
  ["Jan", "Feb", "Mar", "Apr", "May", "Jun", "Jul", "Aug", "Sep", "Oct", "Nov", "Dec"].map ascii

/-- `parseMonth` (`HTTPUtil.cpp:239-253`). A name that is no month leaves `m` as it is. -/
def parseMonth (s : Octets) (start : Nat) (m : Int) : Option (Nat × Int) := do
  let start ← skipSpace s start
  if (s.length : Int) - start < 3 then some (start, 12)
  else
    let name ← [start, start + 1, start + 2].mapM fun i => s[i]?
    match months.findIdx? fun month => month.map tolower = name.map tolower with
    | some i => some (start + 3, i)
    | none => some (start, m)

/-- The fields of `tm` that `timegm` reads. -/
structure Tm where
  sec : Int
  min : Int
  hour : Int
  mday : Int
  mon : Int
  year : Int
deriving DecidableEq, Repr

/-- RFC 850, behind the comma. -/
def parseRfc850 (s : Octets) (start : Nat) (m : Int) : Option (Nat × Tm) := do
  let (start, mday) ← parseDigits s start
  let (start, mon) ← parseMonth s (start + 1) m
  let (start, year) ← parseDigits s (start + 1)
  let (start, hour) ← parseDigits s start
  let (start, min) ← parseDigits s (start + 1)
  let (start, sec) ← parseDigits s (start + 1)
  some (start, ⟨sec, min, hour, mday, mon, if year < 70 then year + 100 else year⟩)

/-- RFC 1123, behind the comma. -/
def parseRfc1123 (s : Octets) (start : Nat) (m : Int) : Option (Nat × Tm) := do
  let (start, mday) ← parseDigits s start
  let (start, mon) ← parseMonth s start m
  let (start, year) ← parseDigits s start
  let (start, hour) ← parseDigits s start
  let (start, min) ← parseDigits s (start + 1)
  let (start, sec) ← parseDigits s (start + 1)
  some (start, ⟨sec, min, hour, mday, mon, int (year - 1900)⟩)

/-- The format of `asctime`, behind the name of the day. -/
def parseAsctime (s : Octets) (start : Nat) (m : Int) : Option (Nat × Tm) := do
  let (start, mon) ← parseMonth s start m
  let (start, mday) ← parseDigits s start
  let (start, hour) ← parseDigits s start
  let (start, min) ← parseDigits s (start + 1)
  let (start, sec) ← parseDigits s (start + 1)
  let (start, year) ← parseDigits s start
  some (start, ⟨sec, min, hour, mday, mon, int (year - 1900)⟩)

/-- The fields are within their bounds (`HTTPUtil.cpp:297-302`). -/
def Tm.InBounds (tm : Tm) : Prop :=
  ¬ (tm.sec < 0 ∨ 59 < tm.sec ∨ tm.min < 0 ∨ 59 < tm.min ∨ tm.hour < 0 ∨ 23 < tm.hour ∨
    tm.mday < 1 ∨ 31 < tm.mday ∨ tm.mon < 0 ∨ 11 < tm.mon ∨ tm.year < 70 ∨ 120 < tm.year)

instance (tm : Tm) : Decidable tm.InBounds := by
  unfold Tm.InBounds
  infer_instance

/-- The number of 1 January 1970. -/
def epochDay : Nat := 719162

/-- `timegm` for fields within their bounds; a day behind the end of a month is one of the next. -/
def timegm (tm : Tm) : Nat :=
  let year := (tm.year + 1900).toNat
  let days := daysOfYears (year - 1) + daysOfMonths year tm.mon.toNat + (tm.mday.toNat - 1) -
    epochDay
  ((days * 24 + tm.hour.toNat) * 60 + tm.min.toNat) * 60 + tm.sec.toNat

/-- `parseTime` (`HTTPUtil.cpp:255-307`): where it stops, and the time, as an `unsigned`. `m` is
    what `tm_mon` holds before it is set. -/
def parseTime (s : Octets) (m : Int) : Option (Nat × Nat) := do
  let comma ← find s 0 0x2c
  let (start, tm) ← (
    if comma ≠ s.length then do
      let start := comma + 1
      let hyphen ← find s start 0x2d
      let r ← (if hyphen ≠ s.length then parseRfc850 s start m else parseRfc1123 s start m)
      some (r.1, some r.2)
    else do
      let start ← skipSpace s 0
      let start ← find s start 0x20
      if start = s.length then some (start, none)
      else do
        let r ← parseAsctime s start m
        some (r.1, some r.2))
  match tm with
  | none => some (start, 0)
  | some tm => some (start, if tm.InBounds then timegm tm % 0x100000000 else 0)

/-! ## The texts of an instant -/

/-- An instant from 1970 to 2037, in whole seconds. -/
structure Instant where
  date : Date
  hour : Nat
  min : Nat
  sec : Nat
  le_year : 1970 ≤ date.year
  year_le : date.year ≤ 2037
  hour_lt : hour < 24
  min_lt : min < 60
  sec_lt : sec < 60

namespace Instant

/-- The seconds since the epoch. -/
def seconds (i : Instant) : Nat :=
  (((i.date.number - epochDay) * 24 + i.hour) * 60 + i.min) * 60 + i.sec

def digit (n : Nat) : UInt8 :=
  UInt8.ofNat (0x30 + n % 10)

def twoDigits (n : Nat) : Octets :=
  [digit (n / 10), digit n]

def fourDigits (n : Nat) : Octets :=
  [digit (n / 1000), digit (n / 100), digit (n / 10), digit n]

/-- The name of the day; 1 January 1 is a Monday. -/
def weekday (i : Instant) : String :=
  ["Monday", "Tuesday", "Wednesday", "Thursday", "Friday", "Saturday", "Sunday"].getD
    (i.date.number % 7) ""

def shortWeekday (i : Instant) : Octets :=
  (ascii i.weekday).take 3

def monthName (i : Instant) : Octets :=
  months.getD (i.date.month - 1) []

def timeText (i : Instant) : Octets :=
  twoDigits i.hour ++ [0x3a] ++ twoDigits i.min ++ [0x3a] ++ twoDigits i.sec

/-- `Sun, 06 Nov 1994 08:49:37 GMT` -/
def rfc1123 (i : Instant) : Octets :=
  i.shortWeekday ++ ascii ", " ++ twoDigits i.date.day ++ ascii " " ++ i.monthName ++ ascii " " ++
    fourDigits i.date.year ++ ascii " " ++ i.timeText ++ ascii " GMT"

/-- `Sunday, 06-Nov-94 08:49:37 GMT` -/
def rfc850 (i : Instant) : Octets :=
  ascii i.weekday ++ ascii ", " ++ twoDigits i.date.day ++ ascii "-" ++ i.monthName ++ ascii "-" ++
    twoDigits (i.date.year % 100) ++ ascii " " ++ i.timeText ++ ascii " GMT"

/-- `Sun Nov  6 08:49:37 1994` -/
def asctime (i : Instant) : Octets :=
  i.shortWeekday ++ ascii " " ++ i.monthName ++ ascii " " ++
    (if i.date.day < 10 then [0x20, digit i.date.day] else twoDigits i.date.day) ++ ascii " " ++
    i.timeText ++ ascii " " ++ fourDigits i.date.year

/-- The three texts of the instant give its seconds. -/
def ReadBack (i : Instant) (m : Int) : Prop :=
  ∀ text ∈ [i.rfc1123, i.rfc850, i.asctime], (parseTime text m).map Prod.snd = some i.seconds

end Instant

/-- `parseTime` comes to an end, reads nothing outside, and gives 0 or the seconds of an instant. -/
def ParsesTime (s : Octets) (m : Int) : Prop :=
  ∃ stop t, parseTime s m = some (stop, t) ∧ (t = 0 ∨ ∃ i : Instant, i.seconds = t)

end EsOs.Escort
