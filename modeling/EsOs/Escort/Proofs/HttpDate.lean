import Mathlib
import EsOs.Escort.HttpDate

/-!
# HTTP dates are read back

An instant is read back from its three texts if and only if it is one of a year up to 2020; and
whatever the text, `parseTime` comes to an end, reads nothing outside, and gives 0 or an instant.
-/

namespace EsOs.Escort

open EsOs.Lib.Gregorian

variable {s rest : Octets} {start fuel : Nat} {m : Int}

/-! ## Every text -/

theorem getElem?_of_lt (h : start < s.length) : ∃ c, s[start]? = some c :=
  ⟨s[start], List.getElem?_eq_getElem h⟩

theorem findLoop_some (delim : UInt8) (hle : start ≤ s.length) (hfuel : s.length - start < fuel) :
    ∃ stop ≤ s.length, findLoop s delim fuel start = some stop := by
  induction fuel generalizing start with
  | zero => omega
  | succ fuel ih =>
    unfold findLoop
    split
    · exact ⟨start, hle, rfl⟩
    · rename_i hne
      obtain ⟨c, hc⟩ := getElem?_of_lt (Nat.lt_of_le_of_ne hle hne)
      rw [hc, Option.bind_eq_bind, Option.bind_some]
      split
      · exact ⟨start, hle, rfl⟩
      · exact ih (by omega) (by omega)

theorem find_some (delim : UInt8) (hle : start ≤ s.length) :
    ∃ stop ≤ s.length, find s start delim = some stop :=
  findLoop_some delim hle (by omega)

theorem skipLoop_some (hfuel : s.length - start < fuel) :
    ∃ stop, skipLoop s fuel start = some stop ∧ (start ≤ s.length → stop ≤ s.length) := by
  induction fuel generalizing start with
  | zero => omega
  | succ fuel ih =>
    unfold skipLoop
    split
    · rename_i hlt
      obtain ⟨c, hc⟩ := getElem?_of_lt hlt
      rw [hc, Option.bind_eq_bind, Option.bind_some]
      split
      · exact ⟨start, rfl, id⟩
      · obtain ⟨stop, hstop, hle⟩ := @ih (start + 1) (by omega)
        exact ⟨stop, hstop, fun _ => hle hlt⟩
    · exact ⟨start, rfl, id⟩

theorem skipSpace_some (s : Octets) (start : Nat) :
    ∃ stop, skipSpace s start = some stop ∧ (start ≤ s.length → stop ≤ s.length) :=
  skipLoop_some (by omega)

theorem digitsLoop_some (value : Int) (hfuel : s.length - start < fuel) :
    ∃ r, digitsLoop s fuel start value = some r := by
  induction fuel generalizing start value with
  | zero => omega
  | succ fuel ih =>
    unfold digitsLoop
    split
    · rename_i hlt
      obtain ⟨c, hc⟩ := getElem?_of_lt hlt
      rw [hc, Option.bind_eq_bind, Option.bind_some]
      split
      · exact ih _ (by omega)
      · exact ⟨_, rfl⟩
    · exact ⟨_, rfl⟩

theorem parseDigits_some (s : Octets) (start : Nat) : ∃ r, parseDigits s start = some r := by
  obtain ⟨stop, hstop, -⟩ := skipSpace_some s start
  obtain ⟨r, hr⟩ : ∃ r, digitsLoop s (s.length + 1) stop 0 = some r :=
    digitsLoop_some 0 (by omega)
  unfold parseDigits
  rw [hstop, Option.bind_eq_bind, Option.bind_some, hr]
  exact ⟨_, rfl⟩

theorem parseMonth_some (s : Octets) (start : Nat) (m : Int) :
    ∃ r, parseMonth s start m = some r := by
  obtain ⟨stop, hstop, -⟩ := skipSpace_some s start
  unfold parseMonth
  rw [hstop, Option.bind_eq_bind, Option.bind_some]
  split
  · exact ⟨_, rfl⟩
  · rename_i hlong
    obtain ⟨a, ha⟩ := getElem?_of_lt (show stop < s.length by omega)
    obtain ⟨b, hb⟩ := getElem?_of_lt (show stop + 1 < s.length by omega)
    obtain ⟨c, hc⟩ := getElem?_of_lt (show stop + 2 < s.length by omega)
    simp only [List.mapM_cons, List.mapM_nil, ha, hb, hc, Option.pure_def, Option.bind_eq_bind,
      Option.bind_some]
    split <;> exact ⟨_, rfl⟩

theorem parseRfc850_some (s : Octets) (start : Nat) (m : Int) :
    ∃ r, parseRfc850 s start m = some r := by
  obtain ⟨⟨stop, mday⟩, hmday⟩ := parseDigits_some s start
  obtain ⟨⟨stop', mon⟩, hmon⟩ := parseMonth_some s (stop + 1) m
  obtain ⟨⟨stop, year⟩, hyear⟩ := parseDigits_some s (stop' + 1)
  obtain ⟨⟨stop', hour⟩, hhour⟩ := parseDigits_some s stop
  obtain ⟨⟨stop, min⟩, hmin⟩ := parseDigits_some s (stop' + 1)
  obtain ⟨⟨stop', sec⟩, hsec⟩ := parseDigits_some s (stop + 1)
  simp only [parseRfc850, hmday, hmon, hyear, hhour, hmin, hsec, Option.bind_eq_bind,
    Option.bind_some]
  exact ⟨_, rfl⟩

theorem parseRfc1123_some (s : Octets) (start : Nat) (m : Int) :
    ∃ r, parseRfc1123 s start m = some r := by
  obtain ⟨⟨stop, mday⟩, hmday⟩ := parseDigits_some s start
  obtain ⟨⟨stop', mon⟩, hmon⟩ := parseMonth_some s stop m
  obtain ⟨⟨stop, year⟩, hyear⟩ := parseDigits_some s stop'
  obtain ⟨⟨stop', hour⟩, hhour⟩ := parseDigits_some s stop
  obtain ⟨⟨stop, min⟩, hmin⟩ := parseDigits_some s (stop' + 1)
  obtain ⟨⟨stop', sec⟩, hsec⟩ := parseDigits_some s (stop + 1)
  simp only [parseRfc1123, hmday, hmon, hyear, hhour, hmin, hsec, Option.bind_eq_bind,
    Option.bind_some]
  exact ⟨_, rfl⟩

theorem parseAsctime_some (s : Octets) (start : Nat) (m : Int) :
    ∃ r, parseAsctime s start m = some r := by
  obtain ⟨⟨stop, mon⟩, hmon⟩ := parseMonth_some s start m
  obtain ⟨⟨stop', mday⟩, hmday⟩ := parseDigits_some s stop
  obtain ⟨⟨stop, hour⟩, hhour⟩ := parseDigits_some s stop'
  obtain ⟨⟨stop', min⟩, hmin⟩ := parseDigits_some s (stop + 1)
  obtain ⟨⟨stop, sec⟩, hsec⟩ := parseDigits_some s (stop' + 1)
  obtain ⟨⟨stop', year⟩, hyear⟩ := parseDigits_some s stop
  simp only [parseAsctime, hmday, hmon, hyear, hhour, hmin, hsec, Option.bind_eq_bind,
    Option.bind_some]
  exact ⟨_, rfl⟩

/-! ## `timegm` -/

theorem Instant.seconds_lt (i : Instant) : i.seconds < 0x100000000 := by
  have hnumber := i.date.number_lt
  have hyears : daysOfYears i.date.year ≤ daysOfYears 2037 :=
    daysOfYears_strictMono.monotone i.year_le
  have hlast := daysOfYears_eq 2037
  have hhour := i.hour_lt
  have hmin := i.min_lt
  have hsec := i.sec_lt
  unfold Instant.seconds epochDay
  omega

theorem le_monthLength (y m : Nat) : 28 ≤ monthLength y m := by
  unfold monthLength
  split <;> first | omega | (split <;> omega)

/-- A day behind the end of a month is one of the next month. -/
theorem exists_date (year mon day : Nat) (hyear : 1 ≤ year) (hmon : mon < 12) (hday : day < 31) :
    ∃ d : Date, d.year = year ∧
      d.number = daysOfYears (year - 1) + daysOfMonths year mon + day := by
  by_cases hin : day < monthLength year (mon + 1)
  · exact ⟨⟨year, mon + 1, day + 1, hyear, Nat.le_add_left 1 mon, hmon, Nat.le_add_left 1 day, hin⟩,
      rfl, rfl⟩
  · have hlast : mon ≠ 11 := by
      rintro rfl
      exact hin hday
    have hlong := le_monthLength year (mon + 1)
    have hnext := le_monthLength year (mon + 2)
    refine ⟨⟨year, mon + 2, day - monthLength year (mon + 1) + 1, hyear, by omega, by omega,
      Nat.le_add_left 1 _, by omega⟩, rfl, ?_⟩
    simp only [Date.number, Nat.add_sub_cancel]
    rw [show mon + 2 - 1 = mon + 1 from rfl, daysOfMonths]
    omega

/-- Fields within their bounds are those of an instant. -/
theorem exists_instant {tm : Tm} (h : tm.InBounds) : ∃ i : Instant, i.seconds = timegm tm := by
  unfold Tm.InBounds at h
  obtain ⟨d, hyear, hnumber⟩ := exists_date (tm.year + 1900).toNat tm.mon.toNat
    (tm.mday.toNat - 1) (by omega) (by omega) (by omega)
  refine ⟨⟨d, tm.hour.toNat, tm.min.toNat, tm.sec.toNat, by omega, by omega, by omega, by omega,
    by omega⟩, ?_⟩
  unfold Instant.seconds timegm
  rw [hnumber]

/-- Whatever the text, `parseTime` gives 0 or the seconds of an instant. -/
theorem parsesTime (s : Octets) (m : Int) : ParsesTime s m := by
  have htime (tm : Tm) : (if tm.InBounds then timegm tm % 0x100000000 else 0) = 0 ∨
      ∃ i : Instant, i.seconds = if tm.InBounds then timegm tm % 0x100000000 else 0 := by
    split
    · rename_i hbounds
      obtain ⟨i, hi⟩ := exists_instant hbounds
      exact .inr ⟨i, by rw [← hi, Nat.mod_eq_of_lt i.seconds_lt]⟩
    · exact .inl rfl
  obtain ⟨comma, hle, hcomma⟩ := find_some 0x2c (Nat.zero_le s.length)
  unfold ParsesTime parseTime
  simp only [hcomma, Option.bind_eq_bind, Option.bind_some]
  split
  · rename_i hne
    obtain ⟨hyphen, -, hhyphen⟩ := find_some 0x2d (show comma + 1 ≤ s.length by omega)
    simp only [hhyphen, Option.bind_some]
    split
    · obtain ⟨r, hr⟩ := parseRfc850_some s (comma + 1) m
      simp only [hr, Option.bind_some]
      exact ⟨_, _, rfl, htime _⟩
    · obtain ⟨r, hr⟩ := parseRfc1123_some s (comma + 1) m
      simp only [hr, Option.bind_some]
      exact ⟨_, _, rfl, htime _⟩
  · obtain ⟨text, htext, htextle⟩ := skipSpace_some s 0
    obtain ⟨space, -, hspace⟩ := find_some 0x20 (htextle (Nat.zero_le _))
    simp only [htext, hspace, Option.bind_some]
    split
    · exact ⟨_, _, rfl, .inl rfl⟩
    · obtain ⟨r, hr⟩ := parseAsctime_some s space m
      simp only [hr, Option.bind_some]
      exact ⟨_, _, rfl, htime _⟩

/-! ## The parts of a text -/

open Instant

theorem length_of_drop (front : Octets) (h : s.drop start = front ++ rest) (hne : front ≠ []) :
    start + front.length ≤ s.length := by
  have hlen := congrArg List.length h
  have hpos := List.length_pos_iff.mpr hne
  rw [List.length_drop, List.length_append] at hlen
  omega

theorem of_drop_cons {c : UInt8} (h : s.drop start = c :: rest) :
    start < s.length ∧ s[start]? = some c ∧ s.drop (start + 1) = rest := by
  refine ⟨length_of_drop [c] h (List.cons_ne_nil _ _), ?_, ?_⟩
  · rw [← List.head?_drop, h]
    rfl
  · rw [← List.tail_drop, h]
    rfl

theorem findLoop_of_drop {delim : UInt8} {front : Octets}
    (h : s.drop start = front ++ delim :: rest) (hfront : delim ∉ front)
    (hfuel : front.length < fuel) :
    findLoop s delim fuel start = some (start + front.length) := by
  induction fuel generalizing start front with
  | zero => omega
  | succ fuel ih =>
    unfold findLoop
    cases front with
    | nil =>
      obtain ⟨hlt, hc, -⟩ := of_drop_cons h
      rw [if_neg (Nat.ne_of_lt hlt), hc]
      exact if_pos rfl
    | cons c front =>
      obtain ⟨hlt, hc, hdrop⟩ := of_drop_cons h
      rw [List.mem_cons, not_or] at hfront
      obtain ⟨hne, hfront⟩ := hfront
      rw [if_neg (Nat.ne_of_lt hlt), hc, Option.bind_eq_bind, Option.bind_some,
        if_neg (Ne.symm hne), ih hdrop hfront (Nat.lt_of_succ_lt_succ hfuel), List.length_cons]
      congr 1
      omega

theorem findLoop_none {delim : UInt8} (h : delim ∉ s.drop start) (hle : start ≤ s.length)
    (hfuel : s.length - start < fuel) : findLoop s delim fuel start = some s.length := by
  induction fuel generalizing start with
  | zero => omega
  | succ fuel ih =>
    unfold findLoop
    split
    · rename_i heq
      rw [heq]
    · rename_i hne
      have hlt : start < s.length := Nat.lt_of_le_of_ne hle hne
      have hcons : s.drop start = s[start] :: s.drop (start + 1) := List.drop_eq_getElem_cons hlt
      rw [hcons, List.mem_cons, not_or] at h
      obtain ⟨hc, htail⟩ := h
      rw [List.getElem?_eq_getElem hlt, Option.bind_eq_bind, Option.bind_some, if_neg (Ne.symm hc)]
      exact ih htail hlt (by omega)

theorem find_of_drop {delim : UInt8} (front : Octets)
    (h : s.drop start = front ++ delim :: rest)
    (hfront : delim ∉ front) :
    ∃ stop < s.length, find s start delim = some stop ∧ s.drop (stop + 1) = rest ∧
      s.drop stop = delim :: rest := by
  have hdrop : s.drop (start + front.length) = delim :: rest := by
    rw [← List.drop_drop, h, List.drop_left]
  obtain ⟨hlt, -, hnext⟩ := of_drop_cons hdrop
  exact ⟨_, hlt, findLoop_of_drop h hfront (by omega), hnext, hdrop⟩

theorem find_none {delim : UInt8} (h : delim ∉ s.drop start) (hle : start ≤ s.length) :
    find s start delim = some s.length :=
  findLoop_none h hle (by omega)

/-- No blank or tabulator comes next. -/
def NoSpace (rest : Octets) : Prop :=
  ∀ c, rest.head? = some c → c ≠ 0x20 ∧ c ≠ 0x09

/-- No digit comes next. -/
def NoDigit (rest : Octets) : Prop :=
  ∀ c, rest.head? = some c → isdigit c = false

theorem skipLoop_of_drop {spaces : Nat} (h : s.drop start = List.replicate spaces 0x20 ++ rest)
    (hrest : NoSpace rest) (hfuel : spaces < fuel) :
    skipLoop s fuel start = some (start + spaces) := by
  induction fuel generalizing start spaces with
  | zero => omega
  | succ fuel ih =>
    unfold skipLoop
    cases spaces with
    | zero =>
      split
      · rename_i hlt
        obtain ⟨c, hc⟩ := getElem?_of_lt hlt
        have hhead : (s.drop start).head? = some c := List.head?_drop.trans hc
        rw [h] at hhead
        rw [hc, Option.bind_eq_bind, Option.bind_some, if_pos (hrest c hhead)]
        rfl
      · rfl
    | succ spaces =>
      obtain ⟨hlt, hc, hdrop⟩ := of_drop_cons h
      rw [if_pos hlt, hc, Option.bind_eq_bind, Option.bind_some, if_neg (by decide),
        ih hdrop (Nat.lt_of_succ_lt_succ hfuel)]
      congr 1
      omega

theorem skipSpace_of_drop (spaces : Nat) (h : s.drop start = List.replicate spaces 0x20 ++ rest)
    (hrest : NoSpace rest) :
    ∃ stop, skipSpace s start = some stop ∧ s.drop stop = rest := by
  have hfuel : spaces < s.length + 1 := by
    have hlen := congrArg List.length h
    rw [List.length_drop, List.length_append, List.length_replicate] at hlen
    omega
  refine ⟨_, skipLoop_of_drop h hrest hfuel, ?_⟩
  rw [← List.drop_drop, h, List.drop_left' List.length_replicate]

/-- The value of digits behind a value. -/
def valueOf (ds : List Nat) (v : Nat) : Nat :=
  ds.foldl (fun v d => 10 * v + d % 10) v

theorem le_valueOf (ds : List Nat) (v : Nat) : v ≤ valueOf ds v := by
  induction ds generalizing v with
  | nil => exact Nat.le_refl v
  | cons d ds ih =>
    have hle : v ≤ 10 * v + d % 10 := by omega
    exact hle.trans (ih _)

theorem toNat_digit (n : Nat) : (digit n).toNat = 0x30 + n % 10 := by
  rw [digit, UInt8.toNat_ofNat']
  omega

theorem isdigit_digit (n : Nat) : isdigit (digit n) = true := by
  have hn := toNat_digit n
  unfold isdigit
  rw [Bool.and_eq_true, decide_eq_true_iff, decide_eq_true_iff, UInt8.le_iff_toNat_le,
    UInt8.le_iff_toNat_le, hn, show (0x30 : UInt8).toNat = 0x30 from rfl,
    show (0x39 : UInt8).toNat = 0x39 from rfl]
  omega

theorem digitsLoop_of_drop {ds : List Nat} {v : Nat} (h : s.drop start = ds.map digit ++ rest)
    (hrest : NoDigit rest) (hsmall : valueOf ds v < 0x80000000) (hfuel : ds.length < fuel) :
    digitsLoop s fuel start v = some (start + ds.length, (valueOf ds v : Int)) := by
  induction fuel generalizing start ds v with
  | zero => omega
  | succ fuel ih =>
    unfold digitsLoop
    cases ds with
    | nil =>
      split
      · rename_i hlt
        obtain ⟨c, hc⟩ := getElem?_of_lt hlt
        have hhead : (s.drop start).head? = some c := List.head?_drop.trans hc
        rw [h] at hhead
        rw [hc, Option.bind_eq_bind, Option.bind_some, hrest c hhead]
        rfl
      · rfl
    | cons d ds =>
      obtain ⟨hlt, hc, hdrop⟩ := of_drop_cons h
      have hle := le_valueOf ds (10 * v + d % 10)
      have hvalue : valueOf (d :: ds) v = valueOf ds (10 * v + d % 10) := rfl
      have hwrap : longLong (10 * (v : Int) + (digit d).toNat - 0x30) =
          (10 * v + d % 10 : Nat) := by
        rw [toNat_digit]
        unfold longLong
        rw [Int.bmod_eq_of_le_mul_two (by omega) (by omega)]
        omega
      rw [if_pos hlt, hc, Option.bind_eq_bind, Option.bind_some, if_pos (isdigit_digit d), hwrap,
        ih hdrop hsmall (Nat.lt_of_succ_lt_succ hfuel), List.length_cons, hvalue]
      congr 2
      omega

theorem int_eq {n : Nat} (h : n < 0x80000000) : int n = n := by
  unfold int
  exact Int.bmod_eq_of_le_mul_two (by omega) (by omega)

theorem NoSpace.digits (d : Nat) (rest : Octets) : NoSpace (digit d :: rest) := by
  intro c hc
  obtain rfl := Option.some.inj hc
  have hn := toNat_digit d
  constructor <;> rintro heq <;> rw [heq] at hn <;> simp at hn <;> omega

/-- The digits that come next, behind blanks. -/
theorem parseDigits_of_drop (spaces d : Nat) (ds : List Nat)
    (h : s.drop start = List.replicate spaces 0x20 ++ ((d :: ds).map digit ++ rest))
    (hrest : NoDigit rest) (hsmall : valueOf (d :: ds) 0 < 0x80000000) :
    ∃ stop, parseDigits s start = some (stop, (valueOf (d :: ds) 0 : Int)) ∧
      s.drop stop = rest := by
  obtain ⟨stop, hstop, hdrop⟩ := skipSpace_of_drop spaces h (NoSpace.digits d _)
  have hfuel : (d :: ds).length < s.length + 1 := by
    have hlen := congrArg List.length hdrop
    rw [List.length_drop, List.length_append, List.length_map] at hlen
    omega
  refine ⟨stop + (d :: ds).length, ?_, ?_⟩
  · unfold parseDigits
    rw [hstop, Option.bind_eq_bind, Option.bind_some,
      show (0 : Int) = (0 : Nat) from rfl, digitsLoop_of_drop hdrop hrest hsmall hfuel]
    exact congrArg (fun v => some (_, v)) (int_eq hsmall)
  · rw [← List.drop_drop, hdrop, List.drop_left' (List.length_map ..)]

/-- The letters of a month name. -/
theorem months_letters : ∀ k < 12, ∀ name, name = months.getD k [] →
    name = [name.getD 0 0, name.getD 1 0, name.getD 2 0] ∧
      (name.getD 0 0 ≠ 0x20 ∧ name.getD 0 0 ≠ 0x09) ∧
      (months.findIdx? fun month => month.map tolower = name.map tolower) = some k := by
  rintro k hk name rfl
  revert k
  decide

theorem parseMonth_of_drop (spaces : Nat) {k : Nat} (hk : k < 12)
    (h : s.drop start = List.replicate spaces 0x20 ++ (months.getD k [] ++ rest)) :
    ∃ stop, parseMonth s start m = some (stop, (k : Int)) ∧ s.drop stop = rest := by
  obtain ⟨hletters, hspace, hfind⟩ := months_letters k hk _ rfl
  generalize (months.getD k []).getD 0 0 = a at hletters hspace
  generalize (months.getD k []).getD 1 0 = b at hletters
  generalize (months.getD k []).getD 2 0 = c at hletters
  rw [hletters] at h hfind
  have hblank : NoSpace ([a, b, c] ++ rest) := by
    intro d hd
    obtain rfl := Option.some.inj hd
    exact hspace
  obtain ⟨stop, hstop, hdrop⟩ := skipSpace_of_drop spaces h hblank
  obtain ⟨hlt, ha, hdrop⟩ := of_drop_cons hdrop
  obtain ⟨hlt', hb, hdrop⟩ := of_drop_cons hdrop
  obtain ⟨hlt'', hc, hdrop⟩ := of_drop_cons hdrop
  refine ⟨stop + 3, ?_, hdrop⟩
  unfold parseMonth
  rw [hstop, Option.bind_eq_bind, Option.bind_some, if_neg (by omega)]
  simp only [List.mapM_cons, List.mapM_nil, ha, hb, hc, Option.pure_def, Option.bind_eq_bind,
    Option.bind_some, hfind]

theorem parseDigits_two (spaces : Nat) {n : Nat} (hn : n < 100)
    (h : s.drop start = List.replicate spaces 0x20 ++ (twoDigits n ++ rest))
    (hrest : NoDigit rest) :
    ∃ stop, parseDigits s start = some (stop, (n : Int)) ∧ s.drop stop = rest := by
  have hvalue : valueOf [n / 10, n] 0 = n := by
    simp only [valueOf, List.foldl_cons, List.foldl_nil]
    omega
  have hdigits := parseDigits_of_drop spaces (n / 10) [n] h hrest (by omega)
  rwa [hvalue] at hdigits

theorem parseDigits_four (spaces : Nat) {n : Nat} (hn : n < 10000)
    (h : s.drop start = List.replicate spaces 0x20 ++ (fourDigits n ++ rest))
    (hrest : NoDigit rest) :
    ∃ stop, parseDigits s start = some (stop, (n : Int)) ∧ s.drop stop = rest := by
  have hvalue : valueOf [n / 1000, n / 100, n / 10, n] 0 = n := by
    simp only [valueOf, List.foldl_cons, List.foldl_nil]
    omega
  have hdigits := parseDigits_of_drop spaces (n / 1000) [n / 100, n / 10, n] h hrest
    (by omega)
  rwa [hvalue] at hdigits

theorem NoDigit.cons {c : UInt8} (h : isdigit c = false) (rest : Octets) : NoDigit (c :: rest) := by
  intro d hd
  obtain rfl := Option.some.inj hd
  exact h

namespace Instant

variable {i : Instant}

/-- The fields of the instant. -/
def tm (i : Instant) : Tm :=
  ⟨i.sec, i.min, i.hour, i.date.day, (i.date.month - 1 : Nat), i.date.year - 1900⟩

theorem day_lt (i : Instant) : i.date.day < 100 := by
  have hle := i.date.day_le.trans (monthLength_le _ _)
  omega

theorem month_lt (i : Instant) : i.date.month - 1 < 12 := by
  have hle := i.date.month_le
  omega

theorem parse_timeText (h : s.drop start = List.replicate 1 0x20 ++ (i.timeText ++ rest))
    (hrest : NoDigit rest) :
    ∃ a b c, parseDigits s start = some (a, (i.hour : Int)) ∧
      parseDigits s (a + 1) = some (b, (i.min : Int)) ∧
      parseDigits s (b + 1) = some (c, (i.sec : Int)) ∧ s.drop c = rest := by
  have hhour := i.hour_lt
  have hmin := i.min_lt
  have hsec := i.sec_lt
  simp only [timeText, List.append_assoc] at h
  obtain ⟨a, ha, hdrop⟩ := parseDigits_two 1 (by omega) h (NoDigit.cons (by decide) _)
  obtain ⟨-, -, hdrop⟩ := of_drop_cons hdrop
  obtain ⟨b, hb, hdrop⟩ := parseDigits_two 0 (by omega) hdrop
    (NoDigit.cons (by decide) _)
  obtain ⟨-, -, hdrop⟩ := of_drop_cons hdrop
  obtain ⟨c, hc, hdrop⟩ := parseDigits_two 0 (by omega) hdrop hrest
  exact ⟨a, b, c, ha, hb, hc, hdrop⟩

theorem blank : ascii " " = List.replicate 1 0x20 := by
  decide

theorem year_wrap (i : Instant) : int (i.date.year - 1900) = i.date.year - 1900 := by
  have hle := i.le_year
  have hyear := i.year_le
  unfold int
  exact Int.bmod_eq_of_le_mul_two (by omega) (by omega)

theorem parse_rfc1123 (h : s.drop start = ascii " " ++ (twoDigits i.date.day ++ (ascii " " ++
    (i.monthName ++ (ascii " " ++ (fourDigits i.date.year ++ (ascii " " ++ (i.timeText ++
      ascii " GMT")))))))) :
    ∃ stop, parseRfc1123 s start m = some (stop, i.tm) := by
  have hyear := i.year_le
  rw [blank] at h
  obtain ⟨a, hday, hdrop⟩ := parseDigits_two 1 i.day_lt h (NoDigit.cons (by decide) _)
  obtain ⟨b, hmon, hdrop⟩ := parseMonth_of_drop (m := m) 1 i.month_lt hdrop
  obtain ⟨c, hyear, hdrop⟩ := parseDigits_four 1 (by omega) hdrop (NoDigit.cons (by decide) _)
  obtain ⟨d, e, f, hhour, hmin, hsec, -⟩ := parse_timeText hdrop (NoDigit.cons (by decide) _)
  refine ⟨f, ?_⟩
  simp only [parseRfc1123, hday, hmon, hyear, hhour, hmin, hsec, Option.bind_eq_bind,
    Option.bind_some, year_wrap, tm]

/-- A year of two digits is one of 1970 to 2069. -/
theorem twoDigits_year (i : Instant) :
    (if ((i.date.year % 100 : Nat) : Int) < 70 then ((i.date.year % 100 : Nat) : Int) + 100
      else (i.date.year % 100 : Nat)) = i.date.year - 1900 := by
  have hle := i.le_year
  have hyear := i.year_le
  split <;> omega

theorem parse_rfc850 (h : s.drop start = ascii " " ++ (twoDigits i.date.day ++ (ascii "-" ++
    (i.monthName ++ (ascii "-" ++ (twoDigits (i.date.year % 100) ++ (ascii " " ++ (i.timeText ++
      ascii " GMT")))))))) :
    ∃ stop, parseRfc850 s start m = some (stop, i.tm) := by
  have hdash : ascii "-" = [0x2d] := by decide
  rw [blank, hdash] at h
  obtain ⟨a, hday, hdrop⟩ := parseDigits_two 1 i.day_lt h (NoDigit.cons (by decide) _)
  obtain ⟨-, -, hdrop⟩ := of_drop_cons hdrop
  obtain ⟨b, hmon, hdrop⟩ := parseMonth_of_drop (m := m) 0 i.month_lt hdrop
  obtain ⟨-, -, hdrop⟩ := of_drop_cons hdrop
  obtain ⟨c, hyear, hdrop⟩ := parseDigits_two 0 (Nat.mod_lt _ (by decide)) hdrop
    (NoDigit.cons (by decide) _)
  obtain ⟨d, e, f, hhour, hmin, hsec, -⟩ := parse_timeText hdrop (NoDigit.cons (by decide) _)
  refine ⟨f, ?_⟩
  simp only [parseRfc850, hday, hmon, hyear, hhour, hmin, hsec, Option.bind_eq_bind,
    Option.bind_some, twoDigits_year, tm]

theorem parse_asctime (h : s.drop start = ascii " " ++ (i.monthName ++ (ascii " " ++
    ((if i.date.day < 10 then [0x20, digit i.date.day] else twoDigits i.date.day) ++ (ascii " " ++
      (i.timeText ++ (ascii " " ++ fourDigits i.date.year))))))) :
    ∃ stop, parseAsctime s start m = some (stop, i.tm) := by
  have hyear := i.year_le
  rw [blank] at h
  obtain ⟨a, hmon, hdrop⟩ := parseMonth_of_drop (m := m) 1 i.month_lt h
  obtain ⟨b, hday, hdrop⟩ : ∃ stop, parseDigits s a = some (stop, (i.date.day : Int)) ∧
      s.drop stop = List.replicate 1 0x20 ++ (i.timeText ++ (List.replicate 1 0x20 ++
        fourDigits i.date.year)) := by
    split at hdrop
    · rename_i hlt
      have hvalue : valueOf [i.date.day] 0 = i.date.day := by
        simp only [valueOf, List.foldl_cons, List.foldl_nil]
        omega
      have hdigits := parseDigits_of_drop 2 i.date.day [] hdrop
        (NoDigit.cons (by decide) _) (by omega)
      rwa [hvalue] at hdigits
    · exact parseDigits_two 1 i.day_lt hdrop (NoDigit.cons (by decide) _)
  obtain ⟨c, d, e, hhour, hmin, hsec, hdrop⟩ := parse_timeText hdrop (NoDigit.cons (by decide) _)
  obtain ⟨f, hyear, -⟩ := @parseDigits_four _ [] _ 1 i.date.year (by omega)
    (by rw [List.append_nil]; exact hdrop) nofun
  refine ⟨f, ?_⟩
  simp only [parseAsctime, hday, hmon, hyear, hhour, hmin, hsec, Option.bind_eq_bind,
    Option.bind_some, year_wrap, tm]

/-! ## The texts -/

theorem digit_ne {c : UInt8} (n : Nat) (h : isdigit c = false) : c ≠ digit n := by
  rintro rfl
  exact absurd (isdigit_digit n) (ne_true_of_eq_false h)

theorem not_mem_twoDigits {c : UInt8} (n : Nat) (h : isdigit c = false) : c ∉ twoDigits n := by
  simp [twoDigits, digit_ne _ h]

theorem not_mem_fourDigits {c : UInt8} (n : Nat) (h : isdigit c = false) : c ∉ fourDigits n := by
  simp [fourDigits, digit_ne _ h]

theorem not_mem_timeText {c : UInt8} (h : isdigit c = false) (hcolon : c ≠ 0x3a) :
    c ∉ i.timeText := by
  simp [timeText, not_mem_twoDigits _ h, hcolon]

theorem not_mem_monthName {c : UInt8} (h : c = 0x2c ∨ c = 0x2d) : c ∉ i.monthName := by
  have hall : ∀ k < 12, (0x2c : UInt8) ∉ months.getD k [] ∧ (0x2d : UInt8) ∉ months.getD k [] := by
    decide
  rcases h with rfl | rfl
  · exact (hall _ i.month_lt).1
  · exact (hall _ i.month_lt).2

/-- A name of a day has no comma, hyphen or blank. -/
theorem weekday_letters (i : Instant) : ∀ c ∈ ascii i.weekday, 0x41 ≤ c := by
  have hall : ∀ k < 7, ∀ c ∈ ascii (["Monday", "Tuesday", "Wednesday", "Thursday", "Friday",
      "Saturday", "Sunday"].getD k ""), 0x41 ≤ c := by
    intro k hk
    interval_cases k <;> simp [ascii] <;> decide
  exact hall _ (Nat.mod_lt _ (by decide))

theorem not_mem_weekday {c : UInt8} (h : c < 0x41) : c ∉ ascii i.weekday := fun hc =>
  absurd (i.weekday_letters c hc) (UInt8.not_le.mpr h)

theorem not_mem_shortWeekday {c : UInt8} (h : c < 0x41) : c ∉ i.shortWeekday := fun hc =>
  not_mem_weekday h (List.mem_of_mem_take hc)

theorem shortWeekday_ne_nil (i : Instant) : i.shortWeekday ≠ [] := by
  have hall : ∀ k < 7, (ascii (["Monday", "Tuesday", "Wednesday", "Thursday", "Friday", "Saturday",
      "Sunday"].getD k "")).take 3 ≠ [] := by
    intro k hk
    interval_cases k <;> simp [ascii]
  exact hall _ (Nat.mod_lt _ (by decide))

theorem seconds_pos (i : Instant) (hlate : ¬ i.date.year ≤ 2020) : 0 < i.seconds := by
  have hyears : daysOfYears 2020 ≤ daysOfYears (i.date.year - 1) :=
    daysOfYears_strictMono.monotone (by omega)
  have hlast := daysOfYears_eq 2020
  have hnumber := i.date.number_eq
  unfold seconds epochDay
  omega

/-- The time of the fields, as far as they are accepted. -/
theorem time_tm (i : Instant) :
    (if i.tm.InBounds then timegm i.tm % 0x100000000 else 0) =
      if i.date.year ≤ 2020 then i.seconds else 0 := by
  have hle := i.le_year
  have hmonth := i.month_lt
  have hday := i.date.day_le.trans (monthLength_le _ _)
  have hfrom := i.date.day_pos
  have hhour := i.hour_lt
  have hmin := i.min_lt
  have hsec := i.sec_lt
  have htimegm : timegm i.tm = i.seconds := by
    have hyear : (i.tm.year + 1900).toNat = i.date.year := by
      simp only [tm]
      omega
    unfold timegm
    rw [hyear]
    rfl
  have hbounds : i.tm.InBounds ↔ i.date.year ≤ 2020 := by
    simp only [Tm.InBounds, tm]
    omega
  rw [htimegm, Nat.mod_eq_of_lt i.seconds_lt]
  simp only [hbounds]

theorem parseTime_rfc1123 (i : Instant) (m : Int) :
    (parseTime i.rfc1123 m).map Prod.snd = some (if i.date.year ≤ 2020 then i.seconds else 0) := by
  have hcomma : ascii ", " = [0x2c, 0x20] := by decide
  have htext : i.rfc1123.drop 0 = i.shortWeekday ++ 0x2c :: (ascii " " ++ (twoDigits i.date.day ++
      (ascii " " ++ (i.monthName ++ (ascii " " ++ (fourDigits i.date.year ++ (ascii " " ++
        (i.timeText ++ ascii " GMT")))))))) := by
    simp only [rfc1123, hcomma, blank, List.drop_zero, List.append_assoc]
    rfl
  obtain ⟨stop, hlt, hfind, hdrop, -⟩ := find_of_drop _ htext (not_mem_shortWeekday (by decide))
  have hhyphen : find i.rfc1123 (stop + 1) 0x2d = some i.rfc1123.length := by
    refine find_none ?_ hlt
    rw [hdrop]
    simp [not_mem_twoDigits _ (c := 0x2d) rfl, not_mem_fourDigits _ (c := 0x2d) rfl,
      not_mem_timeText (c := 0x2d) rfl (by decide), not_mem_monthName (.inr rfl), blank,
      show (0x2d : UInt8) ∉ ascii " GMT" by decide]
  obtain ⟨text, hparse⟩ := parse_rfc1123 (m := m) hdrop
  unfold parseTime
  simp only [hfind, hhyphen, hparse, Option.bind_eq_bind, Option.bind_some, ne_eq,
    not_true_eq_false, if_false, if_pos (Nat.ne_of_lt hlt), Option.map_some, time_tm]

theorem parseTime_rfc850 (i : Instant) (m : Int) :
    (parseTime i.rfc850 m).map Prod.snd = some (if i.date.year ≤ 2020 then i.seconds else 0) := by
  have hcomma : ascii ", " = [0x2c, 0x20] := by decide
  have htext : i.rfc850.drop 0 = ascii i.weekday ++ 0x2c :: (ascii " " ++ (twoDigits i.date.day ++
      (ascii "-" ++ (i.monthName ++ (ascii "-" ++ (twoDigits (i.date.year % 100) ++ (ascii " " ++
        (i.timeText ++ ascii " GMT")))))))) := by
    simp only [rfc850, hcomma, blank, List.drop_zero, List.append_assoc]
    rfl
  obtain ⟨stop, hlt, hfind, hdrop, -⟩ := find_of_drop _ htext (not_mem_weekday (by decide))
  obtain ⟨hyphen, hhyphenlt, hhyphen, -, -⟩ := find_of_drop
    (ascii " " ++ twoDigits i.date.day)
    (show _ = _ ++ (0x2d : UInt8) :: _ by rw [hdrop, List.append_assoc]; rfl)
    (by simp [blank, not_mem_twoDigits _ (c := 0x2d) rfl])
  obtain ⟨text, hparse⟩ := parse_rfc850 (m := m) hdrop
  unfold parseTime
  simp only [hfind, hhyphen, hparse, Option.bind_eq_bind, Option.bind_some, ne_eq,
    if_pos (Nat.ne_of_lt hlt), if_pos (Nat.ne_of_lt hhyphenlt), Option.map_some, time_tm]

theorem parseTime_asctime (i : Instant) (m : Int) :
    (parseTime i.asctime m).map Prod.snd = some (if i.date.year ≤ 2020 then i.seconds else 0) := by
  have htext : i.asctime = i.shortWeekday ++ 0x20 :: (i.monthName ++ (ascii " " ++
      ((if i.date.day < 10 then [0x20, digit i.date.day] else twoDigits i.date.day) ++ (ascii " " ++
        (i.timeText ++ (ascii " " ++ fourDigits i.date.year)))))) := by
    simp only [asctime, blank, List.append_assoc]
    rfl
  have hcomma : find i.asctime 0 0x2c = some i.asctime.length := by
    refine find_none ?_ (Nat.zero_le _)
    rw [List.drop_zero, htext]
    split <;> simp [not_mem_shortWeekday (c := 0x2c) (by decide), not_mem_monthName (.inl rfl),
      blank, not_mem_twoDigits _ (c := 0x2c) rfl, not_mem_fourDigits _ (c := 0x2c) rfl,
      not_mem_timeText (c := 0x2c) rfl (by decide), digit_ne _ (c := 0x2c) rfl]
  have hletter : NoSpace i.asctime := by
    intro c hc
    rw [htext, List.head?_append_of_ne_nil _ i.shortWeekday_ne_nil] at hc
    have hle := i.weekday_letters c (List.mem_of_mem_take (List.mem_of_mem_head? hc))
    constructor <;> rintro rfl <;> exact absurd hle (by decide)
  have hstart : i.asctime.drop 0 = List.replicate 0 0x20 ++ i.asctime := by
    rw [List.drop_zero, List.replicate_zero, List.nil_append]
  obtain ⟨text, hskip, hdrop⟩ := skipSpace_of_drop 0 hstart hletter
  obtain ⟨stop, hlt, hfind, -, hdrop⟩ := find_of_drop _ (hdrop.trans htext)
    (not_mem_shortWeekday (by decide))
  obtain ⟨last, hparse⟩ := parse_asctime (m := m) hdrop
  unfold parseTime
  simp only [hcomma, hskip, hfind, hparse, Option.bind_eq_bind, Option.bind_some, ne_eq,
    not_true_eq_false, if_false, if_neg (Nat.ne_of_lt hlt), Option.map_some, time_tm]

/-- The three texts of an instant give its seconds if and only if it is one of a year up to 2020;
    and every text is parsed. -/
theorem readBack_iff (i : Instant) (m : Int) (s : Octets) :
    (i.ReadBack m ↔ i.date.year ≤ 2020) ∧ ParsesTime s m := by
  refine ⟨?_, parsesTime s m⟩
  have hread : i.ReadBack m ↔
      some (if i.date.year ≤ 2020 then i.seconds else 0) = some i.seconds := by
    simp only [ReadBack, List.forall_mem_cons, List.not_mem_nil, false_imp_iff, implies_true,
      and_true, parseTime_rfc1123, parseTime_rfc850, parseTime_asctime, and_self]
  rw [hread]
  split
  · rename_i hle
    exact iff_of_true rfl hle
  · rename_i hlate
    refine iff_of_false (fun h => ?_) hlate
    have hpos := i.seconds_pos hlate
    exact absurd (Option.some.inj h) (Nat.ne_of_lt hpos)

/-- The first second of 2021. -/
def year2021 : Instant where
  date := ⟨2021, 1, 1, Nat.succ_pos 2020, Nat.succ_pos 0, Nat.succ_le_succ (Nat.zero_le 11),
    Nat.succ_pos 0, Nat.succ_le_succ (Nat.zero_le 30)⟩
  hour := 0
  min := 0
  sec := 0
  le_year := Nat.le_of_ble_eq_true rfl
  year_le := Nat.le_of_ble_eq_true rfl
  hour_lt := Nat.succ_pos 23
  min_lt := Nat.succ_pos 59
  sec_lt := Nat.succ_pos 59

theorem not_readBack_2021 : ¬ ∀ (i : Instant) (m : Int), i.ReadBack m := by
  intro h
  have hread := h year2021 0 year2021.rfc1123 (List.mem_cons_self ..)
  rw [parseTime_rfc1123] at hread
  exact absurd (Option.some.inj hread) (Nat.ne_of_lt (year2021.seconds_pos (by decide)))

end Instant

end EsOs.Escort
