import Mathlib.Order.Monotone.Basic
import Mathlib.Data.Nat.Basic
import Mathlib.Algebra.Order.Group.Nat

/-!
# The Gregorian calendar

The dates from 1 January 1 on, numbered day by day. A date carries that it is one of the calendar.
-/

namespace EsOs.Lib.Gregorian

/-- Every fourth year is a leap year, except for the centuries that 400 does not divide. -/
def Leap (y : Nat) : Prop :=
  y % 4 = 0 ∧ (y % 100 ≠ 0 ∨ y % 400 = 0)

instance : DecidablePred Leap := fun y =>
  inferInstanceAs (Decidable (y % 4 = 0 ∧ (y % 100 ≠ 0 ∨ y % 400 = 0)))

def yearLength (y : Nat) : Nat :=
  if Leap y then 366 else 365

def monthLength (y : Nat) : Nat → Nat
  | 2 => if Leap y then 29 else 28
  | 4 => 30
  | 6 => 30
  | 9 => 30
  | 11 => 30
  | _ => 31

/-- The days of the first `n` years. -/
def daysOfYears : Nat → Nat
  | 0 => 0
  | n + 1 => daysOfYears n + yearLength (n + 1)

/-- The days of the first `n` months of the year `y`. -/
def daysOfMonths (y : Nat) : Nat → Nat
  | 0 => 0
  | n + 1 => daysOfMonths y n + monthLength y (n + 1)

theorem monthLength_pos (y m : Nat) : 0 < monthLength y m := by
  unfold monthLength
  split <;> first | omega | (split <;> omega)

theorem yearLength_pos (y : Nat) : 0 < yearLength y := by
  unfold yearLength
  split <;> omega

theorem daysOfYears_strictMono : StrictMono daysOfYears :=
  strictMono_nat_of_lt_succ fun n => Nat.lt_add_of_pos_right (yearLength_pos (n + 1))

theorem daysOfMonths_strictMono (y : Nat) : StrictMono (daysOfMonths y) :=
  strictMono_nat_of_lt_succ fun n => Nat.lt_add_of_pos_right (monthLength_pos y (n + 1))

theorem daysOfMonths_twelve (y : Nat) : daysOfMonths y 12 = yearLength y := by
  simp only [daysOfMonths, monthLength, yearLength]
  split <;> rfl

/-- The days of the first years in closed form. -/
theorem daysOfYears_eq (n : Nat) : daysOfYears n + n / 100 = n * 365 + n / 4 + n / 400 := by
  induction n with
  | zero => rfl
  | succ n ih =>
    have h4 : (n + 1) / 4 = n / 4 + if 4 ∣ n + 1 then 1 else 0 := Nat.succ_div
    have h100 : (n + 1) / 100 = n / 100 + if 100 ∣ n + 1 then 1 else 0 := Nat.succ_div
    have h400 : (n + 1) / 400 = n / 400 + if 400 ∣ n + 1 then 1 else 0 := Nat.succ_div
    rw [daysOfYears, h4, h100, h400]
    by_cases hleap : Leap (n + 1)
    · rw [yearLength, if_pos hleap]
      obtain ⟨hfour, hcentury⟩ := hleap
      split <;> split <;> split <;> omega
    · rw [yearLength, if_neg hleap]
      unfold Leap at hleap
      split <;> split <;> split <;> omega

/-- The first years by their cycles of 400, 100 and 4 years. -/
theorem daysOfYears_cycle (a : Nat) {b c e : Nat} (hb : b ≤ 3) (hc : c ≤ 24) (he : e ≤ 3) :
    daysOfYears (a * 400 + b * 100 + c * 4 + e) = a * 146097 + b * 36524 + c * 1461 + e * 365 := by
  have heq := daysOfYears_eq (a * 400 + b * 100 + c * 4 + e)
  have h4 : (a * 400 + b * 100 + c * 4 + e) / 4 = a * 100 + b * 25 + c := by omega
  have h100 : (a * 400 + b * 100 + c * 4 + e) / 100 = a * 4 + b := by omega
  have h400 : (a * 400 + b * 100 + c * 4 + e) / 400 = a := by omega
  omega

/-- The leap years are the last ones of the cycles of 4 years, except where such a cycle ends one
    of 100 years that does not end one of 400. -/
theorem yearLength_cycle (a : Nat) {b c e : Nat} (hb : b ≤ 3) (hc : c ≤ 24) (he : e ≤ 3) :
    yearLength (a * 400 + b * 100 + c * 4 + e + 1) =
      if e = 3 ∧ (c ≠ 24 ∨ b = 3) then 366 else 365 := by
  unfold yearLength Leap
  congr 1
  apply propext
  omega

theorem monthLength_le (y m : Nat) : monthLength y m ≤ 31 := by
  unfold monthLength
  split <;> first | omega | (split <;> omega)

/-- The months of two years that are both leap years, or both not, are the same. -/
theorem daysOfMonths_congr {y z : Nat} (h : Leap y ↔ Leap z) (m : Nat) :
    daysOfMonths y m = daysOfMonths z m := by
  have hlength : ∀ m, monthLength y m = monthLength z m := by
    intro m
    unfold monthLength
    split <;> simp only [h]
  induction m with
  | zero => rfl
  | succ m ih => rw [daysOfMonths, daysOfMonths, ih, hlength]

theorem daysOfMonths_le (y m : Nat) : daysOfMonths y m ≤ m * 31 := by
  induction m with
  | zero => exact Nat.le_refl 0
  | succ m ih =>
    have := monthLength_le y (m + 1)
    rw [daysOfMonths, Nat.succ_mul]
    omega

/-- A date of the calendar. -/
@[ext]
structure Date where
  year : Nat
  month : Nat
  day : Nat
  year_pos : 1 ≤ year
  month_pos : 1 ≤ month
  month_le : month ≤ 12
  day_pos : 1 ≤ day
  day_le : day ≤ monthLength year month

namespace Date

variable {d e : Date}

/-- The days between 1 January 1 and the date. -/
def number (d : Date) : Nat :=
  daysOfYears (d.year - 1) + daysOfMonths d.year (d.month - 1) + (d.day - 1)

/-- The day of the year, counted from 0. -/
def yearDay (d : Date) : Nat :=
  daysOfMonths d.year (d.month - 1) + (d.day - 1)

theorem number_eq (d : Date) : d.number = daysOfYears (d.year - 1) + d.yearDay :=
  Nat.add_assoc _ _ _

theorem yearDay_lt_month (d : Date) : d.yearDay < daysOfMonths d.year d.month := by
  obtain ⟨m, hm⟩ := Nat.exists_eq_add_of_le' d.month_pos
  have hday := d.day_pos
  have hle := d.day_le
  rw [yearDay, hm, daysOfMonths, Nat.add_sub_cancel]
  rw [hm] at hle
  omega

theorem yearDay_lt (d : Date) : d.yearDay < yearLength d.year := by
  have hmono := (daysOfMonths_strictMono d.year).monotone d.month_le
  rw [daysOfMonths_twelve] at hmono
  exact Nat.lt_of_lt_of_le d.yearDay_lt_month hmono

theorem number_lt (d : Date) : d.number < daysOfYears d.year := by
  obtain ⟨y, hy⟩ := Nat.exists_eq_add_of_le' d.year_pos
  have hday := d.yearDay_lt
  rw [number_eq, hy, Nat.add_sub_cancel, daysOfYears]
  rw [hy] at hday
  omega

/-- What lies in the same step of a strictly monotone function begins the step at one argument. -/
theorem step_unique {f : Nat → Nat} (hf : StrictMono f) {a b n : Nat} (ha : 1 ≤ a) (hb : 1 ≤ b)
    (hlo : f (a - 1) ≤ n) (hhi : n < f a) (hlo' : f (b - 1) ≤ n) (hhi' : n < f b) : a = b := by
  have hab : a - 1 < b := hf.lt_iff_lt.mp (Nat.lt_of_le_of_lt hlo hhi')
  have hba : b - 1 < a := hf.lt_iff_lt.mp (Nat.lt_of_le_of_lt hlo' hhi)
  omega

/-- A number is the number of one date. -/
theorem number_injective (h : d.number = e.number) : d = e := by
  have hyear : d.year = e.year := by
    refine step_unique (n := d.number) daysOfYears_strictMono d.year_pos e.year_pos ?_
      d.number_lt ?_ ?_
    · exact (d.number_eq.symm ▸ Nat.le_add_right _ _)
    · rw [h, number_eq]
      exact Nat.le_add_right _ _
    · rw [h]
      exact e.number_lt
  have hyearDay : d.yearDay = e.yearDay := by
    rw [number_eq, number_eq, hyear] at h
    exact Nat.add_left_cancel h
  have hmonth : d.month = e.month := by
    refine step_unique (n := d.yearDay) (daysOfMonths_strictMono d.year) d.month_pos e.month_pos ?_
      d.yearDay_lt_month ?_ ?_
    · exact Nat.le_add_right _ _
    · rw [hyearDay, hyear]
      exact Nat.le_add_right _ _
    · rw [hyearDay, hyear]
      exact e.yearDay_lt_month
  have hday : d.day = e.day := by
    have := d.day_pos
    have := e.day_pos
    unfold yearDay at hyearDay
    rw [hyear, hmonth] at hyearDay
    omega
  exact Date.ext hyear hmonth hday

/-- The next day. -/
def next (d : Date) : Date :=
  if hday : d.day < monthLength d.year d.month then
    { d with day := d.day + 1, day_pos := Nat.le_add_left 1 d.day, day_le := hday }
  else if hmonth : d.month < 12 then
    { d with
      month := d.month + 1
      day := 1
      month_pos := Nat.le_add_left 1 d.month
      month_le := hmonth
      day_pos := Nat.le_refl 1
      day_le := monthLength_pos d.year (d.month + 1) }
  else
    { year := d.year + 1
      month := 1
      day := 1
      year_pos := Nat.le_add_left 1 d.year
      month_pos := Nat.le_refl 1
      month_le := by decide
      day_pos := Nat.le_refl 1
      day_le := monthLength_pos (d.year + 1) 1 }

/-- Dates are numbered day by day. -/
theorem number_next (d : Date) : d.next.number = d.number + 1 := by
  have hpos := d.day_pos
  have hle := d.day_le
  unfold next
  split
  · rename_i hday
    simp only [number]
    omega
  · rename_i hday
    obtain ⟨m, hm⟩ := Nat.exists_eq_add_of_le' d.month_pos
    split
    · rename_i hmonth
      simp only [number, Nat.add_sub_cancel, Nat.sub_self, hm, daysOfMonths] at *
      omega
    · rename_i hmonth
      have hlast : d.month = 12 := by
        have := d.month_le
        omega
      obtain ⟨y, hy⟩ := Nat.exists_eq_add_of_le' d.year_pos
      have hyear : daysOfMonths d.year 11 + monthLength d.year 12 = yearLength d.year :=
        daysOfMonths_twelve d.year
      have hstart : daysOfYears d.year = daysOfYears (d.year - 1) + yearLength d.year := by
        rw [hy, daysOfYears, Nat.add_sub_cancel]
      show daysOfYears d.year = daysOfYears (d.year - 1) + daysOfMonths d.year (d.month - 1) +
        (d.day - 1) + 1
      rw [hlast] at hday hle ⊢
      rw [hstart, show 12 - 1 = 11 from rfl]
      omega

end Date

end EsOs.Lib.Gregorian
