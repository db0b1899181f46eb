import Mathlib
import EsOs.Es.Proofs.DateTime
import EsOs.Fat.Proofs.Entry
import EsOs.Fat.Time

/-!
# The times of a FAT file, read back

What the getters make of the bytes that the setters store, for every date and time. `wane` is made
with 99 milliseconds, so that a creation in the last nine tenths of the last second is moved back.
-/

namespace EsOs.Fat

open EsOs.Lib EsOs.Lib.Gregorian EsOs.Es EsOs.Es.DateTime

/-- Three fields of a word, the lowest of `j` bits and the middle one of `k`. -/
theorem pack_eq {a b c j k : Nat} (hb : b < 2 ^ k) (hc : c < 2 ^ j) :
    a <<< (k + j) ||| b <<< j ||| c = (a * 2 ^ k + b) * 2 ^ j + c := by
  have hhigh : a <<< k ||| b = a * 2 ^ k + b := by
    rw [Nat.or_comm, or_shiftLeft hb, Nat.add_comm]
  rw [Nat.shiftLeft_add, ← Nat.shiftLeft_or_distrib, hhigh, Nat.or_comm, or_shiftLeft hc,
    Nat.add_comm]

/-- The ticks that are left when the clock shows only multiples of `unit`. -/
def truncate (unit ticks : Nat) : Nat :=
  ticks - ticks % unit

theorem truncate_le (unit ticks : Nat) : truncate unit ticks ≤ ticks :=
  Nat.sub_le _ _

theorem le_truncate {unit start ticks : Nat} (hstart : unit ∣ start) (hle : start ≤ ticks) :
    start ≤ truncate unit ticks := by
  obtain ⟨k, rfl⟩ := hstart
  rcases Nat.eq_zero_or_pos unit with rfl | hpos
  · rw [Nat.zero_mul]
    exact Nat.zero_le _
  · have hk : k ≤ ticks / unit := (Nat.le_div_iff_mul_le hpos).mpr (Nat.mul_comm unit k ▸ hle)
    have hdiv := Nat.div_add_mod ticks unit
    have hmul := Nat.mul_le_mul_left unit hk
    unfold truncate
    omega

/-- The first day that an entry has a time for. -/
def firstDay : Date :=
  ⟨1980, 1, 1, Nat.le_add_left 1 1979, Nat.le_add_left 1 0, Nat.le_add_left 1 11,
    Nat.le_add_left 1 0, Nat.le_add_left 1 30⟩

/-- The last day that an entry has a time for. -/
def lastDay : Date :=
  ⟨2107, 12, 31, Nat.le_add_left 1 2106, Nat.le_add_left 1 11, Nat.le_add_left 12 0,
    Nat.le_add_left 1 30, Nat.le_add_left 31 0⟩

/-- The ticks limited to the days from the first to the last. -/
def clamp (ticks : Nat) : Nat :=
  max (firstDay.number * TICKS_PER_DAY) (min ticks ((lastDay.number + 1) * TICKS_PER_DAY - 1))

/-- What is read back of `t`: limited to the range of FAT, and truncated to 10 ms, to 2 s or to a
    day. What was read changes no byte when it is stored. -/
structure TimesKept (t : DateTime) : Prop where
  creation : ∀ e : FileEntry, (e.setCreationTime t).getCreationTime =
    truncate (10 * TICKS_PER_MILLISECOND) (clamp t.ticks)
  lastWrite : ∀ e : FileEntry, (e.setLastWriteTime t).getLastWriteTime =
    truncate (2 * TICKS_PER_SECOND) (clamp t.ticks)
  lastAccess : ∀ e : FileEntry, (e.setLastAccessTime t).getLastAccessTime =
    truncate TICKS_PER_DAY (clamp t.ticks)
  creation_again : ∀ e : FileEntry, ((e.setCreationTime t).setCreationTicks
    (e.setCreationTime t).getCreationTime).fcb = (e.setCreationTime t).fcb
  lastWrite_again : ∀ e : FileEntry, ((e.setLastWriteTime t).setLastWriteTicks
    (e.setLastWriteTime t).getLastWriteTime).fcb = (e.setLastWriteTime t).fcb
  lastAccess_again : ∀ e : FileEntry, ((e.setLastAccessTime t).setLastAccessTicks
    (e.setLastAccessTime t).getLastAccessTime).fcb = (e.setLastAccessTime t).fcb

namespace Disk

variable {disk : Disk} {o v i : Nat}

theorem xbyte_of_ne (h : i ≠ o) : disk.xbyte o v i = disk i :=
  if_neg h

theorem word_xbyte (h : i < o → i + 2 ≤ o) (hne : i ≠ o) : (disk.xbyte o v).word i = disk.word i :=
  word_congr fun _ _ _ => xbyte_of_ne (by omega)

theorem word_xword_of_ne (h : i + 2 ≤ o ∨ o + 2 ≤ i) : (disk.xword o v).word i = disk.word i :=
  word_congr fun _ _ _ => xword_of_ne (by omega)

/-- A byte that is written once more. -/
theorem xbyte_self (h : (disk o).toNat = v % 256) : disk.xbyte o v = disk := by
  funext i
  by_cases hi : i = o
  · subst hi
    rw [xbyte, if_pos rfl]
    exact UInt8.toNat_inj.mp (h ▸ UInt8.toNat_ofNat')
  · exact xbyte_of_ne hi

/-- A word that is written once more. -/
theorem xword_self (h : disk.word o = v % 65536) : disk.xword o v = disk := by
  have hlow := UInt8.toNat_lt (disk o)
  have hhigh := UInt8.toNat_lt (disk (o + 1))
  rw [word_eq] at h
  funext i
  by_cases hi : i = o
  · subst hi
    refine UInt8.toNat_inj.mp ?_
    rw [xword_low]
    omega
  by_cases hi' : i = o + 1
  · subst hi'
    refine UInt8.toNat_inj.mp ?_
    rw [xword_high]
    omega
  · exact xword_of_ne (by omega)

end Disk

namespace FatFileSystem

variable {d : Date} {t : DateTime}

theorem epoch_ticks : epoch.ticks = 722814 * TICKS_PER_DAY := by
  decide

theorem wane_ticks : wane.ticks = 769564 * TICKS_PER_DAY + 863990990000 := by
  decide

theorem packDate_eq (hhi : d.year ≤ 2107) (ht : t.Shows d) :
    packDate t = ((d.year - 1980) * 16 + d.month) * 32 + d.day := by
  obtain ⟨hyear, hmonth, hday⟩ := ht
  have hmonths := d.month_le
  have hdays := d.day_le
  have hlength := monthLength_le d.year d.month
  rw [packDate, hyear, hmonth, hday, pack_eq (k := 4) (j := 5) (by omega) (by omega)]
  unfold u16
  omega

theorem packTime_eq (t : DateTime) :
    packTime t = (t.getHour * 64 + t.getMinute) * 32 + t.getSecond / 2 := by
  have hhour : t.getHour < 24 := Nat.mod_lt _ (by decide)
  have hminute : t.getMinute < 60 := Nat.mod_lt _ (by decide)
  have hsecond : t.getSecond < 60 := Nat.mod_lt _ (by decide)
  rw [packTime, pack_eq (k := 6) (j := 5) (by omega) (by omega)]
  unfold u16
  omega

theorem packTenth_eq (t : DateTime) :
    packTenth t = t.getSecond % 2 * 100 + t.getMillisecond / 10 ∧ packTenth t < 200 := by
  have hmilli : t.getMillisecond < 1000 := Nat.mod_lt _ (by decide)
  have hlt : t.getSecond % 2 * 100 + t.getMillisecond / 10 < 200 := by omega
  rw [packTenth, u16, Nat.mod_eq_of_lt (Nat.lt_trans hlt (by decide))]
  exact ⟨rfl, hlt⟩

/-- The date of a word. -/
theorem unpack_date (hlo : 1980 ≤ d.year) (hhi : d.year ≤ 2107) (ht : t.Shows d) :
    1980 + packDate t >>> 9 = d.year ∧ packDate t >>> 5 &&& 0x0f = d.month ∧
      packDate t &&& 0x1f = d.day := by
  have hmonths := d.month_le
  have hdays := d.day_le
  have hlength := monthLength_le d.year d.month
  have hfour : ∀ n, n &&& 0x0f = n % 16 := fun n => and_low n 4
  have hfive : ∀ n, n &&& 0x1f = n % 32 := fun n => and_low n 5
  rw [packDate_eq hhi ht, hfour, hfive, Nat.shiftRight_eq_div_pow, Nat.shiftRight_eq_div_pow]
  omega

/-- The time of a word. -/
theorem unpack_time (t : DateTime) :
    packTime t >>> 11 = t.getHour ∧ packTime t >>> 5 &&& 0x3f = t.getMinute ∧
      packTime t &&& 0x1f = t.getSecond / 2 := by
  have hhour : t.getHour < 24 := Nat.mod_lt _ (by decide)
  have hminute : t.getMinute < 60 := Nat.mod_lt _ (by decide)
  have hsecond : t.getSecond < 60 := Nat.mod_lt _ (by decide)
  have hfive : ∀ n, n &&& 0x1f = n % 32 := fun n => and_low n 5
  have hsix : ∀ n, n &&& 0x3f = n % 64 := fun n => and_low n 6
  rw [packTime_eq, hfive, hsix, Nat.shiftRight_eq_div_pow, Nat.shiftRight_eq_div_pow]
  omega

theorem limit_range (t : DateTime) :
    epoch.ticks ≤ (limit t).ticks ∧ (limit t).ticks ≤ wane.ticks := by
  have hle : epoch.ticks ≤ wane.ticks := by decide
  unfold limit
  split
  · exact ⟨Nat.le_refl _, hle⟩
  split
  · exact ⟨hle, Nat.le_refl _⟩
  · exact ⟨by omega, by omega⟩

theorem limit_of_range (hlo : epoch.ticks ≤ t.ticks) (hhi : t.ticks ≤ wane.ticks) :
    limit t = t := by
  rw [limit, if_neg (by omega), if_neg (by omega)]

/-- What is between the limits shows a date whose year has its place in a word. -/
theorem shows_range (hlo : epoch.ticks ≤ t.ticks) (hhi : t.ticks ≤ wane.ticks) :
    ∃ d : Date, d.number = t.ticks / TICKS_PER_DAY ∧ t.Shows d ∧ 1980 ≤ d.year ∧
      d.year ≤ 2107 := by
  obtain ⟨d, hnumber, -, hshow⟩ := t.shows_spec
  refine ⟨d, hnumber, hshow, ?_⟩
  rw [ticksPerDay_eq] at hnumber
  rw [epoch_ticks, ticksPerDay_eq] at hlo
  rw [wane_ticks, ticksPerDay_eq] at hhi
  have hfirst : daysOfYears 1979 = 722814 := by
    have := daysOfYears_eq 1979
    omega
  have hend : daysOfYears 2107 = 769565 := by
    have := daysOfYears_eq 2107
    omega
  have hfrom : daysOfYears 1979 < daysOfYears d.year := by
    have := d.number_lt
    omega
  have hto : daysOfYears (d.year - 1) < daysOfYears 2107 := by
    have := d.number_eq
    omega
  have hfrom := daysOfYears_strictMono.lt_iff_lt.mp hfrom
  have hto := daysOfYears_strictMono.lt_iff_lt.mp hto
  exact ⟨by omega, by omega⟩

/-- The ticks that the fields of a stored date and time lead back to, with `half` for the seconds
    that the word of the time drops and `ms` for the milliseconds. -/
theorem ofFields_unpacked (hlo : epoch.ticks ≤ t.ticks) (hhi : t.ticks ≤ wane.ticks)
    (half ms : Nat) (hhalf : t.getSecond / 2 * 2 + half < 60) (hms : ms < 1000) :
    ∃ u, ofFields ↑(1980 + packDate t >>> 9) ↑(packDate t >>> 5 &&& 0x0f) ↑(packDate t &&& 0x1f)
        ↑(packTime t >>> 11) ↑(packTime t >>> 5 &&& 0x3f)
        ↑((packTime t &&& 0x1f) * 2 + half) ms 0 = .ok u ∧
      u.ticks = (t.ticks / 10 / 1000 / 1000 / 60 * 60 + (t.getSecond / 2 * 2 + half)) * 10000000 +
        ms * 10000 ∧
      ∃ d : Date, d.year ≤ 2107 ∧ t.Shows d ∧ u.Shows d ∧ u.getHour = t.getHour ∧
        u.getMinute = t.getMinute ∧ u.getSecond = t.getSecond / 2 * 2 + half ∧
        u.getMillisecond = ms := by
  obtain ⟨d, hnumber, hshow, hfrom, hto⟩ := shows_range hlo hhi
  obtain ⟨hyear, hmonth, hday⟩ := unpack_date hfrom hto hshow
  obtain ⟨hhour, hminute, hsecond⟩ := unpack_time t
  obtain ⟨-, -, -, hm, hh, hdays⟩ := t.time_spec
  have hy : d.year ≤ 9999 := by omega
  have hh' : t.getHour < 24 := Nat.mod_lt _ (by decide)
  have hm' : t.getMinute < 60 := Nat.mod_lt _ (by decide)
  obtain ⟨u, hok, hticks⟩ := ofFields_eq hy hh' hm' hhalf hms (show 0 < 1000 by decide)
  obtain ⟨hushow, huhour, huminute, husecond, humilli, -⟩ :=
    fields_spec hy hh' hm' hhalf hms (show 0 < 1000 by decide) hticks
  rw [hyear, hmonth, hday, hhour, hminute, hsecond]
  refine ⟨u, hok, ?_, d, hto, hshow, hushow, huhour, huminute, husecond, humilli⟩
  rw [hticks, hnumber, hdays, hm, hh]
  generalize t.ticks / 10 / 1000 / 1000 / 60 = n
  omega

theorem u16_packDate (t : DateTime) : packDate t % 65536 = packDate t :=
  Nat.mod_mod _ _

theorem u16_packTime (t : DateTime) : packTime t % 65536 = packTime t :=
  Nat.mod_mod _ _

end FatFileSystem

namespace FileEntry

open FatFileSystem

variable (e : FileEntry) (t : DateTime)

/-- The bytes of a stored time of creation. -/
theorem setCreationTime_bytes :
    Disk.word (e.setCreationTime t).fcb DIR_CrtDate = packDate (limit t) ∧
      Disk.word (e.setCreationTime t).fcb DIR_CrtTime = packTime (limit t) ∧
      ((e.setCreationTime t).fcb DIR_CrtTimeTenth).toNat = packTenth (limit t) := by
  obtain ⟨-, htenth⟩ := packTenth_eq (limit t)
  refine ⟨?_, ?_, ?_⟩
  · simp only [setCreationTime]
    rw [Disk.word_xbyte (by decide) (by decide), Disk.word_xword_of_ne (by decide),
      Disk.word_xword, u16_packDate]
  · simp only [setCreationTime]
    rw [Disk.word_xbyte (by decide) (by decide), Disk.word_xword, u16_packTime]
  · simp only [setCreationTime, Disk.xbyte]
    rw [if_pos trivial, UInt8.toNat_ofNat']
    exact Nat.mod_eq_of_lt (Nat.lt_trans htenth (by decide))

theorem setLastWriteTime_bytes :
    Disk.word (e.setLastWriteTime t).fcb DIR_WrtDate = packDate (limit t) ∧
      Disk.word (e.setLastWriteTime t).fcb DIR_WrtTime = packTime (limit t) := by
  refine ⟨?_, ?_⟩
  · simp only [setLastWriteTime]
    rw [Disk.word_xword_of_ne (by decide), Disk.word_xword, u16_packDate]
  · simp only [setLastWriteTime]
    rw [Disk.word_xword, u16_packTime]

theorem setLastAccessTime_bytes :
    Disk.word (e.setLastAccessTime t).fcb DIR_LstAccDate = packDate (limit t) := by
  simp only [setLastAccessTime]
  rw [Disk.word_xword, u16_packDate]

variable {e : FileEntry} {t : DateTime}

theorem setCreationTime_self (hdate : Disk.word e.fcb DIR_CrtDate = packDate (limit t))
    (htime : Disk.word e.fcb DIR_CrtTime = packTime (limit t))
    (htenth : (e.fcb DIR_CrtTimeTenth).toNat = packTenth (limit t)) :
    (e.setCreationTime t).fcb = e.fcb := by
  obtain ⟨-, hlt⟩ := packTenth_eq (limit t)
  simp only [setCreationTime]
  rw [Disk.xword_self (hdate.trans (u16_packDate _).symm),
    Disk.xword_self (htime.trans (u16_packTime _).symm), Disk.xbyte_self]
  rw [htenth, Nat.mod_eq_of_lt (Nat.lt_trans hlt (by decide))]

theorem setLastWriteTime_self (hdate : Disk.word e.fcb DIR_WrtDate = packDate (limit t))
    (htime : Disk.word e.fcb DIR_WrtTime = packTime (limit t)) :
    (e.setLastWriteTime t).fcb = e.fcb := by
  simp only [setLastWriteTime]
  rw [Disk.xword_self (hdate.trans (u16_packDate _).symm),
    Disk.xword_self (htime.trans (u16_packTime _).symm)]

theorem setLastAccessTime_self (hdate : Disk.word e.fcb DIR_LstAccDate = packDate (limit t)) :
    (e.setLastAccessTime t).fcb = e.fcb := by
  simp only [setLastAccessTime]
  rw [Disk.xword_self (hdate.trans (u16_packDate _).symm)]

theorem setTicks_ticks (set : FileEntry → DateTime → FileEntry) (e : FileEntry) (u : DateTime) :
    e.setTicks set u.ticks = set e u := by
  rw [setTicks, ofTicks_ok u.le_max]

/-- What is read of a stored time of creation, and that it is packed the same way. -/
theorem getCreationTime_spec (hlo : epoch.ticks ≤ t.ticks) (hhi : t.ticks ≤ wane.ticks)
    (hdate : Disk.word e.fcb DIR_CrtDate = packDate t)
    (htime : Disk.word e.fcb DIR_CrtTime = packTime t)
    (htenth : (e.fcb DIR_CrtTimeTenth).toNat = packTenth t) :
    ∃ u : DateTime, e.getCreationTime = u.ticks ∧
      u.ticks = truncate (10 * TICKS_PER_MILLISECOND) t.ticks ∧ packDate u = packDate t ∧
      packTime u = packTime t ∧ packTenth u = packTenth t := by
  obtain ⟨-, hmilli, hsecond, -, -, -⟩ := t.time_spec
  obtain ⟨hpack, -⟩ := packTenth_eq t
  have hodd : packTenth t / 100 = t.getSecond % 2 := by omega
  have hcent : packTenth t % 100 = t.getMillisecond / 10 := by omega
  obtain ⟨u, hok, hticks, d, hy, hshow, hushow, hhour, hminute, husecond, humilli⟩ :=
    ofFields_unpacked hlo hhi (packTenth t / 100) (packTenth t % 100 * 10) (by omega) (by omega)
  refine ⟨u, ?_, ?_, ?_, ?_, ?_⟩
  · simp only [getCreationTime, hdate, htime, htenth]
    rw [hok]
    rfl
  · rw [hticks, hodd, hcent, hmilli, hsecond, truncate, ticksPerMillisecond_eq]
    omega
  · rw [packDate_eq hy hushow, packDate_eq hy hshow]
  · rw [packTime_eq, packTime_eq, hhour, hminute, husecond]
    omega
  · obtain ⟨hupack, -⟩ := packTenth_eq u
    rw [hupack, hpack, husecond, humilli, hodd, hcent]
    omega

theorem getLastWriteTime_spec (hlo : epoch.ticks ≤ t.ticks) (hhi : t.ticks ≤ wane.ticks)
    (hdate : Disk.word e.fcb DIR_WrtDate = packDate t)
    (htime : Disk.word e.fcb DIR_WrtTime = packTime t) :
    ∃ u : DateTime, e.getLastWriteTime = u.ticks ∧
      u.ticks = truncate (2 * TICKS_PER_SECOND) t.ticks ∧ packDate u = packDate t ∧
      packTime u = packTime t := by
  obtain ⟨-, -, hsecond, -, -, -⟩ := t.time_spec
  obtain ⟨u, hok, hticks, d, hy, hshow, hushow, hhour, hminute, husecond, -⟩ :=
    ofFields_unpacked hlo hhi 0 0 (by omega) (by decide)
  refine ⟨u, ?_, ?_, ?_, ?_⟩
  · simp only [getLastWriteTime, hdate, htime]
    exact congrArg orEpoch hok
  · rw [hticks, hsecond, truncate, ticksPerSecond_eq]
    omega
  · rw [packDate_eq hy hushow, packDate_eq hy hshow]
  · rw [packTime_eq, packTime_eq, hhour, hminute, husecond]
    omega

theorem getLastAccessTime_spec (hlo : epoch.ticks ≤ t.ticks) (hhi : t.ticks ≤ wane.ticks)
    (hdate : Disk.word e.fcb DIR_LstAccDate = packDate t) :
    ∃ u : DateTime, e.getLastAccessTime = u.ticks ∧
      u.ticks = truncate TICKS_PER_DAY t.ticks ∧ packDate u = packDate t := by
  obtain ⟨d, hnumber, hshow, hfrom, hto⟩ := shows_range hlo hhi
  obtain ⟨hyear, hmonth, hday⟩ := unpack_date hfrom hto hshow
  obtain ⟨u, hok, hticks⟩ := ofDate_eq (d := d) (by omega)
  refine ⟨u, ?_, ?_, ?_⟩
  · simp only [getLastAccessTime, hdate, hyear, hmonth, hday]
    rw [hok]
    rfl
  · have hdiv := Nat.div_add_mod' t.ticks TICKS_PER_DAY
    rw [hticks, hnumber, truncate]
    omega
  · have hushow : u.Shows d :=
      shows_number (by omega) (r := 0) (by decide) (hticks.trans (Nat.add_zero _).symm)
    rw [packDate_eq hto hushow, packDate_eq hto hshow]

/-- What was truncated is within the limits. -/
theorem limit_truncate {unit : Nat} (hunit : unit ∣ epoch.ticks) {u : DateTime}
    (hu : u.ticks = truncate unit (limit t).ticks) : limit u = u := by
  obtain ⟨hlo, hhi⟩ := limit_range t
  have hge := le_truncate hunit hlo
  have hle := truncate_le unit (limit t).ticks
  exact limit_of_range (by omega) (by omega)

theorem creation_kept (e : FileEntry) (t : DateTime) :
    (e.setCreationTime t).getCreationTime =
        truncate (10 * TICKS_PER_MILLISECOND) (limit t).ticks ∧
      ((e.setCreationTime t).setCreationTicks (e.setCreationTime t).getCreationTime).fcb =
        (e.setCreationTime t).fcb := by
  obtain ⟨hlo, hhi⟩ := limit_range t
  obtain ⟨hdate, htime, htenth⟩ := e.setCreationTime_bytes t
  obtain ⟨u, hget, hticks, hudate, hutime, hutenth⟩ :=
    getCreationTime_spec hlo hhi hdate htime htenth
  have hlimit := limit_truncate (by decide) hticks
  refine ⟨by rw [hget, hticks], ?_⟩
  rw [hget, setCreationTicks, setTicks_ticks]
  refine setCreationTime_self ?_ ?_ ?_
  · rw [hlimit, hudate, hdate]
  · rw [hlimit, hutime, htime]
  · rw [hlimit, hutenth, htenth]

theorem lastWrite_kept (e : FileEntry) (t : DateTime) :
    (e.setLastWriteTime t).getLastWriteTime = truncate (2 * TICKS_PER_SECOND) (limit t).ticks ∧
      ((e.setLastWriteTime t).setLastWriteTicks (e.setLastWriteTime t).getLastWriteTime).fcb =
        (e.setLastWriteTime t).fcb := by
  obtain ⟨hlo, hhi⟩ := limit_range t
  obtain ⟨hdate, htime⟩ := e.setLastWriteTime_bytes t
  obtain ⟨u, hget, hticks, hudate, hutime⟩ := getLastWriteTime_spec hlo hhi hdate htime
  have hlimit := limit_truncate (by decide) hticks
  refine ⟨by rw [hget, hticks], ?_⟩
  rw [hget, setLastWriteTicks, setTicks_ticks]
  refine setLastWriteTime_self ?_ ?_
  · rw [hlimit, hudate, hdate]
  · rw [hlimit, hutime, htime]

theorem lastAccess_kept (e : FileEntry) (t : DateTime) :
    (e.setLastAccessTime t).getLastAccessTime = truncate TICKS_PER_DAY (limit t).ticks ∧
      ((e.setLastAccessTime t).setLastAccessTicks (e.setLastAccessTime t).getLastAccessTime).fcb =
        (e.setLastAccessTime t).fcb := by
  obtain ⟨hlo, hhi⟩ := limit_range t
  have hdate := e.setLastAccessTime_bytes t
  obtain ⟨u, hget, hticks, hudate⟩ := getLastAccessTime_spec hlo hhi hdate
  have hlimit := limit_truncate (by decide) hticks
  refine ⟨by rw [hget, hticks], ?_⟩
  rw [hget, setLastAccessTicks, setTicks_ticks]
  refine setLastAccessTime_self ?_
  rw [hlimit, hudate, hdate]

end FileEntry

namespace FatFileSystem

theorem firstDay_number : firstDay.number = 722814 := by
  have hyears := daysOfYears_eq 1979
  have hmonths : daysOfMonths 1980 0 = 0 := rfl
  simp only [Date.number, firstDay, Nat.reduceSub]
  omega

theorem lastDay_number : lastDay.number = 769564 := by
  have hyears := daysOfYears_eq 2106
  have hmonths : daysOfMonths 2107 11 = 334 := by decide
  simp only [Date.number, lastDay, Nat.reduceSub]
  omega

/-- The limits of the setters are the range, but for the last tenths of its last second. -/
theorem limit_ticks (t : DateTime) :
    (limit t).ticks = if wane.ticks < t.ticks then wane.ticks else clamp t.ticks := by
  have hepoch := epoch_ticks
  have hwane := wane_ticks
  have hfirst := firstDay_number
  have hlast := lastDay_number
  rw [ticksPerDay_eq] at hepoch hwane
  rw [clamp, hfirst, hlast, ticksPerDay_eq]
  unfold limit
  split
  · rw [if_neg (by omega)]
    omega
  split
  · rfl
  · omega

/-- What the setters take instead of a later `t` is in the same second. -/
theorem truncate_limit {unit : Nat} (hunit : unit = 2 * TICKS_PER_SECOND ∨ unit = TICKS_PER_DAY)
    (t : DateTime) : truncate unit (limit t).ticks = truncate unit (clamp t.ticks) := by
  have hwane := wane_ticks
  rw [ticksPerDay_eq] at hwane
  rw [limit_ticks]
  split
  · rw [clamp, firstDay_number, lastDay_number]
    rw [ticksPerDay_eq, ticksPerSecond_eq] at *
    unfold truncate
    rcases hunit with rfl | rfl
    · omega
    · omega
  · rfl

end FatFileSystem

open FatFileSystem in
/-- The times are kept as long as the creation is not in the last nine tenths of the last second. -/
theorem timesKept_iff (t : DateTime) :
    TimesKept t ↔ t.ticks < lastDay.number * TICKS_PER_DAY + 86399 * TICKS_PER_SECOND +
      100 * TICKS_PER_MILLISECOND := by
  have hwane := wane_ticks
  rw [ticksPerDay_eq] at hwane
  rw [lastDay_number, ticksPerDay_eq, ticksPerSecond_eq, ticksPerMillisecond_eq]
  constructor
  · intro h
    have hread := h.creation ⟨fun _ => 0, 0⟩
    rw [(FileEntry.creation_kept _ t).1, limit_ticks, ticksPerMillisecond_eq] at hread
    rw [clamp, firstDay_number, lastDay_number, ticksPerDay_eq] at hread
    unfold truncate at hread
    split at hread
    · omega
    · omega
  · intro h
    have hcreation : truncate (10 * TICKS_PER_MILLISECOND) (limit t).ticks =
        truncate (10 * TICKS_PER_MILLISECOND) (clamp t.ticks) := by
      rw [limit_ticks]
      split
      · -- between `wane` and the next ten milliseconds
        rw [clamp, firstDay_number, lastDay_number, ticksPerDay_eq, ticksPerMillisecond_eq]
        unfold truncate
        omega
      · rfl
    exact {
      creation := fun e => (e.creation_kept t).1.trans (congrArg _ hcreation)
      lastWrite := fun e =>
        (e.lastWrite_kept t).1.trans (congrArg _ (truncate_limit (.inl rfl) t))
      lastAccess := fun e =>
        (e.lastAccess_kept t).1.trans (congrArg _ (truncate_limit (.inr rfl) t))
      creation_again := fun e => (e.creation_kept t).2
      lastWrite_again := fun e => (e.lastWrite_kept t).2
      lastAccess_again := fun e => (e.lastAccess_kept t).2 }

/-- 31 December 2107, 23:59:59.999. -/
def lastMillisecond : DateTime :=
  (DateTime.ofFields 2107 12 31 23 59 59 999 0).toOption.getD ⟨0, Nat.zero_le _⟩

/-- A file created at the end of the range of FAT has a time of creation of nine tenths before. -/
theorem timesKept_not :
    FileEntry.getCreationTime (FileEntry.setCreationTime ⟨fun _ => 0, 0⟩ lastMillisecond) =
        lastMillisecond.ticks - 909 * TICKS_PER_MILLISECOND ∧ ¬ TimesKept lastMillisecond := by
  have hread : FileEntry.getCreationTime
      (FileEntry.setCreationTime ⟨fun _ => 0, 0⟩ lastMillisecond) =
        lastMillisecond.ticks - 909 * TICKS_PER_MILLISECOND := by
    decide
  refine ⟨hread, fun h => ?_⟩
  have hkept := h.creation ⟨fun _ => 0, 0⟩
  rw [hread, clamp, FatFileSystem.firstDay_number, FatFileSystem.lastDay_number] at hkept
  revert hkept
  decide

end EsOs.Fat
