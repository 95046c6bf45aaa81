import ComputerOS.Lib.Calendar

/-!
The calendar arithmetic of the real-time clock and of the two filesystems that take their timestamps
from it. Three formulas count days: the Julian Day Number of the clock, the days of
`cfs_days_from_civil` and those of ext2's `now`. All are the day count of the calendar up to a
constant, and a time offset moves the clock along that count.
-/
namespace ComputerOS.Rtc

open Calendar

def int32 (z : ℤ) : ℤ := z.bmod (2 ^ 32)

def uint32 (z : ℤ) : ℤ := z % 2 ^ 32

def toUInt32 (z : ℤ) : UInt32 := UInt32.ofNat (z % 2 ^ 32).toNat

def toUInt8 (z : ℤ) : UInt8 := UInt8.ofNat (z % 2 ^ 8).toNat

@[ext] structure RtcTime where
  year : UInt32
  month : UInt8
  day : UInt8
  hour : UInt8
  minute : UInt8
  second : UInt8
deriving DecidableEq, Repr

/-- `days_to_jdn`; the intermediate sums are `int`s, and a division truncates. -/
def daysToJdn (y m d : ℤ) : ℤ :=
  let a := (int32 (14 - m)).tdiv 12
  let yy := int32 (y + 4800 - a)
  let mm := int32 (m + 12 * a - 3)
  int32 (d + (int32 (153 * mm + 2)).tdiv 5 + 365 * yy + yy.tdiv 4 - yy.tdiv 100 + yy.tdiv
  400 - 32045)

def jdnToYmd (jdn : ℤ) : Date :=
  let a := int32 (jdn + 32044)
  let b := (int32 (4 * a + 3)).tdiv 146097
  let c := int32 (a - (int32 (146097 * b)).tdiv 4)
  let dd := (int32 (4 * c + 3)).tdiv 1461
  let e := int32 (c - (int32 (1461 * dd)).tdiv 4)
  let mm := (int32 (5 * e + 2)).tdiv 153
  ⟨int32 (100 * b + dd - 4800 + mm.tdiv 10), int32 (mm + 3 - 12 * mm.tdiv 10),
  int32 (e - (int32 (153 * mm + 2)).tdiv 5 + 1)⟩

/-- The days carried and the minute of the day, after the correction of the truncated division. -/
def carryDays (total : ℤ) : ℤ × ℤ :=
  if total.tmod 1440 < 0 then (total.tdiv 1440 - 1, total.tmod 1440 + 1440) else (total.tdiv 1440, total.tmod 1440)

def rtcApplyOffset (t : RtcTime) (offset : ℤ) : RtcTime :=
  if offset = 0 then t
  else
    let total := int32 (t.hour.toNat * 60 + t.minute.toNat + offset)
    let carried := carryDays total
    let date := jdnToYmd (int32 (daysToJdn (int32 t.year.toNat) t.month.toNat t.day.toNat + carried.1))
    { year := toUInt32 date.year
      month := toUInt8 date.month
      day := toUInt8 date.day
      hour := toUInt8 (carried.2.tdiv 60)
      minute := toUInt8 (carried.2.tmod 60)
      second := t.second }

/-- `cfs_days_from_civil`. The year comes from an `unsigned int`, so that no 64-bit value overflows;
`m`, `d` and what is computed from them are `unsigned`. -/
def cfsDaysFromCivil (y m d : ℤ) : ℤ :=
  let y := if m ≤ 2 then y - 1 else y
  let era := (if 0 ≤ y then y else y - 399).tdiv 400
  let yoe := uint32 (y - era * 400)
  let doy := uint32 (uint32 (153 * uint32 (m + if 2 < m then uint32 (-3) else 9) + 2) / 5 + d - 1)
  let doe := uint32 (yoe * 365 + yoe / 4 - yoe / 100 + doy)
  era * 146097 + doe - 719468

/-- The seconds are not negative from 1970 on; before that they are set to 0. -/
def cfsNowNs (t : RtcTime) : ℤ :=
  let days := cfsDaysFromCivil t.year.toNat t.month.toNat t.day.toNat
  let secs := days * 86400 + t.hour.toNat * 3600 + t.minute.toNat * 60 + t.second.toNat
  (if secs < 0 then 0 else secs) * 1000000000 % 2 ^ 64

/-- The day number that ext2's `now` computes: the year is an `int`, the rest is `unsigned`. -/
def nowDays (t : RtcTime) : ℤ :=
  let m : ℤ := t.month.toNat
  let d : ℤ := t.day.toNat
  let y := int32 t.year.toNat
  let y := if m ≤ 2 then int32 (y - 1) else y
  let era := y.tdiv 400
  let yoe := uint32 (y - era * 400)
  let doy := uint32 (uint32 (153 * uint32 (m + if 2 < m then uint32 (-3) else 9) + 2) / 5 + d - 1)
  let doe := uint32 (yoe * 365 + yoe / 4 - yoe / 100 + doy)
  era * 146097 + doe - 719468

def now (t : RtcTime) : ℤ :=
  uint32 (nowDays t * 86400 + t.hour.toNat * 3600 + t.minute.toNat * 60 + t.second.toNat)

def RtcTime.date (t : RtcTime) : Date := ⟨t.year.toNat, t.month.toNat, t.day.toNat⟩

/-- The years that the clock is used for. -/
def InYears (y : ℤ) : Prop := 1 ≤ y ∧ y ≤ 2 ^ 20

structure RtcTime.Valid (t : RtcTime) : Prop where
  date : t.date.Valid
  hour : t.hour.toNat < 24
  minute : t.minute.toNat < 60
  second : t.second.toNat < 60

variable {t : RtcTime} {z : ℤ} {d : Date}

theorem int32_of_bounds (h : -2147483648 ≤ z) (h' : z < 2147483648) : int32 z = z :=
  Int.bmod_eq_of_le (by norm_num; exact h) (by norm_num; exact h')

theorem uint32_of_bounds (h : 0 ≤ z) (h' : z < 4294967296) : uint32 z = z := Int.emod_eq_of_lt h (by norm_num; exact h')

theorem toUInt32_toNat (z : ℤ) : ((toUInt32 z).toNat : ℤ) = z % 4294967296 := by
  unfold toUInt32
  rw [UInt32.toNat_ofNat_of_lt' (by unfold UInt32.size; omega)]
  omega

theorem toUInt8_toNat (h : 0 ≤ z) (h' : z < 256) : ((toUInt8 z).toNat : ℤ) = z := by
  unfold toUInt8
  rw [UInt8.toNat_ofNat_of_lt' (by unfold UInt8.size; omega)]
  omega

theorem carryDays_eq (total : ℤ) : carryDays total = (total / 1440, total % 1440) := by
  unfold carryDays
  rcases le_or_gt 0 total with h | h
  · rw [Int.tdiv_eq_ediv_of_nonneg h, Int.tmod_eq_emod_of_nonneg h, if_neg (by omega)]
  · have hdiv : total.tdiv 1440 = -(-total / 1440) := by
      rw [← neg_neg total, Int.neg_tdiv, Int.tdiv_eq_ediv_of_nonneg (by omega), neg_neg]
    have hmod : total.tmod 1440 = -(-total % 1440) := by
      rw [← neg_neg total, Int.neg_tmod, Int.tmod_eq_emod_of_nonneg (by omega), neg_neg]
    rw [hdiv, hmod]
    split_ifs with hneg <;> rw [Prod.mk.injEq] <;> omega

/-- The Julian Day Number is the day count of the calendar, from another day on. -/
theorem daysToJdn_eq (h : d.Valid) (hy : -4799 ≤ d.year) (hy' : d.year ≤ 1100000) :
    daysToJdn d.year d.month d.day = d.days + 1721120 := by
  obtain ⟨y, m, d⟩ := d
  have hday := h.day_le.trans (monthDays_le _ _)
  obtain ⟨hm, hm', hd, -⟩ := h
  dsimp only at hm hm' hd hday hy hy' ⊢
  have ha : (int32 (14 - m)).tdiv 12 = if m ≤ 2 then 1 else 0 := by
    rw [int32_of_bounds (by omega) (by omega), Int.tdiv_eq_ediv_of_nonneg (by omega)]
    split_ifs <;> omega
  have hyy : int32 (y + 4800 - if m ≤ 2 then 1 else 0) = Date.marchYear ⟨y, m, d⟩ + 4800 := by
    rw [int32_of_bounds (by split_ifs <;> omega) (by split_ifs <;> omega)]
    simp only [Date.marchYear]
    split_ifs <;> omega
  have hmm : int32 (m + 12 * (if m ≤ 2 then 1 else 0) - 3) = Date.marchMonth ⟨y, m, d⟩ := by
    rw [int32_of_bounds (by split_ifs <;> omega) (by split_ifs <;> omega)]
    simp only [Date.marchMonth]
    split_ifs <;> omega
  have hY : -4800 ≤ Date.marchYear ⟨y, m, d⟩ ∧ Date.marchYear ⟨y, m, d⟩ ≤ 1100000 := by
    simp only [Date.marchYear]
    split_ifs <;> omega
  have hM : 0 ≤ Date.marchMonth ⟨y, m, d⟩ ∧ Date.marchMonth ⟨y, m, d⟩ ≤ 11 := by
    simp only [Date.marchMonth]
    split_ifs <;> omega
  simp only [daysToJdn, ha, hyy, hmm, Date.days, yearStart, Date.yearDay]
  generalize Date.marchYear ⟨y, m, d⟩ = Y at hY ⊢
  generalize Date.marchMonth ⟨y, m, d⟩ = mm at hM ⊢
  rw [int32_of_bounds (z := 153 * mm + 2) (by omega) (by omega), Int.tdiv_eq_ediv_of_nonneg (by omega),
    Int.tdiv_eq_ediv_of_nonneg (by omega), Int.tdiv_eq_ediv_of_nonneg (by omega), Int.tdiv_eq_ediv_of_nonneg (by omega),
    int32_of_bounds (by omega) (by omega)]
  omega

/-- The clock counts twelve times 400 years more than the calendar; all that it divides is positive.
-/
theorem jdnToYmd_eq {jdn : ℤ} (h : -32044 ≤ jdn) (h' : jdn ≤ 500000000) : jdnToYmd jdn = ofDays (jdn - 1721120) := by
  obtain ⟨a, ha⟩ : ∃ a, a = jdn - 1721120 := ⟨_, rfl⟩
  obtain ⟨b, hb⟩ : ∃ b, b = (4 * a + 3) / 146097 := ⟨_, rfl⟩
  obtain ⟨c, hc⟩ : ∃ c, c = a - 146097 * b / 4 := ⟨_, rfl⟩
  have hA : int32 (jdn + 32044) = a + 1753164 := by
    rw [int32_of_bounds (by omega) (by omega)]
    omega
  have hB : (int32 (4 * (a + 1753164) + 3)).tdiv 146097 = b + 48 := by
    rw [int32_of_bounds (by omega) (by omega), Int.tdiv_eq_ediv_of_nonneg (by omega)]
    omega
  have hb' : -48 ≤ b ∧ b ≤ 14000 := by omega
  have hC : int32 (a + 1753164 - (int32 (146097 * (b + 48))).tdiv 4) = c := by
    rw [int32_of_bounds (z := 146097 * (b + 48)) (by omega) (by omega),
      Int.tdiv_eq_ediv_of_nonneg (by omega), int32_of_bounds (by omega) (by omega)]
    omega
  have hc' : 0 ≤ c ∧ c ≤ 36524 := by omega
  obtain ⟨dd, hdd⟩ : ∃ dd, dd = (4 * c + 3) / 1461 := ⟨_, rfl⟩
  have hdd' : 0 ≤ dd ∧ dd ≤ 99 := by clear hc hb ha; omega
  have hD : (int32 (4 * c + 3)).tdiv 1461 = dd := by
    rw [int32_of_bounds (by omega) (by omega), Int.tdiv_eq_ediv_of_nonneg (by omega), hdd]
  obtain ⟨e, he⟩ : ∃ e, e = c - 1461 * dd / 4 := ⟨_, rfl⟩
  have he' : 0 ≤ e ∧ e ≤ 365 := by clear hc hb ha; omega
  have hE : int32 (c - (int32 (1461 * dd)).tdiv 4) = e := by
    rw [int32_of_bounds (z := 1461 * dd) (by omega) (by omega),
      Int.tdiv_eq_ediv_of_nonneg (by omega), ← he, int32_of_bounds (by omega) (by omega)]
  obtain ⟨mm, hmm⟩ : ∃ mm, mm = (5 * e + 2) / 153 := ⟨_, rfl⟩
  have hmm' : 0 ≤ mm ∧ mm ≤ 11 := by clear he hc hb ha hdd; omega
  have hM : (int32 (5 * e + 2)).tdiv 153 = mm := by
    rw [int32_of_bounds (by omega) (by omega), Int.tdiv_eq_ediv_of_nonneg (by omega), hmm]
  simp only [jdnToYmd, hA, hB, hC, hD, hE, hM]
  simp only [ofDays, ofYearDay, ← ha, ← hb, ← hc, ← hdd, ← he, ← hmm, Date.mk.injEq]
  clear hA hB hC hD hE hM he hc hb ha hdd hmm h h'
  rw [int32_of_bounds (z := 153 * mm + 2) (by omega) (by omega), Int.tdiv_eq_ediv_of_nonneg (by omega : 0 ≤ mm),
    Int.tdiv_eq_ediv_of_nonneg (by omega : 0 ≤ 153 * mm + 2)]
  refine ⟨?_, ?_, ?_⟩
  · rw [int32_of_bounds (by omega) (by omega)]
    ring
  · exact int32_of_bounds (by omega) (by omega)
  · exact int32_of_bounds (by omega) (by omega)

/-- The count by eras of 400 years, for years that an `int` holds and that are not before the first
era. -/
theorem eraDays_eq (h : d.Valid) (hy : InYears d.year) :
    (d.marchYear.tdiv 400 * 146097 +
      (let yoe := uint32 (d.marchYear - d.marchYear.tdiv 400 * 400)
       let doy := uint32 (uint32 (153 * uint32 (d.month + if 2 < d.month then uint32 (-3) else 9) + 2) / 5 + d.day - 1)
       uint32 (yoe * 365 + yoe / 4 - yoe / 100 + doy)) - 719468) = d.days - 719468 := by
  obtain ⟨hy₁, hy₂⟩ := hy
  have hdays := h.inYear
  have hY : 0 ≤ d.marchYear := by
    simp only [Date.marchYear]
    split_ifs <;> omega
  have hmonth : uint32 (d.month + if 2 < d.month then uint32 (-3) else 9) = d.marchMonth := by
    have hm := h.month_pos
    have hm' := h.month_le
    simp only [uint32, Date.marchMonth]
    split_ifs <;> omega
  have hM : 0 ≤ d.marchMonth ∧ d.marchMonth ≤ 11 := by
    have hm := h.month_pos
    have hm' := h.month_le
    simp only [Date.marchMonth]
    split_ifs <;> omega
  have hdoy : uint32 (uint32 (153 * d.marchMonth + 2) / 5 + d.day - 1) = d.yearDay := by
    rw [uint32_of_bounds (z := 153 * d.marchMonth + 2) (by omega) (by omega)]
    exact uint32_of_bounds hdays.nonneg (hdays.le.trans_lt (by norm_num))
  obtain ⟨yoe, hyoe⟩ : ∃ yoe, yoe = d.marchYear % 400 := ⟨_, rfl⟩
  have hrest : uint32 (d.marchYear - d.marchYear / 400 * 400) = yoe := by
    rw [uint32_of_bounds (by omega) (by omega)]
    omega
  have hdoe : uint32 (yoe * 365 + yoe / 4 - yoe / 100 + d.yearDay) = yoe * 365 + yoe / 4 - yoe / 100 + d.yearDay := by
    have := hdays.nonneg
    have := hdays.le
    exact uint32_of_bounds (by omega) (by omega)
  dsimp only
  rw [Int.tdiv_eq_ediv_of_nonneg hY, hmonth, hdoy, hrest, hdoe, Date.days]
  unfold yearStart
  omega

theorem cfsDaysFromCivil_eq (h : d.Valid) (hy : InYears d.year) : cfsDaysFromCivil d.year d.month
    d.day = d.days - 719468 := by
  have hY : 0 ≤ d.marchYear := by
    have := hy.1
    simp only [Date.marchYear]
    split_ifs <;> omega
  rw [← eraDays_eq h hy]
  by_cases hm : d.month ≤ 2
  · rw [Date.marchYear, if_pos hm] at hY ⊢
    simp only [cfsDaysFromCivil, if_pos hm, if_pos hY]
  · rw [Date.marchYear, if_neg hm] at hY ⊢
    simp only [cfsDaysFromCivil, if_neg hm, if_pos hY]

theorem nowDays_eq (h : t.date.Valid) (hy : InYears t.date.year) : nowDays t = t.date.days - 719468 := by
  obtain ⟨hy₁, hy₂⟩ := id hy
  rw [← eraDays_eq h hy]
  have hyear : (if t.date.month ≤ 2 then int32 (int32 t.date.year - 1) else int32 t.date.year) = t.date.marchYear := by
    rw [int32_of_bounds (z := t.date.year) (by omega) (by omega), int32_of_bounds (by omega) (by omega), Date.marchYear]
  rw [← hyear]
  rfl

/-- The seconds since the first of January 1970. -/
def RtcTime.unixSeconds (t : RtcTime) : ℤ :=
  (t.date.days - 719468) * 86400 + t.hour.toNat * 3600 + t.minute.toNat * 60 + t.second.toNat

/-- Both filesystems stamp the same second, each in its own width. -/
theorem stamps_eq (h : t.date.Valid) (hy : InYears t.date.year) (hepoch : 1970 ≤ t.date.year) :
    cfsNowNs t = t.unixSeconds * 1000000000 % 2 ^ 64 ∧ now t = t.unixSeconds % 2 ^ 32 := by
  have hdays : 719468 ≤ t.date.days := by
    have hnonneg := h.inYear.nonneg
    have hmarch : 1970 ≤ t.date.marchYear ∨ t.date.marchYear = 1969 ∧ t.date.marchMonth ≥ 10 := by
      have := h.month_pos
      unfold Date.marchYear Date.marchMonth
      split_ifs <;> omega
    have hday := h.day_pos
    unfold Date.days yearStart Date.yearDay at *
    omega
  have hcfs := cfsDaysFromCivil_eq h hy
  have hseconds : 0 ≤ t.unixSeconds := by
    unfold RtcTime.unixSeconds
    omega
  unfold RtcTime.unixSeconds at hseconds ⊢
  simp only [RtcTime.date] at hcfs hseconds
  simp only [cfsNowNs, hcfs, now, uint32, nowDays_eq h hy, RtcTime.date]
  rw [if_neg (by omega)]
  exact ⟨rfl, trivial⟩

def leapDay : RtcTime := ⟨2024, 2, 29, 12, 34, 56⟩

theorem stamps_eq_leapDay : cfsNowNs leapDay = 1709210096 * 1000000000 ∧ now leapDay = 1709210096 := by
  have hseconds : leapDay.unixSeconds = 1709210096 := by decide
  have hyear : leapDay.date.year = 2024 := by decide
  have h := stamps_eq (t := leapDay) (by decide) (by rw [InYears, hyear]; norm_num) (by rw [hyear]; norm_num)
  rw [hseconds] at h
  exact h

theorem ofDays_year_bounds {a : ℤ} (h : -2000 ≤ a) (h' : a ≤ 383000000 + 2000) :
    -10 ≤ (ofDays a).year ∧ (ofDays a).year ≤ 1100000 := by
  have hdays := days_ofDays a
  have hyear := (ofDays_valid a).inYear
  have hnonneg := hyear.nonneg
  have hle := hyear.le
  unfold Date.days yearStart at hdays
  have hmarch : (ofDays a).marchYear ≤ (ofDays a).year ∧ (ofDays a).year ≤ (ofDays a).marchYear + 1 := by
    unfold Date.marchYear
    split_ifs <;> omega
  omega

theorem days_bounds (h : d.Valid) (hy : InYears d.year) : -400 ≤ d.days ∧ d.days ≤ 383000000 := by
  obtain ⟨hy₁, hy₂⟩ := hy
  have hnonneg := h.inYear.nonneg
  have hle := h.inYear.le
  have hmarch : d.marchYear ≤ d.year ∧ d.year ≤ d.marchYear + 1 := by
    unfold Date.marchYear
    split_ifs <;> omega
  unfold Date.days yearStart
  omega

def RtcTime.total (t : RtcTime) (offset : ℤ) : ℤ := t.hour.toNat * 60 + t.minute.toNat + offset

/-- `t` with the date and the minute of the day replaced. -/
structure Moved (t : RtcTime) (days minutes : ℤ) (t' : RtcTime) : Prop where
  date : t'.date = ofDays days
  minutes : (t'.hour.toNat * 60 + t'.minute.toNat : ℤ) = minutes
  minute : t'.minute.toNat < 60
  second : t'.second = t.second

/-- The day that the offset leads to. -/
def RtcTime.movedDays (t : RtcTime) (offset : ℤ) : ℤ := t.date.days + t.total offset / 1440

theorem total_bounds {o : ℤ} (ht : t.Valid) (ho : |o| < 2 ^ 20) : -1048576 ≤ t.total o ∧
    t.total o ≤ 1048576 + 1440 := by
  obtain ⟨ho₁, ho₂⟩ := abs_lt.1 ho
  have hhour := ht.hour
  have hminute := ht.minute
  unfold RtcTime.total
  omega

theorem movedDays_bounds {o : ℤ} (ht : t.Valid) (hy : InYears t.date.year) (ho : |o| < 2 ^ 20) :
    -2000 ≤ t.movedDays o ∧ t.movedDays o ≤ 383000000 + 2000 := by
  obtain ⟨h₁, h₂⟩ := days_bounds ht.date hy
  obtain ⟨h₃, h₄⟩ := total_bounds ht ho
  unfold RtcTime.movedDays
  omega

/-- No `int` overflows on the way, and the stores take the date of the day. -/
theorem rtcApplyOffset_eq {o : ℤ} (ht : t.Valid) (hy : InYears t.date.year) (ho : |o| < 2 ^ 20) (hzero : o ≠ 0) :
    rtcApplyOffset t o =
      { year := toUInt32 (ofDays (t.movedDays o)).year
        month := toUInt8 (ofDays (t.movedDays o)).month
        day := toUInt8 (ofDays (t.movedDays o)).day
        hour := toUInt8 ((t.total o % 1440).tdiv 60)
        minute := toUInt8 ((t.total o % 1440).tmod 60)
        second := t.second } := by
  obtain ⟨ht₁, ht₂⟩ := total_bounds ht ho
  obtain ⟨hd₁, hd₂⟩ := movedDays_bounds ht hy ho
  have hsum : int32 (t.total o) = t.total o := int32_of_bounds (by omega) (by omega)
  have hjdn : int32 (daysToJdn (int32 t.year.toNat) t.month.toNat t.day.toNat + t.total o / 1440) =
    t.movedDays o + 1721120 := by
    have hyear : int32 (t.year.toNat : ℤ) = t.date.year := by
      obtain ⟨hy₁, hy₂⟩ := hy
      exact int32_of_bounds (by change -2147483648 ≤ t.date.year; omega) (by change t.date.year < 2147483648; omega)
    have hcount : daysToJdn t.date.year t.month.toNat t.day.toNat = t.date.days + 1721120 :=
      daysToJdn_eq ht.date (by have := hy.1; omega) (by have := hy.2; omega)
    rw [hyear, hcount, RtcTime.movedDays, add_right_comm]
    exact int32_of_bounds (by unfold RtcTime.movedDays at hd₁; omega) (by unfold RtcTime.movedDays at hd₂; omega)
  have hdate : jdnToYmd (t.movedDays o + 1721120) = ofDays (t.movedDays o) := by
    rw [jdnToYmd_eq (by omega) (by omega), add_sub_cancel_right]
  unfold RtcTime.total at hsum
  simp only [rtcApplyOffset, if_neg hzero, hsum, carryDays_eq, RtcTime.total] at hjdn ⊢
  rw [hjdn, hdate]

/-- A result in the years that the clock is used for is not one that the unsigned year wrapped. -/
theorem movedDays_year {o : ℤ} (ht : t.Valid) (hy : InYears t.date.year) (ho : |o| < 2 ^ 20)
    (hyears : InYears (rtcApplyOffset t o).date.year) : 0 ≤ (ofDays (t.movedDays o)).year := by
  obtain ⟨hd₁, hd₂⟩ := movedDays_bounds ht hy ho
  obtain ⟨hyear₁, hyear₂⟩ := ofDays_year_bounds hd₁ hd₂
  by_cases hzero : o = 0
  · have hsame : t.movedDays o = t.date.days := by
      have hhour := ht.hour
      have hminute := ht.minute
      unfold RtcTime.movedDays RtcTime.total
      omega
    rw [hsame, ht.date.ofDays_days]
    exact Int.natCast_nonneg _
  · rw [rtcApplyOffset_eq ht hy ho hzero] at hyears
    obtain ⟨hy₁, hy₂⟩ := hyears
    simp only [RtcTime.date] at hy₁ hy₂
    rw [toUInt32_toNat] at hy₁ hy₂
    omega

/-- The clock moves along the count of the days. -/
theorem rtcApplyOffset_moved {o : ℤ} (ht : t.Valid) (hy : InYears t.date.year) (ho : |o| < 2 ^ 20)
    (hyear : 0 ≤ (ofDays (t.movedDays o)).year) : Moved t (t.movedDays o) (t.total o % 1440) (rtcApplyOffset t o) := by
  by_cases hzero : o = 0
  · have hhour := ht.hour
    have hminute := ht.minute
    have htotal : t.total o / 1440 = 0 ∧ t.total o % 1440 = t.hour.toNat * 60 + t.minute.toNat := by
      unfold RtcTime.total
      omega
    rw [RtcTime.movedDays, htotal.1, htotal.2, add_zero, rtcApplyOffset, if_pos hzero]
    exact ⟨ht.date.ofDays_days.symm, rfl, hminute, rfl⟩
  rw [rtcApplyOffset_eq ht hy ho hzero, Int.tdiv_eq_ediv_of_nonneg (by omega), Int.tmod_eq_emod_of_nonneg (by omega)]
  obtain ⟨hd₁, hd₂⟩ := movedDays_bounds ht hy ho
  obtain ⟨-, hyear'⟩ := ofDays_year_bounds hd₁ hd₂
  have hvalid := ofDays_valid (t.movedDays o)
  have hday := hvalid.day_le.trans (monthDays_le _ _)
  have hhour := toUInt8_toNat (z := t.total o % 1440 / 60) (by omega) (by omega)
  have hminute := toUInt8_toNat (z := t.total o % 1440 % 60) (by omega) (by omega)
  refine ⟨?_, by dsimp only; omega, by dsimp only; omega, rfl⟩
  have hstored : ((toUInt32 (ofDays (t.movedDays o)).year).toNat : ℤ) = (ofDays (t.movedDays o)).year := by
    rw [toUInt32_toNat]
    omega
  have hmonth := toUInt8_toNat (zero_le_one.trans hvalid.month_pos) (hvalid.month_le.trans_lt (by norm_num))
  have hday := toUInt8_toNat (zero_le_one.trans hvalid.day_pos) (hday.trans_lt (by norm_num))
  rw [RtcTime.date, hstored, hmonth, hday]

theorem Moved.valid {t' : RtcTime} {days minutes : ℤ} (h : Moved t days minutes t') (ht : t.Valid)
    (hminutes : minutes < 1440) :
    t'.Valid where
  date := by
    rw [h.date]
    exact ofDays_valid days
  hour := by
    have := h.minutes
    omega
  minute := h.minute
  second := by
    rw [h.second]
    exact ht.second

theorem RtcTime.eq_of_date {t' : RtcTime} (hdate : t'.date = t.date) (hhour : t'.hour.toNat = t.hour.toNat)
    (hminute : t'.minute.toNat = t.minute.toNat) (hsecond : t'.second = t.second) : t' = t := by
  simp only [RtcTime.date, Date.mk.injEq, Nat.cast_inj] at hdate
  obtain ⟨hyear, hmonth, hday⟩ := hdate
  exact RtcTime.ext (UInt32.toNat_inj.1 hyear) (UInt8.toNat_inj.1 hmonth) (UInt8.toNat_inj.1 hday)
    (UInt8.toNat_inj.1 hhour)
    (UInt8.toNat_inj.1 hminute) hsecond

/-- Taking an offset back: the days that were carried are carried back, and the minute of the day is
the old one. -/
theorem rtcApplyOffset_back {o : ℤ} (ht : t.Valid) (hy : InYears t.date.year) (ho : |o| < 2 ^ 20)
    (hyears : InYears (rtcApplyOffset t o).date.year) :
    (rtcApplyOffset t o).Valid ∧ rtcApplyOffset (rtcApplyOffset t o) (-o) = t := by
  have hmoved := rtcApplyOffset_moved ht hy ho (movedDays_year ht hy ho hyears)
  have hvalid := hmoved.valid ht (Int.emod_lt_of_pos _ (by norm_num))
  refine ⟨hvalid, ?_⟩
  have hhour := ht.hour
  have hminute := ht.minute
  obtain ⟨t', ht'⟩ : ∃ t', t' = rtcApplyOffset t o := ⟨_, rfl⟩
  rw [← ht'] at hmoved hvalid hyears ⊢
  have htotal : t'.total (-o) = t.hour.toNat * 60 + t.minute.toNat + 1440 * -(t.total o / 1440) := by
    have := hmoved.minutes
    have := Int.emod_add_mul_ediv (t.total o) 1440
    unfold RtcTime.total at *
    omega
  have hdays : t'.movedDays (-o) = t.date.days := by
    have hcarried : t'.total (-o) / 1440 = -(t.total o / 1440) := by omega
    rw [RtcTime.movedDays, hmoved.date, days_ofDays, hcarried, RtcTime.movedDays, add_neg_cancel_right]
  have hminutes : t'.total (-o) % 1440 = t.hour.toNat * 60 + t.minute.toNat := by omega
  have hsame : ofDays (t'.movedDays (-o)) = t.date := by rw [hdays, ht.date.ofDays_days]
  have hback := rtcApplyOffset_moved hvalid hyears (by rwa [abs_neg]) (by rw [hsame]; exact Int.natCast_nonneg _)
  have hb := hback.minutes
  have hb' := hback.minute
  exact RtcTime.eq_of_date (hback.date.trans hsame) (by omega) (by omega) (hback.second.trans hmoved.second)

/-- The day counts are exact inverses, grow by one from date to date and agree, and an offset can be
taken back. -/
theorem dates_exact :
    (∀ d : Date, d.Valid → InYears d.year → jdnToYmd (daysToJdn d.year d.month d.day) = d) ∧
    (∀ d : Date, d.Valid → InYears d.year →
      d.next.Valid ∧ daysToJdn d.next.year d.next.month d.next.day = daysToJdn d.year d.month d.day + 1) ∧
    (∀ t : RtcTime, t.date.Valid → InYears t.date.year →
      daysToJdn t.year.toNat t.month.toNat t.day.toNat - 2440588 = cfsDaysFromCivil t.year.toNat
      t.month.toNat t.day.toNat ∧
      daysToJdn t.year.toNat t.month.toNat t.day.toNat - 2440588 = nowDays t) ∧
    ∀ (t : RtcTime) (o : ℤ), t.Valid → InYears t.date.year → |o| < 2 ^ 20 → InYears (rtcApplyOffset t o).date.year →
      (rtcApplyOffset t o).Valid ∧ rtcApplyOffset (rtcApplyOffset t o) (-o) = t := by
  have hjdn : ∀ d : Date, d.Valid → InYears d.year → daysToJdn d.year d.month d.day = d.days + 1721120 := by
    rintro d h ⟨hy, hy'⟩
    exact daysToJdn_eq h (by omega) (by omega)
  refine ⟨fun d h hy => ?_, fun d h hy => ⟨h.next, ?_⟩, fun t h hy => ?_, fun t o => rtcApplyOffset_back⟩
  · obtain ⟨hd, hd'⟩ := days_bounds h hy
    rw [hjdn d h hy, jdnToYmd_eq (by omega) (by omega), add_sub_cancel_right, h.ofDays_days]
  · have hyear : d.year ≤ d.next.year ∧ d.next.year ≤ d.year + 1 := by
      unfold Date.next
      split_ifs <;> dsimp only <;> omega
    obtain ⟨hy₁, hy₂⟩ := id hy
    rw [hjdn d h hy, daysToJdn_eq h.next (by omega) (by omega), h.days_next]
    ring
  · have hcount := hjdn t.date h hy
    have hcfs := cfsDaysFromCivil_eq h hy
    have hnow := nowDays_eq h hy
    simp only [RtcTime.date] at hcount hcfs hnow
    rw [hcount, hcfs, hnow]
    constructor <;> ring

/-- The leap day of 2024 at 23:30, an hour and a half forward and back. -/
theorem dates_exact_leapDay :
    jdnToYmd (daysToJdn 2024 2 29) = ⟨2024, 2, 29⟩ ∧ daysToJdn 2024 3 1 = daysToJdn 2024 2 29 + 1 ∧
      daysToJdn 2024 2 29 - 2440588 = cfsDaysFromCivil 2024 2 29 ∧
      rtcApplyOffset (rtcApplyOffset ⟨2024, 2, 29, 23, 30, 7⟩ 90) (-90) = ⟨2024, 2, 29, 23, 30, 7⟩ := by
  have hvalid : RtcTime.Valid ⟨2024, 2, 29, 23, 30, 7⟩ := ⟨by decide +kernel, by decide, by decide, by decide⟩
  have hyear : InYears 2024 := by unfold InYears; omega
  exact ⟨dates_exact.1 ⟨2024, 2, 29⟩ hvalid.date hyear, (dates_exact.2.1 ⟨2024, 2, 29⟩ hvalid.date hyear).2,
    (dates_exact.2.2.1 ⟨2024, 2, 29, 23, 30, 7⟩ hvalid.date hyear).1,
    (dates_exact.2.2.2 ⟨2024, 2, 29, 23, 30, 7⟩ 90 hvalid hyear (by norm_num) (by
      have hmoved : rtcApplyOffset ⟨2024, 2, 29, 23, 30, 7⟩ 90 = ⟨2024, 3, 1, 1, 0, 7⟩ := by decide +kernel
      rw [hmoved]
      exact hyear)).2⟩

end ComputerOS.Rtc
