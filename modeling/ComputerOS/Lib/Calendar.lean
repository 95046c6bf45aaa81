import Mathlib.Tactic

/-!
The proleptic Gregorian calendar over the integers. Days are counted from 1 March of year 0: a year
that starts in March has its leap day at its end, so that the day of the year depends on the month
and the day alone. The count and its inverse are exact, and the count grows by one from each date to
the next.
-/
namespace Calendar

structure Date where
  year : ℤ
  month : ℤ
  day : ℤ
deriving DecidableEq, Repr

def IsLeap (y : ℤ) : Prop := y % 4 = 0 ∧ (y % 100 ≠ 0 ∨ y % 400 = 0)

instance (y : ℤ) : Decidable (IsLeap y) := inferInstanceAs (Decidable (_ ∧ _))

def monthDays (y m : ℤ) : ℤ :=
  if m = 2 then (if IsLeap y then 29 else 28) else if m = 4 ∨ m = 6 ∨ m = 9 ∨ m = 11 then 30 else 31

structure Date.Valid (t : Date) : Prop where
  month_pos : 1 ≤ t.month
  month_le : t.month ≤ 12
  day_pos : 1 ≤ t.day
  day_le : t.day ≤ monthDays t.year t.month

instance (t : Date) : Decidable t.Valid :=
  decidable_of_iff (1 ≤ t.month ∧ t.month ≤ 12 ∧ 1 ≤ t.day ∧ t.day ≤ monthDays t.year t.month)
    ⟨fun ⟨h₁, h₂, h₃, h₄⟩ => ⟨h₁, h₂, h₃, h₄⟩, fun h => ⟨h.1, h.2, h.3, h.4⟩⟩

def Date.next (t : Date) : Date :=
  if t.day < monthDays t.year t.month then { t with day := t.day + 1 }
  else if t.month < 12 then ⟨t.year, t.month + 1, 1⟩
  else ⟨t.year + 1, 1, 1⟩

def Date.marchYear (t : Date) : ℤ := if t.month ≤ 2 then t.year - 1 else t.year

/-- The month of that year, from 0 for March. -/
def Date.marchMonth (t : Date) : ℤ := if t.month ≤ 2 then t.month + 9 else t.month - 3

/-- The day of that year, from 0. -/
def Date.yearDay (t : Date) : ℤ := (153 * t.marchMonth + 2) / 5 + t.day - 1

def yearStart (y : ℤ) : ℤ := 365 * y + y / 4 - y / 100 + y / 400

def Date.days (t : Date) : ℤ := yearStart t.marchYear + t.yearDay

def ofYearDay (y e : ℤ) : Date :=
  let mm := (5 * e + 2) / 153
  ⟨y + mm / 10, mm + 3 - 12 * (mm / 10), e - (153 * mm + 2) / 5 + 1⟩

def ofDays (a : ℤ) : Date :=
  let b := (4 * a + 3) / 146097
  let c := a - 146097 * b / 4
  let dd := (4 * c + 3) / 1461
  ofYearDay (100 * b + dd) (c - 1461 * dd / 4)

/-- `e` is a day of the year that starts in March of `y`: the day 365 is the leap day of the
following February. -/
structure InYear (y e : ℤ) : Prop where
  nonneg : 0 ≤ e
  le : e ≤ 365
  leap : e = 365 → IsLeap (y + 1)

variable {t : Date} {y e a : ℤ}

theorem monthDays_of_ne_two {m : ℤ} (h : m ≠ 2) : monthDays y m = if m = 4 ∨ m = 6 ∨ m = 9 ∨
    m = 11 then 30 else 31 := if_neg h

theorem monthDays_le (y m : ℤ) : monthDays y m ≤ 31 := by
  unfold monthDays
  split_ifs <;> omega

theorem monthDays_pos (y m : ℤ) : 28 ≤ monthDays y m := by
  unfold monthDays
  split_ifs <;> omega

theorem Date.Valid.next (h : t.Valid) : t.next.Valid := by
  have hfirst (y m : ℤ) : (1 : ℤ) ≤ monthDays y m := by linarith [monthDays_pos y m]
  unfold Date.next
  split_ifs with hday hmonth
  · exact ⟨h.month_pos, h.month_le, by have := h.day_pos; dsimp only; omega, by dsimp only; omega⟩
  · exact ⟨by have := h.month_pos; dsimp only; omega, by dsimp only; omega, le_rfl, hfirst _ _⟩
  · exact ⟨le_rfl, by norm_num, le_rfl, hfirst _ _⟩

theorem yearStart_succ (y : ℤ) : yearStart (y + 1) = yearStart y + if IsLeap (y + 1) then 366 else 365 := by
  unfold yearStart IsLeap
  split_ifs <;> omega

theorem Date.Valid.days_next (h : t.Valid) : t.next.days = t.days + 1 := by
  obtain ⟨y, m, d⟩ := t
  obtain ⟨hm, hm', hd, hd'⟩ := h
  dsimp only at hm hm' hd hd'
  unfold Date.next
  dsimp only
  split_ifs with hday hmonth
  · simp only [Date.days, Date.yearDay, Date.marchYear, Date.marchMonth]
    ring
  · have hlast : d = monthDays y m := by omega
    by_cases hfeb : m = 2
    · have hyear := yearStart_succ (y - 1)
      rw [sub_add_cancel] at hyear
      simp only [Date.days, Date.yearDay, Date.marchYear, Date.marchMonth, hlast, hfeb, monthDays]
      norm_num
      rw [hyear]
      split_ifs <;> omega
    · rw [monthDays_of_ne_two hfeb] at hlast
      by_cases hjan : m = 1
      · subst hjan
        norm_num at hlast
        simp only [Date.days, Date.yearDay, Date.marchYear, Date.marchMonth, hlast]
        norm_num [add_assoc]
      · have hlater : 3 ≤ m := by omega
        simp only [Date.days, Date.yearDay, Date.marchYear, Date.marchMonth, hlast]
        interval_cases m <;> norm_num [add_assoc]
  · have hdec : m = 12 := by omega
    have hlast : d = monthDays y m := by omega
    subst hdec
    norm_num [monthDays] at hlast
    simp only [Date.days, Date.yearDay, Date.marchYear, Date.marchMonth, hlast]
    norm_num [add_assoc]

theorem Date.Valid.inYear (h : t.Valid) : InYear t.marchYear t.yearDay := by
  obtain ⟨y, m, d⟩ := t
  obtain ⟨hm, hm', hd, hd'⟩ := h
  dsimp only at hm hm' hd hd'
  simp only [Date.yearDay, Date.marchYear, Date.marchMonth]
  by_cases hfeb : m = 2
  · subst hfeb
    rw [monthDays, if_pos rfl] at hd'
    norm_num
    by_cases hleap : IsLeap y
    · rw [if_pos hleap] at hd'
      exact ⟨by omega, by omega, fun _ => by simpa using hleap⟩
    · rw [if_neg hleap] at hd'
      exact ⟨by omega, by omega, fun _ => by omega⟩
  · rw [monthDays_of_ne_two hfeb] at hd'
    have hday : 0 ≤ (153 * (if m ≤ 2 then m + 9 else m - 3) + 2) / 5 + d - 1 ∧
        (153 * (if m ≤ 2 then m + 9 else m - 3) + 2) / 5 + d - 1 < 365 := by
      interval_cases m <;> simp at hd' hfeb ⊢ <;> omega
    exact ⟨hday.1, hday.2.le, fun h => absurd h hday.2.ne⟩

/-- The months start at `(153 * mm + 2) / 5`; a day of the year before the next start is in month
`mm`. -/
theorem month_of_yearDay {mm d : ℤ} (hd : 1 ≤ d) (h : (153 * mm + 2) / 5 + d - 1 < (153 * (mm + 1) + 2) / 5) :
    (5 * ((153 * mm + 2) / 5 + d - 1) + 2) / 153 = mm := by
  omega

theorem Date.Valid.ofYearDay (h : t.Valid) : ofYearDay t.marchYear t.yearDay = t := by
  obtain ⟨y, m, d⟩ := t
  obtain ⟨hm, hm', hd, hd'⟩ := h
  dsimp only at hm hm' hd hd'
  have hbound : d ≤ if m = 2 then 29 else if m = 4 ∨ m = 6 ∨ m = 9 ∨ m = 11 then 30 else 31 := by
    unfold monthDays at hd'
    split_ifs at hd' ⊢ <;> omega
  have hmonth : (5 * Date.yearDay ⟨y, m, d⟩ + 2) / 153 = Date.marchMonth ⟨y, m, d⟩ := by
    refine month_of_yearDay hd ?_
    simp only [Date.marchMonth]
    interval_cases m <;> norm_num at hbound ⊢ <;> omega
  simp only [Calendar.ofYearDay, hmonth]
  simp only [Date.yearDay, Date.marchYear, Date.marchMonth, Date.mk.injEq]
  split_ifs <;> omega

theorem month_bounds {mm : ℤ} (h : 0 ≤ mm) (h' : mm ≤ 11) : 1 ≤ mm + 3 - 12 * (mm / 10) ∧
    mm + 3 - 12 * (mm / 10) ≤ 12 := by
  omega

theorem InYear.valid (h : InYear y e) : (ofYearDay y e).Valid := by
  obtain ⟨he, he', hleap⟩ := h
  obtain ⟨mm, hmm⟩ : ∃ mm, mm = (5 * e + 2) / 153 := ⟨_, rfl⟩
  have hmm₀ : 0 ≤ mm := by omega
  have hmm₁ : mm ≤ 11 := by omega
  have hstart : (153 * mm + 2) / 5 ≤ e := by omega
  simp only [Calendar.ofYearDay, ← hmm]
  refine ⟨(month_bounds hmm₀ hmm₁).1, (month_bounds hmm₀ hmm₁).2, by dsimp only; omega, ?_⟩
  by_cases hfeb : mm = 11
  · subst hfeb
    norm_num [monthDays]
    split_ifs with h
    · omega
    · have : e ≠ 365 := fun heq => h (hleap heq)
      omega
  · dsimp only
    rw [monthDays_of_ne_two (by omega)]
    have hmm₂ : mm ≤ 10 := by omega
    clear hmm₁ hfeb
    interval_cases mm <;> norm_num <;> omega

theorem InYear.march (h : InYear y e) : (ofYearDay y e).marchYear = y ∧ (ofYearDay y e).yearDay = e := by
  obtain ⟨he, he', -⟩ := h
  simp only [Calendar.ofYearDay, Date.yearDay, Date.marchYear, Date.marchMonth]
  constructor <;> split_ifs <;> omega

theorem yearStart_century {b dd : ℤ} (h : 0 ≤ dd) (h' : dd ≤ 99) :
    yearStart (100 * b + dd) = 36524 * b + b / 4 + (365 * dd + dd / 4) := by
  unfold yearStart
  omega

/-- The last year of a century, and the last century of four, are the ones that can have a day more;
so a day of a year is found again in the century and the year. -/
theorem ofDays_yearStart (h : InYear y e) : ofDays (yearStart y + e) = ofYearDay y e := by
  obtain ⟨he, he', hleap⟩ := h
  obtain ⟨b, hb⟩ : ∃ b, b = y / 100 := ⟨_, rfl⟩
  obtain ⟨dd, hdd⟩ : ∃ dd, dd = y % 100 := ⟨_, rfl⟩
  have hy : y = 100 * b + dd := by omega
  have hdd₀ : 0 ≤ dd := by omega
  have hdd₁ : dd ≤ 99 := by omega
  have hlast : e = 365 → dd % 4 = 3 ∧ (dd = 99 → b % 4 = 3) := by
    intro h
    have := hleap h
    unfold IsLeap at this
    omega
  have hstart : yearStart y = 36524 * b + b / 4 + (365 * dd + dd / 4) := by
    rw [hy, yearStart_century hdd₀ hdd₁]
  obtain ⟨r, hr⟩ : ∃ r, r = 365 * dd + dd / 4 + e := ⟨_, rfl⟩
  have hr₁ : r ≤ 36524 ∧ (r = 36524 → b % 4 = 3) := by omega
  have hcentury : (4 * (yearStart y + e) + 3) / 146097 = b := by omega
  have hrest : yearStart y + e - 146097 * b / 4 = r := by omega
  have hyear : (4 * r + 3) / 1461 = dd := by omega
  have hday : r - 1461 * dd / 4 = e := by omega
  simp only [ofDays, hcentury, hrest, hyear, hday, ← hy]

/-- Every day falls into a century, and every day of a century into a year; only the last of each
can be the longer one. -/
theorem exists_century (a : ℤ) :
    ∃ b c, a = 36524 * b + b / 4 + c ∧ 0 ≤ c ∧ c ≤ 36524 ∧ (c = 36524 → b % 4 = 3) :=
  ⟨(4 * a + 3) / 146097, a - (36524 * ((4 * a + 3) / 146097) + (4 * a + 3) / 146097 / 4),
  by omega, by omega, by omega, by omega⟩

theorem exists_yearOfCentury {c : ℤ} (hc : 0 ≤ c) (hc' : c ≤ 36524) :
    ∃ dd e, c = 365 * dd + dd / 4 + e ∧ 0 ≤ dd ∧ dd ≤ 99 ∧ 0 ≤ e ∧ e ≤ 365 ∧ (e = 365 → dd % 4 = 3) :=
  ⟨(4 * c + 3) / 1461, c - (365 * ((4 * c + 3) / 1461) + (4 * c + 3) / 1461 / 4),
  by omega, by omega, by omega, by omega, by omega,
    by omega⟩

/-- The days of the dates are counted without a gap. -/
theorem exists_inYear (a : ℤ) : ∃ y e, InYear y e ∧ a = yearStart y + e := by
  obtain ⟨b, c, ha, hc, hc', hlong⟩ := exists_century a
  obtain ⟨dd, e, hce, hdd, hdd', he, he', hleap⟩ := exists_yearOfCentury hc hc'
  refine ⟨100 * b + dd, e, ⟨he, he', fun h => ?_⟩, ?_⟩
  · have hlast : dd = 99 → b % 4 = 3 := fun h' => hlong (by omega)
    have hfour := hleap h
    unfold IsLeap
    omega
  · rw [yearStart_century hdd hdd', ha, hce]
    ring

theorem Date.Valid.ofDays_days (h : t.Valid) : ofDays t.days = t := (ofDays_yearStart h.inYear).trans h.ofYearDay

theorem days_ofDays (a : ℤ) : (ofDays a).days = a := by
  obtain ⟨y, e, h, rfl⟩ := exists_inYear a
  rw [ofDays_yearStart h, Date.days, h.march.1, h.march.2]

theorem ofDays_valid (a : ℤ) : (ofDays a).Valid := by
  obtain ⟨y, e, h, rfl⟩ := exists_inYear a
  rw [ofDays_yearStart h]
  exact h.valid

end Calendar
