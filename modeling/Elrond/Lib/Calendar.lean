import Mathlib.Algebra.BigOperators.Group.Finset.Basic
import Mathlib.Algebra.Order.BigOperators.Group.Finset
import Mathlib.Tactic

/-!
# The Gregorian calendar

Dates of the proleptic Gregorian calendar from the year 0 on, with the day after a date
(`Date.next`), and moments of a clock that ticks once a second (`Moment.tick`). Days are numbered by
`Date.dayNumber`, in closed form; the numbering and the succession of days agree
(`Date.dayNumber_next`), and a date is determined by its number (`Date.dayNumber_injective`). So a
count of days or seconds from a given start is turned into a date by any computation that gets the
number right (`date_eq_of_dayNumber`, `Moment.iterate_tick`).
-/

set_option autoImplicit false

namespace Elrond.Lib

/-! ## Positions -/

/-- In consecutive stretches, a position is in one stretch only, at one place of it. -/
theorem position_unique {start len : Nat → Nat} (hstart : ∀ k, start (k + 1) = start k + len k)
    {k k' i i' : Nat} (hi : i < len k) (hi' : i' < len k') (heq : start k + i = start k' + i') :
    k = k' ∧ i = i' := by
  have hmono : Monotone start := by
    apply monotone_nat_of_le_succ
    intro k
    rw [hstart]
    exact Nat.le_add_right _ _
  -- a later year or month starts behind the end of an earlier one
  have hle : ∀ {k k' i i' : Nat}, i < len k → start k + i = start k' + i' → k' ≤ k := by
    intro k k' i i' hi heq
    by_contra hlt
    have h := hmono (Nat.succ_le_of_lt (not_le.1 hlt))
    rw [Nat.succ_eq_add_one, hstart] at h
    omega
  obtain rfl : k = k' := le_antisymm (hle hi' heq.symm) (hle hi heq)
  exact ⟨rfl, Nat.add_left_cancel heq⟩

/-! ## Dates -/

/-- Every fourth year has 29 February, except the centuries not divisible by 400. -/
def IsLeapYear (year : Nat) : Prop := 4 ∣ year ∧ (100 ∣ year → 400 ∣ year)

instance (year : Nat) : Decidable (IsLeapYear year) := by
  unfold IsLeapYear
  infer_instance

/-- The days of a month, with January as month 1. -/
def monthLength (year month : Nat) : Nat :=
  if month = 2 then
    if IsLeapYear year then 29 else 28
  else if month = 4 ∨ month = 6 ∨ month = 9 ∨ month = 11 then 30
  else 31

theorem monthLength_pos (year month : Nat) : 1 ≤ monthLength year month := by
  unfold monthLength
  split_ifs <;> omega

theorem monthLength_le (year month : Nat) : monthLength year month ≤ 31 := by
  unfold monthLength
  split_ifs <;> omega

/-- The days of a year. -/
def yearLength (year : Nat) : Nat := if IsLeapYear year then 366 else 365

/-- A date; months and days are counted from one. -/
@[ext]
structure Date where
  year : Nat
  month : Nat
  day : Nat
deriving DecidableEq, Repr

namespace Date

/-- The date is on the calendar. -/
structure Valid (d : Date) : Prop where
  month_pos : 1 ≤ d.month
  month_le : d.month ≤ 12
  day_pos : 1 ≤ d.day
  day_le : d.day ≤ monthLength d.year d.month

/-- The day after. -/
def next (d : Date) : Date :=
  if d.day < monthLength d.year d.month then { d with day := d.day + 1 }
  else if d.month < 12 then ⟨d.year, d.month + 1, 1⟩
  else ⟨d.year + 1, 1, 1⟩

theorem Valid.next {d : Date} (h : d.Valid) : d.next.Valid := by
  rw [Date.next]
  split
  · next hday => exact ⟨h.month_pos, h.month_le, Nat.le_add_left _ _, hday⟩
  · split
    · next hmonth =>
      exact ⟨Nat.le_add_left _ _, hmonth, le_rfl, monthLength_pos _ _⟩
    · exact ⟨le_rfl, Nat.le_add_left 1 11, le_rfl, monthLength_pos _ _⟩

/-- The days before a year: 365 for each year from the year 0 on, and one for each leap year. -/
def daysBeforeYear (year : Nat) : Nat :=
  365 * year + (year + 3) / 4 + (year + 399) / 400 - (year + 99) / 100

/-- The days of a year before the month after `months` months. -/
def daysBeforeMonth (year months : Nat) : Nat :=
  ∑ m ∈ Finset.range months, monthLength year (m + 1)

/-- The days between 1 January of the year 0 and the date. -/
def dayNumber (d : Date) : Nat :=
  daysBeforeYear d.year + (daysBeforeMonth d.year (d.month - 1) + (d.day - 1))

/-- One if the first number divides the second. -/
def divides (k n : Nat) : Nat := if k ∣ n then 1 else 0

/-- The multiples of a number below the next number. -/
theorem multiples_succ {k : Nat} (hk : 0 < k) (n : Nat) :
    (n + 1 + (k - 1)) / k = (n + (k - 1)) / k + divides k n := by
  have hmultiple : k ∣ n + (k - 1) + 1 ↔ k ∣ n := by
    rw [Nat.add_assoc, Nat.sub_add_cancel hk, Nat.dvd_add_self_right]
  rw [Nat.add_right_comm, Nat.succ_div, divides]
  simp only [hmultiple]

theorem yearLength_eq (year : Nat) :
    yearLength year + divides 100 year = 365 + divides 4 year + divides 400 year := by
  simp only [yearLength, IsLeapYear, divides]
  by_cases hcentury : 100 ∣ year
  · have hfour : 4 ∣ year := Nat.dvd_trans (by decide) hcentury
    by_cases hleap : 400 ∣ year
    · simp [hfour, hcentury, hleap]
    · simp [hfour, hcentury, hleap]
  · have hleap : ¬ 400 ∣ year := fun h => hcentury (Nat.dvd_trans (by decide) h)
    by_cases hfour : 4 ∣ year
    · simp [hfour, hcentury, hleap]
    · simp [hfour, hcentury, hleap]

theorem daysBeforeYear_succ (year : Nat) :
    daysBeforeYear (year + 1) = daysBeforeYear year + yearLength year := by
  have h4 : (year + 1 + 3) / 4 = (year + 3) / 4 + divides 4 year :=
    multiples_succ (k := 4) (by decide) year
  have h100 : (year + 1 + 99) / 100 = (year + 99) / 100 + divides 100 year :=
    multiples_succ (k := 100) (by decide) year
  have h400 : (year + 1 + 399) / 400 = (year + 399) / 400 + divides 400 year :=
    multiples_succ (k := 400) (by decide) year
  have hfewer : (year + 99) / 100 ≤ (year + 3) / 4 := by omega
  have hlength := yearLength_eq year
  rw [daysBeforeYear, h4, h100, h400, daysBeforeYear]
  generalize (year + 3) / 4 = fours at hfewer ⊢
  generalize (year + 99) / 100 = hundreds at hfewer ⊢
  generalize (year + 399) / 400 = fourHundreds
  omega

theorem daysBeforeMonth_succ (year months : Nat) :
    daysBeforeMonth year (months + 1) =
      daysBeforeMonth year months + monthLength year (months + 1) :=
  Finset.sum_range_succ _ _

/-- Twelve months make a year. -/
theorem daysBeforeMonth_twelve (year : Nat) : daysBeforeMonth year 12 = yearLength year := by
  rw [yearLength]
  by_cases h : IsLeapYear year
  · simp [daysBeforeMonth, Finset.sum_range_succ, monthLength, h]
  · simp [daysBeforeMonth, Finset.sum_range_succ, monthLength, h]

/-- The day within the year. -/
theorem Valid.dayOfYear_lt {d : Date} (h : d.Valid) :
    daysBeforeMonth d.year (d.month - 1) + (d.day - 1) < yearLength d.year := by
  have hday : d.day - 1 < monthLength d.year (d.month - 1 + 1) := by
    have := h.day_pos
    have := h.day_le
    rw [Nat.sub_add_cancel h.month_pos]
    omega
  have hmonths : d.month - 1 + 1 ≤ 12 := by
    rw [Nat.sub_add_cancel h.month_pos]
    exact h.month_le
  calc daysBeforeMonth d.year (d.month - 1) + (d.day - 1)
      < daysBeforeMonth d.year (d.month - 1) + monthLength d.year (d.month - 1 + 1) := by omega
    _ = daysBeforeMonth d.year (d.month - 1 + 1) := (daysBeforeMonth_succ _ _).symm
    _ ≤ daysBeforeMonth d.year 12 :=
        Finset.sum_le_sum_of_subset (Finset.range_subset_range.2 hmonths)
    _ = yearLength d.year := daysBeforeMonth_twelve d.year

/-- The day after has the next number. -/
theorem dayNumber_next {d : Date} (h : d.Valid) : d.next.dayNumber = d.dayNumber + 1 := by
  have hpos := h.month_pos
  have hday := h.day_pos
  have hdays := daysBeforeMonth_succ d.year (d.month - 1)
  rw [Nat.sub_add_cancel hpos] at hdays
  rw [next]
  split
  · simp only [dayNumber]
    omega
  · next hlast =>
    -- the last day of a month is followed by the first of the next one
    have hfull : d.day = monthLength d.year d.month := le_antisymm h.day_le (not_lt.1 hlast)
    split
    · simp only [dayNumber, Nat.add_sub_cancel, hdays]
      omega
    · next hdecember =>
      have hmonth : d.month = 12 := le_antisymm h.month_le (not_lt.1 hdecember)
      -- the last day of December is followed by the first of January
      have hyear := daysBeforeYear_succ d.year
      rw [← daysBeforeMonth_twelve] at hyear
      have hjanuary : daysBeforeMonth (d.year + 1) 0 = 0 := Finset.sum_range_zero _
      rw [hmonth] at hdays hfull
      simp only [dayNumber, hmonth, Nat.sub_self, hjanuary]
      omega

/-- A date is determined by its number. -/
theorem dayNumber_injective {d d' : Date} (h : d.Valid) (h' : d'.Valid)
    (heq : d.dayNumber = d'.dayNumber) : d = d' := by
  obtain ⟨hyear, hrest⟩ :=
    position_unique daysBeforeYear_succ h.dayOfYear_lt h'.dayOfYear_lt heq
  -- the number fixes the year, what is left of it the month, and the rest the day
  have hplace : ∀ {d : Date}, d.Valid → d.day - 1 < monthLength d.year (d.month - 1 + 1) := by
    intro d h
    have := h.day_pos
    have := h.day_le
    rw [Nat.sub_add_cancel h.month_pos]
    omega
  have hi' := hplace h'
  rw [← hyear] at hrest hi'
  obtain ⟨hmonth, hday⟩ := position_unique (daysBeforeMonth_succ d.year) (hplace h) hi' hrest
  have hm := h.month_pos
  have hm' := h'.month_pos
  have hd := h.day_pos
  have hd' := h'.day_pos
  exact Date.ext hyear (by omega) (by omega)

theorem Valid.iterate_next {d : Date} (h : d.Valid) (n : Nat) : (Date.next^[n] d).Valid := by
  induction n with
  | zero => exact h
  | succ n ih =>
      rw [Function.iterate_succ_apply']
      exact ih.next

theorem dayNumber_iterate_next {d : Date} (h : d.Valid) (n : Nat) :
    (next^[n] d).dayNumber = d.dayNumber + n := by
  induction n with
  | zero => rfl
  | succ n ih =>
      rw [Function.iterate_succ_apply', dayNumber_next (h.iterate_next n), ih, Nat.add_assoc]

/-- The date `n` days after a date is the one whose number is greater by `n`. -/
theorem iterate_next_eq {d d' : Date} (h : d.Valid) (h' : d'.Valid) {n : Nat}
    (hnumber : d'.dayNumber = d.dayNumber + n) : next^[n] d = d' :=
  dayNumber_injective (h.iterate_next n) h' ((dayNumber_iterate_next h n).trans hnumber.symm)

end Date

/-! ## A clock -/

/-- The days of the week. -/
inductive Weekday where
  | sunday | monday | tuesday | wednesday | thursday | friday | saturday
deriving DecidableEq, Repr

namespace Weekday

/-- The day after. -/
def next : Weekday → Weekday
  | .sunday => .monday
  | .monday => .tuesday
  | .tuesday => .wednesday
  | .wednesday => .thursday
  | .thursday => .friday
  | .friday => .saturday
  | .saturday => .sunday

/-- The place of a day in a week that starts on Sunday. -/
def index : Weekday → Nat
  | .sunday => 0
  | .monday => 1
  | .tuesday => 2
  | .wednesday => 3
  | .thursday => 4
  | .friday => 5
  | .saturday => 6

theorem index_next (w : Weekday) : w.next.index = (w.index + 1) % 7 := by
  cases w <;> rfl

theorem index_iterate_next (w : Weekday) (n : Nat) : (next^[n] w).index = (w.index + n) % 7 := by
  induction n with
  | zero => cases w <;> rfl
  | succ n ih =>
      rw [Function.iterate_succ_apply', index_next, ih, Nat.mod_add_mod, Nat.add_assoc]

end Weekday

/-- A moment on a clock with a calendar. -/
@[ext]
structure Moment where
  weekday : Weekday
  date : Date
  hour : Nat
  minute : Nat
  second : Nat
deriving DecidableEq, Repr

namespace Moment

/-- One second later. -/
def tick (m : Moment) : Moment :=
  if m.second < 59 then { m with second := m.second + 1 }
  else if m.minute < 59 then { m with minute := m.minute + 1, second := 0 }
  else if m.hour < 23 then { m with hour := m.hour + 1, minute := 0, second := 0 }
  else ⟨m.weekday.next, m.date.next, 0, 0, 0⟩

/-- Where the clock stands `n` seconds after the midnight at which a day starts. -/
theorem iterate_tick (w : Weekday) (d : Date) (n : Nat) :
    tick^[n] ⟨w, d, 0, 0, 0⟩ =
      ⟨Weekday.next^[n / 86400] w, Date.next^[n / 86400] d, n / 3600 % 24, n / 60 % 60, n % 60⟩ := by
  induction n with
  | zero => rfl
  | succ n ih =>
      rw [Function.iterate_succ_apply', ih]
      simp only [tick]
      split
      · next hsecond =>
        have hday : (n + 1) / 86400 = n / 86400 := by omega
        simp only [hday, Moment.mk.injEq, true_and]
        omega
      · next hsecond =>
        split
        · next hminute =>
          have hday : (n + 1) / 86400 = n / 86400 := by omega
          simp only [hday, Moment.mk.injEq, true_and]
          omega
        · next hminute =>
          split
          · next hhour =>
            have hday : (n + 1) / 86400 = n / 86400 := by omega
            simp only [hday, Moment.mk.injEq, true_and]
            omega
          -- midnight
          · next hhour =>
            have hday : (n + 1) / 86400 = n / 86400 + 1 := by omega
            simp only [hday, Function.iterate_succ_apply', Moment.mk.injEq, true_and]
            omega

end Moment

end Elrond.Lib
