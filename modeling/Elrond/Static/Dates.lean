import Elrond.Lib.Calendar
import Elrond.Static.Format

/-!
# HTTP dates

`http_date::format` against the calendar. The moment a count of seconds stands for is where a clock
arrives that starts at the Unix epoch and ticks that often (`momentAt`); its date is what the loops
of `days_to_date` compute (`daysToDate_eq`). An IMF-fixdate is the text of a moment, and a reader of
such texts gets the moment back (`readFixdate_fixdate`) and from it, by the closed form of the day
number, the seconds (`timestamp_momentAt`).
-/

set_option autoImplicit false

namespace Elrond.Static

open Elrond.Lib

/-! ## Texts of moments -/

/-- `day-name`. -/
def dayName : Weekday → String
  | .sunday => "Sun"
  | .monday => "Mon"
  | .tuesday => "Tue"
  | .wednesday => "Wed"
  | .thursday => "Thu"
  | .friday => "Fri"
  | .saturday => "Sat"

/-- `month`, by number. -/
def monthNames : List String :=
  ["Jan", "Feb", "Mar", "Apr", "May", "Jun", "Jul", "Aug", "Sep", "Oct", "Nov", "Dec"]

/-- The last `width` decimal digits of a number. -/
def digitField : (width n : Nat) → List Char
  | 0, _ => []
  | width + 1, n => digitField width (n / 10) ++ [Nat.digitChar (n % 10)]

/-- `IMF-fixdate`. -/
def fixdate (m : Moment) : List Char :=
  (dayName m.weekday).toList ++ ", ".toList ++ digitField 2 m.date.day ++ " ".toList ++
    (monthNames.getD (m.date.month - 1) "").toList ++ " ".toList ++ digitField 4 m.date.year ++
    " ".toList ++ digitField 2 m.hour ++ ":".toList ++ digitField 2 m.minute ++ ":".toList ++
    digitField 2 m.second ++ " GMT".toList

/-- The moment `secs` seconds after the Unix epoch, by the clock. -/
def momentAt (secs : Nat) : Moment := Moment.tick^[secs] ⟨.thursday, ⟨1970, 1, 1⟩, 0, 0, 0⟩

/-! ## Reading them -/

/-- A fixed text. -/
def readLiteral (text : String) (cs : List Char) : Option (List Char) :=
  text.toList.isPrefixOf? cs

/-- A decimal digit. -/
def readDigit (c : Char) : Option Nat :=
  if '0' ≤ c ∧ c ≤ '9' then some (c.toNat - '0'.toNat) else none

/-- A number of exactly `width` digits after the digits read so far. -/
def readDigits : (width read : Nat) → List Char → Option (Nat × List Char)
  | 0, read, cs => some (read, cs)
  | _ + 1, _, [] => none
  | width + 1, read, c :: cs => do
      let digit ← readDigit c
      readDigits width (10 * read + digit) cs

/-- One of several names. -/
def readName {α : Type} (nameOf : α → String) : List α → List Char → Option (α × List Char)
  | [], _ => none
  | a :: rest, cs =>
      match readLiteral (nameOf a) cs with
      | some cs => some (a, cs)
      | none => readName nameOf rest cs

/-- The days of the week. -/
def weekdays : List Weekday :=
  [.sunday, .monday, .tuesday, .wednesday, .thursday, .friday, .saturday]

/-- An `IMF-fixdate`, field by field. -/
def readFixdate (cs : List Char) : Option Moment := do
  let (weekday, cs) ← readName dayName weekdays cs
  let cs ← readLiteral ", " cs
  let (day, cs) ← readDigits 2 0 cs
  let cs ← readLiteral " " cs
  let (month, cs) ← readName (fun m => monthNames.getD m "") (List.range 12) cs
  let cs ← readLiteral " " cs
  let (year, cs) ← readDigits 4 0 cs
  let cs ← readLiteral " " cs
  let (hour, cs) ← readDigits 2 0 cs
  let cs ← readLiteral ":" cs
  let (minute, cs) ← readDigits 2 0 cs
  let cs ← readLiteral ":" cs
  let (second, cs) ← readDigits 2 0 cs
  let cs ← readLiteral " GMT" cs
  if cs = [] then some ⟨weekday, ⟨year, month + 1, day⟩, hour, minute, second⟩ else none

/-- The number of 1 January 1970. -/
def epochDay : Nat := (⟨1970, 1, 1⟩ : Date).dayNumber

/-- The moment exists: its date is on the calendar, not before the epoch, and falls on its day of
the week (the year 0 started on a Saturday), and its time is one of the day. -/
structure OnClock (m : Moment) : Prop where
  date : m.date.Valid
  since : epochDay ≤ m.date.dayNumber
  weekday : m.weekday.index = (m.date.dayNumber + 6) % 7
  hour : m.hour < 24
  minute : m.minute < 60
  second : m.second < 60

instance (d : Date) : Decidable d.Valid :=
  decidable_of_iff (1 ≤ d.month ∧ d.month ≤ 12 ∧ 1 ≤ d.day ∧ d.day ≤ monthLength d.year d.month)
    ⟨fun h => ⟨h.1, h.2.1, h.2.2.1, h.2.2.2⟩,
      fun h => ⟨h.month_pos, h.month_le, h.day_pos, h.day_le⟩⟩

instance (m : Moment) : Decidable (OnClock m) :=
  decidable_of_iff (m.date.Valid ∧ epochDay ≤ m.date.dayNumber ∧
      m.weekday.index = (m.date.dayNumber + 6) % 7 ∧ m.hour < 24 ∧ m.minute < 60 ∧ m.second < 60)
    ⟨fun h => ⟨h.1, h.2.1, h.2.2.1, h.2.2.2.1, h.2.2.2.2.1, h.2.2.2.2.2⟩,
      fun h => ⟨h.date, h.since, h.weekday, h.hour, h.minute, h.second⟩⟩

/-- The seconds between the Unix epoch and a moment. -/
def timestamp (m : Moment) : Nat :=
  (((m.date.dayNumber - epochDay) * 24 + m.hour) * 60 + m.minute) * 60 + m.second

/-- The seconds since the Unix epoch that an `IMF-fixdate` stands for. -/
def parseFixdate (s : String) : Option Nat := do
  let m ← readFixdate s.toList
  if OnClock m then some (timestamp m) else none

/-! ## What is written is read -/

theorem readLiteral_append (text : String) (rest : List Char) :
    readLiteral text (text.toList ++ rest) = some rest :=
  Text.isPrefixOf?_eq_some.2 rfl

theorem readLiteral_self (text : String) : readLiteral text text.toList = some [] :=
  Text.isPrefixOf?_eq_some.2 (List.append_nil _).symm

theorem readDigit_digitChar {n : Nat} (h : n < 10) : readDigit (Nat.digitChar n) = some n := by
  have hall : ∀ n < 10, readDigit (Nat.digitChar n) = some n := by decide
  exact hall n h

/-- The digits of a field are added to what was read. -/
theorem readDigits_append (width read n : Nat) (rest : List Char) (k : Nat) :
    readDigits (width + k) read (digitField width n ++ rest) =
      readDigits k (read * 10 ^ width + n % 10 ^ width) rest := by
  induction width generalizing n k rest with
  | zero =>
      rw [digitField, List.nil_append, Nat.zero_add, pow_zero, Nat.mul_one, Nat.mod_one]
      rfl
  | succ width ih =>
      have hlast : n % 10 < 10 := Nat.mod_lt _ (by decide)
      have hvalue : 10 * (read * 10 ^ width + n / 10 % 10 ^ width) + n % 10 =
          read * 10 ^ (width + 1) + n % 10 ^ (width + 1) := by
        rw [pow_succ', Nat.mod_mul]
        ring
      rw [digitField, List.append_assoc, Nat.add_right_comm, Nat.add_assoc, ih]
      rw [List.singleton_append, readDigits, readDigit_digitChar hlast, ← hvalue]
      rfl

/-- A number that fits its field is read back. -/
theorem readDigits_digitField {width n : Nat} (h : n < 10 ^ width) (rest : List Char) :
    readDigits width 0 (digitField width n ++ rest) = some (n, rest) := by
  have hread := readDigits_append width 0 n rest 0
  rw [Nat.add_zero, Nat.zero_mul, Nat.zero_add, Nat.mod_eq_of_lt h] at hread
  rw [hread]
  rfl

/-- A day fits its field. -/
theorem OnClock.day_lt {m : Moment} (h : OnClock m) : m.date.day < 100 := by
  have := h.date.day_le
  have := monthLength_le m.date.year m.date.month
  omega

theorem readName_dayName (w : Weekday) (rest : List Char) :
    readName dayName weekdays ((dayName w).toList ++ rest) = some (w, rest) := by
  cases w <;> rfl

theorem readName_monthName {m : Nat} (h : m < 12) (rest : List Char) :
    readName (fun m => monthNames.getD m "") (List.range 12)
      ((monthNames.getD m "").toList ++ rest) = some (m, rest) := by
  interval_cases m <;> rfl

/-- A reader whose first part returns goes on with the rest. -/
theorem bind_of_eq_some {α β : Type} {x : Option α} {a : α} {f : α → Option β} {r : Option β}
    (hx : x = some a) (hf : f a = r) : (x >>= f) = r := by
  rw [hx]
  exact hf

/-- The text of a moment is read back. -/
theorem readFixdate_fixdate {m : Moment} (h : OnClock m) (hyear : m.date.year ≤ 9999) :
    readFixdate (fixdate m) = some m := by
  have hmonth := h.date.month_le
  have hpos := h.date.month_pos
  have hday : m.date.day < 10 ^ 2 := h.day_lt
  have hyear : m.date.year < 10 ^ 4 := by omega
  have hhour : m.hour < 10 ^ 2 := by have := h.hour; omega
  have hminute : m.minute < 10 ^ 2 := by have := h.minute; omega
  have hsecond : m.second < 10 ^ 2 := by have := h.second; omega
  have hindex : m.date.month - 1 < 12 := by omega
  simp only [fixdate, List.append_assoc]
  -- each field consumes its own text and leaves the text of the fields after it
  apply bind_of_eq_some (readName_dayName _ _)
  apply bind_of_eq_some (readLiteral_append ", " _)
  apply bind_of_eq_some (readDigits_digitField hday _)
  apply bind_of_eq_some (readLiteral_append " " _)
  apply bind_of_eq_some (readName_monthName hindex _)
  apply bind_of_eq_some (readLiteral_append " " _)
  apply bind_of_eq_some (readDigits_digitField hyear _)
  apply bind_of_eq_some (readLiteral_append " " _)
  apply bind_of_eq_some (readDigits_digitField hhour _)
  apply bind_of_eq_some (readLiteral_append ":" _)
  apply bind_of_eq_some (readDigits_digitField hminute _)
  apply bind_of_eq_some (readLiteral_append ":" _)
  apply bind_of_eq_some (readDigits_digitField hsecond _)
  apply bind_of_eq_some (readLiteral_self " GMT")
  simp only [Nat.sub_add_cancel hpos, if_true]

/-! ## The moment of a count of seconds -/

theorem epoch_valid : (⟨1970, 1, 1⟩ : Date).Valid := by decide

theorem momentAt_eq (secs : Nat) :
    momentAt secs =
      ⟨Weekday.next^[secs / 86400] .thursday, Date.next^[secs / 86400] ⟨1970, 1, 1⟩,
        secs / 3600 % 24, secs / 60 % 60, secs % 60⟩ :=
  Moment.iterate_tick _ _ secs

theorem dayNumber_momentAt (secs : Nat) :
    (momentAt secs).date.dayNumber = epochDay + secs / 86400 := by
  rw [momentAt_eq]
  exact Date.dayNumber_iterate_next epoch_valid _

theorem onClock_momentAt (secs : Nat) : OnClock (momentAt secs) := by
  have hnumber := dayNumber_momentAt secs
  have hepoch : epochDay = 719528 := by decide
  constructor
  · rw [momentAt_eq]
    exact epoch_valid.iterate_next _
  · rw [hnumber]
    exact Nat.le_add_right _ _
  · rw [hnumber, hepoch, momentAt_eq, Weekday.index_iterate_next]
    -- the epoch was a Thursday, whose index is 4
    show (4 + secs / 86400) % 7 = _
    omega
  · rw [momentAt_eq]
    exact Nat.mod_lt _ (by decide)
  · rw [momentAt_eq]
    exact Nat.mod_lt _ (by decide)
  · rw [momentAt_eq]
    exact Nat.mod_lt _ (by decide)

/-- The moment of a count of seconds is that many seconds after the epoch. -/
theorem timestamp_momentAt (secs : Nat) : timestamp (momentAt secs) = secs := by
  have hnumber := dayNumber_momentAt secs
  rw [timestamp, hnumber, momentAt_eq]
  simp only [Nat.add_sub_cancel_left]
  omega

theorem parseFixdate_fixdate {secs : Nat} (hyear : (momentAt secs).date.year ≤ 9999) :
    parseFixdate (String.ofList (fixdate (momentAt secs))) = some secs := by
  have hclock := onClock_momentAt secs
  rw [parseFixdate, String.toList_ofList, readFixdate_fixdate hclock hyear]
  simp only [Option.bind_eq_bind, Option.bind_some, if_pos hclock, timestamp_momentAt]

/-! ## The loops -/

theorem isLeap_iff (y : Nat) : isLeap y = true ↔ IsLeapYear y := by
  simp only [isLeap, IsLeapYear, Bool.or_eq_true, Bool.and_eq_true, beq_iff_eq, bne_iff_ne, ne_eq]
  omega

theorem daysOfYear_eq (y : Nat) : daysOfYear y = yearLength y := by
  simp only [daysOfYear, yearLength, isLeap_iff]

/-- The loop over the years keeps the number of the day and ends within a year. -/
theorem yearOf_spec (days year : Nat) :
    Date.daysBeforeYear year + days =
        Date.daysBeforeYear (yearOf days year).1 + (yearOf days year).2 ∧
      (yearOf days year).2 < yearLength (yearOf days year).1 := by
  induction days, year using yearOf.induct with
  | case1 days year h =>
      rw [yearOf, if_pos h]
      rw [daysOfYear_eq] at h
      exact ⟨rfl, h⟩
  | case2 days year h ih =>
      rw [yearOf, if_neg h]
      rw [Date.daysBeforeYear_succ, ← daysOfYear_eq] at ih
      refine ⟨?_, ih.2⟩
      rw [← ih.1]
      omega

theorem monthLengths_eq (y : Nat) :
    monthLengths y = (List.range' 0 12).map fun m => monthLength y (m + 1) := by
  by_cases h : IsLeapYear y
  · simp [monthLengths, List.range', monthLength, isLeap_iff, h]
  · simp [monthLengths, List.range', monthLength, isLeap_iff, h]

/-- The loop over the months from the month `m` on keeps the number of the day and ends within a
month. -/
theorem monthOf_spec {y : Nat} (days m k : Nat)
    (h : Date.daysBeforeMonth y m + days < Date.daysBeforeMonth y (m + k)) :
    ∃ m' r, monthOf days m ((List.range' m k).map fun m => monthLength y (m + 1)) = (m', r) ∧
      Date.daysBeforeMonth y m + days = Date.daysBeforeMonth y m' + r ∧
      r < monthLength y (m' + 1) ∧ m' < m + k := by
  induction k generalizing days m with
  | zero =>
      rw [Nat.add_zero] at h
      omega
  | succ k ih =>
      have hnext := Date.daysBeforeMonth_succ y m
      rw [List.range'_succ, List.map_cons, monthOf]
      by_cases hdays : days < monthLength y (m + 1)
      · rw [if_pos hdays]
        exact ⟨m, days, rfl, rfl, hdays, by omega⟩
      · rw [if_neg hdays]
        have hsame : m + 1 + k = m + (k + 1) := by omega
        obtain ⟨m', r, heq, hnumber, hr, hm⟩ := ih (days - monthLength y (m + 1)) (m + 1)
          (by rw [hsame]; omega)
        exact ⟨m', r, heq, by omega, hr, by omega⟩

/-- `days_to_date` computes the date that many days after the epoch. -/
theorem daysToDate_eq {days : Nat}
    (hyear : (Date.next^[days] ⟨1970, 1, 1⟩).year < 2 ^ 32) :
    daysToDate days =
      ((Date.next^[days] ⟨1970, 1, 1⟩).year, (Date.next^[days] ⟨1970, 1, 1⟩).month,
        (Date.next^[days] ⟨1970, 1, 1⟩).day) := by
  obtain ⟨hnumber, hrest⟩ := yearOf_spec days 1970
  rcases hyearOf : yearOf days 1970 with ⟨y, r⟩
  simp only [hyearOf] at hnumber hrest
  obtain ⟨m, d, hmonthOf, hmonths, hd, hm⟩ := monthOf_spec (y := y) r 0 12 (by
    rw [Nat.zero_add, Date.daysBeforeMonth_twelve]
    exact (Nat.zero_add r).symm ▸ hrest)
  rw [← monthLengths_eq] at hmonthOf
  -- the day found is the one the calendar reaches, since their numbers agree
  have hdate : Date.next^[days] ⟨1970, 1, 1⟩ = ⟨y, m + 1, d + 1⟩ := by
    refine Date.iterate_next_eq epoch_valid ⟨?_, ?_, ?_, ?_⟩ ?_
    · exact Nat.le_add_left 1 m
    · exact hm
    · exact Nat.le_add_left 1 d
    · exact hd
    · have hstart : Date.daysBeforeMonth y 0 = 0 := Finset.sum_range_zero _
      have hjanuary : Date.daysBeforeMonth 1970 0 = 0 := Finset.sum_range_zero _
      simp only [Date.dayNumber, Nat.add_sub_cancel, Nat.sub_self, hjanuary]
      omega
  rw [hdate] at hyear ⊢
  simp only [daysToDate, hyearOf, hmonthOf, Nat.mod_eq_of_lt hyear]

theorem daysToDate_momentAt {secs : Nat} (hyear : (momentAt secs).date.year ≤ 9999) :
    daysToDate (secs / 86400) =
      ((momentAt secs).date.year, (momentAt secs).date.month, (momentAt secs).date.day) := by
  rw [momentAt_eq] at hyear ⊢
  exact daysToDate_eq (lt_of_le_of_lt hyear (by decide))

/-! ## The text -/

theorem digitField_zero (width : Nat) : digitField width 0 = List.replicate width '0' := by
  induction width with
  | zero => rfl
  | succ width ih =>
      rw [digitField, List.replicate_succ', Nat.zero_div, ih]
      rfl

/-- A number that fits its field is written with leading zeros. -/
theorem digitField_eq_padded {width n : Nat} (hwidth : 0 < width) (h : n < 10 ^ width) :
    digitField width n = (padded width n).toList := by
  rw [padded, String.toList_ofList]
  induction width generalizing n with
  | zero => exact absurd hwidth (lt_irrefl 0)
  | succ width ih =>
      rw [digitField]
      -- one digit is padded, and more digits are those of the quotient and a last one
      by_cases hone : n < 10
      · rw [Nat.toDigits_of_lt_base hone, Nat.div_eq_of_lt hone, Nat.mod_eq_of_lt hone,
          digitField_zero]
        rfl
      · have hrest : n / 10 < 10 ^ width := by
          rw [Nat.div_lt_iff_lt_mul (by decide), ← pow_succ]
          exact h
        have hwidth : 0 < width := by
          rcases Nat.eq_zero_or_pos width with rfl | hpos
          · omega
          · exact hpos
        rw [ih hwidth hrest, Nat.toDigits_of_base_le (by decide) (not_lt.1 hone),
          List.length_append, List.length_singleton, Nat.add_sub_add_right, List.append_assoc]

theorem dayName_eq (w : Weekday) :
    dayName w = ["Sun", "Mon", "Tue", "Wed", "Thu", "Fri", "Sat"].getD w.index "" := by
  cases w <;> rfl

/-- `format` writes the moment of its argument. -/
theorem formatDate_eq {secs : Nat} (hyear : (momentAt secs).date.year ≤ 9999) :
    formatDate secs = String.ofList (fixdate (momentAt secs)) := by
  have hclock := onClock_momentAt secs
  have hday : (momentAt secs).date.day < 10 ^ 2 := hclock.day_lt
  have hweekday : ["Sun", "Mon", "Tue", "Wed", "Thu", "Fri", "Sat"].getD
      ((secs / 86400 + 4) % 7) "" = dayName (momentAt secs).weekday := by
    rw [dayName_eq, momentAt_eq, Weekday.index_iterate_next, Nat.add_comm]
    rfl
  have hdate := daysToDate_momentAt hyear
  -- the program divides the seconds of the day, the clock those since the epoch
  have hhour : secs % 86400 / 3600 = (momentAt secs).hour := by
    rw [momentAt_eq]
    show _ = secs / 3600 % 24
    omega
  have hminute : secs % 86400 % 3600 / 60 = (momentAt secs).minute := by
    rw [momentAt_eq]
    show _ = secs / 60 % 60
    omega
  have hsecond : secs % 86400 % 60 = (momentAt secs).second := by
    rw [momentAt_eq]
    show _ = secs % 60
    omega
  have htwo : ∀ n < 60, digitField 2 n = (padded 2 n).toList :=
    fun n h => digitField_eq_padded (by decide) (lt_trans h (by decide))
  rw [← String.toList_inj, String.toList_ofList]
  simp only [formatDate, hweekday, hdate, hhour, hminute, hsecond, String.toList_append, fixdate,
    digitField_eq_padded (by decide : 0 < 2) hday,
    digitField_eq_padded (by decide : 0 < 4) (Nat.lt_succ_of_le hyear : _ < 10 ^ 4),
    htwo _ (lt_trans hclock.hour (by decide)), htwo _ hclock.minute, htwo _ hclock.second]
  rfl

/-- **HTTP dates are correct.** For every number of seconds up to the end of the year 9999, the text
is the `IMF-fixdate` of the moment at which a clock stands that started on Thursday, 1 January 1970,
at midnight, and has ticked that often; reading it as a date of the calendar gives the number of
seconds back, and both names are looked up within their tables. -/
theorem format_date_correct (secs : Nat) (hyear : (momentAt secs).date.year ≤ 9999) :
    formatDate secs = String.ofList (fixdate (momentAt secs)) ∧
      parseFixdate (formatDate secs) = some secs ∧
      (secs / 86400 + 4) % 7 < 7 ∧
      1 ≤ (daysToDate (secs / 86400)).2.1 ∧ (daysToDate (secs / 86400)).2.1 - 1 < 12 := by
  have hdate := (onClock_momentAt secs).date
  have htext := formatDate_eq hyear
  refine ⟨htext, ?_, Nat.mod_lt _ (by decide), ?_, ?_⟩
  · rw [htext]
    exact parseFixdate_fixdate hyear
  · rw [daysToDate_momentAt hyear]
    exact hdate.month_pos
  · rw [daysToDate_momentAt hyear]
    exact Nat.lt_of_lt_of_le (Nat.sub_lt hdate.month_pos Nat.one_pos) hdate.month_le

/-- A leap day. -/
theorem format_date_leap_day :
    (momentAt 68214896).date = ⟨1972, 2, 29⟩ ∧
      formatDate 68214896 = String.ofList (fixdate (momentAt 68214896)) ∧
      parseFixdate (formatDate 68214896) = some 68214896 := by
  have hdate : (momentAt 68214896).date = ⟨1972, 2, 29⟩ := by
    have hday : Date.next^[789] ⟨1970, 1, 1⟩ = ⟨1972, 2, 29⟩ :=
      Date.iterate_next_eq epoch_valid (by decide) rfl
    have hdays : 68214896 / 86400 = 789 := by norm_num
    simp only [momentAt_eq, hdays, hday]
  have h := format_date_correct 68214896 (by rw [hdate]; decide)
  exact ⟨hdate, h.1, h.2.1⟩

end Elrond.Static
