import Mathlib.Tactic
import Mathlib.Order.SuccPred.LinearLocallyFinite

/-!
# The proleptic Gregorian calendar

Dates of every year, before and after the calendar was introduced, one following the other.

* `Date`, `Date.next`: a date that exists, and the date after it;
* `DaysFrom`: how many days one date is after another;
* `daysFrom_iff`: a count that goes on by the length of each month counts days.
-/

namespace Calendar

def IsLeap (year : ℤ) : Prop := year % 4 = 0 ∧ (year % 100 ≠ 0 ∨ year % 400 = 0)

instance (year : ℤ) : Decidable (IsLeap year) := inferInstanceAs (Decidable (_ ∧ _))

def monthLength (year month : ℤ) : ℤ :=
  if month = 2 then if IsLeap year then 29 else 28
  else if month = 4 ∨ month = 6 ∨ month = 9 ∨ month = 11 then 30
  else 31

theorem monthLength_pos (year month : ℤ) : 1 ≤ monthLength year month := by
  unfold monthLength
  split_ifs <;> decide

/-- A date that exists. -/
structure Date where
  year : ℤ
  month : ℤ
  day : ℤ
  month_pos : 1 ≤ month
  month_le : month ≤ 12
  day_pos : 1 ≤ day
  day_le : day ≤ monthLength year month
  deriving DecidableEq

namespace Date

/-- The first day of a year. -/
def newYear (year : ℤ) : Date where
  year := year
  month := 1
  day := 1
  month_pos := le_rfl
  month_le := by decide
  day_pos := le_rfl
  day_le := monthLength_pos _ _

/-- The date after a date. -/
def next (date : Date) : Date :=
  if h : date.day < monthLength date.year date.month then
    { date with day := date.day + 1, day_pos := by have := date.day_pos; omega, day_le := h }
  else if h : date.month < 12 then
    { year := date.year, month := date.month + 1, day := 1
      month_pos := by have := date.month_pos; omega
      month_le := h, day_pos := le_rfl, day_le := monthLength_pos _ _ }
  else newYear (date.year + 1)

/-- The months before a date, counted from the year zero. -/
def months (date : Date) : ℤ := 12 * date.year + (date.month - 1)

theorem months_div (date : Date) : date.months / 12 = date.year := by
  have := date.month_pos
  have := date.month_le
  unfold months
  omega

theorem months_mod (date : Date) : date.months % 12 = date.month - 1 := by
  have := date.month_pos
  have := date.month_le
  unfold months
  omega

end Date

/-- The second date is `days` days after the first. -/
def DaysFrom (first second : Date) (days : ℤ) : Prop :=
  (0 ≤ days ∧ Date.next^[days.toNat] first = second) ∨
    (days ≤ 0 ∧ Date.next^[(-days).toNat] second = first)

/-! ### Counting days -/

section Count

variable {start : ℤ → ℤ → ℤ}

/-- The days that come before a date, from the days that come before its month. -/
def count (start : ℤ → ℤ → ℤ) (date : Date) : ℤ := start date.year date.month + date.day

variable (within : ∀ year month, 1 ≤ month → month < 12 →
    start year (month + 1) = start year month + monthLength year month)
  (across : ∀ year, start (year + 1) 1 = start year 12 + monthLength year 12)

include within across

theorem count_next (date : Date) : count start date.next = count start date + 1 := by
  have pos := date.month_pos
  have le := date.month_le
  have day_le := date.day_le
  unfold count Date.next
  by_cases inMonth : date.day < monthLength date.year date.month
  · rw [dif_pos inMonth, add_assoc]
  · rw [dif_neg inMonth]
    have last : date.day = monthLength date.year date.month := le_antisymm day_le (not_lt.1 inMonth)
    by_cases inYear : date.month < 12
    · rw [dif_pos inYear, within _ _ pos inYear, last]
    · rw [dif_neg inYear, Date.newYear, across]
      have december : date.month = 12 := by omega
      rw [last, december]

/-- The days before the months, one month after the other. -/
theorem start_months_succ (months : ℤ) :
    start ((months + 1) / 12) ((months + 1) % 12 + 1) =
      start (months / 12) (months % 12 + 1) + monthLength (months / 12) (months % 12 + 1) := by
  by_cases december : months % 12 = 11
  · rw [show (months + 1) / 12 = months / 12 + 1 by omega,
      show (months + 1) % 12 + 1 = 1 by omega, across, december]
    rfl
  · rw [show (months + 1) / 12 = months / 12 by omega,
      show (months + 1) % 12 + 1 = months % 12 + 1 + 1 by omega, within _ _ (by omega) (by omega)]

theorem start_months_strictMono :
    StrictMono fun months : ℤ => start (months / 12) (months % 12 + 1) := by
  refine strictMono_int_of_lt_succ fun months => ?_
  have step := start_months_succ within across months
  have := monthLength_pos (months / 12) (months % 12 + 1)
  omega

theorem count_lt_of_months_lt {first second : Date} (earlier : first.months < second.months) :
    count start first < count start second := by
  have step := start_months_succ within across first.months
  have mono := (start_months_strictMono within across).monotone (Int.add_one_le_of_lt earlier)
  simp only [Date.months_div, Date.months_mod, sub_add_cancel] at step mono
  have := second.day_pos
  have := first.day_le
  unfold count
  omega

theorem count_injective : Function.Injective (count start) := by
  intro first second same
  rcases lt_trichotomy first.months second.months with earlier | equal | later
  · exact absurd same (count_lt_of_months_lt within across earlier).ne
  · have year := congrArg (· / 12) equal
    have month := congrArg (· % 12) equal
    simp only [Date.months_div, Date.months_mod, sub_left_inj] at year month
    unfold count at same
    rw [year, month] at same
    obtain ⟨_, _, _⟩ := first
    obtain ⟨_, _, _⟩ := second
    cases year
    cases month
    cases add_left_cancel same
    rfl
  · exact absurd same (count_lt_of_months_lt within across later).ne'

theorem count_iterate (date : Date) (days : ℕ) :
    count start (Date.next^[days] date) = count start date + days := by
  induction days with
  | zero => simp
  | succ days ih =>
    rw [Function.iterate_succ_apply', count_next within across, ih]
    push_cast
    ring

/-- A count that goes on by the length of each month counts days. -/
theorem daysFrom_iff {first second : Date} {days : ℤ} :
    DaysFrom first second days ↔ days = count start second - count start first := by
  have injective := count_injective within across
  have iterate := count_iterate within across
  constructor
  · rintro (⟨pos, rfl⟩ | ⟨neg, rfl⟩)
    · rw [iterate]
      omega
    · rw [iterate]
      omega
  · rintro rfl
    rcases le_total (count start first) (count start second) with le | le
    · refine .inl ⟨by omega, injective ?_⟩
      rw [iterate]
      omega
    · refine .inr ⟨by omega, injective ?_⟩
      rw [iterate]
      omega

end Count

end Calendar
