import Eventd.Lib.Calendar
import Eventd.Query.Syntax

/-!
# What an absolute time denotes

The date and the time of day that the fields of a text spell, and the nanoseconds from the
epoch to it.  The fields are read as integers, and an integer may have a sign, so a text can
be accepted whose fields are not all digits.

* `Instant`, `Instant.IsAt`: a second that exists, and its distance from the epoch in days of
  the calendar;
* `daysFromCivil_next`, `daysFromCivil_eq_count`: the calendar algorithm counts days;
* `Fields`: which instant the fields of a text give, for a way to read a field;
* `parseAbsoluteTime_eq_ok`: exactly which texts are accepted, and with which result;
* `absolute_time_exact_iff`: when acceptance is strict.
-/

namespace Eventd

open Option TextSlice Decimal Calendar Fallible

/-! ### Days -/

theorem daysInMonth_eq (year month : ℤ) : daysInMonth year month = monthLength year month := by
  refine if_congr Iff.rfl (if_congr Iff.rfl rfl rfl) (if_congr ?_ rfl rfl)
  simp only [List.mem_cons, List.not_mem_nil, or_false]

/-- The days before the first of a month, less one. -/
def daysToMonth (year month : ℤ) : ℤ := daysFromCivil year month 0

theorem daysFromCivil_eq_count (date : Date) :
    daysFromCivil date.year date.month date.day = count daysToMonth date := by
  unfold count daysToMonth daysFromCivil
  ring

theorem daysToMonth_succ (year month : ℤ) (pos : 1 ≤ month) (lt : month < 12) :
    daysToMonth year (month + 1) = daysToMonth year month + monthLength year month := by
  unfold daysToMonth daysFromCivil monthLength
  by_cases february : month = 2
  · -- the count of years goes on in March
    subst february
    unfold IsLeap
    norm_num
    split_ifs <;> omega
  · interval_cases month <;> norm_num <;> omega

theorem daysToMonth_january (year : ℤ) :
    daysToMonth (year + 1) 1 = daysToMonth year 12 + monthLength year 12 := by
  unfold daysToMonth daysFromCivil monthLength
  norm_num
  ring

/-- The algorithm counts one more for each date than for the one before. -/
theorem daysFromCivil_next (date : Date) :
    daysFromCivil date.next.year date.next.month date.next.day =
      daysFromCivil date.year date.month date.day + 1 := by
  rw [daysFromCivil_eq_count, daysFromCivil_eq_count]
  exact count_next daysToMonth_succ daysToMonth_january date

/-- 1970-01-01. -/
def epoch : Date := .newYear 1970

theorem daysFrom_epoch_iff {date : Date} {days : ℤ} :
    DaysFrom epoch date days ↔ days = daysFromCivil date.year date.month date.day := by
  have zero : count daysToMonth epoch = 0 := by decide
  rw [daysFromCivil_eq_count, daysFrom_iff daysToMonth_succ daysToMonth_january, zero, sub_zero]

/-! ### Instants -/

/-- A second of a day that exists. -/
structure Instant where
  date : Date
  hour : ℤ
  minute : ℤ
  second : ℤ
  hour_range : 0 ≤ hour ∧ hour ≤ 23
  minute_range : 0 ≤ minute ∧ minute ≤ 59
  second_range : 0 ≤ second ∧ second ≤ 59

/-- An instant is a number of nanoseconds after the epoch. -/
def Instant.IsAt (instant : Instant) (time : ℤ) : Prop :=
  ∃ days, DaysFrom epoch instant.date days ∧
    time = (((days * 24 + instant.hour) * 60 + instant.minute) * 60 + instant.second) * 1000000000

variable {text : String} {value time : ℤ} {field : List UInt8}

theorem Instant.isAt_iff {instant : Instant} :
    instant.IsAt time ↔ time =
      (daysFromCivil instant.date.year instant.date.month instant.date.day * 86400 +
        (instant.hour * 3600 + instant.minute * 60 + instant.second)) * 1000000000 := by
  simp only [IsAt, daysFrom_epoch_iff, exists_eq_left]
  constructor
  · rintro rfl
    ring
  · rintro rfl
    ring

/-- An integer that `i64` holds. -/
def InI64 (value : ℤ) : Prop := -(i64Max : ℤ) - 1 ≤ value ∧ value ≤ i64Max

instance (value : ℤ) : Decidable (InI64 value) := inferInstanceAs (Decidable (_ ∧ _))

theorem checkedI64_eq (value : ℤ) : checkedI64 value = if InI64 value then some value else none := rfl

/-- The steps of the arithmetic leave `i64` only if the result does. -/
theorem nanosecondsOf_eq {days hour minute second : ℤ} (h : 0 ≤ hour ∧ hour ≤ 23)
    (m : 0 ≤ minute ∧ minute ≤ 59) (s : 0 ≤ second ∧ second ≤ 59) :
    nanosecondsOf days hour minute second =
      if InI64 ((days * 86400 + (hour * 3600 + minute * 60 + second)) * 1000000000) then
        some ((days * 86400 + (hour * 3600 + minute * 60 + second)) * 1000000000)
      else none := by
  unfold nanosecondsOf
  simp only [checkedI64_eq]
  by_cases fits : InI64 ((days * 86400 + (hour * 3600 + minute * 60 + second)) * 1000000000)
  · have seconds : InI64 (days * 86400 + (hour * 3600 + minute * 60 + second)) := by
      unfold InI64 i64Max at *
      omega
    have whole : InI64 (days * 86400) := by
      unfold InI64 i64Max at *
      omega
    rw [if_pos fits, if_pos whole, bind_eq_bind, bind_some, if_pos seconds,
      bind_some, if_pos fits]
  · rw [if_neg fits]
    by_cases whole : InI64 (days * 86400)
    · rw [if_pos whole, bind_eq_bind, bind_some]
      by_cases seconds : InI64 (days * 86400 + (hour * 3600 + minute * 60 + second))
      · rw [if_pos seconds, bind_some, if_neg fits]
      · rw [if_neg seconds]
        rfl
    · rw [if_neg whole]
      rfl

/-! ### Fields -/

/-- A field is read as a number. -/
def FieldAt (reads : List UInt8 → ℤ → Prop) (text : String) (first last : ℕ) (value : ℤ) : Prop :=
  ∃ field, slice (bytesOf text) first last = some field ∧ reads field value

/-- The fields of a text are read as those of an instant; a text without a time of day is read
as midnight. -/
structure Fields (reads : List UInt8 → ℤ → Prop) (text : String) (instant : Instant) : Prop where
  year : FieldAt reads text 0 4 instant.date.year
  month : FieldAt reads text 5 7 instant.date.month
  day : FieldAt reads text 8 10 instant.date.day
  clock :
    if (bytesOf text).length = 19 then
      FieldAt reads text 11 13 instant.hour ∧ FieldAt reads text 14 16 instant.minute ∧
        FieldAt reads text 17 19 instant.second
    else instant.hour = 0 ∧ instant.minute = 0 ∧ instant.second = 0

/-- A field that is digits. -/
def Digits (field : List UInt8) (value : ℤ) : Prop :=
  (∀ byte ∈ field, isDigit byte = true) ∧ value = Decimal.decimal field

/-- A field that is an integer, possibly with a sign. -/
def IsInteger (field : List UInt8) (value : ℤ) : Prop := parseInteger field = some value

theorem integerAt_eq_ok {first last : ℕ} :
    integerAt text first last = .ok value ↔ FieldAt IsInteger text first last value := by
  unfold integerAt FieldAt IsInteger
  cases slice (bytesOf text) first last with
  | none =>
    constructor
    · nofun
    · rintro ⟨field, eq, -⟩
      cases eq
  | some field =>
    simp only [some_inj, exists_eq_left']
    cases parseInteger field with
    | none =>
      constructor <;> nofun
    | some read => simp

theorem clockOf_eq_ok {hour minute second : ℤ} :
    clockOf text = .ok (hour, minute, second) ↔
      if (bytesOf text).length = 19 then
        FieldAt IsInteger text 11 13 hour ∧ FieldAt IsInteger text 14 16 minute ∧
          FieldAt IsInteger text 17 19 second
      else hour = 0 ∧ minute = 0 ∧ second = 0 := by
  unfold clockOf
  split_ifs
  · simp only [bind_eq_ok, integerAt_eq_ok]
    constructor
    · rintro ⟨_, first, _, second, _, third, eq⟩
      cases eq
      exact ⟨first, second, third⟩
    · rintro ⟨first, second, third⟩
      exact ⟨_, first, _, second, _, third, rfl⟩
  · constructor
    · intro eq
      cases eq
      exact ⟨rfl, rfl, rfl⟩
    · rintro ⟨rfl, rfl, rfl⟩
      rfl

/-- A text whose fields are those of an instant is accepted if its distance from the epoch fits
`i64`, and is an invalid time if not. -/
theorem parseAbsoluteTime_of_fields {instant : Instant} (fields : Fields IsInteger text instant)
    (isAt : instant.IsAt time) :
    parseAbsoluteTime text = if InI64 time then .ok time else .error .invalidTime := by
  rw [parseAbsoluteTime, integerAt_eq_ok.2 fields.year, integerAt_eq_ok.2 fields.month,
    integerAt_eq_ok.2 fields.day, clockOf_eq_ok.2 fields.clock]
  dsimp only [bind, Except.bind]
  rw [daysInMonth_eq, if_neg (by
      have := instant.date.month_pos
      have := instant.date.month_le
      have := instant.date.day_pos
      have := instant.date.day_le
      omega),
    if_neg (by
      have := instant.hour_range
      have := instant.minute_range
      have := instant.second_range
      omega),
    nanosecondsOf_eq instant.hour_range instant.minute_range instant.second_range,
    ← Instant.isAt_iff.1 isAt]
  split_ifs <;> rfl

/-- **A text is accepted exactly if its fields are integers that are those of an instant whose
distance from the epoch fits `i64`, and this is then the result.** -/
theorem parseAbsoluteTime_eq_ok :
    parseAbsoluteTime text = .ok time ↔
      ∃ instant : Instant, Fields IsInteger text instant ∧ instant.IsAt time ∧ InI64 time := by
  constructor
  · intro parsed
    obtain ⟨year, readYear, parsed⟩ := bind_eq_ok.1 parsed
    obtain ⟨month, readMonth, parsed⟩ := bind_eq_ok.1 parsed
    obtain ⟨day, readDay, parsed⟩ := bind_eq_ok.1 parsed
    split_ifs at parsed with badDate
    · cases parsed
    obtain ⟨⟨hour, minute, second⟩, readClock, parsed⟩ := bind_eq_ok.1 parsed
    dsimp only at parsed
    split_ifs at parsed with badClock
    · cases parsed
    rw [daysInMonth_eq] at badDate
    simp only [not_or, not_not] at badDate badClock
    rw [nanosecondsOf_eq badClock.1 badClock.2.1 badClock.2.2] at parsed
    split_ifs at parsed with fits
    cases parsed
    exact ⟨⟨⟨year, month, day, badDate.1.1, badDate.1.2, badDate.2.1, badDate.2.2⟩, hour, minute,
        second, badClock.1, badClock.2.1, badClock.2.2⟩,
      ⟨integerAt_eq_ok.1 readYear, integerAt_eq_ok.1 readMonth, integerAt_eq_ok.1 readDay,
        clockOf_eq_ok.1 readClock⟩, Instant.isAt_iff.2 rfl, fits⟩
  · rintro ⟨instant, fields, isAt, fits⟩
    rw [parseAbsoluteTime_of_fields fields isAt, if_pos fits]

/-! ### Signs -/

/-- A field that begins with a sign. -/
def HasSign (field : List UInt8) : Prop := field.head? = some 0x2b ∨ field.head? = some 0x2d

/-- Where the fields of a text are. -/
def fieldPositions (text : String) : List (ℕ × ℕ) :=
  [(0, 4), (5, 7), (8, 10)] ++
    if (bytesOf text).length = 19 then [(11, 13), (14, 16), (17, 19)] else []

/-- A text with a field that begins with a sign. -/
def Signed (text : String) : Prop :=
  ∃ position ∈ fieldPositions text, ∃ field,
    slice (bytesOf text) position.1 position.2 = some field ∧ HasSign field

theorem digits_of_isInteger (integer : IsInteger field value) (unsigned : ¬ HasSign field) :
    Digits field value := by
  cases field with
  | nil => cases integer
  | cons first digits =>
    obtain ⟨plus, minus⟩ := not_or.1 unsigned
    rw [List.head?_cons, some_inj] at plus minus
    rw [IsInteger, parseInteger, if_neg minus, if_neg plus, parseDigits] at integer
    split_ifs at integer with digit
    exact ⟨List.all_eq_true.1 digit.2, (Option.some.inj integer).symm⟩

theorem isInteger_of_digits (nonempty : field ≠ []) (digits : Digits field value) :
    IsInteger field value := by
  obtain ⟨all, rfl⟩ := digits
  cases field with
  | nil => exact absurd rfl nonempty
  | cons first rest =>
    have digit := all first List.mem_cons_self
    have minus : first ≠ 0x2d := by
      rintro rfl
      cases digit
    have plus : first ≠ 0x2b := by
      rintro rfl
      cases digit
    rw [IsInteger, parseInteger, if_neg minus, if_neg plus, parseDigits,
      if_pos ⟨nonempty, List.all_eq_true.2 all⟩]

theorem not_hasSign_of_digits (digits : Digits field value) :
    ¬ HasSign field := by
  rintro (sign | sign)
  · cases digits.1 _ (List.mem_of_head? sign)
  · cases digits.1 _ (List.mem_of_head? sign)

namespace Fields

variable {reads reads' : List UInt8 → ℤ → Prop} {text : String} {instant : Instant}

/-- Another way to read fields that reads these as the same numbers. -/
theorem mono (fields : Fields reads text instant)
    (same : ∀ position ∈ fieldPositions text, ∀ field value,
      slice (bytesOf text) position.1 position.2 = some field → reads field value →
        reads' field value) : Fields reads' text instant := by
  have within {first last : ℕ} {value : ℤ} (mem : (first, last) ∈ fieldPositions text)
      (read : FieldAt reads text first last value) : FieldAt reads' text first last value := by
    obtain ⟨field, eq, read⟩ := read
    exact ⟨field, eq, same _ mem field value eq read⟩
  refine ⟨within (by simp [fieldPositions]) fields.year, within (by simp [fieldPositions]) fields.month,
    within (by simp [fieldPositions]) fields.day, ?_⟩
  have clock := fields.clock
  split_ifs at clock ⊢ with long
  · exact ⟨within (by simp [fieldPositions, long]) clock.1, within (by simp [fieldPositions, long]) clock.2.1,
      within (by simp [fieldPositions, long]) clock.2.2⟩
  · exact clock

/-- Every field is read as some number. -/
theorem exists_value (fields : Fields reads text instant) {position : ℕ × ℕ}
    (mem : position ∈ fieldPositions text) :
    ∃ value, FieldAt reads text position.1 position.2 value := by
  have clock := fields.clock
  unfold fieldPositions at mem
  split_ifs at clock mem with long
  · simp only [List.cons_append, List.nil_append, List.mem_cons, List.not_mem_nil, or_false] at mem
    rcases mem with rfl | rfl | rfl | rfl | rfl | rfl
    exacts [⟨_, fields.year⟩, ⟨_, fields.month⟩, ⟨_, fields.day⟩, ⟨_, clock.1⟩, ⟨_, clock.2.1⟩,
      ⟨_, clock.2.2⟩]
  · simp only [List.append_nil, List.mem_cons, List.not_mem_nil, or_false] at mem
    rcases mem with rfl | rfl | rfl
    exacts [⟨_, fields.year⟩, ⟨_, fields.month⟩, ⟨_, fields.day⟩]

end Fields

theorem fieldPositions_lt {text : String} {position : ℕ × ℕ} (mem : position ∈ fieldPositions text) :
    position.1 < position.2 := by
  unfold fieldPositions at mem
  split_ifs at mem
  · revert position
    decide
  · revert position
    decide

/-- Fields that are digits are integers: none of them is empty. -/
theorem Fields.isInteger {text : String} {instant : Instant} (fields : Fields Digits text instant) :
    Fields IsInteger text instant := by
  refine fields.mono fun position mem field value eq digits => isInteger_of_digits ?_ digits
  have width := length_slice eq
  have := fieldPositions_lt mem
  rintro rfl
  rw [List.length_nil] at width
  omega

/-- A text that is accepted although one of its fields begins with a sign: the fields are those of
an instant, and its distance from the epoch fits `i64`. -/
def SignRead (text : String) : Prop :=
  Signed text ∧ ∃ instant time, Fields IsInteger text instant ∧ instant.IsAt time ∧ InI64 time

/-- **A text is accepted only if its fields are digits, its result is then the exact distance of
the instant from the epoch, counted in days of the calendar, a distance that does not fit `i64` is
an error, and the executor is given a text only if the parser has validated it, exactly if the
text is not one that is accepted with a sign in a field.** -/
theorem absolute_time_exact_iff (text : String) :
    ((∀ time, parseAbsoluteTime text = .ok time →
        ∃ instant, Fields Digits text instant ∧ instant.IsAt time) ∧
      (∀ instant time, Fields Digits text instant → instant.IsAt time →
        parseAbsoluteTime text = if InI64 time then .ok time else .error .invalidTime) ∧
      (∀ date : Date, daysFromCivil date.next.year date.next.month date.next.day =
        daysFromCivil date.year date.month date.day + 1) ∧
      (∀ parser parser', Parser.time parser = .ok (.absolute text, parser') →
        validateAbsoluteTime text = .ok ())) ↔
      ¬ SignRead text := by
  constructor
  · rintro ⟨strict, -⟩ ⟨⟨position, mem, field, eq, sign⟩, instant, time, fields, isAt, fits⟩
    obtain ⟨instant', fields', -⟩ := strict time (parseAbsoluteTime_eq_ok.2 ⟨_, fields, isAt, fits⟩)
    obtain ⟨value, field', eq', digits⟩ := fields'.exists_value mem
    cases eq.symm.trans eq'
    exact not_hasSign_of_digits digits sign
  · intro unread
    refine ⟨?_, ?_, daysFromCivil_next, fun parser parser' => validate_of_time⟩
    · intro time parsed
      obtain ⟨instant, fields, isAt, fits⟩ := parseAbsoluteTime_eq_ok.1 parsed
      refine ⟨instant, fields.mono fun position mem field value eq integer => ?_, isAt⟩
      refine digits_of_isInteger integer fun sign => ?_
      exact unread ⟨⟨position, mem, field, eq, sign⟩, instant, time, fields, isAt, fits⟩
    · intro instant time fields isAt
      exact parseAbsoluteTime_of_fields fields.isInteger isAt

/-- A month with a plus sign is accepted. -/
theorem signed_month_accepted :
    validateAbsoluteTime "1970-+1-01" = .ok () ∧ parseAbsoluteTime "1970-+1-01" = .ok 0 ∧
      ¬ ∃ instant, Fields Digits "1970-+1-01" instant := by
  refine ⟨rfl, rfl, ?_⟩
  rintro ⟨instant, fields⟩
  obtain ⟨field, eq, digits⟩ := fields.month
  cases (show slice (bytesOf "1970-+1-01") 5 7 = some [0x2b, 0x31] from rfl).symm.trans eq
  exact not_hasSign_of_digits digits (.inl rfl)

end Eventd
