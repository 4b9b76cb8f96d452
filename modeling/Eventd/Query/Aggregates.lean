import Eventd.Query.Order

/-!
# Aggregates of numbers

What `Numeric` of `eventd/src/query/executor.rs` makes of a whole group, whatever the order
in which its values come.

* `Value.integer`, `Numeric.Tracks`: the exact accumulator against the mathematical sum;
* `Extreme`, `Kept`: the least and the greatest number so far;
* `numeric_finish`: the four functions over a group.
-/

namespace Eventd

open Option List

theorem real_of_isNumber {value : Value} (number : value.isNumber = true) :
    ∃ r, value.real = some r := by
  cases value with
  | signed | unsigned | float => exact ⟨_, rfl⟩
  | null | bool | string | binary | array | map => cases number

theorem integer_bounds {value : Value} {n : ℤ} (eq : value.integer = some n) :
    -2 ^ 63 ≤ n ∧ n < 2 ^ 64 := by
  cases value with
  | signed z =>
    obtain rfl := Option.some.inj eq
    have low := z.le_toInt
    have high := z.toInt_lt
    omega
  | unsigned z =>
    obtain rfl := Option.some.inj eq
    have high := z.toNat_lt
    omega
  | null | bool | float | string | binary | array | map => cases eq

namespace Numeric

variable {numeric : Numeric} {values : List Value} {value : Value}

theorem push_of_not_isNumber (other : value.isNumber = false) : numeric.push value = numeric := by
  cases value with
  | signed | unsigned | float => cases other
  | null | bool | string | binary | array | map => rfl

/-- **Values that are not numbers are ignored.** -/
theorem foldl_push_filter (numeric : Numeric) (values : List Value) :
    values.foldl push numeric = (values.filter Value.isNumber).foldl push numeric := by
  induction values generalizing numeric with
  | nil => rfl
  | cons value values ih =>
    cases number : value.isNumber with
    | true =>
      rw [filter_cons_of_pos number, foldl_cons, foldl_cons]
      exact ih _
    | false =>
      rw [filter_cons_of_neg (by simp [number]), foldl_cons,
        push_of_not_isNumber number]
      exact ih _

/-! ### Sums -/

/-- The accumulator follows the sum of the integers so far.  It can be lost only when so many
large ones have come that those still to be counted cannot bring the sum back: fewer than
`2 ^ 64` are counted in all. -/
structure Tracks (numeric : Numeric) (sum : ℤ) : Prop where
  float : numeric.float = false
  low : -(numeric.count * 2 ^ 63) ≤ sum
  high : sum ≤ numeric.count * (2 ^ 64 - 1)
  exact : numeric.exact = some sum ∨
    numeric.exact = none ∧ 2 ^ 127 ≤ sum + (numeric.count - 2 ^ 63 - 1) * 2 ^ 63

theorem push_of_integer {n : ℤ} (eq : value.integer = some n) :
    (numeric.push value).float = numeric.float ∧
      (numeric.push value).count = numeric.count + 1 ∧
        (numeric.push value).exact = numeric.exact.bind fun sum => checkedI128 (sum + n) := by
  cases value with
  | signed | unsigned =>
    obtain rfl := Option.some.inj eq
    exact ⟨rfl, rfl, rfl⟩
  | null | bool | float | string | binary | array | map => cases eq

theorem Tracks.push {sum n : ℤ} (tracks : numeric.Tracks sum) (eq : value.integer = some n)
    (room : numeric.count + 1 < 2 ^ 64) : (numeric.push value).Tracks (sum + n) := by
  obtain ⟨float, count, exact⟩ := @push_of_integer numeric _ _ eq
  obtain ⟨above, below⟩ := integer_bounds eq
  have low := tracks.low
  have high := tracks.high
  refine ⟨float.trans tracks.float, ?_, ?_, ?_⟩
  · rw [count]
    push_cast
    omega
  · rw [count]
    push_cast
    omega
  rw [exact, count]
  push_cast
  rcases tracks.exact with here | ⟨lost, far⟩
  · rw [here, bind_some]
    unfold checkedI128
    by_cases fits : -2 ^ 127 ≤ sum + n ∧ sum + n < 2 ^ 127
    · rw [if_pos fits]
      exact .inl rfl
    · -- too small it cannot be, and for being too large more than `2 ^ 63` are needed
      rw [if_neg fits]
      exact .inr ⟨rfl, by omega⟩
  · rw [lost, bind_none]
    exact .inr ⟨rfl, by omega⟩

theorem Tracks.foldl_push {sum : ℤ} (tracks : numeric.Tracks sum)
    (integers : ∀ value ∈ values, (value.integer).isSome)
    (room : numeric.count + values.length < 2 ^ 64) :
    (values.foldl Numeric.push numeric).Tracks (sum + (values.filterMap Value.integer).sum) := by
  induction values generalizing numeric sum with
  | nil => simpa using tracks
  | cons value values ih =>
    rw [forall_mem_cons] at integers
    obtain ⟨n, eq⟩ := isSome_iff_exists.1 integers.1
    rw [length_cons] at room
    have next := tracks.push eq (by omega)
    have count := (@push_of_integer numeric _ _ eq).2.1
    rw [foldl_cons, filterMap_cons_some eq, sum_cons, ← add_assoc]
    exact ih next integers.2 (by omega)

/-- A sum that fits one of the two types has not been lost. -/
theorem Tracks.exactSum {sum : ℤ} (tracks : numeric.Tracks sum) (room : numeric.count < 2 ^ 64)
    (fits : -2 ^ 63 ≤ sum ∧ sum < 2 ^ 64) :
    ∃ result, numeric.exactSum = some result ∧ result.integer = some sum := by
  rcases tracks.exact with here | ⟨-, far⟩
  · unfold Numeric.exactSum
    rw [tracks.float, here]
    by_cases signed : -2 ^ 63 ≤ sum ∧ sum < 2 ^ 63
    · refine ⟨.signed (.ofInt sum), if_pos signed, ?_⟩
      rw [Value.integer, Int64.toInt_ofInt_of_le signed.1 signed.2]
    · have positive : 0 ≤ sum ∧ sum < 2 ^ 64 := by omega
      refine ⟨.unsigned (.ofNat sum.toNat), (if_neg signed).trans (if_pos positive), ?_⟩
      rw [Value.integer, UInt64.toNat_ofNat_of_lt' (by simpa using by omega),
        Int.toNat_of_nonneg positive.1]
  · omega

/-! ### The least and the greatest -/

/-- What is kept of the numbers so far: one of them, and no other is before it. -/
def Extreme (before : WithTop EReal → WithTop EReal → Prop) (kept : Option Value)
    (numbers : List Value) : Prop :=
  match kept with
  | none => numbers = []
  | some value => value ∈ numbers ∧ ∃ r, value.real = some r ∧
      ∀ other ∈ numbers, ∀ s, other.real = some s → before r s

/-- A number takes the place of the one kept if it comes before it. -/
theorem Extreme.push {before : WithTop EReal → WithTop EReal → Prop} [Std.Refl before]
    [IsTrans _ before] {kept : Option Value} {numbers : List Value}
    (extreme : Extreme before kept numbers) {r : WithTop EReal} (number : value.real = some r)
    {takes : Value → Bool}
    (decides : ∀ other s, other.real = some s →
      if takes other = true then before r s else before s r) :
    Extreme before (if kept.all takes then some value else kept) (numbers ++ [value]) := by
  have here : ∀ other ∈ [value], ∀ s, other.real = some s → s = r := by
    intro other mem s eq
    rw [mem_singleton.1 mem, number] at eq
    exact (Option.some.inj eq).symm
  cases kept with
  | none =>
    obtain rfl : numbers = [] := extreme
    refine ⟨by simp, r, number, fun other mem s eq => ?_⟩
    rw [here other mem s eq]
    exact refl r
  | some least =>
    obtain ⟨mem, t, is_least, all⟩ := extreme
    have decided := decides least t is_least
    rw [all_some]
    by_cases taken : takes least = true
    · rw [if_pos taken] at decided ⊢
      refine ⟨by simp, r, number, fun other mem s eq => ?_⟩
      rcases mem_append.1 mem with mem | mem
      · exact IsTrans.trans _ _ _ decided (all other mem s eq)
      · rw [here other mem s eq]
        exact refl r
    · rw [if_neg taken] at decided ⊢
      refine ⟨mem_append_left _ mem, t, is_least, fun other mem s eq => ?_⟩
      rcases mem_append.1 mem with mem | mem
      · exact all other mem s eq
      · rw [here other mem s eq]
        exact decided

/-- What is kept of the numbers that were pushed: the least, the greatest and their count. -/
structure Kept (numeric : Numeric) (numbers : List Value) : Prop where
  least : Extreme (· ≤ ·) numeric.least numbers
  most : Extreme (· ≥ ·) numeric.most numbers
  count : numeric.count = numbers.length

theorem Kept.push {numbers : List Value} (kept : numeric.Kept numbers)
    (number : value.isNumber = true) : (numeric.push value).Kept (numbers ++ [value]) := by
  obtain ⟨r, eq⟩ := real_of_isNumber number
  have pushed : (numeric.push value).least = (numeric.counting value).least ∧
      (numeric.push value).most = (numeric.counting value).most ∧
        (numeric.push value).count = numeric.count + 1 := by
    cases value with
    | signed | unsigned | float => exact ⟨rfl, rfl, rfl⟩
    | null | bool | string | binary | array | map => cases number
  refine ⟨?_, ?_, by rw [pushed.2.2, kept.count, length_append, length_singleton]⟩
  · rw [pushed.1]
    refine kept.least.push eq fun other s is_other => ?_
    simp only [numericCmp_eq eq is_other, beq_iff_eq, Option.some.injEq, cmp_eq_lt_iff]
    split_ifs with less
    · exact less.le
    · exact not_lt.1 less
  · rw [pushed.2.1]
    refine kept.most.push eq fun other s is_other => ?_
    simp only [numericCmp_eq eq is_other, bne_iff_ne, ne_eq, Option.some.injEq, cmp_eq_lt_iff]
    split_ifs with less
    · exact less.le
    · exact not_lt.1 less

theorem kept_foldl_push (values : List Value) :
    (values.foldl Numeric.push new).Kept (values.filter Value.isNumber) := by
  induction values using List.reverseRecOn with
  | nil => exact ⟨rfl, rfl, rfl⟩
  | append_singleton values value ih =>
    rw [foldl_append, filter_append, foldl_cons, foldl_nil]
    cases number : value.isNumber with
    | true =>
      rw [filter_cons_of_pos number]
      exact ih.push number
    | false =>
      rw [filter_cons_of_neg (by simp [number]), filter_nil, append_nil,
        push_of_not_isNumber number]
      exact ih

theorem filter_isNumber_ne_nil (any : ∃ value ∈ values, value.isNumber = true) :
    values.filter Value.isNumber ≠ [] := by
  obtain ⟨value, mem, number⟩ := any
  exact ne_nil_of_mem (mem_filter.2 ⟨mem, number⟩)

/-- What is kept is one of the numbers, and first by the order of values. -/
theorem Extreme.languageCmp {before : WithTop EReal → WithTop EReal → Prop} {kept : Option Value}
    (extreme : Extreme before kept (values.filter Value.isNumber))
    (any : ∃ value ∈ values, value.isNumber = true) (text : DebugText) :
    ∃ value ∈ values, value.isNumber = true ∧ kept = some value ∧
      ∀ other ∈ values, other.isNumber = true →
        ∃ r s, value.languageCmp text other = cmp r s ∧ before r s := by
  cases kept with
  | none => exact absurd extreme (filter_isNumber_ne_nil any)
  | some value =>
    obtain ⟨mem, r, eq, extreme⟩ := extreme
    obtain ⟨mem, number⟩ := mem_filter.1 mem
    refine ⟨value, mem, number, rfl, fun other mem number => ?_⟩
    obtain ⟨s, is_other⟩ := real_of_isNumber number
    exact ⟨r, s, languageCmp_number eq is_other,
      extreme other (mem_filter.2 ⟨mem, number⟩) s is_other⟩

theorem count_ne_zero (any : ∃ value ∈ values, value.isNumber = true) :
    (values.foldl push new).count ≠ 0 := by
  rw [(kept_foldl_push values).count]
  exact (length_pos_iff.2 (filter_isNumber_ne_nil any)).ne'

/-- **The sum of integers is exact**, wherever it goes on the way. -/
theorem finish_sum (room : (values.filter Value.isNumber).length < 2 ^ 64)
    (any : ∃ value ∈ values, value.isNumber = true)
    (integers : ∀ value ∈ values, value.isNumber = true → value.integer.isSome)
    (fits : -2 ^ 63 ≤ (values.filterMap Value.integer).sum ∧
      (values.filterMap Value.integer).sum < 2 ^ 64) :
    ∃ result, (values.foldl push new).finish .sum = .ok result ∧
      result.integer = some (values.filterMap Value.integer).sum := by
  have same : (values.filter Value.isNumber).filterMap Value.integer =
      values.filterMap Value.integer := by
    rw [filterMap_filter]
    refine filterMap_congr fun value _ => ?_
    cases value <;> rfl
  have start : new.Tracks 0 := ⟨rfl, by decide, by decide, .inl rfl⟩
  have run := start.foldl_push (fun value mem => integers value (mem_of_mem_filter mem)
    (mem_filter.1 mem).2) ((Nat.zero_add _).trans_lt room)
  rw [same, zero_add, ← foldl_push_filter] at run
  obtain ⟨result, exact_, eq⟩ := run.exactSum ((kept_foldl_push values).count.trans_lt room) fits
  refine ⟨result, ?_, eq⟩
  unfold Numeric.finish
  rw [if_neg (count_ne_zero any)]
  simp only [exact_, elim_some]

end Numeric

open Numeric

/-- **The aggregates of a group.**  Only its numbers count; a sum of integers that fits is exact in
every order, if a `usize` counts them; the least and the greatest are so by the order of values;
without a number there is none. -/
theorem numeric_finish (text : DebugText) (values : List Value) :
    values.foldl push new = (values.filter Value.isNumber).foldl push new ∧
    ((values.filter Value.isNumber).length < 2 ^ 64 →
      (∃ value ∈ values, value.isNumber = true) →
      (∀ value ∈ values, value.isNumber = true → value.integer.isSome) →
      -2 ^ 63 ≤ (values.filterMap Value.integer).sum ∧
        (values.filterMap Value.integer).sum < 2 ^ 64 →
      ∀ order : List Value, order.Perm values →
        ∃ result, (order.foldl push new).finish .sum = .ok result ∧
          result.integer = some (values.filterMap Value.integer).sum) ∧
    ((∃ value ∈ values, value.isNumber = true) →
      (∃ least ∈ values, least.isNumber = true ∧
        (values.foldl push new).finish .min = .ok least ∧
        ∀ other ∈ values, other.isNumber = true → least.languageCmp text other ≠ .gt) ∧
      ∃ most ∈ values, most.isNumber = true ∧
        (values.foldl push new).finish .max = .ok most ∧
        ∀ other ∈ values, other.isNumber = true → most.languageCmp text other ≠ .lt) ∧
    ((∀ value ∈ values, value.isNumber = false) →
      ∀ function, (values.foldl push new).finish function = .ok .null) := by
  refine ⟨foldl_push_filter new values, ?_, fun any => ?_, fun noNumber function => ?_⟩
  · intro room any integers fits order perm
    rw [← (perm.filterMap Value.integer).sum_eq] at fits ⊢
    obtain ⟨value, mem, number⟩ := any
    exact finish_sum (by rwa [(perm.filter Value.isNumber).length_eq])
      ⟨value, perm.symm.subset mem, number⟩ (fun value mem => integers value (perm.subset mem)) fits
  · obtain ⟨least, most, -⟩ := kept_foldl_push values
    simp only [Numeric.finish, if_neg (count_ne_zero any)]
    constructor
    · obtain ⟨value, mem, number, kept, first⟩ := least.languageCmp any text
      refine ⟨value, mem, number, by rw [kept, getD_some], fun other mem number => ?_⟩
      obtain ⟨r, s, eq, le⟩ := first other mem number
      rw [eq, Ne, cmp_eq_gt_iff]
      exact not_lt.2 le
    · obtain ⟨value, mem, number, kept, first⟩ := most.languageCmp any text
      refine ⟨value, mem, number, by rw [kept, getD_some], fun other mem number => ?_⟩
      obtain ⟨r, s, eq, le⟩ := first other mem number
      rw [eq, Ne, cmp_eq_lt_iff]
      exact not_lt.2 le
  · have nil : values.filter Value.isNumber = [] :=
      filter_eq_nil_iff.2 fun value mem => by simp [noNumber value mem]
    rw [foldl_push_filter, nil]
    rfl

/-- A sum that leaves both ranges on the way, past a text that is not counted. -/
theorem numeric_finish_leaving :
    ∃ result, ([.unsigned 0xffffffffffffffff, .string "x", .unsigned 1, .signed (-1)].foldl push
      new).finish .sum = .ok result ∧ result.integer = some 0xffffffffffffffff :=
  (numeric_finish default [.unsigned 0xffffffffffffffff, .string "x", .unsigned 1,
    .signed (-1)]).2.1 (by decide) ⟨.signed (-1), by simp, rfl⟩
    (by simp [Value.isNumber, Value.integer]) (by decide) _ (.refl _)

end Eventd
