import Eventd.Query.Equality

/-!
# The key under which a group is looked for

`GroupKey` of `eventd/src/query/executor.rs`.  Values that are language equal are meant to
share a key.  They do unless they hold NaNs: every NaN is equal to every other, and its key
is its bits.

* `GroupKey`, `GroupKey.of`;
* `Value.nans`: the bits of the NaNs in a value, in order;
* `groupKey_eq_iff`: language-equal values share a key if and only if their NaNs have the
  same bits.
-/

namespace Eventd

open List Binary64

/-- A hash key of a value. -/
inductive GroupKey
  | null
  | bool (value : Bool)
  | number (bits : UInt64)
  | text (folded : List UInt8)
  | binary (value : List UInt8)
  | array (keys : List GroupKey)
  | map (keys : List GroupKey)

/-! ### Equality of keys is decidable -/

mutual

def GroupKey.same : GroupKey → GroupKey → Bool
  | .null, .null => true
  | .bool a, .bool b => a == b
  | .number a, .number b => a == b
  | .text a, .text b | .binary a, .binary b => a == b
  | .array as, .array bs | .map as, .map bs => sameKeys as bs
  | _, _ => false

def sameKeys : List GroupKey → List GroupKey → Bool
  | [], [] => true
  | a :: as, b :: bs => a.same b && sameKeys as bs
  | _, _ => false

end

mutual

theorem GroupKey.same_iff : ∀ a b : GroupKey, a.same b = true ↔ a = b
  | .null, b | .bool _, b | .number _, b | .text _, b | .binary _, b => by
      cases b <;> simp [GroupKey.same]
  | .array as, b => by cases b <;> simp [GroupKey.same, sameKeys_iff as]
  | .map as, b => by cases b <;> simp [GroupKey.same, sameKeys_iff as]

theorem sameKeys_iff : ∀ as bs : List GroupKey, sameKeys as bs = true ↔ as = bs
  | [], bs => by cases bs <;> simp [sameKeys]
  | a :: as, bs => by cases bs <;> simp [sameKeys, GroupKey.same_iff a, sameKeys_iff as]

end

instance : DecidableEq GroupKey := fun a b => decidable_of_iff _ (GroupKey.same_iff a b)

/-! ### The key of a value -/

/-- The bits of a number, with the zeros as one. -/
def numberKey (number : Binary64) : UInt64 :=
  if number.partialCmp (.ofInt 0) == some .eq then 0 else number.bits

mutual

def GroupKey.of : Value → GroupKey
  | .null => .null
  | .bool value => .bool value
  | .signed value => .number (numberKey (Value.signed value).asF64)
  | .unsigned value => .number (numberKey (Value.unsigned value).asF64)
  | .float value => .number (numberKey value)
  | .string text => .text ((bytesOf text).map foldAscii)
  | .binary bytes => .binary bytes
  | .array values => .array (itemKeys values)
  | .map entries => .map (entryKeys entries)

def itemKeys : List Value → List GroupKey
  | [] => []
  | value :: values => GroupKey.of value :: itemKeys values

def entryKeys : List (Value × Value) → List GroupKey
  | [] => []
  | entry :: entries => GroupKey.of entry.1 :: GroupKey.of entry.2 :: entryKeys entries

end

/-! ### Numbers -/

mutual

/-- The bits of the NaNs in a value. -/
def Value.nans : Value → List UInt64
  | .float value => if value.isNan then [value.bits] else []
  | .array values => itemNans values
  | .map entries => entryNans entries
  | _ => []

def itemNans : List Value → List UInt64
  | [] => []
  | value :: values => value.nans ++ itemNans values

def entryNans : List (Value × Value) → List UInt64
  | [] => []
  | entry :: entries => entry.1.nans ++ (entry.2.nans ++ entryNans entries)

end

theorem numberKey_nan {x : Binary64} (nan : x.isNan = true) : numberKey x = x.bits := by
  unfold numberKey partialCmp
  simp [nan]

/-- Numbers that are no NaNs and have one value have one key. -/
theorem numberKey_scaled {x y : Binary64} (nan : x.isNan = false) (nan' : y.isNan = false)
    (same : x.scaled = y.scaled) : numberKey x = numberKey y := by
  have zero : (ofInt 0).scaled = 0 := by
    have := scaled_ofInt (z := 0) (by decide) ⟨0, 0, rfl, by decide⟩
    rwa [zero_mul] at this
  have zeroNan : (ofInt 0).isNan = false := isNan_ofInt (by decide) ⟨0, 0, rfl, by decide⟩
  have key {x : Binary64} (nan : x.isNan = false) :
      numberKey x = if x.scaled = 0 then 0 else x.bits := by
    unfold numberKey partialCmp
    rw [nan, zeroNan, zero]
    simp
  rw [key nan, key nan', ← same]
  by_cases origin : x.scaled = 0
  · rw [if_pos origin, if_pos origin]
  · rw [if_neg origin, if_neg origin, eq_of_scaled same origin]

variable {r : WithTop EReal} {v a b : Value}

/-- A number is an integer of at most 64 bits or a float. -/
theorem integer_or_float (number : v.real = some r) :
    (∃ z : ℤ, z.natAbs < 2 ^ 128 ∧ v.asF64 = ofInt z ∧ v.units = z * unit ∧ v.isNan = false ∧
      v.nans = []) ∨ ∃ x, v = .float x := by
  cases v.isNumeric_of_real number with
  | signed n =>
    have := n.le_toInt
    have := n.toInt_lt
    exact .inl ⟨n.toInt, by omega, rfl, rfl, rfl, rfl⟩
  | unsigned n =>
    have : n.toNat < 2 ^ 64 := n.toNat_lt
    exact .inl ⟨n.toNat, by omega, rfl, rfl, rfl, rfl⟩
  | float x => exact .inr ⟨x, rfl⟩

/-- An integer that a float is equal to is converted to that float, or to the other zero. -/
theorem numberKey_ofInt {z : ℤ} (small : z.natAbs < 2 ^ 128) {x : Binary64} (nan : x.isNan = false)
    (same : z * unit = x.scaled) : numberKey (ofInt z) = numberKey x := by
  have truncated : x.truncate = z := by
    unfold truncate
    rw [← same]
    exact Int.mul_tdiv_cancel z (Int.natCast_pos.2 unit_pos).ne'
  have exact_ := x.exact_truncate
  rw [truncated] at exact_
  exact numberKey_scaled (isNan_ofInt small exact_) nan ((scaled_ofInt small exact_).trans same)

/-- Numbers of one value that are no NaNs. -/
theorem numberKey_units {s : WithTop EReal} (left : a.real = some r) (right : b.real = some s)
    (nan : a.isNan = false) (nan' : b.isNan = false) (same : a.units = b.units) :
    numberKey a.asF64 = numberKey b.asF64 := by
  rcases integer_or_float left with ⟨z, small, eq, units, -, -⟩ | ⟨x, rfl⟩ <;>
    rcases integer_or_float right with ⟨z', small', eq', units', -, -⟩ | ⟨y, rfl⟩
  · rw [units, units'] at same
    rw [eq, eq', mul_right_cancel₀ (Int.natCast_pos.2 unit_pos).ne' same]
  · rw [eq]
    exact numberKey_ofInt small nan' (units.symm.trans same)
  · rw [eq']
    exact (numberKey_ofInt small' nan (units'.symm.trans same.symm)).symm
  · exact numberKey_scaled nan nan' same

theorem groupKey_of_number (number : v.real = some r) :
    GroupKey.of v = .number (numberKey v.asF64) := by
  cases v.isNumeric_of_real number <;> rfl

theorem isNan_iff (number : v.real = some r) :
    v.isNan = true ↔ r = ⊤ := by
  cases v.isNumeric_of_real number with
  | signed | unsigned =>
    cases number
    simp [Value.isNan]
  | float x =>
    cases number
    cases nan : x.isNan <;> simp [Value.isNan, nan]

theorem nans_of_not_nan (number : v.real = some r) (nan : v.isNan = false) : v.nans = [] := by
  rcases integer_or_float number with ⟨z, -, -, -, -, none⟩ | ⟨x, rfl⟩
  · exact none
  · rw [Value.nans, if_neg (Bool.not_eq_true _ ▸ nan)]

theorem isNumber_of_real (number : v.real = some r) :
    v.isNumber = true := by
  cases v <;> first | rfl | cases number

theorem groupKey_number (left : a.real = some r) (right : b.real = some r) :
    GroupKey.of a = GroupKey.of b ↔ a.nans = b.nans := by
  rw [groupKey_of_number left, groupKey_of_number right, GroupKey.number.injEq]
  by_cases top : r = ⊤
  · have nan := (isNan_iff left).2 top
    have nan' := (isNan_iff right).2 top
    rcases integer_or_float left with ⟨z, -, -, -, not, -⟩ | ⟨x, rfl⟩
    · rw [nan] at not
      cases not
    rcases integer_or_float right with ⟨z, -, -, -, not, -⟩ | ⟨y, rfl⟩
    · rw [nan'] at not
      cases not
    rw [Value.nans, Value.nans, if_pos (show x.isNan = true from nan),
      if_pos (show y.isNan = true from nan'), singleton_inj, ← numberKey_nan nan, ← numberKey_nan nan']
    rfl
  · have nan : a.isNan = false := Bool.eq_false_iff.2 fun nan => top ((isNan_iff left).1 nan)
    have nan' : b.isNan = false := Bool.eq_false_iff.2 fun nan => top ((isNan_iff right).1 nan)
    have same := numericCmp_eq left right
    rw [numericCmp_units (isNumber_of_real left) (isNumber_of_real right) nan nan', cmp_self_eq_eq,
      Option.some_inj, compare_eq_iff_eq] at same
    rw [nans_of_not_nan left nan, nans_of_not_nan right nan']
    exact iff_of_true (numberKey_units left right nan nan' same) rfl

/-! ### All values -/

/-- Two values share a key just if their NaNs have the same bits, and have as many of them. -/
structure KeyedByNans (a b : Value) : Prop where
  keys : GroupKey.of a = GroupKey.of b ↔ a.nans = b.nans
  length : a.nans.length = b.nans.length

theorem keyedByNans_number (left : a.real = some r) (right : b.real = some r) :
    KeyedByNans a b := by
  refine ⟨groupKey_number left right, ?_⟩
  by_cases top : r = ⊤
  · have one {v : Value} (number : v.real = some r) : v.nans.length = 1 := by
      have nan := (isNan_iff number).2 top
      rcases integer_or_float number with ⟨z, -, -, -, not, -⟩ | ⟨x, rfl⟩
      · rw [nan] at not
        cases not
      · rw [Value.nans, if_pos (show x.isNan = true from nan), length_singleton]
    rw [one left, one right]
  · rw [nans_of_not_nan left (Bool.eq_false_iff.2 fun nan => top ((isNan_iff left).1 nan)),
      nans_of_not_nan right (Bool.eq_false_iff.2 fun nan => top ((isNan_iff right).1 nan))]

theorem append_inj_iff {α : Type*} {a b c d : List α} (length : a.length = b.length) :
    a ++ c = b ++ d ↔ a = b ∧ c = d :=
  ⟨fun same => append_inj same length, fun ⟨first, second⟩ => first ▸ second ▸ rfl⟩

theorem itemKeys_iff {as : List Value}
    (each : ∀ a ∈ as, ∀ b : Value, a.meaning = b.meaning → KeyedByNans a b) {bs : List Value}
    (same : meaningItems as = meaningItems bs) :
    (itemKeys as = itemKeys bs ↔ itemNans as = itemNans bs) ∧
      (itemNans as).length = (itemNans bs).length := by
  induction as generalizing bs with
  | nil =>
    cases bs with
    | nil => simp
    | cons b bs => simp [meaningItems] at same
  | cons a as ih =>
    obtain ⟨first, others⟩ := forall_mem_cons.1 each
    cases bs with
    | nil => simp [meaningItems] at same
    | cons b bs =>
      rw [meaningItems, meaningItems, List.cons.injEq] at same
      have here := first b same.1
      obtain ⟨keys, length⟩ := ih others same.2
      rw [itemKeys, itemKeys, itemNans, itemNans, List.cons.injEq, append_inj_iff here.length,
        here.keys, keys, length_append, length_append, here.length, length]
      exact ⟨Iff.rfl, rfl⟩

theorem entryKeys_iff {as : List (Value × Value)}
    (each : ∀ a ∈ as, (∀ b : Value, a.1.meaning = b.meaning → KeyedByNans a.1 b) ∧
      ∀ b : Value, a.2.meaning = b.meaning → KeyedByNans a.2 b) {bs : List (Value × Value)}
    (same : meaningEntries as = meaningEntries bs) :
    (entryKeys as = entryKeys bs ↔ entryNans as = entryNans bs) ∧
      (entryNans as).length = (entryNans bs).length := by
  induction as generalizing bs with
  | nil =>
    cases bs with
    | nil => simp
    | cons b bs => simp [meaningEntries] at same
  | cons a as ih =>
    obtain ⟨first, others⟩ := forall_mem_cons.1 each
    cases bs with
    | nil => simp [meaningEntries] at same
    | cons b bs =>
      rw [meaningEntries, meaningEntries, List.cons.injEq, Prod.mk.injEq] at same
      have key := first.1 b.1 same.1.1
      have value := first.2 b.2 same.1.2
      obtain ⟨keys, length⟩ := ih others same.2
      rw [entryKeys, entryKeys, entryNans, entryNans, List.cons.injEq, List.cons.injEq,
        append_inj_iff key.length, append_inj_iff value.length, key.keys, value.keys, keys]
      simp only [length_append, key.length, value.length, length, and_true]

/-- Values of one meaning. -/
theorem keyedByNans (same : a.meaning = b.meaning) : KeyedByNans a b := by
  induction a using Value.induct_members generalizing b with
  | _ a items entries =>
    cases sameMeaning same with
    | null | bool x | binary x => exact ⟨iff_of_true rfl rfl, rfl⟩
    | number left right => exact keyedByNans_number left right
    | string folded => exact ⟨iff_of_true (congrArg GroupKey.text folded) rfl, rfl⟩
    | array alike =>
      obtain ⟨keys, length⟩ := itemKeys_iff (fun a mem b => items _ rfl a mem) alike
      exact ⟨GroupKey.array.injEq _ _ ▸ keys, length⟩
    | map alike =>
      obtain ⟨keys, length⟩ := entryKeys_iff
        (fun a mem => ⟨fun b => (entries _ rfl a mem).1, fun b => (entries _ rfl a mem).2⟩) alike
      exact ⟨GroupKey.map.injEq _ _ ▸ keys, length⟩

/-- **Language-equal values share a key if and only if their NaNs have the same bits.** -/
theorem groupKey_eq_iff (equal : a.languageEqual b = true) :
    GroupKey.of a = GroupKey.of b ↔ a.nans = b.nans :=
  (keyedByNans (languageEqual_iff.1 equal)).keys

end Eventd
