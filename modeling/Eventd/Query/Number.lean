import Eventd.Query.Value

/-!
# Numbers compare exactly

`numeric_cmp` of `eventd/src/query/value.rs` compares signed and unsigned integers and
binary64 numbers with each other, through conversions that look lossy.  They lose nothing
where they are used: the result is the order of the values on the extended real line, with
every NaN after the infinities.

* `Value.real`: the value of a number;
* `numericCmp_eq`: the comparison is exact; `numericCmp_eq_none`: other values have none.
-/

namespace Eventd

open Binary64

/-- The value of a number; every NaN is one value after all others. -/
noncomputable def Value.real : Value → Option (WithTop EReal)
  | .signed n => some (((n.toInt : ℝ) : EReal) : WithTop EReal)
  | .unsigned n => some (((n.toNat : ℝ) : EReal) : WithTop EReal)
  | .float x => some (if x.isNan then ⊤ else (x.toEReal : WithTop EReal))
  | _ => none

/-- The three kinds of number. -/
inductive Value.IsNumeric : Value → Prop
  | signed (n : Int64) : IsNumeric (.signed n)
  | unsigned (n : UInt64) : IsNumeric (.unsigned n)
  | float (x : Binary64) : IsNumeric (.float x)

theorem Value.isNumeric_of_real {v : Value} {r : WithTop EReal} (number : v.real = some r) :
    v.IsNumeric := by
  cases v with
  | signed n => exact .signed n
  | unsigned n => exact .unsigned n
  | float x => exact .float x
  | null | bool | string | binary | array | map => cases number

/-- The value of a number that is not a NaN in units of `2 ^ (-1074)`. -/
def Value.units : Value → ℤ
  | .signed n => n.toInt * unit
  | .unsigned n => n.toNat * unit
  | .float x => x.scaled
  | _ => 0

section Mixed

variable {x : Binary64}

theorem lt_iff {x y : Binary64} (nan : x.isNan = false) (nan' : y.isNan = false) :
    x.lt y = true ↔ x.scaled < y.scaled := by
  unfold Binary64.lt partialCmp
  simp [nan, nan', compare_lt_iff_lt]

theorem ge_iff {x y : Binary64} (nan : x.isNan = false) (nan' : y.isNan = false) :
    x.ge y = true ↔ y.scaled ≤ x.scaled := by
  unfold Binary64.ge partialCmp
  rw [nan, nan']
  rcases lt_trichotomy x.scaled y.scaled with less | same | more
  · simp [compare_lt_iff_lt.2 less, less]
  · simp [same]
  · simp [compare_gt_iff_gt.2 more, more.le]

/-- Between bounds, an integer compares exactly with a number. -/
theorem compareTruncated_eq (nan : x.isNan = false) {low high : ℤ}
    (bounds : -2 ^ 127 ≤ low ∧ high ≤ 2 ^ 127) (lower : low * unit ≤ x.scaled)
    (till : x.scaled < high * unit) (z : ℤ) :
    compareTruncated z x = compare (z * unit) x.scaled := by
  have pos : (0 : ℤ) < unit := Int.natCast_pos.2 unit_pos
  obtain ⟨below, above⟩ := x.truncate_bounds
  have least : low ≤ x.truncate := by
    have : low * unit < (x.truncate + 1) * unit := by
      rw [add_mul, one_mul]
      omega
    have := lt_of_mul_lt_mul_right this pos.le
    omega
  have most : x.truncate ≤ high := by
    have : (x.truncate - 1) * unit < high * unit := by
      rw [sub_mul, one_mul]
      omega
    have := lt_of_mul_lt_mul_right this pos.le
    omega
  have small : x.truncate.natAbs < 2 ^ 128 := by omega
  rw [← compare_truncate small]
  unfold compareTruncated
  cases order : compare z x.truncate with
  | lt => rfl
  | gt => rfl
  | eq =>
    have same := compare_eq_iff_eq.1 order
    unfold partialCmp
    rw [nan, same, isNan_ofInt small x.exact_truncate]
    rfl

/-- An integer that binary64 has. -/
def IsExact (z : ℤ) : Prop := (ofInt z).scaled = z * unit ∧ (ofInt z).isNan = false

/-- The bounds of the integer types are powers of two. -/
theorem isExact_pow (k : ℕ) (small : k < 128) {z : ℤ} (abs : z.natAbs = 1 * 2 ^ k) : IsExact z := by
  have less : z.natAbs < 2 ^ 128 := by
    rw [abs, one_mul]
    exact Nat.pow_lt_pow_right (by decide) small
  exact ⟨scaled_ofInt less ⟨1, k, abs, by decide⟩, isNan_ofInt less ⟨1, k, abs, by decide⟩⟩

/-- An integer of a type compares exactly with any number. -/
theorem compareWithin_eq (nan : x.isNan = false) {low high z : ℤ}
    (bounds : -2 ^ 127 ≤ low ∧ high ≤ 2 ^ 127) (lowest : IsExact low) (highest : IsExact high)
    (least : low ≤ z) (most : z < high) :
    (if x.lt (ofInt low) then .gt
      else if x.ge (ofInt high) then .lt
      else compareTruncated z x) = compare (z * unit) x.scaled := by
  have pos : (0 : ℤ) < unit := Int.natCast_pos.2 unit_pos
  have above : low * (unit : ℤ) ≤ z * unit := mul_le_mul_of_nonneg_right least pos.le
  have below : z * (unit : ℤ) < high * unit := mul_lt_mul_of_pos_right most pos
  simp only [lt_iff nan lowest.2, ge_iff nan highest.2, lowest.1, highest.1]
  split_ifs with under above
  · exact (compare_gt_iff_gt.2 (under.trans_le above)).symm
  · exact (compare_lt_iff_lt.2 (below.trans_le above)).symm
  · exact compareTruncated_eq nan bounds (not_lt.1 under) (not_le.1 above) z

theorem compareI64Float_eq (nan : x.isNan = false) (n : Int64) :
    compareI64Float n x = compare (n.toInt * unit) x.scaled :=
  compareWithin_eq nan (by decide) (isExact_pow 63 (by decide) rfl) (isExact_pow 63 (by decide) rfl)
    n.le_toInt n.toInt_lt

theorem compareU64Float_eq (nan : x.isNan = false) (n : UInt64) :
    compareU64Float n x = compare ((n.toNat : ℤ) * unit) x.scaled := by
  have most : n.toNat < 2 ^ 64 := n.toNat_lt
  refine compareWithin_eq nan (by decide) ?_ (isExact_pow 64 (by decide) rfl) (by omega) (by omega)
  exact ⟨scaled_ofInt (by decide) ⟨0, 0, rfl, by decide⟩, isNan_ofInt (by decide) ⟨0, 0, rfl, by decide⟩⟩

end Mixed

/-! ### Any two numbers -/

theorem compare_mul_unit (m n : ℤ) : compare (m * unit) (n * unit) = compare m n := by
  have mono : StrictMono fun m : ℤ => m * unit :=
    fun _ _ less => mul_lt_mul_of_pos_right less (Int.natCast_pos.2 unit_pos)
  rw [← cmp_eq_compare, ← cmp_eq_compare]
  exact mono.cmp_map_eq m n

variable {a b : Value}

/-- Numbers that are no NaNs compare by their values. -/
theorem numericCmp_units (number : a.isNumber = true) (number' : b.isNumber = true)
    (nan : a.isNan = false) (nan' : b.isNan = false) :
    numericCmp a b = some (compare a.units b.units) := by
  have swap (m n : ℤ) : (compare m n).swap = compare n m := Int.compare_swap m n
  have cast (m n : ℕ) : compare (m : ℤ) n = compare m n := by
    rw [← cmp_eq_compare, ← cmp_eq_compare]
    exact Nat.strictMono_cast.cmp_map_eq m n
  have mixed (s : Int64) (u : UInt64) : compareI64U64 s u = compare s.toInt (u.toNat : ℤ) := by
    unfold compareI64U64
    split_ifs with negative
    · exact (compare_lt_iff_lt.2 (by omega)).symm
    · rw [← cast, Int.toNat_of_nonneg (by omega)]
  unfold numericCmp
  rw [nan, nan']
  cases a with
  | signed m =>
    cases b with
    | signed n => exact congrArg some (compare_mul_unit ..).symm
    | unsigned n => exact congrArg some ((mixed m n).trans (compare_mul_unit ..).symm)
    | float x => exact congrArg some (compareI64Float_eq nan' m)
    | _ => cases number'
  | unsigned m =>
    cases b with
    | signed n =>
      refine congrArg some ?_
      rw [mixed, swap]
      exact (compare_mul_unit ..).symm
    | unsigned n => exact congrArg some ((compare_mul_unit ..).trans (cast ..)).symm
    | float x => exact congrArg some (compareU64Float_eq nan' m)
    | _ => cases number'
  | float x =>
    cases b with
    | signed n =>
      refine congrArg some ?_
      rw [compareI64Float_eq nan n, swap]
      rfl
    | unsigned n =>
      refine congrArg some ?_
      rw [compareU64Float_eq nan n, swap]
      rfl
    | float y =>
      show x.partialCmp y = _
      unfold partialCmp
      rw [show x.isNan = false from nan, show y.isNan = false from nan']
      rfl
    | _ => cases number'
  | _ => cases number

theorem numericCmp_nan (number : a.isNumber = true) (number' : b.isNumber = true)
    (nan : a.isNan = true ∨ b.isNan = true) : numericCmp a b = some (compare a.isNan b.isNan) := by
  unfold numericCmp
  rw [number, number', if_pos (by simpa using nan)]
  rfl

theorem units_le_infinite (nan : a.isNan = false) : a.units.natAbs ≤ infinite := by
  match a with
  | .signed n =>
    have := n.le_toInt
    have := n.toInt_lt
    exact (near_int (by omega)).le
  | .unsigned n =>
    have : n.toNat < 2 ^ 64 := n.toNat_lt
    exact (near_int (by omega)).le
  | .float x => exact natAbs_scaled_le nan
  | .null | .bool _ | .string _ | .binary _ | .array _ | .map _ => exact Nat.zero_le _

/-- The value of a number is what its units say. -/
theorem real_eq (number : a.isNumber = true) (nan : a.isNan = false) :
    a.real = some (atUnits a.units : WithTop EReal) := by
  match a with
  | .signed n =>
    have := n.le_toInt
    have := n.toInt_lt
    unfold Value.real Value.units
    rw [atUnits_int (by omega)]
  | .unsigned n =>
    have : n.toNat < 2 ^ 64 := n.toNat_lt
    unfold Value.real Value.units
    rw [atUnits_int (by omega)]
    rfl
  | .float x =>
    have nan : x.isNan = false := nan
    show some (if x.isNan = true then (⊤ : WithTop EReal) else x.toEReal) =
      some (atUnits x.scaled : WithTop EReal)
    rw [atUnits_scaled nan, nan]
    rfl

/-- **The comparison of numbers is exact.** -/
theorem numericCmp_eq {r s : WithTop EReal} (first : a.real = some r) (second : b.real = some s) :
    numericCmp a b = some (cmp r s) := by
  have number {a : Value} {r : WithTop EReal} (has : a.real = some r) : a.isNumber = true := by
    cases a.isNumeric_of_real has <;> rfl
  have top {a : Value} {r : WithTop EReal} (has : a.real = some r) (nan : a.isNan = true) : r = ⊤ := by
    cases a.isNumeric_of_real has with
    | float x =>
      have nan : x.isNan = true := nan
      rw [Value.real, if_pos nan] at has
      exact (Option.some.inj has).symm
    | signed | unsigned => cases nan
  have below {a : Value} {r : WithTop EReal} (has : a.real = some r) (nan : a.isNan = false) : r < ⊤ := by
    rw [real_eq (number has) nan] at has
    rw [← Option.some.inj has]
    exact WithTop.coe_lt_top _
  cases nan : a.isNan with
  | true =>
    rw [numericCmp_nan (number first) (number second) (.inl nan), nan, top first nan]
    cases nan' : b.isNan with
    | true => rw [top second nan', cmp_self_eq_eq, compare_eq_iff_eq.2 rfl]
    | false =>
      rw [(cmp_eq_gt_iff _ _).2 (below second nan')]
      rfl
  | false =>
    cases nan' : b.isNan with
    | true =>
      rw [numericCmp_nan (number first) (number second) (.inr nan'), nan, nan', top second nan',
        (cmp_eq_lt_iff _ _).2 (below first nan)]
      rfl
    | false =>
      rw [numericCmp_units (number first) (number second) nan nan']
      rw [real_eq (number first) nan] at first
      rw [real_eq (number second) nan'] at second
      rw [← Option.some.inj first, ← Option.some.inj second, WithTop.coe_strictMono.cmp_map_eq,
        strictMonoOn_atUnits.cmp_map_eq (units_le_infinite nan) (units_le_infinite nan'),
        cmp_eq_compare]

theorem numericCmp_eq_none (other : a.real = none ∨ b.real = none) :
    numericCmp a b = none := by
  have not_number {a : Value} (none : a.real = none) : a.isNumber = false ∧ a.isNan = false := by
    match a with
    | .signed _ | .unsigned _ | .float _ => cases none
    | .null | .bool _ | .string _ | .binary _ | .array _ | .map _ => exact ⟨rfl, rfl⟩
  unfold numericCmp
  split_ifs with nan number
  · rcases other with none | none
    · simp [(not_number none).1] at number
    · simp [(not_number none).1] at number
  · rfl
  · rcases other with none | none
    · cases a with
      | signed | unsigned | float => cases none
      | null | bool | string | binary | array | map => rfl
    · cases b with
      | signed | unsigned | float => cases none
      | null | bool | string | binary | array | map => cases a <;> rfl

end Eventd
