import Mathlib.Tactic

/-!
# Binary64 numbers

IEEE 754 binary64 numbers by their bits.  Comparison is exact: every number that is not a
NaN is compared by its value in units of `2 ^ (-1074)`, an integer in which an infinity is
larger than every finite number.  Arithmetic is that of the machine.

* `Binary64`, `isNan`, `isFinite`, `scaled`: a number, its class and its value;
* `partialCmp`, `lt`, `ge`: comparison;
* `ofInt`, `truncate`: from and to integers;
* `scaled_ofInt`, `compare_truncate`: conversions that lose nothing;
* `toEReal`, `atUnits`: the numbers on the extended real line, in their order.
-/

/-- A binary64 number. -/
structure Binary64 where
  bits : UInt64
  deriving DecidableEq

namespace Binary64

/-- The unit of `scaled`: how many of them make one. -/
@[irreducible]
def unit : ℕ := 2 ^ 1074

def negative (x : Binary64) : Bool := decide (2 ^ 63 ≤ x.bits.toNat)

def exponent (x : Binary64) : ℕ := x.bits.toNat / 2 ^ 52 % 2 ^ 11

def fraction (x : Binary64) : ℕ := x.bits.toNat % 2 ^ 52

def isNan (x : Binary64) : Bool := decide (x.exponent = 2047 ∧ x.fraction ≠ 0)

def isFinite (x : Binary64) : Bool := decide (x.exponent ≠ 2047)

/-- The distance from zero in units of `2 ^ (-1074)`. -/
def magnitude (x : Binary64) : ℕ :=
  if x.exponent = 0 then x.fraction else (2 ^ 52 + x.fraction) * 2 ^ (x.exponent - 1)

/-- The value in units of `2 ^ (-1074)`. -/
def scaled (x : Binary64) : ℤ := if x.negative then -(x.magnitude : ℤ) else x.magnitude

/-- How two numbers compare, if neither is a NaN. -/
def partialCmp (x y : Binary64) : Option Ordering :=
  if x.isNan || y.isNan then none else some (compare x.scaled y.scaled)

def lt (x y : Binary64) : Bool := x.partialCmp y == some .lt

def ge (x y : Binary64) : Bool := x.partialCmp y == some .gt || x.partialCmp y == some .eq

/-- The integer part of a number: what is left when its fractional digits are cut off. -/
def truncate (x : Binary64) : ℤ := x.scaled.tdiv unit

/-! ### From integers -/

/-- Divide by a power of two, to the nearest integer; from halfway to the even one. -/
def roundShift (n shift : ℕ) : ℕ :=
  let quotient := n / 2 ^ shift
  let rest := 2 * (n % 2 ^ shift)
  if 2 ^ shift < rest ∨ rest = 2 ^ shift ∧ quotient % 2 = 1 then quotient + 1 else quotient

/-- The bits of the number nearest to a natural number, which is less than `2 ^ 1023`.  A
significand that rounds up to a power of two is carried into the exponent. -/
def natBits (n : ℕ) : ℕ :=
  if n = 0 then 0
  else if n.log2 ≤ 52 then (1022 + n.log2) * 2 ^ 52 + n * 2 ^ (52 - n.log2)
  else (1022 + n.log2) * 2 ^ 52 + roundShift n (n.log2 - 52)

/-- The number nearest to an integer. -/
def ofInt (n : ℤ) : Binary64 :=
  ⟨.ofNat (natBits n.natAbs + if n < 0 then 2 ^ 63 else 0)⟩

/-- The number that a binary32 number is.  One that is too small to have a leading one bit of its
own gets one. -/
def ofSingle (bits : ℕ) : Binary64 :=
  let sign := bits / 2 ^ 31 % 2 * 2 ^ 63
  let exponent := bits / 2 ^ 23 % 2 ^ 8
  let fraction := bits % 2 ^ 23
  if exponent = 255 then ⟨.ofNat (sign + 2047 * 2 ^ 52 + fraction * 2 ^ 29)⟩
  else if exponent ≠ 0 then ⟨.ofNat (sign + (exponent + 896) * 2 ^ 52 + fraction * 2 ^ 29)⟩
  else if fraction = 0 then ⟨.ofNat sign⟩
  else ⟨.ofNat (sign + (873 + fraction.log2) * 2 ^ 52 + fraction * 2 ^ (52 - fraction.log2))⟩

/-! ### Exact integers -/

section Exact

variable {n : ℕ}

/-- A number put together from an exponent and a significand with its leading bit. -/
theorem magnitude_of_bits {x : Binary64} {exponent significand : ℕ} (low : 2 ^ 52 ≤ significand)
    (high : significand < 2 ^ 53) (normal : exponent < 2046)
    (bits : x.bits.toNat % 2 ^ 63 = exponent * 2 ^ 52 + significand) :
    x.magnitude = significand * 2 ^ exponent := by
  have whole : x.bits.toNat < 2 ^ 64 := x.bits.toNat_lt
  have exponent_eq : x.exponent = exponent + 1 := by
    unfold Binary64.exponent
    omega
  have fraction_eq : x.fraction = significand - 2 ^ 52 := by
    unfold fraction
    omega
  unfold magnitude
  rw [exponent_eq, fraction_eq, if_neg (Nat.succ_ne_zero _), Nat.add_sub_cancel,
    Nat.add_sub_of_le low]

theorem unit_eq : unit = 2 ^ 1074 := by
  unfold unit
  rfl

theorem natBits_bounds {n : ℕ} (pos : n ≠ 0) :
    2 ^ n.log2 ≤ n ∧ n < 2 ^ (n.log2 + 1) := ⟨Nat.log2_self_le pos, Nat.lt_log2_self⟩

theorem roundShift_of_dvd {shift : ℕ} (exact_ : 2 ^ shift ∣ n) : roundShift n shift = n / 2 ^ shift := by
  unfold roundShift
  rw [Nat.mod_eq_zero_of_dvd exact_]
  have pos : 0 < 2 ^ shift := Nat.two_pow_pos shift
  simp [pos.ne]

/-- The significand and the exponent of a natural number that needs no rounding. -/
theorem natBits_exact (pos : n ≠ 0) (exact_ : ∃ m j, n = m * 2 ^ j ∧ m < 2 ^ 53) :
    ∃ significand, 2 ^ 52 ≤ significand ∧ significand < 2 ^ 53 ∧
      natBits n = (1022 + n.log2) * 2 ^ 52 + significand ∧
      significand * 2 ^ (1022 + n.log2) = n * unit := by
  obtain ⟨low, high⟩ := natBits_bounds pos
  unfold natBits
  rw [if_neg pos]
  by_cases small : n.log2 ≤ 52
  · rw [if_pos small]
    obtain ⟨k, eq⟩ := Nat.exists_eq_add_of_le small
    refine ⟨n * 2 ^ (52 - n.log2), ?_, ?_, rfl, ?_⟩
    · calc 2 ^ 52 = 2 ^ n.log2 * 2 ^ (52 - n.log2) := by rw [← pow_add]; congr 1; omega
        _ ≤ n * 2 ^ (52 - n.log2) := Nat.mul_le_mul_right _ low
    · calc n * 2 ^ (52 - n.log2) < 2 ^ (n.log2 + 1) * 2 ^ (52 - n.log2) :=
            Nat.mul_lt_mul_of_pos_right high (Nat.two_pow_pos _)
        _ = 2 ^ 53 := by rw [← pow_add]; congr 1; omega
    · rw [mul_assoc, ← pow_add, unit_eq]
      congr 2
      omega
  · rw [if_neg small]
    obtain ⟨m, j, eq, short⟩ := exact_
    -- the lowest set bit is not below the cut
    have deep : n.log2 - 52 ≤ j := by
      by_contra shallow
      have : n < 2 ^ n.log2 := by
        calc n = m * 2 ^ j := eq
          _ < 2 ^ 53 * 2 ^ j := Nat.mul_lt_mul_of_pos_right short (Nat.two_pow_pos _)
          _ = 2 ^ (53 + j) := (pow_add ..).symm
          _ ≤ 2 ^ n.log2 := Nat.pow_le_pow_right (by decide) (by omega)
      omega
    have dvd : 2 ^ (n.log2 - 52) ∣ m * 2 ^ j := Dvd.dvd.mul_left (pow_dvd_pow 2 deep) m
    rw [← eq] at dvd
    obtain ⟨q, split⟩ := dvd
    have part : 0 < 2 ^ (n.log2 - 52) := Nat.two_pow_pos _
    rw [roundShift_of_dvd ⟨q, split⟩]
    have quotient : n / 2 ^ (n.log2 - 52) = q := by
      nth_rewrite 1 [split]
      exact Nat.mul_div_cancel_left q part
    rw [quotient]
    have scale : n = q * 2 ^ (n.log2 - 52) := by rw [mul_comm]; exact split
    refine ⟨q, ?_, ?_, rfl, ?_⟩
    · refine Nat.le_of_mul_le_mul_right ?_ part
      rw [← scale, ← pow_add, show 52 + (n.log2 - 52) = n.log2 by omega]
      exact low
    · refine Nat.lt_of_mul_lt_mul_right (a := 2 ^ (n.log2 - 52)) ?_
      rw [← scale, ← pow_add, show 53 + (n.log2 - 52) = n.log2 + 1 by omega]
      exact high
    · calc q * 2 ^ (1022 + n.log2) = q * 2 ^ (n.log2 - 52) * 2 ^ 1074 := by
            rw [mul_assoc, ← pow_add]
            congr 2
            omega
        _ = n * unit := by rw [← scale, unit_eq]

theorem natBits_lt (size : n < 2 ^ 128) (exact_ : ∃ m j, n = m * 2 ^ j ∧ m < 2 ^ 53) :
    natBits n < 2 ^ 63 := by
  by_cases zero : n = 0
  · simp [natBits, zero]
  obtain ⟨significand, -, high, bits, -⟩ := natBits_exact zero exact_
  have short : n.log2 < 128 := (Nat.log2_lt zero).2 size
  omega

section

variable {z : ℤ} (size : z.natAbs < 2 ^ 128) (exact_ : ∃ m j, z.natAbs = m * 2 ^ j ∧ m < 2 ^ 53)
include size exact_

theorem bits_ofInt : (ofInt z).bits.toNat = natBits z.natAbs + if z < 0 then 2 ^ 63 else 0 := by
  have small := natBits_lt size exact_
  unfold ofInt
  rw [UInt64.toNat_ofNat']
  split_ifs <;> omega

/-- An integer with at most 53 significant bits becomes no NaN. -/
theorem isNan_ofInt : (ofInt z).isNan = false := by
  have small := natBits_lt size exact_
  have exponent : (ofInt z).exponent = natBits z.natAbs / 2 ^ 52 := by
    unfold Binary64.exponent
    rw [bits_ofInt size exact_]
    split_ifs <;> omega
  have finite : natBits z.natAbs / 2 ^ 52 < 2047 := by
    by_cases zero : z.natAbs = 0
    · rw [zero]
      decide
    · obtain ⟨significand, -, high, eq, -⟩ := natBits_exact zero exact_
      have short : z.natAbs.log2 < 128 := (Nat.log2_lt zero).2 size
      omega
  unfold isNan
  rw [exponent]
  exact decide_eq_false fun nan => finite.ne nan.1

/-- **An integer with at most 53 significant bits is converted exactly.** -/
theorem scaled_ofInt : (ofInt z).scaled = z * unit := by
  have small := natBits_lt size exact_
  have bits := bits_ofInt size exact_
  have magnitude_eq : (ofInt z).magnitude = z.natAbs * unit := by
    by_cases zero : z.natAbs = 0
    · have : z = 0 := by omega
      subst this
      rw [show (ofInt 0).magnitude = 0 by decide, Int.natAbs_zero, zero_mul]
    · obtain ⟨significand, low, high, eq, value⟩ := natBits_exact zero exact_
      have short : z.natAbs.log2 < 128 := (Nat.log2_lt zero).2 size
      have parts : (ofInt z).bits.toNat % 2 ^ 63 = (1022 + z.natAbs.log2) * 2 ^ 52 + significand := by
        rw [bits, eq]
        split_ifs <;> omega
      rw [magnitude_of_bits low high (by omega) parts, value]
  have sign : (ofInt z).negative = decide (z < 0) := by
    unfold negative
    rw [bits]
    by_cases below : z < 0
    · simp [below]
    · simp [below]
      omega
  unfold scaled
  rw [sign, magnitude_eq]
  by_cases below : z < 0
  · rw [if_pos (decide_eq_true below)]
    push_cast
    have : |z| = -z := abs_of_neg below
    rw [this]
    ring
  · rw [if_neg (by simpa using below)]
    push_cast
    rw [abs_of_nonneg (by omega)]

end

/-- Every number is an integer of at most 53 bits times a power of two. -/
theorem magnitude_split (x : Binary64) : ∃ m k, x.magnitude = m * 2 ^ k ∧ m < 2 ^ 53 := by
  have short : x.fraction < 2 ^ 52 := Nat.mod_lt _ (Nat.two_pow_pos _)
  unfold magnitude
  split_ifs
  · exact ⟨x.fraction, 0, (mul_one _).symm, by omega⟩
  · exact ⟨2 ^ 52 + x.fraction, x.exponent - 1, rfl, by omega⟩

theorem unit_pos : 0 < unit := by
  unfold unit
  positivity

theorem natAbs_scaled (x : Binary64) : x.scaled.natAbs = x.magnitude := by
  unfold scaled
  split_ifs <;> omega

theorem exact_truncate (x : Binary64) : ∃ m j, x.truncate.natAbs = m * 2 ^ j ∧ m < 2 ^ 53 := by
  obtain ⟨m, k, eq, short⟩ := x.magnitude_split
  have abs : x.truncate.natAbs = m * 2 ^ k / unit := by
    unfold truncate
    rw [Int.natAbs_tdiv, natAbs_scaled, eq, Int.natAbs_natCast]
    rfl
  by_cases whole : 1074 ≤ k
  · refine ⟨m, k - 1074, ?_, short⟩
    have split : 2 ^ k = 2 ^ (k - 1074) * unit := by
      rw [unit_eq, ← pow_add, Nat.sub_add_cancel whole]
    rw [abs, split, ← mul_assoc, Nat.mul_div_cancel _ unit_pos]
  · refine ⟨x.truncate.natAbs, 0, (mul_one _).symm, lt_of_le_of_lt ?_ short⟩
    rw [abs]
    have below : 2 ^ k ≤ unit := by
      unfold unit
      exact pow_le_pow_right₀ one_le_two (not_le.1 whole).le
    exact Nat.div_le_of_le_mul ((mul_comm m _).le.trans (Nat.mul_le_mul_right m below))

theorem truncate_bounds (x : Binary64) :
    x.truncate * unit - unit < x.scaled ∧ x.scaled < x.truncate * unit + unit := by
  have pos : (0 : ℤ) < unit := Int.natCast_pos.2 unit_pos
  have parts := Int.mul_tdiv_add_tmod x.scaled unit
  have low := Int.lt_tmod_of_pos x.scaled pos
  have high := Int.tmod_lt_of_pos x.scaled pos
  unfold truncate
  rw [mul_comm] at parts
  omega

/-- An integer compares with a number as it does with the number's integer part, and on a
tie as the integer part does. -/
theorem compare_truncate {x : Binary64} {z : ℤ} (small : x.truncate.natAbs < 2 ^ 128) :
    (match compare z x.truncate with
      | .eq => compare (ofInt z).scaled x.scaled
      | ordering => ordering) = compare (z * unit) x.scaled := by
  obtain ⟨low, high⟩ := x.truncate_bounds
  have pos : (0 : ℤ) < unit := Int.natCast_pos.2 unit_pos
  rcases lt_trichotomy z x.truncate with less | same | more
  · have far : z * unit ≤ (x.truncate - 1) * unit :=
      mul_le_mul_of_nonneg_right (by omega) pos.le
    rw [sub_mul, one_mul] at far
    have below : z * unit < x.scaled := by omega
    rw [compare_lt_iff_lt.2 less, compare_lt_iff_lt.2 below]
  · rw [compare_eq_iff_eq.2 same, same, scaled_ofInt small x.exact_truncate]
  · have far : (x.truncate + 1) * unit ≤ z * unit := mul_le_mul_of_nonneg_right (by omega) pos.le
    rw [add_mul, one_mul] at far
    have above : x.scaled < z * unit := by omega
    rw [compare_gt_iff_gt.2 more, compare_gt_iff_gt.2 above]

end Exact

/-! ### Real values -/

/-- The value of a number that is not a NaN, on the extended real line. -/
noncomputable def toEReal (x : Binary64) : EReal :=
  if x.isFinite then ((x.scaled / unit : ℝ) : EReal) else if x.negative then ⊥ else ⊤

/-- The distance of an infinity from zero, as `magnitude` has it. -/
@[irreducible]
def infinite : ℕ := 2 ^ 52 * 2 ^ 2046

theorem magnitude_infinite {x : Binary64} (nan : x.isNan = false) (infinite_ : x.isFinite = false) :
    x.magnitude = infinite := by
  have exponent : x.exponent = 2047 := by simpa [isFinite] using infinite_
  have fraction : x.fraction = 0 := by simpa [isNan, exponent] using nan
  unfold magnitude infinite
  rw [exponent, fraction, if_neg (by decide), add_zero]

theorem magnitude_lt_infinite {x : Binary64} (finite : x.isFinite = true) :
    x.magnitude < infinite := by
  have exponent : x.exponent < 2047 := by
    have : x.exponent < 2 ^ 11 := Nat.mod_lt _ (Nat.two_pow_pos _)
    have : x.exponent ≠ 2047 := by simpa [isFinite] using finite
    omega
  have short : x.fraction < 2 ^ 52 := Nat.mod_lt _ (Nat.two_pow_pos _)
  have below : 2 ^ (x.exponent - 1) ≤ 2 ^ 2045 := pow_le_pow_right₀ one_le_two (by omega)
  unfold magnitude
  split_ifs
  · calc x.fraction < 2 ^ 52 * 1 := by omega
      _ ≤ infinite := by
          unfold infinite
          exact Nat.mul_le_mul_left _ (one_le_pow₀ one_le_two)
  · calc (2 ^ 52 + x.fraction) * 2 ^ (x.exponent - 1) < 2 ^ 53 * 2 ^ (x.exponent - 1) :=
          Nat.mul_lt_mul_of_pos_right (by omega) (Nat.two_pow_pos _)
      _ ≤ 2 ^ 53 * 2 ^ 2045 := Nat.mul_le_mul_left _ below
      _ = infinite := by
          unfold infinite
          rw [← pow_add, ← pow_add]

/-- The point of the extended real line at a number of units; an infinity from `infinite` on. -/
noncomputable def atUnits (s : ℤ) : EReal :=
  if s.natAbs < infinite then ((s / unit : ℝ) : EReal) else if s < 0 then ⊥ else ⊤

theorem atUnits_scaled {x : Binary64} (nan : x.isNan = false) : atUnits x.scaled = x.toEReal := by
  unfold atUnits toEReal
  rw [natAbs_scaled]
  cases finite : x.isFinite with
  | true => rw [if_pos (magnitude_lt_infinite finite), if_pos rfl]
  | false =>
    have far := magnitude_infinite nan finite
    have pos : 0 < infinite := by
      unfold infinite
      positivity
    have sign : x.scaled < 0 ↔ x.negative = true := by
      unfold scaled
      split_ifs with negative
      · simp only [negative, iff_true]
        omega
      · simp only [negative, Bool.false_eq_true, iff_false]
        omega
    rw [if_neg (by omega), if_neg Bool.false_ne_true]
    simp only [sign]

theorem near_int {z : ℤ} (small : z.natAbs < 2 ^ 128) : (z * unit).natAbs < infinite := by
  rw [Int.natAbs_mul, Int.natAbs_natCast]
  calc z.natAbs * unit < 2 ^ 128 * unit := Nat.mul_lt_mul_of_pos_right small unit_pos
    _ = 2 ^ (128 + 1074) := by unfold unit; exact (pow_add ..).symm
    _ ≤ 2 ^ (52 + 2046) := pow_le_pow_right₀ one_le_two (by decide)
    _ = infinite := by unfold infinite; exact pow_add ..

theorem atUnits_int {z : ℤ} (small : z.natAbs < 2 ^ 128) : atUnits (z * unit) = ((z : ℝ) : EReal) := by
  have pos : (0 : ℝ) < unit := Nat.cast_pos.2 unit_pos
  unfold atUnits
  rw [if_pos (near_int small)]
  push_cast
  rw [mul_div_cancel_right₀ _ pos.ne']

theorem strictMonoOn_atUnits : StrictMonoOn atUnits {s | s.natAbs ≤ infinite} := by
  intro a ha b hb less
  have pos : (0 : ℝ) < unit := Nat.cast_pos.2 unit_pos
  change a.natAbs ≤ infinite at ha
  change b.natAbs ≤ infinite at hb
  unfold atUnits
  by_cases nearA : a.natAbs < infinite
  · rw [if_pos nearA]
    by_cases nearB : b.natAbs < infinite
    · rw [if_pos nearB, EReal.coe_lt_coe_iff]
      exact div_lt_div_of_pos_right (Int.cast_lt.2 less) pos
    · rw [if_neg nearB, if_neg (by omega)]
      exact EReal.coe_lt_top _
  · rw [if_neg nearA, if_pos (by omega)]
    by_cases nearB : b.natAbs < infinite
    · rw [if_pos nearB]
      exact EReal.bot_lt_coe _
    · rw [if_neg nearB, if_neg (by omega)]
      exact bot_lt_top

theorem natAbs_scaled_le {x : Binary64} (nan : x.isNan = false) : x.scaled.natAbs ≤ infinite := by
  rw [natAbs_scaled]
  cases finite : x.isFinite with
  | true => exact (magnitude_lt_infinite finite).le
  | false => exact (magnitude_infinite nan finite).le

/-! ### The value determines the number -/

theorem significand_inj {e e' f f' : ℕ} (small : f < 2 ^ 52) (small' : f' < 2 ^ 52)
    (same : (2 ^ 52 + f) * 2 ^ e = (2 ^ 52 + f') * 2 ^ e') : e = e' ∧ f = f' := by
  have below {e e' f f' : ℕ} (small : f < 2 ^ 52)
      (same : (2 ^ 52 + f) * 2 ^ e = (2 ^ 52 + f') * 2 ^ e') : ¬ e < e' := by
    intro less
    obtain ⟨d, rfl⟩ := Nat.exists_eq_add_of_lt less
    rw [show e + d + 1 = e + (d + 1) by omega, pow_add, ← mul_assoc, mul_right_comm] at same
    have eq := Nat.eq_of_mul_eq_mul_right (Nat.two_pow_pos e) same
    have double : 2 ^ 1 ≤ 2 ^ (d + 1) := Nat.pow_le_pow_right (by decide) (by omega)
    have := Nat.mul_le_mul_left (2 ^ 52 + f') double
    omega
  have exponents : e = e' := by
    have := below small same
    have := below small' same.symm
    omega
  subst exponents
  have := Nat.eq_of_mul_eq_mul_right (Nat.two_pow_pos e) same
  exact ⟨rfl, by omega⟩

theorem magnitude_inj {x y : Binary64} (same : x.magnitude = y.magnitude) :
    x.exponent = y.exponent ∧ x.fraction = y.fraction := by
  have small (z : Binary64) : z.fraction < 2 ^ 52 := Nat.mod_lt _ (Nat.two_pow_pos _)
  have large (f e : ℕ) : 2 ^ 52 ≤ (2 ^ 52 + f) * 2 ^ e :=
    (Nat.le_add_right _ _).trans (Nat.le_mul_of_pos_right _ (Nat.two_pow_pos e))
  unfold magnitude at same
  by_cases zero : x.exponent = 0
  · by_cases zero' : y.exponent = 0
    · rw [if_pos zero, if_pos zero'] at same
      exact ⟨zero.trans zero'.symm, same⟩
    · rw [if_pos zero, if_neg zero'] at same
      have := small x
      have := large y.fraction (y.exponent - 1)
      omega
  · by_cases zero' : y.exponent = 0
    · rw [if_neg zero, if_pos zero'] at same
      have := small y
      have := large x.fraction (x.exponent - 1)
      omega
    · rw [if_neg zero, if_neg zero'] at same
      obtain ⟨exponents, fractions⟩ := significand_inj (small x) (small y) same
      exact ⟨by omega, fractions⟩

/-- Numbers of one value are one, but for the two zeros. -/
theorem eq_of_scaled {x y : Binary64} (same : x.scaled = y.scaled) (nonzero : x.scaled ≠ 0) :
    x = y := by
  have magnitudes : x.magnitude = y.magnitude := by rw [← natAbs_scaled, same, natAbs_scaled]
  have signs : x.negative = y.negative := by
    unfold scaled at same nonzero
    cases neg : x.negative <;> cases neg' : y.negative <;> simp [neg, neg'] at same nonzero ⊢ <;> omega
  obtain ⟨exponents, fractions⟩ := magnitude_inj magnitudes
  obtain ⟨a⟩ := x
  obtain ⟨b⟩ := y
  have ha : a.toNat < 2 ^ 64 := a.toNat_lt
  have hb : b.toNat < 2 ^ 64 := b.toNat_lt
  simp only [negative, exponent, fraction, decide_eq_decide] at signs exponents fractions
  rw [UInt64.toNat_inj.1 (show a.toNat = b.toNat by omega)]

/-! ### Arithmetic -/

def toFloat (x : Binary64) : Float := Float.ofBits x.bits

def ofFloat (x : Float) : Binary64 := ⟨x.toBits⟩

def add (x y : Binary64) : Binary64 := ofFloat (x.toFloat + y.toFloat)

def sub (x y : Binary64) : Binary64 := ofFloat (x.toFloat - y.toFloat)

def mul (x y : Binary64) : Binary64 := ofFloat (x.toFloat * y.toFloat)

def div (x y : Binary64) : Binary64 := ofFloat (x.toFloat / y.toFloat)

/-- Where a sum starts. -/
def negZero : Binary64 := ⟨0x8000000000000000⟩

example : (ofInt 1).bits = 0x3FF0000000000000 := by decide
example : (ofInt (-2)).scaled = -2 * unit := by decide +kernel
example : ofInt (2 ^ 53 + 1) = ofInt (2 ^ 53) := by decide
example : ofInt (2 ^ 53 + 3) = ofInt (2 ^ 53 + 4) := by decide
example : (ofInt (2 ^ 64 - 1)).bits = 0x43F0000000000000 := by decide

end Binary64
