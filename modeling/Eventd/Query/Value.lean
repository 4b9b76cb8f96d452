import Eventd.Lib.Binary64
import Eventd.Lib.KeyedList
import Eventd.Access.Reads

/-!
# Values and numeric aggregates

`Value` and the comparison of numbers in `eventd/src/query/value.rs`, and `Numeric` of
`eventd/src/query/executor.rs`: `SUM`, `AVG`, `MIN` and `MAX` over the values of a group,
folded in the order in which the values come.

* `Value`, `Record`: what a record holds;
* `numericCmp`: how two numbers compare, whatever their representations;
* `Numeric`, `Numeric.push`, `Numeric.finish`.
-/

namespace Eventd

/-- A query-language value. -/
inductive Value
  | null
  | bool (value : Bool)
  | signed (value : Int64)
  | unsigned (value : UInt64)
  | float (value : Binary64)
  | string (value : String)
  | binary (value : List UInt8)
  | array (values : List Value)
  | map (entries : List (Value × Value))

/-- The fields of a record, in the order of their names. -/
abbrev Record := List (String × Value)

/-- Why a query fails. -/
inductive QueryError
  | security (error : SecurityError)
  | invalidTime
  | nonFinite
  | invalidHistogram
  | mixedMetricTypes
  | metricNeedsWindow
  | histogramNeedsPercentile
  | percentileNeedsHistogram
  | rateNeedsCounter
  | crossMetricNeedsSelector
  | crossMetricHistogram
  | heldLimit
  deriving DecidableEq

/-! ### Numbers -/

namespace Value

def isNan : Value → Bool
  | .float x => x.isNan
  | _ => false

/-- The integer that a value is. -/
def integer : Value → Option ℤ
  | .signed n => some n.toInt
  | .unsigned n => some n.toNat
  | _ => none

def isNumber : Value → Bool
  | .signed _ | .unsigned _ | .float _ => true
  | _ => false

/-- A number as binary64. -/
def asF64 : Value → Binary64
  | .signed n => .ofInt n.toInt
  | .unsigned n => .ofInt n.toNat
  | .float x => x
  | _ => .ofInt 0

end Value

def compareI64U64 (signed : Int64) (unsigned : UInt64) : Ordering :=
  if signed.toInt < 0 then .lt else compare signed.toInt.toNat unsigned.toNat

/-- Compare with the integer part, and on a tie with the float itself. -/
def compareTruncated (integer : ℤ) (float : Binary64) : Ordering :=
  match compare integer float.truncate with
  | .eq => ((Binary64.ofInt integer).partialCmp float).getD .eq
  | ordering => ordering

def compareI64Float (integer : Int64) (float : Binary64) : Ordering :=
  if float.lt (.ofInt (-2 ^ 63)) then .gt
  else if float.ge (.ofInt (2 ^ 63)) then .lt
  else compareTruncated integer.toInt float

def compareU64Float (integer : UInt64) (float : Binary64) : Ordering :=
  if float.lt (.ofInt 0) then .gt
  else if float.ge (.ofInt (2 ^ 64)) then .lt
  else compareTruncated integer.toNat float

/-- How two numbers compare; every NaN is one value, after every other number. -/
def numericCmp (left right : Value) : Option Ordering :=
  if left.isNan || right.isNan then
    if left.isNumber && right.isNumber then some (compare left.isNan right.isNan) else none
  else
    match left, right with
    | .signed left, .signed right => some (compare left.toInt right.toInt)
    | .unsigned left, .unsigned right => some (compare left.toNat right.toNat)
    | .signed left, .unsigned right => some (compareI64U64 left right)
    | .unsigned left, .signed right => some (compareI64U64 right left).swap
    | .float left, .float right => left.partialCmp right
    | .signed left, .float right => some (compareI64Float left right)
    | .float left, .signed right => some (compareI64Float right left).swap
    | .unsigned left, .float right => some (compareU64Float left right)
    | .float left, .unsigned right => some (compareU64Float right left).swap
    | _, _ => none

/-! ### Aggregates of numbers -/

inductive AggregateFunction
  | avg
  | min
  | max
  | sum
  deriving DecidableEq

/-- The numbers of a group so far. -/
structure Numeric where
  count : ℕ
  total : Binary64
  /-- The exact sum while every value is an integer and it fits. -/
  exact : Option ℤ
  float : Bool
  /-- The first of the smallest values, and the last of the largest. -/
  least : Option Value
  most : Option Value

/-- A result of checked arithmetic on `i128`. -/
def checkedI128 (value : ℤ) : Option ℤ :=
  if -2 ^ 127 ≤ value ∧ value < 2 ^ 127 then some value else none

namespace Numeric

def new : Numeric where
  count := 0
  total := .negZero
  exact := some 0
  float := false
  least := none
  most := none

/-- Count a number.  What it is compared with is a number too, so that the order of values
is that of numbers. -/
def counting (numeric : Numeric) (value : Value) : Numeric where
  count := numeric.count + 1
  total := numeric.total.add value.asF64
  exact := numeric.exact
  float := numeric.float
  least :=
    if numeric.least.all fun least => numericCmp value least == some .lt then some value
    else numeric.least
  most :=
    if numeric.most.all fun most => numericCmp value most != some .lt then some value
    else numeric.most

/-- Take a value into account.  Values that are not numbers are not counted. -/
def push (numeric : Numeric) (value : Value) : Numeric :=
  match value with
  | .signed n =>
    { numeric with exact := numeric.exact.bind fun sum => checkedI128 (sum + n.toInt) }.counting
      value
  | .unsigned n =>
    { numeric with exact := numeric.exact.bind fun sum => checkedI128 (sum + n.toNat) }.counting
      value
  | .float _ => { numeric with float := true }.counting value
  | _ => numeric

def finite (result : Binary64) : Except QueryError Value :=
  if result.isFinite then .ok (.float result) else .error .nonFinite

/-- The sum of integers, in the narrowest type that holds it. -/
def exactSum (numeric : Numeric) : Option Value := do
  guard (numeric.float = false)
  let exact ← numeric.exact
  if -2 ^ 63 ≤ exact ∧ exact < 2 ^ 63 then some (.signed (.ofInt exact))
  else if 0 ≤ exact ∧ exact < 2 ^ 64 then some (.unsigned (.ofNat exact.toNat))
  else none

/-- The aggregate of the numbers. -/
def finish (numeric : Numeric) (function : AggregateFunction) : Except QueryError Value :=
  if numeric.count = 0 then .ok .null
  else
    match function with
    | .min => .ok (numeric.least.getD .null)
    | .max => .ok (numeric.most.getD .null)
    | .sum => numeric.exactSum.elim (finite numeric.total) .ok
    | .avg => finite (numeric.total.div (.ofInt numeric.count))

end Numeric

end Eventd
