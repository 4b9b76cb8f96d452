import Mathlib.Data.String.Basic
import Eventd.Query.Time
import Eventd.Access.Authorizer

/-!
# The query language

The semantic model of `eventd/src/query_language.rs`: what a query says once it is parsed.

* `Literal`, `Expr`: the values and conditions that a query spells out;
* `RecordAggregate`, `GroupFunction`, `SortKey`: what is made of the matching records;
* `Query`: a whole query.
-/

namespace Eventd

inductive Operator
  | equal
  | notEqual
  | greater
  | greaterEqual
  | less
  | lessEqual
  | startsWith
  | endsWith
  | contains
  | has
  deriving DecidableEq

inductive Literal
  | signed (value : Int64)
  | unsigned (value : UInt64)
  | float (value : Binary64)
  | string (value : String)
  | binary (value : List UInt8)
  | bool (value : Bool)
  deriving DecidableEq

inductive Expr
  | compare (field : String) (operator : Operator) (value : Literal)
  | in_ (field : String) (negated : Bool) (values : List Literal)
  | null (field : String) (negated : Bool)
  | and (left right : Expr)
  | or (left right : Expr)

/-- Add the fields of an expression that are not listed yet. -/
def Expr.fields : Expr → List String → List String
  | .compare field _ _, output | .in_ field _ _, output | .null field _, output =>
    if field ∈ output then output else output ++ [field]
  | .and left right, output | .or left right, output => right.fields (left.fields output)

inductive Percentile
  | p50
  | p95
  | p99
  deriving DecidableEq

def Percentile.value : Percentile → ℕ
  | .p50 => 50
  | .p95 => 95
  | .p99 => 99

inductive Transform
  | rate
  | delta
  | percentile (percentile : Percentile)
  deriving DecidableEq

structure SortKey where
  field : String
  descending : Bool
  deriving DecidableEq

inductive GroupFunction
  | count
  | sum (field : String)
  | avg (field : String)
  | min (field : String)
  | max (field : String)
  deriving DecidableEq

/-- The field whose numbers a function is about. -/
def GroupFunction.field? : GroupFunction → Option String
  | .count => none
  | .sum field | .avg field | .min field | .max field => some field

inductive RecordAggregate
  | countBy (field : String)
  | topBy (count : ℕ) (field : String)
  | distinct (field : String)
  | group (fields : List String) (function : GroupFunction)
  deriving DecidableEq

inductive MetricAggregate
  | scalar (function : AggregateFunction)
  | window (function : AggregateFunction) (width : ℕ)
  deriving DecidableEq

inductive Source
  | events (pattern : Option String)
  | logs (origins : List String) (errorOnly : Bool) (containing : Option String)
  | metric (name : String) (labels : Option (List Expr))

inductive CrossFilter
  | metric (name : String) (labels : Option (List Expr)) (operator : Operator) (value : Literal)
  | eventExists (pattern : String)
  | logExists (origin : String) (containing : Option String)

structure Query where
  source : Source
  since : Option TimeExpr
  until_ : Option TimeExpr
  predicates : List Expr
  crossFilters : List CrossFilter
  sort : List SortKey
  take : Option ℕ
  skip : ℕ
  select : List String
  aggregate : Option RecordAggregate
  transform : Option Transform
  metricAggregate : Option MetricAggregate
  stream : Bool
  index : Option String

/-! ### Rows -/

/-- What orders rows of the same time. -/
inductive Tie
  | event (shard : ℕ) (id : ℤ)
  | single (id : ℤ)
  deriving DecidableEq

/-- A record on its way to the result.  Its time orders it whether or not the caller may read
it. -/
structure RecordRow extends Row Value where
  time : ℤ
  tie : Tie

/-- The value of a field, `Null` when it is absent. -/
def valueOf (record : Record) (field : String) : Value := (record.lookup field).getD .null

end Eventd
