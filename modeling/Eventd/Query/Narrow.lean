import Eventd.Query.Evaluate
import Eventd.Query.Flatten

/-!
# What SQLite is asked for

A query over events reads rows in a range of times, and at most one condition on a column is put
into the SQL that reads them: `narrow_by_timestamp` and `sql_header_constraint` of
`eventd/src/query/executor.rs`.  The predicates are evaluated on every row that was read, so what is
asked for may be more than what matches, but must not be less.

* `narrowByTimestamp`: the range of times that comparisons of the time leave;
* `sqlHeaderConstraint`: the condition on a column that a predicate stands for;
* `SqlValue.cmp`, `SqlConstraint.holds`: what SQLite makes of the condition;
* `compareValues_integer`: how the query language compares integers;
* `narrowing_sound`: no row that matches is left out.
-/

namespace Eventd

open Option

/-! ### The range of times -/

/-- The integer that a literal is. -/
def Literal.integer : Literal → Option ℤ
  | .signed value => some value.toInt
  | .unsigned value => some value.toNat
  | _ => none

/-- The nearest `i64`. -/
def clamp (value : ℤ) : ℤ :=
  if -2 ^ 63 ≤ value ∧ value < 2 ^ 63 then value else if value < 0 then -2 ^ 63 else 2 ^ 63 - 1

/-- The first time that a comparison with a bound admits, and the first after all of them. -/
def Operator.bounds (operator : Operator) (bound : ℤ) : Option ℤ × Option ℤ :=
  match operator with
  | .less => (none, some bound)
  | .lessEqual => (none, some (bound + 1))
  | .greater => (some (bound + 1), none)
  | .greaterEqual => (some bound, none)
  | .equal => (some bound, some (bound + 1))
  | _ => (none, none)

/-- A range of times within two bounds.  An upper bound after every `i64` excludes nothing. -/
def narrowTo (bounds : Option ℤ × Option ℤ) (range : ℤ × ℤ) : ℤ × ℤ :=
  (match bounds.1 with
    | some lower => max range.1 (clamp lower)
    | none => range.1,
   match bounds.2.filter fun upper => decide (upper ≤ 2 ^ 63 - 1) with
    | some upper => min range.2 (clamp upper)
    | none => range.2)

/-- Narrow a range by one predicate. -/
def narrowBy (timeField : String) (range : ℤ × ℤ) : Expr → ℤ × ℤ
  | .compare field operator value =>
    if field ≠ timeField then range
    else
      match value.integer with
      | some bound => narrowTo (operator.bounds bound) range
      | none => range
  | _ => range

def narrowByTimestamp (predicates : List Expr) (timeField : String) (since until_ : ℤ) : ℤ × ℤ :=
  predicates.foldl (narrowBy timeField) (since, until_)

/-! ### The condition on a column -/

/-- A value of SQLite. -/
inductive SqlValue
  | null
  | integer (value : ℤ)
  | text (value : String)
  deriving DecidableEq

/-- A condition in SQL and the value that is bound to `?5` in it. -/
structure SqlConstraint where
  sql : String
  value : Option SqlValue
  deriving DecidableEq

/-- The integer that a value is, if it is an `i64`. -/
def Value.toI64 : Value → Option ℤ
  | .signed value => some value.toInt
  | .unsigned value => if value.toNat < 2 ^ 63 then some value.toNat else none
  | _ => none

/-- The comparison of a column in SQL. -/
def headerSql : String → Operator → Option String
  | "event.cpu", .equal => some "cpu_id = ?5"
  | "event.cpu", .notEqual => some "cpu_id <> ?5"
  | "event.cpu", .greater => some "cpu_id > ?5"
  | "event.cpu", .greaterEqual => some "cpu_id >= ?5"
  | "event.cpu", .less => some "cpu_id < ?5"
  | "event.cpu", .lessEqual => some "cpu_id <= ?5"
  | "emitter.class", .equal => some "origin_class = ?5"
  | "emitter.class", .notEqual => some "origin_class <> ?5"
  | "emitter.class", .greater => some "origin_class > ?5"
  | "emitter.class", .greaterEqual => some "origin_class >= ?5"
  | "emitter.class", .less => some "origin_class < ?5"
  | "emitter.class", .lessEqual => some "origin_class <= ?5"
  | _, _ => none

def sqlHeaderConstraint : Expr → Option SqlConstraint
  | .compare field operator value =>
    if field = "event.type" ∧ operator = .equal then
      match value with
      | .string value => some ⟨"event_type = ?5 COLLATE NOCASE", some (.text value)⟩
      | _ => none
    else if field ≠ "event.cpu" ∧ field ≠ "emitter.class" then none
    else do
      let value ← (literalValue .events field value).toI64
      let sql ← headerSql field operator
      return ⟨sql, some (.integer value)⟩
  | _ => none

/-! ### What SQLite makes of it -/

/-- How SQLite compares two values, with a collation for texts: `none` if either is `NULL`, and
integers before texts. -/
def SqlValue.cmp (collate : List UInt8 → List UInt8) : SqlValue → SqlValue → Option Ordering
  | .null, _ | _, .null => none
  | .integer left, .integer right => some (compare left right)
  | .integer _, .text _ => some .lt
  | .text _, .integer _ => some .gt
  | .text left, .text right => some (compare (collate (bytesOf left)) (collate (bytesOf right)))

/-- The comparison operators of SQL. -/
def sqlOperator : String → Option (Ordering → Bool)
  | "=" => some Ordering.isEq
  | "<>" => some Ordering.isNe
  | "<" => some Ordering.isLT
  | "<=" => some Ordering.isLE
  | ">" => some Ordering.isGT
  | ">=" => some Ordering.isGE
  | _ => none

/-- A column of `events` that constraints are about. -/
def EventRow.column (row : EventRow) : String → Option SqlValue
  | "cpu_id" => some ((row.cpuId.map fun cpu => .integer cpu.toNat).getD .null)
  | "origin_class" => some ((row.originClass.map fun origin => .integer origin.toNat).getD .null)
  | "event_type" => some (.text row.eventType)
  | _ => none

/-- The words of a condition in SQL. -/
def sqlWords (sql : String) : List String := (sql.toList.splitOn ' ').map String.ofList

/-- Compare a column with the bound value. -/
def compareColumn (row : EventRow) (column operator : String) (collate : List UInt8 → List UInt8)
    (value : SqlValue) : Option Bool := do
  let column ← row.column column
  let test ← sqlOperator operator
  let ordering ← column.cmp collate value
  return test ordering

/-- The truth value of a condition on a row; `none` is `NULL`. -/
def SqlConstraint.holds (constraint : SqlConstraint) (row : EventRow) : Option Bool :=
  match sqlWords constraint.sql with
  | [column, operator, "?5"] => compareColumn row column operator id (constraint.value.getD .null)
  | [column, operator, "?5", "COLLATE", "NOCASE"] =>
    compareColumn row column operator (List.map foldAscii) (constraint.value.getD .null)
  | _ => none

/-! ### Integers in the query language -/

/-- The comparison of two integers. -/
def Operator.onIntegers (operator : Operator) (ordering : Ordering) : Bool :=
  match operator with
  | .equal => ordering.isEq
  | .notEqual => ordering.isNe
  | .greater => ordering.isGT
  | .greaterEqual => ordering.isGE
  | .less => ordering.isLT
  | .lessEqual => ordering.isLE
  | _ => false

variable {operator : Operator} {text : DebugText} {time n m bound : ℤ}
  {column field symbol : String} {row : EventRow} {a value : Value} {namespace_ : Namespace}
  {record : Record}

/-- An integer is a number. -/
theorem number_of_integer (is : a.integer = some m) :
    a.isNumber = true ∧ a.isNan = false ∧ a.units = m * Binary64.unit := by
  match a with
  | .signed _ | .unsigned _ =>
    cases is
    exact ⟨rfl, rfl, rfl⟩

theorem numericCmp_integer {b : Value} (left : a.integer = some m) (right : b.integer = some n) :
    numericCmp a b = some (compare m n) := by
  obtain ⟨number, nan, units⟩ := number_of_integer left
  obtain ⟨number', nan', units'⟩ := number_of_integer right
  rw [numericCmp_units number number' nan nan', units, units', compare_mul_unit]

/-- The operators of order and equality compare integers by their values; the others are about
no integer. -/
theorem compareValues_integer (text : DebugText) (operator : Operator) {a b : Value} {m n : ℤ}
    (left : a.integer = some m) (right : b.integer = some n) :
    compareValues text operator a b = some (operator.onIntegers (compare m n)) := by
  obtain ⟨number, nan, -⟩ := number_of_integer left
  obtain ⟨number', nan', -⟩ := number_of_integer right
  have order (wanted : Ordering) : numericOrder text a b wanted = (compare m n == wanted) := by
    unfold numericOrder Value.languageCmp
    rw [number, number', nan, nan', numericCmp_integer left right]
    rfl
  have equal : a.languageEqual b = (compare m n == .eq) := by
    unfold Value.languageEqual
    rw [numericCmp_integer left right]
  unfold compareValues
  rw [order, order, order, equal]
  generalize compare m n = ordering
  cases operator with
  | startsWith | endsWith | contains | has =>
    cases a with
    | signed | unsigned => rfl
    | _ => cases left
  | _ => cases ordering <;> rfl

theorem integer_of_toI64 (is : a.toI64 = some n) : a.integer = some n := by
  match a with
  | .signed _ => exact is
  | .unsigned value =>
    rw [Value.toI64] at is
    split_ifs at is
    exact is

/-- The literal of an integer is compared as that integer. -/
theorem integer_literalValue (namespace_ : Namespace) (field : String) {literal : Literal} {bound : ℤ}
    (is : literal.integer = some bound) :
    (literalValue namespace_ field literal).integer = some bound := by
  match literal with
  | .signed _ | .unsigned _ => exact is

theorem evaluate_compare {literal : Literal} (has : record.lookup field = some value)
    (left : value.integer = some m)
    (right : (literalValue namespace_ field literal).integer = some n) :
    evaluate text namespace_ record (.compare field operator literal) =
      some (operator.onIntegers (compare m n)) := by
  have present : presentValue record field = some value := by
    unfold presentValue
    rw [has]
    match value with
    | .signed _ | .unsigned _ => rfl
  rw [evaluate, present]
  exact compareValues_integer text operator left right

/-! ### Times -/

/-- A time that compares with a bound as asked is within the bounds of the comparison. -/
theorem within_bounds (holds : operator.onIntegers (compare time bound) = true) :
    (∀ lower ∈ (operator.bounds bound).1, lower ≤ time) ∧
      ∀ upper ∈ (operator.bounds bound).2, time < upper := by
  rcases lt_trichotomy time bound with less | same | more
  · rw [compare_lt_iff_lt.2 less] at holds
    cases operator <;> simp [Operator.onIntegers, Operator.bounds] at holds ⊢ <;> omega
  · rw [compare_eq_iff_eq.2 same] at holds
    cases operator <;> simp [Operator.onIntegers, Operator.bounds] at holds ⊢ <;> omega
  · rw [compare_gt_iff_gt.2 more] at holds
    cases operator <;> simp [Operator.onIntegers, Operator.bounds] at holds ⊢ <;> omega

/-- Clamping does not move a bound across an `i64`. -/
theorem clamp_le (low : -2 ^ 63 ≤ time) (le : bound ≤ time) : clamp bound ≤ time := by
  unfold clamp
  split_ifs <;> omega

theorem lt_clamp (high : bound ≤ 2 ^ 63 - 1) (low : -2 ^ 63 ≤ time) (lt : time < bound) :
    time < clamp bound := by
  unfold clamp
  split_ifs <;> omega

theorem mem_narrowTo {bounds : Option ℤ × Option ℤ} {range : ℤ × ℤ} (low : -2 ^ 63 ≤ time)
    (inside : range.1 ≤ time ∧ time < range.2) (lowers : ∀ lower ∈ bounds.1, lower ≤ time)
    (uppers : ∀ upper ∈ bounds.2, time < upper) :
    (narrowTo bounds range).1 ≤ time ∧ time < (narrowTo bounds range).2 := by
  unfold narrowTo
  constructor
  · split
    · next lower is => exact max_le inside.1 (clamp_le low (lowers lower is))
    · exact inside.1
  · dsimp only
    split
    · next upper is =>
      obtain ⟨is, high⟩ := filter_eq_some_iff.1 is
      exact lt_min inside.2 (lt_clamp (of_decide_eq_true high) low (uppers upper is))
    · exact inside.2

/-- The time of a record that meets a predicate is in the range that the predicate leaves. -/
theorem mem_narrowBy {timeField : String} {range : ℤ × ℤ} {predicate : Expr}
    (has : record.lookup timeField = some value) (is : value.integer = some time)
    (low : -2 ^ 63 ≤ time) (inside : range.1 ≤ time ∧ time < range.2)
    (met : evaluate text namespace_ record predicate = some true) :
    (narrowBy timeField range predicate).1 ≤ time ∧ time < (narrowBy timeField range predicate).2 := by
  cases predicate with
  | compare field operator literal =>
    rw [narrowBy]
    by_cases same : field = timeField
    · rw [if_neg (not_not.2 same)]
      subst same
      cases bound : literal.integer with
      | none => exact inside
      | some bound' =>
        rw [evaluate_compare has is (integer_literalValue namespace_ field bound),
          some_inj] at met
        obtain ⟨lowers, uppers⟩ := within_bounds met
        exact mem_narrowTo low inside lowers uppers
    · rw [if_pos same]
      exact inside
  | _ => exact inside

theorem mem_narrowByTimestamp {timeField : String} (has : record.lookup timeField = some value)
    (is : value.integer = some time) (low : -2 ^ 63 ≤ time) (predicates : List Expr)
    {since until_ : ℤ} (inside : since ≤ time ∧ time < until_)
    (met : ∀ predicate ∈ predicates, evaluate text namespace_ record predicate = some true) :
    (narrowByTimestamp predicates timeField since until_).1 ≤ time ∧
      time < (narrowByTimestamp predicates timeField since until_).2 := by
  unfold narrowByTimestamp
  induction predicates using List.reverseRecOn with
  | nil => exact inside
  | append_singleton predicates last ih =>
    rw [List.foldl_append]
    exact mem_narrowBy has is low
      (ih fun predicate mem => met predicate (List.mem_append_left _ mem)) (met last (by simp))

/-! ### Columns -/

/-- The columns that hold integers. -/
def integerColumns : List String := ["cpu_id", "origin_class"]

/-- What a column of integers holds. -/
def EventRow.held (row : EventRow) (column : String) : Option ℕ :=
  if column = "cpu_id" then row.cpuId.map UInt16.toNat else row.originClass.map UInt8.toNat

/-- An operator of the query language in SQL. -/
def Operator.sqlSymbol : Operator → Option String
  | .equal => some "="
  | .notEqual => some "<>"
  | .greater => some ">"
  | .greaterEqual => some ">="
  | .less => some "<"
  | .lessEqual => some "<="
  | _ => none

/-- The comparisons that are put into SQL are about the columns that hold their fields. -/
theorem headerSql_eq_some {sql : String} (is : headerSql field operator = some sql) :
    ∃ column ∈ integerColumns, ∃ symbol,
      (∀ row : EventRow, (field, optionUnsigned (row.held column)) ∈ eventHeader row) ∧
      operator.sqlSymbol = some symbol ∧ sql = column ++ " " ++ symbol ++ " ?5" := by
  unfold headerSql at is
  split at is
  all_goals cases is
  all_goals first
    | exact ⟨"cpu_id", by decide, _, fun row => by simp [eventHeader, EventRow.held], rfl,
        by decide +kernel⟩
    | exact ⟨"origin_class", by decide, _, fun row => by simp [eventHeader, EventRow.held], rfl,
        by decide +kernel⟩

theorem sqlWords_comparison {column symbol : String} {operator : Operator}
    (mem : column ∈ integerColumns) (is : operator.sqlSymbol = some symbol) :
    sqlWords (column ++ " " ++ symbol ++ " ?5") = [column, symbol, "?5"] := by
  have words : ∀ column ∈ integerColumns, ∀ symbol ∈ ["=", "<>", ">", ">=", "<", "<="],
      sqlWords (column ++ " " ++ symbol ++ " ?5") = [column, symbol, "?5"] := by decide +kernel
  refine words column mem symbol ?_
  cases operator <;> cases is <;> decide

theorem sqlOperator_sqlSymbol (is : operator.sqlSymbol = some symbol) :
    sqlOperator symbol = some operator.onIntegers := by
  cases operator <;> cases is <;> rfl

theorem column_of_mem (mem : column ∈ integerColumns) (row : EventRow) :
    row.column column = some (((row.held column).map fun m => .integer m).getD .null) := by
  simp only [integerColumns, List.mem_cons, List.not_mem_nil, or_false] at mem
  rcases mem with rfl | rfl
  · cases cpu : row.cpuId <;> simp [EventRow.column, EventRow.held, cpu]
  · cases origin : row.originClass <;> simp [EventRow.column, EventRow.held, origin]

/-- SQLite compares a column of integers as the query language compares integers, and `NULL` with
none. -/
theorem holds_comparison (mem : column ∈ integerColumns) (is : operator.sqlSymbol = some symbol)
    (n : ℤ) (row : EventRow) :
    SqlConstraint.holds ⟨column ++ " " ++ symbol ++ " ?5", some (.integer n)⟩ row =
      (row.held column).map fun m => operator.onIntegers (compare (m : ℤ) n) := by
  unfold SqlConstraint.holds
  rw [sqlWords_comparison mem is]
  change compareColumn row column symbol id (.integer n) = _
  unfold compareColumn
  rw [column_of_mem mem, sqlOperator_sqlSymbol is]
  cases row.held column with
  | none => rfl
  | some m => rfl

theorem held_lt {m : ℕ} (held : row.held column = some m) :
    m < 2 ^ 64 := by
  unfold EventRow.held at held
  split_ifs at held
  · obtain ⟨cpu, -, rfl⟩ := map_eq_some_iff.1 held
    exact cpu.toNat_lt.trans (by decide)
  · obtain ⟨origin, -, rfl⟩ := map_eq_some_iff.1 held
    exact origin.toNat_lt.trans (by decide)

/-- A comparison that a row meets holds of its column. -/
theorem holds_of_comparison [MessagePack.Reader] {sql : String} {literal : Literal}
    (is : headerSql field operator = some sql)
    (value : (literalValue .events field literal).toI64 = some n)
    (met : evaluate text .events (eventRecord row) (.compare field operator literal) = some true) :
    SqlConstraint.holds ⟨sql, some (.integer n)⟩ row = some true := by
  obtain ⟨column, mem, symbol, header, known, rfl⟩ := headerSql_eq_some is
  have lookup := lookup_eventRecord row (header row)
  have right : (literalValue .events field literal).integer = some n := integer_of_toI64 value
  rw [holds_comparison mem known]
  cases held : row.held column with
  | none =>
    -- a field that is null meets no comparison
    rw [held] at lookup
    have absent : presentValue (eventRecord row) field = none := by
      unfold presentValue
      rw [lookup]
      rfl
    rw [evaluate, absent] at met
    cases met
  | some m =>
    rw [held] at lookup
    have left : (optionUnsigned (some m)).integer = some (m : ℤ) :=
      congrArg (some ∘ Nat.cast) (UInt64.toNat_ofNat_of_lt (held_lt held))
    rwa [evaluate_compare lookup left right] at met

/-- A text that a row's type is equal to holds of its column. -/
theorem holds_eventType [MessagePack.Reader] {value : String}
    (met : evaluate text .events (eventRecord row) (.compare "event.type" .equal (.string value)) =
      some true) :
    SqlConstraint.holds ⟨"event_type = ?5 COLLATE NOCASE", some (.text value)⟩ row = some true := by
  have lookup : (eventRecord row).lookup "event.type" = some (.string row.eventType) :=
    lookup_eventRecord row (by simp [eventHeader])
  have present : presentValue (eventRecord row) "event.type" = some (.string row.eventType) := by
    unfold presentValue
    rw [lookup]
    rfl
  have literal : literalValue .events "event.type" (.string value) = .string value := by
    simp [literalValue, guidFields]
  rw [evaluate, present, literal] at met
  have same : asciiEqual row.eventType value = true := by
    have equal : (Value.string row.eventType).languageEqual (.string value) = true :=
      Option.some.inj met
    unfold Value.languageEqual at equal
    rwa [numericCmp_eq_none (.inl rfl)] at equal
  have words : sqlWords "event_type = ?5 COLLATE NOCASE" =
      ["event_type", "=", "?5", "COLLATE", "NOCASE"] := by decide +kernel
  unfold SqlConstraint.holds
  rw [words]
  change some (compare ((bytesOf row.eventType).map foldAscii) ((bytesOf value).map foldAscii)).isEq = _
  rw [asciiEqual_iff.1 same, Std.ReflOrd.compare_self]
  rfl

/-- The condition that a predicate puts into SQL holds of every row that meets the predicate. -/
theorem holds_sqlHeaderConstraint [MessagePack.Reader] {predicate : Expr}
    {constraint : SqlConstraint} (is : sqlHeaderConstraint predicate = some constraint)
    (met : evaluate text .events (eventRecord row) predicate = some true) :
    constraint.holds row = some true := by
  cases predicate with
  | compare field operator literal =>
    unfold sqlHeaderConstraint at is
    dsimp only at is
    by_cases type : field = "event.type" ∧ operator = .equal
    · rw [if_pos type] at is
      obtain ⟨rfl, rfl⟩ := type
      cases literal with
      | string value =>
        cases is
        exact holds_eventType met
      | _ => cases is
    · rw [if_neg type] at is
      split_ifs at is
      obtain ⟨n, value, is⟩ := bind_eq_some_iff.1 is
      obtain ⟨sql, known, is⟩ := bind_eq_some_iff.1 is
      cases is
      exact holds_of_comparison known value met
  | _ => cases is

/-! ### No row is left out -/

/-- **What is asked of SQLite never decides: a row in the range of a query whose record meets every
predicate has its time in the range that the comparisons of the time leave, and the first condition
that a predicate puts into SQL is true of its columns.** -/
theorem narrowing_sound [MessagePack.Reader] (text : DebugText) (predicates : List Expr)
    (since until_ : ℤ) (row : EventRow) (stored : -2 ^ 63 ≤ row.timestamp ∧ row.timestamp < 2 ^ 63)
    (inside : since ≤ row.timestamp ∧ row.timestamp < until_)
    (met : ∀ predicate ∈ predicates,
      evaluate text .events (eventRecord row) predicate = some true) :
    ((narrowByTimestamp predicates "event.time" since until_).1 ≤ row.timestamp ∧
      row.timestamp < (narrowByTimestamp predicates "event.time" since until_).2) ∧
    ∀ constraint ∈ predicates.findSome? sqlHeaderConstraint, constraint.holds row = some true := by
  constructor
  · have lookup : (eventRecord row).lookup "event.time" = some (.signed (.ofInt row.timestamp)) :=
      lookup_eventRecord row (by simp [eventHeader])
    have time : (Value.signed (.ofInt row.timestamp)).integer = some row.timestamp :=
      congrArg some (Int64.toInt_ofInt_of_le stored.1 stored.2)
    exact mem_narrowByTimestamp lookup time stored.1 predicates inside met
  · intro constraint first
    obtain ⟨predicate, mem, is⟩ := List.exists_of_findSome?_eq_some first
    exact holds_sqlHeaderConstraint is (met predicate mem)

/-- An event of the class `kmes` with a payload that claims another class. -/
def claimedClass : EventRow where
  bootId := default
  timestamp := 7
  cpuId := none
  sequence := none
  originClass := some 1
  eventType := "Audit"
  effectiveTokenGuid := none
  trueTokenGuid := none
  processGuid := none
  -- {"emitter": {"class": 9}}
  payload := some (0x81 :: 0xa7 :: bytesOf "emitter" ++ 0x81 :: 0xa5 :: bytesOf "class" ++ [9])

/-- Predicates that the row meets by its columns. -/
def claimedPredicates : List Expr :=
  [.compare "event.time" .greaterEqual (.signed 5), .compare "emitter.class" .equal (.string "KMES"),
    .compare "event.type" .equal (.string "audit")]

section Example

attribute [local instance] MessagePack.formatReader

theorem narrowing_sound_claimedClass :
    (narrowByTimestamp claimedPredicates "event.time" 0 10 = (5, 10) ∧
      5 ≤ claimedClass.timestamp ∧ claimedClass.timestamp < 10) ∧
    claimedPredicates.findSome? sqlHeaderConstraint =
      some ⟨"origin_class = ?5", some (.integer 1)⟩ ∧
    SqlConstraint.holds ⟨"origin_class = ?5", some (.integer 1)⟩ claimedClass = some true := by
  have met : ∀ predicate ∈ claimedPredicates,
      evaluate default .events (eventRecord claimedClass) predicate = some true := by
    decide +kernel
  obtain ⟨time, column⟩ := narrowing_sound default claimedPredicates 0 10 claimedClass (by decide)
    (by decide) met
  have range : narrowByTimestamp claimedPredicates "event.time" 0 10 = (5, 10) := by decide
  have first : claimedPredicates.findSome? sqlHeaderConstraint =
      some ⟨"origin_class = ?5", some (.integer 1)⟩ := by decide +kernel
  rw [range] at time
  exact ⟨⟨range, time⟩, first, column _ first⟩

end Example

end Eventd
