import Eventd.Query.Order
import Eventd.Query.Language

/-!
# Conditions on a record

`evaluate` of `eventd/src/query/executor.rs` and the operators it is made of.  A text
operator that cuts a text inside a character stops the query thread; evaluation is then
`none`.

* `Outcome`: an answer, an error, or a thread that stops while it evaluates a condition;
* `literalValue`: what the literals of a condition stand for;
* `asciiStartsWith`, `asciiEndsWith`, `asciiContains`: the text operators;
* `evaluate`: whether a record meets a condition;
* `text_operators_exact_iff`: for which texts the operators answer, and answer rightly.
-/

namespace Eventd

open List TextSlice

/-! ### How a query ends -/

/-- How a query ends: with an answer or an error, unless its thread stops. -/
abbrev Outcome := ExceptT QueryError Option

instance {α : Type} [DecidableEq α] : DecidableEq (Outcome α) :=
  inferInstanceAs (DecidableEq (Option (Except QueryError α)))

/-- A part of a query that does not stop its thread. -/
def settled {α : Type} (result : Except QueryError α) : Outcome α := ExceptT.mk (some result)

@[simp] theorem settled_ok_bind {α β : Type} (a : α) (f : α → Outcome β) :
    settled (.ok a) >>= f = f a := rfl

theorem bind_eq_settled_ok {α β : Type} {x : Outcome α} {f : α → Outcome β} {b : β} :
    x >>= f = settled (.ok b) ↔ ∃ a, x = settled (.ok a) ∧ f a = settled (.ok b) := by
  constructor
  · intro eq
    match x with
    | some (.ok a) => exact ⟨a, rfl, eq⟩
    | some (.error error) => cases eq
    | none => cases eq
  · rintro ⟨a, rfl, eq⟩
    exact eq

/-- `authorize_identifiers` as the executor calls it: each identifier once, in order. -/
def authorizedIdentifiers {τ : Type} (authorizer : Authorizer τ) (namespace_ : Namespace)
    (identifiers fields : List String) : Except QueryError (List String) :=
  (authorizer.authorizeIdentifiers namespace_ (identifiers.insertionSort (· ≤ ·)).dedup
    fields).mapError .security

/-! ### Literals -/

/-- Whether a byte is a hexadecimal digit. -/
def isHexDigit (byte : UInt8) : Bool :=
  (0x30 ≤ byte && byte ≤ 0x39) || (0x41 ≤ byte && byte ≤ 0x46) || (0x61 ≤ byte && byte ≤ 0x66)

/-- A text without the braces around it, if it has both. -/
def withoutBraces (value : String) : String :=
  match value.toList with
  | '\x7b' :: rest => if rest.getLast? = some '\x7d' then String.ofList rest.dropLast else value
  | _ => value

/-- A GUID as records hold it: in braces and in lower case. -/
def canonicalGuidLiteral (value : String) : Option String :=
  let body := withoutBraces value
  let bytes := bytesOf body
  if bytes.length ≠ 36 ∨ (([8, 13, 18, 23] : List ℕ).any fun index => bytes[index]? != some 0x2d) ∨
      (bytes.zipIdx.any fun (byte, index) =>
        !([8, 13, 18, 23] : List ℕ).contains index && !isHexDigit byte) then
    none
  else some ("\x7b" ++ body.toLower ++ "\x7d")

/-- The fields of each namespace that hold a GUID. -/
def guidFields : Namespace → List String
  | .events =>
    ["emitter.token.guid", "emitter.true-token.guid", "emitter.process.guid", "event.boot.guid"]
  | .logs => ["boot_id", "job_id"]
  | .metrics => ["boot_id"]

/-- The value that a literal is compared as. -/
def literalValue (namespace_ : Namespace) (field : String) : Literal → Value
  | .signed value => .signed value
  | .unsigned value => .unsigned value
  | .float value => .float value
  | .string value =>
    if namespace_ = .events ∧ field = "emitter.class" then
      match value.toLower with
      | "userspace" => .unsigned 0
      | "kmes" => .unsigned 1
      | "kacs" => .unsigned 2
      | "lcs" => .unsigned 3
      | _ => .string value
    else if field ∈ guidFields namespace_ then
      .string ((canonicalGuidLiteral value).getD value)
    else .string value
  | .binary value => .binary value
  | .bool value => .bool value

/-! ### Operators -/

/-- Whether two numbers are in an order.  A NaN is in none. -/
def numericOrder (text : DebugText) (left right : Value) (wanted : Ordering) : Bool :=
  left.isNumber && right.isNumber && !left.isNan && !right.isNan &&
    left.languageCmp text right == wanted

/-- A text operator on two values; what is not a text has no answer but `false`. -/
def stringOperation (left right : Value) (operation : String → String → Option Bool) :
    Option Bool :=
  match left, right with
  | .string left, .string right => operation left right
  | _, _ => some false

/-- Whether an array has a member that is equal to a value. -/
def arrayContains (left right : Value) : Bool :=
  match left with
  | .array elements => elements.any fun element => element.languageEqual right
  | _ => false

/-- The bytes of a text with ASCII letters in lower case. -/
def foldedBytes (text : String) : List UInt8 := (bytesOf text).map foldAscii

/-- All stretches of a list that are `size` long, for a `size` that is not zero. -/
def windows (size : ℕ) (bytes : List UInt8) : List (List UInt8) :=
  (bytes.tails.filter fun tail => size ≤ tail.length).map fun tail => tail.take size

def asciiContains (value needle : String) : Option Bool :=
  let value := foldedBytes value
  let needle := foldedBytes needle
  some (needle.isEmpty || (windows needle.length value).any fun window => window == needle)

def asciiStartsWith (value needle : String) : Option Bool :=
  if (bytesOf needle).length ≤ (bytesOf value).length then
    (sliceTo (bytesOf value) (bytesOf needle).length).map fun slice =>
      equalFolded slice (bytesOf needle)
  else some false

def asciiEndsWith (value needle : String) : Option Bool :=
  if (bytesOf needle).length ≤ (bytesOf value).length then
    (sliceFrom (bytesOf value) ((bytesOf value).length - (bytesOf needle).length)).map fun slice =>
      equalFolded slice (bytesOf needle)
  else some false

/-! ### Conditions -/

/-- The value of a field, unless it is absent or null. -/
def presentValue (record : Record) (field : String) : Option Value :=
  (record.lookup field).filter fun
    | .null => false
    | _ => true

/-- How a value that is present compares with another. -/
def compareValues (text : DebugText) (operator : Operator) (actual expected : Value) :
    Option Bool :=
  match operator with
  | .equal => some (actual.languageEqual expected)
  | .notEqual => some !(actual.languageEqual expected)
  | .greater => some (numericOrder text actual expected .gt)
  | .greaterEqual =>
    some (numericOrder text actual expected .gt || numericOrder text actual expected .eq)
  | .less => some (numericOrder text actual expected .lt)
  | .lessEqual =>
    some (numericOrder text actual expected .lt || numericOrder text actual expected .eq)
  | .startsWith => stringOperation actual expected asciiStartsWith
  | .endsWith => stringOperation actual expected asciiEndsWith
  | .contains => stringOperation actual expected asciiContains
  | .has => some (arrayContains actual expected)

/-- Whether a record meets a condition; `none` if the evaluation stops the thread. -/
def evaluate (text : DebugText) (namespace_ : Namespace) (record : Record) : Expr → Option Bool
  | .and left right => do
      if ← evaluate text namespace_ record left then evaluate text namespace_ record right
      else return false
  | .or left right => do
      if ← evaluate text namespace_ record left then return true
      else evaluate text namespace_ record right
  | .null field negated => some ((presentValue record field).isNone != negated)
  | .in_ field negated values =>
    some <| match presentValue record field with
      | none => false
      | some actual => values.any (fun value =>
        actual.languageEqual (literalValue namespace_ field value)) != negated
  | .compare field operator value =>
    match presentValue record field with
    | none => some false
    | some actual => compareValues text operator actual (literalValue namespace_ field value)

/-! ### The text operators on any two texts -/

/-- Whether a text may be cut as far from either end as another is long, if it is as long. -/
def Sliceable (value needle : String) : Prop :=
  (bytesOf needle).length ≤ (bytesOf value).length →
    isBoundary (bytesOf value) (bytesOf needle).length = true ∧
      isBoundary (bytesOf value) ((bytesOf value).length - (bytesOf needle).length) = true

@[simp] theorem length_foldedBytes (text : String) :
    (foldedBytes text).length = (bytesOf text).length := length_map _

/-- A slice that is compared with a text: none at a position that is no boundary, and `false` if
the text does not fit. -/
theorem compareSlice_eq {value : List UInt8} {needle : String} {place : ℕ} {slice : List UInt8}
    {holds : Prop} [Decidable holds] (fits : holds → (bytesOf needle).length ≤ value.length)
    (same : equalFolded slice (bytesOf needle) = true ↔ holds) :
    (if (bytesOf needle).length ≤ value.length then
        (if isBoundary value place then some slice else none).map (equalFolded · (bytesOf needle))
      else some false) =
      if (bytesOf needle).length ≤ value.length ∧ isBoundary value place = false then none
      else some (decide holds) := by
  by_cases le : (bytesOf needle).length ≤ value.length
  · rw [if_pos le]
    cases boundary : isBoundary value place with
    | false => rw [if_neg Bool.false_ne_true, if_pos ⟨le, rfl⟩, Option.map_none]
    | true =>
      rw [if_pos rfl, if_neg (by simp), Option.map_some, Option.some_inj, Bool.eq_iff_iff, same,
        decide_eq_true_iff]
  · rw [if_neg le, if_neg (by tauto), Option.some_inj, eq_comm, decide_eq_false_iff_not]
    exact fun holds => le (fits holds)

theorem asciiStartsWith_eq (value needle : String) :
    asciiStartsWith value needle =
      if (bytesOf needle).length ≤ (bytesOf value).length ∧
          isBoundary (bytesOf value) (bytesOf needle).length = false then none
      else some (decide (foldedBytes needle <+: foldedBytes value)) := by
  refine compareSlice_eq (fun isPrefix => by simpa using isPrefix.length_le) ?_
  rw [equalFolded_iff, prefix_iff_eq_take, length_foldedBytes, eq_comm, map_take]
  rfl

theorem asciiEndsWith_eq (value needle : String) :
    asciiEndsWith value needle =
      if (bytesOf needle).length ≤ (bytesOf value).length ∧
          isBoundary (bytesOf value) ((bytesOf value).length - (bytesOf needle).length) = false then
        none
      else some (decide (foldedBytes needle <:+ foldedBytes value)) := by
  refine compareSlice_eq (fun isSuffix => by simpa using isSuffix.length_le) ?_
  rw [equalFolded_iff, suffix_iff_eq_drop, length_foldedBytes, length_foldedBytes, eq_comm, map_drop]
  rfl

theorem mem_windows {bytes window : List UInt8} :
    window ∈ windows window.length bytes ↔ window <:+: bytes := by
  rw [windows, mem_map, infix_iff_prefix_suffix]
  refine exists_congr fun tail => ?_
  rw [mem_filter, mem_tails, decide_eq_true_iff]
  constructor
  · rintro ⟨⟨suffix, -⟩, eq⟩
    exact ⟨prefix_iff_eq_take.2 eq.symm, suffix⟩
  · rintro ⟨isPrefix, suffix⟩
    exact ⟨⟨suffix, isPrefix.length_le⟩, (prefix_iff_eq_take.1 isPrefix).symm⟩

theorem asciiContains_eq (value needle : String) :
    asciiContains value needle = some (decide (foldedBytes needle <:+: foldedBytes value)) := by
  rw [asciiContains, Option.some_inj, Bool.eq_iff_iff, decide_eq_true_iff, ← mem_windows,
    Bool.or_eq_true, List.any_beq', List.contains_iff_mem, List.isEmpty_iff]
  constructor
  · rintro (empty | mem)
    · rw [empty, mem_windows]
      exact nil_infix
    · exact mem
  · exact .inr

/-- The operators whose operands are texts. -/
def textOperators : List Operator := [.startsWith, .endsWith, .contains]

/-- **On two texts the text operators answer, and answer whether the folded bytes of one are at
the start, at the end or anywhere in those of the other, and so a condition with such an operator
does not stop the query, exactly if the longer text has no character across a position that is
the shorter one's length from its start or its end.** -/
theorem text_operators_exact_iff (text : DebugText) (value needle : String) :
    (asciiStartsWith value needle = some (decide (foldedBytes needle <+: foldedBytes value)) ∧
      asciiEndsWith value needle = some (decide (foldedBytes needle <:+ foldedBytes value)) ∧
      asciiContains value needle = some (decide (foldedBytes needle <:+: foldedBytes value)) ∧
      ∀ namespace_ field literal operator record, operator ∈ textOperators →
        presentValue record field = some (.string value) →
        literalValue namespace_ field literal = .string needle →
        evaluate text namespace_ record (.compare field operator literal) ≠ none) ↔
      Sliceable value needle := by
  constructor
  · rintro ⟨starts, ends, -, -⟩ le
    rw [asciiStartsWith_eq] at starts
    rw [asciiEndsWith_eq] at ends
    constructor
    · by_contra inside
      rw [if_pos ⟨le, Bool.eq_false_of_not_eq_true inside⟩] at starts
      cases starts
    · by_contra inside
      rw [if_pos ⟨le, Bool.eq_false_of_not_eq_true inside⟩] at ends
      cases ends
  · intro sliceable
    have starts := asciiStartsWith_eq value needle
    have ends := asciiEndsWith_eq value needle
    rw [if_neg fun inside => Bool.false_ne_true (inside.2.symm.trans (sliceable inside.1).1)] at starts
    rw [if_neg fun inside => Bool.false_ne_true (inside.2.symm.trans (sliceable inside.1).2)] at ends
    refine ⟨starts, ends, asciiContains_eq value needle, ?_⟩
    intro namespace_ field literal operator record isText actual expected
    rw [evaluate, actual, expected]
    simp only [textOperators, mem_cons, not_mem_nil, or_false] at isText
    rcases isText with rfl | rfl | rfl
    · exact ne_of_eq_of_ne starts (Option.some_ne_none _)
    · exact ne_of_eq_of_ne ends (Option.some_ne_none _)
    · exact Option.some_ne_none _

/-- An accented letter is two bytes long: comparing its first byte with a letter stops the
query. -/
theorem starts_with_stops_query :
    asciiStartsWith "é" "a" = none ∧
      ∀ text, evaluate text .logs [("message", .string "é")]
        (.compare "message" .startsWith (.string "a")) = none := by
  refine ⟨by decide +kernel, fun text => ?_⟩
  change asciiStartsWith "é" "a" = none
  decide +kernel

end Eventd
