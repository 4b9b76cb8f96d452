import Eventd.Query.Time

/-!
# Times and durations in a query

The parser of `eventd/src/query_language.rs`, as far as the times of `SINCE` and `UNTIL` and
the durations of windows go.  A parser holds the tokens it has not consumed.

* `parseDuration`, `validateAbsoluteTime`: the two kinds of text a time may have;
* `Parse`, `Parser.word`, `Parser.time`;
* `validate_of_time`: the parser makes a time of a text only if the text is validated.
-/

namespace Eventd

open Fallible TextSlice Decimal

inductive Symbol
  | leftBracket
  | rightBracket
  | leftParen
  | rightParen
  | comma
  | equal
  | equalEqual
  | notEqual
  | greater
  | greaterEqual
  | less
  | lessEqual
  deriving DecidableEq

inductive Token
  | word (value : String)
  | string (value : String)
  | binary (value : List UInt8)
  | symbol (symbol : Symbol)
  deriving DecidableEq

/-- Why parsing stops. -/
inductive Stop
  | error (message : String)
  /-- A text is cut inside a character or beyond its end. -/
  | panic
  deriving DecidableEq

/-! ### Texts -/

/-- The seconds of a unit of time. -/
def secondsPer (unit : List UInt8) : Option ℕ :=
  if unit = bytesOf "s" then some 1
  else if unit = bytesOf "m" then some 60
  else if unit = bytesOf "h" then some 3600
  else if unit = bytesOf "d" then some 86400
  else none

/-- The nanoseconds of a duration: a number and a unit. -/
def parseDuration (value : String) : Except Stop ℕ := do
  let cut := (bytesOf value).length - 1
  if isBoundary (bytesOf value) cut = false then throw .panic
  let digits := (bytesOf value).take cut
  let unit := (bytesOf value).drop cut
  if digits.isEmpty || digits.any (fun byte => !isDigit byte) then throw (.error "invalid duration")
  let count := Decimal.decimal digits
  if u64Max < count then throw (.error "duration is too large")
  if count = 0 then throw (.error "duration must be non-zero")
  match secondsPer unit with
  | none => throw (.error "invalid duration unit")
  | some seconds =>
    if count * seconds ≤ u64Max ∧ count * seconds * 1000000000 ≤ u64Max then
      return count * seconds * 1000000000
    else throw (.error "duration is too large")

/-- Whether the separators of a text are those of a date, or of a date and a time. -/
def hasTimeShape (bytes : List UInt8) : Bool :=
  (bytes.length = 10 && bytes[4]? = some 0x2d && bytes[7]? = some 0x2d) ||
    (bytes.length = 19 && bytes[4]? = some 0x2d && bytes[7]? = some 0x2d &&
      bytes[10]? = some 0x54 && bytes[13]? = some 0x3a && bytes[16]? = some 0x3a)

def validateAbsoluteTime (value : String) : Except Stop Unit :=
  if hasTimeShape (bytesOf value) then .ok () else .error (.error "invalid absolute time")

/-! ### Parsing -/

structure Parser where
  tokens : List Token
  parenthesisDepth : ℕ

abbrev Parse := StateT Parser (Except Stop)

namespace Parser

/-- Consume a token. -/
def next : Parse (Option Token) := fun parser =>
  match parser.tokens with
  | [] => .ok (none, parser)
  | token :: tokens => .ok (some token, { parser with tokens })

def word : Parse String := do
  match ← next with
  | some (.word value) => return value
  | _ => throw (.error "expected keyword")

/-- A time of a query. -/
def time : Parse TimeExpr := do
  let value ← word
  if asciiEqual value "today" then return .today
  if asciiEqual value "yesterday" then return .yesterday
  match parseDuration value with
  | .ok nanoseconds =>
    let direction ← word
    if direction.toLower = "ago" then return .relative nanoseconds false
    if direction.toLower = "hence" then return .relative nanoseconds true
    throw (.error "duration time needs ago or hence")
  | .error .panic => throw .panic
  | .error (.error _) =>
    validateAbsoluteTime value
    return .absolute value

end Parser

/-! ### Absolute times are validated -/

/-- The parser makes an absolute time of a text only if the text is validated. -/
theorem validate_of_time {parser parser' : Parser} {text : String}
    (parsed : Parser.time parser = .ok (.absolute text, parser')) :
    validateAbsoluteTime text = .ok () := by
  obtain ⟨⟨value, mid⟩, -, parsed⟩ := bind_eq_ok.1 parsed
  dsimp only at parsed
  by_cases today : asciiEqual value "today" = true
  · rw [if_pos today] at parsed
    cases parsed
  rw [if_neg today] at parsed
  by_cases yesterday : asciiEqual value "yesterday" = true
  · rw [if_pos yesterday] at parsed
    cases parsed
  rw [if_neg yesterday] at parsed
  cases duration : parseDuration value with
  | ok nanoseconds =>
    rw [duration] at parsed
    obtain ⟨⟨direction, after⟩, -, parsed⟩ := bind_eq_ok.1 parsed
    dsimp only at parsed
    split_ifs at parsed <;> cases parsed
  | error stop =>
    rw [duration] at parsed
    cases stop with
    | panic => cases parsed
    | error message =>
      obtain ⟨⟨_, _⟩, validated, parsed⟩ := bind_eq_ok.1 parsed
      cases parsed
      obtain ⟨_, validated, -⟩ := bind_eq_ok.1 validated
      exact validated

end Eventd
