import Eventd.Lib.Delimited
import Eventd.Query.Equality

/-!
# What `Debug` prints for a value

The order of values compares maps by their derived `Debug` text, so how well that text tells
maps apart matters to it.

* `DebugText`, `Value.debug`: what is printed;
* `at_debug`: the printed text tells the meaning of the value, and where it ends.
-/

namespace Eventd

open List Delimited

/-- The parts of `Debug` that rest on tables and algorithms of the standard library: which
characters a text shows as they are, and the digits of a number.  A number is printed with as
many digits as it takes to tell it from every other number. -/
structure DebugText where
  printable : Char → Bool
  float : Binary64 → List Char
  distinct : ∀ x y, float x = float y → x = y ∨ x.isNan = true ∧ y.isNan = true
  closed : ∀ x, ')' ∉ float x

/-- The decimal digits of an integer. -/
def decimal (n : ℤ) : List Char :=
  if n < 0 then '-' :: Nat.toDigits 10 n.natAbs else Nat.toDigits 10 n.natAbs

/-- `{:?}` of a character of a text. -/
def escapeDebug (text : DebugText) (c : Char) : List Char :=
  if c = '\x00' then ['\\', '0']
  else if c = '\t' then ['\\', 't']
  else if c = '\r' then ['\\', 'r']
  else if c = '\n' then ['\\', 'n']
  else if c = '\\' then ['\\', '\\']
  else if c = '"' then ['\\', '"']
  else if text.printable c then [c]
  else ['\\', 'u', '\x7b'] ++ Nat.toDigits 16 c.toNat ++ ['\x7d']

/-- `{:?}` of a text. -/
def quoted (text : DebugText) (s : String) : List Char :=
  '"' :: s.toList.flatMap (escapeDebug text) ++ ['"']

/-- `{:?}` of a list, from what it prints for the members. -/
def debugList (texts : List (List Char)) : List Char := '[' :: joined [',', ' '] texts ++ [']']

mutual

/-- `{:?}` of a value. -/
def Value.debug (text : DebugText) : Value → List Char
  | .null => "Null".toList
  | .bool value => "Bool(".toList ++ (if value then "true".toList else "false".toList) ++ [')']
  | .signed value => "Signed(".toList ++ decimal value.toInt ++ [')']
  | .unsigned value => "Unsigned(".toList ++ decimal value.toNat ++ [')']
  | .float value => "Float(".toList ++ text.float value ++ [')']
  | .string value => "String(".toList ++ quoted text value ++ [')']
  | .binary value => "Binary(".toList ++ debugList (value.map fun byte => decimal byte.toNat) ++ [')']
  | .array values => "Array(".toList ++ debugList (debugItems text values) ++ [')']
  | .map entries => "Map(".toList ++ debugList (debugEntries text entries) ++ [')']

def debugItems (text : DebugText) : List Value → List (List Char)
  | [] => []
  | value :: values => value.debug text :: debugItems text values

def debugEntries (text : DebugText) : List (Value × Value) → List (List Char)
  | [] => []
  | entry :: entries =>
    ('(' :: entry.1.debug text ++ [',', ' '] ++ entry.2.debug text ++ [')']) ::
      debugEntries text entries

end

/-! ### Numbers and texts -/

section Printed

variable {text : DebugText}

theorem mem_decimal {n : ℤ} {c : Char} (mem : c ∈ decimal n) : c = '-' ∨ ∃ d < 10, c = d.digitChar := by
  unfold decimal at mem
  by_cases negative : n < 0
  · rw [if_pos negative] at mem
    rcases mem_cons.1 mem with rfl | mem
    · exact .inl rfl
    · exact .inr (digit_of_mem_toDigits (by decide) mem)
  · rw [if_neg negative] at mem
    exact .inr (digit_of_mem_toDigits (by decide) mem)

/-- What may follow the digits of a number. -/
def afterNumber (c : Char) : Prop := c = ')' ∨ c = ',' ∨ c = ']'

theorem not_afterNumber {n : ℤ} {c : Char} (mem : c ∈ decimal n) : ¬ afterNumber c := by
  have digits : ∀ d < 10, ¬ (d.digitChar = ')' ∨ d.digitChar = ',' ∨ d.digitChar = ']') := by decide
  rcases mem_decimal mem with rfl | ⟨d, small, rfl⟩
  · unfold afterNumber
    decide
  · exact digits d small

theorem decimal_injective : Function.Injective decimal := by
  have minus (n : ℕ) (rest : List Char) : '-' :: rest ≠ Nat.toDigits 10 n := by
    intro eq
    obtain ⟨d, small, eq⟩ := digit_of_mem_toDigits (b := 10) (by decide) (eq ▸ mem_cons_self : '-' ∈ _)
    have digits : ∀ d < 10, '-' ≠ d.digitChar := by decide
    exact digits d small eq
  have digits := toDigits_injective (b := 10) (by decide) (by decide)
  intro m n same
  unfold decimal at same
  by_cases negative : m < 0
  · by_cases negative' : n < 0
    · rw [if_pos negative, if_pos negative'] at same
      have := digits (List.cons.inj same).2
      omega
    · rw [if_pos negative, if_neg negative'] at same
      exact absurd same (minus _ _)
  · by_cases negative' : n < 0
    · rw [if_neg negative, if_pos negative'] at same
      exact absurd same.symm (minus _ _)
    · rw [if_neg negative, if_neg negative'] at same
      have := digits same
      omega

theorem at_decimal (n : ℤ) : At Eq decimal (Stops afterNumber) n :=
  at_of_clean (fun _ _ mem => not_afterNumber mem) (fun _ _ same => decimal_injective same) n

theorem decimal_opens (n : ℤ) : ∃ c t, decimal n = c :: t ∧ c ≠ ']' := by
  cases digits : decimal n with
  | nil =>
    unfold decimal at digits
    by_cases negative : n < 0
    · rw [if_pos negative] at digits
      cases digits
    · rw [if_neg negative] at digits
      exact absurd digits Nat.toDigits_ne_nil
  | cons c t =>
    refine ⟨c, t, rfl, fun eq => not_afterNumber (n := n) (c := c) ?_ (.inr (.inr eq))⟩
    rw [digits]
    exact mem_cons_self

/-- The characters with an escape of their own. -/
def escapes : List (Char × Char) :=
  [('\x00', '0'), ('\t', 't'), ('\r', 'r'), ('\n', 'n'), ('\\', '\\'), ('"', '"')]

theorem escapeDebug_cases (text : DebugText) (c : Char) :
    (∃ letter, (c, letter) ∈ escapes ∧ escapeDebug text c = ['\\', letter]) ∨
      c ≠ '\\' ∧ c ≠ '"' ∧ escapeDebug text c = [c] ∨
      escapeDebug text c = ['\\', 'u', '\x7b'] ++ Nat.toDigits 16 c.toNat ++ ['\x7d'] := by
  unfold escapeDebug escapes
  split_ifs <;> simp_all

theorem at_escapeDebug (c : Char) : At Eq (escapeDebug text) (fun _ => True) c := by
  have letters : ∀ p ∈ escapes, ∀ q ∈ escapes, p.2 = q.2 → p.1 = q.1 := by decide
  have short : ∀ p ∈ escapes, p.2 ≠ 'u' := by decide
  have hex (n : ℕ) : ∀ c ∈ Nat.toDigits 16 n, ¬ c = '\x7d' := by
    intro c mem
    obtain ⟨d, small, rfl⟩ := digit_of_mem_toDigits (by decide) mem
    have digits : ∀ d < 16, d.digitChar ≠ '\x7d' := by decide
    exact digits d small
  intro d r s _ _ same
  rcases escapeDebug_cases text c with ⟨l, mem, eq⟩ | ⟨slash, -, eq⟩ | eq <;>
    rcases escapeDebug_cases text d with ⟨l', mem', eq'⟩ | ⟨slash', -, eq'⟩ | eq' <;>
    rw [eq, eq'] at same <;> obtain ⟨first, rest⟩ := List.cons.inj same
  · obtain ⟨same, rest⟩ := List.cons.inj rest
    exact ⟨letters _ mem _ mem' same, rest⟩
  · exact absurd first.symm slash'
  · exact absurd (List.cons.inj rest).1 (short _ mem)
  · exact absurd first slash
  · exact ⟨first, rest⟩
  · exact absurd first slash
  · exact absurd (List.cons.inj rest).1.symm (short _ mem')
  · exact absurd first.symm slash'
  · simp only [append_assoc] at same
    obtain ⟨number, rest⟩ := stop_inj (hex _) (hex _) ⟨_, _, rfl, rfl⟩ ⟨_, _, rfl, rfl⟩
      (append_cancel_left same)
    exact ⟨Char.toNat_inj.1 (toDigits_injective (by decide) (by decide) number),
      (List.cons.inj rest).2⟩

theorem escapeDebug_opens (c : Char) : ∃ d t, escapeDebug text c = d :: t ∧ d ≠ '"' := by
  rcases escapeDebug_cases text c with ⟨l, -, eq⟩ | ⟨-, quote, eq⟩ | eq
  · exact ⟨_, _, eq, by decide⟩
  · exact ⟨_, _, eq, quote⟩
  · exact ⟨_, _, eq, by decide⟩

theorem at_quoted (x : String) : At Eq (quoted text) (fun _ => True) x := by
  intro y r s _ _ same
  unfold quoted at same
  simp only [cons_append, append_assoc, nil_append] at same
  obtain ⟨chars, rest⟩ := forall₂_flatMap (fun c _ => at_escapeDebug c) escapeDebug_opens
    (fun _ => trivial) (fun _ _ => trivial) (List.cons.inj same).2
  exact ⟨String.toList_inj.1 (forall₂_eq_eq_eq.le _ _ chars), rest⟩

/-! ### Values -/

/-- The beginning of what is printed for a value. -/
def Value.tag : Value → List Char
  | .null => ['N', 'u']
  | .bool _ => ['B', 'o']
  | .signed _ => ['S', 'i']
  | .unsigned _ => ['U', 'n']
  | .float _ => ['F', 'l']
  | .string _ => ['S', 't']
  | .binary _ => ['B', 'i']
  | .array _ => ['A', 'r']
  | .map _ => ['M', 'a']

theorem debug_tag (text : DebugText) (v : Value) : ∃ rest, v.debug text = v.tag ++ rest := by
  cases v <;> exact ⟨_, rfl⟩

theorem tag_eq {a b : Value} {r s : List Char} (same : a.debug text ++ r = b.debug text ++ s) :
    a.tag = b.tag := by
  have two (v : Value) : v.tag.length = 2 := by cases v <;> rfl
  obtain ⟨rest, eq⟩ := debug_tag text a
  obtain ⟨rest', eq'⟩ := debug_tag text b
  rw [eq, eq', append_assoc, append_assoc] at same
  exact append_inj_left same ((two a).trans (two b).symm)

theorem debugItems_eq (values : List Value) : debugItems text values = values.map (Value.debug text) := by
  induction values with
  | nil => rfl
  | cons value values ih => rw [debugItems, ih, map_cons]

/-- `{:?}` of a pair. -/
def debugEntry (text : DebugText) (entry : Value × Value) : List Char :=
  '(' :: entry.1.debug text ++ [',', ' '] ++ entry.2.debug text ++ [')']

theorem debugEntries_eq (entries : List (Value × Value)) :
    debugEntries text entries = entries.map (debugEntry text) := by
  induction entries with
  | nil => rfl
  | cons entry entries ih => rw [debugEntries, ih, map_cons, debugEntry]

theorem debug_opens (v : Value) : ∃ c t, v.debug text = c :: t ∧ c ≠ ']' := by
  cases v <;> exact ⟨_, _, rfl, by decide⟩

/-- A list, up to the bracket that closes it. -/
theorem debugList_inj {α : Type*} {R : α → α → Prop} {print : α → List Char} {as bs : List α}
    {r s : List Char} {follow : List Char → Prop} (each : ∀ a ∈ as, At R print follow a)
    (opens : ∀ a, ∃ c t, print a = c :: t ∧ c ≠ ']') (closes : ∀ r, follow (']' :: r))
    (goes : ∀ r, follow (',' :: r))
    (same : debugList (as.map print) ++ r = debugList (bs.map print) ++ s) :
    List.Forall₂ R as bs ∧ r = s := by
  unfold debugList at same
  simp only [cons_append, append_assoc, nil_append] at same
  exact forall₂_joined (by decide) each opens closes goes (List.cons.inj same).2

/-- What stands between the name of a kind and its bracket. -/
theorem inner_eq {opening inner inner' r s : List Char}
    (same : opening ++ inner ++ [')'] ++ r = opening ++ inner' ++ [')'] ++ s) :
    inner ++ ')' :: r = inner' ++ ')' :: s := by
  simp only [append_assoc] at same
  exact append_cancel_left same

theorem at_debugEntry {entry : Value × Value}
    (first : At (fun a b : Value => a.meaning = b.meaning) (Value.debug text) (fun _ => True) entry.1)
    (second : At (fun a b : Value => a.meaning = b.meaning) (Value.debug text) (fun _ => True) entry.2) :
    At (fun a b : Value × Value => a.1.meaning = b.1.meaning ∧ a.2.meaning = b.2.meaning)
      (debugEntry text) (fun _ => True) entry := by
  intro other r s _ _ same
  unfold debugEntry at same
  simp only [cons_append, append_assoc, nil_append] at same
  obtain ⟨key, same⟩ := first _ _ _ trivial trivial (List.cons.inj same).2
  obtain ⟨value, same⟩ := second _ _ _ trivial trivial (List.cons.inj (List.cons.inj same).2).2
  exact ⟨⟨key, value⟩, (List.cons.inj same).2⟩

/-- Two values that print the same name. -/
inductive SameForm : Value → Value → Prop
  | null : SameForm .null .null
  | bool (x y : Bool) : SameForm (.bool x) (.bool y)
  | signed (x y : Int64) : SameForm (.signed x) (.signed y)
  | unsigned (x y : UInt64) : SameForm (.unsigned x) (.unsigned y)
  | float (x y : Binary64) : SameForm (.float x) (.float y)
  | string (x y : String) : SameForm (.string x) (.string y)
  | binary (x y : List UInt8) : SameForm (.binary x) (.binary y)
  | array (x y : List Value) : SameForm (.array x) (.array y)
  | map (x y : List (Value × Value)) : SameForm (.map x) (.map y)

theorem sameForm {a b : Value} {r s : List Char} (same : a.debug text ++ r = b.debug text ++ s) :
    SameForm a b := by
  have tags := tag_eq same
  cases a <;> cases b <;> first | constructor | cases tags

theorem float_inj {x y : Binary64} {r s : List Char}
    (same : text.float x ++ ')' :: r = text.float y ++ ')' :: s) :
    (Value.float x).meaning = (Value.float y).meaning ∧ ')' :: r = ')' :: s := by
  have clean (z : Binary64) : ∀ c ∈ text.float z, ¬ c = ')' := by
    rintro c mem rfl
    exact text.closed z mem
  obtain ⟨eq, rest⟩ := stop_inj (clean x) (clean y) ⟨_, _, rfl, rfl⟩ ⟨_, _, rfl, rfl⟩ same
  refine ⟨?_, rest⟩
  rcases text.distinct x y eq with rfl | ⟨nan, nan'⟩
  · rfl
  · rw [Value.meaning, Value.meaning, if_pos nan, if_pos nan']

theorem at_byte (byte : UInt8) :
    At Eq (fun byte : UInt8 => decimal byte.toNat) (Stops afterNumber) byte := by
  intro other r s stops stops' same
  obtain ⟨eq, rest⟩ := at_decimal _ _ r s stops stops' same
  exact ⟨UInt8.toNat_inj.1 (Int.ofNat_inj.1 eq), rest⟩

theorem decimal_inj {m n : ℤ} {r s : List Char} (same : decimal m ++ ')' :: r = decimal n ++ ')' :: s) :
    m = n ∧ ')' :: r = ')' :: s :=
  at_decimal m n _ _ (stops_cons (.inl rfl) r) (stops_cons (.inl rfl) s) same

/-- **What is printed for a value tells what it means.** -/
theorem at_debug (a : Value) :
    At (fun a b : Value => a.meaning = b.meaning) (Value.debug text) (fun _ => True) a := by
  induction a using Value.induct_members with
  | _ a items entries =>
    intro b r s _ _ same
    cases sameForm same with
    | null => exact ⟨rfl, append_cancel_left same⟩
    | bool x y =>
      have inner := inner_eq same
      cases x <;> cases y
      · exact ⟨rfl, (List.cons.inj (append_cancel_left inner)).2⟩
      · exact absurd (List.cons.inj inner).1 (by decide)
      · exact absurd (List.cons.inj inner).1 (by decide)
      · exact ⟨rfl, (List.cons.inj (append_cancel_left inner)).2⟩
    | signed x y =>
      obtain ⟨eq, rest⟩ := decimal_inj (inner_eq same)
      rw [Int64.toInt_inj.1 eq]
      exact ⟨rfl, (List.cons.inj rest).2⟩
    | unsigned x y =>
      obtain ⟨eq, rest⟩ := decimal_inj (inner_eq same)
      rw [UInt64.toNat_inj.1 (Int.ofNat_inj.1 eq)]
      exact ⟨rfl, (List.cons.inj rest).2⟩
    | float x y =>
      obtain ⟨eq, rest⟩ := float_inj (inner_eq same)
      exact ⟨eq, (List.cons.inj rest).2⟩
    | string x y =>
      obtain ⟨rfl, rest⟩ := at_quoted x y _ _ trivial trivial (inner_eq same)
      exact ⟨rfl, (List.cons.inj rest).2⟩
    | binary x y =>
      obtain ⟨eq, rest⟩ := debugList_inj (fun byte _ => at_byte byte) (fun _ => decimal_opens _)
        (stops_cons (.inr (.inr rfl))) (stops_cons (.inr (.inl rfl))) (inner_eq same)
      rw [forall₂_eq_eq_eq] at eq
      exact ⟨congrArg Meaning.binary eq, (List.cons.inj rest).2⟩
    | array x y =>
      have inner := inner_eq same
      rw [debugItems_eq, debugItems_eq] at inner
      obtain ⟨eq, rest⟩ := debugList_inj (items x rfl) debug_opens (fun _ => trivial)
        (fun _ => trivial) inner
      exact ⟨congrArg Meaning.array (meaningItems_eq eq), (List.cons.inj rest).2⟩
    | map x y =>
      have inner := inner_eq same
      rw [debugEntries_eq, debugEntries_eq] at inner
      obtain ⟨eq, rest⟩ := debugList_inj
        (fun e mem => at_debugEntry (entries x rfl e mem).1 (entries x rfl e mem).2)
        (fun _ => ⟨_, _, rfl, by decide⟩) (fun _ => trivial) (fun _ => trivial) inner
      exact ⟨congrArg Meaning.map (meaningEntries_eq eq), (List.cons.inj rest).2⟩

/-- Numbers may be printed by their bits. -/
instance : Inhabited DebugText where
  default :=
    { printable := fun _ => true
      float := fun x => if x.isNan then ['N'] else decimal x.bits.toNat
      distinct := by
        have letter (n : ℤ) : ['N'] ≠ decimal n := by
          intro eq
          have digits : ∀ d < 10, 'N' ≠ d.digitChar := by decide
          rcases mem_decimal (eq ▸ mem_cons_self : 'N' ∈ decimal n) with minus | ⟨d, small, eq⟩
          · exact absurd minus (by decide)
          · exact digits d small eq
        rintro ⟨x⟩ ⟨y⟩ same
        by_cases nan : (Binary64.mk x).isNan = true <;> by_cases nan' : (Binary64.mk y).isNan = true
        · exact .inr ⟨nan, nan'⟩
        · rw [if_pos nan, if_neg nan'] at same
          exact absurd same (letter _)
        · rw [if_neg nan, if_pos nan'] at same
          exact absurd same.symm (letter _)
        · rw [if_neg nan, if_neg nan'] at same
          exact .inl (congrArg _ (UInt64.toNat_inj.1 (Int.ofNat_inj.1 (decimal_injective same))))
      closed := by
        intro x mem
        by_cases nan : x.isNan = true
        · rw [if_pos nan] at mem
          exact absurd mem (by decide)
        · rw [if_neg nan] at mem
          exact not_afterNumber mem (.inl rfl) }

end Printed

end Eventd
