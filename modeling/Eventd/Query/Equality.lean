import Eventd.Query.Number

/-!
# Equality of values

`language_equal` of `eventd/src/query/value.rs`.  Numbers are equal by their value, texts
with ASCII case folded, arrays and maps member by member.

* `Value.languageEqual`: the function;
* `Meaning`, `languageEqual_iff`: what equality looks at, and that it looks at nothing else.
-/

namespace Eventd

open List

/-! ### Texts -/

/-- The bytes of a text. -/
def bytesOf (text : String) : List UInt8 := text.toUTF8.data.toList

def foldAscii (byte : UInt8) : UInt8 :=
  if 0x41 ≤ byte ∧ byte ≤ 0x5a then byte + 0x20 else byte

/-- The comparison of texts, by their bytes. -/
def equalFolded (left right : List UInt8) : Bool :=
  decide (left.length = right.length) &&
    (left.zip right).all fun pair => foldAscii pair.1 == foldAscii pair.2

def asciiEqual (left right : String) : Bool := equalFolded (bytesOf left) (bytesOf right)

theorem equalFolded_iff {left right : List UInt8} :
    equalFolded left right = true ↔ left.map foldAscii = right.map foldAscii := by
  unfold equalFolded
  rw [Bool.and_eq_true, decide_eq_true_eq]
  induction left generalizing right with
  | nil => cases right <;> simp
  | cons a left ih =>
    cases right with
    | nil => simp
    | cons b right =>
      rw [length_cons, length_cons, Nat.succ_inj, zip_cons_cons, all_cons,
        Bool.and_eq_true, map_cons, map_cons, List.cons.injEq, ← ih, beq_iff_eq]
      tauto

theorem asciiEqual_iff {left right : String} :
    asciiEqual left right = true ↔
      (bytesOf left).map foldAscii = (bytesOf right).map foldAscii := equalFolded_iff

theorem bytesOf_injective : Function.Injective bytesOf := by
  intro x y same
  exact String.toByteArray_inj.1 (ByteArray.ext (Array.toList_inj.1 same))

/-! ### Equality -/

mutual

def Value.languageEqual (left right : Value) : Bool :=
  match numericCmp left right with
  | some ordering => ordering == .eq
  | none =>
    match left, right with
    | .null, .null => true
    | .bool left, .bool right => left == right
    | .string left, .string right => asciiEqual left right
    | .binary left, .binary right => left == right
    | .array left, .array right => equalArrays left right
    | .map left, .map right => equalEntries left right
    | _, _ => false

/-- As many members, each equal to the other in its place. -/
def equalArrays : List Value → List Value → Bool
  | [], [] => true
  | left :: lefts, right :: rights => left.languageEqual right && equalArrays lefts rights
  | _, _ => false

def equalEntries : List (Value × Value) → List (Value × Value) → Bool
  | [], [] => true
  | left :: lefts, right :: rights =>
    left.1.languageEqual right.1 && left.2.languageEqual right.2 && equalEntries lefts rights
  | _, _ => false

end

/-- Induction over values, with the members of arrays and maps. -/
theorem Value.induct {P : Value → Prop} (null : P .null) (bool : ∀ b, P (.bool b))
    (signed : ∀ n, P (.signed n)) (unsigned : ∀ n, P (.unsigned n)) (float : ∀ x, P (.float x))
    (string : ∀ s, P (.string s)) (binary : ∀ bs, P (.binary bs))
    (array : ∀ vs, (∀ v ∈ vs, P v) → P (.array vs))
    (map : ∀ es, (∀ e ∈ es, P e.1 ∧ P e.2) → P (.map es)) (v : Value) : P v :=
  @Value.rec P (fun vs => ∀ v ∈ vs, P v) (fun es => ∀ e ∈ es, P e.1 ∧ P e.2)
    (fun e => P e.1 ∧ P e.2) null bool signed unsigned float string binary array map
    (fun _ mem => absurd mem not_mem_nil)
    (fun _ _ first rest => forall_mem_cons.2 ⟨first, rest⟩)
    (fun _ mem => absurd mem not_mem_nil)
    (fun _ _ first rest => forall_mem_cons.2 ⟨first, rest⟩)
    (fun _ _ first second => ⟨first, second⟩) v

/-- Induction over values, by their members. -/
theorem Value.induct_members {P : Value → Prop}
    (step : ∀ a, (∀ x, a = .array x → ∀ v ∈ x, P v) →
      (∀ x, a = .map x → ∀ e ∈ x, P e.1 ∧ P e.2) → P a) (a : Value) : P a := by
  induction a using Value.induct with
  | array x ih =>
    refine step _ (fun y eq => ?_) nofun
    cases eq
    exact ih
  | map x ih =>
    refine step _ nofun fun y eq => ?_
    cases eq
    exact ih
  | _ => exact step _ nofun nofun

/-! ### Language equality is equality of meaning -/

/-- What language equality looks at. -/
inductive Meaning
  | null
  | bool (value : Bool)
  | number (value : WithTop EReal)
  | text (folded : List UInt8)
  | binary (value : List UInt8)
  | array (values : List Meaning)
  | map (entries : List (Meaning × Meaning))

noncomputable instance : DecidableEq Meaning := Classical.decEq Meaning

mutual

noncomputable def Value.meaning : Value → Meaning
  | .null => .null
  | .bool value => .bool value
  | .signed value => .number (((value.toInt : ℝ) : EReal) : WithTop EReal)
  | .unsigned value => .number (((value.toNat : ℝ) : EReal) : WithTop EReal)
  | .float value => .number (if value.isNan then ⊤ else (value.toEReal : WithTop EReal))
  | .string value => .text ((bytesOf value).map foldAscii)
  | .binary value => .binary value
  | .array values => .array (meaningItems values)
  | .map entries => .map (meaningEntries entries)

noncomputable def meaningItems : List Value → List Meaning
  | [] => []
  | value :: values => value.meaning :: meaningItems values

noncomputable def meaningEntries : List (Value × Value) → List (Meaning × Meaning)
  | [] => []
  | entry :: entries => (entry.1.meaning, entry.2.meaning) :: meaningEntries entries

end

theorem meaning_of_real {v : Value} {r : WithTop EReal} (number : v.real = some r) :
    v.meaning = .number r := by
  cases v.isNumeric_of_real number <;> cases number <;> rw [Value.meaning]

/-- A number is equal to numbers of its value, and to nothing else. -/
theorem languageEqual_number {a b : Value} {r : WithTop EReal} (number : a.real = some r) :
    a.languageEqual b = true ↔ a.meaning = b.meaning := by
  unfold Value.languageEqual
  rw [meaning_of_real number]
  cases number' : b.real with
  | some s =>
    rw [numericCmp_eq number number', meaning_of_real number', Meaning.number.injEq]
    exact beq_iff_eq.trans (cmp_eq_eq_iff _ _)
  | none =>
    rw [numericCmp_eq_none (.inr number')]
    cases b with
    | signed | unsigned | float => cases number'
    | null | bool | string | binary | array | map =>
      cases a.isNumeric_of_real number <;> simp [Value.meaning]

theorem equalArrays_iff {as : List Value}
    (each : ∀ a ∈ as, ∀ {b : Value}, a.languageEqual b = true ↔ a.meaning = b.meaning) (bs : List Value) :
    equalArrays as bs = true ↔ meaningItems as = meaningItems bs := by
  induction as generalizing bs with
  | nil => cases bs <;> simp [equalArrays, meaningItems]
  | cons a as ih =>
    obtain ⟨first, others⟩ := forall_mem_cons.1 each
    cases bs with
    | nil => simp [equalArrays, meaningItems]
    | cons b bs =>
      rw [equalArrays, Bool.and_eq_true, first, ih others, meaningItems, meaningItems,
        List.cons.injEq]

theorem equalEntries_iff {as : List (Value × Value)}
    (each : ∀ a ∈ as, (∀ {b : Value}, a.1.languageEqual b = true ↔ a.1.meaning = b.meaning) ∧
      ∀ {b : Value}, a.2.languageEqual b = true ↔ a.2.meaning = b.meaning)
    (bs : List (Value × Value)) :
    equalEntries as bs = true ↔ meaningEntries as = meaningEntries bs := by
  induction as generalizing bs with
  | nil => cases bs <;> simp [equalEntries, meaningEntries]
  | cons a as ih =>
    obtain ⟨first, others⟩ := forall_mem_cons.1 each
    cases bs with
    | nil => simp [equalEntries, meaningEntries]
    | cons b bs =>
      rw [equalEntries, Bool.and_eq_true, Bool.and_eq_true, first.1, first.2, ih others,
        meaningEntries, meaningEntries, List.cons.injEq, Prod.mk.injEq]

/-- **Values are language equal if and only if they mean the same.** -/
theorem languageEqual_iff {a b : Value} : a.languageEqual b = true ↔ a.meaning = b.meaning := by
  induction a using Value.induct generalizing b with
  | signed x | unsigned x | float x => exact languageEqual_number rfl
  | null | bool x | binary x =>
    unfold Value.languageEqual
    rw [numericCmp_eq_none (.inl rfl)]
    cases b <;> simp [Value.meaning]
  | string x =>
    unfold Value.languageEqual
    rw [numericCmp_eq_none (.inl rfl)]
    cases b <;> simp [Value.meaning, asciiEqual_iff]
  | array x ih =>
    unfold Value.languageEqual
    rw [numericCmp_eq_none (.inl rfl)]
    cases b <;> simp [Value.meaning, equalArrays_iff ih]
  | map x ih =>
    unfold Value.languageEqual
    rw [numericCmp_eq_none (.inl rfl)]
    cases b <;> simp [Value.meaning, equalEntries_iff ih]

theorem languageEqual_equivalence : Equivalence fun a b : Value => a.languageEqual b = true where
  refl _ := languageEqual_iff.2 rfl
  symm h := languageEqual_iff.2 (languageEqual_iff.1 h).symm
  trans h h' := languageEqual_iff.2 ((languageEqual_iff.1 h).trans (languageEqual_iff.1 h'))

/-- How two values of one meaning look. -/
inductive SameMeaning : Value → Value → Prop
  | null : SameMeaning .null .null
  | bool (x : Bool) : SameMeaning (.bool x) (.bool x)
  | number {a b : Value} {r : WithTop EReal} (left : a.real = some r) (right : b.real = some r) :
      SameMeaning a b
  | string {x y : String} (folded : (bytesOf x).map foldAscii = (bytesOf y).map foldAscii) :
      SameMeaning (.string x) (.string y)
  | binary (x : List UInt8) : SameMeaning (.binary x) (.binary x)
  | array {x y : List Value} (items : meaningItems x = meaningItems y) : SameMeaning (.array x) (.array y)
  | map {x y : List (Value × Value)} (entries : meaningEntries x = meaningEntries y) :
      SameMeaning (.map x) (.map y)

theorem sameMeaning {a b : Value} (same : a.meaning = b.meaning) : SameMeaning a b := by
  have other {a b : Value} {r : WithTop EReal} (number : a.real = some r) (same : a.meaning = b.meaning) :
      b.real = some r := by
    rw [meaning_of_real number] at same
    cases b <;> simp [Value.meaning] at same <;> rw [same] <;> rfl
  cases number : a.real with
  | some r => exact .number number (other number same)
  | none =>
    cases number' : b.real with
    | some r => exact .number (other number' same.symm) number'
    | none =>
      cases a <;> cases b <;> simp [Value.meaning, Value.real] at same number number'
      · exact .null
      · exact same ▸ .bool _
      · exact .string same
      · exact same ▸ .binary _
      · exact .array same
      · exact .map same

theorem meaningItems_eq {as bs : List Value}
    (same : List.Forall₂ (fun a b : Value => a.meaning = b.meaning) as bs) :
    meaningItems as = meaningItems bs := by
  induction same with
  | nil => rfl
  | cons here _ ih => rw [meaningItems, meaningItems, here, ih]

theorem meaningEntries_eq {as bs : List (Value × Value)}
    (same : List.Forall₂ (fun a b => a.1.meaning = b.1.meaning ∧ a.2.meaning = b.2.meaning) as bs) :
    meaningEntries as = meaningEntries bs := by
  induction same with
  | nil => rfl
  | cons here _ ih => rw [meaningEntries, meaningEntries, here.1, here.2, ih]

end Eventd
