import Mathlib.Order.CountableDenseLinearOrder
import Eventd.Lib.Comparison
import Eventd.Query.Debug

/-!
# The order of values

`language_cmp` of `eventd/src/query/value.rs`.  Values of different kinds are ordered by
kind, numbers by their value, texts with ASCII case folded and then by their bytes, arrays
member by member, and maps by the text that the derived `Debug` prints.

* `Value.languageCmp`: the function;
* `SameKind`, `Value.within`, `languageCmp_eq`: the order within a kind;
* `language_order`: the order is a total preorder that agrees with mathematics.
-/

namespace Eventd

open Comparison Delimited

/-- With case folded, and by the bytes themselves on a tie. -/
def asciiCmp (left right : String) : Ordering :=
  (compare ((bytesOf left).map foldAscii) ((bytesOf right).map foldAscii)).then
    (compare (bytesOf left) (bytesOf right))

/-- The place of a kind of value among the others. -/
def Value.kind : Value → ℕ
  | .null => 0
  | .bool _ => 1
  | .signed _ | .unsigned _ | .float _ => 2
  | .string _ => 3
  | .binary _ => 4
  | .array _ => 5
  | .map _ => 6

mutual

def Value.languageCmp (text : DebugText) (left right : Value) : Ordering :=
  match numericCmp left right with
  | some ordering => ordering
  | none =>
    if left.kind ≠ right.kind then compare left.kind right.kind
    else
      match left, right with
      | .bool left, .bool right => compare left right
      | .string left, .string right => asciiCmp left right
      | .binary left, .binary right => compare left right
      | .array left, .array right => compareArrays text left right
      | .map left, .map right =>
        compare (bytesOf (String.ofList (debugList (debugEntries text left))))
          (bytesOf (String.ofList (debugList (debugEntries text right))))
      | _, _ => .eq

/-- By the first members that differ, and by length if there are none. -/
def compareArrays (text : DebugText) : List Value → List Value → Ordering
  | [], [] => .eq
  | [], _ :: _ => .lt
  | _ :: _, [] => .gt
  | left :: lefts, right :: rights =>
    (left.languageCmp text right).then (compareArrays text lefts rights)

end

/-! ### Kind by kind -/

section Order

variable {text : DebugText}

theorem compareArrays_eq (as bs : List Value) :
    compareArrays text as bs = lexicographic (fun a b => a.languageCmp text b) as bs := by
  induction as generalizing bs with
  | nil => cases bs <;> rfl
  | cons a as ih =>
    cases bs with
    | nil => rfl
    | cons b bs => rw [compareArrays, lexicographic, ih]

/-- The text by which a map is ordered. -/
def mapText (text : DebugText) (entries : List (Value × Value)) : List UInt8 :=
  bytesOf (String.ofList (debugList (debugEntries text entries)))

/-- How values of one kind compare. -/
noncomputable def Value.within (text : DebugText) : Value → Value → Ordering
  | .bool left, .bool right => compare left right
  | .string left, .string right => asciiCmp left right
  | .binary left, .binary right => compare left right
  | .array left, .array right => lexicographic (fun a b => a.languageCmp text b) left right
  | .map left, .map right => compare (mapText text left) (mapText text right)
  | left, right =>
    match left.real, right.real with
    | some r, some s => cmp r s
    | _, _ => .eq

/-- Two values of one kind. -/
inductive SameKind : Value → Value → Prop
  | null : SameKind .null .null
  | bool (x y : Bool) : SameKind (.bool x) (.bool y)
  | number {a b : Value} {r s : WithTop EReal} (left : a.real = some r) (right : b.real = some s) :
      SameKind a b
  | string (x y : String) : SameKind (.string x) (.string y)
  | binary (x y : List UInt8) : SameKind (.binary x) (.binary y)
  | array (x y : List Value) : SameKind (.array x) (.array y)
  | map (x y : List (Value × Value)) : SameKind (.map x) (.map y)

variable {a b : Value} {r : WithTop EReal}

theorem sameKind (kinds : a.kind = b.kind) : SameKind a b := by
  match a, b with
  | .null, .null => exact .null
  | .bool x, .bool y => exact .bool x y
  | .string x, .string y => exact .string x y
  | .binary x, .binary y => exact .binary x y
  | .array x, .array y => exact .array x y
  | .map x, .map y => exact .map x y
  | .signed _, .signed _ | .unsigned _, .unsigned _ | .signed _, .unsigned _
  | .unsigned _, .signed _ | .float _, .float _ | .signed _, .float _ | .float _, .signed _
  | .unsigned _, .float _ | .float _, .unsigned _ => exact .number rfl rfl

theorem within_number {s : WithTop EReal} (left : a.real = some r) (right : b.real = some s) :
    a.within text b = cmp r s := by
  cases a.isNumeric_of_real left <;> cases b.isNumeric_of_real right <;>
    cases left <;> cases right <;> rfl

theorem languageCmp_number {s : WithTop EReal} (left : a.real = some r) (right : b.real = some s) :
    a.languageCmp text b = cmp r s := by
  unfold Value.languageCmp
  rw [numericCmp_eq left right]

theorem languageCmp_sameKind (kinds : a.kind = b.kind) :
    a.languageCmp text b = a.within text b := by
  cases sameKind kinds with
  | number left right => rw [languageCmp_number left right, within_number left right]
  | array x y =>
    unfold Value.languageCmp
    rw [numericCmp_eq_none (.inl rfl)]
    exact compareArrays_eq x y
  | null | bool x y | string x y | binary x y | map x y =>
    unfold Value.languageCmp
    rw [numericCmp_eq_none (.inl rfl)]
    rfl

theorem kind_of_real {v : Value} (number : v.real = some r) : v.kind = 2 := by
  cases v <;> first | rfl | cases number

theorem languageCmp_kinds (kinds : a.kind ≠ b.kind) :
    a.languageCmp text b = compare a.kind b.kind := by
  have other : a.real = none ∨ b.real = none := by
    by_contra! numbers
    obtain ⟨r, left⟩ := Option.ne_none_iff_exists'.1 numbers.1
    obtain ⟨s, right⟩ := Option.ne_none_iff_exists'.1 numbers.2
    exact kinds ((kind_of_real left).trans (kind_of_real right).symm)
  unfold Value.languageCmp
  rw [numericCmp_eq_none other]
  exact if_pos kinds

/-- First by kind, and then as values of that kind compare. -/
theorem languageCmp_eq (a b : Value) :
    a.languageCmp text b = (compare a.kind b.kind).then (a.within text b) := by
  by_cases kinds : a.kind = b.kind
  · rw [languageCmp_sameKind kinds, compare_eq_iff_eq.2 kinds, Ordering.eq_then]
  · rw [languageCmp_kinds kinds]
    cases order : compare a.kind b.kind with
    | eq => exact absurd (compare_eq_iff_eq.1 order) kinds
    | lt | gt => rfl

theorem asciiCmp_swap (x y : String) : asciiCmp y x = (asciiCmp x y).swap := by
  unfold asciiCmp
  rw [Ordering.swap_then, ← Std.OrientedCmp.eq_swap, ← Std.OrientedCmp.eq_swap]

theorem asciiCmp_chains (x y z : String) : Chains asciiCmp x y z :=
  Chains.then (f := fun x y => compare ((bytesOf x).map foldAscii) ((bytesOf y).map foldAscii))
    (g := fun x y => compare (bytesOf x) (bytesOf y)) (chains_of_transCmp compare _ _ _)
    fun _ _ => chains_of_transCmp compare _ _ _

/-- **The order the other way round.** -/
theorem languageCmp_swap (a b : Value) : b.languageCmp text a = (a.languageCmp text b).swap := by
  induction a using Value.induct_members generalizing b with
  | _ a ih _ =>
    by_cases kinds : a.kind = b.kind
    · rw [languageCmp_sameKind kinds, languageCmp_sameKind kinds.symm]
      cases sameKind kinds with
      | null => rfl
      | bool x y | binary x y => exact (Std.OrientedCmp.eq_swap : compare y x = _)
      | map x y => exact (Std.OrientedCmp.eq_swap : compare (mapText text y) (mapText text x) = _)
      | number left right => rw [within_number left right, within_number right left, cmp_swap]
      | string x y => exact asciiCmp_swap x y
      | array x y => exact swap_lexicographic (fun v mem w => ih x rfl v mem w) y
    · rw [languageCmp_kinds kinds, languageCmp_kinds (Ne.symm kinds)]
      exact Std.OrientedCmp.eq_swap

/-- **The order is transitive.** -/
theorem languageCmp_chains (a b c : Value) : Chains (fun a b => a.languageCmp text b) a b c := by
  induction a using Value.induct_members generalizing b c with
  | _ a ih _ =>
    simp only [languageCmp_eq]
    refine Chains.then (f := fun a b : Value => compare a.kind b.kind) (g := Value.within text)
      (chains_of_transCmp compare a.kind b.kind c.kind) fun first second => ?_
    cases sameKind (compare_eq_iff_eq.1 first) with
    | null => cases sameKind (compare_eq_iff_eq.1 second) with
      | null => exact fun _ _ => rfl
      | number left right => cases left
    | bool x y => cases sameKind (compare_eq_iff_eq.1 second) with
      | bool y z => exact chains_of_transCmp compare x y z
      | number left right => cases left
    | string x y => cases sameKind (compare_eq_iff_eq.1 second) with
      | string y z => exact asciiCmp_chains x y z
      | number left right => cases left
    | binary x y => cases sameKind (compare_eq_iff_eq.1 second) with
      | binary y z => exact chains_of_transCmp compare x y z
      | number left right => cases left
    | map x y => cases sameKind (compare_eq_iff_eq.1 second) with
      | map y z => exact chains_of_transCmp compare (mapText text x) (mapText text y) (mapText text z)
      | number left right => cases left
    | array x y => cases sameKind (compare_eq_iff_eq.1 second) with
      | array y z => exact chains_lexicographic (fun v mem v' v'' => ih x rfl v mem v' v'') y z
      | number left right => cases left
    | @number _ _ r s left right => cases sameKind (compare_eq_iff_eq.1 second) with
      | @number _ _ s' t left' right' =>
        obtain rfl : s = s' := Option.some.inj (right.symm.trans left')
        unfold Chains
        rw [within_number left right, within_number left' right', within_number left right']
        exact chains_cmp r s t
      | _ => cases right

theorem mapText_eq {as bs : List (Value × Value)} (same : mapText text as = mapText text bs) :
    meaningEntries as = meaningEntries bs := by
  have texts := String.ofList_injective (bytesOf_injective same)
  rw [debugEntries_eq, debugEntries_eq] at texts
  exact meaningEntries_eq (debugList_inj (fun e _ => at_debugEntry (at_debug e.1) (at_debug e.2))
    (fun _ => ⟨_, _, rfl, by decide⟩) (fun _ => trivial) (fun _ => trivial)
    (congrArg (· ++ []) texts)).1

/-- **What the order does not tell apart is equal.** -/
theorem languageEqual_of_languageCmp (same : a.languageCmp text b = .eq) :
    a.languageEqual b = true := by
  rw [languageEqual_iff]
  induction a using Value.induct_members generalizing b with
  | _ a ih _ =>
    by_cases kinds : a.kind = b.kind
    · rw [languageCmp_sameKind kinds] at same
      cases sameKind kinds with
      | null => rfl
      | bool x y | binary x y =>
        replace same : compare x y = .eq := same
        obtain rfl : x = y := Std.LawfulEqCmp.eq_of_compare same
        rfl
      | map x y =>
        replace same : compare (mapText text x) (mapText text y) = .eq := same
        rw [Value.meaning, Value.meaning, mapText_eq (Std.LawfulEqCmp.eq_of_compare same)]
      | number left right =>
        rw [within_number left right, cmp_eq_eq_iff] at same
        rw [meaning_of_real left, meaning_of_real right, same]
      | string x y =>
        have folded := Std.LawfulEqCmp.eq_of_compare (Ordering.then_eq_eq.1 same).1
        rw [Value.meaning, Value.meaning, folded]
      | array x y =>
        rw [Value.meaning, Value.meaning,
          meaningItems_eq (lexicographic_eq (fun v mem w => ih x rfl v mem) same)]
    · rw [languageCmp_kinds kinds, compare_eq_iff_eq] at same
      exact absurd same kinds

instance : Std.TransCmp (Value.languageCmp text) where
  eq_swap := languageCmp_swap _ _
  isLE_trans := (languageCmp_chains _ _ _).isLE

/-- What holds of the order and of equality of values. -/
theorem language_order (text : DebugText) :
    (∀ a b : Value, b.languageCmp text a = (a.languageCmp text b).swap) ∧
      (∀ a b : Value, (a.languageCmp text b).isLE ∨ (b.languageCmp text a).isLE) ∧
      (∀ a b c : Value, (a.languageCmp text b).isLE → (b.languageCmp text c).isLE →
        (a.languageCmp text c).isLE) ∧
      (∀ (a b : Value) (r s : WithTop EReal), a.real = some r → b.real = some s →
        a.languageCmp text b = cmp r s) ∧
      Equivalence (fun a b : Value => a.languageEqual b = true) ∧
      ∀ a b : Value, a.languageCmp text b = .eq → a.languageEqual b = true := by
  refine ⟨languageCmp_swap, fun a b => ?_, fun a b c => (languageCmp_chains a b c).isLE,
    fun a b r s => languageCmp_number, languageEqual_equivalence,
    fun a b => languageEqual_of_languageCmp⟩
  rw [languageCmp_swap a b]
  cases a.languageCmp text b
  · exact .inl rfl
  · exact .inl rfl
  · exact .inr rfl

/-- A map is after a text, and a text is after a number. -/
theorem language_order_bits :
    ((Value.signed 1).languageCmp default (.string "a")).isLE ∧
      ((Value.string "a").languageCmp default (.map [])).isLE ∧
      ((Value.signed 1).languageCmp default (.map [])).isLE := by
  have first : ((Value.signed 1).languageCmp default (.string "a")).isLE := by
    rw [languageCmp_kinds (by decide)]
    decide
  have second : ((Value.string "a").languageCmp default (.map [])).isLE := by
    rw [languageCmp_kinds (by decide)]
    decide
  exact ⟨first, second, (language_order default).2.2.1 _ _ _ first second⟩

end Order

end Eventd
