import Eventd.Lib.Wildcard
import Eventd.Query.Evaluate

/-!
# Name patterns

`glob_matches` of `eventd/src/query/executor.rs`, by which a query finds the event types and metric
names of its source: a `*` of the pattern stands for any bytes, other bytes for themselves up to ASCII
case.

* `globMatches`, `FitsPattern`: the function, and what a pattern stands for;
* `glob_exact_iff`: for which names it is right about every pattern.
-/

namespace Eventd

open List

open Wildcard (Matches)

def wildcard : UInt8 := 0x2a

/-- `pattern_index`, `value_index`, `star` and `retry` are kept as what comes after them. -/
def globMatches (pattern value : String) : Bool :=
  (Wildcard.Search.start (foldedBytes pattern) (foldedBytes value)).run wildcard

/-- What may stand in the place of a byte of the pattern. -/
def StandsFor (byte : UInt8) (part : List UInt8) : Prop :=
  byte = wildcard ∨ ∃ b, part = [b] ∧ foldAscii b = foldAscii byte

/-- The value is a concatenation of parts, one for each byte of the pattern. -/
def FitsPattern (pattern value : String) : Prop :=
  ∃ parts, List.Forall₂ StandsFor (bytesOf pattern) parts ∧ bytesOf value = parts.flatten

theorem foldAscii_eq_wildcard {byte : UInt8} : foldAscii byte = wildcard ↔ byte = wildcard := by
  unfold foldAscii wildcard
  split_ifs with upper
  · simp only [UInt8.le_iff_toNat_le, ← UInt8.toNat_inj, UInt8.toNat_add, UInt8.reduceToNat] at upper ⊢
    omega
  · rfl

theorem matches_folded {pattern value : List UInt8} :
    Matches wildcard (pattern.map foldAscii) (value.map foldAscii) ↔
      ∃ parts, List.Forall₂ StandsFor pattern parts ∧ value = parts.flatten := by
  induction pattern generalizing value with
  | nil => simp
  | cons byte pattern ih =>
    simp only [map_cons, forall₂_cons_left_iff]
    by_cases star : byte = wildcard
    · rw [foldAscii_eq_wildcard.2 star, Wildcard.matches_any]
      constructor
      · rintro ⟨_, ⟨part, same⟩, found⟩
        obtain ⟨part, rest, rfl, -, rfl⟩ := append_eq_map_iff.1 same
        obtain ⟨parts, fit, rfl⟩ := ih.1 found
        exact ⟨_, ⟨part, parts, .inl star, fit, rfl⟩, rfl⟩
      · rintro ⟨_, ⟨part, parts, -, fit, rfl⟩, rfl⟩
        refine ⟨_, ?_, ih.2 ⟨parts, fit, rfl⟩⟩
        rw [flatten_cons, map_append]
        exact suffix_append ..
    · rw [Wildcard.matches_symbol (mt foldAscii_eq_wildcard.1 star)]
      constructor
      · rintro ⟨_, same, found⟩
        obtain ⟨b, rest, rfl, folded, rfl⟩ := map_eq_cons_iff.1 same
        obtain ⟨parts, fit, rfl⟩ := ih.1 found
        exact ⟨_, ⟨[b], parts, .inr ⟨b, rfl, folded⟩, fit, rfl⟩, rfl⟩
      · rintro ⟨_, ⟨part, parts, stands, fit, rfl⟩, rfl⟩
        obtain ⟨b, rfl, folded⟩ := stands.resolve_left star
        exact ⟨_, by simp [folded], ih.2 ⟨parts, fit, rfl⟩⟩

theorem fitsPattern_iff {pattern value : String} :
    FitsPattern pattern value ↔ Matches wildcard (foldedBytes pattern) (foldedBytes value) :=
  matches_folded.symm

/-- Where a text has the byte of a `*`, it has a `*`. -/
theorem utf8_split {chars : List Char} {first last : List UInt8}
    (eq : chars.flatMap String.utf8EncodeChar = first ++ wildcard :: last) :
    ∃ before after, chars = before ++ '*' :: after ∧
      first = before.flatMap String.utf8EncodeChar ∧ last = after.flatMap String.utf8EncodeChar := by
  induction chars generalizing first with
  | nil => simp at eq
  | cons c chars ih =>
    by_cases star : c = '*'
    · subst star
      cases first with
      | nil =>
        obtain rfl := (List.cons.inj eq).2
        exact ⟨[], chars, rfl, rfl, rfl⟩
      | cons b first =>
        obtain ⟨rfl, rest⟩ := List.cons.inj eq
        obtain ⟨before, after, rfl, rfl, rfl⟩ := ih rest
        exact ⟨'*' :: before, after, rfl, rfl, rfl⟩
    · have other : wildcard ∉ String.utf8EncodeChar c := fun mem =>
        star (Char.toNat_inj.1 (TextSlice.toNat_of_mem_utf8EncodeChar (by decide) mem))
      rw [flatMap_cons, append_eq_append_iff] at eq
      obtain ⟨more, rfl, rest⟩ | ⟨more, whole, rest⟩ := eq
      · obtain ⟨before, after, rfl, rfl, rfl⟩ := ih rest
        exact ⟨c :: before, after, rfl, rfl, rfl⟩
      · cases more with
        | nil =>
          obtain ⟨before, after, rfl, none, rfl⟩ := @ih [] rest.symm
          exact ⟨c :: before, after, rfl, by simp_all, rfl⟩
        | cons b more =>
          obtain rfl := (List.cons.inj rest).1
          exact absurd (whole ▸ by simp) other

/-- **The function is right about a name, whatever the pattern, exactly if no `*` stands in the name
before its last byte.**  The loop compares bytes before it looks for a `*` in the pattern, and so
takes the `*` of the name for it. -/
theorem glob_exact_iff (value : String) :
    (∀ pattern, globMatches pattern value = true ↔ FitsPattern pattern value) ↔
      wildcard ∉ (bytesOf value).dropLast := by
  have folded : wildcard ∈ (foldedBytes value).dropLast ↔ wildcard ∈ (bytesOf value).dropLast := by
    simp [foldedBytes, ← map_dropLast, foldAscii_eq_wildcard]
  constructor
  · intro exact_ early
    obtain ⟨first, last, split⟩ := mem_iff_append.1 early
    have whole : bytesOf value ≠ [] := by
      intro none
      simp [none] at early
    -- up to that `*`, name and pattern are the same
    have cut : bytesOf value = first ++ wildcard :: (last ++ [(bytesOf value).getLast whole]) := by
      conv_lhs => rw [← dropLast_append_getLast whole, split]
      simp
    obtain ⟨before, -, -, rfl, -⟩ := utf8_split ((TextSlice.toUTF8_eq value).symm.trans cut)
    have pattern : foldedBytes (String.ofList (before ++ ['*'])) =
        (before.flatMap String.utf8EncodeChar).map foldAscii ++ [wildcard] := by
      rw [foldedBytes, bytesOf, TextSlice.toUTF8_eq, String.toList_ofList, flatMap_append,
        map_append]
      rfl
    have name : foldedBytes value = (before.flatMap String.utf8EncodeChar).map foldAscii ++
        wildcard :: (last ++ [(bytesOf value).getLast whole]).map foldAscii := by
      conv_lhs => rw [foldedBytes, cut, map_append, map_cons]
      rfl
    obtain ⟨missed, found⟩ := @Wildcard.run_stuck _ wildcard _
      ((before.flatMap String.utf8EncodeChar).map foldAscii)
      ((last ++ [(bytesOf value).getLast whole]).map foldAscii) (by simp)
    rw [← pattern, ← name] at missed found
    exact Bool.false_ne_true (missed.symm.trans ((exact_ _).2 (fitsPattern_iff.2 found)))
  · intro plain pattern
    rw [fitsPattern_iff]
    exact Wildcard.run_start_iff (mt folded.1 plain) (foldedBytes pattern)

/-- Every name fits `*`; this one is not found. -/
theorem glob_misses_name : FitsPattern "*" "*a" ∧ globMatches "*" "*a" = false := by
  have bytes : foldedBytes "*" = [wildcard] ∧ foldedBytes "*a" = [wildcard, 0x61] := by decide
  obtain ⟨missed, found⟩ := @Wildcard.run_stuck _ wildcard _ [] [0x61] (by decide)
  rw [fitsPattern_iff, globMatches, bytes.1, bytes.2]
  exact ⟨found, missed⟩

end Eventd
