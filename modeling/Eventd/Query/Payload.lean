import Eventd.Lib.MessageReader
import Eventd.Query.Value

/-!
# Decoding values

`decode` of `eventd/src/query/value.rs`, against the MessagePack format.

* `readValue`, `decode`: the decoder, which reads the whole of its input;
* `objectValue`: the value that an object stands for, if all its strings are UTF-8;
* `decode_reads`: the decoder gives the value of the object that its input encodes.
-/

namespace Eventd

open Option List MessagePack MessagePack.Read

/-- Read a value.  Every level of nesting takes a byte, so that one more than there are bytes is
enough fuel. -/
def readValue [Reader] : ℕ → Read Value
  | 0 => fail
  | fuel + 1 => do
      match ← peek with
      | some .nil =>
        readNil
        return .null
      | some .bool =>
        let value ← readBool
        return .bool value
      | some .int =>
        match ← attempt readInt with
        | some value => return .signed (.ofInt value)
        | none =>
          let value ← Read.readUint
          return .unsigned (.ofNat value)
      | some .float =>
        let value ← readFloat
        return .float value
      | some .str =>
        let value ← Read.readStr
        return .string value
      | some .bin =>
        let value ← readBin
        return .binary value
      | some .array =>
        let values ← readItems (readValue fuel)
        return .array values
      | some .map =>
        let count ← readMap
        let entries ← iterate (fun entries => do
          let key ← readValue fuel
          let value ← readValue fuel
          return entries ++ [(key, value)]) count []
        return .map entries
      | some .ext =>
        let (_, value) ← readExt
        return .binary value
      | none => fail

/-- The value that bytes encode, if it is the whole of them. -/
def decode [Reader] (bytes : List UInt8) : Option Value :=
  match readValue (bytes.length + 1) bytes with
  | (some value, []) => some value
  | _ => none

/-! ### The value of an object -/

def scalarValue : Scalar → Option Value
  | .nil => some .null
  | .bool value => some (.bool value)
  | .int value =>
    some (if value < 2 ^ 63 then .signed (.ofInt value) else .unsigned (.ofNat value.toNat))
  | .single bits => some (.float (.ofSingle bits))
  | .double bits => some (.float ⟨.ofNat bits⟩)
  | .str bytes => (String.fromUTF8? ⟨bytes.toArray⟩).map .string
  | .bin bytes => some (.binary bytes)
  | .ext _ bytes => some (.binary bytes)

mutual

/-- The value that an object stands for. -/
def objectValue : Object → Option Value
  | .scalar value => scalarValue value
  | .array items => (objectValues items).map .array
  | .map entries => (objectEntries entries).map .map

def objectValues : List Object → Option (List Value)
  | [] => some []
  | item :: items => do
      let value ← objectValue item
      let values ← objectValues items
      return value :: values

def objectEntries : List (Object × Object) → Option (List (Value × Value))
  | [] => some []
  | entry :: entries => do
      let key ← objectValue entry.1
      let value ← objectValue entry.2
      let values ← objectEntries entries
      return (key, value) :: values

end

section Takes

variable {reader : Read Value}

/-- The items of an array, added to those that were read before. -/
theorem takes_items {items : List Object}
    (each : ∀ item ∈ items, ∀ value, objectValue item = some value → Takes reader [item] (some value))
    {values : List Value} (eq : objectValues items = some values) (before : List Value) :
    Takes (iterate (fun values => reader >>= fun value => pure (values ++ [value])) items.length
      before) items (some (before ++ values)) := by
  induction items generalizing values before with
  | nil =>
    cases eq
    rw [append_nil]
    exact takes_pure before
  | cons item items ih =>
    obtain ⟨value, first, eq⟩ := bind_eq_some_iff.1 eq
    obtain ⟨others, rest, eq⟩ := bind_eq_some_iff.1 eq
    cases eq
    have step : Takes (reader >>= fun value => pure (before ++ [value])) [item]
        (some (before ++ [value])) :=
      (each item mem_cons_self value first).bind_done (takes_pure _)
    have loop := ih (fun item mem => each item (mem_cons_of_mem _ mem)) rest
      (before ++ [value])
    rw [append_assoc, singleton_append] at loop
    exact step.bind loop

/-- The members of a map, added to those that were read before. -/
theorem takes_entries {entries : List (Object × Object)}
    (each : ∀ entry ∈ entries, ∀ object ∈ [entry.1, entry.2], ∀ value,
      objectValue object = some value → Takes reader [object] (some value))
    {values : List (Value × Value)} (eq : objectEntries entries = some values)
    (before : List (Value × Value)) :
    Takes (iterate (fun entries => reader >>= fun key => reader >>= fun value =>
      pure (entries ++ [(key, value)])) entries.length before) (members entries)
      (some (before ++ values)) := by
  induction entries generalizing values before with
  | nil =>
    cases eq
    rw [append_nil]
    exact takes_pure before
  | cons entry entries ih =>
    obtain ⟨key, first, eq⟩ := bind_eq_some_iff.1 eq
    obtain ⟨value, second, eq⟩ := bind_eq_some_iff.1 eq
    obtain ⟨others, rest, eq⟩ := bind_eq_some_iff.1 eq
    cases eq
    have takes := each entry mem_cons_self
    have step : Takes (reader >>= fun key => reader >>= fun value =>
        pure (before ++ [(key, value)])) [entry.1, entry.2] (some (before ++ [(key, value)])) :=
      (takes entry.1 mem_cons_self key first).bind
        ((takes entry.2 (by simp) value second).bind_done (takes_pure _))
    have loop := ih (fun entry mem => each entry (mem_cons_of_mem _ mem)) rest
      (before ++ [(key, value)])
    rw [append_assoc, singleton_append] at loop
    exact step.bind loop

theorem height_lt_of_mem {items : List Object} {item : Object} (mem : item ∈ items) :
    item.height < heightItems items := by
  induction items with
  | nil => cases mem
  | cons first items ih =>
    rw [heightItems]
    rcases mem_cons.1 mem with rfl | mem
    · exact lt_max_of_lt_left (Nat.lt_succ_self _)
    · exact lt_max_of_lt_right (ih mem)

variable [Reader] [LawfulReader]

theorem takes_scalar {scalar : Scalar} {value : Value} (eq : scalarValue scalar = some value)
    (fuel : ℕ) : Takes (readValue (fuel + 1)) [.scalar scalar] (some value) := by
  cases scalar with
  | nil =>
    cases eq
    exact steps_peek.takes (Steps.takes (steps_read follows_nil rfl) (takes_pure _))
  | bool =>
    cases eq
    exact steps_peek.takes (Steps.takes (steps_read follows_bool rfl) (takes_pure _))
  | single | double =>
    cases eq
    exact steps_peek.takes (Steps.takes (steps_read follows_float rfl) (takes_pure _))
  | bin =>
    cases eq
    exact steps_peek.takes (Steps.takes (steps_read follows_bin rfl) (takes_pure _))
  | ext =>
    cases eq
    exact steps_peek.takes (Steps.takes (steps_read follows_ext rfl) (takes_pure _))
  | int number =>
    cases eq
    refine takes_int fun low high => steps_peek.takes ?_
    split_ifs with small
    · exact Steps.takes (steps_attempt_some follows_int (if_pos ⟨low, small⟩)) (takes_pure _)
    · refine Steps.takes (steps_attempt_none follows_int (if_neg fun range => small range.2)) ?_
      exact Steps.takes (steps_read follows_uint (if_pos ⟨by omega, high⟩)) (takes_pure _)
  | str bytes =>
    obtain ⟨text, utf8, rfl⟩ := map_eq_some_iff.1 eq
    exact steps_peek.takes (Steps.takes (steps_read (a := text) follows_str utf8) (takes_pure _))

/-- With fuel for its levels, the reader takes an object and gives its value. -/
theorem takes_readValue {fuel : ℕ} {object : Object} (deep : object.height < fuel) {value : Value}
    (eq : objectValue object = some value) : Takes (readValue fuel) [object] (some value) := by
  induction fuel generalizing object value with
  | zero => cases deep
  | succ fuel ih =>
    cases object with
    | scalar scalar =>
      rw [objectValue] at eq
      exact takes_scalar eq fuel
    | array items =>
      rw [objectValue] at eq
      obtain ⟨values, all, rfl⟩ := map_eq_some_iff.1 eq
      rw [Object.height] at deep
      have each : ∀ item ∈ items, ∀ value, objectValue item = some value →
          Takes (readValue fuel) [item] (some value) := fun item mem value eq =>
        ih ((height_lt_of_mem mem).trans_le (Nat.lt_succ_iff.1 deep)) eq
      have loop := takes_items each all []
      have array : Takes (readItems (readValue fuel)) [.array items] (some values) := by
        refine Steps.takes (steps_read (a := items.length) follows_array rfl) ?_
        rw [append_nil]
        exact loop
      exact steps_peek.takes (array.bind_done (takes_pure _))
    | map entries =>
      rw [objectValue] at eq
      obtain ⟨values, all, rfl⟩ := map_eq_some_iff.1 eq
      rw [Object.height, heightEntries_eq] at deep
      have each : ∀ entry ∈ entries, ∀ object ∈ [entry.1, entry.2], ∀ value,
          objectValue object = some value → Takes (readValue fuel) [object] (some value) := by
        intro entry mem object mem' value eq
        have inside : object ∈ members entries := mem_flatMap.2 ⟨entry, mem, mem'⟩
        exact ih ((height_lt_of_mem inside).trans_le (Nat.lt_succ_iff.1 deep)) eq
      have loop := takes_entries each all []
      refine steps_peek.takes (Steps.takes (steps_read (a := entries.length) follows_map rfl) ?_)
      rw [append_nil]
      exact loop.bind_done (takes_pure _)

/-- The decoder gives the value of the object that its input encodes. -/
theorem decode_reads {bytes : List UInt8} {object : Object} (reads : Reads bytes object [])
    {value : Value} (eq : objectValue object = some value) : decode bytes = some value := by
  have deep : object.height < bytes.length + 1 := by
    have le := reads.height_le
    rw [length_nil, Nat.add_zero] at le
    have lt := height_lt_of_mem (mem_singleton_self object)
    omega
  obtain ⟨rest, run, here⟩ := takes_readValue deep eq bytes [] reads
  obtain rfl := at_nil_iff.1 here
  rw [decode, run]

end Takes

end Eventd
