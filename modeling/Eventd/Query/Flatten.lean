import Mathlib.Data.String.Basic
import Eventd.Core.FieldPath
import Eventd.Core.Shard
import Eventd.Query.Equality
import Eventd.Query.Payload

/-!
# The record of an event

`flatten_event_payload` of `eventd/src/query/value.rs` and the record that `next_event` of
`eventd/src/query/executor.rs` makes of a row.  The columns of the header come first; the payload
adds the fields it has beside them.

* `flattenEntries`, `flattenEventPayload`: the fields of a payload, by their paths;
* `leavesUnder`, `keepFree`: the values met on a walk through a payload, and which of them stay;
* `flattenEventPayload_frame`: what flattening leaves, adds and drops;
* `eventHeader`, `eventRecord`: the record of a row;
* `lookup_eventRecord`: whatever the payload is, the header is as the columns have it.
-/

namespace Eventd

open KeyedList List

/-! ### Flattening -/

/-- The path of a member of the map at a path. -/
def childPath (under segment : String) : String :=
  if under = "" then segment else under ++ "." ++ segment

mutual

/-- Add a value at a path: a map by its members, anything else as it is. -/
def flattenValue (path : String) (record : Record) : Value → Record
  | .map children => flattenEntries path record children
  | value => insert path value record

/-- Add the members of the map at a path.  What is at a path of the header, or at one that is
taken, is dropped with all that is under it. -/
def flattenEntries (under : String) (record : Record) : List (Value × Value) → Record
  | [] => record
  | entry :: rest =>
    flattenEntries under
      (match entry.1 with
      | .string segment =>
        if validSegment segment then
          if (headerColumn (childPath under segment)).isSome ∨
              (record.lookup (childPath under segment)).isSome then record
          else flattenValue (childPath under segment) record entry.2
        else record
      | _ => record) rest

end

/-- Add the fields of a payload, if it is a map. -/
def flattenEventPayload [MessagePack.Reader] (payload : List UInt8) (record : Record) : Record :=
  match decode payload with
  | some (.map entries) => flattenEntries "" record entries
  | _ => record

/-! ### The walk through a payload -/

mutual

/-- What is met on a walk through the value at a path, each value that is no map with its path. -/
def leavesOf (path : String) : Value → List (String × Value)
  | .map children => leavesUnder path children
  | value => [(path, value)]

/-- What is met on a walk through the members of the map at a path, from left to right. -/
def leavesUnder (under : String) : List (Value × Value) → List (String × Value)
  | [] => []
  | entry :: rest =>
    (match entry.1 with
      | .string segment =>
        if validSegment segment then leavesOf (childPath under segment) entry.2 else []
      | _ => []) ++ leavesUnder under rest

end

variable {record : Record} {under segment path field : String}

theorem mem_leavesUnder {entries : List (Value × Value)} {leaf : String × Value} :
    leaf ∈ leavesUnder under entries ↔ ∃ entry ∈ entries, ∃ segment, entry.1 = .string segment ∧
      validSegment segment = true ∧ leaf ∈ leavesOf (childPath under segment) entry.2 := by
  induction entries with
  | nil => simp [leavesUnder]
  | cons entry rest ih =>
    rw [leavesUnder, mem_append, ih, exists_mem_cons_iff]
    refine or_congr_left ?_
    split
    · simp_all
    · simp_all

/-- What holds of a path and of every path below one it holds of holds of all that is met. -/
theorem path_of_mem_leavesOf {Q : String → Prop}
    (child : ∀ under segment, Q under → validSegment segment = true → Q (childPath under segment))
    (value : Value) {path : String} (holds : Q path) {leaf : String × Value}
    (mem : leaf ∈ leavesOf path value) : Q leaf.1 := by
  induction value using Value.induct generalizing path with
  | map children ih =>
    rw [leavesOf, mem_leavesUnder] at mem
    obtain ⟨entry, entry_mem, segment, -, valid, mem⟩ := mem
    exact (ih entry entry_mem).2 (child path segment holds valid) mem
  | _ =>
    simp only [leavesOf, mem_singleton] at mem
    rw [mem]
    exact holds

theorem length_lt_childPath (under : String) {segment : String} (valid : validSegment segment = true) :
    under.toList.length < (childPath under segment).toList.length := by
  unfold childPath
  split_ifs with top
  · have nonempty : segment ≠ "" := by
      rintro rfl
      exact absurd valid (by decide)
    simpa [top, length_pos_iff] using nonempty
  · simp

theorem childPath_ne_empty (under : String) {segment : String} (valid : validSegment segment = true) :
    childPath under segment ≠ "" := by
  intro eq
  have long := length_lt_childPath under valid
  simp [eq] at long

/-- What leads to a member of a map leads to the map, or is the member. -/
theorem leadsTo_childPath_iff (valid : validSegment segment = true) :
    LeadsTo path (childPath under segment) ↔
      path = childPath under segment ∨ under ≠ "" ∧ LeadsTo path under := by
  have dotless := dotless_of_validSegment valid
  unfold childPath
  split_ifs with top
  · simp [leadsTo_segment_iff dotless, top]
  · simp [leadsTo_append_iff dotless, top]

variable {value : Value}

theorem leadsTo_of_mem_leavesOf (nonempty : path ≠ "") {leaf : String × Value}
    (mem : leaf ∈ leavesOf path value) : LeadsTo path leaf.1 := by
  refine path_of_mem_leavesOf (fun under segment leads valid => ?_) value (.inl rfl) mem
  refine (leadsTo_childPath_iff valid).2 (.inr ⟨?_, leads⟩)
  rintro rfl
  have short := leads.length_le
  exact nonempty (String.toList_inj.1 (length_eq_zero_iff.1 (by simpa using short)))

theorem validFieldPath_childPath (fits : under = "" ∨ validFieldPath under = true)
    (valid : validSegment segment = true) : validFieldPath (childPath under segment) = true := by
  have dotless := dotless_of_validSegment valid
  have nonempty := childPath_ne_empty under valid
  unfold validFieldPath
  rw [Bool.and_eq_true, bne_iff_ne]
  refine ⟨nonempty, ?_⟩
  unfold childPath
  split_ifs with top
  · simp [segments, splitOn_eq_singleton dotless, valid]
  · rw [segments_append dotless]
    simp_all [validFieldPath]

/-! ### What is kept of it -/

/-- A path of the header or an entry of the record is at the field or on the way to it. -/
def Blocked (record : Record) (field : String) : Prop :=
  underHeaderPath field = true ∨ ∃ path, LeadsTo path field ∧ (record.lookup path).isSome

theorem Blocked.below (blocked : Blocked record path) (leads : LeadsTo path field) :
    Blocked record field := by
  rcases blocked with header | ⟨held, above, present⟩
  · rw [underHeaderPath_iff] at header
    obtain ⟨entry, mem, above⟩ := header
    exact .inl (underHeaderPath_iff.2 ⟨entry, mem, above.trans leads⟩)
  · exact .inr ⟨held, above.trans leads, present⟩

/-- Below a path that nothing blocks it is enough to look at the member's own path. -/
theorem blocked_childPath_iff (open_ : under = "" ∨ ¬ Blocked record under)
    (valid : validSegment segment = true) :
    Blocked record (childPath under segment) ↔ (headerColumn (childPath under segment)).isSome ∨
      (record.lookup (childPath under segment)).isSome := by
  unfold Blocked
  simp only [underHeaderPath_iff, leadsTo_childPath_iff valid, isSome_headerColumn_iff]
  constructor
  · rintro (⟨entry, mem, eq | ⟨top, above⟩⟩ | ⟨path, rfl | ⟨top, above⟩, present⟩)
    · exact .inl ⟨entry, mem, eq⟩
    · exact absurd (.inl (underHeaderPath_iff.2 ⟨entry, mem, above⟩)) (open_.resolve_left top)
    · exact .inr present
    · exact absurd (.inr ⟨path, above, present⟩) (open_.resolve_left top)
  · rintro (⟨entry, mem, eq⟩ | present)
    · exact .inl ⟨entry, mem, .inl eq⟩
    · exact .inr ⟨_, .inl rfl, present⟩

open Classical in
/-- A value that is met is kept if nothing blocks its path. -/
noncomputable def keepFree (record : Record) (leaf : String × Value) : Record :=
  if Blocked record leaf.1 then record else insert leaf.1 leaf.2 record

theorem lookup_keepFree (record : Record) (leaf : String × Value) (field : String) (value : Value) :
    (keepFree record leaf).lookup field = some value ↔ record.lookup field = some value ∨
      leaf = (field, value) ∧ ¬ Blocked record field := by
  unfold keepFree
  split_ifs with blocked
  · grind
  · have free : record.lookup leaf.1 = none := by
      by_contra present
      exact blocked (.inr ⟨leaf.1, .inl rfl, Option.isSome_iff_ne_none.2 present⟩)
    rw [lookup_insert]
    split_ifs with same
    · subst same
      grind
    · grind

/-- A field has after a walk what it had, or the first value met at it that nothing blocked. -/
theorem lookup_foldl_keepFree (leaves : List (String × Value)) (record : Record) (field : String)
    (value : Value) :
    (leaves.foldl keepFree record).lookup field = some value ↔
      record.lookup field = some value ∨ ∃ before after, leaves = before ++ (field, value) :: after ∧
        ¬ Blocked (before.foldl keepFree record) field := by
  induction leaves generalizing record with
  | nil => simp
  | cons leaf rest ih =>
    rw [foldl_cons, ih, lookup_keepFree]
    constructor
    · rintro ((had | ⟨rfl, free⟩) | ⟨before, after, rfl, free⟩)
      · exact .inl had
      · exact .inr ⟨[], rest, rfl, free⟩
      · exact .inr ⟨leaf :: before, after, rfl, free⟩
    · rintro (had | ⟨before, after, eq, free⟩)
      · exact .inl (.inl had)
      · cases before with
        | nil =>
          obtain ⟨rfl, rfl⟩ := List.cons.inj eq
          exact .inl (.inr ⟨rfl, free⟩)
        | cons first before =>
          obtain ⟨rfl, rfl⟩ := List.cons.inj eq
          exact .inr ⟨before, after, rfl, free⟩

theorem foldl_keepFree_of_blocked {leaves : List (String × Value)}
    (blocked : ∀ leaf ∈ leaves, Blocked record leaf.1) : leaves.foldl keepFree record = record := by
  induction leaves with
  | nil => rfl
  | cons leaf rest ih =>
    rw [foldl_cons, keepFree, if_pos (blocked leaf mem_cons_self)]
    exact ih fun leaf mem => blocked leaf (mem_cons_of_mem _ mem)

/-- The walk below a member blocks nothing on the way to it. -/
theorem not_blocked_foldl (open_ : under = "" ∨ ¬ Blocked record under)
    (valid : validSegment segment = true) (value : Value) : under = "" ∨
      ¬ Blocked ((leavesOf (childPath under segment) value).foldl keepFree record) under := by
  refine open_.imp_right fun free => ?_
  rintro (header | ⟨path, above, present⟩)
  · exact free (.inl header)
  · obtain ⟨held, eq⟩ := Option.isSome_iff_exists.1 present
    rcases (lookup_foldl_keepFree _ _ _ _).1 eq with had | ⟨before, after, split, -⟩
    · exact free (.inr ⟨path, above, Option.isSome_iff_exists.2 ⟨held, had⟩⟩)
    · have mem : (path, held) ∈ leavesOf (childPath under segment) value := by simp [split]
      have long := (leadsTo_of_mem_leavesOf (childPath_ne_empty under valid) mem).length_le
      have short := above.length_le
      have longer := length_lt_childPath under valid
      dsimp only at long
      omega

/-- Flattening the members of a map keeps of the walk what nothing blocks, if it does so for each
member. -/
theorem flattenEntries_eq_of_members {entries : List (Value × Value)}
    (each : ∀ entry ∈ entries, ∀ {path : String} {record : Record}, path ≠ "" →
      ¬ Blocked record path →
      flattenValue path record entry.2 = (leavesOf path entry.2).foldl keepFree record)
    {under : String} {record : Record} (open_ : under = "" ∨ ¬ Blocked record under) :
    flattenEntries under record entries = (leavesUnder under entries).foldl keepFree record := by
  induction entries generalizing record with
  | nil => simp [flattenEntries, leavesUnder]
  | cons entry rest ih =>
    have later := @ih (fun entry mem => each entry (mem_cons_of_mem _ mem))
    rw [flattenEntries, leavesUnder, foldl_append]
    split
    · rename_i segment key
      split_ifs with valid taken
      · rw [← blocked_childPath_iff open_ valid] at taken
        have dropped : (leavesOf (childPath under segment) entry.2).foldl keepFree record = record :=
          foldl_keepFree_of_blocked fun leaf mem =>
            taken.below (leadsTo_of_mem_leavesOf (childPath_ne_empty under valid) mem)
        rw [dropped]
        exact later open_
      · rw [← blocked_childPath_iff open_ valid] at taken
        rw [each entry mem_cons_self (childPath_ne_empty under valid) taken]
        exact later (not_blocked_foldl open_ valid entry.2)
      · exact later open_
    · exact later open_

theorem flattenValue_eq (value : Value) {path : String} {record : Record} (nonempty : path ≠ "")
    (free : ¬ Blocked record path) :
    flattenValue path record value = (leavesOf path value).foldl keepFree record := by
  induction value using Value.induct generalizing path record with
  | map children ih =>
    rw [flattenValue, leavesOf]
    exact flattenEntries_eq_of_members (fun entry mem => (ih entry mem).2) (.inr free)
  | _ => simp [flattenValue, leavesOf, keepFree, free]

/-- Flattening a payload keeps of the walk through it what nothing blocks. -/
theorem flattenEntries_eq (record : Record) (entries : List (Value × Value)) :
    flattenEntries "" record entries = (leavesUnder "" entries).foldl keepFree record :=
  flattenEntries_eq_of_members (fun entry _ => flattenValue_eq entry.2) (.inl rfl)

/-- What a record has is kept. -/
theorem lookup_flattenEventPayload [MessagePack.Reader]
    (has : record.lookup field = some value) (payload : List UInt8) :
    (flattenEventPayload payload record).lookup field = some value := by
  unfold flattenEventPayload
  split
  · rw [flattenEntries_eq]
    exact (lookup_foldl_keepFree _ _ _ _).2 (.inl has)
  · exact has

/-- What is met on the walk has a valid path, and what is kept of it is outside the header. -/
theorem added_flattenEntries {entries : List (Value × Value)} (new : record.lookup field = none)
    (has : (flattenEntries "" record entries).lookup field = some value) :
    validFieldPath field = true ∧ underHeaderPath field = false := by
  rw [flattenEntries_eq, lookup_foldl_keepFree, new] at has
  obtain ⟨before, after, split, free⟩ := has.resolve_left nofun
  have mem : (field, value) ∈ leavesUnder "" entries := by simp [split]
  obtain ⟨entry, -, segment, -, valid, mem⟩ := mem_leavesUnder.1 mem
  refine ⟨?_, by simpa using fun header => free (.inl header)⟩
  exact path_of_mem_leavesOf (fun under segment fits => validFieldPath_childPath (.inr fits))
    entry.2 (validFieldPath_childPath (.inl rfl) valid) mem

/-- Flattening leaves a record's entries as they are, adds valid paths outside the header only, and
of a payload that is a map has for each path the first value met on the walk that neither the
header nor an entry at the path or on the way to it blocked when it was met. -/
theorem flattenEventPayload_frame [MessagePack.Reader] (payload : List UInt8) (record : Record) :
    (∀ field value, record.lookup field = some value →
      (flattenEventPayload payload record).lookup field = some value) ∧
    (∀ field value, record.lookup field = none →
      (flattenEventPayload payload record).lookup field = some value →
      validFieldPath field = true ∧ underHeaderPath field = false) ∧
    (∀ entries, decode payload = some (.map entries) →
      flattenEventPayload payload record = (leavesUnder "" entries).foldl keepFree record ∧
      ∀ field value, (flattenEventPayload payload record).lookup field = some value ↔
        record.lookup field = some value ∨
          ∃ before after, leavesUnder "" entries = before ++ (field, value) :: after ∧
            ¬ Blocked (before.foldl keepFree record) field) ∧
    ((∀ entries, decode payload ≠ some (.map entries)) →
      flattenEventPayload payload record = record) := by
  refine ⟨fun field value has => lookup_flattenEventPayload has payload, ?_, ?_, ?_⟩
  · intro field value new has
    unfold flattenEventPayload at has
    split at has
    · exact added_flattenEntries new has
    · rw [new] at has
      cases has
  · intro entries map
    have same : flattenEventPayload payload record =
        (leavesUnder "" entries).foldl keepFree record := by
      simp only [flattenEventPayload, map]
      exact flattenEntries_eq record entries
    refine ⟨same, fun field value => ?_⟩
    rw [same]
    exact lookup_foldl_keepFree _ record field value
  · intro other
    unfold flattenEventPayload
    split
    · rename_i entries map
      exact absurd map (other entries)
    · rfl

/-! ### The record -/

def optionUnsigned (value : Option ℕ) : Value := (value.map fun n => .unsigned (.ofNat n)).getD .null

def optionGuid (value : Option Guid) : Value := (value.map fun guid => .string (guidString guid)).getD .null

/-- The fields of the header. -/
def eventHeader (row : EventRow) : List (String × Value) :=
  [("event.time", .signed (.ofInt row.timestamp)),
    ("event.cpu", optionUnsigned (row.cpuId.map UInt16.toNat)),
    ("event.sequence", optionUnsigned row.sequence),
    ("emitter.class", optionUnsigned (row.originClass.map UInt8.toNat)),
    ("event.type", .string row.eventType),
    ("emitter.token.guid", optionGuid row.effectiveTokenGuid),
    ("emitter.true-token.guid", optionGuid row.trueTokenGuid),
    ("emitter.process.guid", optionGuid row.processGuid),
    ("event.boot.guid", optionGuid (some row.bootId))]

/-- The record of a row. -/
def eventRecord [MessagePack.Reader] (row : EventRow) : Record :=
  let header := (eventHeader row).foldl (fun record entry =>
    insert entry.1 entry.2 record) []
  match row.payload with
  | none => header
  | some payload => flattenEventPayload payload header

/-- The paths of the header hold what the columns have, whatever the payload is. -/
theorem lookup_eventRecord [MessagePack.Reader] (row : EventRow) {field : String}
    (mem : (field, value) ∈ eventHeader row) : (eventRecord row).lookup field = some value := by
  have distinct : ((eventHeader row).map Prod.fst).Nodup := by
    simp only [eventHeader, map_cons, map_nil]
    decide
  have header := lookup_foldl_insert distinct [] mem
  rw [eventRecord]
  cases row.payload with
  | none => exact header
  | some payload => exact lookup_flattenEventPayload header payload

end Eventd
