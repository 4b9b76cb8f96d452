import Eventd.Lib.Grouping
import Eventd.Query.Language
import Eventd.Query.Order
import Eventd.Query.GroupKey

/-!
# Groups of records

`Groups` of `eventd/src/query/executor.rs`: `COUNT BY`, `TOP N BY`, `DISTINCT` and `GROUP`,
folded as the rows pass.  A group is looked for under a hash key, then compared with the
smallest values that its members have had so far.

* `Groups.add`, `Groups.finish`: the two operations;
* `HoldsClasses`: the groups so far are the classes of the rows by meaning and hash key;
* `counted_eq`, `records_eq`: the result is the groups in order, cut off and shown.
-/

namespace Eventd

open KeyedList List Comparison Grouping

/-- One group of rows. -/
structure Group where
  /-- The smallest member of each grouping field. -/
  keys : List Value
  count : ℕ
  numeric : Numeric

/-- The groups of an aggregation so far. -/
structure Groups where
  index : List GroupKey → List ℕ
  /-- Every group so far, in the order they appeared. -/
  seen : List Group

/-- The fields whose values make the groups. -/
def RecordAggregate.fields : RecordAggregate → List String
  | .countBy field | .distinct field | .topBy _ field => [field]
  | .group fields _ => fields

/-- The field whose numbers are aggregated. -/
def RecordAggregate.numericField : RecordAggregate → Option String
  | .group _ function => function.field?
  | _ => none

/-- The values of the grouping fields. -/
def keysOf (fields : List String) (row : RecordRow) : List Value := fields.map (valueOf row.record)

variable (text : DebugText) (aggregate : RecordAggregate)

namespace Group

def new (keys : List Value) : Group := ⟨keys, 0, .new⟩

/-- Keep the smaller value of each field. -/
def lower (group : Group) (keys : List Value) : Group :=
  { group with
    keys := List.zipWith (fun representative value =>
      if value.languageCmp text representative = .lt then value else representative) group.keys keys }

/-- Count a row, and the number that it has in a field. -/
def take (group : Group) (row : RecordRow) : Group :=
  { group with
    count := group.count + 1
    numeric :=
      match aggregate.numericField.bind (row.record.lookup ·) with
      | some value => group.numeric.push value
      | none => group.numeric }

end Group

namespace Groups

def new : Groups := ⟨fun _ => [], []⟩

/-- The group that a row belongs to, if there is one. -/
def found (groups : Groups) (keys : List Value) : Option ℕ :=
  (groups.index (keys.map GroupKey.of)).find? fun index =>
    (groups.seen[index]?).any fun group =>
      (group.keys.zip keys).all fun pair => pair.1.languageEqual pair.2

/-- Take a row into account. -/
def add (groups : Groups) (row : RecordRow) : Groups :=
  let keys := keysOf aggregate.fields row
  match groups.found keys with
  | some index =>
    { groups with
      seen := groups.seen.modify index fun group => (group.lower text keys).take aggregate row }
  | none =>
    let key := keys.map GroupKey.of
    { index := fun other => if other = key then groups.index key ++ [groups.seen.length]
        else groups.index other
      seen := groups.seen ++ [(Group.new keys).take aggregate row] }

def addAll (groups : Groups) (rows : List RecordRow) : Groups := rows.foldl (add text aggregate) groups

/-- The group into which a row goes. -/
def place (groups : Groups) (row : RecordRow) : ℕ :=
  (groups.found (keysOf aggregate.fields row)).getD groups.seen.length

/-- The groups into which rows go, one after the other. -/
def places (groups : Groups) : List RecordRow → List ℕ
  | [] => []
  | row :: rows => groups.place aggregate row :: places (groups.add text aggregate row) rows

end Groups

/-! ### The result -/

/-- By count, and the groups with one count by value. -/
def counted (field : String) (groups : List Group) (take : Option ℕ) : List Record :=
  let groups := groups.filterMap fun group => group.keys.head?.map fun value => (value, group.count)
  let groups := groups.mergeSort fun left right =>
    ((compare right.2 left.2).then (left.1.languageCmp text right.1)).isLE
  let groups := take.elim groups groups.take
  groups.map fun group =>
    insert "count" (.unsigned (.ofNat group.2)) [(field, group.1)]

/-- The order of the keys of two groups. -/
def keysCmp (left right : List Value) : Ordering :=
  (((left.zip right).map fun pair => pair.1.languageCmp text pair.2).find? (· != .eq)).getD .eq

/-- What a `GROUP` function makes of a group, under its name. -/
def groupValue (function : GroupFunction) (group : Group) : Except QueryError (String × Value) :=
  match function with
  | .count => .ok ("count", .unsigned (.ofNat group.count))
  | .sum _ => (group.numeric.finish .sum).map ("sum", ·)
  | .avg _ => (group.numeric.finish .avg).map ("avg", ·)
  | .min _ => (group.numeric.finish .min).map ("min", ·)
  | .max _ => (group.numeric.finish .max).map ("max", ·)

/-- A map from its entries, of which later ones replace earlier ones. -/
def collect (entries : List (String × Value)) : Record :=
  entries.foldl (fun record entry => insert entry.1 entry.2 record) []

def groupRecord (fields : List String) (function : GroupFunction) (group : Group) :
    Except QueryError Record := do
  let (name, value) ← groupValue function group
  return insert name value (collect (fields.zip group.keys))

/-- The records of the groups. -/
def Groups.records (groups : Groups) : Except QueryError (List Record) :=
  match aggregate with
  | .countBy field => .ok (counted text field groups.seen none)
  | .topBy count field => .ok (counted text field groups.seen (some count))
  | .distinct field =>
    let values := groups.seen.filterMap fun group => group.keys.head?
    let values := values.mergeSort fun left right => (left.languageCmp text right).isLE
    .ok (values.map fun value => [(field, value)])
  | .group fields function =>
    let seen := groups.seen.mergeSort fun left right =>
      ((if function = .count then compare right.count left.count else .eq).then
        (keysCmp text left.keys right.keys)).isLE
    seen.mapM (groupRecord fields function)

/-- The result rows.  A group is no record and has no time of its own. -/
def Groups.finish (groups : Groups) : Except QueryError (List RecordRow) := do
  let records ← groups.records text aggregate
  return records.zipIdx.map fun entry => ⟨⟨"", entry.1⟩, 0, .single entry.2⟩

/-! ### The groups are the classes of the rows -/

section Run

/-- What decides into which group a row goes: the meanings of its keys, and their hash keys. -/
noncomputable def classOf (fields : List String) (row : RecordRow) : List Meaning × List GroupKey :=
  ((keysOf fields row).map Value.meaning, (keysOf fields row).map GroupKey.of)

/-- A group of its first row, and a group with one row more. -/
def Group.start (row : RecordRow) : Group := (Group.new (keysOf aggregate.fields row)).take aggregate row

def Group.next (group : Group) (row : RecordRow) : Group :=
  (group.lower text (keysOf aggregate.fields row)).take aggregate row

/-- The rows by class. -/
noncomputable def classes (rows : List RecordRow) : List ((List Meaning × List GroupKey) × Group) :=
  Grouping.gather (classOf aggregate.fields) (Group.start aggregate) (Group.next text aggregate) rows

/-- The groups hold what the classes hold. -/
structure HoldsClasses (groups : Groups) (entries : List ((List Meaning × List GroupKey) × Group)) :
    Prop where
  nodup : (entries.map Prod.fst).Nodup
  seen : groups.seen = entries.map Prod.snd
  index : ∀ key i, i ∈ groups.index key ↔ (entries.map Prod.fst)[i]?.map Prod.snd = some key
  keys : ∀ entry ∈ entries, entry.2.keys.map Value.meaning = entry.1.1
  length : ∀ entry ∈ entries, entry.2.keys.length = aggregate.fields.length

variable {text aggregate} {groups : Groups} {entries : List ((List Meaning × List GroupKey) × Group)}

theorem length_keysOf (fields : List String) (row : RecordRow) :
    (keysOf fields row).length = fields.length := length_map _

theorem zip_languageEqual {as bs : List Value} (length : as.length = bs.length) :
    ((as.zip bs).all fun pair => pair.1.languageEqual pair.2) = true ↔
      as.map Value.meaning = bs.map Value.meaning := by
  induction as generalizing bs with
  | nil =>
    cases bs with
    | nil => simp
    | cons b bs => cases length
  | cons a as ih =>
    cases bs with
    | nil => cases length
    | cons b bs =>
      rw [zip_cons_cons, all_cons, Bool.and_eq_true, languageEqual_iff,
        ih (Nat.succ.inj length), map_cons, map_cons, List.cons.injEq]

namespace HoldsClasses

variable (holds : HoldsClasses aggregate groups entries) {row : RecordRow}
include holds

/-- A group in the bucket of a row is the row's group if it has the row's class. -/
theorem hit {i : ℕ} {entry : (List Meaning × List GroupKey) × Group} (there : entries[i]? = some entry) :
    ((groups.seen[i]?).any fun group =>
      (group.keys.zip (keysOf aggregate.fields row)).all fun pair => pair.1.languageEqual pair.2) = true ↔
      entry.1.1 = (classOf aggregate.fields row).1 := by
  have mem := mem_of_getElem? there
  have length := (holds.length entry mem).trans (length_keysOf aggregate.fields row).symm
  rw [holds.seen, List.getElem?_map, there, Option.map_some, Option.any_some, zip_languageEqual length,
    holds.keys entry mem]
  rfl

/-- What is found has the row's class. -/
theorem class_of_found {i : ℕ} (found : groups.found (keysOf aggregate.fields row) = some i) :
    ∃ group, entries[i]? = some (classOf aggregate.fields row, group) := by
  have bucket := mem_of_find?_eq_some found
  have there := (holds.index _ i).1 bucket
  rw [List.getElem?_map, Option.map_map, Option.map_eq_some_iff] at there
  obtain ⟨entry, there, key⟩ := there
  have hit := List.find?_some found
  have meaning := (holds.hit there).1 hit
  exact ⟨entry.2, there.trans (congrArg some (Prod.ext (Prod.ext meaning key) rfl))⟩

theorem found_of_mem {i : ℕ} {group : Group}
    (there : entries[i]? = some (classOf aggregate.fields row, group)) :
    groups.found (keysOf aggregate.fields row) = some i := by
  cases found : groups.found (keysOf aggregate.fields row) with
  | none =>
    have bucket : i ∈ groups.index ((keysOf aggregate.fields row).map GroupKey.of) := by
      rw [holds.index, List.getElem?_map, there]
      rfl
    exact absurd ((holds.hit there).2 rfl) (List.find?_eq_none.1 found i bucket)
  | some j =>
    obtain ⟨group', there'⟩ := holds.class_of_found found
    have short : i < (entries.map Prod.fst).length := by
      rw [length_map]
      exact (List.getElem?_eq_some_iff.1 there).1
    have same : (entries.map Prod.fst)[i]? = (entries.map Prod.fst)[j]? := by
      rw [List.getElem?_map, List.getElem?_map, there, there']
      rfl
    rw [(List.getElem?_inj short holds.nodup).1 same]

theorem found_eq_none (new : classOf aggregate.fields row ∉ entries.map Prod.fst) :
    groups.found (keysOf aggregate.fields row) = none := by
  cases found : groups.found (keysOf aggregate.fields row) with
  | none => rfl
  | some i =>
    obtain ⟨group, there⟩ := holds.class_of_found found
    exact absurd (mem_map_of_mem (mem_of_getElem? there)) new

/-- The row goes into the group of its class. -/
theorem place_eq : groups.place aggregate row = landing (classOf aggregate.fields) entries row := by
  unfold Groups.place
  by_cases known : classOf aggregate.fields row ∈ entries.map Prod.fst
  · obtain ⟨group, there⟩ := getElem?_landing known
    rw [holds.found_of_mem there, Option.getD_some]
  · rw [holds.found_eq_none known, Option.getD_none, holds.seen, length_map,
      landing_eq_length known]

end HoldsClasses

theorem meaning_lower {group : Group} {keys : List Value}
    (same : keys.map Value.meaning = group.keys.map Value.meaning) :
    (group.lower text keys).keys.map Value.meaning = group.keys.map Value.meaning := by
  unfold Group.lower
  generalize group.keys = representatives at same
  induction representatives generalizing keys with
  | nil => rfl
  | cons representative representatives ih =>
    cases keys with
    | nil => cases same
    | cons key keys =>
      rw [map_cons, map_cons, List.cons.injEq] at same
      rw [zipWith_cons_cons, map_cons, map_cons, ih same.2]
      by_cases less : key.languageCmp text representative = .lt
      · rw [if_pos less, same.1]
      · rw [if_neg less]

theorem meaning_next {group : Group} {row : RecordRow}
    (same : (keysOf aggregate.fields row).map Value.meaning = group.keys.map Value.meaning) :
    (group.next text aggregate row).keys.map Value.meaning = group.keys.map Value.meaning :=
  meaning_lower same

theorem length_of_meaning {fields : List String} {row : RecordRow} {keys : List Value}
    (same : keys.map Value.meaning = (classOf fields row).1) : keys.length = fields.length := by
  have := congrArg List.length same
  rwa [length_map, classOf, length_map, length_keysOf] at this

namespace HoldsClasses

variable (holds : HoldsClasses aggregate groups entries) {row : RecordRow}
include holds

theorem keys_add {entry : (List Meaning × List GroupKey) × Group}
    (mem : entry ∈ Grouping.add (classOf aggregate.fields) (Group.start aggregate)
      (Group.next text aggregate) entries row) :
    entry.2.keys.map Value.meaning = entry.1.1 ∧ entry.2.keys.length = aggregate.fields.length := by
  rcases mem_add holds.nodup mem with ⟨-, mem⟩ | ⟨same, group, ⟨mem, eq⟩ | ⟨-, eq⟩⟩
  · exact ⟨holds.keys entry mem, holds.length entry mem⟩
  · have old := holds.keys _ mem
    have new : entry.2.keys.map Value.meaning = entry.1.1 := by
      rw [eq, same, ← old]
      exact meaning_next old.symm
    exact ⟨new, length_of_meaning (new.trans (congrArg Prod.fst same))⟩
  · have new : entry.2.keys.map Value.meaning = entry.1.1 := by
      rw [eq, same]
      rfl
    exact ⟨new, length_of_meaning (new.trans (congrArg Prod.fst same))⟩

theorem seen_add : (groups.add text aggregate row).seen =
    (Grouping.add (classOf aggregate.fields) (Group.start aggregate) (Group.next text aggregate) entries
      row).map Prod.snd := by
  unfold Groups.add
  dsimp only
  by_cases known : classOf aggregate.fields row ∈ entries.map Prod.fst
  · obtain ⟨group, there⟩ := getElem?_landing known
    rw [holds.found_of_mem there, add_of_getElem? holds.nodup there, holds.seen]
    refine ext_getElem? fun i => ?_
    rw [List.getElem?_map, List.getElem?_modify, List.getElem?_modify, List.getElem?_map]
    cases entries[i]? with
    | none => rfl
    | some entry => split_ifs <;> rfl
  · rw [holds.found_eq_none known, add_of_notMem known, holds.seen, map_append]
    rfl

theorem index_add (key : List GroupKey) (i : ℕ) : i ∈ (groups.add text aggregate row).index key ↔
    ((Grouping.add (classOf aggregate.fields) (Group.start aggregate) (Group.next text aggregate) entries
      row).map Prod.fst)[i]?.map Prod.snd = some key := by
  unfold Groups.add
  dsimp only
  rw [classes_add]
  by_cases known : classOf aggregate.fields row ∈ entries.map Prod.fst
  · obtain ⟨group, there⟩ := getElem?_landing known
    rw [holds.found_of_mem there, if_pos known]
    exact holds.index key i
  · have old := holds.index key i
    rw [holds.found_eq_none known, if_neg known, List.getElem?_append]
    dsimp only
    have size : groups.seen.length = (entries.map Prod.fst).length := by
      rw [holds.seen, length_map, length_map]
    by_cases short : i < (entries.map Prod.fst).length
    · rw [if_pos short, ← old]
      split_ifs with same
      · rw [same, mem_append, mem_singleton]
        exact or_iff_left (by omega)
      · rfl
    · rw [if_neg short]
      rw [List.getElem?_eq_none (not_lt.1 short), Option.map_none] at old
      have absent : i ∉ groups.index key := fun mem => nomatch old.1 mem
      rcases (not_lt.1 short).eq_or_lt with last | past
      · rw [← last, Nat.sub_self, List.getElem?_cons_zero, Option.map_some, Option.some_inj, size]
        by_cases same : key = (keysOf aggregate.fields row).map GroupKey.of
        · rw [if_pos same, mem_append, mem_singleton]
          exact iff_of_true (.inr rfl) same.symm
        · rw [if_neg same, last]
          exact iff_of_false absent (Ne.symm same)
      · rw [List.getElem?_eq_none (by rw [length_singleton]; omega), Option.map_none]
        refine iff_of_false (fun mem => ?_) nofun
        split_ifs at mem with same
        · rcases mem_append.1 mem with mem | mem
          · exact absent (same ▸ mem)
          · have := mem_singleton.1 mem
            omega
        · exact absent mem

end HoldsClasses

/-- **One row.** -/
theorem HoldsClasses.add (holds : HoldsClasses aggregate groups entries) (row : RecordRow) :
    HoldsClasses aggregate (groups.add text aggregate row)
      (Grouping.add (classOf aggregate.fields) (Group.start aggregate) (Group.next text aggregate) entries
        row) where
  nodup := nodup_add holds.nodup row
  seen := holds.seen_add
  index := holds.index_add
  keys _ mem := (holds.keys_add mem).1
  length _ mem := (holds.keys_add mem).2

theorem holdsClasses_foldl (rows : List RecordRow) (holds : HoldsClasses aggregate groups entries) :
    HoldsClasses aggregate (groups.addAll text aggregate rows)
      (rows.foldl (Grouping.add (classOf aggregate.fields) (Group.start aggregate)
        (Group.next text aggregate)) entries) := by
  induction rows generalizing groups entries with
  | nil => exact holds
  | cons row rows ih => exact ih (holds.add row)

theorem holdsClasses_new : HoldsClasses aggregate Groups.new [] where
  nodup := nodup_nil
  seen := rfl
  index _ _ := iff_of_false not_mem_nil nofun
  keys _ mem := absurd mem not_mem_nil
  length _ mem := absurd mem not_mem_nil

/-- **The groups are the classes of the rows.** -/
theorem holdsClasses (rows : List RecordRow) :
    HoldsClasses aggregate (Groups.new.addAll text aggregate rows) (classes text aggregate rows) :=
  holdsClasses_foldl rows holdsClasses_new

theorem places_eq (rows : List RecordRow) (holds : HoldsClasses aggregate groups entries) :
    groups.places text aggregate rows =
      landings (classOf aggregate.fields) (Group.start aggregate) (Group.next text aggregate) entries
        rows := by
  induction rows generalizing groups entries with
  | nil => rfl
  | cons row rows ih => rw [Groups.places, landings, holds.place_eq, ih (holds.add row)]

end Run

/-! ### What a group comes to -/

section Summary

/-- The value of a field in a row. -/
def fieldOf (field : String) (row : RecordRow) : Value := valueOf row.record field

variable {text aggregate}

theorem keys_foldl_next (rows : List RecordRow) {group : Group} {h : String → Value}
    (keys : group.keys = aggregate.fields.map h) :
    (rows.foldl (Group.next text aggregate) group).keys =
      aggregate.fields.map fun field => least (Value.languageCmp text) (h field) (rows.map (fieldOf field)) := by
  induction rows generalizing group h with
  | nil => exact keys
  | cons row rows ih =>
    rw [foldl_cons]
    refine ih (h := fun field =>
      if (fieldOf field row).languageCmp text (h field) = .lt then fieldOf field row else h field) ?_
    show List.zipWith _ group.keys (aggregate.fields.map _) = _
    rw [keys, zipWith_map, zipWith_self]
    rfl

theorem count_foldl_next (rows : List RecordRow) (group : Group) :
    (rows.foldl (Group.next text aggregate) group).count = group.count + rows.length := by
  induction rows generalizing group with
  | nil => rfl
  | cons row rows ih =>
    rw [foldl_cons, ih, length_cons]
    show group.count + 1 + rows.length = _
    omega

/-- The smallest value that rows have in a field. -/
def smallestIn (text : DebugText) (field : String) : List RecordRow → Value
  | [] => .null
  | row :: rows => least (Value.languageCmp text) (fieldOf field row) (rows.map (fieldOf field))

theorem summary_spec {rows : List RecordRow} {group : Group}
    (summary : summary (Group.start aggregate) (Group.next text aggregate) rows = some group) :
    group.keys = aggregate.fields.map (smallestIn text · rows) ∧ group.count = rows.length := by
  cases rows with
  | nil => cases summary
  | cons row rows =>
    obtain rfl := Option.some.inj summary
    refine ⟨keys_foldl_next rows rfl, ?_⟩
    rw [count_foldl_next, length_cons, Nat.add_comm]
    rfl

/-- A smallest value is the value of a row, and not above that of any other. -/
theorem smallestIn_spec (text : DebugText) (field : String) {rows : List RecordRow} (nonempty : rows ≠ []) :
    (∃ row ∈ rows, smallestIn text field rows = fieldOf field row) ∧
      ∀ row ∈ rows, ((smallestIn text field rows).languageCmp text (fieldOf field row)).isLE := by
  obtain ⟨row, rows, rfl⟩ := exists_cons_of_ne_nil nonempty
  have mem : least (Value.languageCmp text) (fieldOf field row) (rows.map (fieldOf field)) ∈
      (row :: rows).map (fieldOf field) := least_mem _ _
  obtain ⟨other, mem, eq⟩ := mem_map.1 mem
  refine ⟨⟨other, mem, eq.symm⟩, fun row' mem' => least_le ?_⟩
  rw [← map_cons]
  exact mem_map_of_mem mem'

end Summary

/-! ### The result, for every aggregate -/

/-- Whether the groups are ordered by their counts first. -/
def RecordAggregate.counts : RecordAggregate → Bool
  | .countBy _ | .topBy _ _ | .group _ .count => true
  | _ => false

/-- How many groups are shown at most. -/
def RecordAggregate.limit : RecordAggregate → Option ℕ
  | .topBy count _ => some count
  | _ => none

/-- The order in which groups are shown. -/
def Group.order (left right : Group) : Ordering :=
  (if aggregate.counts then compare right.count left.count else .eq).then
    (lexicographic (Value.languageCmp text) left.keys right.keys)

/-- What is shown of a group. -/
def Group.record (group : Group) : Except QueryError Record :=
  match aggregate with
  | .countBy field | .topBy _ field =>
    .ok (insert "count" (.unsigned (.ofNat group.count)) [(field, group.keys.headD .null)])
  | .distinct field => .ok [(field, group.keys.headD .null)]
  | .group fields function => groupRecord fields function group

def cutOff {α : Type*} (limit : Option ℕ) (groups : List α) : List α := limit.elim groups groups.take

variable {text aggregate}

theorem mergeSort_map {α β : Type*} {r : α → α → Bool} {s : β → β → Bool} {f : α → β} {l : List α}
    (same : ∀ a ∈ l, ∀ b ∈ l, r a b = s (f a) (f b)) : (l.map f).mergeSort s = (l.mergeSort r).map f :=
  (map_mergeSort same).symm

theorem mapM_ok {α β ε : Type} {f : α → Except ε β} {g : α → β} {l : List α}
    (each : ∀ a ∈ l, f a = .ok (g a)) : l.mapM f = .ok (l.map g) := by
  induction l with
  | nil => rfl
  | cons a l ih =>
    obtain ⟨here, others⟩ := forall_mem_cons.1 each
    rw [mapM_cons, here, ih others]
    rfl

theorem filterMap_keys {groups : List Group} (one : ∀ group ∈ groups, group.keys.length = 1) {α : Type*}
    (f : Group → Value → α) :
    (groups.filterMap fun group => group.keys.head?.map (f group)) =
      groups.map fun group => f group (group.keys.headD .null) := by
  induction groups with
  | nil => rfl
  | cons group groups ih =>
    obtain ⟨here, others⟩ := forall_mem_cons.1 one
    obtain ⟨value, keys⟩ := length_eq_one_iff.1 here
    rw [filterMap_cons, keys, map_cons, ih others, keys]
    rfl

theorem order_of_one {left right : Group} (one : left.keys.length = 1) (one' : right.keys.length = 1) :
    lexicographic (Value.languageCmp text) left.keys right.keys =
      (left.keys.headD .null).languageCmp text (right.keys.headD .null) := by
  obtain ⟨value, keys⟩ := length_eq_one_iff.1 one
  obtain ⟨value', keys'⟩ := length_eq_one_iff.1 one'
  rw [keys, keys']
  exact Ordering.then_eq

theorem keysCmp_eq {left right : List Value} (length : left.length = right.length) :
    keysCmp text left right = lexicographic (Value.languageCmp text) left right := by
  induction left generalizing right with
  | nil =>
    cases right with
    | nil => rfl
    | cons _ _ => cases length
  | cons a as ih =>
    cases right with
    | nil => cases length
    | cons b bs =>
      have := ih (Nat.succ.inj length)
      unfold keysCmp at this ⊢
      rw [zip_cons_cons, map_cons, List.find?_cons, lexicographic, ← this]
      cases a.languageCmp text b <;> rfl

theorem counted_eq {field : String} {groups : List Group} (take : Option ℕ)
    (one : ∀ group ∈ groups, group.keys.length = 1) :
    counted text field groups take =
      (cutOff take (groups.mergeSort fun left right =>
        ((compare right.count left.count).then
          (lexicographic (Value.languageCmp text) left.keys right.keys)).isLE)).map fun group =>
        insert "count" (.unsigned (.ofNat group.count)) [(field, group.keys.headD .null)] := by
  have sorted : (groups.map fun group => (group.keys.headD .null, group.count)).mergeSort
      (fun left right => ((compare right.2 left.2).then (left.1.languageCmp text right.1)).isLE) =
      (groups.mergeSort fun left right => ((compare right.count left.count).then
        (lexicographic (Value.languageCmp text) left.keys right.keys)).isLE).map
          fun group => (group.keys.headD .null, group.count) :=
    mergeSort_map fun left mem right mem' => by rw [order_of_one (one left mem) (one right mem')]
  unfold counted
  dsimp only
  rw [filterMap_keys one fun group value => (value, group.count), sorted]
  cases take with
  | none =>
    dsimp only [Option.elim_none, cutOff]
    rw [map_map]
    rfl
  | some take =>
    dsimp only [Option.elim_some, cutOff]
    rw [← map_take, map_map]
    rfl

/-- **The result is the groups in order, cut off and shown.** -/
theorem records_eq {groups : Groups}
    (lengths : ∀ group ∈ groups.seen, group.keys.length = aggregate.fields.length) :
    groups.records text aggregate =
      (cutOff aggregate.limit (groups.seen.mergeSort fun left right =>
        (left.order text aggregate right).isLE)).mapM (Group.record aggregate) := by
  unfold Groups.records
  cases aggregate with
  | countBy field =>
    dsimp only
    rw [counted_eq none lengths]
    exact (mapM_ok fun _ _ => rfl).symm
  | topBy count field =>
    dsimp only
    rw [counted_eq (some count) lengths]
    exact (mapM_ok fun _ _ => rfl).symm
  | distinct field =>
    have values : (groups.seen.filterMap fun group => group.keys.head?) =
        groups.seen.map fun group => group.keys.headD .null := by
      rw [← filterMap_keys lengths fun _ value => value]
      exact filterMap_congr fun group _ => Option.map_id'.symm
    have sorted : (groups.seen.map fun group => group.keys.headD .null).mergeSort
        (fun left right => (left.languageCmp text right).isLE) =
        (groups.seen.mergeSort fun left right =>
          (left.order text (.distinct field) right).isLE).map fun group => group.keys.headD .null :=
      mergeSort_map fun left mem right mem' => by
        rw [← order_of_one (lengths left mem) (lengths right mem')]
        rfl
    dsimp only
    rw [values, sorted, map_map]
    exact (mapM_ok fun _ _ => rfl).symm
  | group fields function =>
    have sorted : groups.seen.mergeSort (fun left right =>
        ((if function = .count then compare right.count left.count else .eq).then
          (keysCmp text left.keys right.keys)).isLE) =
        groups.seen.mergeSort fun left right => (left.order text (.group fields function) right).isLE := by
      have := mergeSort_map (f := id) (l := groups.seen)
        (r := fun left right => (left.order text (.group fields function) right).isLE)
        (s := fun left right => ((if function = .count then compare right.count left.count else .eq).then
          (keysCmp text left.keys right.keys)).isLE) fun left mem right mem' => by
        rw [id, id, keysCmp_eq ((lengths left mem).trans (lengths right mem').symm)]
        cases function <;> rfl
      rwa [map_id, map_id] at this
    dsimp only
    rw [sorted]
    rfl

theorem swap_order (left right : Group) :
    right.order text aggregate left = (left.order text aggregate right).swap := by
  have keys : lexicographic (Value.languageCmp text) right.keys left.keys =
      (lexicographic (Value.languageCmp text) left.keys right.keys).swap :=
    swap_lexicographic (fun _ _ _ => languageCmp_swap _ _) _
  have counts : (compare left.count right.count) = (compare right.count left.count).swap :=
    Std.OrientedCmp.eq_swap
  unfold Group.order
  rw [Ordering.swap_then, keys, counts]
  cases aggregate.counts <;> rfl

theorem chains_order (a b c : Group) : Chains (Group.order text aggregate) a b c := by
  refine Chains.then (f := fun left right : Group =>
    if aggregate.counts then compare right.count left.count else .eq)
    (g := fun left right : Group => lexicographic (Value.languageCmp text) left.keys right.keys) ?_ ?_
  · cases aggregate.counts with
    | false => exact fun _ _ => rfl
    -- larger counts come first
    | true => exact chains_of_transCmp (fun x y : ℕ => compare y x) a.count b.count c.count
  · intro _ _
    exact chains_lexicographic (fun a _ b c => languageCmp_chains a b c) b.keys c.keys

end Eventd
