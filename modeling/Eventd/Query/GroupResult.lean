import Eventd.Query.Groups

/-!
# Grouping by language equality

TRM §6.2 and PSPU §3.21 group records by equality under the language's own rules and report
the smallest member of each grouping field.  `Groups` does so, with two exceptions.  NaNs are
equal to one another, but are looked for under keys made of their bits.  And values that the
order does not tell apart may still differ (`1` and `1.0`), so that the one that is reported
is the first that came.

* `GroupedByEquality`: what the documentation promises;
* `meaningsOf`, `members`, `shownClasses`: the classes of the rows, and those that are shown;
* `grouped_by_equality_iff`: when the promise holds.
-/

namespace Eventd

open KeyedList List Comparison Grouping

/-- Two rows have equal values in every field. -/
def SameKeys (fields : List String) (r s : RecordRow) : Prop :=
  ∀ field ∈ fields, (fieldOf field r).languageEqual (fieldOf field s) = true

/-- `COUNT BY`, `TOP N BY`, `DISTINCT` and `GROUP … COUNT`. -/
def RecordAggregate.onlyCounts : RecordAggregate → Bool
  | .group _ function => function = .count
  | _ => true

variable (text : DebugText) (aggregate : RecordAggregate)

/-- The groups of rows, and where each row went. -/
def groupsOf (rows : List RecordRow) : Groups := Groups.new.addAll text aggregate rows

def placesOf (rows : List RecordRow) : List ℕ := Groups.new.places text aggregate rows

/-- Rows are grouped by language equality. -/
structure GroupedByEquality (rows : List RecordRow) : Prop where
  classes : ∀ (i j : ℕ) (r s : RecordRow), rows[i]? = some r → rows[j]? = some s →
    ((placesOf text aggregate rows)[i]? = (placesOf text aggregate rows)[j]? ↔
      SameKeys aggregate.fields r s)
  counts : ((groupsOf text aggregate rows).seen.map Group.count).sum = rows.length
  smallest : ∀ (k : ℕ) (group : Group), (groupsOf text aggregate rows).seen[k]? = some group →
    ∀ (p : ℕ) (field : String), aggregate.fields[p]? = some field → ∃ key, group.keys[p]? = some key ∧
      (∃ (i : ℕ) (r : RecordRow), rows[i]? = some r ∧ (placesOf text aggregate rows)[i]? = some k ∧ key = fieldOf field r) ∧
      ∀ (i : ℕ) (r : RecordRow), rows[i]? = some r → (placesOf text aggregate rows)[i]? = some k →
        (key.languageCmp text (fieldOf field r)).isLE
  steady : aggregate.onlyCounts = true → ∀ rows' : List RecordRow, rows'.Perm rows →
    (groupsOf text aggregate rows').finish text aggregate =
      (groupsOf text aggregate rows).finish text aggregate

/-- Equal values hold the same NaNs. -/
def NansAgree (fields : List String) (rows : List RecordRow) : Prop :=
  ∀ r ∈ rows, ∀ s ∈ rows, SameKeys fields r s →
    ∀ field ∈ fields, (fieldOf field r).nans = (fieldOf field s).nans

/-! ### Classes -/

/-- What the keys of a row mean. -/
noncomputable def meaningsOf (fields : List String) (row : RecordRow) : List Meaning :=
  (keysOf fields row).map Value.meaning

/-- The rows of a class. -/
noncomputable def members (rows : List RecordRow) (m : List Meaning) : List RecordRow :=
  rows.filter (meaningsOf aggregate.fields · = m)

/-- The smallest value of each field in a class. -/
noncomputable def smallestKeys (rows : List RecordRow) (m : List Meaning) : List Value :=
  aggregate.fields.map (smallestIn text · (members aggregate rows m))

/-- The group that a class makes, as far as it is ordered and counted. -/
noncomputable def classGroup (rows : List RecordRow) (m : List Meaning) : Group :=
  ⟨smallestKeys text aggregate rows m, (members aggregate rows m).length, .new⟩

/-- The order of the classes: that of the groups they make. -/
noncomputable def classOrder (rows : List RecordRow) (m m' : List Meaning) : Ordering :=
  (classGroup text aggregate rows m).order text aggregate (classGroup text aggregate rows m')

/-- The classes that are shown, in order. -/
noncomputable def shownClasses (rows : List RecordRow) : List (List Meaning) :=
  cutOff aggregate.limit ((rows.map (meaningsOf aggregate.fields)).dedup.mergeSort
    fun m m' => (classOrder text aggregate rows m m').isLE)

/-- The fields whose smallest values are shown; a count takes the place of a field of that
name. -/
def RecordAggregate.shownFields (aggregate : RecordAggregate) : List String :=
  match aggregate with
  | .distinct field => [field]
  | _ => aggregate.fields.filter (· ≠ "count")

/-- A row has a smallest value of its class in a field. -/
def HasSmallest (rows : List RecordRow) (field : String) (r : RecordRow) : Prop :=
  ∀ s ∈ rows, SameKeys aggregate.fields r s →
    ((fieldOf field r).languageCmp text (fieldOf field s)).isLE

/-- The smallest values that are shown are the same in every representation. -/
def SmallestAgree (rows : List RecordRow) : Prop :=
  ∀ m ∈ shownClasses text aggregate rows, ∀ field ∈ aggregate.shownFields,
    ∀ r ∈ members aggregate rows m, ∀ s ∈ members aggregate rows m,
      HasSmallest text aggregate rows field r → HasSmallest text aggregate rows field s →
        fieldOf field r = fieldOf field s

variable {text aggregate} {rows rows' : List RecordRow}

variable {r s : RecordRow} {field : String} {m : List Meaning} {fields : List String}
  {group : Group}

theorem sameKeys_iff_meanings :
    SameKeys fields r s ↔ meaningsOf fields r = meaningsOf fields s := by
  unfold SameKeys meaningsOf keysOf
  rw [map_map, map_map, map_inj_left]
  exact forall₂_congr fun field _ => languageEqual_iff

theorem classOf_eq_iff :
    classOf fields r = classOf fields s ↔
      SameKeys fields r s ∧ ∀ field ∈ fields, (fieldOf field r).nans = (fieldOf field s).nans := by
  rw [sameKeys_iff_meanings, classOf, classOf, Prod.mk.injEq]
  refine and_congr_right fun same => ?_
  unfold keysOf
  rw [map_map, map_map, map_inj_left]
  exact forall₂_congr fun field mem => groupKey_eq_iff (sameKeys_iff_meanings.2 same field mem)

theorem places_eq_iff {i j : ℕ} (hi : rows[i]? = some r) (hj : rows[j]? = some s) :
    (placesOf text aggregate rows)[i]? = (placesOf text aggregate rows)[j]? ↔
      classOf aggregate.fields r = classOf aggregate.fields s := by
  unfold placesOf
  rw [places_eq rows holdsClasses_new]
  exact landings_eq_iff hi hj

/-- The groups are those of language equality if and only if equal NaNs have equal bits. -/
theorem classes_iff : (∀ (i j : ℕ) (r s : RecordRow), rows[i]? = some r → rows[j]? = some s →
      ((placesOf text aggregate rows)[i]? = (placesOf text aggregate rows)[j]? ↔
        SameKeys aggregate.fields r s)) ↔ NansAgree aggregate.fields rows := by
  constructor
  · intro classes r hr s hs same
    obtain ⟨i, hi⟩ := List.getElem?_of_mem hr
    obtain ⟨j, hj⟩ := List.getElem?_of_mem hs
    exact (classOf_eq_iff.1 ((places_eq_iff hi hj).1 ((classes i j r s hi hj).2 same))).2
  · intro nans i j r s hi hj
    rw [places_eq_iff hi hj, classOf_eq_iff]
    exact and_iff_left_of_imp fun same => nans r (mem_of_getElem? hi) s (mem_of_getElem? hj) same

theorem counts_eq : ((groupsOf text aggregate rows).seen.map Group.count).sum = rows.length := by
  unfold groupsOf
  rw [(holdsClasses rows).seen, map_map]
  refine sum_gather ?_ ?_ rows
  · exact fun _ => rfl
  · exact fun _ _ => rfl

/-- A group and the rows that went into it. -/
theorem group_spec {k : ℕ} (hk : (groupsOf text aggregate rows).seen[k]? = some group) :
    ∃ c, group.keys = aggregate.fields.map (smallestIn text · (rows.filter (classOf aggregate.fields · = c))) ∧
      (rows.filter (classOf aggregate.fields · = c)) ≠ [] ∧
      ∀ (i : ℕ) (r : RecordRow), rows[i]? = some r →
        ((placesOf text aggregate rows)[i]? = some k ↔ classOf aggregate.fields r = c) := by
  unfold groupsOf at hk
  rw [(holdsClasses rows).seen, List.getElem?_map, Option.map_eq_some_iff] at hk
  obtain ⟨⟨c, _⟩, there, rfl⟩ := hk
  have summary := (gathered rows).summary _ (mem_of_getElem? there)
  refine ⟨c, (summary_spec summary).1, fun none => ?_, fun i r hi => ?_⟩
  · rw [none] at summary
    cases summary
  · unfold placesOf
    rw [places_eq rows holdsClasses_new]
    exact landings_eq_some_iff hi there

theorem smallest_reported {k : ℕ} (hk : (groupsOf text aggregate rows).seen[k]? = some group)
    {p : ℕ} {field : String} (hp : aggregate.fields[p]? = some field) :
    ∃ key, group.keys[p]? = some key ∧
      (∃ (i : ℕ) (r : RecordRow), rows[i]? = some r ∧ (placesOf text aggregate rows)[i]? = some k ∧
        key = fieldOf field r) ∧
      ∀ (i : ℕ) (r : RecordRow), rows[i]? = some r → (placesOf text aggregate rows)[i]? = some k →
        (key.languageCmp text (fieldOf field r)).isLE := by
  obtain ⟨c, keys, nonempty, places⟩ := group_spec hk
  obtain ⟨⟨r, mem, eq⟩, below⟩ := smallestIn_spec text field nonempty
  refine ⟨smallestIn text field (rows.filter (classOf aggregate.fields · = c)), ?_, ?_, ?_⟩
  · rw [keys, List.getElem?_map, hp, Option.map_some]
  · obtain ⟨mem, same⟩ := mem_filter.1 mem
    obtain ⟨i, hi⟩ := List.getElem?_of_mem mem
    exact ⟨i, r, hi, (places i r hi).2 (of_decide_eq_true same), eq⟩
  · intro i r hi here
    refine below r (mem_filter.2 ⟨mem_of_getElem? hi, ?_⟩)
    exact decide_eq_true ((places i r hi).1 here)

/-! ### Permutations of the rows -/

theorem perm_members (perm : rows'.Perm rows) (m : List Meaning) :
    (members aggregate rows' m).Perm (members aggregate rows m) := perm.filter _

/-- The order does not tell apart the smallest values of the same rows in another order. -/
theorem smallestIn_perm (perm : rows'.Perm rows) :
    (smallestIn text field rows').languageCmp text (smallestIn text field rows) = .eq := by
  by_cases empty : rows = []
  · subst empty
    rw [perm_nil.1 perm]
    exact Std.ReflCmp.compare_self
  · have empty' : rows' ≠ [] := fun none => empty (nil_perm.1 (none ▸ perm))
    obtain ⟨⟨r, mem, eq⟩, below⟩ := smallestIn_spec text field empty
    obtain ⟨⟨r', mem', eq'⟩, below'⟩ := smallestIn_spec text field empty'
    refine eq_of_isLE ?_ ?_
    · rw [eq]
      exact below' r (perm.mem_iff.2 mem)
    · rw [eq']
      exact below r' (perm.mem_iff.1 mem')

theorem classOrder_perm (perm : rows'.Perm rows) :
    classOrder text aggregate rows' = classOrder text aggregate rows := by
  funext m m'
  unfold classOrder Group.order classGroup smallestKeys
  rw [(perm_members perm m).length_eq, (perm_members perm m').length_eq,
    lexicographic_congr (fun field _ => smallestIn_perm (perm_members perm m))
      (fun field _ => smallestIn_perm (perm_members perm m'))]

/-- What the smallest values of a class mean. -/
theorem meaning_smallestKeys (text : DebugText) {m : List Meaning}
    (mem : m ∈ rows.map (meaningsOf aggregate.fields)) :
    (smallestKeys text aggregate rows m).map Value.meaning = m := by
  obtain ⟨row, there, rfl⟩ := mem_map.1 mem
  have nonempty : members aggregate rows (meaningsOf aggregate.fields row) ≠ [] := by
    refine ne_nil_of_mem (a := row) (mem_filter.2 ⟨there, ?_⟩)
    exact decide_eq_true rfl
  have expand : meaningsOf aggregate.fields row =
      aggregate.fields.map fun field => (fieldOf field row).meaning := map_map ..
  unfold smallestKeys
  rw [map_map]
  refine Eq.trans (map_inj_left.2 fun field known => ?_) expand.symm
  obtain ⟨⟨r, mem, eq⟩, -⟩ := smallestIn_spec text field nonempty
  have same := of_decide_eq_true (mem_filter.1 mem).2
  rw [Function.comp_apply, eq]
  exact languageEqual_iff.1 (sameKeys_iff_meanings.2 same field known)

/-- Two classes are at one place in the order only if they are one. -/
theorem classOrder_eq {m' : List Meaning} (mem : m ∈ rows.map (meaningsOf aggregate.fields))
    (mem' : m' ∈ rows.map (meaningsOf aggregate.fields))
    (same : classOrder text aggregate rows m m' = .eq) : m = m' := by
  have keys := (Ordering.then_eq_eq.1 same).2
  have meanings := lexicographic_eq (R := fun a b : Value => a.meaning = b.meaning)
    (fun a _ b eq => languageEqual_iff.1 (languageEqual_of_languageCmp eq)) keys
  rw [← meaning_smallestKeys text mem, ← meaning_smallestKeys text mem']
  exact forall₂_eq_eq_eq ▸ forall₂_map_left_iff.2 (forall₂_map_right_iff.2 meanings)

instance : Std.TransCmp (classOrder text aggregate rows) where
  eq_swap := swap_order _ _
  isLE_trans := (chains_order _ _ _).isLE

theorem shownClasses_perm (perm : rows'.Perm rows) :
    shownClasses text aggregate rows' = shownClasses text aggregate rows := by
  unfold shownClasses
  rw [classOrder_perm perm]
  congr 1
  refine mergeSort_eq_of_perm ((perm.map _).dedup) fun m mem m' mem' same => ?_
  have known {m : List Meaning} (mem : m ∈ (rows'.map (meaningsOf aggregate.fields)).dedup) :
      m ∈ rows.map (meaningsOf aggregate.fields) := (perm.map _).mem_iff.1 (mem_dedup.1 mem)
  exact classOrder_eq (known mem) (known mem') same

/-! ### What is shown of the classes -/

/-- What is shown of a group that is counted. -/
def countRecord (aggregate : RecordAggregate) (keys : List Value) (count : ℕ) : Record :=
  match aggregate with
  | .distinct _ => collect (aggregate.fields.zip keys)
  | _ => insert "count" (.unsigned (.ofNat count)) (collect (aggregate.fields.zip keys))

theorem record_eq (counts : aggregate.onlyCounts = true)
    (length : group.keys.length = aggregate.fields.length) :
    group.record aggregate = .ok (countRecord aggregate group.keys group.count) := by
  cases aggregate with
  | countBy field | topBy _ field | distinct field =>
    obtain ⟨value, keys⟩ := length_eq_one_iff.1 length
    unfold Group.record countRecord
    rw [keys]
    rfl
  | group fields function =>
    obtain rfl : function = .count := of_decide_eq_true counts
    rfl

theorem gathered_classes (text : DebugText) (aggregate : RecordAggregate) (rows : List RecordRow) :
    Gathered (classOf aggregate.fields) (Group.start aggregate) (Group.next text aggregate) rows
      (classes text aggregate rows) := gathered rows

/-- A group without its numbers. -/
def Group.strip (group : Group) : Group := { group with numeric := .new }

/-- A class and the group that it makes. -/
theorem strip_eq (nans : NansAgree aggregate.fields rows)
    {entry : (List Meaning × List GroupKey) × Group} (mem : entry ∈ classes text aggregate rows) :
    entry.2.strip = classGroup text aggregate rows entry.1.1 := by
  have all := gathered_classes text aggregate rows
  obtain ⟨r, hr, eq⟩ := (all.mem entry.1).1 (mem_map_of_mem mem)
  have same : rows.filter (classOf aggregate.fields · = entry.1) = members aggregate rows entry.1.1 := by
    refine filter_congr fun s hs => decide_eq_decide.2 ?_
    rw [← eq, classOf_eq_iff, sameKeys_iff_meanings]
    exact and_iff_left_of_imp fun same => nans s hs r hr (sameKeys_iff_meanings.2 same)
  have summary := summary_spec (all.summary entry mem)
  rw [same] at summary
  unfold classGroup smallestKeys
  rw [← summary.1, ← summary.2, Group.strip]

/-- The classes as they were found, and as they are. -/
theorem perm_classes (text : DebugText) (nans : NansAgree aggregate.fields rows) :
    ((classes text aggregate rows).map fun entry => entry.1.1).Perm
      (rows.map (meaningsOf aggregate.fields)).dedup := by
  have all := gathered_classes text aggregate rows
  have known {c : List Meaning × List GroupKey} (mem : c ∈ (classes text aggregate rows).map Prod.fst) :
      ∃ r ∈ rows, classOf aggregate.fields r = c := (all.mem c).1 mem
  have meanings : (classes text aggregate rows).map (fun entry => entry.1.1) =
      ((classes text aggregate rows).map Prod.fst).map Prod.fst := (map_map ..).symm
  rw [meanings]
  refine (perm_ext_iff_of_nodup ?_ (nodup_dedup _)).2 fun m => ?_
  · refine List.Nodup.map_on (fun c hc c' hc' same => ?_) all.nodup
    obtain ⟨r, hr, rfl⟩ := known hc
    obtain ⟨s, hs, rfl⟩ := known hc'
    have keys := sameKeys_iff_meanings.2 same
    exact classOf_eq_iff.2 ⟨keys, nans r hr s hs keys⟩
  · rw [mem_dedup, mem_map, mem_map]
    constructor
    · rintro ⟨c, hc, rfl⟩
      obtain ⟨r, hr, rfl⟩ := known hc
      exact ⟨r, hr, rfl⟩
    · rintro ⟨r, hr, rfl⟩
      exact ⟨classOf aggregate.fields r, (all.mem _).2 ⟨r, hr, rfl⟩, rfl⟩

theorem cutOff_map {α β : Type*} (f : α → β) (limit : Option ℕ) (l : List α) :
    cutOff limit (l.map f) = (cutOff limit l).map f := by
  cases limit with
  | none => rfl
  | some n => exact map_take.symm

/-- The groups in order, but for their numbers, are the classes in order. -/
theorem sorted_groups (text : DebugText) (nans : NansAgree aggregate.fields rows) :
    ((groupsOf text aggregate rows).seen.mergeSort fun left right =>
      (left.order text aggregate right).isLE).map Group.strip =
    ((rows.map (meaningsOf aggregate.fields)).dedup.mergeSort fun m m' =>
      (classOrder text aggregate rows m m').isLE).map (classGroup text aggregate rows) := by
  have stripped : (groupsOf text aggregate rows).seen.map Group.strip =
      ((classes text aggregate rows).map fun entry => entry.1.1).map (classGroup text aggregate rows) := by
    unfold groupsOf
    rw [(holdsClasses rows).seen, map_map, map_map]
    exact map_congr_left fun entry mem => strip_eq nans mem
  have groups : ((groupsOf text aggregate rows).seen.map Group.strip).mergeSort
      (fun left right => (left.order text aggregate right).isLE) =
      ((groupsOf text aggregate rows).seen.mergeSort fun left right =>
        (left.order text aggregate right).isLE).map Group.strip := mergeSort_map fun _ _ _ _ => rfl
  have classes_ : (((classes text aggregate rows).map fun entry => entry.1.1).map
      (classGroup text aggregate rows)).mergeSort (fun left right => (left.order text aggregate right).isLE) =
      (((classes text aggregate rows).map fun entry => entry.1.1).mergeSort fun m m' =>
        (classOrder text aggregate rows m m').isLE).map (classGroup text aggregate rows) :=
    mergeSort_map fun _ _ _ _ => rfl
  have perm := perm_classes text nans
  have known {m : List Meaning} (mem : m ∈ (classes text aggregate rows).map fun entry => entry.1.1) :
      m ∈ rows.map (meaningsOf aggregate.fields) := mem_dedup.1 (perm.mem_iff.1 mem)
  have order : (((classes text aggregate rows).map fun entry => entry.1.1).mergeSort fun m m' =>
      (classOrder text aggregate rows m m').isLE) =
      (rows.map (meaningsOf aggregate.fields)).dedup.mergeSort fun m m' =>
        (classOrder text aggregate rows m m').isLE :=
    mergeSort_eq_of_perm perm fun m mem m' mem' same => classOrder_eq (known mem) (known mem') same
  rw [← order, ← classes_, ← stripped, groups]

/-- **The result, if equal NaNs have equal bits.** -/
theorem records_shown (nans : NansAgree aggregate.fields rows) (counts : aggregate.onlyCounts = true) :
    (groupsOf text aggregate rows).records text aggregate =
      .ok ((shownClasses text aggregate rows).map fun m =>
        countRecord aggregate (smallestKeys text aggregate rows m) (members aggregate rows m).length) := by
  have lengths : ∀ group ∈ (groupsOf text aggregate rows).seen,
      group.keys.length = aggregate.fields.length := by
    intro group mem
    unfold groupsOf at mem
    rw [(holdsClasses rows).seen] at mem
    obtain ⟨entry, there, rfl⟩ := mem_map.1 mem
    exact (holdsClasses rows).length entry there
  rw [records_eq lengths]
  have mem_cutOff {limit : Option ℕ} {group : Group} {groups : List Group}
      (mem : group ∈ cutOff limit groups) : group ∈ groups := by
    cases limit with
    | none => exact mem
    | some n => exact mem_of_mem_take mem
  have each : ∀ group ∈ cutOff aggregate.limit ((groupsOf text aggregate rows).seen.mergeSort
      fun left right => (left.order text aggregate right).isLE),
      group.record aggregate = .ok (countRecord aggregate group.strip.keys group.strip.count) := by
    intro group mem
    exact record_eq counts (lengths group ((mergeSort_perm _ _).mem_iff.1 (mem_cutOff mem)))
  rw [mapM_ok each]
  have sorted := congrArg (cutOff aggregate.limit) (sorted_groups text nans)
  rw [cutOff_map, cutOff_map] at sorted
  have shown := congrArg (List.map fun group => countRecord aggregate group.keys group.count) sorted
  rw [map_map, map_map] at shown
  exact congrArg Except.ok shown

/-! ### When the promise holds -/

theorem lookup_collect (fields : List String) (k : String → Value) (field : String) :
    (collect (fields.zip (fields.map k))).lookup field =
      if field ∈ fields then some (k field) else none := by
  have run (fields : List String) : ∀ record : Record,
      ((fields.zip (fields.map k)).foldl
        (fun record entry => insert entry.1 entry.2 record) record).lookup field =
        if field ∈ fields then some (k field) else record.lookup field := by
    induction fields with
    | nil => exact fun _ => rfl
    | cons f fields ih =>
      intro record
      rw [map_cons, zip_cons_cons, foldl_cons, ih, lookup_insert]
      by_cases there : field ∈ fields
      · rw [if_pos there, if_pos (mem_cons_of_mem _ there)]
      · by_cases same : field = f
        · rw [if_neg there, if_pos same, if_pos (same ▸ mem_cons_self), same]
        · rw [if_neg there, if_neg same, if_neg (by simp [same, there])]
  exact run fields []

theorem ordered_collect (entries : List (String × Value)) : Ordered (collect entries) := by
  have run (entries : List (String × Value)) : ∀ record : Record, Ordered record →
      Ordered (entries.foldl
        (fun record entry => insert entry.1 entry.2 record) record) := by
    induction entries with
    | nil => exact fun _ ordered => ordered
    | cons entry entries ih => exact fun _ ordered => ih _ (ordered.insert _ _)
  exact run entries [] List.Pairwise.nil

theorem lookup_countRecord {k : String → Value} {count : ℕ} {field : String}
    (shown : field ∈ aggregate.shownFields) :
    (countRecord aggregate (aggregate.fields.map k) count).lookup field = some (k field) := by
  cases aggregate with
  | distinct _ => exact (lookup_collect _ k field).trans (if_pos shown)
  | countBy _ | topBy _ _ | group _ _ =>
    obtain ⟨mem, other⟩ := mem_filter.1 shown
    unfold countRecord
    rw [lookup_insert, if_neg (of_decide_eq_true other), lookup_collect, if_pos mem]

theorem countRecord_congr {k k' : String → Value} {count : ℕ}
    (same : ∀ field ∈ aggregate.shownFields, k field = k' field) :
    countRecord aggregate (aggregate.fields.map k) count =
      countRecord aggregate (aggregate.fields.map k') count := by
  cases aggregate with
  | distinct field =>
    have keys : (RecordAggregate.distinct field).fields.map k =
        (RecordAggregate.distinct field).fields.map k' := map_congr_left same
    rw [keys]
  | countBy _ | topBy _ _ | group _ _ =>
    refine Ordered.ext ((ordered_collect _).insert _ _) ((ordered_collect _).insert _ _)
      fun field => ?_
    unfold countRecord
    rw [lookup_insert, lookup_insert, lookup_collect, lookup_collect]
    by_cases count : field = "count"
    · rw [if_pos count, if_pos count]
    · rw [if_neg count, if_neg count]
      split_ifs with mem
      · rw [same field (mem_filter.2 ⟨mem, decide_eq_true count⟩)]
      · rfl

theorem finish_eq_iff {groups groups' : Groups} :
    groups.finish text aggregate = groups'.finish text aggregate ↔
      groups.records text aggregate = groups'.records text aggregate := by
  unfold Groups.finish
  generalize groups.records text aggregate = left
  generalize groups'.records text aggregate = right
  constructor
  · intro same
    cases left with
    | error e =>
      cases right with
      | error e' =>
        cases same
        rfl
      | ok l' => cases same
    | ok l =>
      cases right with
      | error e' => cases same
      | ok l' =>
        have rows := congrArg (List.map fun row : RecordRow => row.record) (Except.ok.inj same)
        rw [map_map, map_map] at rows
        have fst (l : List Record) : l.zipIdx.map Prod.fst = l := zipIdx_map_fst ..
        rw [← fst l, ← fst l']
        exact congrArg Except.ok rows
  · intro same
    rw [same]

theorem nansAgree_perm (perm : rows'.Perm rows) (nans : NansAgree fields rows) :
    NansAgree fields rows' :=
  fun r hr s hs => nans r (perm.mem_iff.1 hr) s (perm.mem_iff.1 hs)

theorem mem_shownClasses (mem : m ∈ shownClasses text aggregate rows) :
    members aggregate rows m ≠ [] := by
  have known : m ∈ rows.map (meaningsOf aggregate.fields) := by
    rw [← mem_dedup, ← (mergeSort_perm _ _).mem_iff]
    unfold shownClasses at mem
    cases limit : aggregate.limit with
    | none =>
      rw [limit] at mem
      exact mem
    | some n =>
      rw [limit] at mem
      exact mem_of_mem_take mem
  obtain ⟨row, there, rfl⟩ := mem_map.1 known
  exact ne_nil_of_mem (mem_filter.2 ⟨there, decide_eq_true rfl⟩)

/-- The smallest value of a class is that of a row that has a smallest one. -/
theorem exists_hasSmallest (nonempty : members aggregate rows m ≠ []) (text : DebugText)
    (field : String) : ∃ r ∈ members aggregate rows m, HasSmallest text aggregate rows field r ∧
      smallestIn text field (members aggregate rows m) = fieldOf field r := by
  obtain ⟨⟨r, mem, eq⟩, below⟩ := smallestIn_spec text field nonempty
  refine ⟨r, mem, fun s hs same => ?_, eq⟩
  rw [← eq]
  have class_ := of_decide_eq_true (mem_filter.1 mem).2
  exact below s (mem_filter.2 ⟨hs, decide_eq_true ((sameKeys_iff_meanings.1 same).symm.trans class_)⟩)

/-- A row that has a smallest value and comes first has the value that is reported. -/
theorem smallestIn_of_first {rest : List RecordRow} (class_ : meaningsOf aggregate.fields r = m)
    (least : HasSmallest text aggregate (r :: rest) field r) :
    smallestIn text field (members aggregate (r :: rest) m) = fieldOf field r := by
  have first : members aggregate (r :: rest) m = r :: members aggregate rest m :=
    filter_cons_of_pos (decide_eq_true class_)
  rw [first]
  refine least_of_first fun value mem => ?_
  obtain ⟨s, hs, rfl⟩ := mem_map.1 mem
  obtain ⟨there, same⟩ := mem_filter.1 hs
  exact least s (mem_cons_of_mem _ there)
    (sameKeys_iff_meanings.2 (class_.trans (of_decide_eq_true same).symm))

theorem hasSmallest_perm (perm : rows'.Perm rows) (least : HasSmallest text aggregate rows field r) :
    HasSmallest text aggregate rows' field r :=
  fun s hs => least s (perm.mem_iff.1 hs)

/-- The result does not depend on the order of the rows. -/
theorem steady_iff (nans : NansAgree aggregate.fields rows) (counts : aggregate.onlyCounts = true) :
    (∀ rows' : List RecordRow, rows'.Perm rows →
      (groupsOf text aggregate rows').finish text aggregate =
        (groupsOf text aggregate rows).finish text aggregate) ↔ SmallestAgree text aggregate rows := by
  simp only [finish_eq_iff]
  constructor
  · intro steady m shown field there r hr s hs least least'
    -- put either row first
    have front (r : RecordRow) (hr : r ∈ members aggregate rows m)
        (least : HasSmallest text aggregate rows field r) : ∃ rest, (r :: rest).Perm rows ∧
          smallestIn text field (members aggregate (r :: rest) m) = fieldOf field r := by
      obtain ⟨mem, class_⟩ := mem_filter.1 hr
      obtain ⟨before, after, rfl⟩ := append_of_mem mem
      have perm : (r :: (before ++ after)).Perm (before ++ r :: after) := perm_middle.symm
      exact ⟨_, perm, smallestIn_of_first (of_decide_eq_true class_) (hasSmallest_perm perm least)⟩
    obtain ⟨rest, perm, first⟩ := front r hr least
    obtain ⟨rest', perm', first'⟩ := front s hs least'
    have same := (steady _ perm).trans (steady _ perm').symm
    rw [records_shown (nansAgree_perm perm nans) counts, records_shown (nansAgree_perm perm' nans) counts,
      shownClasses_perm perm, shownClasses_perm perm', Except.ok.injEq, map_inj_left] at same
    have record := congrArg (List.lookup field) (same m shown)
    unfold smallestKeys at record
    rw [lookup_countRecord there, lookup_countRecord there, Option.some_inj, first, first'] at record
    exact record
  · intro agree rows' perm
    rw [records_shown nans counts, records_shown (nansAgree_perm perm nans) counts, shownClasses_perm perm,
      Except.ok.injEq, map_inj_left]
    intro m shown
    rw [(perm_members perm m).length_eq]
    refine countRecord_congr fun field there => ?_
    have nonempty := mem_shownClasses shown
    have nonempty' : members aggregate rows' m ≠ [] := fun none =>
      nonempty (nil_perm.1 (none ▸ perm_members perm m))
    obtain ⟨r, hr, least, eq⟩ := exists_hasSmallest nonempty text field
    obtain ⟨s, hs, least', eq'⟩ := exists_hasSmallest nonempty' text field
    rw [eq, eq']
    exact agree m shown field there s ((perm_members perm m).mem_iff.1 hs) r hr
      (hasSmallest_perm perm.symm least') least

/-- **Rows are grouped by language equality if and only if equal NaNs have equal bits and the
smallest values that are shown are the same in every representation.** -/
theorem grouped_by_equality_iff (text : DebugText) (aggregate : RecordAggregate) (rows : List RecordRow) :
    GroupedByEquality text aggregate rows ↔
      NansAgree aggregate.fields rows ∧
        (aggregate.onlyCounts = true → SmallestAgree text aggregate rows) := by
  constructor
  · intro grouped
    have nans := classes_iff.1 grouped.classes
    exact ⟨nans, fun counts => (steady_iff nans counts).1 (grouped.steady counts)⟩
  · rintro ⟨nans, agree⟩
    exact
      { classes := classes_iff.2 nans
        counts := counts_eq
        smallest := fun k group hk p field hp => smallest_reported hk hp
        steady := fun counts => (steady_iff nans counts).2 (agree counts) }

/-- A row with one field. -/
def rowOf (id : ℤ) (value : Value) : RecordRow := ⟨⟨"type", [("x", value)]⟩, 0, .single id⟩

/-- Which of some records show a float. -/
def showsFloat (records : Except QueryError (List Record)) : List Bool :=
  (records.toOption.getD []).map fun record => (valueOf record "x") matches .float _

/-- NaNs with different bits are two groups, and of `1` and `1.0` the first is reported. -/
theorem not_grouped_by_equality :
    ¬ GroupedByEquality default (.countBy "x")
        [rowOf 1 (.float ⟨0x7ff8000000000000⟩), rowOf 2 (.float ⟨0x7ff8000000000001⟩)] ∧
      ¬ GroupedByEquality default (.distinct "x") [rowOf 1 (.signed 1), rowOf 2 (.float (.ofInt 1))] := by
  constructor
  · intro grouped
    have places : (placesOf default (.countBy "x")
        [rowOf 1 (.float ⟨0x7ff8000000000000⟩), rowOf 2 (.float ⟨0x7ff8000000000001⟩)]) = [0, 1] := by
      decide +kernel
    have same := (grouped.classes 0 1 _ _ rfl rfl).2 (by
      intro field mem
      rw [mem_singleton.1 mem]
      decide +kernel)
    rw [places] at same
    cases same
  · intro grouped
    have steady := grouped.steady rfl [rowOf 2 (.float (.ofInt 1)), rowOf 1 (.signed 1)] (.swap ..)
    rw [finish_eq_iff] at steady
    have first : showsFloat ((groupsOf default (.distinct "x")
        [rowOf 1 (.signed 1), rowOf 2 (.float (.ofInt 1))]).records default (.distinct "x")) = [false] := by
      decide +kernel
    have second : showsFloat ((groupsOf default (.distinct "x")
        [rowOf 2 (.float (.ofInt 1)), rowOf 1 (.signed 1)]).records default (.distinct "x")) = [true] := by
      decide +kernel
    rw [steady, first] at second
    cases second

end Eventd
