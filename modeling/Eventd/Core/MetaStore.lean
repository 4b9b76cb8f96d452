import Mathlib.Data.List.Sort
import Eventd.Lib.Fallible
import Eventd.Core.FieldPath

/-!
# The metadata store

`eventd-core/src/meta_store.rs`, as far as it keeps the state of adaptive indexing: how often the
fields of queries were asked for, and the indexes that follow from it.  The state is replaced as a
whole.  When it is read back, a name that an earlier eventd used for a header field is replaced by
the path of that field.

* `writeIndexState`, `loadIndexState`, `currentFieldPath`;
* `load_counters_iff`, `load_desired`: when the state read back is the one that was written.
-/

namespace Eventd

open List Fallible

/-- One persisted adaptive-index frequency counter. -/
structure IndexCounter where
  fieldPath : String
  queryCount : ℕ
  windowStart : ℕ
  deriving DecidableEq

/-- One member of the desired set of secondary indexes. -/
structure DesiredIndex where
  fieldPath : String
  /-- Lower values are converged first and shed last. -/
  priority : ℕ
  /-- Whether this is a payload expression and not a header column. -/
  isExpression : Bool
  deriving DecidableEq

inductive MetaStoreError
  | integerRange
  /-- The primary key is taken. -/
  | constraint
  deriving DecidableEq

/-- The two tables of adaptive indexing.  The order of the rows means nothing. -/
structure IndexTables where
  indexCounters : List IndexCounter
  desiredIndexes : List DesiredIndex
  deriving DecidableEq

namespace MetaStore

def sqliteInteger (value : ℕ) : Except MetaStoreError Unit :=
  if value ≤ i64Max then .ok () else .error .integerRange

/-- Insert a row with this key. -/
def insertRow {α : Type} (key : α → String) (rows : List α) (row : α) :
    Except MetaStoreError (List α) :=
  if key row ∈ rows.map key then .error .constraint else .ok (rows ++ [row])

def insertCounter (rows : List IndexCounter) (counter : IndexCounter) :
    Except MetaStoreError (List IndexCounter) := do
  sqliteInteger counter.queryCount
  sqliteInteger counter.windowStart
  insertRow IndexCounter.fieldPath rows counter

def insertDesired (rows : List DesiredIndex) (index : DesiredIndex) :
    Except MetaStoreError (List DesiredIndex) := do
  sqliteInteger index.priority
  insertRow DesiredIndex.fieldPath rows index

/-- Replace the counters and the desired set.  Both tables are emptied first. -/
def writeIndexState (counters : List IndexCounter) (desired : List DesiredIndex) :
    Except MetaStoreError IndexTables := do
  let indexCounters ← counters.foldlM insertCounter []
  let desiredIndexes ← desired.foldlM insertDesired []
  return ⟨indexCounters, desiredIndexes⟩

def currentFieldPath (stored : String) : String := (legacyHeaderPath stored).getD stored

/-- `ORDER BY priority, field_path`. -/
def inOrder (a b : DesiredIndex) : Prop :=
  a.priority < b.priority ∨ a.priority = b.priority ∧ a.fieldPath ≤ b.fieldPath

instance : DecidableRel inOrder := fun _ _ => inferInstanceAs (Decidable (_ ∨ _ ∧ _))

/-- Load the state of adaptive indexing at startup. -/
def loadIndexState (tables : IndexTables) : List IndexCounter × List DesiredIndex :=
  (tables.indexCounters.map fun counter =>
      { counter with fieldPath := currentFieldPath counter.fieldPath },
    (tables.desiredIndexes.insertionSort inOrder).map fun index =>
      { index with fieldPath := currentFieldPath index.fieldPath })

/-! ### What is stored -/

/-- Rows with distinct keys that fit are all inserted. -/
theorem foldlM_insert {α : Type} {key : α → String}
    {insert : List α → α → Except MetaStoreError (List α)} {rows done : List α}
    (fits : ∀ row ∈ rows, ∀ before, insert before row = insertRow key before row)
    (distinct : ((done ++ rows).map key).Nodup) : rows.foldlM insert done = .ok (done ++ rows) := by
  induction rows generalizing done with
  | nil => rw [append_nil]; rfl
  | cons row rows ih =>
    have fresh : key row ∉ done.map key := by
      rw [map_append, map_cons] at distinct
      exact fun taken => (nodup_append.1 distinct).2.2 _ taken _ mem_cons_self rfl
    rw [foldlM_cons, fits row mem_cons_self, insertRow, if_neg fresh]
    refine (ih (fun other mem => fits other (mem_cons_of_mem _ mem)) ?_).trans ?_
    · simpa using distinct
    · simp

/-- The state is stored if no field comes twice and all numbers fit. -/
theorem writeIndexState_eq_ok {counters : List IndexCounter} {desired : List DesiredIndex}
    (distinct : (counters.map IndexCounter.fieldPath).Nodup)
    (fits : ∀ counter ∈ counters, counter.queryCount ≤ i64Max ∧ counter.windowStart ≤ i64Max)
    (distinctDesired : (desired.map DesiredIndex.fieldPath).Nodup)
    (fitsDesired : ∀ index ∈ desired, index.priority ≤ i64Max) :
    writeIndexState counters desired = .ok ⟨counters, desired⟩ := by
  have first : counters.foldlM insertCounter [] = .ok ([] ++ counters) :=
    foldlM_insert (fun counter mem before => by
      rw [insertCounter, sqliteInteger, if_pos (fits counter mem).1, sqliteInteger,
        if_pos (fits counter mem).2]
      rfl) distinct
  have second : desired.foldlM insertDesired [] = .ok ([] ++ desired) :=
    foldlM_insert (fun index mem before => by
      rw [insertDesired, sqliteInteger, if_pos (fitsDesired index mem)]
      rfl) distinctDesired
  rw [writeIndexState, first, second]
  rfl

/-! ### What is read back -/

theorem currentFieldPath_eq_self {stored : String} (name : legacyHeaderPath stored = none) :
    currentFieldPath stored = stored := by rw [currentFieldPath, name, Option.getD_none]

/-- Nothing is read back under the name of a column. -/
theorem legacyHeaderPath_currentFieldPath (stored : String) :
    legacyHeaderPath (currentFieldPath stored) = none := by
  rw [currentFieldPath]
  cases eq : legacyHeaderPath stored with
  | none => exact eq
  | some path => exact legacyHeaderPath_of_some eq

theorem load_counters {tables : IndexTables}
    (names : ∀ counter ∈ tables.indexCounters, legacyHeaderPath counter.fieldPath = none) :
    (loadIndexState tables).1 = tables.indexCounters := by
  refine (map_congr_left fun counter mem => ?_).trans (map_id _)
  rw [currentFieldPath_eq_self (names counter mem), id]

/-- The counters are read back as they were written if and only if none has the name of a
column. -/
theorem load_counters_iff (tables : IndexTables) :
    (∀ counter, counter ∈ (loadIndexState tables).1 ↔ counter ∈ tables.indexCounters) ↔
      ∀ counter ∈ tables.indexCounters, legacyHeaderPath counter.fieldPath = none := by
  constructor
  · intro same counter mem
    obtain ⟨stored, -, rfl⟩ := mem_map.1 ((same counter).2 mem)
    exact legacyHeaderPath_currentFieldPath stored.fieldPath
  · intro names counter
    rw [load_counters names]

/-- A desired set in the order of its priorities, without the name of a column in it, is read
back as it was written. -/
theorem load_desired {tables : IndexTables}
    (ordered : tables.desiredIndexes.Pairwise fun a b => a.priority < b.priority)
    (names : ∀ index ∈ tables.desiredIndexes, legacyHeaderPath index.fieldPath = none) :
    (loadIndexState tables).2 = tables.desiredIndexes := by
  have sorted : tables.desiredIndexes.insertionSort inOrder = tables.desiredIndexes :=
    (ordered.imp Or.inl).insertionSort_eq
  rw [loadIndexState, sorted]
  refine (map_congr_left fun index mem => ?_).trans (map_id _)
  rw [currentFieldPath_eq_self (names index mem), id]

end MetaStore

end Eventd
