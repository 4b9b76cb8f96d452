import Eventd.Core.MetaStore
import Eventd.Query.Language

/-!
# Adaptive-index accounting and policy

`eventd/src/indexing.rs`: which fields queries ask for is counted over a window of time, and the
fields asked for often enough are the indexes that every shard is to have.  The counters and the
desired indexes are persisted with every run of the policy and read back at the next start.

* `Tracker`, `Tracker.recordFields`, `Tracker.prioritize`, `Tracker.snapshot`;
* `recompute`: one run of the policy;
* `recompute_survives_iff`: the state read back is the one persisted if and only if no field is
  spelled like a column of the events table.
-/

namespace Eventd

open List MetaStore

namespace Indexing

structure PolicyConfig where
  createThreshold : ℕ
  dropThreshold : ℕ

structure Counter where
  count : ℕ
  windowStart : ℕ
  deriving DecidableEq

/-- Begin a new window once the old one is over. -/
def rotate (counter : Counter) (now window : ℕ) : Counter :=
  if window ≤ now - counter.windowStart then ⟨0, now⟩ else counter

/-- The counters by field. -/
structure Tracker where
  counters : List (String × Counter)
  ordered : KeyedList.Ordered counters

/-- The time and the width of the window, in nanoseconds, at one call. -/
structure Moment where
  now : ℕ
  window : ℕ

namespace Tracker

def empty : Tracker := ⟨[], .nil⟩

def insert (tracker : Tracker) (field : String) (counter : Counter) : Tracker :=
  ⟨KeyedList.insert field counter tracker.counters, tracker.ordered.insert field counter⟩

/-- Count a field; time and the whole payload are always at hand. -/
def recordField (moment : Moment) (increment : ℕ) (tracker : Tracker) (field : String) : Tracker :=
  if field = "event.time" ∨ field = "payload" then tracker
  else
    let counter := rotate ((tracker.counters.lookup field).getD ⟨0, moment.now⟩)
      moment.now moment.window
    tracker.insert field { counter with count := min (counter.count + increment) u64Max }

def recordFields (tracker : Tracker) (moment : Moment) (fields : List String) (increment : ℕ) :
    Tracker := fields.foldl (recordField moment increment) tracker

/-- What `INDEX` asks for is wanted at once. -/
def prioritize (tracker : Tracker) (moment : Moment) (config : PolicyConfig) (field : String) :
    Tracker := tracker.recordFields moment [field] config.createThreshold

/-- The counters as they are persisted. -/
def snapshot (tracker : Tracker) (moment : Moment) : List IndexCounter :=
  tracker.counters.map fun entry =>
    let counter := rotate entry.2 moment.now moment.window
    ⟨entry.1, counter.count, counter.windowStart⟩

end Tracker

/-- Whether a field is asked for often enough.  A field that has its index keeps it for longer. -/
def wants (config : PolicyConfig) (existing : List DesiredIndex) (counter : IndexCounter) : Bool :=
  if counter.fieldPath ∈ existing.map DesiredIndex.fieldPath then
    config.dropThreshold ≤ counter.queryCount
  else config.createThreshold ≤ counter.queryCount

/-- The most wanted field comes first. -/
def moreWanted (left right : IndexCounter) : Prop :=
  right.queryCount < left.queryCount ∨
    right.queryCount = left.queryCount ∧ left.fieldPath ≤ right.fieldPath

instance : DecidableRel moreWanted := fun _ _ => inferInstanceAs (Decidable (_ ∨ _ ∧ _))

/-- The index over a field. -/
def desiredIndex (entry : IndexCounter × ℕ) : DesiredIndex :=
  ⟨entry.1.fieldPath, entry.2, (headerColumn entry.1.fieldPath).isNone⟩

/-- The indexes that follow from the counters. -/
def indexesOf (config : PolicyConfig) (existing : List DesiredIndex)
    (counters : List IndexCounter) : List DesiredIndex :=
  ((counters.filter (wants config existing)).insertionSort moreWanted).zipIdx.map desiredIndex

/-- One run of the policy: what is persisted, and the desired indexes that are broadcast. -/
def recompute (tracker : Tracker) (moment : Moment) (config : PolicyConfig)
    (existing : List DesiredIndex) : Except MetaStoreError (IndexTables × List DesiredIndex) := do
  let counters := tracker.snapshot moment
  let indexes := indexesOf config existing counters
  let tables ← writeIndexState counters indexes
  return (tables, indexes)

/-! ### The counters -/

theorem nodup_snapshot (tracker : Tracker) (moment : Moment) :
    ((tracker.snapshot moment).map IndexCounter.fieldPath).Nodup := by
  rw [Tracker.snapshot, map_map]
  exact pairwise_map.2 (tracker.ordered.imp ne_of_lt)

theorem forall_mem_snapshot {tracker : Tracker} {moment : Moment} {p : String → Prop} :
    (∀ counter ∈ tracker.snapshot moment, p counter.fieldPath) ↔
      ∀ entry ∈ tracker.counters, p entry.1 :=
  forall_mem_map

/-! ### The indexes -/

section IndexesOf

variable {config : PolicyConfig} {existing : List DesiredIndex} {counters : List IndexCounter}

/-- The priorities are the positions. -/
theorem pairwise_priority_indexesOf :
    (indexesOf config existing counters).Pairwise fun a b => a.priority < b.priority := by
  rw [indexesOf, pairwise_map]
  refine pairwise_iff_getElem.2 fun i j hi hj less => ?_
  simpa [desiredIndex] using less

theorem priority_lt_of_mem {index : DesiredIndex} (mem : index ∈ indexesOf config existing counters) :
    index.priority < counters.length := by
  obtain ⟨entry, here, rfl⟩ := mem_map.1 mem
  have below := snd_lt_of_mem_zipIdx here
  rw [length_insertionSort, Nat.add_zero] at below
  exact below.trans_le (length_filter_le _ _)

/-- The fields of the indexes are fields that are counted, each once. -/
theorem fieldPath_indexesOf :
    ((indexesOf config existing counters).map DesiredIndex.fieldPath).Subperm
      (counters.map IndexCounter.fieldPath) := by
  have fields : (indexesOf config existing counters).map DesiredIndex.fieldPath =
      ((counters.filter (wants config existing)).insertionSort moreWanted).map
        IndexCounter.fieldPath := by
    rw [indexesOf, map_map, ← zipIdx_map_fst 0 (List.insertionSort _ _), map_map]
    simp [desiredIndex, Function.comp_def]
  rw [fields]
  exact ((perm_insertionSort _ _).map _).subperm.trans
    (filter_sublist.map _).subperm

end IndexesOf

/-! ### A restart -/

/-- **The state of adaptive indexing survives a restart if and only if no field that was counted
has the name of a column.**  That the counters fit a database integer, and that there are not
more of them than a vector holds, is assumed. -/
theorem recompute_survives_iff (tracker : Tracker) (moment : Moment) (config : PolicyConfig)
    (existing : List DesiredIndex)
    (fits : ∀ counter ∈ tracker.snapshot moment,
      counter.queryCount ≤ i64Max ∧ counter.windowStart ≤ i64Max)
    (few : tracker.counters.length ≤ i64Max) :
    ∃ tables indexes, recompute tracker moment config existing = .ok (tables, indexes) ∧
      (((∀ counter, counter ∈ (loadIndexState tables).1 ↔ counter ∈ tracker.snapshot moment) ∧
          ((loadIndexState tables).1.map IndexCounter.fieldPath).Nodup ∧
          (loadIndexState tables).2 = indexes) ↔
        ∀ entry ∈ tracker.counters, legacyHeaderPath entry.1 = none) := by
  set counters := tracker.snapshot moment with counters_eq
  set indexes := indexesOf config existing counters with indexes_eq
  have distinct : (counters.map IndexCounter.fieldPath).Nodup := nodup_snapshot tracker moment
  obtain ⟨kept, perm, sub⟩ : (indexes.map DesiredIndex.fieldPath).Subperm _ := fieldPath_indexesOf
  have length : counters.length = tracker.counters.length := length_map _
  have written : writeIndexState counters indexes = .ok ⟨counters, indexes⟩ := by
    refine writeIndexState_eq_ok distinct fits (perm.nodup_iff.1 (distinct.sublist sub))
      fun index mem => ?_
    have below := priority_lt_of_mem mem
    omega
  refine ⟨⟨counters, indexes⟩, indexes, ?_, ?_⟩
  · rw [recompute, ← counters_eq, ← indexes_eq, written]
    rfl
  rw [← forall_mem_snapshot (p := fun path => legacyHeaderPath path = none), ← counters_eq]
  constructor
  · rintro ⟨same, -, -⟩
    exact (load_counters_iff ⟨counters, indexes⟩).1 same
  · intro names
    refine ⟨(load_counters_iff ⟨counters, indexes⟩).2 names, ?_, ?_⟩
    · rwa [show (loadIndexState ⟨counters, indexes⟩).1 = counters from load_counters names]
    · refine load_desired pairwise_priority_indexesOf fun index mem => ?_
      obtain ⟨counter, counted, eq⟩ := mem_map.1
        (sub.subset (perm.mem_iff.2 (mem_map_of_mem mem)))
      rw [← eq]
      exact names counter counted

/-- An administrator asks for indexes on the payload field `sequence` and on the header field
`event.sequence`.  Read back, both are the header field: the counters have it twice, and the
payload index is one over a header column that is marked as an expression. -/
theorem recompute_lost_sequence :
    let moment : Moment := ⟨0, 1⟩
    let config : PolicyConfig := ⟨100, 10⟩
    let tracker := (Tracker.empty.prioritize moment config "sequence").prioritize moment config
      "event.sequence"
    ∃ tables, recompute tracker moment config [] =
        .ok (tables, [⟨"event.sequence", 0, false⟩, ⟨"sequence", 1, true⟩]) ∧
      loadIndexState tables =
        ([⟨"event.sequence", 100, 0⟩, ⟨"event.sequence", 100, 0⟩],
          [⟨"event.sequence", 0, false⟩, ⟨"event.sequence", 1, true⟩]) := by
  refine ⟨⟨[⟨"event.sequence", 100, 0⟩, ⟨"sequence", 100, 0⟩],
    [⟨"event.sequence", 0, false⟩, ⟨"sequence", 1, true⟩]⟩, ?_, ?_⟩
  all_goals decide +kernel

/-- After a query over a payload field with a name of its own. -/
def counted : Tracker :=
  Tracker.empty.prioritize ⟨0, 1⟩ ⟨100, 10⟩ "subject"

theorem recompute_survives_iff_counted :
    ∃ tables indexes, recompute counted ⟨0, 1⟩ ⟨100, 10⟩ [] = .ok (tables, indexes) ∧
      (((∀ counter, counter ∈ (loadIndexState tables).1 ↔ counter ∈ counted.snapshot ⟨0, 1⟩) ∧
          ((loadIndexState tables).1.map IndexCounter.fieldPath).Nodup ∧
          (loadIndexState tables).2 = indexes) ↔
        ∀ entry ∈ counted.counters, legacyHeaderPath entry.1 = none) :=
  recompute_survives_iff counted ⟨0, 1⟩ ⟨100, 10⟩ [] (by decide +kernel) (by decide +kernel)

end Indexing

end Eventd
