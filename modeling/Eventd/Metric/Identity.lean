import Eventd.Metric.Store

/-!
# What a commit does to the tables

A series is identified by its name, labels and boundaries.  The store finds it through the hashes of
labels and boundaries, and through the cache of series resolved before.  Neither shows in the tables:
`MetricTables.commit` says what a batch does to them without hashes and without a cache, and
`MetricStore.commit` does just that from every cache that is coherent.

* `MetricTables`, `MetricTables.find`, `MetricTables.commit`: the tables, series by their keys;
* `MetricTables.admitted`, `MetricTables.mismatches`: the records of a batch whose type agrees, and
  the disagreements;
* `MetricTables.WellKept`, `MetricStore.Coherent`: what the operations keep;
* `Coherent.commit`: a commit follows `MetricTables.commit`.
-/

namespace Eventd

open List

/-- What identifies a row of `series`. -/
def SeriesRow.key (row : SeriesRow) : SeriesKey := ⟨row.name, row.labels, row.boundaries⟩

/-- The row that a record inserts. -/
def seriesRow (record : MetricRecord) : SeriesRow where
  name := record.name
  labels := record.labels
  metricType := record.metricType
  labelHash := hashForSql (seriesKey record).labels.toUTF8.toList
  boundariesHash := (seriesKey record).boundaries.map hashForSql
  boundaries := (seriesKey record).boundaries

/-- A key and what is known of its series are those of a row. -/
def Names (series : RowTable SeriesRow) (entry : SeriesKey × SeriesInfo) : Prop :=
  ∃ row ∈ series.rows, row.1 = entry.2.id ∧ row.2.key = entry.1 ∧ row.2.metricType = entry.2.metricType

theorem Names.insert {series : RowTable SeriesRow} {entry : SeriesKey × SeriesInfo}
    (names : Names series entry) (row : SeriesRow) : Names (series.insert row) entry := by
  obtain ⟨old, mem, is⟩ := names
  exact ⟨old, mem_append_left _ mem, is⟩

/-! ### The tables -/

structure MetricTables where
  series : RowTable SeriesRow
  samples : RowTable Sample
  rollups : List MetricRollup

def MetricStore.tables (store : MetricStore) : MetricTables :=
  ⟨store.series, store.samples, store.rollups⟩

namespace MetricTables

variable {tables : MetricTables} {record : MetricRecord}

/-- The series with a key. -/
def find (tables : MetricTables) (key : SeriesKey) : Option SeriesInfo :=
  (tables.series.rows.find? fun row => decide (row.2.key = key)).map fun row => ⟨row.1, row.2.metricType⟩

/-- A record that disagrees with the type of its series. -/
def conflict (tables : MetricTables) (record : MetricRecord) : Option MetricTypeMismatch :=
  match tables.find (seriesKey record) with
  | some info =>
    if info.metricType = record.metricType then none
    else some ⟨record.name, info.metricType, record.metricType⟩
  | none => none

/-- A record is stored, and its series if it is new. -/
def put (tables : MetricTables) (record : MetricRecord) : MetricTables :=
  match tables.find (seriesKey record) with
  | some info => { tables with samples := tables.samples.insert (MetricStore.sampleOf record info.id) }
  | none =>
    { tables with
      series := tables.series.insert (seriesRow record)
      samples := tables.samples.insert (MetricStore.sampleOf record (tables.series.maxId + 1)) }

theorem put_found {info : SeriesInfo} (found : tables.find (seriesKey record) = some info) :
    tables.put record = ⟨tables.series,
      tables.samples.insert (MetricStore.sampleOf record info.id), tables.rollups⟩ := by
  rw [put, found]

theorem put_new (new : tables.find (seriesKey record) = none) :
    tables.put record = ⟨tables.series.insert (seriesRow record),
      tables.samples.insert (MetricStore.sampleOf record (tables.series.maxId + 1)),
      tables.rollups⟩ := by
  rw [put, new]

/-- One record of a batch. -/
def next (done : MetricTables × MetricCommitStats) (record : MetricRecord) :
    MetricTables × MetricCommitStats :=
  match done.1.conflict record with
  | some mismatch => (done.1, done.2.refuse mismatch)
  | none => (done.1.put record, done.2.accept)

/-- A batch. -/
def commit (tables : MetricTables) (records : List MetricRecord) : MetricTables × MetricCommitStats :=
  records.foldl next (tables, .zero)

/-- The records of a batch that do not disagree. -/
def admitted (tables : MetricTables) : List MetricRecord → List MetricRecord
  | [] => []
  | record :: rest =>
    match tables.conflict record with
    | some _ => admitted tables rest
    | none => record :: admitted (tables.put record) rest

/-- The disagreements of a batch. -/
def mismatches (tables : MetricTables) : List MetricRecord → List MetricTypeMismatch
  | [] => []
  | record :: rest =>
    match tables.conflict record with
    | some mismatch => mismatch :: mismatches tables rest
    | none => mismatches (tables.put record) rest

section Record

variable {rest : List MetricRecord} {stats : MetricCommitStats} {mismatch : MetricTypeMismatch}

theorem next_conflict (conflict : tables.conflict record = some mismatch) :
    next (tables, stats) record = (tables, stats.refuse mismatch) := by
  rw [next, conflict]

theorem next_agrees (agrees : tables.conflict record = none) :
    next (tables, stats) record = (tables.put record, stats.accept) := by
  rw [next, agrees]

theorem admitted_conflict (conflict : tables.conflict record = some mismatch) :
    tables.admitted (record :: rest) = tables.admitted rest := by
  rw [admitted, conflict]

theorem admitted_agrees (agrees : tables.conflict record = none) :
    tables.admitted (record :: rest) = record :: (tables.put record).admitted rest := by
  rw [admitted, agrees]

theorem mismatches_conflict (conflict : tables.conflict record = some mismatch) :
    tables.mismatches (record :: rest) = mismatch :: tables.mismatches rest := by
  rw [mismatches, conflict]

theorem mismatches_agrees (agrees : tables.conflict record = none) :
    tables.mismatches (record :: rest) = (tables.put record).mismatches rest := by
  rw [mismatches, agrees]

end Record

section

variable (tables : MetricTables) (records : List MetricRecord)

theorem length_admitted :
    (tables.admitted records).length + (tables.mismatches records).length = records.length := by
  induction records generalizing tables with
  | nil => rfl
  | cons record rest ih =>
    cases conflict : tables.conflict record with
    | some mismatch =>
      have := ih tables
      rw [admitted_conflict conflict, mismatches_conflict conflict, length_cons, length_cons]
      omega
    | none =>
      have := ih (tables.put record)
      rw [admitted_agrees conflict, mismatches_agrees conflict, length_cons, length_cons]
      omega

theorem stats_foldl (stats : MetricCommitStats) :
    (records.foldl next (tables, stats)).2 =
      ⟨stats.accepted + (tables.admitted records).length,
        stats.typeMismatches + (tables.mismatches records).length,
        (tables.mismatches records).getLast?.or stats.lastTypeMismatch⟩ := by
  induction records generalizing tables stats with
  | nil => rfl
  | cons record rest ih =>
    rw [foldl_cons]
    cases conflict : tables.conflict record with
    | some mismatch =>
      rw [next_conflict conflict, admitted_conflict conflict, mismatches_conflict conflict, ih,
        length_cons, List.getLast?_cons, Nat.add_comm _ 1, ← Nat.add_assoc]
      cases (tables.mismatches rest).getLast? <;> rfl
    | none =>
      rw [next_agrees conflict, admitted_agrees conflict, mismatches_agrees conflict, ih,
        length_cons, Nat.add_comm _ 1, ← Nat.add_assoc]
      rfl

/-- The records that disagree leave no trace in the tables. -/
theorem tables_foldl_admitted (stats stats' : MetricCommitStats) :
    ((tables.admitted records).foldl next (tables, stats')).1 =
      (records.foldl next (tables, stats)).1 := by
  induction records generalizing tables stats stats' with
  | nil => rfl
  | cons record rest ih =>
    cases conflict : tables.conflict record with
    | some mismatch =>
      rw [admitted_conflict conflict, foldl_cons, next_conflict conflict]
      exact ih tables _ _
    | none =>
      rw [admitted_agrees conflict, foldl_cons, foldl_cons, next_agrees conflict,
        next_agrees conflict]
      exact ih _ _ _

/-- Among the records that agree there is no disagreement. -/
theorem admitted_admitted :
    tables.admitted (tables.admitted records) = tables.admitted records := by
  induction records generalizing tables with
  | nil => rfl
  | cons record rest ih =>
    cases conflict : tables.conflict record with
    | some mismatch =>
      rw [admitted_conflict conflict]
      exact ih tables
    | none => rw [admitted_agrees conflict, admitted_agrees conflict, ih]

theorem mismatches_admitted :
    tables.mismatches (tables.admitted records) = [] := by
  have length := tables.length_admitted (tables.admitted records)
  rw [admitted_admitted] at length
  exact length_eq_zero_iff.1 (by omega)

theorem stats_commit :
    (tables.commit records).2 = ⟨(tables.admitted records).length, (tables.mismatches records).length,
      (tables.mismatches records).getLast?⟩ := by
  refine (tables.stats_foldl records .zero).trans ?_
  simp [MetricCommitStats.zero]

end

/-! ### What the tables keep -/

/-- Series are found by their hashes and have one key each; every series has samples, and every
sample a series of its kind. -/
structure WellKept (tables : MetricTables) : Prop where
  hashed : ∀ row ∈ tables.series.rows, row.2.labelHash = hashForSql row.2.labels.toUTF8.toList ∧
    row.2.boundariesHash = row.2.boundaries.map hashForSql
  unique : ∀ a ∈ tables.series.rows, ∀ b ∈ tables.series.rows, a.2.key = b.2.key → a = b
  inhabited : ∀ row ∈ tables.series.rows, ∃ sample ∈ tables.samples.rows, sample.2.seriesId = row.1
  referenced : ∀ sample ∈ tables.samples.rows, ∃ row ∈ tables.series.rows,
    row.1 = sample.2.seriesId ∧ sample.2.histogramData.isSome = row.2.boundaries.isSome

theorem find_of_names (kept : tables.WellKept) {key : SeriesKey} {info : SeriesInfo}
    (names : Names tables.series (key, info)) : tables.find key = some info := by
  obtain ⟨row, mem, id, is, type⟩ := names
  unfold find
  cases found : tables.series.rows.find? fun row => decide (row.2.key = key) with
  | none => exact absurd is (by simpa using List.find?_eq_none.1 found row mem)
  | some other =>
    have same : other.2.key = key := by simpa using List.find?_some found
    have : other = row := kept.unique _ (mem_of_find?_eq_some found) _ mem (same.trans is.symm)
    rw [this, Option.map_some, id, type]

theorem names_of_find {key : SeriesKey} {info : SeriesInfo} (found : tables.find key = some info) :
    Names tables.series (key, info) := by
  obtain ⟨row, is, rfl⟩ := Option.map_eq_some_iff.1 found
  exact ⟨row, mem_of_find?_eq_some is, rfl, by simpa using List.find?_some is, rfl⟩

theorem ne_of_find_none {key : SeriesKey} (new : tables.find key = none) {row : ℕ × SeriesRow}
    (mem : row ∈ tables.series.rows) : row.2.key ≠ key := by
  have := List.find?_eq_none.1 (Option.map_eq_none_iff.1 new) row mem
  simpa using this

theorem isSome_sampleOf (record : MetricRecord) (id : ℕ) :
    (MetricStore.sampleOf record id).histogramData.isSome = (seriesKey record).boundaries.isSome := by
  unfold MetricStore.sampleOf seriesKey
  cases record.value <;> rfl

theorem WellKept.put (kept : tables.WellKept) (record : MetricRecord) :
    (tables.put record).WellKept := by
  cases found : tables.find (seriesKey record) with
  | some info =>
    rw [put_found found]
    obtain ⟨row, mem, id, is, -⟩ := names_of_find found
    refine ⟨kept.hashed, kept.unique, fun row mem => ?_, fun sample mem' => ?_⟩
    · obtain ⟨sample, mem, is⟩ := kept.inhabited row mem
      exact ⟨sample, mem_append_left _ mem, is⟩
    · rcases mem_append.1 mem' with old | new
      · exact kept.referenced sample old
      · rw [mem_singleton.1 new]
        refine ⟨row, mem, id, (isSome_sampleOf record info.id).trans ?_⟩
        rw [← show row.2.key = seriesKey record from is]
        rfl
  | none =>
    rw [put_new found]
    have apart {row : ℕ × SeriesRow} (mem : row ∈ tables.series.rows) := ne_of_find_none found mem
    refine ⟨fun row mem => ?_, fun a ha b hb same => ?_, fun row mem => ?_, fun sample mem => ?_⟩
    · rcases mem_append.1 mem with old | new
      · exact kept.hashed row old
      · rw [mem_singleton.1 new]
        exact ⟨rfl, rfl⟩
    · rcases mem_append.1 ha with ha | ha <;> rcases mem_append.1 hb with hb | hb
      · exact kept.unique a ha b hb same
      · rw [mem_singleton.1 hb] at same
        exact absurd same (apart ha)
      · rw [mem_singleton.1 ha] at same
        exact absurd same.symm (apart hb)
      · rw [mem_singleton.1 ha, mem_singleton.1 hb]
    · rcases mem_append.1 mem with old | new
      · obtain ⟨sample, mem, is⟩ := kept.inhabited row old
        exact ⟨sample, mem_append_left _ mem, is⟩
      · rw [mem_singleton.1 new]
        exact ⟨_, mem_append_right _ (mem_singleton_self _), rfl⟩
    · rcases mem_append.1 mem with old | new
      · obtain ⟨row, mem, is⟩ := kept.referenced sample old
        exact ⟨row, mem_append_left _ mem, is⟩
      · rw [mem_singleton.1 new]
        exact ⟨_, mem_append_right _ (mem_singleton_self _), rfl, isSome_sampleOf record _⟩

end MetricTables

/-! ### The store and its cache -/

namespace MetricStore

variable {store : MetricStore}

/-- Whatever the hashes of other rows are, a row is found by its key alone. -/
theorem resolve_eq (kept : store.tables.WellKept) (key : SeriesKey) :
    store.resolve key = store.tables.find key := by
  unfold resolve MetricTables.find
  rw [List.find?_filter]
  refine congrArg _ (List.find?_congr fun row mem => ?_)
  obtain ⟨labelHash, boundariesHash⟩ := kept.hashed row mem
  rw [SeriesRow.candidate, labelHash, boundariesHash, Bool.eq_iff_iff]
  simp only [Bool.and_eq_true, decide_eq_true_iff]
  constructor
  · rintro ⟨⟨⟨name, -⟩, -⟩, labels, boundaries⟩
    obtain ⟨name', labels', boundaries'⟩ := key
    exact SeriesKey.mk.injEq .. ▸ ⟨name, labels, boundaries⟩
  · rintro rfl
    exact ⟨⟨⟨rfl, rfl⟩, rfl⟩, rfl, rfl⟩

/-- The tables are well kept, and the cache names rows of `series`. -/
structure Coherent (store : MetricStore) : Prop where
  kept : store.tables.WellKept
  cached : ∀ entry ∈ store.cache, Names store.series entry

/-- A batch whose resolved series are rows of `series` as well. -/
structure Batch.Coherent (batch : Batch) : Prop where
  store : batch.store.Coherent
  resolved : ∀ entry ∈ batch.pending, Names batch.store.series entry

variable {cache : List (SeriesKey × SeriesInfo)}

theorem mem_of_lookup {key : SeriesKey} {info : SeriesInfo} (found : cache.lookup key = some info) :
    (key, info) ∈ cache := by
  induction cache with
  | nil => cases found
  | cons entry rest ih =>
    obtain ⟨key', info'⟩ := entry
    rw [lookup_cons] at found
    by_cases same : key = key'
    · subst same
      simp only [beq_self_eq_true] at found
      rw [Option.some.inj found]
      exact mem_cons_self
    · rw [beq_false_of_ne same] at found
      exact mem_cons_of_mem _ (ih found)

theorem mem_toBack {cache' : List (SeriesKey × SeriesInfo)} {key : SeriesKey} {info : SeriesInfo}
    (hit : toBack cache key = some (info, cache')) :
    (key, info) ∈ cache ∧ ∀ entry ∈ cache', entry ∈ cache := by
  obtain ⟨info', found, is⟩ := Option.map_eq_some_iff.1 hit
  cases is
  have mem := mem_of_lookup found
  refine ⟨mem, fun entry mem' => ?_⟩
  rcases mem_append.1 mem' with old | new
  · exact (mem_filter.1 old).1
  · exact mem_singleton.1 new ▸ mem

theorem mem_remember {capacity : ℕ} {entry other : SeriesKey × SeriesInfo}
    (mem : other ∈ remember capacity cache entry) :
    other ∈ cache ∨ other = entry := by
  rcases mem_append.1 (mem_of_mem_drop mem) with old | new
  · exact .inl (mem_filter.1 old).1
  · exact .inr (mem_singleton.1 new)

theorem mem_foldl_remember {capacity : ℕ} {entry : SeriesKey × SeriesInfo}
    (pending : List (SeriesKey × SeriesInfo))
    (mem : entry ∈ pending.foldl (remember capacity) cache) : entry ∈ cache ∨ entry ∈ pending := by
  induction pending generalizing cache with
  | nil => exact .inl mem
  | cons first rest ih =>
    rcases ih mem with old | new
    · rcases mem_remember old with old | rfl
      · exact .inl old
      · exact .inr mem_cons_self
    · exact .inr (mem_cons_of_mem _ new)

namespace Batch.Coherent

variable {batch : Batch} {record : MetricRecord} {info : SeriesInfo}

/-- A series that is in the tables is found, wherever it is looked up. -/
theorem infoOf_found (h : batch.Coherent)
    (found : batch.store.tables.find (seriesKey record) = some info) :
    ∃ cache pending, batch.infoOf record (seriesKey record) =
        ({ batch with store := { batch.store with cache := cache }, pending := pending }, info) ∧
      (∀ entry ∈ cache, Names batch.store.series entry) ∧
      ∀ entry ∈ pending, Names batch.store.series entry := by
  have same {info' : SeriesInfo} (names : Names batch.store.series (seriesKey record, info')) :
      info' = info :=
    Option.some.inj ((MetricTables.find_of_names h.store.kept names).symm.trans found)
  unfold Batch.infoOf
  cases pending : batch.pending.lookup (seriesKey record) with
  | some info' =>
    rw [same (h.resolved _ (mem_of_lookup pending))]
    exact ⟨_, _, rfl, h.store.cached, h.resolved⟩
  | none =>
    cases cached : toBack batch.store.cache (seriesKey record) with
    | some hit =>
      obtain ⟨info', cache⟩ := hit
      obtain ⟨mem, subset⟩ := mem_toBack cached
      rw [same (h.store.cached _ mem)]
      exact ⟨_, _, rfl, fun entry mem => h.store.cached entry (subset entry mem), h.resolved⟩
    | none =>
      have resolved : batch.store.resolveOrInsert record (seriesKey record) = (batch.store, info) := by
        rw [resolveOrInsert, resolve_eq h.store.kept, found]
      rw [resolved]
      refine ⟨_, _, rfl, h.store.cached, fun entry mem => ?_⟩
      rcases mem_append.1 mem with old | new
      · exact h.resolved entry old
      · exact mem_singleton.1 new ▸ MetricTables.names_of_find found

theorem infoOf_new (h : batch.Coherent) (new : batch.store.tables.find (seriesKey record) = none) :
    batch.infoOf record (seriesKey record) =
      ({ batch with
          store := { batch.store with series := batch.store.series.insert (seriesRow record) }
          pending := batch.pending ++
            [(seriesKey record, ⟨batch.store.series.maxId + 1, record.metricType⟩)] },
        ⟨batch.store.series.maxId + 1, record.metricType⟩) := by
  have unknown {info' : SeriesInfo} (names : Names batch.store.series (seriesKey record, info')) :
      False := nomatch (MetricTables.find_of_names h.store.kept names).symm.trans new
  unfold Batch.infoOf
  cases pending : batch.pending.lookup (seriesKey record) with
  | some info' => exact (unknown (h.resolved _ (mem_of_lookup pending))).elim
  | none =>
    cases cached : toBack batch.store.cache (seriesKey record) with
    | some hit => exact (unknown (h.store.cached _ (mem_toBack cached).1)).elim
    | none =>
      rw [resolveOrInsert, resolve_eq h.store.kept, new]
      rfl

/-- A record does to the tables what `MetricTables.next` says. -/
theorem insert (h : batch.Coherent) (record : MetricRecord) :
    ∃ batch', batch.insert record = .ok batch' ∧ batch'.Coherent ∧
      (batch'.store.tables, batch'.stats) =
        MetricTables.next (batch.store.tables, batch.stats) record := by
  cases found : batch.store.tables.find (seriesKey record) with
  | some info =>
    obtain ⟨cache, pending, is, cached, resolved⟩ := h.infoOf_found found
    unfold Batch.insert MetricTables.next MetricTables.conflict
    rw [is, found]
    dsimp only
    by_cases agrees : info.metricType = record.metricType
    · obtain ⟨row, mem, id, -⟩ := MetricTables.names_of_find found
      have present : ¬(batch.store.series.rows.all fun row => decide (row.1 ≠ info.id)) = true := by
        rw [all_eq_true]
        exact fun all => absurd id (by simpa using all row mem)
      rw [if_neg (not_not.2 agrees), if_neg present, if_pos agrees]
      have kept := h.store.kept.put record
      rw [MetricTables.put_found found] at kept ⊢
      exact ⟨_, rfl, ⟨⟨kept, cached⟩, resolved⟩, rfl⟩
    · rw [if_pos agrees, if_neg agrees]
      exact ⟨_, rfl, ⟨⟨h.store.kept, cached⟩, resolved⟩, rfl⟩
  | none =>
    unfold Batch.insert MetricTables.next MetricTables.conflict
    rw [h.infoOf_new found, found]
    dsimp only
    have present : ¬((batch.store.series.insert (seriesRow record)).rows.all fun row =>
        decide (row.1 ≠ batch.store.series.maxId + 1)) = true := by
      rw [all_eq_true]
      intro all
      simpa using all _ (mem_append_right _ (mem_singleton_self _))
    rw [if_neg (not_not.2 rfl), if_neg present]
    have kept := h.store.kept.put record
    rw [MetricTables.put_new found] at kept ⊢
    refine ⟨_, rfl, ⟨⟨kept, fun entry mem => (h.store.cached entry mem).insert _⟩, fun entry mem => ?_⟩,
      rfl⟩
    rcases mem_append.1 mem with old | new
    · exact (h.resolved entry old).insert _
    · rw [mem_singleton.1 new]
      exact ⟨_, mem_append_right _ (mem_singleton_self _), rfl, rfl, rfl⟩

theorem insertAll (h : batch.Coherent) (records : List MetricRecord) :
    ∃ batch', batch.insertAll records = (batch', .ok ()) ∧ batch'.Coherent ∧
      (batch'.store.tables, batch'.stats) =
        records.foldl MetricTables.next (batch.store.tables, batch.stats) := by
  induction records generalizing batch with
  | nil => exact ⟨batch, rfl, h, rfl⟩
  | cons record rest ih =>
    obtain ⟨batch', is, h', next⟩ := h.insert record
    obtain ⟨last, all, h'', done⟩ := ih h'
    refine ⟨last, ?_, h'', ?_⟩
    · unfold Batch.insertAll
      rw [is]
      exact all
    · rw [foldl_cons, ← next]
      exact done

end Batch.Coherent

/-! A batch that fails leaves the cache in another order. -/

theorem cache_infoOf (batch : Batch) (record : MetricRecord) (key : SeriesKey) :
    (batch.infoOf record key).1.store.cache ⊆ batch.store.cache := by
  unfold Batch.infoOf
  cases batch.pending.lookup key with
  | some info => exact List.Subset.refl _
  | none =>
    cases cached : toBack batch.store.cache key with
    | some hit => exact fun entry => (mem_toBack cached).2 entry
    | none =>
      unfold resolveOrInsert
      cases batch.store.resolve key <;> exact List.Subset.refl _

theorem cache_insert {batch batch' : Batch} {record : MetricRecord}
    (ok : batch.insert record = .ok batch') : batch'.store.cache ⊆ batch.store.cache := by
  have found := cache_infoOf batch record (seriesKey record)
  unfold Batch.insert at ok
  generalize batch.infoOf record (seriesKey record) = result at ok found
  obtain ⟨batch₁, info⟩ := result
  dsimp only at ok found
  split_ifs at ok <;> cases ok <;> exact found

theorem cache_insertAll (batch : Batch) (records : List MetricRecord) :
    (batch.insertAll records).1.store.cache ⊆ batch.store.cache := by
  induction records generalizing batch with
  | nil => exact List.Subset.refl _
  | cons record rest ih =>
    unfold Batch.insertAll
    cases ok : batch.insert record with
    | error => exact cache_infoOf _ _ _
    | ok batch' => exact List.Subset.trans (ih batch') (cache_insert ok)

/-- A commit does to the tables what `MetricTables.commit` says, if it does not fail, and nothing
otherwise.  The error of a checkpoint comes after the transaction. -/
theorem Coherent.commit (h : store.Coherent) (records : List MetricRecord)
    (fails : Option (ℕ × SqliteError)) (checkpoint : Option MetricStoreError) :
    (store.commit records fails checkpoint).1.Coherent ∧
      (store.commit records fails checkpoint).1.tables =
        (if fails = none then (store.tables.commit records).1 else store.tables) ∧
      (fails = none → (store.commit records fails checkpoint).2 = .ok (store.tables.commit records).2 ∨
        ∃ error, checkpoint = some error ∧
          (store.commit records fails checkpoint).2 = .error error) := by
  unfold MetricStore.commit
  by_cases empty : records = []
  · rw [if_pos empty, empty]
    refine ⟨h, ?_, fun _ => .inl rfl⟩
    split_ifs <;> rfl
  rw [if_neg empty]
  cases fails with
  | some failure =>
    refine ⟨⟨h.kept, fun entry mem => ?_⟩, rfl, nofun⟩
    exact h.cached entry (cache_insertAll _ _ mem)
  | none =>
    have start : Batch.Coherent ⟨store, [], .zero⟩ := ⟨h, nofun⟩
    obtain ⟨batch, all, h', done⟩ := start.insertAll records
    rw [if_pos rfl]
    dsimp only
    rw [all]
    have tables : batch.store.tables = (store.tables.commit records).1 := congrArg Prod.fst done
    have stats : batch.stats = (store.tables.commit records).2 := congrArg Prod.snd done
    have coherent : Coherent { batch.store with
        cache := batch.pending.foldl (remember store.cacheCapacity) batch.store.cache } := by
      refine ⟨h'.store.kept, fun entry mem => ?_⟩
      rcases mem_foldl_remember _ mem with old | new
      · exact h'.store.cached entry old
      · exact h'.resolved entry new
    rw [← tables, ← stats]
    cases checkpoint with
    | none => exact ⟨coherent, rfl, fun _ => .inl rfl⟩
    | some error =>
      dsimp only
      split_ifs
      · exact ⟨coherent, rfl, fun _ => .inl rfl⟩
      · exact ⟨coherent, rfl, fun _ => .inr ⟨error, rfl, rfl⟩⟩

end MetricStore

end Eventd
