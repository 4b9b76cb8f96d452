import Eventd.Core.Catalogue
import Eventd.Metric.Identity
import Eventd.Metric.Ingest

/-!
# Series over whole runs

A metric store from the moment it is opened: commits, deletion of the oldest samples, rollups, a new
size of the cache, and `replace_corrupt`.  A `replace_corrupt` exchanges the connection for one to an
empty database in memory before it quarantines the file and opens a new one.  When the quarantine
fails, that connection stays, but the file is there; when the file cannot be opened anew, there are no
tables at all.  The cache stays in both cases.

* `MetricConnection`, `StoreOperation`, `MetricConnection.act`;
* `Coherent.retainOldest`: every series that a deletion leaves without samples is deleted with it;
* `MetricConnection.Kept`: what every run keeps;
* `series_identity`; `cache_outlives_series`.
-/

namespace Eventd

open List

/-! ### Operations -/

namespace MetricStore

/-- `MetricStore::open` on a new file. -/
def opened (cacheCapacity : ℕ) : MetricStore := ⟨.empty, .empty, [], [], cacheCapacity⟩

end MetricStore

/-- A record is validated: its value is of its type. -/
def MetricRecord.Validated (record : MetricRecord) : Prop :=
  (∃ histogram, record.value = .histogram histogram) ↔ record.metricType = .histogram

/-- What the connection of a store is to. -/
inductive MetricFile
  | connected
  /-- The file is there, and the connection is one to an empty database in memory. -/
  | aside
  /-- The file was moved away, and no other was opened. -/
  | gone
  deriving DecidableEq

/-- A store with the tables of its file. -/
structure MetricConnection where
  store : MetricStore
  file : MetricFile

inductive StoreOperation
  | commit (records : List MetricRecord) (fails : Option (ℕ × SqliteError))
      (checkpoint : Option MetricStoreError)
  | retainOldest (olderThan : Option ℤ) (limit : ℕ) (fails : Option SqliteError)
      (checkpoint : Option MetricStoreError)
  | commitRollups (rows : List MetricRollup) (maxRows : ℕ) (fails : Option SqliteError)
  | pruneRollups (maxRows : ℕ) (fails : Option SqliteError)
  | configure (cacheCapacity : ℕ)
  | replaceCorrupt (outcome : Replacement)

/-- The records of a commit are validated. -/
def StoreOperation.Validated : StoreOperation → Prop
  | .commit records _ _ => ∀ record ∈ records, record.Validated
  | _ => True

/-- The same operation, or two sizes of the cache. -/
def StoreOperation.Alike (operation operation' : StoreOperation) : Prop :=
  operation = operation' ∨ ∃ capacity capacity',
    operation = .configure capacity ∧ operation' = .configure capacity'

namespace MetricConnection

def opened (cacheCapacity : ℕ) : MetricConnection := ⟨.opened cacheCapacity, .connected⟩

def replaceCorrupt (c : MetricConnection) : Replacement → MetricConnection
  | .notStarted => c
  | .failed false => { c with file := if c.file = .gone then .gone else .aside }
  | .failed true => ⟨{ c.store with series := .empty, samples := .empty, rollups := [] }, .gone⟩
  | .done => opened c.store.cacheCapacity

/-- An operation on the tables.  The database in memory has none, so that every statement fails. -/
def onTables (c : MetricConnection) (operation : MetricStore → MetricStore) : MetricConnection :=
  if c.file = .connected then { c with store := operation c.store } else c

def act (c : MetricConnection) : StoreOperation → MetricConnection
  | .commit records fails checkpoint =>
    c.onTables fun store => (store.commit records fails checkpoint).1
  | .retainOldest olderThan limit fails checkpoint =>
    c.onTables fun store => (store.retainOldest olderThan limit fails checkpoint).1
  | .commitRollups rows maxRows fails =>
    c.onTables fun store => (store.commitRollups rows maxRows fails).1
  | .pruneRollups maxRows fails => c.onTables fun store => (store.pruneRollups maxRows fails).1
  | .configure cacheCapacity => { c with store := c.store.configure cacheCapacity }
  | .replaceCorrupt outcome => c.replaceCorrupt outcome

def run (c : MetricConnection) (operations : List StoreOperation) : MetricConnection :=
  operations.foldl act c

end MetricConnection

/-! ### Deleting the oldest samples -/

namespace MetricStore

variable {store : MetricStore}

theorem mem_oldest {olderThan : Option ℤ} {limit : ℕ} {row : ℕ × Sample}
    (mem : row ∈ store.oldest olderThan limit) : row ∈ store.samples.rows := by
  have mem := mem_of_mem_take mem
  rw [mem_insertionSort] at mem
  exact (mem_filter.1 mem).1

theorem length_oldest (store : MetricStore) (olderThan : Option ℤ) (limit : ℕ) :
    (store.oldest olderThan limit).length ≤ limit := length_take_le _ _

/-- The series without samples. -/
def bare (store : MetricStore) : List (ℕ × SeriesRow) :=
  store.series.rows.filter fun row => store.samples.rows.all fun sample =>
    decide (sample.2.seriesId ≠ row.1)

theorem mem_bare {row : ℕ × SeriesRow} :
    row ∈ store.bare ↔ row ∈ store.series.rows ∧
      ∀ sample ∈ store.samples.rows, sample.2.seriesId ≠ row.1 := by
  unfold bare
  rw [mem_filter, all_eq_true]
  simp only [decide_eq_true_iff]

theorem mem_deleteSamples {victims : List (ℕ × Sample)} {sample : ℕ × Sample} :
    sample ∈ (store.deleteSamples victims).samples.rows ↔
      sample ∈ store.samples.rows ∧ sample.1 ∉ victims.map Prod.fst := by
  show sample ∈ List.filter _ _ ↔ _
  rw [mem_filter, Bool.not_eq_true', decide_eq_false_iff_not]

theorem mem_deleteSeries {ids : List ℕ} {row : ℕ × SeriesRow} :
    row ∈ (store.deleteSeries ids).series.rows ↔ row ∈ store.series.rows ∧ row.1 ∉ ids := by
  show row ∈ List.filter _ _ ↔ _
  rw [mem_filter, Bool.not_eq_true', decide_eq_false_iff_not]

section Deletion

variable {victims : List (ℕ × Sample)} (kept : store.tables.WellKept)
  (present : ∀ victim ∈ victims, victim ∈ store.samples.rows)

include kept present

/-- A series loses its last sample only with a victim of its own. -/
theorem length_bare : (store.deleteSamples victims).bare.length ≤ victims.length := by
  have nodup : ((store.deleteSamples victims).bare.map Prod.fst).Nodup :=
    (List.Sublist.map Prod.fst filter_sublist).nodup store.series.nodup_ids
  have subset : (store.deleteSamples victims).bare.map Prod.fst ⊆
      victims.map fun victim => victim.2.seriesId := by
    intro id mem
    obtain ⟨row, bare, rfl⟩ := mem_map.1 mem
    obtain ⟨mem, none⟩ := mem_bare.1 bare
    obtain ⟨sample, has, is⟩ := kept.inhabited row mem
    by_contra spared
    refine none sample (mem_deleteSamples.2 ⟨has, fun victim => spared ?_⟩) is
    obtain ⟨victim, mem, same⟩ := mem_map.1 victim
    have : victim = sample := store.samples.eq_of_id_eq (present victim mem) has same
    exact mem_map.2 ⟨victim, mem, this ▸ is⟩
  have le := (subperm_of_subset nodup subset).length_le
  rwa [length_map, length_map] at le

/-- With a limit for the victims all series left bare are deleted. -/
theorem emptySeries_eq {limit : ℕ} (within : victims.length ≤ limit) :
    (store.deleteSamples victims).emptySeries limit =
      (store.deleteSamples victims).bare.map Prod.fst := by
  show ((store.deleteSamples victims).bare.take limit).map Prod.fst = _
  rw [take_of_length_le ((length_bare kept present).trans within)]

omit present in
theorem wellKept_deleted :
    ((store.deleteSamples victims).deleteSeries
      ((store.deleteSamples victims).bare.map Prod.fst)).tables.WellKept where
  hashed row mem := kept.hashed row (mem_deleteSeries.1 mem).1
  unique a ha b hb := kept.unique a (mem_deleteSeries.1 ha).1 b (mem_deleteSeries.1 hb).1
  inhabited row mem := by
    obtain ⟨mem, spared⟩ := mem_deleteSeries.1 mem
    by_contra none
    refine spared (mem_map_of_mem (mem_bare.2 ⟨mem, fun sample has is => none ?_⟩))
    exact ⟨sample, has, is⟩
  referenced sample mem := by
    obtain ⟨row, has, is, kind⟩ := kept.referenced sample (mem_deleteSamples.1 mem).1
    refine ⟨row, mem_deleteSeries.2 ⟨has, fun bare => ?_⟩, is, kind⟩
    obtain ⟨other, bare, same⟩ := mem_map.1 bare
    exact (mem_bare.1 bare).2 sample mem (is.symm.trans same.symm)

end Deletion

/-- What the oldest samples leave. -/
theorem Coherent.retainOldest (h : store.Coherent) (olderThan : Option ℤ) (limit : ℕ)
    (fails : Option SqliteError) (checkpoint : Option MetricStoreError) :
    (store.retainOldest olderThan limit fails checkpoint).1.Coherent := by
  unfold MetricStore.retainOldest
  split_ifs
  · exact h
  cases fails with
  | some code => exact h
  | none =>
    have present : ∀ victim ∈ store.oldest olderThan limit, victim ∈ store.samples.rows :=
      fun victim mem => mem_oldest mem
    have within := store.length_oldest olderThan limit
    dsimp only
    generalize store.oldest olderThan limit = victims at present within
    rw [emptySeries_eq h.kept present within]
    have kept := @wellKept_deleted store victims h.kept
    have coherent : Coherent (if victims = [] then
        (store.deleteSamples victims).deleteSeries ((store.deleteSamples victims).bare.map Prod.fst)
        else { (store.deleteSamples victims).deleteSeries
          ((store.deleteSamples victims).bare.map Prod.fst) with cache := [] }) := by
      split_ifs with nobody
      · -- nothing was deleted, so that no series is bare
        have bare : (store.deleteSamples victims).bare = [] := by
          have le := length_bare h.kept present
          rw [nobody] at le ⊢
          exact length_eq_zero_iff.1 (Nat.le_zero.1 le)
        refine ⟨kept, fun entry mem => ?_⟩
        obtain ⟨row, has, is⟩ := h.cached entry mem
        exact ⟨row, mem_deleteSeries.2 ⟨has, by rw [bare]; nofun⟩, is⟩
      · exact ⟨kept, nofun⟩
    cases checkpoint <;> exact coherent

theorem mem_retainOldest {olderThan : Option ℤ} {limit : ℕ} {fails : Option SqliteError}
    {checkpoint : Option MetricStoreError} {row : ℕ × SeriesRow}
    (mem : row ∈ (store.retainOldest olderThan limit fails checkpoint).1.series.rows) :
    row ∈ store.series.rows := by
  unfold MetricStore.retainOldest at mem
  split_ifs at mem with range
  · exact mem
  cases fails with
  | some code => exact mem
  | none =>
    cases checkpoint <;> dsimp only at mem <;> split_ifs at mem <;> exact (mem_deleteSeries.1 mem).1

/-- Rollups are written beside series, samples and cache. -/
theorem pruneRollups_eq (store : MetricStore) (maxRows : ℕ) (fails : Option SqliteError) :
    ∃ rollups, (store.pruneRollups maxRows fails).1 = { store with rollups := rollups } := by
  unfold pruneRollups
  cases fails with
  | some code => exact ⟨_, rfl⟩
  | none =>
    split_ifs <;> exact ⟨_, rfl⟩

theorem commitRollups_eq (store : MetricStore) (rows : List MetricRollup) (maxRows : ℕ)
    (fails : Option SqliteError) :
    ∃ rollups, (store.commitRollups rows maxRows fails).1 = { store with rollups := rollups } := by
  obtain ⟨rollups, is⟩ := store.pruneRollups_eq 0 fails
  unfold commitRollups
  generalize store.pruneRollups 0 fails = result at is
  obtain ⟨left, _ | _⟩ := result <;> cases fails <;> dsimp only at is ⊢ <;> split_ifs <;>
    first | exact ⟨rollups, is⟩ | exact ⟨_, rfl⟩

theorem Coherent.withRollups (h : store.Coherent) (rollups : List MetricRollup) :
    Coherent { store with rollups := rollups } :=
  ⟨⟨h.kept.hashed, h.kept.unique, h.kept.inhabited, h.kept.referenced⟩, h.cached⟩

end MetricStore

/-! ### What a step leaves of the series -/

namespace MetricTables

variable {tables : MetricTables}

/-- A series has boundaries if it is one of histograms. -/
def Kinded (tables : MetricTables) : Prop :=
  ∀ row ∈ tables.series.rows, row.2.boundaries.isSome ↔ row.2.metricType = .histogram

theorem mem_put {record : MetricRecord} {row : ℕ × SeriesRow}
    (mem : row ∈ (tables.put record).series.rows) :
    row ∈ tables.series.rows ∨ row = (tables.series.maxId + 1, seriesRow record) := by
  cases found : tables.find (seriesKey record) with
  | some info =>
    rw [put_found found] at mem
    exact .inl mem
  | none =>
    rw [put_new found] at mem
    exact (mem_append.1 mem).imp id mem_singleton.1

theorem maxId_put (record : MetricRecord) : tables.series.maxId ≤ (tables.put record).series.maxId := by
  cases found : tables.find (seriesKey record) with
  | some info => rw [put_found found]
  | none =>
    rw [put_new found]
    exact (RowTable.maxId_insert _ _).symm ▸ Nat.le_succ _

/-- A batch leaves the rows that there were, and gives new rows new ids. -/
theorem mem_foldl_next {records : List MetricRecord} {stats : MetricCommitStats}
    {row : ℕ × SeriesRow} (mem : row ∈ (records.foldl next (tables, stats)).1.series.rows) :
    row ∈ tables.series.rows ∨
      tables.series.maxId < row.1 ∧ ∃ record ∈ records, row.2 = seriesRow record := by
  induction records generalizing tables stats with
  | nil => exact .inl mem
  | cons record rest ih =>
    rw [foldl_cons, next] at mem
    cases conflict : tables.conflict record with
    | some mismatch =>
      rw [conflict] at mem
      rcases ih mem with old | ⟨new, other, has, is⟩
      · exact .inl old
      · exact .inr ⟨new, other, mem_cons_of_mem _ has, is⟩
    | none =>
      rw [conflict] at mem
      rcases ih mem with old | ⟨new, other, has, is⟩
      · rcases mem_put old with old | rfl
        · exact .inl old
        · exact .inr ⟨Nat.lt_succ_self _, record, mem_cons_self, rfl⟩
      · exact .inr ⟨(maxId_put record).trans_lt new, other, mem_cons_of_mem _ has, is⟩

theorem isSome_seriesRow {record : MetricRecord} (validated : record.Validated) :
    (seriesRow record).boundaries.isSome ↔ (seriesRow record).metricType = .histogram := by
  refine Iff.trans ?_ validated
  show (seriesKey record).boundaries.isSome ↔ _
  unfold seriesKey
  cases record.value <;> simp

end MetricTables

namespace MetricConnection

variable {c c' : MetricConnection}

/-- What every run keeps. -/
structure Kept (c : MetricConnection) : Prop where
  kept : c.store.tables.WellKept
  cached : c.file ≠ .gone → ∀ entry ∈ c.store.cache, Names c.store.series entry
  gone : c.file = .gone → c.store.series.rows = []

theorem Kept.coherent (h : c.Kept) (connected : c.file = .connected) : c.store.Coherent :=
  ⟨h.kept, h.cached (by rw [connected]; nofun)⟩

variable {store store' : MetricStore}

theorem Kept.of_coherent (h : store.Coherent) : Kept ⟨store, .connected⟩ :=
  ⟨h.kept, fun _ => h.cached, nofun⟩

theorem kept_opened (cacheCapacity : ℕ) : (opened cacheCapacity).Kept :=
  ⟨⟨nofun, nofun, nofun, nofun⟩, nofun, nofun⟩

theorem Kept.onTables (h : c.Kept) (operation : MetricStore → MetricStore)
    (keeps : c.store.Coherent → (operation c.store).Coherent) : (c.onTables operation).Kept := by
  obtain ⟨store, file⟩ := c
  cases file with
  | connected => exact .of_coherent (keeps (h.coherent rfl))
  | aside | gone => exact h

theorem Kept.replaceCorrupt (h : c.Kept) (outcome : Replacement) : (c.replaceCorrupt outcome).Kept := by
  obtain ⟨store, file⟩ := c
  cases outcome with
  | notStarted => exact h
  | done => exact kept_opened _
  | failed moved =>
    cases moved with
    | true => exact ⟨⟨nofun, nofun, nofun, nofun⟩, fun there => absurd rfl there, fun _ => rfl⟩
    | false =>
      cases file with
      | connected | aside => exact ⟨h.kept, fun _ => h.cached nofun, nofun⟩
      | gone => exact h

theorem Kept.act (h : c.Kept) (operation : StoreOperation) : (c.act operation).Kept := by
  cases operation with
  | commit records fails checkpoint =>
    exact h.onTables (fun store => (store.commit records fails checkpoint).1)
      fun coherent => (coherent.commit records fails checkpoint).1
  | retainOldest olderThan limit fails checkpoint =>
    exact h.onTables (fun store => (store.retainOldest olderThan limit fails checkpoint).1)
      fun coherent => coherent.retainOldest olderThan limit fails checkpoint
  | commitRollups rows maxRows fails =>
    refine h.onTables (fun store => (store.commitRollups rows maxRows fails).1) fun coherent => ?_
    obtain ⟨rollups, is⟩ := c.store.commitRollups_eq rows maxRows fails
    exact is ▸ coherent.withRollups rollups
  | pruneRollups maxRows fails =>
    refine h.onTables (fun store => (store.pruneRollups maxRows fails).1) fun coherent => ?_
    obtain ⟨rollups, is⟩ := c.store.pruneRollups_eq maxRows fails
    exact is ▸ coherent.withRollups rollups
  | configure cacheCapacity =>
    exact ⟨h.kept, fun there entry mem => h.cached there entry (mem_of_mem_drop mem), h.gone⟩
  | replaceCorrupt outcome => exact h.replaceCorrupt outcome

theorem Kept.run (h : c.Kept) (operations : List StoreOperation) : (c.run operations).Kept := by
  induction operations generalizing c with
  | nil => exact h
  | cons operation rest ih => exact ih (h.act operation)

theorem mem_onTables {operation : MetricStore → MetricStore} {row : ℕ × SeriesRow}
    (mem : row ∈ (c.onTables operation).store.series.rows) :
    row ∈ c.store.series.rows ∨ c.file = .connected ∧ row ∈ (operation c.store).series.rows := by
  obtain ⟨store, file⟩ := c
  cases file with
  | connected => exact .inr ⟨rfl, mem⟩
  | aside | gone => exact .inl mem

/-- A step changes no row of `series`, and new rows come from records and have new ids. -/
theorem Kept.mem_act (h : c.Kept) {operation : StoreOperation} {row : ℕ × SeriesRow}
    (mem : row ∈ (c.act operation).store.series.rows) :
    row ∈ c.store.series.rows ∨ c.store.series.maxId < row.1 ∧
      ∃ records fails checkpoint, operation = .commit records fails checkpoint ∧
        ∃ record ∈ records, row.2 = seriesRow record := by
  cases operation with
  | commit records fails checkpoint =>
    rcases mem_onTables mem with old | ⟨connected, mem⟩
    · exact .inl old
    have tables := ((h.coherent connected).commit records fails checkpoint).2.1
    have mem : row ∈ (c.store.commit records fails checkpoint).1.tables.series.rows := mem
    rw [tables] at mem
    split_ifs at mem
    · exact (MetricTables.mem_foldl_next mem).imp id fun ⟨new, record, has, is⟩ =>
        ⟨new, records, fails, checkpoint, rfl, record, has, is⟩
    · exact .inl mem
  | retainOldest olderThan limit fails checkpoint =>
    exact .inl ((mem_onTables mem).elim id fun ⟨_, mem⟩ => MetricStore.mem_retainOldest mem)
  | commitRollups rows maxRows fails =>
    obtain ⟨rollups, is⟩ := c.store.commitRollups_eq rows maxRows fails
    refine .inl ((mem_onTables mem).elim id fun ⟨_, mem⟩ => ?_)
    rw [is] at mem
    exact mem
  | pruneRollups maxRows fails =>
    obtain ⟨rollups, is⟩ := c.store.pruneRollups_eq maxRows fails
    refine .inl ((mem_onTables mem).elim id fun ⟨_, mem⟩ => ?_)
    rw [is] at mem
    exact mem
  | configure cacheCapacity => exact .inl mem
  | replaceCorrupt outcome =>
    cases outcome with
    | notStarted => exact .inl mem
    | done => cases mem
    | failed moved =>
      cases moved with
      | true => cases mem
      | false => exact .inl mem

theorem kinded_run (h : c.Kept) (kinded : c.store.tables.Kinded) {operations : List StoreOperation}
    (validated : ∀ operation ∈ operations, operation.Validated) :
    (c.run operations).store.tables.Kinded := by
  induction operations generalizing c with
  | nil => exact kinded
  | cons operation rest ih =>
    refine ih (h.act operation) (fun row mem => ?_)
      fun other mem => validated other (mem_cons_of_mem _ mem)
    rcases h.mem_act mem with old | ⟨-, records, fails, checkpoint, rfl, record, has, is⟩
    · exact kinded row old
    · rw [is]
      exact MetricTables.isSome_seriesRow (validated _ mem_cons_self record has)

/-! The cache does not show in the tables. -/

/-- The same file with the same tables. -/
structure Alike (c c' : MetricConnection) : Prop where
  tables : c'.store.tables = c.store.tables
  file : c'.file = c.file

theorem Alike.onTables (same : c.Alike c') (operation : MetricStore → MetricStore)
    (congr : c.file = .connected → (operation c'.store).tables = (operation c.store).tables) :
    (c.onTables operation).Alike (c'.onTables operation) := by
  obtain ⟨store, file⟩ := c
  obtain ⟨store', file'⟩ := c'
  have is : file' = file := same.file
  subst is
  cases file' with
  | connected => exact ⟨congr rfl, rfl⟩
  | aside | gone => exact same

/-- Two stores with the same tables differ in their caches. -/
theorem eq_of_tables (same : store'.tables = store.tables) :
    store' = { store with cache := store'.cache, cacheCapacity := store'.cacheCapacity } := by
  cases store
  cases store'
  cases same
  rfl

theorem tables_retainOldest (same : store'.tables = store.tables) (olderThan : Option ℤ) (limit : ℕ)
    (fails : Option SqliteError) (checkpoint : Option MetricStoreError) :
    (store'.retainOldest olderThan limit fails checkpoint).1.tables =
      (store.retainOldest olderThan limit fails checkpoint).1.tables := by
  rw [eq_of_tables same]
  unfold MetricStore.retainOldest
  split_ifs
  · rfl
  cases fails with
  | some code => rfl
  | none =>
    dsimp only
    have victims : MetricStore.oldest
        { store with cache := store'.cache, cacheCapacity := store'.cacheCapacity } olderThan limit =
      store.oldest olderThan limit := rfl
    rw [victims]
    cases checkpoint <;> split_ifs <;> rfl

theorem tables_commitRollups (same : store'.tables = store.tables) (rows : List MetricRollup)
    (maxRows : ℕ) (fails : Option SqliteError) :
    (store'.commitRollups rows maxRows fails).1.tables =
      (store.commitRollups rows maxRows fails).1.tables := by
  rw [eq_of_tables same]
  unfold MetricStore.commitRollups MetricStore.pruneRollups
  cases fails <;> dsimp only <;> split_ifs <;> rfl

theorem tables_pruneRollups (same : store'.tables = store.tables) (maxRows : ℕ)
    (fails : Option SqliteError) :
    (store'.pruneRollups maxRows fails).1.tables = (store.pruneRollups maxRows fails).1.tables := by
  rw [eq_of_tables same]
  unfold MetricStore.pruneRollups
  cases fails with
  | some code => rfl
  | none =>
    split_ifs <;> rfl

theorem Alike.act (same : c.Alike c') (h : c.Kept) (h' : c'.Kept)
    {operation operation' : StoreOperation} (alike : operation.Alike operation') :
    (c.act operation).Alike (c'.act operation') := by
  rcases alike with rfl | ⟨capacity, capacity', rfl, rfl⟩
  · cases operation with
    | commit records fails checkpoint =>
      refine same.onTables (fun store => (store.commit records fails checkpoint).1) fun connected => ?_
      have left := ((h.coherent connected).commit records fails checkpoint).2.1
      have right := ((h'.coherent (same.file.trans connected)).commit records fails checkpoint).2.1
      rw [left, right, same.tables]
    | retainOldest olderThan limit fails checkpoint =>
      exact same.onTables (fun store => (store.retainOldest olderThan limit fails checkpoint).1)
        fun _ => tables_retainOldest same.tables olderThan limit fails checkpoint
    | commitRollups rows maxRows fails =>
      exact same.onTables (fun store => (store.commitRollups rows maxRows fails).1)
        fun _ => tables_commitRollups same.tables rows maxRows fails
    | pruneRollups maxRows fails =>
      exact same.onTables (fun store => (store.pruneRollups maxRows fails).1)
        fun _ => tables_pruneRollups same.tables maxRows fails
    | configure => exact ⟨same.tables, same.file⟩
    | replaceCorrupt outcome =>
      cases outcome with
      | notStarted => exact same
      | done => exact ⟨rfl, rfl⟩
      | failed moved =>
        cases moved with
        | true => exact ⟨rfl, rfl⟩
        | false =>
          refine ⟨same.tables, ?_⟩
          show (if c'.file = .gone then MetricFile.gone else .aside) = _
          rw [same.file]
          rfl
  · exact ⟨same.tables, same.file⟩

theorem Alike.run (same : c.Alike c') (h : c.Kept) (h' : c'.Kept)
    {operations operations' : List StoreOperation}
    (alike : List.Forall₂ StoreOperation.Alike operations operations') :
    (c.run operations).Alike (c'.run operations') := by
  induction alike generalizing c c' with
  | nil => exact same
  | cons first _ ih => exact ih (same.act h h' first) (h.act _) (h'.act _)

end MetricConnection

/-- **Identity of series.**  After any operations on a store opened with any size of the cache:

* no two rows of `series` have one name, labels and boundaries (absent boundaries being alike);
* every sample is of a series, and if the records were validated it is a histogram just when the type
  of the series says so;
* whatever comes next, no row of `series` is changed, so that its type stays;
* if the store is connected to its file, a commit stores the records that do not disagree with the
  type of their series, as if there were no others in the batch, counts the rest, and tells the last
  disagreement;
* the entries of the cache name rows of `series` with their keys and types, unless the file was moved
  away by a `replace_corrupt` that then failed, and the cache is not empty;
* with any other sizes of the cache the tables are the same. -/
theorem series_identity (cacheCapacity : ℕ) (operations : List StoreOperation) :
    let c := (MetricConnection.opened cacheCapacity).run operations
    (∀ a ∈ c.store.series.rows, ∀ b ∈ c.store.series.rows, a.2.key = b.2.key → a = b) ∧
    (∀ sample ∈ c.store.samples.rows, ∃ row ∈ c.store.series.rows, row.1 = sample.2.seriesId ∧
      ((∀ operation ∈ operations, operation.Validated) →
        (sample.2.histogramData.isSome ↔ row.2.metricType = .histogram))) ∧
    (∀ operation, ∀ row ∈ (c.act operation).store.series.rows,
      (∃ old ∈ c.store.series.rows, old.1 = row.1) → row ∈ c.store.series.rows) ∧
    (c.file = .connected → ∀ records,
      let kept := c.store.tables.admitted records
      let refused := c.store.tables.mismatches records
      kept.length + refused.length = records.length ∧
      (c.store.commit records none none).2 =
        .ok ⟨kept.length, refused.length, refused.getLast?⟩ ∧
      (c.store.commit kept none none).2 = .ok ⟨kept.length, 0, none⟩ ∧
      (c.store.commit records none none).1.tables = (c.store.commit kept none none).1.tables) ∧
    ((∀ entry ∈ c.store.cache, Names c.store.series entry) ↔
      c.file ≠ .gone ∨ c.store.cache = []) ∧
    ∀ cacheCapacity' operations', List.Forall₂ StoreOperation.Alike operations operations' →
      ((MetricConnection.opened cacheCapacity').run operations').store.tables = c.store.tables := by
  intro c
  have opened := MetricConnection.kept_opened cacheCapacity
  have h : c.Kept := opened.run operations
  refine ⟨h.kept.unique, fun sample mem => ?_, fun operation row mem ⟨old, has, same⟩ => ?_,
    fun connected records => ?_, ⟨fun names => ?_, ?_⟩, fun capacity' operations' alike => ?_⟩
  · obtain ⟨row, has, is, kind⟩ := h.kept.referenced sample mem
    refine ⟨row, has, is, fun validated => ?_⟩
    rw [kind]
    exact MetricConnection.kinded_run opened nofun validated row has
  · rcases h.mem_act mem with old | ⟨new, -⟩
    · exact old
    · exact absurd (c.store.series.le_maxId has) (by omega)
  · have coherent := h.coherent connected
    obtain ⟨-, all, ok⟩ := coherent.commit records none none
    obtain ⟨-, few, ok'⟩ := coherent.commit (c.store.tables.admitted records) none none
    refine ⟨c.store.tables.length_admitted records, ?_, ?_, ?_⟩
    · rw [(ok rfl).resolve_right nofun, MetricTables.stats_commit]
    · rw [(ok' rfl).resolve_right nofun, MetricTables.stats_commit, MetricTables.mismatches_admitted,
        MetricTables.admitted_admitted]
      rfl
    · rw [all, few, if_pos rfl, if_pos rfl]
      exact (c.store.tables.tables_foldl_admitted records _ _).symm
  · by_cases gone : c.file = .gone
    · refine .inr (eq_nil_iff_forall_not_mem.2 fun entry mem => ?_)
      obtain ⟨row, has, -⟩ := names entry mem
      rw [h.gone gone] at has
      cases has
    · exact .inl gone
  · rintro (there | empty)
    · exact h.cached there
    · rw [empty]
      nofun
  · have same : (MetricConnection.opened cacheCapacity).Alike (.opened capacity') := ⟨rfl, rfl⟩
    exact (same.run opened (MetricConnection.kept_opened capacity') alike).tables

/-- A sample of a series without labels. -/
def upSample (metricType : MetricType) : MetricRecord where
  bootId := .replicate 16 0
  timestamp := 1
  name := "up"
  labels := ""
  metricType := metricType
  value := .number (.ofInt 1)

theorem series_identity_upSample :
    let c := (MetricConnection.opened 4).run [.commit [upSample .gauge] none none]
    (c.file = .connected ∧ (upSample .gauge).Validated ∧ c.store.cache ≠ []) ∧
      (∀ entry ∈ c.store.cache, Names c.store.series entry) ∧
      ((MetricConnection.opened 0).run [.commit [upSample .gauge] none none]).store.tables =
        c.store.tables := by
  have identity := series_identity 4 [.commit [upSample .gauge] none none]
  obtain ⟨-, -, -, -, cached, alike⟩ := identity
  refine ⟨⟨rfl, ⟨nofun, nofun⟩, nofun⟩, cached.2 (.inl nofun), alike 0 _ ?_⟩
  exact .cons (.inl rfl) .nil

/-- A series is committed and cached; then a `replace_corrupt` moves the file away and cannot open
another.  There is no series any more, and the cache still names it. -/
theorem cache_outlives_series :
    let c := (MetricConnection.opened 4).run
      [.commit [upSample .gauge] none none, .replaceCorrupt (.failed true)]
    c.store.cache = [(seriesKey (upSample .gauge), ⟨1, .gauge⟩)] ∧ c.store.series.rows = [] ∧
      ¬∀ entry ∈ c.store.cache, Names c.store.series entry := by
  refine ⟨rfl, rfl, fun names => ?_⟩
  obtain ⟨row, has, -⟩ := names (seriesKey (upSample .gauge), ⟨1, .gauge⟩) mem_cons_self
  cases has

end Eventd
