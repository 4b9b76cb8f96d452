import Eventd.Lib.Binary64
import Eventd.Core.Shard

/-!
# The metric store

`eventd-core/src/metric_store.rs`: the series, their samples, the cached window rows
(rollups), and the cache that resolves a series without reading the table.

* `MetricStore.commit`: resolve the series of a batch of records and insert their samples;
* `MetricStore.retainOldest`: delete the oldest samples, the rollups of their series, and
  series left without samples;
* `MetricStore.commitRollups`, `pruneRollups`: write cached rows, and bound their number;
* `MetricStore.preceding`, `MetricStore.scan`: the two reads of a series' samples.

An operation whose transaction fails leaves the tables as they were.
-/

namespace Eventd

/-- Metric series type. -/
inductive MetricType
  | counter
  | gauge
  | histogram
  deriving DecidableEq

/-- A validated histogram sample: bucket boundaries and cumulative counts. -/
structure Histogram where
  boundaries : List Binary64
  counts : List ℕ
  totalCount : ℕ
  sum : Binary64
  deriving DecidableEq

inductive MetricValue
  | number (value : Binary64)
  | histogram (value : Histogram)
  deriving DecidableEq

/-- One validated sample ready for series resolution. -/
structure MetricRecord where
  bootId : Guid
  timestamp : ℤ
  name : String
  labels : String
  metricType : MetricType
  value : MetricValue
  deriving DecidableEq

/-- One query-computed, writer-committed metric window cache row. -/
structure MetricRollup where
  seriesId : ℕ
  windowStart : ℤ
  windowWidth : ℤ
  transform : ℤ
  function : ℤ
  /-- The finite result, absent for an empty or overflowing window. -/
  value : Option Binary64
  overflow : Bool
  sourceMaxSampleId : ℕ
  sourceBaselineSampleId : Option ℕ
  deriving DecidableEq

/-- The primary key of a rollup. -/
def MetricRollup.key (row : MetricRollup) : ℕ × ℤ × ℤ × ℤ × ℤ :=
  (row.seriesId, row.windowStart, row.windowWidth, row.transform, row.function)

/-- What identifies a series; `boundaries` is the blob of a histogram's boundaries. -/
structure SeriesKey where
  name : String
  labels : String
  boundaries : Option (List UInt8)
  deriving DecidableEq

structure SeriesInfo where
  id : ℕ
  metricType : MetricType
  deriving DecidableEq

/-- The columns of `series` besides its key. -/
structure SeriesRow where
  name : String
  labels : String
  metricType : MetricType
  labelHash : ℕ
  boundariesHash : Option ℕ
  boundaries : Option (List UInt8)
  deriving DecidableEq

/-- The columns of `samples` besides its key.  A histogram is kept as the map that
`encode_histogram` writes and every reader decodes again.  SQLite reads `-0.0` of a `REAL` column
back as `0.0`; here, and in the rollups, it stays `-0.0`. -/
structure Sample where
  seriesId : ℕ
  bootId : Guid
  timestamp : ℤ
  value : Binary64
  histogramData : Option Histogram
  deriving DecidableEq

/-- The tables, and the series resolved recently, the least recent first. -/
structure MetricStore where
  series : RowTable SeriesRow
  samples : RowTable Sample
  rollups : List MetricRollup
  cache : List (SeriesKey × SeriesInfo)
  cacheCapacity : ℕ

inductive MetricStoreError
  | sql (code : SqliteError)
  | io
  | foreignKey
  | integerRange
  | invalidRollup
  deriving DecidableEq

def MetricStoreError.isCapacity : MetricStoreError → Bool
  | .sql .diskFull => true
  | _ => false

/-- One disagreement with the type of a series. -/
structure MetricTypeMismatch where
  name : String
  expected : MetricType
  received : MetricType
  deriving DecidableEq

/-- The outcome of one transaction. -/
structure MetricCommitStats where
  accepted : ℕ
  typeMismatches : ℕ
  lastTypeMismatch : Option MetricTypeMismatch
  deriving DecidableEq

/-- The statistics of a transaction that has seen no record. -/
def MetricCommitStats.zero : MetricCommitStats := ⟨0, 0, none⟩

def MetricCommitStats.accept (stats : MetricCommitStats) : MetricCommitStats :=
  { stats with accepted := stats.accepted + 1 }

def MetricCommitStats.refuse (stats : MetricCommitStats) (mismatch : MetricTypeMismatch) :
    MetricCommitStats :=
  { stats with typeMismatches := stats.typeMismatches + 1, lastTypeMismatch := some mismatch }

/-! ### Series -/

/-- FNV-1a over bytes, with the high bit cleared. -/
def hashForSql (bytes : List UInt8) : ℕ :=
  (bytes.foldl (fun hash byte => (hash ^^^ UInt64.ofNat byte.toNat) * 0x100000001b3)
    (0xcbf29ce484222325 : UInt64)).toNat % 2 ^ 63

/-- Little-endian bytes of a number. -/
def leBytes (width n : ℕ) : List UInt8 :=
  (List.range width).map fun i => .ofNat (n / 256 ^ i % 256)

def boundaryBlob (boundaries : List Binary64) : List UInt8 :=
  leBytes 4 boundaries.length ++ boundaries.flatMap fun boundary => leBytes 8 boundary.bits.toNat

def seriesKey (record : MetricRecord) : SeriesKey where
  name := record.name
  labels := record.labels
  boundaries :=
    match record.value with
    | .number _ => none
    | .histogram histogram => some (boundaryBlob histogram.boundaries)

/-- Whether the one `SELECT` that a cache miss costs returns a series. -/
def SeriesRow.candidate (key : SeriesKey) (row : SeriesRow) : Bool :=
  decide (row.name = key.name) && decide (row.labelHash = hashForSql key.labels.toUTF8.toList) &&
    decide (row.boundariesHash = key.boundaries.map hashForSql)

namespace MetricStore

/-- The series of a key; candidates found by the hashes are compared in full. -/
def resolve (store : MetricStore) (key : SeriesKey) : Option SeriesInfo :=
  ((store.series.rows.filter fun row => row.2.candidate key).find? fun row =>
    decide (row.2.labels = key.labels) && decide (row.2.boundaries = key.boundaries)).map
      fun row => ⟨row.1, row.2.metricType⟩

/-- The series of a record, inserted if there is none. -/
def resolveOrInsert (store : MetricStore) (record : MetricRecord) (key : SeriesKey) :
    MetricStore × SeriesInfo :=
  match store.resolve key with
  | some info => (store, info)
  | none =>
    ({ store with
        series := store.series.insert
          { name := record.name
            labels := record.labels
            metricType := record.metricType
            labelHash := hashForSql key.labels.toUTF8.toList
            boundariesHash := key.boundaries.map hashForSql
            boundaries := key.boundaries } },
      ⟨store.series.maxId + 1, record.metricType⟩)

/-- Look a series up in the cache, where it is then the most recent. -/
def toBack (cache : List (SeriesKey × SeriesInfo)) (key : SeriesKey) :
    Option (SeriesInfo × List (SeriesKey × SeriesInfo)) :=
  (cache.lookup key).map fun info =>
    (info, (cache.filter fun entry => decide (entry.1 ≠ key)) ++ [(key, info)])

/-- Add a series to the cache and drop the least recent ones beyond its capacity. -/
def remember (capacity : ℕ) (cache : List (SeriesKey × SeriesInfo))
    (entry : SeriesKey × SeriesInfo) : List (SeriesKey × SeriesInfo) :=
  let cache := (cache.filter fun other => decide (other.1 ≠ entry.1)) ++ [entry]
  cache.drop (cache.length - capacity)

/-! ### Samples -/

/-- A batch under way: the store with what the transaction has written, the series it has
resolved, and its counts. -/
structure Batch where
  store : MetricStore
  pending : List (SeriesKey × SeriesInfo)
  stats : MetricCommitStats

/-- The series of the next record: resolved in this batch, cached, or looked up. -/
def Batch.infoOf (batch : Batch) (record : MetricRecord) (key : SeriesKey) : Batch × SeriesInfo :=
  match batch.pending.lookup key with
  | some info => (batch, info)
  | none =>
    match toBack batch.store.cache key with
    | some (info, cache) => ({ batch with store := { batch.store with cache := cache } }, info)
    | none =>
      match batch.store.resolveOrInsert record key with
      | (store, info) =>
        ({ batch with store := store, pending := batch.pending ++ [(key, info)] }, info)

/-- The sample of a record. -/
def sampleOf (record : MetricRecord) (seriesId : ℕ) : Sample where
  seriesId := seriesId
  bootId := record.bootId
  timestamp := record.timestamp
  value :=
    match record.value with
    | .number value => value
    | .histogram _ => .ofInt 0
  histogramData :=
    match record.value with
    | .number _ => none
    | .histogram histogram => some histogram

/-- Insert one record.  A type other than that of its series is counted and skipped; a
cached series that is gone violates the foreign key. -/
def Batch.insert (batch : Batch) (record : MetricRecord) : Except MetricStoreError Batch :=
  match batch.infoOf record (seriesKey record) with
  | (batch, info) =>
    if info.metricType ≠ record.metricType then
      .ok { batch with
        stats := batch.stats.refuse ⟨record.name, info.metricType, record.metricType⟩ }
    else if batch.store.series.rows.all fun row => decide (row.1 ≠ info.id) then
      .error .foreignKey
    else
      .ok { batch with
        store := { batch.store with
          samples := batch.store.samples.insert (sampleOf record info.id) }
        stats := batch.stats.accept }

/-- Insert records until one fails. -/
def Batch.insertAll (batch : Batch) : List MetricRecord → Batch × Except MetricStoreError Unit
  | [] => (batch, .ok ())
  | record :: records =>
    match batch.insert record with
    | .error error => ((batch.infoOf record (seriesKey record)).1, .error error)
    | .ok batch => batch.insertAll records

/-- Resolve series and commit one batch.  `fails` is an error of SQLite that rolls the
transaction back, and after how many records it comes; `checkpoint` is one of the checkpoint
after a committed transaction.  A failed batch leaves the tables, but the cache entries it
has used are the most recent ones. -/
def commit (store : MetricStore) (records : List MetricRecord) (fails : Option (ℕ × SqliteError))
    (checkpoint : Option MetricStoreError) :
    MetricStore × Except MetricStoreError MetricCommitStats :=
  if records = [] then (store, .ok .zero)
  else
    let start : Batch := ⟨store, [], .zero⟩
    match fails with
    | some (count, code) =>
      ({ store with cache := (start.insertAll (records.take count)).1.store.cache },
        .error (.sql code))
    | none =>
      match start.insertAll records with
      | (batch, .error error) => ({ store with cache := batch.store.cache }, .error error)
      | (batch, .ok ()) =>
        let store := { batch.store with
          cache := batch.pending.foldl (remember store.cacheCapacity) batch.store.cache }
        match checkpoint with
        | some error =>
          if error.isCapacity then (store, .ok batch.stats)
          else (store, .error error)
        | none => (store, .ok batch.stats)

def configure (store : MetricStore) (cacheCapacity : ℕ) : MetricStore :=
  { store with
    cacheCapacity := cacheCapacity
    cache := store.cache.drop (store.cache.length - cacheCapacity) }

/-! ### Retention -/

/-- The order in which samples are read: by time, then by id. -/
def before (a b : ℕ × Sample) : Prop :=
  a.2.timestamp < b.2.timestamp ∨ a.2.timestamp = b.2.timestamp ∧ a.1 ≤ b.1

instance : DecidableRel before := fun _ _ => inferInstanceAs (Decidable (_ ∨ _ ∧ _))

/-- The oldest samples, at most `limit`, and older than the cutoff if there is one. -/
def oldest (store : MetricStore) (olderThan : Option ℤ) (limit : ℕ) : List (ℕ × Sample) :=
  ((store.samples.rows.filter fun row =>
    olderThan.all fun cutoff => decide (row.2.timestamp < cutoff)).insertionSort before).take limit

/-- Series without samples, at most `limit`. -/
def emptySeries (store : MetricStore) (limit : ℕ) : List ℕ :=
  ((store.series.rows.filter fun row => store.samples.rows.all fun sample =>
    decide (sample.2.seriesId ≠ row.1)).take limit).map Prod.fst

/-- Delete samples, and the rollups of their series. -/
def deleteSamples (store : MetricStore) (victims : List (ℕ × Sample)) : MetricStore :=
  { store with
    samples := store.samples.delete fun row => decide (row.1 ∈ victims.map Prod.fst)
    rollups := store.rollups.filter fun row =>
      decide (row.seriesId ∉ victims.map fun victim => victim.2.seriesId) }

/-- Delete series, and with them their rollups. -/
def deleteSeries (store : MetricStore) (ids : List ℕ) : MetricStore :=
  { store with
    series := store.series.delete fun row => decide (row.1 ∈ ids)
    rollups := store.rollups.filter fun row => decide (row.seriesId ∉ ids) }

/-- Delete at most `limit` oldest samples and prune now-empty series. -/
def retainOldest (store : MetricStore) (olderThan : Option ℤ) (limit : ℕ)
    (fails : Option SqliteError) (checkpoint : Option MetricStoreError) :
    MetricStore × Except MetricStoreError ℕ :=
  if i64Max < limit then (store, .error .integerRange)
  else
    match fails with
    | some code => (store, .error (.sql code))
    | none =>
      let victims := store.oldest olderThan limit
      let left := store.deleteSamples victims
      let left := left.deleteSeries (left.emptySeries limit)
      let left := if victims = [] then left else { left with cache := [] }
      match checkpoint with
      | some error => (left, .error error)
      | none => (left, .ok victims.length)

/-! ### Rollups -/

/-- What a rollup must be to be written. -/
def validateRollup (row : MetricRollup) : Bool :=
  decide (0 < row.seriesId) && decide (0 < row.windowWidth) &&
    decide (row.windowStart % row.windowWidth = 0) &&
    decide (row.transform ∈ ([0, 1, 2, 50, 95, 99] : List ℤ)) &&
    decide (0 ≤ row.function ∧ row.function ≤ 3) &&
    (row.sourceBaselineSampleId.all fun id => decide (0 < id)) &&
    (row.value.all Binary64.isFinite) &&
    !(row.overflow && row.value.isSome) &&
    !(row.overflow && decide (row.transform ∉ ([50, 95, 99] : List ℤ))) &&
    !(decide (row.transform ∉ ([1, 2] : List ℤ)) && row.sourceBaselineSampleId.isSome)

/-- Write a row over the one of its key. -/
def upsert (rollups : List MetricRollup) (row : MetricRollup) : List MetricRollup :=
  (rollups.filter fun other => decide (other.key ≠ row.key)) ++ [row]

/-- Delete the rows of the oldest windows beyond a number of rows. -/
def pruned (rollups : List MetricRollup) (maxRows : ℕ) : List MetricRollup :=
  let victims := (rollups.insertionSort fun a b => a.windowStart ≤ b.windowStart).take
    (rollups.length - maxRows)
  rollups.filter fun row => decide (row ∉ victims)

/-- Apply a bound on the rollups without adding any. -/
def pruneRollups (store : MetricStore) (maxRows : ℕ) (fails : Option SqliteError) :
    MetricStore × Except MetricStoreError Unit :=
  match fails with
  | some code => (store, .error (.sql code))
  | none =>
    if i64Max < maxRows then (store, .error .integerRange)
    else ({ store with rollups := pruned store.rollups maxRows }, .ok ())

/-- Commit query-computed rollups and prune the oldest. -/
def commitRollups (store : MetricStore) (rows : List MetricRollup) (maxRows : ℕ)
    (fails : Option SqliteError) : MetricStore × Except MetricStoreError ℕ :=
  if rows = [] then (store, .ok 0)
  else if maxRows = 0 then
    match store.pruneRollups 0 fails with
    | (left, .ok ()) => (left, .ok 0)
    | (left, .error error) => (left, .error error)
  else if rows.any fun row => !validateRollup row then (store, .error .invalidRollup)
  else
    match fails with
    | some code => (store, .error (.sql code))
    | none =>
      -- every row must belong to a series
      if rows.any fun row => store.series.rows.all fun series => decide (series.1 ≠ row.seriesId)
      then (store, .error .foreignKey)
      else if i64Max < maxRows then (store, .error .integerRange)
      else
        ({ store with rollups := pruned (rows.foldl upsert store.rollups) maxRows },
          .ok rows.length)

/-! ### Reading samples -/

/-- The samples of a series, in the order of their ids. -/
def samplesOf (store : MetricStore) (seriesId : ℕ) : List (ℕ × Sample) :=
  store.samples.rows.filter fun row => decide (row.2.seriesId = seriesId)

end MetricStore

/-- The last of some samples before a time. -/
def precedingOf (samples : List (ℕ × Sample)) (since : ℤ) : Option (ℕ × Sample) :=
  ((samples.filter fun row => decide (row.2.timestamp < since)).insertionSort
    MetricStore.before).getLast?

/-- Those of some samples in a range of times, in order. -/
def scanOf (samples : List (ℕ × Sample)) (since until_ : ℤ) : List (ℕ × Sample) :=
  (samples.filter fun row =>
    decide (since ≤ row.2.timestamp) && decide (row.2.timestamp < until_)).insertionSort
      MetricStore.before

namespace MetricStore

/-- The last sample of a series before a time. -/
def preceding (store : MetricStore) (seriesId : ℕ) (since : ℤ) : Option (ℕ × Sample) :=
  precedingOf (store.samplesOf seriesId) since

/-- The samples of a series in a range of times, in order. -/
def scan (store : MetricStore) (seriesId : ℕ) (since until_ : ℤ) : List (ℕ × Sample) :=
  scanOf (store.samplesOf seriesId) since until_

end MetricStore

end Eventd
