import Eventd.Metric.Window

/-!
# Window queries and their cache

`execute_rollup_window_query` and `read_valid_rollups` of `eventd/src/query/executor.rs`: a
window query takes whole windows from the rollups if it finds a valid one for each, and
computes and proposes them for the cache otherwise.  Proposed rows reach the store through
a channel, at some later time or never.

A query is a program: each SQL statement sees the store as it is at that moment, and the
metric thread goes on writing between two of them.

* `readValidRollups`: the rollups that are trusted, on two ids;
* `executeRollupWindowQuery`, `executeMetric`: a window query;
* `MetricWorld`, `MetricAction`: the store, its writer, the queries under way and the
  proposed rows.
-/

namespace Eventd

open Interference

def transformCode : Option Transform → ℤ
  | none => 0
  | some .rate => 1
  | some .delta => 2
  | some (.percentile percentile) => percentile.value

def aggregateCode : AggregateFunction → ℤ
  | .avg => 0
  | .min => 1
  | .max => 2
  | .sum => 3

/-! ### Reading the cache -/

/-- A rollup is trusted if its window has no sample with a larger id than it knows of and,
for a pair transform, if the sample before the window is the one it knows of. -/
def MetricRollup.valid (row : MetricRollup) (samples : List (ℕ × Sample)) (pair : Bool) : Bool :=
  (samples.all fun sample =>
    !(decide (row.windowStart ≤ sample.2.timestamp) &&
      decide (sample.2.timestamp < row.windowStart + row.windowWidth) &&
      decide (row.sourceMaxSampleId < sample.1))) &&
  (!pair || decide (row.sourceBaselineSampleId =
    (precedingOf samples row.windowStart).map Prod.fst))

/-- The trusted rollups of the windows of a range. -/
def readValidRollups (store : MetricStore) (seriesId : ℕ) (first stop : ℤ) (spec : WindowSpec) :
    List MetricRollup :=
  store.rollups.filter fun row =>
    decide (row.seriesId = seriesId) && decide (first ≤ row.windowStart) &&
      decide (row.windowStart < stop) && decide (row.windowWidth = spec.width) &&
      decide (row.transform = transformCode spec.transform) &&
      decide (row.function = aggregateCode spec.function) &&
      row.valid (store.samplesOf seriesId) (isPairs spec.transform) &&
      row.value.all Binary64.isFinite

/-- The result of a cached window, if it has one. -/
def MetricRollup.cell (row : MetricRollup) : Option (ℤ × Value) :=
  match row.value with
  | some value => some (row.windowStart, .float value)
  | none => if row.overflow then some (row.windowStart, .null) else none

/-! ### A query -/

/-- The live settings of the cache; `sends` is whether there is a channel to the writer. -/
structure Limits where
  adaptiveRollupMaxRows : ℕ
  adaptiveRollupMinSamples : ℕ
  adaptiveRollupBatchRows : ℕ
  sends : Bool

/-- A metric query with a `WINDOW` aggregate: who asks, the name pattern, the label selector
if the query is bracketed, and the fields it refers to besides `value`. -/
structure WindowQuery (τ : Type) where
  authorizer : Authorizer τ
  limits : Option Limits
  namePattern : String
  globMatches : String → Bool
  labels : Option (Record → Bool)
  fields : List String
  hasSince : Bool
  hasPredicates : Bool
  hasCrossFilters : Bool
  transform : Option Transform
  function : AggregateFunction
  width : ℕ
  since : ℤ
  until_ : ℤ

namespace WindowQuery

variable {τ : Type} (query : WindowQuery τ)

def referenced : List String :=
  ((query.fields ++ ["value"]).insertionSort (· ≤ ·)).dedup

def spec : WindowSpec := ⟨query.transform, query.function, query.width⟩

def outputName (series : SeriesRef) : String :=
  if query.labels.isSome then series.name else query.namePattern

/-- The windows that lie in the range as a whole: where the first starts and where the last
ends. -/
def fullWindows : Except QueryError (ℤ × ℤ) := do
  let orInvalid (value : Option ℤ) : Except QueryError ℤ := value.elim (.error .invalidTime) .ok
  let width ← orInvalid (checkedI64 query.width)
  let first ←
    if query.since % width = 0 then pure query.since
    else do
      let next ← orInvalid (checkedI64 (query.since / width + 1))
      orInvalid (checkedI64 (next * width))
  let last ← orInvalid (checkedI64 (query.until_ / width * width))
  return (first, last)

end WindowQuery

/-- The starts of the windows of a range. -/
def windowStarts (width first stop : ℤ) : List ℤ :=
  (List.range ((stop - first) / width).toNat).map fun i : ℕ => first + i * width

/-- The row to be cached for a window: what the computed rows say of it, and the proof of
its freshness. -/
def proposedRollup (series : SeriesRef) (spec : WindowSpec) (rows : List MetricRow)
    (sources : RollupSources) (start : ℤ) : MetricRollup :=
  let row := rows.find? fun row => decide (row.time = start)
  let field (name : String) := row.bind fun row => row.record.lookup name
  { seriesId := series.id
    windowStart := start
    windowWidth := spec.width
    transform := transformCode spec.transform
    function := aggregateCode spec.function
    value :=
      match field "value" with
      | some (.float value) => some value
      | _ => none
    overflow :=
      match field "overflow" with
      | some (.bool true) => true
      | _ => false
    sourceMaxSampleId := (sources.proof start).1
    sourceBaselineSampleId := if isPairs spec.transform then (sources.proof start).2 else none }

/-- Propose the windows that are not cached, until the batch is full. -/
def propose (batchRows : ℕ) (series : SeriesRef) (spec : WindowSpec) (rows : List MetricRow)
    (sources : RollupSources) (cached : List MetricRollup) (pending : List MetricRollup)
    (starts : List ℤ) : List MetricRollup :=
  starts.foldl
    (fun pending start =>
      if pending.length < batchRows ∧ start ∉ cached.map MetricRollup.windowStart then
        pending ++ [proposedRollup series spec rows sources start]
      else pending)
    pending

section Query

variable {τ : Type} (query : WindowQuery τ)

/-- The windows of one series that are not whole, and those of the cache. -/
def completeSeries (series : SeriesRef) (template : MetricRow) (cached : List MetricRollup)
    (first stop : ℤ) : Fallible QueryError MetricStore (List MetricRow) := do
  let windows (lower upper : ℤ) : Fallible QueryError MetricStore (List MetricRow) :=
    if lower < upper then
      (seriesWindows query.authorizer query.referenced series query.spec (query.outputName series)
        lower upper >>= fun result => pure result.1)
    else pure []
  let rows := (cached.filterMap MetricRollup.cell).map fun cell =>
    metricAggregateRow template cell.2 cell.1 true (query.outputName series) series.metricType series.id
  let before ← windows query.since first
  let after ← windows stop query.until_
  return rows ++ before ++ after

/-- One series of a window query: its rows, and rows proposed for the cache. -/
def rollupSeries (limits : Limits) (first stop : ℤ)
    (state : List MetricRow × List MetricRollup) (series : SeriesRef) :
    Fallible QueryError MetricStore (List MetricRow × List MetricRollup) := do
  let cached ← read fun store => .ok (readValidRollups store series.id first stop query.spec)
  match ← lift (authorizeMetric query.authorizer query.referenced (metricTemplate series)) with
  | none => return state
  | some template =>
    if cached.length = ((stop - first) / query.spec.width).toNat then
      let rows ← completeSeries query series template cached first stop
      return (state.1 ++ rows, state.2)
    else
      let (rows, sources) ← seriesWindows query.authorizer query.referenced series query.spec
        (query.outputName series) query.since query.until_
      let pending :=
        if limits.adaptiveRollupMinSamples ≤ sources.count then
          propose limits.adaptiveRollupBatchRows series query.spec rows sources cached state.2
            (windowStarts query.spec.width first stop)
        else state.2
      return (state.1 ++ rows, pending)

/-- The cached way to the result of a window query, if the query can go it, and the rows
proposed for the cache. -/
def executeRollupWindowQuery (series : List SeriesRef) :
    Fallible QueryError MetricStore (Option (List MetricRow) × List MetricRollup) := do
  match query.limits with
  | none => return (none, [])
  | some limits =>
    if limits.adaptiveRollupMaxRows = 0 ∨ query.hasSince = false ∨ query.hasPredicates = true ∨
        query.hasCrossFilters = true ∨ query.labels.isNone ∧ series.length ≠ 1 then
      return (none, [])
    let (first, stop) ← lift query.fullWindows
    if stop ≤ first then return (none, [])
    if (checkedI64 (stop - first)).isNone then lift (.error .invalidTime)
    let (rows, pending) ← series.foldlM (rollupSeries query limits first stop) ([], [])
    return (some rows, if limits.sends then pending else [])

/-- Whether a transform fits the type of a series. -/
def validateMetricPipeline (metricType : MetricType) (transform : Option Transform) :
    Except QueryError Unit :=
  match metricType, transform with
  | .counter, none | .gauge, none => .ok ()
  | .counter, some .rate | .counter, some .delta => .ok ()
  | .histogram, some (.percentile _) => .ok ()
  | .histogram, _ => .error .histogramNeedsPercentile
  | .counter, some (.percentile _) | .gauge, some (.percentile _) =>
    .error .percentileNeedsHistogram
  | .gauge, some .rate | .gauge, some .delta => .error .rateNeedsCounter

/-- The series of the store that a query names. -/
def matchedSeries (store : MetricStore) (allowed : List String) : List SeriesRef :=
  (store.series.rows.map fun row =>
    (⟨row.1, row.2.name, row.2.metricType, parseLabels row.2.labels⟩ : SeriesRef)).filter
      fun series =>
        decide (series.name ∈ allowed) &&
          query.labels.all fun selector =>
            selector (KeyedList.insert "type" (.string series.metricType.name)
              (KeyedList.insert "name" (.string series.name) series.labels))

/-- A window query up to the choice of the way to its result: the rows of the cached way,
or nothing if it goes the other one, which never looks at the rollups. -/
def executeMetric :
    Fallible QueryError MetricStore (Option (List MetricRow) × List MetricRollup) := do
  let names ← read fun store =>
    .ok ((store.series.rows.map fun row => row.2.name).filter query.globMatches)
  let allowed ← lift ((query.authorizer.authorizeIdentifiers .metrics
    (names.insertionSort (· ≤ ·)).dedup query.referenced).mapError .security)
  if allowed = [] then return (some [], [])
  let series ← read fun store => .ok (matchedSeries query store allowed)
  match series with
  | [] => return (some [], [])
  | head :: rest =>
    if rest.any fun other => decide (other.metricType ≠ head.metricType) then
      lift (.error .mixedMetricTypes)
    lift (validateMetricPipeline head.metricType query.transform)
    executeRollupWindowQuery query series

end Query

/-! ### The store and its users -/

/-- A query under way, and the series from which samples have been deleted since it began. -/
structure Running where
  program : Fallible QueryError MetricStore (Option (List MetricRow) × List MetricRollup)
  touched : List ℕ

/-- Rows proposed for the cache, and the series from which samples have been deleted since
their query began.  Nothing in the code knows these series. -/
structure Proposed where
  rows : List MetricRollup
  touched : List ℕ

structure MetricWorld where
  store : MetricStore
  running : List Running
  proposed : List Proposed

/-- What happens next: the metric thread commits samples, deletes the oldest, writes rows that
some query has proposed, or bounds the cache; or a query begins, or makes its next read. -/
inductive MetricAction (τ : Type)
  | commit (records : List MetricRecord) (fails : Option (ℕ × SqliteError))
      (checkpoint : Option MetricStoreError)
  | retainOldest (olderThan : Option ℤ) (limit : ℕ) (fails : Option SqliteError)
      (checkpoint : Option MetricStoreError)
  | commitRollups (index maxRows : ℕ) (fails : Option SqliteError)
  | pruneRollups (maxRows : ℕ) (fails : Option SqliteError)
  | configure (cacheCapacity : ℕ)
  | begin (query : WindowQuery τ)
  | advance (index : ℕ)

namespace MetricWorld

variable {τ : Type}

/-- The world with another store, in which samples of some series have been deleted. -/
def withStore (world : MetricWorld) (store : MetricStore) (deleted : List ℕ) : MetricWorld where
  store := store
  running := world.running.map fun query => { query with touched := query.touched ++ deleted }
  proposed := world.proposed.map fun batch => { batch with touched := batch.touched ++ deleted }

/-- The series from which a store has fewer samples than before. -/
def deletedFrom (before after : MetricStore) : List ℕ :=
  (before.samples.rows.filter fun row => decide (row ∉ after.samples.rows)).map
    fun row => row.2.seriesId

/-- A query makes its next read.  When it is done, what it proposes is on its way. -/
def advance (world : MetricWorld) (query : Running) (others : List Running) : MetricWorld :=
  let program := query.program.run.advance world.store
  match program.result with
  | none => { world with running := others ++ [{ query with program := .mk program }] }
  | some (.error _) => { world with running := others }
  | some (.ok (_, [])) => { world with running := others }
  | some (.ok (_, rows)) =>
    { world with
      running := others
      proposed := world.proposed ++ [⟨rows, query.touched⟩] }

def step (world : MetricWorld) : MetricAction τ → MetricWorld
  | .commit records fails checkpoint =>
    world.withStore (world.store.commit records fails checkpoint).1 []
  | .retainOldest olderThan limit fails checkpoint =>
    let store := (world.store.retainOldest olderThan limit fails checkpoint).1
    world.withStore store (deletedFrom world.store store)
  | .commitRollups index maxRows fails =>
    match world.proposed[index]? with
    | none => world
    | some batch =>
      { world with
        store := (world.store.commitRollups batch.rows maxRows fails).1
        proposed := world.proposed.eraseIdx index }
  | .pruneRollups maxRows fails =>
    { world with store := (world.store.pruneRollups maxRows fails).1 }
  | .configure cacheCapacity =>
    { world with store := world.store.configure cacheCapacity }
  | .begin query =>
    { world with running := world.running ++ [⟨executeMetric query, []⟩] }
  | .advance index =>
    match world.running[index]? with
    | none => world
    | some query => world.advance query (world.running.eraseIdx index)

def run (world : MetricWorld) (actions : List (MetricAction τ)) : MetricWorld :=
  actions.foldl step world

end MetricWorld

end Eventd
