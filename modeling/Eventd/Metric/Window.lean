import Eventd.Lib.Interference
import Eventd.Query.Language
import Eventd.Metric.Store

/-!
# Windows of a series

The metric pipeline of `eventd/src/query/executor.rs` for one series: its samples are read
in order, transformed, and folded into windows of one width.

* `readMetricInput`, `authorizeMetric`: a sample as a row, and what a caller sees of it;
* `Transformer.push`: `RATE`, `DELTA`, a percentile, or the value itself;
* `Fold`, `Windows`: points folded into windows, one row for each;
* `RollupSources`: for each window the largest id in it and the last id.
* `seriesWindows`: the windows of one series over a range of times.
-/

namespace Eventd

open KeyedList Interference

/-- Whether a transform works on pairs of samples. -/
def isPairs : Option Transform → Bool
  | some .rate | some .delta => true
  | _ => false

/-- A metric record on its way to the result: its time orders and windows it whether or not
the caller may read it. -/
structure MetricRow extends Row Value where
  time : ℤ
  metricLabels : String
  tie : ℤ

/-- One matched metric series. -/
structure SeriesRef where
  id : ℕ
  name : String
  metricType : MetricType
  labels : Record

def MetricType.name : MetricType → String
  | .counter => "counter"
  | .gauge => "gauge"
  | .histogram => "histogram"

/-- The fields of a metric record that are not labels. -/
def metricFields : List String := ["timestamp", "boot_id", "name", "type", "value", "overflow"]

/-- The labels `key=value`, joined with commas. -/
def canonicalLabels (record : Record) : String :=
  String.intercalate "," ((record.filter fun entry => decide (entry.1 ∉ metricFields)).map
    fun entry => entry.1 ++ "=" ++
      match entry.2 with
      | .string value => value
      | _ => "")

/-- One pair of a canonical label text. -/
def splitOnce (text : List Char) : Option (String × Value) :=
  let key := text.takeWhile (· ≠ '=')
  match text.drop key.length with
  | [] => none
  | _ :: value => some (String.ofList key, .string (String.ofList value))

def parseLabels (canonical : String) : Record :=
  if canonical.toList = [] then []
  else
    ((canonical.toList.splitOn ',').filterMap splitOnce).foldl
      (fun record entry => insert entry.1 entry.2 record) []

/-- The record of a sample, or of a series if there is none. -/
def metricRecord (series : SeriesRef) (timestamp : ℤ) (bootId value : Value) : Record :=
  [("timestamp", Value.signed (.ofInt timestamp)), ("boot_id", bootId),
    ("name", .string series.name), ("type", .string series.metricType.name),
    ("value", value)].foldl
      (fun record entry => insert entry.1 entry.2 record) series.labels

/-- A row of a series that no sample belongs to. -/
def metricTemplate (series : SeriesRef) : MetricRow where
  identifier := series.name
  record := metricRecord series 0 .null .null
  time := 0
  metricLabels := canonicalLabels series.labels
  tie := 0

structure MetricInput where
  row : MetricRow
  number : Binary64
  histogram : Option Histogram

/-- A sample as it is read. -/
def readMetricInput (series : SeriesRef) (sample : ℕ × Sample) : Except QueryError MetricInput :=
  if sample.2.value.isFinite then
    .ok
      { row :=
          { identifier := series.name
            record := metricRecord series sample.2.timestamp
              (.string (guidString sample.2.bootId))
              (if series.metricType = .histogram then .null else .float sample.2.value)
            time := sample.2.timestamp
            metricLabels := canonicalLabels series.labels
            tie := sample.1 }
        number := sample.2.value
        histogram := sample.2.histogramData }
  else .error .nonFinite

/-- What a caller sees of a row, if anything. -/
def authorizeMetric {τ : Type} (authorizer : Authorizer τ) (referenced : List String)
    (row : MetricRow) : Except QueryError (Option MetricRow) :=
  match authorizeRow authorizer .metrics row.toRow referenced with
  | .error error => .error (.security error)
  | .ok none => .ok none
  | .ok (some kept) => .ok (some { row with toRow := kept })

/-! ### Transforms -/

structure MetricPoint where
  row : MetricRow
  adjustedDelta : Option Binary64
  elapsedNs : Option ℤ

inductive PercentileValue
  | empty
  | finite (value : Binary64)
  | overflow
  deriving DecidableEq

/-- The first boundary whose cumulative count reaches the rank. -/
def histogramPercentile (histogram : Histogram) (percentile : Percentile) :
    Except QueryError PercentileValue :=
  if histogram.totalCount = 0 then .ok .empty
  else if u64Max < histogram.totalCount * percentile.value + 99 then .error .invalidHistogram
  else
    let rank := (histogram.totalCount * percentile.value + 99) / 100
    match (histogram.boundaries.zip histogram.counts).find?
        fun bucket => decide (rank ≤ bucket.2) with
    | some bucket => .ok (.finite bucket.1)
    | none => .ok .overflow

def setMetricResult (record : Record) (value : Value) (overflow : Bool) : Record :=
  let record := insert "value" value record
  if overflow then insert "overflow" (.bool true) record
  else erase "overflow" record

def finiteValue (value : Binary64) : Except QueryError Value :=
  if value.isFinite then .ok (.float value) else .error .nonFinite

def MetricRow.withRecord (row : MetricRow) (record : Record) : MetricRow :=
  { row with toRow := { row.toRow with record := record } }

/-- The transform stage for one series: it holds at most the sample before. -/
structure Transformer where
  transform : Option Transform
  since : ℤ
  previous : Option (ℤ × Binary64)

/-- One billion, and the number of nanoseconds of a second. -/
def billion : Binary64 := .ofInt 1000000000

namespace Transformer

/-- The point of a percentile, if the histogram is not empty. -/
def percentilePoint (input : MetricInput) (percentile : Percentile) :
    Except QueryError (Option MetricPoint) :=
  match input.histogram with
  | none => .error .invalidHistogram
  | some histogram => do
      match ← histogramPercentile histogram percentile with
      | .empty => return none
      | .finite value =>
        let value ← finiteValue value
        return some
          ⟨input.row.withRecord (setMetricResult input.row.record value false), none, none⟩
      | .overflow =>
        return some
          ⟨input.row.withRecord (setMetricResult input.row.record .null true), none, none⟩

/-- The point of a pair of samples. -/
def pairPoint (rate : Bool) (since : ℤ) (earlier : ℤ × Binary64) (input : MetricInput) :
    Except QueryError (Option MetricPoint) := do
  let elapsed := saturatingSub input.row.time earlier.1
  if input.row.time < since ∨ elapsed ≤ 0 then return none
  let delta := if input.number.ge earlier.2 then input.number.sub earlier.2 else input.number
  let value ← finiteValue (if rate then (delta.mul billion).div (.ofInt elapsed) else delta)
  return some
    ⟨input.row.withRecord (insert "value" value input.row.record), some delta, some elapsed⟩

def push (transformer : Transformer) (input : MetricInput) :
    Except QueryError (Transformer × Option MetricPoint) := do
  match transformer.transform with
  | none =>
    return (transformer,
      if transformer.since ≤ input.row.time then some ⟨input.row, none, none⟩ else none)
  | some (.percentile percentile) =>
    if input.row.time < transformer.since then return (transformer, none)
    return (transformer, ← percentilePoint input percentile)
  | some transform =>
    let next := { transformer with previous := some (input.row.time, input.number) }
    match transformer.previous with
    | none => return (next, none)
    | some earlier =>
      return (next, ← pairPoint (transform == .rate) transformer.since earlier input)

end Transformer

/-! ### Windows -/

/-- The values of a window so far, in the order in which they came. -/
structure Tally where
  numeric : Numeric
  overflow : Bool
  delta : Binary64
  elapsed : Option ℤ
  latest : ℤ

/-- One window's aggregation, with the row that its labels are taken from. -/
structure Fold extends Tally where
  template : MetricRow

namespace Tally

/-- Before the first point. -/
def empty : Tally where
  numeric := .new
  overflow := false
  delta := .negZero
  elapsed := some 0
  latest := -(i64Max : ℤ) - 1

def push (tally : Tally) (point : MetricPoint) : Tally where
  numeric := (point.row.record.lookup "value").elim tally.numeric tally.numeric.push
  overflow :=
    match point.row.record.lookup "overflow" with
    | some (.bool true) => true
    | _ => tally.overflow
  delta := point.adjustedDelta.elim tally.delta tally.delta.add
  elapsed := point.elapsedNs.elim tally.elapsed fun elapsed =>
    tally.elapsed.bind fun total => checkedI64 (total + elapsed)
  latest := max tally.latest point.row.time

/-- A window of a `RATE` or `DELTA` is the sum of its pairs' deltas, over the time they
cover for `RATE`; anything else is `function` over the values, or the overflow result. -/
def value (tally : Tally) (function : AggregateFunction) (pairs : Option Transform) :
    Except QueryError Value :=
  match pairs with
  | some .rate =>
    match tally.elapsed with
    | none => .error .invalidTime
    | some elapsed => finiteValue ((tally.delta.mul billion).div (.ofInt elapsed))
  | some .delta => finiteValue tally.delta
  | _ => if tally.overflow then .ok .null else tally.numeric.finish function

end Tally

namespace Fold

/-- Keep a header only if the point has it too. -/
def trim (template : MetricRow) (point : MetricPoint) : MetricRow :=
  template.withRecord (["timestamp", "name", "type"].foldl
    (fun record field =>
      if (point.row.record.lookup field).isSome then record else erase field record)
    template.record)

def push (fold : Fold) (point : MetricPoint) : Fold where
  toTally := fold.toTally.push point
  template := trim fold.template point

def new (point : MetricPoint) : Fold := push ⟨.empty, point.row⟩ point

end Fold

/-- The start of the window of a time.  Ingestion takes no negative time, so that it fits. -/
def windowStart (width time : ℤ) : ℤ := time / width * width

/-- Points folded into windows, in the order of their starts. -/
abbrev Windows := List (ℤ × Fold)

def Windows.push (width : ℤ) (windows : Windows) (point : MetricPoint) : Windows :=
  let start := windowStart width point.row.time
  insert start
    ((windows.lookup start).elim (Fold.new point) fun fold => fold.push point) windows

/-- The row of a window. -/
def metricAggregateRow (template : MetricRow) (value : Value) (outputTimestamp : ℤ)
    (retainLabels : Bool) (outputName : String) (metricType : MetricType) (tie : ℤ) : MetricRow :=
  let record := erase "boot_id" (if retainLabels then template.record else [])
  let record :=
    [("timestamp", Value.signed (.ofInt outputTimestamp)), ("name", .string outputName),
      ("type", .string metricType.name)].foldl
        (fun record entry =>
          if (template.record.lookup entry.1).isSome then
            insert entry.1 entry.2 record
          else record)
        record
  { identifier := outputName
    record := setMetricResult record value (match value with | .null => true | _ => false)
    time := outputTimestamp
    metricLabels := if retainLabels then template.metricLabels else ""
    tie := tie }

/-- One row for each window, with a tiebreaker or else the start of the window as one. -/
def Windows.rows (windows : Windows) (function : AggregateFunction) (pairs : Option Transform)
    (retainLabels : Bool) (outputName : Option String) (metricType : MetricType) (tie : Option ℤ) :
    Except QueryError (List MetricRow) :=
  windows.mapM fun entry => do
    let value ← entry.2.value function pairs
    return metricAggregateRow entry.2.template value entry.1 retainLabels
      (outputName.getD entry.2.template.identifier) metricType (tie.getD entry.1)

/-! ### The proofs of freshness -/

/-- For each window the largest id of the visible samples in it and the id of the last, and
how many samples there were. -/
structure RollupSources where
  windows : List (ℤ × ℕ × ℕ)
  count : ℕ

namespace RollupSources

def new : RollupSources := ⟨[], 0⟩

def push (sources : RollupSources) (width time : ℤ) (id : ℕ) : RollupSources where
  windows :=
    let start := windowStart width time
    insert start
      ((sources.windows.lookup start).elim (id, id) fun known => (max known.1 id, id))
      sources.windows
  count := sources.count + 1

/-- The largest id in a window, zero if there is none, and the id of the last sample
before the window. -/
def proof (sources : RollupSources) (start : ℤ) : ℕ × Option ℕ :=
  (((sources.windows.lookup start).map Prod.fst).getD 0,
    ((sources.windows.filter fun entry => decide (entry.1 < start)).getLast?).map fun entry =>
      entry.2.2)

end RollupSources

/-! ### One series -/

/-- The state of a read of one series. -/
structure SeriesRead where
  sources : RollupSources
  transformer : Transformer
  windows : Windows

/-- Take one sample that is read. -/
def SeriesRead.take {τ : Type} (authorizer : Authorizer τ) (referenced : List String)
    (series : SeriesRef) (width : ℤ) (state : SeriesRead) (sample : ℕ × Sample) :
    Except QueryError SeriesRead := do
  let input ← readMetricInput series sample
  match ← authorizeMetric authorizer referenced input.row with
  | none => return state
  | some row =>
    let (transformer, point) ← state.transformer.push { input with row := row }
    return ⟨state.sources.push width row.time row.tie.toNat, transformer,
      point.elim state.windows (Windows.push width state.windows)⟩

/-- What a window query asks of each series. -/
structure WindowSpec where
  transform : Option Transform
  function : AggregateFunction
  width : ℤ

/-- One series' windows over a range of times, with the proofs of their freshness.  A pair
transform gets the sample before the range first; no sample is before all times. -/
def seriesWindows {τ : Type} (authorizer : Authorizer τ) (referenced : List String)
    (series : SeriesRef) (spec : WindowSpec) (outputName : String) (since until_ : ℤ) :
    Fallible QueryError MetricStore (List MetricRow × RollupSources) := do
  let start : SeriesRead := ⟨.new, ⟨spec.transform, since, none⟩, []⟩
  let preceding ←
    if isPairs spec.transform then read fun store => .ok (store.preceding series.id since)
    else pure none
  let state ← lift (preceding.toList.foldlM
    (SeriesRead.take authorizer referenced series spec.width) start)
  let samples ← read fun store => .ok (store.scan series.id since until_)
  let state ← lift (samples.foldlM
    (SeriesRead.take authorizer referenced series spec.width) state)
  let rows ← lift (state.windows.rows spec.function
    (if isPairs spec.transform then spec.transform else none) true
    (some outputName) series.metricType (some series.id))
  return (rows, state.sources)

end Eventd
