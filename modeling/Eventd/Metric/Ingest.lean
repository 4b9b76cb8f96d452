import Eventd.Lib.MessageReader
import Eventd.Core.FieldPath
import Eventd.Query.Equality
import Eventd.Metric.Store

/-!
# Metric datagrams

The parser of `eventd/src/metric_ingest.rs`.  A datagram is one record or an array of them, read
by a reader that goes through it once.  A record that is not accepted is left out; the others of
its datagram are read on from where the reader has got to.

* `readNumberArray`, `readCountArray`, `parseHistogram`, `parseLabels`, `parseRecord`;
* `parseDatagram`: all records of a datagram;
* `receiveMetrics`: the records that go on to the batch, and what is counted.
-/

namespace Eventd.MetricIngest

open MessagePack MessagePack.Read

/-! ### Numbers -/

/-- A finite number. -/
def readNumber [Reader] : Read Binary64 := do
  match ← peek with
  | some .float =>
    let value ← readFloat
    ensure value.isFinite
    return value
  | some .int =>
    match ← attempt readInt with
    | some value =>
      ensure (Binary64.ofInt value).isFinite
      return .ofInt value
    | none =>
      let value ← readUint
      ensure (Binary64.ofInt value).isFinite
      return .ofInt value
  | _ => fail

def readNonnegativeInteger [Reader] : Read ℕ := do
  match ← attempt readUint with
  | some value => return value
  | none =>
    let value ← readInt
    ensure (decide (0 ≤ value))
    return value.toNat

def readTimestamp [Reader] : Read ℤ := do
  match ← attempt readInt with
  | some value =>
    ensure (decide (0 ≤ value))
    return value
  | none =>
    let value ← readUint
    ensure (decide (value ≤ i64Max))
    return value

def readNumberArray [Reader] : Read (List Binary64) := readItems readNumber

def readCountArray [Reader] : Read (List ℕ) := readItems readNonnegativeInteger

/-! ### Histograms -/

/-- The fields of a histogram read so far. -/
structure HistogramFields where
  seen : List String
  boundaries : Option (List Binary64)
  counts : Option (List ℕ)
  totalCount : Option ℕ
  sum : Option Binary64
  valid : Bool

def HistogramFields.see (fields : HistogramFields) (key : String) : HistogramFields :=
  { fields with
    seen := key :: fields.seen
    valid := fields.valid && !fields.seen.contains key }

/-- Read the value of a field of a histogram. -/
def histogramValue [Reader] (fields : HistogramFields) (key : String) : Read HistogramFields := do
  let fields := fields.see key
  let next ← peek
  if key = "boundaries" ∧ next = some .array then
    let boundaries ← attempt readNumberArray
    return { fields with boundaries, valid := fields.valid && boundaries.isSome }
  else if key = "counts" ∧ next = some .array then
    let counts ← attempt readCountArray
    return { fields with counts, valid := fields.valid && counts.isSome }
  else if key = "total_count" ∧ next = some .int then
    let totalCount ← attempt readNonnegativeInteger
    return { fields with totalCount, valid := fields.valid && totalCount.isSome }
  else if key = "sum" ∧ (next = some .int ∨ next = some .float) then
    let sum ← attempt readNumber
    return { fields with sum, valid := fields.valid && sum.isSome }
  else
    skip
    return fields

/-- Whether each element of a list and the next are in a relation. -/
def pairwiseNext {α : Type} (related : α → α → Bool) (l : List α) : Bool :=
  (l.zip l.tail).all fun pair => related pair.1 pair.2

def isZero (number : Binary64) : Bool := number.partialCmp (.ofInt 0) == some .eq

/-- What the fields of a histogram must be. -/
def validHistogram (histogram : Histogram) : Bool :=
  !histogram.boundaries.isEmpty &&
    histogram.boundaries.length == histogram.counts.length &&
    pairwiseNext Binary64.lt histogram.boundaries &&
    pairwiseNext (fun count next => decide (count ≤ next)) histogram.counts &&
    histogram.counts.all (fun count => decide (count ≤ histogram.totalCount)) &&
    (histogram.totalCount != 0 ||
      isZero histogram.sum && histogram.counts.all fun count => count == 0)

/-- The histogram that fields make, if they are all there and valid. -/
def HistogramFields.histogram (fields : HistogramFields) : Option Histogram := do
  let boundaries ← fields.boundaries
  let counts ← fields.counts
  let totalCount ← fields.totalCount
  let sum ← fields.sum
  let histogram : Histogram := { boundaries, counts, totalCount, sum }
  if fields.valid && validHistogram histogram then some histogram else none

def parseHistogram [Reader] : Read Histogram := do
  let fields ← readMembers (fun fields => { fields with valid := false }) histogramValue
    ⟨[], none, none, none, none, true⟩
  ofOption fields.histogram

/-! ### Labels -/

def isIdentifierByte (byte : UInt8) : Bool :=
  isAsciiAlphabetic byte || isAsciiDigit byte || byte == 0x5f || byte == 0x2e ||
    byte == 0x2d

def validIdentifier (value : String) : Bool :=
  match bytesOf value with
  | [] => false
  | first :: bytes => (isAsciiAlphabetic first || first == 0x5f) && bytes.all isIdentifierByte

def validLabelKey (value : String) : Bool :=
  validIdentifier value &&
    decide (value ∉ ["timestamp", "boot_id", "name", "type", "value", "overflow"])

/-- The labels read so far. -/
structure LabelFields where
  labels : List (String × String)
  valid : Bool

/-- Read the value of a label. -/
def labelValue [Reader] (fields : LabelFields) (key : String) : Read LabelFields := do
  if (← peek) = some .str then
    let value ← readStr
    let fresh := !(fields.labels.map Prod.fst).contains key
    let plain := !(bytesOf value).any fun byte => byte == 0x3d || byte == 0x2c
    return {
      labels := fields.labels ++ [(key, value)]
      valid := fields.valid && (fresh && validLabelKey key && !(bytesOf value).isEmpty && plain) }
  else
    skip
    return { fields with valid := false }

/-- Labels sorted by key, each `key=value`, joined with commas. -/
def canonicalLabels (labels : List (String × String)) : String :=
  let sorted := labels.insertionSort fun left right =>
    (compare (bytesOf left.1) (bytesOf right.1)).isLE = true
  ",".intercalate (sorted.map fun label => label.1 ++ "=" ++ label.2)

def parseLabels [Reader] : Read String := do
  let fields ← readMembers (fun fields => { fields with valid := false }) labelValue ⟨[], true⟩
  ensure fields.valid
  return canonicalLabels fields.labels

/-! ### Records -/

inductive WireValue
  | number (value : Binary64)
  | histogram (value : Histogram)

def parseWireValue [Reader] : Read WireValue := do
  match ← peek with
  | none => fail
  | some .int | some .float =>
    let value ← readNumber
    return .number value
  | some .map =>
    let value ← parseHistogram
    return .histogram value
  | some _ =>
    skip
    fail

def metricTypeOf (name : String) : Option MetricType :=
  if name = "counter" then some .counter
  else if name = "gauge" then some .gauge
  else if name = "histogram" then some .histogram
  else none

/-- The fields of a record read so far. -/
structure RecordFields where
  seen : List String
  name : Option String
  labels : Option String
  metricType : Option MetricType
  timestamp : Option ℤ
  timestampPresent : Bool
  value : Option WireValue
  valid : Bool

def RecordFields.see (fields : RecordFields) (key : String) : RecordFields :=
  { fields with
    seen := key :: fields.seen
    valid := fields.valid && !fields.seen.contains key }

/-- Read the value of a field of a record. -/
def recordValue [Reader] (fields : RecordFields) (key : String) : Read RecordFields := do
  let fields := fields.see key
  let next ← peek
  if key = "name" ∧ next = some .str then
    let name ← readStr
    return { fields with name := some name }
  else if key = "labels" ∧ next = some .map then
    let labels ← attempt parseLabels
    return { fields with labels, valid := fields.valid && labels.isSome }
  else if key = "type" ∧ next = some .str then
    let name ← readStr
    return { fields with metricType := metricTypeOf name }
  else if key = "timestamp" ∧ next = some .int then
    let timestamp ← attempt readTimestamp
    return { fields with
      timestamp, timestampPresent := true, valid := fields.valid && timestamp.isSome }
  else if key = "timestamp" then
    skip
    return { fields with timestampPresent := true, valid := false }
  else if key = "value" then
    let value ← attempt parseWireValue
    return { fields with value, valid := fields.valid && value.isSome }
  else
    skip
    return fields

/-- The value that a type and a wire value make. -/
def metricValueOf : MetricType → WireValue → Option MetricValue
  | .counter, .number number => if number.ge (.ofInt 0) then some (.number number) else none
  | .gauge, .number number => some (.number number)
  | .histogram, .histogram histogram => some (.histogram histogram)
  | _, _ => none

/-- The record that fields make.  A timestamp that is there is one that could be read, if the
fields are valid. -/
def RecordFields.record (fields : RecordFields) (bootId : Guid) (receiptTimestamp : ℤ) :
    Option MetricRecord := do
  let name ← fields.name.filter validIdentifier
  let metricType ← fields.metricType
  let wire ← fields.value
  let value ← metricValueOf metricType wire
  if fields.valid then
    some {
      bootId
      timestamp :=
        if fields.timestampPresent then fields.timestamp.getD receiptTimestamp
        else receiptTimestamp
      name
      labels := fields.labels.getD ""
      metricType
      value }
  else none

def parseRecord [Reader] (bootId : Guid) (receiptTimestamp : ℤ) : Read MetricRecord := do
  let fields ← readMembers (fun fields => { fields with valid := false }) recordValue
    ⟨[], none, none, none, none, false, none, true⟩
  ofOption (fields.record bootId receiptTimestamp)

/-! ### Datagrams -/

/-- Read an element of an array, which must be a map. -/
def parseElement [Reader] (bootId : Guid) (receiptTimestamp : ℤ) (records : List MetricRecord) :
    Read (List MetricRecord) := do
  if (← peek) = some .map then
    let record ← attempt (parseRecord bootId receiptTimestamp)
    return records ++ record.toList
  else fail

/-- The records of a datagram. -/
def parseRecords [Reader] (bootId : Guid) (receiptTimestamp : ℤ) : Read (List MetricRecord) := do
  match ← peek with
  | some .map =>
    let record ← attempt (parseRecord bootId receiptTimestamp)
    return record.toList
  | some .array =>
    let count ← readArray
    iterate (parseElement bootId receiptTimestamp) count []
  | _ => fail

/-- The records of a datagram that is valid MessagePack and is read to its end. -/
def parseDatagram [Reader] (validate : List UInt8 → Bool) (bootId : Guid) (receiptTimestamp : ℤ)
    (bytes : List UInt8) : Option (List MetricRecord) :=
  if validate bytes then
    match parseRecords bootId receiptTimestamp bytes with
    | (some records, []) => some records
    | _ => none
  else none

/-- The counters of metric ingestion. -/
structure MetricDiagnostics where
  missingIdentity : ℕ
  truncated : ℕ
  unauthorizedRecords : ℕ
  authorizationErrors : ℕ
  deriving DecidableEq

/-- What the socket gives; a datagram with the sender's token, if it has one. -/
inductive TokenReceive (Token : Type)
  | datagram (bytes : List UInt8) (token : Option Token)
  | truncated
  | empty

/-- The records of a received datagram that go on to the batch, and the counters.  `authorize`
gives the records that their sender may publish and how many it may not, or nothing if the check
fails. -/
def receiveMetrics [Reader] {Token : Type} (validate : List UInt8 → Bool)
    (authorize : Token → List MetricRecord → Option (List MetricRecord × ℕ)) (bootId : Guid)
    (receiptTimestamp : ℤ) (diagnostics : MetricDiagnostics) :
    TokenReceive Token → List MetricRecord × MetricDiagnostics
  | .datagram bytes (some token) =>
    match parseDatagram validate bootId receiptTimestamp bytes with
    | none => ([], diagnostics)
    | some records =>
      match authorize token records with
      | some (records, rejected) =>
        (records, { diagnostics with
          unauthorizedRecords := diagnostics.unauthorizedRecords + rejected })
      | none =>
        ([], { diagnostics with authorizationErrors := diagnostics.authorizationErrors + 1 })
  | .datagram _ none => ([], { diagnostics with missingIdentity := diagnostics.missingIdentity + 1 })
  | .truncated => ([], { diagnostics with truncated := diagnostics.truncated + 1 })
  | .empty => ([], diagnostics)

end Eventd.MetricIngest
