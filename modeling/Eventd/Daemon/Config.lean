import Eventd.Query.Equality

/-!
# Configuration from the registry

`eventd/src/config.rs`: the values that are read at startup and reloaded at runtime, and the
records of the changes that a reload applies.

* `Setting`: every value that is reloaded at runtime;
* `Setting.schema`, `Setting.reloadCheck`, `documentedKeys`: its type, default, range and unit
  as `from_values` has them, as `reload` repeats them and as they are documented;
* `Config.fromValues`, `Config.reload`: the configuration at startup, and after a reload;
* `Config.appliedChanges`, `applyReload`: what is reported.
-/

namespace Eventd

/-! ### The registry -/

inductive ValueType
  | sz
  | dword
  | qword
  | other (code : ℕ)
  deriving DecidableEq

/-- A stored value. -/
structure ValueRecord where
  ty : ValueType
  data : List UInt8
  deriving DecidableEq

/-- The values under the root key, by name. -/
abbrev Registry := String → Option ValueRecord

/-- The number whose little-endian bytes are given. -/
def leNat (bytes : List UInt8) : ℕ := bytes.foldr (fun byte total => byte.toNat + 256 * total) 0

inductive IntegerType
  | dword
  | qword
  deriving DecidableEq

def IntegerType.valueType : IntegerType → ValueType
  | .dword => .dword
  | .qword => .qword

def IntegerType.width : IntegerType → ℕ
  | .dword => 4
  | .qword => 8

/-- The integer that a record of the type holds. -/
def IntegerType.read (type : IntegerType) (record : ValueRecord) : Option ℕ :=
  if record.ty = type.valueType ∧ record.data.length = type.width then some (leNat record.data)
  else none

/-! ### Settings -/

/-- How a value is kept in its field, and reported. -/
inductive Measure
  | plain
  | milliseconds
  | seconds (divisor : ℕ)
  deriving DecidableEq

/-- How much of a field is one; a duration is kept in nanoseconds. -/
def Measure.scale : Measure → ℕ
  | .plain => 1
  | .milliseconds => 1000000
  | .seconds divisor => divisor * 1000000000

/-- The integer of a field. -/
def Measure.integer : Measure → ℕ → ℕ
  | .plain, field => min field u64Max
  | .milliseconds, field => min (field / 1000000) u64Max
  | .seconds divisor, field => field / 1000000000 / divisor

/-- What is checked of a stored value: its name, its type and its range. -/
structure Check where
  name : String
  type : IntegerType
  minimum : ℕ
  maximum : ℕ

structure Key extends Check where
  default : ℕ

structure Schema extends Key where
  unit : Measure

def validDword (name : String) (minimum maximum : ℕ) : Check := ⟨name, .dword, minimum, maximum⟩

/-- A `REG_QWORD` has no range of its own. -/
def validQword (name : String) : Check := ⟨name, .qword, 0, u64Max⟩

def dword (name : String) (default minimum maximum : ℕ) (unit : Measure) : Schema :=
  ⟨⟨⟨name, .dword, minimum, maximum⟩, default⟩, unit⟩

def qword (name : String) (default : ℕ) : Schema := ⟨⟨⟨name, .qword, 0, u64Max⟩, default⟩, .plain⟩

/-- A row of a table of the documentation. -/
def regDword (name : String) (default minimum maximum : ℕ) : Key :=
  ⟨⟨name, .dword, minimum, maximum⟩, default⟩

def regQword (name : String) (default maximum : ℕ) : Key := ⟨⟨name, .qword, 0, maximum⟩, default⟩

/-- The values that are reloaded at runtime. -/
inductive Setting
  | walCheckpointPages
  | maxBatchSize
  | maxBatchLatency
  | logMaxBatchSize
  | logMaxBatchLatency
  | maxLogDatagramBytes
  | metricMaxBatchSize
  | metricMaxBatchLatency
  | maxMetricDatagramBytes
  | metricSeriesCacheSize
  | metricAuthorizationCacheSize
  | healthMetricInterval
  | adaptiveIndexWindow
  | adaptiveIndexPolicyInterval
  | adaptiveIndexCreateThreshold
  | adaptiveIndexDropThreshold
  | sheddingWindow
  | sheddingBatchPercent
  | emergencySheddingBufferPercent
  | eventRetention
  | eventRetentionMaxBytes
  | logRetention
  | logRetentionMaxBytes
  | metricRetention
  | metricRetentionMaxBytes
  | retentionInterval
  | retentionDeleteBatchRows
  | queryTimeout
  | maxConcurrentQueries
  | maxStreamingQueries
  | maxQueriesPerUser
  | maxDistinctStreamValues
  | maxQueryRequestBytes
  | queryResponseTargetBytes
  | maxQueryHeldBytes
  | adaptiveRollupMinSamples
  | adaptiveRollupBatchRows
  | adaptiveRollupMaxRows
  | crossTypeWindow
  | crossTypeMaxLookback
  deriving DecidableEq

namespace Setting

/-- In the order in which changes are reported. -/
def all : List Setting :=
  [walCheckpointPages, maxBatchSize, maxBatchLatency, logMaxBatchSize, logMaxBatchLatency,
    maxLogDatagramBytes, metricMaxBatchSize, metricMaxBatchLatency, maxMetricDatagramBytes,
    metricSeriesCacheSize, metricAuthorizationCacheSize, healthMetricInterval, adaptiveIndexWindow,
    adaptiveIndexPolicyInterval, adaptiveIndexCreateThreshold, adaptiveIndexDropThreshold,
    sheddingWindow, sheddingBatchPercent, emergencySheddingBufferPercent, eventRetention,
    eventRetentionMaxBytes, logRetention, logRetentionMaxBytes, metricRetention,
    metricRetentionMaxBytes, retentionInterval, retentionDeleteBatchRows, queryTimeout,
    maxConcurrentQueries, maxStreamingQueries, maxQueriesPerUser, maxDistinctStreamValues,
    maxQueryRequestBytes, queryResponseTargetBytes, maxQueryHeldBytes, adaptiveRollupMinSamples,
    adaptiveRollupBatchRows, adaptiveRollupMaxRows, crossTypeWindow, crossTypeMaxLookback]

/-- What `from_values` reads. -/
def schema : Setting → Schema
  | walCheckpointPages => dword "WalCheckpointPages" 1000 100 100000 .plain
  | maxBatchSize => dword "MaxBatchSize" 10000 100 100000 .plain
  | maxBatchLatency => dword "MaxBatchLatencyMs" 100 10 5000 .milliseconds
  | logMaxBatchSize => dword "LogMaxBatchSize" 5000 100 100000 .plain
  | logMaxBatchLatency => dword "LogMaxBatchLatencyMs" 500 10 5000 .milliseconds
  | maxLogDatagramBytes => dword "MaxLogDatagramBytes" 262144 262144 1048576 .plain
  | metricMaxBatchSize => dword "MetricMaxBatchSize" 5000 100 100000 .plain
  | metricMaxBatchLatency => dword "MetricMaxBatchLatencyMs" 1000 10 5000 .milliseconds
  | maxMetricDatagramBytes => dword "MaxMetricDatagramBytes" 262144 262144 1048576 .plain
  | metricSeriesCacheSize => dword "MetricSeriesCacheSize" 50000 1000 1000000 .plain
  | metricAuthorizationCacheSize =>
    dword "MetricAuthorizationCacheSize" 16384 256 1000000 .plain
  | healthMetricInterval => dword "HealthMetricIntervalSeconds" 15 0 3600 (.seconds 1)
  | adaptiveIndexWindow => dword "AdaptiveIndexWindowHours" 24 1 168 (.seconds 3600)
  | adaptiveIndexPolicyInterval =>
    dword "AdaptiveIndexPolicyIntervalMinutes" 60 60 1440 (.seconds 60)
  | adaptiveIndexCreateThreshold => dword "AdaptiveIndexCreateThreshold" 100 10 10000 .plain
  | adaptiveIndexDropThreshold => dword "AdaptiveIndexDropThreshold" 10 1 1000 .plain
  | sheddingWindow => dword "SheddingWindowSeconds" 30 10 300 (.seconds 1)
  | sheddingBatchPercent => dword "SheddingBatchPercent" 75 50 100 .plain
  | emergencySheddingBufferPercent => dword "EmergencySheddingBufferPercent" 75 50 95 .plain
  | eventRetention => dword "EventRetentionDays" 30 1 3650 (.seconds 86400)
  | eventRetentionMaxBytes => qword "EventRetentionMaxBytes" 0
  | logRetention => dword "LogRetentionDays" 14 1 3650 (.seconds 86400)
  | logRetentionMaxBytes => qword "LogRetentionMaxBytes" 0
  | metricRetention => dword "MetricRetentionDays" 90 1 3650 (.seconds 86400)
  | metricRetentionMaxBytes => qword "MetricRetentionMaxBytes" 1073741824
  | retentionInterval => dword "RetentionCheckIntervalMinutes" 60 1 1440 (.seconds 60)
  | retentionDeleteBatchRows => dword "RetentionDeleteBatchRows" 10000 100 100000 .plain
  | queryTimeout => dword "QueryTimeoutMs" 30000 1000 300000 .milliseconds
  | maxConcurrentQueries => dword "MaxConcurrentQueries" 128 1 4096 .plain
  | maxStreamingQueries => dword "MaxStreamingQueries" 64 1 1024 .plain
  | maxQueriesPerUser => dword "MaxQueriesPerUser" 16 1 4096 .plain
  | maxDistinctStreamValues => dword "MaxDistinctStreamValues" 100000 1000 10000000 .plain
  | maxQueryRequestBytes => dword "MaxQueryRequestBytes" 65536 1024 16777216 .plain
  | queryResponseTargetBytes => dword "QueryResponseTargetBytes" 65536 1024 16777216 .plain
  | maxQueryHeldBytes => dword "MaxQueryHeldBytes" 268435456 16777216 4294967295 .plain
  | adaptiveRollupMinSamples => dword "AdaptiveRollupMinSamples" 1000 100 1000000 .plain
  | adaptiveRollupBatchRows => dword "AdaptiveRollupBatchRows" 512 16 4096 .plain
  | adaptiveRollupMaxRows => dword "AdaptiveRollupMaxRows" 100000 0 10000000 .plain
  | crossTypeWindow => dword "CrossTypeWindowMs" 15000 1000 300000 .milliseconds
  | crossTypeMaxLookback =>
    dword "CrossTypeMaxLookbackSeconds" 604800 3600 2592000 (.seconds 1)

/-- What `reload` checks again. -/
def reloadCheck : Setting → Check
  | walCheckpointPages => validDword "WalCheckpointPages" 100 100000
  | maxBatchSize => validDword "MaxBatchSize" 100 100000
  | maxBatchLatency => validDword "MaxBatchLatencyMs" 10 5000
  | logMaxBatchSize => validDword "LogMaxBatchSize" 100 100000
  | logMaxBatchLatency => validDword "LogMaxBatchLatencyMs" 10 5000
  | maxLogDatagramBytes => validDword "MaxLogDatagramBytes" 262144 1048576
  | metricMaxBatchSize => validDword "MetricMaxBatchSize" 100 100000
  | metricMaxBatchLatency => validDword "MetricMaxBatchLatencyMs" 10 5000
  | maxMetricDatagramBytes => validDword "MaxMetricDatagramBytes" 262144 1048576
  | metricSeriesCacheSize => validDword "MetricSeriesCacheSize" 1000 1000000
  | metricAuthorizationCacheSize => validDword "MetricAuthorizationCacheSize" 256 1000000
  | healthMetricInterval => validDword "HealthMetricIntervalSeconds" 0 3600
  | adaptiveIndexWindow => validDword "AdaptiveIndexWindowHours" 1 168
  | adaptiveIndexPolicyInterval => validDword "AdaptiveIndexPolicyIntervalMinutes" 60 1440
  | adaptiveIndexCreateThreshold => validDword "AdaptiveIndexCreateThreshold" 10 10000
  | adaptiveIndexDropThreshold => validDword "AdaptiveIndexDropThreshold" 1 1000
  | sheddingWindow => validDword "SheddingWindowSeconds" 10 300
  | sheddingBatchPercent => validDword "SheddingBatchPercent" 50 100
  | emergencySheddingBufferPercent => validDword "EmergencySheddingBufferPercent" 50 95
  | eventRetention => validDword "EventRetentionDays" 1 3650
  | eventRetentionMaxBytes => validQword "EventRetentionMaxBytes"
  | logRetention => validDword "LogRetentionDays" 1 3650
  | logRetentionMaxBytes => validQword "LogRetentionMaxBytes"
  | metricRetention => validDword "MetricRetentionDays" 1 3650
  | metricRetentionMaxBytes => validQword "MetricRetentionMaxBytes"
  | retentionInterval => validDword "RetentionCheckIntervalMinutes" 1 1440
  | retentionDeleteBatchRows => validDword "RetentionDeleteBatchRows" 100 100000
  | queryTimeout => validDword "QueryTimeoutMs" 1000 300000
  | maxConcurrentQueries => validDword "MaxConcurrentQueries" 1 4096
  | maxStreamingQueries => validDword "MaxStreamingQueries" 1 1024
  | maxQueriesPerUser => validDword "MaxQueriesPerUser" 1 4096
  | maxDistinctStreamValues => validDword "MaxDistinctStreamValues" 1000 10000000
  | maxQueryRequestBytes => validDword "MaxQueryRequestBytes" 1024 16777216
  | queryResponseTargetBytes => validDword "QueryResponseTargetBytes" 1024 16777216
  | maxQueryHeldBytes => validDword "MaxQueryHeldBytes" 16777216 4294967295
  | adaptiveRollupMinSamples => validDword "AdaptiveRollupMinSamples" 100 1000000
  | adaptiveRollupBatchRows => validDword "AdaptiveRollupBatchRows" 16 4096
  | adaptiveRollupMaxRows => validDword "AdaptiveRollupMaxRows" 0 10000000
  | crossTypeWindow => validDword "CrossTypeWindowMs" 1000 300000
  | crossTypeMaxLookback => validDword "CrossTypeMaxLookbackSeconds" 3600 2592000

def name (setting : Setting) : String := setting.schema.name

/-- The two values that are read as a pair. -/
def isThreshold (setting : Setting) : Bool :=
  setting = adaptiveIndexCreateThreshold || setting = adaptiveIndexDropThreshold

end Setting

/-- The tables of TRM appendix A. -/
def documentedKeys : List Key :=
  [regDword "WalCheckpointPages" 1000 100 100000,
    regDword "StorageShards" 0 0 256,
    regDword "MaxBatchSize" 10000 100 100000,
    regDword "MaxBatchLatencyMs" 100 10 5000,
    regDword "LogMaxBatchSize" 5000 100 100000,
    regDword "LogMaxBatchLatencyMs" 500 10 5000,
    regDword "MaxLogDatagramBytes" 262144 262144 1048576,
    regDword "MetricMaxBatchSize" 5000 100 100000,
    regDword "MetricMaxBatchLatencyMs" 1000 10 5000,
    regDword "MaxMetricDatagramBytes" 262144 262144 1048576,
    regDword "MetricSeriesCacheSize" 50000 1000 1000000,
    regDword "MetricAuthorizationCacheSize" 16384 256 1000000,
    regDword "HealthMetricIntervalSeconds" 15 0 3600,
    regDword "AdaptiveIndexWindowHours" 24 1 168,
    regDword "AdaptiveIndexPolicyIntervalMinutes" 60 60 1440,
    regDword "AdaptiveIndexCreateThreshold" 100 10 10000,
    regDword "AdaptiveIndexDropThreshold" 10 1 1000,
    regDword "SheddingWindowSeconds" 30 10 300,
    regDword "SheddingBatchPercent" 75 50 100,
    regDword "EmergencySheddingBufferPercent" 75 50 95,
    regDword "EventRetentionDays" 30 1 3650,
    regQword "EventRetentionMaxBytes" 0 (2 ^ 64 - 1),
    regDword "LogRetentionDays" 14 1 3650,
    regQword "LogRetentionMaxBytes" 0 (2 ^ 64 - 1),
    regDword "MetricRetentionDays" 90 1 3650,
    regQword "MetricRetentionMaxBytes" 1073741824 (2 ^ 64 - 1),
    regDword "RetentionCheckIntervalMinutes" 60 1 1440,
    regDword "RetentionDeleteBatchRows" 10000 100 100000,
    regDword "QueryTimeoutMs" 30000 1000 300000,
    regDword "MaxConcurrentQueries" 128 1 4096,
    regDword "MaxStreamingQueries" 64 1 1024,
    regDword "MaxQueriesPerUser" 16 1 4096,
    regDword "MaxDistinctStreamValues" 100000 1000 10000000,
    regDword "MaxQueryRequestBytes" 65536 1024 16777216,
    regDword "QueryResponseTargetBytes" 65536 1024 16777216,
    regDword "MaxQueryHeldBytes" 268435456 16777216 4294967295,
    regDword "AdaptiveRollupMinSamples" 1000 100 1000000,
    regDword "AdaptiveRollupBatchRows" 512 16 4096,
    regDword "AdaptiveRollupMaxRows" 100000 0 10000000,
    regDword "CrossTypeWindowMs" 15000 1000 300000,
    regDword "CrossTypeMaxLookbackSeconds" 604800 3600 2592000]

def documentedKey (name : String) : Option Key := documentedKeys.find? fun key => key.name = name

/-- The integer that a value is read as; the default if none is stored, or one of another type or
out of range. -/
def Schema.value (schema : Schema) (values : Registry) : ℕ :=
  match (values schema.name).bind schema.type.read with
  | none => schema.default
  | some value =>
    if schema.minimum ≤ value ∧ value ≤ schema.maximum then value else schema.default

/-- Whether what is stored, if anything, is of the type and in range. -/
def Check.valid (check : Check) (values : Registry) : Bool :=
  match values check.name with
  | none => true
  | some record =>
    match check.type.read record with
    | none => false
    | some value => decide (check.minimum ≤ value ∧ value ≤ check.maximum)

/-- What is stored, if it is of the type, or the default if nothing is. -/
def configuredDword (values : Registry) (name : String) (default : ℕ) : Option ℕ :=
  match values name with
  | none => some default
  | some record => IntegerType.dword.read record

/-! ### Paths -/

/-- The paths that are read at startup. -/
inductive PathKey
  | eventStore
  | logStore
  | metricStore
  | querySocket
  | logSocket
  | metricSocket
  deriving DecidableEq

namespace PathKey

def all : List PathKey :=
  [eventStore, logStore, metricStore, querySocket, logSocket, metricSocket]

def name : PathKey → String
  | eventStore => "EventStorePath"
  | logStore => "LogStorePath"
  | metricStore => "MetricStorePath"
  | querySocket => "QuerySocketPath"
  | logSocket => "LogSocketPath"
  | metricSocket => "MetricSocketPath"

end PathKey

inductive ConfigError
  | missing (name : String)
  | invalid (name : String)
  deriving DecidableEq

/-- The path of a record: UTF-8 up to the first zero byte, and absolute. -/
def pathOf (record : ValueRecord) : Option String :=
  if record.ty = .sz then
    (String.fromUTF8? ⟨(record.data.takeWhile (· ≠ 0)).toArray⟩).filter fun text =>
      (bytesOf text).head? = some 0x2f
  else none

def requiredPath (values : Registry) (key : PathKey) : Except ConfigError String :=
  match values key.name with
  | none => .error (.missing key.name)
  | some record =>
    match pathOf record with
    | none => .error (.invalid key.name)
    | some path => .ok path

def pathRecord (path : String) : ValueRecord := ⟨.sz, bytesOf path ++ [0]⟩

def dwordRecord (value : ℕ) : ValueRecord :=
  ⟨.dword, (List.range 4).map fun i => .ofNat (value / 256 ^ i % 256)⟩

/-! ### Configurations -/

/-- The fields in force, and the records that they were read from. -/
structure Config where
  paths : PathKey → String
  storageShards : ℕ
  field : Setting → ℕ
  rawValues : Registry

namespace Config

/-- The integer in force. -/
def integer (config : Config) (setting : Setting) : ℕ :=
  setting.schema.unit.integer (config.field setting)

/-- The pair of thresholds; the defaults if the drop threshold is not below the create threshold. -/
def thresholds (values : Registry) : ℕ × ℕ :=
  let create := Setting.adaptiveIndexCreateThreshold.schema.value values
  let drop := Setting.adaptiveIndexDropThreshold.schema.value values
  if create ≤ drop then (100, 10) else (create, drop)

/-- The field that a value is kept in. -/
def fieldOf (values : Registry) : Setting → ℕ
  | .adaptiveIndexCreateThreshold => (thresholds values).1
  | .adaptiveIndexDropThreshold => (thresholds values).2
  | setting => setting.schema.value values * setting.schema.unit.scale

def fromValues (values : Registry) : Except ConfigError Config := do
  let eventStore ← requiredPath values .eventStore
  let logStore ← requiredPath values .logStore
  let metricStore ← requiredPath values .metricStore
  let querySocket ← requiredPath values .querySocket
  let logSocket ← requiredPath values .logSocket
  let metricSocket ← requiredPath values .metricSocket
  return {
    paths := fun
      | .eventStore => eventStore
      | .logStore => logStore
      | .metricStore => metricStore
      | .querySocket => querySocket
      | .logSocket => logSocket
      | .metricSocket => metricSocket
    storageShards := (dword "StorageShards" 0 0 256 .plain).value values
    field := fieldOf values
    rawValues := values }

/-- Whether a reload keeps the pair of thresholds in force. -/
def thresholdInvalid (config : Config) (values : Registry) : Bool :=
  !Setting.adaptiveIndexCreateThreshold.reloadCheck.valid values ||
    !Setting.adaptiveIndexDropThreshold.reloadCheck.valid values ||
    decide ((configuredDword values "AdaptiveIndexCreateThreshold" 100).getD
        (config.field .adaptiveIndexCreateThreshold)
      ≤ (configuredDword values "AdaptiveIndexDropThreshold" 10).getD
        (config.field .adaptiveIndexDropThreshold))

/-- Whether a reload keeps the value in force. -/
def retains (config : Config) (values : Registry) (setting : Setting) : Bool :=
  if setting.isThreshold then config.thresholdInvalid values else !setting.reloadCheck.valid values

/-- The values with those in force in place of paths that cannot be used and of a pair of
thresholds that is kept. -/
def adjusted (config : Config) (values : Registry) : Registry := fun name =>
  match PathKey.all.find? fun key => key.name = name with
  | some key =>
    match requiredPath values key with
    | .ok _ => values name
    | .error _ => some (pathRecord (config.paths key))
  | none =>
    if config.thresholdInvalid values ∧ name = "AdaptiveIndexCreateThreshold" then
      some (dwordRecord (config.field .adaptiveIndexCreateThreshold))
    else if config.thresholdInvalid values ∧ name = "AdaptiveIndexDropThreshold" then
      some (dwordRecord (config.field .adaptiveIndexDropThreshold))
    else values name

/-- The names of the records that a reload copies from those before. -/
def copied (config : Config) (values : Registry) : List String :=
  (Setting.all.filter (config.retains values)).map (fun setting => setting.reloadCheck.name) ++
    PathKey.all.map PathKey.name ++ ["StorageShards"]

/-- The configuration after a reload.  A value that is not valid keeps the one in force, and the
record of it; paths and the number of shards wait for a restart. -/
def reload (config : Config) (values : Registry) : Except ConfigError Config := do
  let adjusted := config.adjusted values
  let next ← fromValues adjusted
  return {
    paths := config.paths
    storageShards := config.storageShards
    field := fun setting =>
      if config.retains values setting then config.field setting else next.field setting
    rawValues := fun name =>
      if name ∈ config.copied values then config.rawValues name else next.rawValues name }

end Config

/-! ### Changes -/

/-- One side of a change. -/
structure AppliedValue where
  registryType : IntegerType
  value : ℕ
  deriving DecidableEq

/-- A value whose change a reload applied. -/
structure AppliedChange where
  key : String
  previous : Option AppliedValue
  current : Option AppliedValue
  deriving DecidableEq

/-- One side of a change: absent when no value is stored, otherwise the stored integer, or the
integer in force when what is stored is not of the type. -/
def appliedValue (record : Option ValueRecord) (type : IntegerType) (inForce : ℕ) :
    Option AppliedValue :=
  record.map fun record => ⟨type, (type.read record).getD inForce⟩

def appliedChange (config next : Config) (setting : Setting) : AppliedChange where
  key := setting.name
  previous :=
    appliedValue (config.rawValues setting.name) setting.schema.type (config.integer setting)
  current := appliedValue (next.rawValues setting.name) setting.schema.type (next.integer setting)

def Config.appliedChanges (config next : Config) : List AppliedChange :=
  (Setting.all.filter fun setting => config.field setting ≠ next.field setting).map
    (appliedChange config next)

/-- Reload the values that are stored now.  A reload that changes nothing in force leaves the
configuration as it was, records included. -/
def applyReload (config : Config) (values : Registry) : Config × List AppliedChange :=
  match config.reload values with
  | .error _ => (config, [])
  | .ok next =>
    let changes := config.appliedChanges next
    if changes = [] then (config, []) else (next, changes)

/-- The configuration after reloading each of these in turn. -/
def Config.after (config : Config) (maps : List Registry) : Config :=
  maps.foldl (fun config values => (applyReload config values).1) config

end Eventd
