import Eventd.Metric.Range

/-!
# Windows as they are shown

The rows that `seriesWindows` returns are those of the abstract windows: a caller sees all
samples of a series or none, since what may be read is decided on the name of the series
and the names of its fields; and a window's row takes nothing else from its samples than
the labels, which they share.

* `seriesVerdict`, `authorizeMetric_eq`: one verdict for a series;
* `Alike`, `metricAggregateRow_congr`: rows that give the same window row.
-/

namespace Eventd

open Option KeyedList List Interference

/-! ### One verdict for a series -/

section Verdict

variable {τ : Type} (authorizer : Authorizer τ) (referenced : List String) (series : SeriesRef)

/-- The fields of a series that may be read; nothing if its records are not visible. -/
def seriesVerdict : Except QueryError (Option (List String)) :=
  match authorizer.check .metrics series.name
      (rowFields (metricTemplate series).toRow referenced) with
  | .error error => .error (.security error)
  | .ok none => .ok none
  | .ok (some allowed) =>
    if referenced.any (· ∉ allowed) then .ok none else .ok (some allowed)

/-- A row with those of its fields that may be read. -/
def MetricRow.shown (row : MetricRow) (allowed : List String) : MetricRow :=
  row.withRecord (keep (fun field => decide (field ∈ allowed)) row.record)

variable {authorizer referenced series}

/-- Rows with the name and the fields of a series share its verdict. -/
theorem authorizeMetric_eq {row : MetricRow} (name : row.identifier = series.name)
    (keys : row.toRow.keys = (metricTemplate series).toRow.keys) :
    authorizeMetric authorizer referenced row =
      (seriesVerdict authorizer referenced series).map (Option.map row.shown) := by
  have fields : rowFields row.toRow referenced =
      rowFields (metricTemplate series).toRow referenced := by
    unfold rowFields
    rw [keys]
  unfold authorizeMetric authorizeRow seriesVerdict
  rw [name, fields]
  cases authorizer.check .metrics series.name
      (rowFields (metricTemplate series).toRow referenced) with
  | error e => rfl
  | ok verdict =>
    cases verdict with
    | none => rfl
    | some allowed =>
      simp only [bind, Except.bind]
      split_ifs <;> rfl

theorem value_mem_of_granted {allowed : List String} (value : "value" ∈ referenced)
    (granted : seriesVerdict authorizer referenced series = .ok (some allowed)) :
    "value" ∈ allowed := by
  unfold seriesVerdict at granted
  split at granted
  · cases granted
  · cases granted
  · next allowed' _ =>
    split_ifs at granted with hidden
    · cases granted
    · cases granted
      by_contra missing
      exact hidden (any_eq_true.2 ⟨_, value, decide_eq_true missing⟩)

end Verdict

/-! ### Records of a series -/

/-- The labels of a series, in order. -/
structure SeriesRef.Plain (series : SeriesRef) : Prop where
  ordered : Ordered series.labels
  strings : ∀ entry ∈ series.labels, ∃ text, entry.2 = Value.string text

theorem keys_metricRecord (series : SeriesRef) (timestamp timestamp' : ℤ)
    (bootId bootId' value value' : Value) :
    (metricRecord series timestamp bootId value).map Prod.fst =
      (metricRecord series timestamp' bootId' value').map Prod.fst := by
  unfold metricRecord
  simp only [foldl_cons, foldl_nil]
  iterate 5 apply keys_insert_congr
  rfl

theorem lookup_metricRecord (series : SeriesRef) (timestamp : ℤ) (bootId value : Value)
    (key : String) :
    (metricRecord series timestamp bootId value).lookup key =
      if key = "value" then some value
      else if key = "type" then some (.string series.metricType.name)
      else if key = "name" then some (.string series.name)
      else if key = "boot_id" then some bootId
      else if key = "timestamp" then some (.signed (.ofInt timestamp))
      else series.labels.lookup key := by
  unfold metricRecord
  simp only [foldl_cons, foldl_nil, lookup_insert]

theorem SeriesRef.Plain.ordered_metricRecord {series : SeriesRef} (plain : series.Plain)
    (timestamp : ℤ) (bootId value : Value) :
    Ordered (metricRecord series timestamp bootId value) := by
  unfold metricRecord
  simp only [foldl_cons, foldl_nil]
  iterate 5 apply Ordered.insert
  exact plain.ordered

theorem SeriesRef.Plain.lookup_ne_bool {series : SeriesRef} (plain : series.Plain) (key : String)
    (b : Bool) : series.labels.lookup key ≠ some (.bool b) := by
  intro found
  obtain ⟨text, eq⟩ := plain.strings _ (mem_of_lookup found)
  cases eq

/-! ### Rows that give the same window row -/

/-- A row that shares the labels of another, and has the same headers. -/
structure Alike (base row : MetricRow) : Prop where
  labels : row.metricLabels = base.metricLabels
  ordered : Ordered row.record
  same : ∀ key ∉ metricFields, row.record.lookup key = base.record.lookup key
  heads : ∀ key ∈ ["timestamp", "name", "type"],
    (row.record.lookup key).isSome = (base.record.lookup key).isSome

theorem lookup_setMetricResult (record : Record) (value : Value) (overflow : Bool) (key : String) :
    (setMetricResult record value overflow).lookup key =
      if key = "overflow" then if overflow then some (.bool true) else none
      else if key = "value" then some value
      else record.lookup key := by
  unfold setMetricResult
  cases overflow
  · simp [lookup_erase, lookup_insert]
  · simp [lookup_insert]

theorem ordered_setMetricResult {record : Record} (ordered : Ordered record)
    (value : Value) (overflow : Bool) :
    Ordered (setMetricResult record value overflow) := by
  unfold setMetricResult
  split_ifs
  · exact (ordered.insert _ _).insert _ _
  · exact (ordered.insert _ _).erase _

/-- The headers of a window row. -/
def headersOf (template : Record) (entries : List (String × Value)) (record : Record) : Record :=
  entries.foldl (fun record entry =>
    if (template.lookup entry.1).isSome then insert entry.1 entry.2 record else record)
    record

theorem ordered_headersOf {template record : Record} (ordered : Ordered record)
    (entries : List (String × Value)) : Ordered (headersOf template entries record) := by
  induction entries generalizing record with
  | nil => exact ordered
  | cons entry entries ih =>
    apply ih
    dsimp only
    split_ifs
    · exact ordered.insert _ _
    · exact ordered

/-- What a window row takes from its template: whether it has a header, and what it has
under a key that is not one. -/
theorem headersOf_congr {template template' record record' : Record}
    {entries : List (String × Value)}
    (heads : ∀ entry ∈ entries, (template.lookup entry.1).isSome = (template'.lookup entry.1).isSome)
    {key : String} (same : (∃ entry ∈ entries, entry.1 = key ∧ (template.lookup key).isSome = true) ∨
      record.lookup key = record'.lookup key) :
    (headersOf template entries record).lookup key =
      (headersOf template' entries record').lookup key := by
  induction entries generalizing record record' with
  | nil => exact same.resolve_left (by simp)
  | cons entry entries ih =>
    obtain ⟨first, rest⟩ := forall_mem_cons.1 heads
    refine ih rest ?_
    dsimp only
    by_cases here : entry.1 = key ∧ (template.lookup key).isSome = true
    · obtain ⟨rfl, has⟩ := here
      right
      rw [if_pos has, if_pos (first ▸ has), lookup_insert, lookup_insert,
        if_pos rfl, if_pos rfl]
    · rcases same with ⟨other, mem, found⟩ | same
      · left
        rcases mem_cons.1 mem with rfl | mem
        · exact absurd found here
        · exact ⟨other, mem, found⟩
      · right
        rw [first]
        split_ifs
        · rw [lookup_insert, lookup_insert, same]
        · exact same

/-- **Rows that are alike give the same window row.** -/
theorem metricAggregateRow_congr {base row : MetricRow} (alike : Alike base row)
    (ordered : Ordered base.record) (value : Value) (outputTimestamp : ℤ)
    (outputName : String) (metricType : MetricType) (tie : ℤ) :
    metricAggregateRow row value outputTimestamp true outputName metricType tie =
      metricAggregateRow base value outputTimestamp true outputName metricType tie := by
  have record : (metricAggregateRow row value outputTimestamp true outputName metricType tie).record =
      (metricAggregateRow base value outputTimestamp true outputName metricType tie).record := by
    apply Ordered.ext
    · exact ordered_setMetricResult (ordered_headersOf (alike.ordered.erase _) _) _ _
    · exact ordered_setMetricResult (ordered_headersOf (ordered.erase _) _) _ _
    intro key
    unfold metricAggregateRow
    simp only [lookup_setMetricResult]
    split_ifs with beyond isValue
    · rfl
    · rfl
    · rfl
    refine headersOf_congr (fun entry mem => ?_) ?_
    · simp only [mem_cons, not_mem_nil, or_false] at mem
      apply alike.heads
      rcases mem with rfl | rfl | rfl <;> simp
    rw [lookup_erase, lookup_erase]
    by_cases boot : key = "boot_id"
    · right
      rw [if_pos boot, if_pos boot]
    rw [if_neg boot, if_neg boot]
    by_cases head : key ∈ ["timestamp", "name", "type"]
    · by_cases has : (row.record.lookup key).isSome = true
      · left
        simp only [mem_cons, not_mem_nil, or_false] at head
        rcases head with rfl | rfl | rfl <;> simp [has]
      · right
        have lacks := has
        rw [alike.heads key head] at lacks
        rw [not_isSome_iff_eq_none.1 has, not_isSome_iff_eq_none.1 lacks]
    · right
      apply alike.same
      unfold metricFields
      simp only [mem_cons, not_mem_nil, or_false, not_or] at head ⊢
      tauto
  unfold metricAggregateRow at record ⊢
  dsimp only at record ⊢
  rw [record, alike.labels]

/-! ### Points and readings -/

section Points

variable {series : SeriesRef} {allowed : List String}

/-- A sample as a caller sees it. -/
def shownSample (series : SeriesRef) (allowed : List String) (sample : ℕ × Sample) : MetricRow where
  identifier := series.name
  record := keep (fun field => decide (field ∈ allowed))
    (metricRecord series sample.2.timestamp (.string (guidString sample.2.bootId))
      (if series.metricType = .histogram then .null else .float sample.2.value))
  time := sample.2.timestamp
  metricLabels := canonicalLabels series.labels
  tie := sample.1

/-- The row that gives the windows of a series their labels. -/
def baseRow (series : SeriesRef) (allowed : List String) : MetricRow :=
  (metricTemplate series).shown allowed

theorem record_baseRow (series : SeriesRef) (allowed : List String) :
    (baseRow series allowed).record = keep (fun field => decide (field ∈ allowed))
      (metricRecord series 0 .null .null) := rfl

theorem record_shownSample (series : SeriesRef) (allowed : List String) (sample : ℕ × Sample) :
    (shownSample series allowed sample).record =
      keep (fun field => decide (field ∈ allowed))
        (metricRecord series sample.2.timestamp (.string (guidString sample.2.bootId))
          (if series.metricType = .histogram then .null else .float sample.2.value)) := rfl

theorem SeriesRef.Plain.ordered_baseRow (plain : series.Plain) (allowed : List String) :
    Ordered (baseRow series allowed).record := by
  rw [record_baseRow]
  exact (plain.ordered_metricRecord _ _ _).keep _

theorem SeriesRef.Plain.alike_shownSample (plain : series.Plain) (allowed : List String)
    (sample : ℕ × Sample) : Alike (baseRow series allowed) (shownSample series allowed sample) where
  labels := rfl
  ordered := by
    rw [record_shownSample]
    exact (plain.ordered_metricRecord _ _ _).keep _
  same key other := by
    rw [record_shownSample, record_baseRow, lookup_keep, lookup_keep,
      lookup_metricRecord, lookup_metricRecord]
    unfold metricFields at other
    simp only [mem_cons, not_mem_nil, or_false, not_or] at other
    simp only [other, if_false]
  heads key head := by
    rw [record_shownSample, record_baseRow, lookup_keep, lookup_keep,
      lookup_metricRecord, lookup_metricRecord]
    simp only [mem_cons, not_mem_nil, or_false] at head
    rcases head with rfl | rfl | rfl <;> split_ifs <;> simp_all

variable {base row : MetricRow}

theorem Alike.withRecord (alike : Alike base row) {record : Record} (ordered : Ordered record)
    (others : ∀ key, key ≠ "overflow" → key ≠ "value" → record.lookup key = row.record.lookup key) :
    Alike base (row.withRecord record) where
  labels := alike.labels
  ordered := ordered
  same key other := by
    refine (others key ?_ ?_).trans (alike.same key other) <;> rintro rfl <;> exact other (by decide)
  heads key head := by
    show (record.lookup key).isSome = _
    rw [others key (by rintro rfl; revert head; decide) (by rintro rfl; revert head; decide)]
    exact alike.heads key head

theorem Alike.insert_value (alike : Alike base row) (value : Value) :
    Alike base (row.withRecord (insert "value" value row.record)) :=
  alike.withRecord (alike.ordered.insert _ _) fun key _ other => by rw [lookup_insert, if_neg other]

theorem Alike.setMetricResult (alike : Alike base row) (value : Value) (overflow : Bool) :
    Alike base (row.withRecord (setMetricResult row.record value overflow)) :=
  alike.withRecord (ordered_setMetricResult alike.ordered _ _) fun key overflow value => by
    rw [lookup_setMetricResult, if_neg overflow, if_neg value]

/-- The point of a reading. -/
def pointOf (transform : Option Transform) (row : MetricRow) (r : Reading) : MetricPoint where
  row :=
    match transform with
    | none => row
    | some (.percentile _) =>
      row.withRecord (setMetricResult row.record (r.value.getD .null) r.overflow)
    | some _ => row.withRecord (insert "value" (r.value.getD .null) row.record)
  adjustedDelta := r.delta
  elapsedNs := r.elapsed

theorem Alike.pointOf (alike : Alike base row) (transform : Option Transform) (r : Reading) :
    Alike base (pointOf transform row r).row := by
  match transform with
  | none => exact alike
  | some (.percentile _) => exact alike.setMetricResult _ _
  | some .rate | some .delta => exact alike.insert_value _

/-- A header that the point has is kept, and one that it lacks is missing already. -/
theorem Alike.trim (alike : Alike base row) {point : MetricPoint} (like : Alike base point.row) :
    Alike base (Fold.trim row point) := by
  have lookup (key : String) : ((Fold.trim row point).record).lookup key = row.record.lookup key := by
    have erased (field : String) (mem : field ∈ ["timestamp", "name", "type"]) (record : Record)
        (same : record.lookup key = row.record.lookup key) :
        (if (point.row.record.lookup field).isSome then record
          else erase field record).lookup key = row.record.lookup key := by
      split_ifs with has
      · exact same
      · rw [lookup_erase]
        split_ifs with is
        · rw [like.heads field mem, ← alike.heads field mem, ← is] at has
          exact (not_isSome_iff_eq_none.1 has).symm
        · exact same
    unfold Fold.trim MetricRow.withRecord
    simp only [foldl_cons, foldl_nil]
    apply erased "type" (by decide)
    apply erased "name" (by decide)
    exact erased "timestamp" (by decide) _ rfl
  have ordered : Ordered (Fold.trim row point).record := by
    have erased (field : String) (record : Record) (ordered : Ordered record) :
        Ordered (if (point.row.record.lookup field).isSome then record
          else erase field record) := by
      split_ifs
      · exact ordered
      · exact ordered.erase _
    unfold Fold.trim MetricRow.withRecord
    simp only [foldl_cons, foldl_nil]
    exact erased _ _ (erased _ _ (erased _ _ alike.ordered))
  refine ⟨alike.labels, ordered, fun key other => ?_, fun key head => ?_⟩
  · rw [lookup]
    exact alike.same key other
  · rw [lookup]
    exact alike.heads key head

/-- The transform stage after a sample. -/
def Transformer.after (transformer : Transformer) (sample : ℕ × Sample) : Transformer :=
  if isPairs transformer.transform then { transformer with previous := some (endOf sample) }
  else transformer

/-- A sample as it enters the transform stage. -/
def shownInput (series : SeriesRef) (allowed : List String) (sample : ℕ × Sample) : MetricInput :=
  ⟨shownSample series allowed sample, sample.2.value, sample.2.histogramData⟩

theorem percentilePoint_eq (sample : ℕ × Sample) (percentile : Percentile) :
    Transformer.percentilePoint (shownInput series allowed sample) percentile =
      (percentileReading percentile sample.2).map
        (Option.map (pointOf (some (.percentile percentile)) (shownSample series allowed sample))) := by
  unfold Transformer.percentilePoint percentileReading shownInput
  cases sample.2.histogramData with
  | none => rfl
  | some histogram =>
    dsimp only
    cases histogramPercentile histogram percentile with
    | error e => rfl
    | ok value =>
      cases value with
      | empty => rfl
      | overflow => rfl
      | finite value =>
        show Except.bind _ _ = Except.map _ (Except.bind _ _)
        dsimp only [Except.bind]
        cases finiteValue value <;> rfl

theorem pairPoint_eq {rate : Bool} {transform : Transform}
    (pairs : isPairs (some transform) = true) {since : ℤ} {sample : ℕ × Sample}
    (late : since ≤ sample.2.timestamp) (earlier : ℤ × Binary64) :
    Transformer.pairPoint rate since earlier (shownInput series allowed sample) =
      (pairReading rate earlier sample.2).map
        (Option.map (pointOf (some transform) (shownSample series allowed sample))) := by
  have early : ¬ sample.2.timestamp < since := by omega
  have time : (shownInput series allowed sample).row.time = sample.2.timestamp := rfl
  have number : (shownInput series allowed sample).number = sample.2.value := rfl
  unfold Transformer.pairPoint pairReading
  simp only [time, number, early, false_or]
  by_cases none : saturatingSub sample.2.timestamp earlier.1 ≤ 0
  · rw [if_pos none, if_pos none]
    rfl
  · rw [if_neg none, if_neg none]
    match transform with
    | .rate =>
      show Except.bind _ _ = Except.map _ (Except.bind _ _)
      generalize finiteValue _ = value
      cases value <;> rfl
    | .delta =>
      show Except.bind _ _ = Except.map _ (Except.bind _ _)
      generalize finiteValue _ = value
      cases value <;> rfl
    | .percentile _ => cases pairs

/-- **What the transform stage makes of a sample is its reading.** -/
theorem push_shownInput {transformer : Transformer} {sample : ℕ × Sample}
    (finite : sample.2.value.isFinite = true)
    (admitted : transformer.since ≤ sample.2.timestamp ∨
      isPairs transformer.transform = true ∧ transformer.previous = none) :
    transformer.push (shownInput series allowed sample) =
      (reading series.metricType transformer.transform transformer.previous sample.2).map fun r =>
        (transformer.after sample,
          r.map (pointOf transformer.transform (shownSample series allowed sample))) := by
  obtain ⟨transform, since, previous⟩ := transformer
  unfold Transformer.push Transformer.after reading
  rw [if_pos finite]
  match transform with
  | none =>
    have late : since ≤ sample.2.timestamp := admitted.resolve_right fun h => nomatch h.1
    show Except.ok (_, if since ≤ sample.2.timestamp then _ else _) = _
    rw [if_pos late]
    rfl
  | some (.percentile percentile) =>
    have late : since ≤ sample.2.timestamp := admitted.resolve_right fun h => nomatch h.1
    have early : ¬ (shownInput series allowed sample).row.time < since := not_lt.2 late
    dsimp only
    rw [if_neg early, percentilePoint_eq]
    cases percentileReading percentile sample.2 <;> rfl
  | some .rate =>
    cases previous with
    | none => rfl
    | some earlier =>
      have late : since ≤ sample.2.timestamp := admitted.resolve_right fun h => nomatch h.2
      dsimp only
      have pairs : isPairs (some Transform.rate) = true := rfl
      rw [pairPoint_eq pairs late]
      show Except.bind (Except.map _ (pairReading true earlier sample.2)) _ = _
      dsimp only [elim_some]
      cases pairReading true earlier sample.2 <;> rfl
  | some .delta =>
    cases previous with
    | none => rfl
    | some earlier =>
      have late : since ≤ sample.2.timestamp := admitted.resolve_right fun h => nomatch h.2
      dsimp only
      have pairs : isPairs (some Transform.delta) = true := rfl
      rw [pairPoint_eq pairs late]
      show Except.bind (Except.map _ (pairReading false earlier sample.2)) _ = _
      dsimp only [elim_some]
      cases pairReading false earlier sample.2 <;> rfl

end Points

/-! ### Windows of points -/

section Windows

variable {series : SeriesRef} {allowed : List String}

theorem lookup_shownSample (readable : "value" ∈ allowed) (sample : ℕ × Sample) :
    (shownSample series allowed sample).record.lookup "value" =
      some (if series.metricType = .histogram then .null else .float sample.2.value) := by
  rw [record_shownSample, lookup_keep, lookup_metricRecord, if_pos rfl,
    if_pos (decide_eq_true readable)]

/-- A label named `overflow` is a text, and no window looks at it. -/
theorem SeriesRef.Plain.overflow_shownSample (plain : series.Plain) (sample : ℕ × Sample) (b : Bool) :
    (shownSample series allowed sample).record.lookup "overflow" ≠ some (.bool b) := by
  rw [record_shownSample, lookup_keep]
  by_cases shown : decide ("overflow" ∈ allowed) = true
  · rw [if_pos shown, lookup_metricRecord, if_neg (by decide), if_neg (by decide),
      if_neg (by decide), if_neg (by decide), if_neg (by decide)]
    exact plain.lookup_ne_bool _ _
  · rw [if_neg shown]
    exact nofun

/-- What a tally takes from a row with a result in it. -/
theorem Tally.push_eq_take {tally : Tally} {point : MetricPoint} {r : Reading}
    (value : point.row.record.lookup "value" = r.value)
    (overflow : point.row.record.lookup "overflow" = some (.bool true) ↔ r.overflow = true)
    (time : point.row.time = r.time) (delta : point.adjustedDelta = r.delta)
    (elapsed : point.elapsedNs = r.elapsed) : tally.push point = tally.take r := by
  unfold Tally.push Tally.take
  rw [value, time, delta, elapsed]
  congr 1
  split
  · next found =>
    rw [overflow.1 found]
    rfl
  · next other =>
    have none : r.overflow = false := by
      by_contra has
      exact other (overflow.2 (by simpa using has))
    rw [none, Bool.false_or]

/-- **A window takes from a point what its reading says.** -/
theorem SeriesRef.Plain.push_pointOf (plain : series.Plain) (readable : "value" ∈ allowed)
    {transform : Option Transform} {sample : ℕ × Sample} {r : Reading}
    (is : ReadAs series.metricType sample.2 transform r) (tally : Tally) :
    tally.push (pointOf transform (shownSample series allowed sample) r) = tally.take r := by
  have result (value : Value) (overflow : Bool) :
      (setMetricResult (shownSample series allowed sample).record value overflow).lookup "value" =
          some value ∧
        ((setMetricResult (shownSample series allowed sample).record value overflow).lookup
          "overflow" = some (.bool true) ↔ overflow = true) := by
    rw [lookup_setMetricResult, lookup_setMetricResult, if_neg (by decide), if_pos rfl, if_pos rfl]
    cases overflow <;> simp
  cases is with
  | plain =>
    refine Tally.push_eq_take (lookup_shownSample readable sample) ?_ rfl rfl rfl
    exact ⟨fun found => absurd found (plain.overflow_shownSample _ _), nofun⟩
  | @finite _ _ value => exact Tally.push_eq_take (result value false).1 (result value false).2 rfl rfl rfl
  | overflow => exact Tally.push_eq_take (result .null true).1 (result .null true).2 rfl rfl rfl
  | @pair t _ _ value _ pairs =>
    match t with
    | .rate | .delta =>
      refine Tally.push_eq_take ?_ ?_ rfl rfl rfl
      · show (insert "value" _ _).lookup "value" = _
        rw [lookup_insert, if_pos rfl, getD_some]
      · show (insert "value" _ _).lookup "overflow" = _ ↔ _
        rw [lookup_insert, if_neg (by decide)]
        exact ⟨fun found => absurd found (plain.overflow_shownSample _ _), nofun⟩
    | .percentile _ => cases pairs

/-- What windows hold besides their rows. -/
def Windows.tallies (windows : Windows) : List (ℤ × Tally) :=
  windows.map fun entry => (entry.1, entry.2.toTally)

theorem Windows.tallies_push {width : ℤ} {windows : Windows} {point : MetricPoint} {r : Reading}
    (time : point.row.time = r.time) (taken : ∀ tally : Tally, tally.push point = tally.take r) :
    (windows.push width point).tallies = tally width windows.tallies r := by
  unfold Windows.push Windows.tallies tally
  dsimp only
  rw [map_insert, lookup_map, time]
  congr 1
  cases windows.lookup (windowStart width r.time) with
  | none | some fold => exact taken _

/-- The rows of windows whose points are alike are those of their values. -/
theorem rows_eq {base : MetricRow} {windows : Windows}
    (alike : ∀ entry ∈ windows, Alike base entry.2.template) (ordered : Ordered base.record)
    (spec : WindowSpec) (outputName : String) (metricType : MetricType) (tie : ℤ) :
    windows.rows spec.function (if isPairs spec.transform then spec.transform else none) true
        (some outputName) metricType (some tie) =
      (tallyCells spec windows.tallies).map fun values => values.map fun cell =>
        metricAggregateRow base cell.2 cell.1 true outputName metricType tie := by
  unfold Windows.rows tallyCells Windows.tallies
  induction windows with
  | nil => rfl
  | cons entry windows ih =>
    obtain ⟨first, rest⟩ := forall_mem_cons.1 alike
    rw [mapM_cons, ih rest, map_cons, mapM_cons]
    cases entry.2.value spec.function (if isPairs spec.transform then spec.transform else none) with
    | error e => rfl
    | ok value =>
      show Except.bind (.ok (metricAggregateRow entry.2.template _ _ true _ _ _)) _ = _
      rw [metricAggregateRow_congr first ordered]
      change Except.bind _ _ = Except.map _ (Except.bind (.ok _) fun _ =>
        Except.bind (tallyCells spec (Windows.tallies windows)) _)
      change Except.bind _ (fun _ => Except.bind (Except.map _ (tallyCells spec
        (Windows.tallies windows))) _) = _
      cases tallyCells spec (Windows.tallies windows) <;> rfl

end Windows

end Eventd
