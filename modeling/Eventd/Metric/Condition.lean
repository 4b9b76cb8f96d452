import Eventd.Query.Ranges
import Eventd.Query.Evaluate
import Eventd.Metric.Range

/-!
# Conditions on a metric

`resolve_cross_metric`, `metric_true_ranges` and `metric_condition_at` of
`eventd/src/query/executor.rs`: a query over other records may ask that a metric compares with a
value at their time.  A finished range of times is answered with the ranges in which it does, a
watch with a look at the last sample.

* `resolveCrossMetric`: the one series that a condition is on;
* `metricTrueRanges`, `metricConditionAt`: the two ways to answer;
* `mem_conditionRanges`: in the ranges, the last sample up to a time decides.
-/

namespace Eventd

open Option List

section Resolve

variable {τ : Type} (authorizer : Authorizer τ) (globMatches : String → String → Bool)
  (text : DebugText) (store : MetricStore)

/-- What the label conditions of a query are evaluated on. -/
def SeriesRow.selector (row : SeriesRow) : Record :=
  KeyedList.insert "type" (.string row.metricType.name)
    (KeyedList.insert "name" (.string row.name) (parseLabels row.labels))

/-- One series of the table: whether the condition is on it. -/
def resolveStep (labels : Option (List Expr)) (allowed : List String) (resolved : Option ℕ)
    (row : ℕ × SeriesRow) : Outcome (Option ℕ) := do
  if row.2.name ∉ allowed then return resolved
  let selected ← ExceptT.lift
    ((labels.getD []).allM fun item => evaluate text .metrics row.2.selector item)
  if !selected then return resolved
  if row.2.metricType = .histogram then throw .crossMetricHistogram
  if resolved.isSome then throw .crossMetricNeedsSelector
  return some row.1

/-- The series that a condition is on, if there is one. -/
def resolveCrossMetric (namePattern : String) (labels : Option (List Expr)) :
    Outcome (Option ℕ) := do
  let required := (labels.getD []).foldl (fun output item => item.fields output)
    ["timestamp", "value", "type"]
  let identifiers :=
    (store.series.rows.map fun row => row.2.name).filter fun name => globMatches namePattern name
  let allowed ← settled
    (authorizedIdentifiers authorizer .metrics identifiers (required.insertionSort (· ≤ ·)).dedup)
  if allowed = [] then return none
  store.series.rows.foldlM (resolveStep text labels allowed) none

end Resolve

/-! ### The two answers -/

/-- A number compares with a literal as the field `value` of a record would. -/
def metricComparison (text : DebugText) (operator : Operator) (value : Literal)
    (number : Binary64) : Bool :=
  (evaluate text .metrics [("value", .float number)] (.compare "value" operator value)).getD false

/-- The stretch from a sample to the next, in the times of the query. -/
def sampleRange (since until_ : ℤ) (sample : ℕ × Sample) (next : Option (ℕ × Sample)) :
    TimeRange where
  start := max sample.2.timestamp since
  stop := min (next.elim until_ fun next => next.2.timestamp) until_

/-- The stretches from each sample to the next for which a comparison holds. -/
def trueRanges (holds : Binary64 → Bool) (since until_ : ℤ) :
    List (ℕ × Sample) → Except QueryError (List TimeRange)
  | [] => .ok []
  | sample :: rest =>
    if sample.2.value.isFinite then do
      let range := sampleRange since until_ sample rest.head?
      let later ← trueRanges holds since until_ rest
      return if range.start < range.stop ∧ holds sample.2.value then range :: later else later
    else .error .nonFinite

/-- The last of some samples up to a time. -/
def latestOf (samples : List (ℕ × Sample)) (timestamp : ℤ) : Option (ℕ × Sample) :=
  ((samples.filter fun row => decide (row.2.timestamp ≤ timestamp)).insertionSort
    MetricStore.before).getLast?

section Answers

variable {τ : Type} (authorizer : Authorizer τ) (globMatches : String → String → Bool)
  (text : DebugText) (store : MetricStore)

/-- The samples of a range of times and the one before them; before the first time there is
none. -/
def conditionSamples (seriesId : ℕ) (since until_ : ℤ) : List (ℕ × Sample) :=
  (if -(i64Max : ℤ) - 1 < since then (store.preceding seriesId since).toList else []) ++
    store.scan seriesId since until_

/-- The ranges of a query's times in which a metric compares as asked. -/
def metricTrueRanges (namePattern : String) (labels : Option (List Expr)) (operator : Operator)
    (value : Literal) (since until_ : ℤ) : Outcome (List TimeRange) := do
  match ← resolveCrossMetric authorizer globMatches text store namePattern labels with
  | none => return []
  | some seriesId =>
    let ranges ← settled (trueRanges (metricComparison text operator value) since until_
      (conditionSamples store seriesId since until_))
    return mergeRanges ranges

/-- Whether a metric compares as asked at a time. -/
def metricConditionAt (namePattern : String) (labels : Option (List Expr)) (operator : Operator)
    (value : Literal) (timestamp : ℤ) : Outcome Bool := do
  match ← resolveCrossMetric authorizer globMatches text store namePattern labels with
  | none => return false
  | some seriesId =>
    match latestOf (store.samplesOf seriesId) timestamp with
    | none => return false
    | some sample =>
      if sample.2.value.isFinite then return metricComparison text operator value sample.2.value
      else throw .nonFinite

end Answers

/-- No operator cuts a number, so that a comparison with one always has an answer. -/
theorem evaluate_number (text : DebugText) (operator : Operator) (value : Literal)
    (number : Binary64) :
    evaluate text .metrics [("value", .float number)] (.compare "value" operator value) =
      some (metricComparison text operator value number) := by
  have present : presentValue [("value", .float number)] "value" = some (.float number) := rfl
  rw [evaluate, present]
  cases operator <;> rfl

/-! ### The ranges of some samples -/

section Samples

variable {holds : Binary64 → Bool} {since until_ t : ℤ} {samples : List (ℕ × Sample)}

/-- The ranges of samples that are all finite. -/
def rangesOf (holds : Binary64 → Bool) (since until_ : ℤ) : List (ℕ × Sample) → List TimeRange
  | [] => []
  | sample :: rest =>
    let range := sampleRange since until_ sample rest.head?
    if range.start < range.stop ∧ holds sample.2.value then
      range :: rangesOf holds since until_ rest
    else rangesOf holds since until_ rest

theorem trueRanges_eq (finite : ∀ sample ∈ samples, sample.2.value.isFinite = true) :
    trueRanges holds since until_ samples = .ok (rangesOf holds since until_ samples) := by
  induction samples with
  | nil => rfl
  | cons sample rest ih =>
    have later := ih fun other mem => finite other (mem_cons_of_mem _ mem)
    rw [trueRanges, if_pos (finite sample mem_cons_self), later]
    rfl

theorem eq_rangesOf {ranges : List TimeRange} (ok : trueRanges holds since until_ samples = .ok ranges) :
    ranges = rangesOf holds since until_ samples := by
  induction samples generalizing ranges with
  | nil =>
    cases ok
    rfl
  | cons sample rest ih =>
    rw [trueRanges] at ok
    split_ifs at ok with finite
    cases later : trueRanges holds since until_ rest with
    | error error =>
      rw [later] at ok
      cases ok
    | ok found =>
      rw [later] at ok
      obtain rfl := Except.ok.inj ok
      rw [rangesOf, ih later]

theorem mem_rangesOf_cons {sample : ℕ × Sample} {range : TimeRange} :
    range ∈ rangesOf holds since until_ (sample :: samples) ↔
      (range = sampleRange since until_ sample samples.head? ∧ range.start < range.stop ∧
        holds sample.2.value = true) ∨ range ∈ rangesOf holds since until_ samples := by
  simp only [rangesOf]
  split_ifs with kept
  · rw [mem_cons]
    constructor
    · rintro (rfl | later)
      · exact .inl ⟨rfl, kept⟩
      · exact .inr later
    · rintro (⟨eq, -⟩ | later)
      · exact .inl eq
      · exact .inr later
  · constructor
    · exact .inr
    · rintro (⟨rfl, kept'⟩ | later)
      · exact absurd kept' kept
      · exact later

theorem proper_rangesOf : ∀ range ∈ rangesOf holds since until_ samples, range.start < range.stop := by
  induction samples with
  | nil => exact nofun
  | cons sample rest ih =>
    intro range mem
    rcases mem_rangesOf_cons.1 mem with ⟨-, proper, -⟩ | later
    · exact proper
    · exact ih range later

theorem union_rangesOf_cons {sample : ℕ × Sample} :
    t ∈ HalfOpen.union (rangesOf holds since until_ (sample :: samples)) ↔
      (t ∈ (sampleRange since until_ sample samples.head?).cells ∧ holds sample.2.value = true) ∨
        t ∈ HalfOpen.union (rangesOf holds since until_ samples) := by
  constructor
  · rintro ⟨range, mem, inside⟩
    rcases mem_rangesOf_cons.1 mem with ⟨rfl, -, kept⟩ | later
    · exact .inl ⟨inside, kept⟩
    · exact .inr ⟨range, later, inside⟩
  · rintro (⟨inside, kept⟩ | ⟨range, later, inside⟩)
    · exact ⟨_, mem_rangesOf_cons.2 (.inl ⟨rfl, inside.1.trans_lt inside.2, kept⟩), inside⟩
    · exact ⟨range, mem_rangesOf_cons.2 (.inr later), inside⟩

theorem inside_rangesOf (mem : t ∈ HalfOpen.union (rangesOf holds since until_ samples)) :
    since ≤ t ∧ t < until_ := by
  induction samples with
  | nil =>
    obtain ⟨range, listed, -⟩ := mem
    cases listed
  | cons sample rest ih =>
    rcases union_rangesOf_cons.1 mem with ⟨inside, -⟩ | later
    · exact ⟨(le_max_right _ _).trans inside.1, inside.2.trans_le (min_le_right _ _)⟩
    · exact ih later

theorem not_mem_of_late (late : ∀ sample ∈ samples, t < sample.2.timestamp) :
    t ∉ HalfOpen.union (rangesOf holds since until_ samples) := by
  induction samples with
  | nil => rintro ⟨range, mem, -⟩; cases mem
  | cons sample rest ih =>
    rw [union_rangesOf_cons]
    rintro (⟨inside, -⟩ | later)
    · exact absurd ((le_max_left _ _).trans inside.1) (not_le.2 (late sample mem_cons_self))
    · exact ih (fun other mem => late other (mem_cons_of_mem _ mem)) later

/-- Of samples cut at a time, the last before the cut decides. -/
theorem mem_union_rangesOf {early late : List (ℕ × Sample)} (started : since ≤ t)
    (within : t < until_) (past : ∀ sample ∈ early, sample.2.timestamp ≤ t)
    (future : ∀ sample ∈ late, t < sample.2.timestamp) :
    t ∈ HalfOpen.union (rangesOf holds since until_ (early ++ late)) ↔
      ∃ sample ∈ early.getLast?, holds sample.2.value = true := by
  induction early with
  | nil => simpa using not_mem_of_late future
  | cons sample rest ih =>
    have ih := ih fun other mem => past other (mem_cons_of_mem _ mem)
    rw [cons_append, union_rangesOf_cons, ih]
    cases rest with
    | nil =>
      -- the stretch of the last sample reaches to the first one after the time, or to the end
      have inside : t ∈ (sampleRange since until_ sample late.head?).cells := by
        refine ⟨max_le (past sample mem_cons_self) started, lt_min ?_ within⟩
        cases late with
        | nil => exact within
        | cons next _ => exact future next mem_cons_self
      simp [-HalfOpen.mem_cells, inside]
    | cons next rest =>
      have outside : t ∉ (sampleRange since until_ sample (some next)).cells := by
        intro inside
        have bound : t < next.2.timestamp := inside.2.trans_le (min_le_left _ _)
        exact absurd (past next (by simp)) (not_le.2 bound)
      simp [-HalfOpen.mem_cells, outside]

end Samples

/-! ### The last sample up to a time -/

section Last

open MetricStore

variable {samples : List (ℕ × Sample)} {since until_ t : ℤ}

theorem latestOf_eq (samples : List (ℕ × Sample)) (t : ℤ) :
    latestOf samples t = precedingOf samples (t + 1) := by
  unfold latestOf precedingOf
  simp only [Int.lt_add_one_iff]

theorem latestOf_eq_some {sample : ℕ × Sample} (distinct : Distinct samples) :
    latestOf samples t = some sample ↔
      sample ∈ samples ∧ sample.2.timestamp ≤ t ∧
        ∀ other ∈ samples, other.2.timestamp ≤ t → before other sample := by
  rw [latestOf_eq, precedingOf_eq_some distinct]
  simp only [Int.lt_add_one_iff]

/-- What is read for a range of times ends, up to a time in it, with the last sample up to that
time. -/
theorem conditionSamples_cut (store : MetricStore) (seriesId : ℕ)
    (stored : ∀ sample ∈ store.samplesOf seriesId, InI64 sample.2.timestamp) (started : since ≤ t)
    (within : t < until_) :
    ∃ early late, conditionSamples store seriesId since until_ = early ++ late ∧
      (∀ sample ∈ early, sample.2.timestamp ≤ t) ∧ (∀ sample ∈ late, t < sample.2.timestamp) ∧
      early.getLast? = latestOf (store.samplesOf seriesId) t := by
  have distinct : Distinct (store.samplesOf seriesId) := store.samples.sorted.filter _
  have lead : (if -(i64Max : ℤ) - 1 < since then (store.preceding seriesId since).toList else []) =
      (precedingOf (store.samplesOf seriesId) since).toList := by
    split_ifs with later
    · rfl
    · -- before the first time there is no sample
      rcases eq : precedingOf (store.samplesOf seriesId) since with _ | sample
      · rfl
      · obtain ⟨mem, early⟩ := mem_of_precedingOf eq
        exact absurd ((stored sample mem).1.trans_lt early) later
  refine ⟨(precedingOf (store.samplesOf seriesId) since).toList ++
    scanOf (store.samplesOf seriesId) since (t + 1), scanOf (store.samplesOf seriesId) (t + 1) until_,
    ?_, ?_, ?_, ?_⟩
  · rw [conditionSamples, lead, MetricStore.scan, append_assoc,
      ← scanOf_cut distinct (by omega) (by omega)]
  · intro sample mem
    rcases mem_append.1 mem with mem | mem
    · have := (mem_of_precedingOf (mem_toList.1 mem)).2
      omega
    · have := (mem_scanOf.1 mem).2.2
      omega
  · intro sample mem
    have := (mem_scanOf.1 mem).2.1
    omega
  · rw [precedingOf_cut distinct (by omega), latestOf_eq]

/-- The ranges of what is read contain a time just if the comparison holds of the last sample up
to it. -/
theorem mem_conditionRanges (holds : Binary64 → Bool) (store : MetricStore) (seriesId : ℕ)
    (stored : ∀ sample ∈ store.samplesOf seriesId, InI64 sample.2.timestamp) (started : since ≤ t)
    (within : t < until_) :
    t ∈ HalfOpen.union (mergeRanges (rangesOf holds since until_
        (conditionSamples store seriesId since until_))) ↔
      ∃ sample, latestOf (store.samplesOf seriesId) t = some sample ∧
        holds sample.2.value = true := by
  obtain ⟨early, late, cut, past, future, last⟩ :=
    conditionSamples_cut store seriesId stored started within
  rw [mergeRanges, HalfOpen.union_merge, cut, mem_union_rangesOf started within past future, last]
  rfl

end Last

/-! ### The two answers agree -/

section Agree

open MetricStore

variable {τ : Type} {authorizer : Authorizer τ} {globMatches : String → String → Bool}
  {text : DebugText} {store : MetricStore} {namePattern : String} {labels : Option (List Expr)}
  {operator : Operator} {value : Literal} {since until_ t : ℤ}

theorem mem_conditionSamples {seriesId : ℕ} {sample : ℕ × Sample}
    (mem : sample ∈ conditionSamples store seriesId since until_) :
    sample ∈ store.samplesOf seriesId := by
  rcases mem_append.1 mem with lead | scanned
  · split_ifs at lead
    · exact (mem_of_precedingOf (mem_toList.1 lead)).1
    · cases lead
  · exact (mem_scanOf.1 scanned).1

/-- Whatever the ranges are, they are in order and within the times of the query. -/
theorem ordered_metricTrueRanges {ranges : List TimeRange}
    (ok : metricTrueRanges authorizer globMatches text store namePattern labels operator value since
      until_ = settled (.ok ranges)) :
    HalfOpen.Apart ranges ∧ ∀ t ∈ HalfOpen.union ranges, since ≤ t ∧ t < until_ := by
  obtain ⟨resolved, -, ok⟩ := bind_eq_settled_ok.1 ok
  cases resolved with
  | none =>
    cases ok
    exact ⟨⟨nofun, .nil⟩, nofun⟩
  | some seriesId =>
    obtain ⟨found, read, ok⟩ := bind_eq_settled_ok.1 ok
    cases ok
    have same := eq_rangesOf (Option.some.inj read)
    subst same
    refine ⟨HalfOpen.apart_merge proper_rangesOf, fun t mem => ?_⟩
    rw [mergeRanges, HalfOpen.union_merge] at mem
    exact inside_rangesOf mem

section

variable {resolved : Option ℕ}
  (found : resolveCrossMetric authorizer globMatches text store namePattern labels =
    settled (.ok resolved))
  (finite : ∀ seriesId ∈ resolved, ∀ sample ∈ store.samplesOf seriesId,
    sample.2.value.isFinite = true)
include found finite

theorem metricTrueRanges_eq :
    metricTrueRanges authorizer globMatches text store namePattern labels operator value since
        until_ =
      settled (.ok (resolved.elim [] fun seriesId =>
        mergeRanges (rangesOf (metricComparison text operator value) since until_
          (conditionSamples store seriesId since until_)))) := by
  unfold metricTrueRanges
  rw [found, settled_ok_bind]
  cases resolved with
  | none => rfl
  | some seriesId =>
    have read : ∀ sample ∈ conditionSamples store seriesId since until_,
        sample.2.value.isFinite = true :=
      fun sample mem => finite seriesId rfl sample (mem_conditionSamples mem)
    simp only [trueRanges_eq read, settled_ok_bind]
    rfl

theorem metricConditionAt_eq :
    metricConditionAt authorizer globMatches text store namePattern labels operator value t =
      settled (.ok (resolved.any fun seriesId =>
        (latestOf (store.samplesOf seriesId) t).any fun sample =>
          metricComparison text operator value sample.2.value)) := by
  unfold metricConditionAt
  rw [found, settled_ok_bind]
  cases resolved with
  | none => rfl
  | some seriesId =>
    cases last : latestOf (store.samplesOf seriesId) t with
    | none =>
      simp only [last, any_some, any_none]
      rfl
    | some sample =>
      have distinct : Distinct (store.samplesOf seriesId) := store.samples.sorted.filter _
      have mem := ((latestOf_eq_some distinct).1 last).1
      simp only [last, finite seriesId rfl sample mem, if_true, any_some]
      rfl

end

/-- **Historical and live conditions agree**: at every time of a query, the ranges in which a
metric compares as asked contain the time just if a look at its last sample says so. -/
theorem historical_live_agree (authorizer : Authorizer τ) (globMatches : String → String → Bool)
    (text : DebugText) (store : MetricStore) (namePattern : String) (labels : Option (List Expr))
    (operator : Operator) (value : Literal) (since until_ : ℤ) {resolved : Option ℕ}
    (found : resolveCrossMetric authorizer globMatches text store namePattern labels =
      settled (.ok resolved))
    (finite : ∀ seriesId ∈ resolved, ∀ sample ∈ store.samplesOf seriesId,
      sample.2.value.isFinite = true)
    (stored : ∀ seriesId ∈ resolved, ∀ sample ∈ store.samplesOf seriesId,
      InI64 sample.2.timestamp) :
    ∃ ranges, metricTrueRanges authorizer globMatches text store namePattern labels operator value
        since until_ = settled (.ok ranges) ∧
      ∀ t, since ≤ t → t < until_ → ∃ holds,
        metricConditionAt authorizer globMatches text store namePattern labels operator value t =
          settled (.ok holds) ∧
        rangeContains ranges t = holds ∧
        (t ∈ HalfOpen.union ranges ↔ holds = true) ∧
        (holds = true ↔ ∃ seriesId ∈ resolved, ∃ sample ∈ store.samplesOf seriesId,
          sample.2.timestamp ≤ t ∧
          (∀ other ∈ store.samplesOf seriesId, other.2.timestamp ≤ t → before other sample) ∧
          evaluate text .metrics [("value", .float sample.2.value)]
            (.compare "value" operator value) = some true) := by
  refine ⟨_, metricTrueRanges_eq found finite, fun t started within => ?_⟩
  refine ⟨_, metricConditionAt_eq found finite, ?_⟩
  cases resolved with
  | none => simp [rangeContains]
  | some seriesId =>
    have distinct : Distinct (store.samplesOf seriesId) := store.samples.sorted.filter _
    have inside := mem_conditionRanges (metricComparison text operator value) store seriesId
      (stored seriesId rfl) started within
    have ordered : HalfOpen.Ordered (mergeRanges (rangesOf (metricComparison text operator value)
        since until_ (conditionSamples store seriesId since until_))) :=
      (HalfOpen.apart_merge proper_rangesOf).ordered
    simp only [elim_some, any_some]
    refine ⟨?_, inside.trans (any_eq_true _ _).symm, ?_⟩
    · rw [Bool.eq_iff_iff, rangeContains_eq, HalfOpen.contains_iff ordered, inside,
        Option.any_eq_true]
    · rw [Option.any_eq_true]
      simp only [evaluate_number, Option.mem_def, latestOf_eq_some distinct, and_assoc,
        Option.some.injEq, exists_eq_left']

/-- A gauge with two samples of the same time. -/
def tiedGauge : MetricStore where
  series := RowTable.empty.insert ⟨"load", "", .gauge, 0, none, none⟩
  samples := (RowTable.empty.insert ⟨1, Vector.replicate 16 0, 5, .ofInt 1, none⟩).insert
    ⟨1, Vector.replicate 16 0, 5, .ofInt 3, none⟩
  rollups := []
  cache := []
  cacheCapacity := 4

theorem historical_live_agree_tiedGauge :
    ∃ ranges, metricTrueRanges everybody (· == ·) default tiedGauge "load" none .greater (.signed 2)
        0 10 = settled (.ok ranges) ∧ rangeContains ranges 7 = true := by
  have found : resolveCrossMetric everybody (· == ·) default tiedGauge "load" none =
      settled (.ok (some 1)) := by
    decide +kernel
  have live : metricConditionAt everybody (· == ·) default tiedGauge "load" none .greater
      (.signed 2) 7 = settled (.ok true) := by
    decide +kernel
  have sound : ∀ seriesId ∈ some 1, ∀ sample ∈ tiedGauge.samplesOf seriesId,
      sample.2.value.isFinite = true ∧ InI64 sample.2.timestamp := by
    decide +kernel
  obtain ⟨ranges, eq, agree⟩ := historical_live_agree everybody (· == ·) default tiedGauge "load"
    none .greater (.signed 2) 0 10 found (fun seriesId mem sample listed =>
      (sound seriesId mem sample listed).1) fun seriesId mem sample listed =>
        (sound seriesId mem sample listed).2
  obtain ⟨holds, answer, same, -⟩ := agree 7 (by decide) (by decide)
  rw [live] at answer
  cases answer
  exact ⟨ranges, eq, same⟩

end Agree

end Eventd
