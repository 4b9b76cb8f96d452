import Eventd.Metric.Condition

/-!
# Conditions on records of another type

`cross_type_ranges`, `cross_filter_ranges`, `cross_event_timestamps` and `cross_log_timestamps` of
`eventd/src/query/executor.rs`: a query may ask that its records are near an event or a log record,
or that a metric compares with a value at their time.  Every filter gives the ranges of the
query's times in which it holds, and the query looks at their intersection.  The stores stand still
and no deadline passes meanwhile.

* `Stores`, `crossEventTimestamps`, `crossLogTimestamps`: the times of records that a filter names;
* `crossFilterRanges`, `crossTypeRanges`: one filter, and all of them;
* `matching`: the times of all records that an existence filter is about.
-/

namespace Eventd

open List

/-- The columns of `logs` that a filter reads. -/
structure LogRow where
  origin : String
  timestamp : ℤ
  message : String
  deriving DecidableEq

/-- The event shards, the log store with its catalogue, and the metric store. -/
structure Stores where
  events : List Shard
  logs : RowTable LogRow
  logOrigins : List String
  metrics : MetricStore

/-- Rows in the order of their times, then of their ids. -/
def byTime {α : Type} (timestamp : α → ℤ) (rows : List (ℕ × α)) : List (ℕ × α) :=
  rows.insertionSort fun a b => toLex (timestamp a.2, a.1) ≤ toLex (timestamp b.2, b.1)

/-- The rows of a table in a range of times, in order. -/
def selectByTime {α : Type} (timestamp : α → ℤ) (since until_ : ℤ) (rows : List (ℕ × α)) :
    List (ℕ × α) :=
  byTime timestamp (rows.filter fun row =>
    decide (since ≤ timestamp row.2) && decide (timestamp row.2 < until_))

section Filters

variable {τ : Type} (authorizer : Authorizer τ) (globMatches : String → String → Bool)
  (text : DebugText) (stores : Stores)

def discoverEventIdentifiers (pattern : Option String) : List String :=
  stores.events.flatMap fun shard => shard.eventTypes.filter fun identifier =>
    pattern.all fun pattern => globMatches pattern identifier

def discoverLogIdentifiers (origins : List String) : List String :=
  stores.logOrigins.filter fun identifier =>
    origins.isEmpty || origins.any fun origin => asciiEqual origin identifier

/-- The event types that a filter names and the caller may know the time of. -/
def crossEventIdentifiers (pattern : String) : Except QueryError (List String) :=
  authorizedIdentifiers authorizer .events (discoverEventIdentifiers globMatches stores (some pattern))
    ["event.time"]

/-- The origins that a filter names, and whose records the caller may know the time of, and the
text if the filter asks about it. -/
def crossLogIdentifiers (origin : String) (containing : Option String) :
    Except QueryError (List String) :=
  authorizedIdentifiers authorizer .logs (discoverLogIdentifiers stores [origin])
    ("timestamp" :: if containing.isSome then ["message"] else [])

/-- Whether a log record has the text that a filter asks for. -/
def containsText (containing : Option String) (row : LogRow) : Bool :=
  containing.all fun needle => asciiContains row.message needle == some true

def crossEventTimestamps (pattern : String) (since until_ : ℤ) : Except QueryError (List ℤ) := do
  let allowed ← crossEventIdentifiers authorizer globMatches stores pattern
  if allowed = [] then return []
  let output := stores.events.flatMap fun shard =>
    ((selectByTime EventRow.timestamp since until_ shard.events.rows).filter fun row =>
      decide (row.2.eventType ∈ allowed)).map fun row => row.2.timestamp
  return output.insertionSort (· ≤ ·)

def crossLogTimestamps (origin : String) (containing : Option String) (since until_ : ℤ) :
    Except QueryError (List ℤ) := do
  let allowed ← crossLogIdentifiers authorizer stores origin containing
  if allowed = [] then return []
  return ((selectByTime LogRow.timestamp since until_ stores.logs.rows).filter fun row =>
    decide (row.2.origin ∈ allowed) && containsText containing row.2).map fun row => row.2.timestamp

/-- The ranges of a query's times in which a filter holds. -/
def crossFilterRanges (since until_ window : ℤ) : CrossFilter → Outcome (List TimeRange)
  | .metric name labels operator value =>
    metricTrueRanges authorizer globMatches text stores.metrics name labels operator value since
      until_
  | .eventExists pattern => do
      let (lower, upper) := splitWindow window
      let timestamps ← settled (crossEventTimestamps authorizer globMatches stores pattern
        (saturatingSub since upper) (saturatingAdd until_ lower))
      return existenceRanges timestamps since until_ lower upper
  | .logExists origin containing => do
      let (lower, upper) := splitWindow window
      let timestamps ← settled (crossLogTimestamps authorizer stores origin containing
        (saturatingSub since upper) (saturatingAdd until_ lower))
      return existenceRanges timestamps since until_ lower upper

/-- The filters one after the other, until nothing is left. -/
def combineRanges (since until_ window : ℤ) (combined : List TimeRange) :
    List CrossFilter → Outcome (List TimeRange)
  | [] => return combined
  | filter :: filters => do
      let ranges ← crossFilterRanges authorizer globMatches text stores since until_ window filter
      let combined := intersectRanges combined ranges
      if combined.isEmpty then return combined
      else combineRanges since until_ window combined filters

/-- The ranges of a query's times in which every filter holds. -/
def crossTypeRanges (filters : List CrossFilter) (since until_ window : ℤ) :
    Outcome (List TimeRange) :=
  combineRanges authorizer globMatches text stores since until_ window [⟨since, until_⟩] filters

/-! ### Existence filters -/

def CrossFilter.isMetric : CrossFilter → Bool
  | .metric .. => true
  | _ => false

/-- The times of the records that an existence filter names, in a range of times. -/
def crossTimestamps (since until_ : ℤ) : CrossFilter → Except QueryError (List ℤ)
  | .metric .. => .ok []
  | .eventExists pattern => crossEventTimestamps authorizer globMatches stores pattern since until_
  | .logExists origin containing =>
    crossLogTimestamps authorizer stores origin containing since until_

/-- The times of all records that an existence filter is about. -/
def matching : CrossFilter → Except QueryError (List ℤ)
  | .metric .. => .ok []
  | .eventExists pattern => do
      let allowed ← crossEventIdentifiers authorizer globMatches stores pattern
      return stores.events.flatMap fun shard =>
        (shard.events.rows.filter fun row => decide (row.2.eventType ∈ allowed)).map
          fun row => row.2.timestamp
  | .logExists origin containing => do
      let allowed ← crossLogIdentifiers authorizer stores origin containing
      return (stores.logs.rows.filter fun row =>
        decide (row.2.origin ∈ allowed) && containsText containing row.2).map
          fun row => row.2.timestamp

end Filters

/-- Whether a time is in a range that is read. -/
def inRange (since until_ timestamp : ℤ) : Bool :=
  decide (since ≤ timestamp) && decide (timestamp < until_)

theorem mem_inRange {since until_ timestamp : ℤ} :
    inRange since until_ timestamp = true ↔ since ≤ timestamp ∧ timestamp < until_ := by
  rw [inRange, Bool.and_eq_true, decide_eq_true_iff, decide_eq_true_iff]

/-- Reading a range of times and choosing among its rows is choosing, and then keeping the times
in the range. -/
theorem perm_selectByTime {α : Type} (timestamp : α → ℤ) (keep : α → Bool) (since until_ : ℤ)
    (rows : List (ℕ × α)) :
    (((selectByTime timestamp since until_ rows).filter fun row => keep row.2).map
        fun row => timestamp row.2).Perm
      (((rows.filter fun row => keep row.2).map fun row => timestamp row.2).filter
        (inRange since until_)) := by
  rw [filter_map]
  apply List.Perm.map
  have sorted : (selectByTime timestamp since until_ rows).Perm
      (rows.filter fun row => inRange since until_ (timestamp row.2)) := perm_insertionSort _ _
  refine (sorted.filter _).trans ?_
  rw [filter_filter, filter_filter]
  refine List.Perm.of_eq (filter_congr fun row _ => ?_)
  exact Bool.and_comm _ _

section Existence

variable {τ : Type} {authorizer : Authorizer τ} {globMatches : String → String → Bool}
  {text : DebugText} {stores : Stores} {filter : CrossFilter} {times : List ℤ}

/-- What is read for a filter is what it is about, in the range of times. -/
theorem crossTimestamps_perm (since until_ : ℤ)
    (about : matching authorizer globMatches stores filter = .ok times) :
    ∃ fetched, crossTimestamps authorizer globMatches stores since until_ filter = .ok fetched ∧
      fetched.Perm (times.filter (inRange since until_)) := by
  cases filter with
  | metric name labels operator value =>
    cases about
    exact ⟨[], rfl, .refl _⟩
  | eventExists pattern =>
    simp only [matching] at about
    simp only [crossTimestamps, crossEventTimestamps]
    cases named : crossEventIdentifiers authorizer globMatches stores pattern with
    | error error =>
      rw [named] at about
      cases about
    | ok allowed =>
      rw [named] at about
      obtain rfl := Except.ok.inj about
      rcases eq_or_ne allowed [] with rfl | some
      · exact ⟨[], rfl, by simp⟩
      · refine ⟨_, if_neg some, (perm_insertionSort _ _).trans ?_⟩
        rw [filter_flatMap]
        exact List.Perm.flatMap_left _ fun shard _ =>
          perm_selectByTime EventRow.timestamp (fun row => decide (row.eventType ∈ allowed)) _ _ _
  | logExists origin containing =>
    simp only [matching] at about
    simp only [crossTimestamps, crossLogTimestamps]
    cases named : crossLogIdentifiers authorizer stores origin containing with
    | error error =>
      rw [named] at about
      cases about
    | ok allowed =>
      rw [named] at about
      obtain rfl := Except.ok.inj about
      rcases eq_or_ne allowed [] with rfl | some
      · exact ⟨[], rfl, by simp⟩
      · exact ⟨_, if_neg some, perm_selectByTime LogRow.timestamp
          (fun row => decide (row.origin ∈ allowed) && containsText containing row) _ _ _⟩

theorem crossFilterRanges_eq {since until_ window : ℤ} (records : filter.isMetric = false) :
    crossFilterRanges authorizer globMatches text stores since until_ window filter =
      settled ((crossTimestamps authorizer globMatches stores
        (saturatingSub since (splitWindow window).2) (saturatingAdd until_ (splitWindow window).1)
        filter).map fun timestamps =>
          existenceRanges timestamps since until_ (splitWindow window).1 (splitWindow window).2) := by
  cases filter with
  | metric name labels operator value => cases records
  | eventExists pattern =>
    simp only [crossFilterRanges, crossTimestamps]
    generalize crossEventTimestamps authorizer globMatches stores pattern _ _ = read
    cases read <;> rfl
  | logExists origin containing =>
    simp only [crossFilterRanges, crossTimestamps]
    generalize crossLogTimestamps authorizer stores origin containing _ _ = read
    cases read <;> rfl

/-- A record that is near some time of the query is among those read for it. -/
theorem near_inRange {since until_ lower upper t e : ℤ} (stored : InI64 e) (early : e < i64Max)
    (started : since ≤ t) (before : t < until_) (after : e - lower ≤ t) (ahead : t < e + upper) :
    inRange (saturatingSub since upper) (saturatingAdd until_ lower) e = true := by
  rw [mem_inRange]
  unfold InI64 at stored
  unfold saturatingSub saturatingAdd
  omega

/-- **Existence filters mean what they say**: a time of the query is in the ranges of a filter
just if some record that the filter is about is near it, and the records read for the query are
enough to know. -/
theorem existence_filter_exact (authorizer : Authorizer τ) (globMatches : String → String → Bool)
    (text : DebugText) (stores : Stores) {filter : CrossFilter} (records : filter.isMetric = false)
    {times : List ℤ} (about : matching authorizer globMatches stores filter = .ok times)
    (stored : ∀ e ∈ times, InI64 e ∧ e < i64Max) (since until_ window : ℤ) (sinceFits : InI64 since)
    (untilFits : InI64 until_) (wide : 0 ≤ window) :
    (splitWindow window).1 + (splitWindow window).2 = window ∧
    0 ≤ (splitWindow window).1 ∧ 0 ≤ (splitWindow window).2 ∧
    (∃ fetched, crossTimestamps authorizer globMatches stores
        (saturatingSub since (splitWindow window).2) (saturatingAdd until_ (splitWindow window).1)
        filter = .ok fetched ∧
      ∀ t, since ≤ t → t < until_ → ∀ e,
        e - (splitWindow window).1 ≤ t → t < e + (splitWindow window).2 →
          fetched.count e = times.count e) ∧
    ∃ ranges, crossFilterRanges authorizer globMatches text stores since until_ window filter =
        settled (.ok ranges) ∧
      HalfOpen.Apart ranges ∧ (∀ range ∈ ranges, since ≤ range.start ∧ range.stop ≤ until_) ∧
      ∀ t, since ≤ t → t < until_ →
        ((t ∈ HalfOpen.union ranges ↔ ∃ e ∈ times,
            e - (splitWindow window).1 ≤ t ∧ t < e + (splitWindow window).2) ∧
          (rangeContains ranges t = true ↔ t ∈ HalfOpen.union ranges)) := by
  obtain ⟨low, high, whole⟩ := splitWindow_nonneg wide
  obtain ⟨fetched, read, perm⟩ := crossTimestamps_perm
    (saturatingSub since (splitWindow window).2) (saturatingAdd until_ (splitWindow window).1) about
  have apart : HalfOpen.Apart (existenceRanges fetched since until_ (splitWindow window).1
      (splitWindow window).2) := apart_existenceRanges fetched
  refine ⟨whole, low, high, ⟨fetched, read, ?_⟩, _, ?_, apart, ?_, ?_⟩
  · intro t started before e after ahead
    rw [perm.count_eq]
    by_cases mem : e ∈ times
    · exact count_filter
        (near_inRange (stored e mem).1 (stored e mem).2 started before after ahead)
    · rw [count_eq_zero_of_not_mem mem,
        count_eq_zero_of_not_mem fun kept => mem (mem_of_mem_filter kept)]
  · rw [crossFilterRanges_eq records, read]
    rfl
  · exact bounds_of_union apart.proper fun t => inside_existenceRanges
  · intro t started before
    refine ⟨?_, ?_⟩
    · rw [mem_existenceRanges sinceFits untilFits started before]
      constructor
      · rintro ⟨e, mem, near⟩
        exact ⟨e, mem_of_mem_filter (perm.mem_iff.1 mem), near⟩
      · rintro ⟨e, mem, after, ahead⟩
        have kept := near_inRange (stored e mem).1 (stored e mem).2 started before after ahead
        exact ⟨e, perm.mem_iff.2 (mem_filter.2 ⟨mem, kept⟩), after, ahead⟩
    · rw [rangeContains_eq, HalfOpen.contains_iff apart.ordered]

/-- One event, one nanosecond before the last time there is. -/
def lateEvent : Stores where
  events := [
    { events := RowTable.empty.insert
        ⟨Vector.replicate 16 0, (i64Max : ℤ) - 1, none, none, none, "disk.full", none, none, none, none⟩
      eventTypes := ["disk.full"]
      receipts := []
      knownTypes := ["disk.full"]
      orphanCandidates := []
      receipts_nodup := nodup_nil }]
  logs := .empty
  logOrigins := []
  metrics := ⟨.empty, .empty, [], [], 4⟩

theorem existence_filter_exact_lateEvent :
    ∃ ranges, crossFilterRanges everybody (· == ·) default lateEvent ((i64Max : ℤ) - 10) i64Max 7
        (.eventExists "disk.full") = settled (.ok ranges) ∧
      (i64Max : ℤ) - 4 ∈ HalfOpen.union ranges ∧ (i64Max : ℤ) - 5 ∉ HalfOpen.union ranges := by
  have about : matching everybody (· == ·) lateEvent (.eventExists "disk.full") =
      .ok [(i64Max : ℤ) - 1] := by
    decide +kernel
  have stored : ∀ e ∈ [(i64Max : ℤ) - 1], InI64 e ∧ e < i64Max := by decide
  obtain ⟨-, -, -, -, ranges, ok, -, -, exact_⟩ := existence_filter_exact everybody (· == ·) default
    lateEvent rfl about stored ((i64Max : ℤ) - 10) i64Max 7 (by decide) (by decide) (by decide)
  refine ⟨ranges, ok, ?_, ?_⟩
  · rw [(exact_ _ (by decide) (by decide)).1]
    decide
  · rw [(exact_ _ (by decide) (by decide)).1]
    decide

end Existence

/-! ### All filters together -/

section Combined

variable {τ : Type} {authorizer : Authorizer τ} {globMatches : String → String → Bool}
  {text : DebugText} {stores : Stores} {since until_ window : ℤ} {filter : CrossFilter}
  {filters : List CrossFilter} {ranges result : List TimeRange}

/-- The ranges of every filter are in order and within the times of the query. -/
theorem apart_crossFilterRanges
    (ok : crossFilterRanges authorizer globMatches text stores since until_ window filter =
      settled (.ok ranges)) :
    HalfOpen.Apart ranges ∧ ∀ t ∈ HalfOpen.union ranges, since ≤ t ∧ t < until_ := by
  cases metric : filter.isMetric with
  | true =>
    cases filter with
    | metric name labels operator value => exact ordered_metricTrueRanges ok
    | eventExists pattern => cases metric
    | logExists origin containing => cases metric
  | false =>
    rw [crossFilterRanges_eq metric] at ok
    generalize crossTimestamps authorizer globMatches stores _ _ filter = read at ok
    cases read with
    | error error => cases ok
    | ok fetched =>
      cases ok
      exact ⟨apart_existenceRanges fetched, fun t mem => inside_existenceRanges mem⟩

/-- A time at which a filter holds. -/
def HoldsAt (authorizer : Authorizer τ) (globMatches : String → String → Bool) (text : DebugText)
    (stores : Stores) (since until_ window : ℤ) (filter : CrossFilter) (t : ℤ) : Prop :=
  ∃ ranges, crossFilterRanges authorizer globMatches text stores since until_ window filter =
    settled (.ok ranges) ∧ rangeContains ranges t = true

theorem holdsAt_iff
    (ok : crossFilterRanges authorizer globMatches text stores since until_ window filter =
      settled (.ok ranges)) {t : ℤ} :
    HoldsAt authorizer globMatches text stores since until_ window filter t ↔
      t ∈ HalfOpen.union ranges := by
  have ordered := (apart_crossFilterRanges ok).1.ordered
  constructor
  · rintro ⟨other, ok', holds⟩
    rw [ok] at ok'
    cases ok'
    rwa [rangeContains_eq, HalfOpen.contains_iff ordered] at holds
  · intro mem
    exact ⟨ranges, ok, by rwa [rangeContains_eq, HalfOpen.contains_iff ordered]⟩

/-- Each filter narrows what is left; once nothing is, the rest changes nothing. -/
theorem union_combineRanges {combined : List TimeRange} (ordered : HalfOpen.Ordered combined)
    (ok : combineRanges authorizer globMatches text stores since until_ window combined filters =
      settled (.ok result)) :
    HalfOpen.Ordered result ∧ ∀ t, t ∈ HalfOpen.union result ↔ t ∈ HalfOpen.union combined ∧
      ∀ filter ∈ filters,
        HoldsAt authorizer globMatches text stores since until_ window filter t := by
  induction filters generalizing combined with
  | nil =>
    cases ok
    exact ⟨ordered, by simp⟩
  | cons filter filters ih =>
    rw [combineRanges] at ok
    obtain ⟨ranges, found, ok⟩ := bind_eq_settled_ok.1 ok
    have right := (apart_crossFilterRanges found).1.ordered
    have both := HalfOpen.union_intersect ordered right
    have narrowed (t : ℤ) : t ∈ HalfOpen.union (intersectRanges combined ranges) ↔
        t ∈ HalfOpen.union combined ∧
          HoldsAt authorizer globMatches text stores since until_ window filter t := by
      rw [intersectRanges, both, holdsAt_iff found]
      rfl
    simp only [forall_mem_cons, ← and_assoc, ← narrowed]
    dsimp only at ok
    split_ifs at ok with empty
    · cases ok
      rw [List.isEmpty_iff] at empty
      rw [empty]
      exact ⟨HalfOpen.ordered_nil, by simp⟩
    · exact ih (HalfOpen.ordered_intersect ordered right) ok

theorem combineRanges_ok (combined : List TimeRange)
    (each : ∀ filter ∈ filters, ∃ ranges,
      crossFilterRanges authorizer globMatches text stores since until_ window filter =
        settled (.ok ranges)) :
    ∃ result, combineRanges authorizer globMatches text stores since until_ window combined filters =
      settled (.ok result) := by
  induction filters generalizing combined with
  | nil => exact ⟨combined, rfl⟩
  | cons filter filters ih =>
    obtain ⟨ranges, found⟩ := each filter mem_cons_self
    rw [combineRanges, found, settled_ok_bind]
    dsimp only
    split_ifs
    · exact ⟨_, rfl⟩
    · exact ih _ fun other mem => each other (mem_cons_of_mem _ mem)

/-- A query without times ends with no ranges, or with its own if it has no filters. -/
theorem crossTypeRanges_of_lt (empty : until_ < since)
    (ok : crossTypeRanges authorizer globMatches text stores filters since until_ window =
      settled (.ok result)) (t : ℤ) : rangeContains result t = false := by
  unfold crossTypeRanges at ok
  cases filters with
  | nil =>
    cases ok
    rw [rangeContains_eq]
    rcases le_or_gt since t with started | early
    · rw [HalfOpen.contains_of_le started]
      exact decide_eq_false (not_lt.2 (empty.le.trans started))
    · exact HalfOpen.contains_of_lt early
  | cons filter filters =>
    rw [combineRanges] at ok
    obtain ⟨ranges, -, ok⟩ := bind_eq_settled_ok.1 ok
    have none : intersectRanges [⟨since, until_⟩] ranges = [] :=
      HalfOpen.intersect_eq_nil fun range mem => by
        rw [mem_singleton.1 mem]
        exact empty.le
    simp only [none, isEmpty_nil, if_true] at ok
    cases ok
    rfl

theorem mem_crossTypeRanges
    (ok : crossTypeRanges authorizer globMatches text stores filters since until_ window =
      settled (.ok result)) (t : ℤ) :
    rangeContains result t = true ↔ (since ≤ t ∧ t < until_) ∧ ∀ filter ∈ filters,
      HoldsAt authorizer globMatches text stores since until_ window filter t := by
  rcases le_or_gt since until_ with forward | empty
  · obtain ⟨ordered, union⟩ := union_combineRanges (HalfOpen.ordered_singleton forward) ok
    rw [rangeContains_eq, HalfOpen.contains_iff ordered, union]
    simp
  · rw [crossTypeRanges_of_lt empty ok]
    constructor
    · exact nofun
    · rintro ⟨⟨started, before⟩, -⟩
      omega

/-- **The algebra of ranges**: merging, intersection and membership are those of the sets of times,
so that a query with filters looks at the times at which every filter holds. -/
theorem range_algebra (authorizer : Authorizer τ) (globMatches : String → String → Bool)
    (text : DebugText) (stores : Stores) :
    (∀ ranges : List TimeRange, (∀ range ∈ ranges, range.start < range.stop) →
      HalfOpen.Apart (mergeRanges ranges) ∧
        HalfOpen.union (mergeRanges ranges) = HalfOpen.union ranges) ∧
    (∀ left right : List TimeRange, HalfOpen.Ordered left → HalfOpen.Ordered right →
      HalfOpen.Ordered (intersectRanges left right) ∧
        HalfOpen.union (intersectRanges left right) =
          HalfOpen.union left ∩ HalfOpen.union right) ∧
    (∀ ranges : List TimeRange, HalfOpen.Ordered ranges → ∀ t,
      rangeContains ranges t = true ↔ t ∈ HalfOpen.union ranges) ∧
    ∀ (filters : List CrossFilter) (since until_ window : ℤ),
      ((∀ filter ∈ filters, ∃ ranges,
          crossFilterRanges authorizer globMatches text stores since until_ window filter =
            settled (.ok ranges)) →
        ∃ result, crossTypeRanges authorizer globMatches text stores filters since until_ window =
          settled (.ok result)) ∧
      ∀ result, crossTypeRanges authorizer globMatches text stores filters since until_ window =
          settled (.ok result) → ∀ t,
        (rangeContains result t = true ↔ (since ≤ t ∧ t < until_) ∧ ∀ filter ∈ filters,
          HoldsAt authorizer globMatches text stores since until_ window filter t) ∧
        (filters ≠ [] → (rangeContains result t = true ↔ ∀ filter ∈ filters,
          HoldsAt authorizer globMatches text stores since until_ window filter t)) := by
  refine ⟨fun ranges proper => ⟨HalfOpen.apart_merge proper, HalfOpen.union_merge ranges⟩,
    fun left right leftOrdered rightOrdered =>
      ⟨HalfOpen.ordered_intersect leftOrdered rightOrdered,
        HalfOpen.union_intersect leftOrdered rightOrdered⟩, ?_, ?_⟩
  · intro ranges ordered t
    rw [rangeContains_eq, HalfOpen.contains_iff ordered]
  · intro filters since until_ window
    refine ⟨combineRanges_ok _, fun result ok t => ⟨mem_crossTypeRanges ok t, fun some => ?_⟩⟩
    rw [mem_crossTypeRanges ok t]
    refine ⟨And.right, fun all => ⟨?_, all⟩⟩
    obtain ⟨filter, mem⟩ := exists_mem_of_ne_nil filters some
    obtain ⟨ranges, found, -⟩ := all filter mem
    exact (apart_crossFilterRanges found).2 t ((holdsAt_iff found).1 (all filter mem))

theorem range_algebra_touching :
    HalfOpen.union (mergeRanges [⟨3, 5⟩, ⟨1, 3⟩]) = HalfOpen.union [⟨3, 5⟩, (⟨1, 3⟩ : TimeRange)] ∧
      ∃ result, crossTypeRanges everybody (· == ·) default lateEvent [.eventExists "disk.full"] 0
          i64Max 7 = settled (.ok result) ∧
        rangeContains result ((i64Max : ℤ) - 4) = true := by
  obtain ⟨merging, -, -, filtering⟩ := range_algebra everybody (· == ·) default lateEvent
  have found : crossFilterRanges everybody (· == ·) default lateEvent 0 i64Max 7
      (.eventExists "disk.full") = settled (.ok [⟨(i64Max : ℤ) - 4, i64Max⟩]) := by
    decide +kernel
  obtain ⟨total, exact_⟩ := filtering [.eventExists "disk.full"] 0 i64Max 7
  obtain ⟨result, ok⟩ := total fun filter mem => by
    rw [mem_singleton.1 mem]
    exact ⟨_, found⟩
  refine ⟨(merging _ (by decide)).2, result, ok, ?_⟩
  rw [(exact_ result ok _).1]
  refine ⟨by decide, fun filter mem => ?_⟩
  rw [mem_singleton.1 mem]
  exact ⟨_, found, by decide⟩

end Combined

end Eventd
