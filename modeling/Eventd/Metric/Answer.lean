import Eventd.Metric.Derived

/-!
# The answer of a window query

What a window query returns for one series, whether or not it takes whole windows from the
cache: the rows of the series' windows over the range.

* `SoundRollups`: rows of the cache that their samples bear out;
* `cached_windows`: a full set of trusted rows is the range it covers;
* `rollupSeries_answer`: one series; `executeMetric_answer`: a query, with the cache and
  without it.
-/

namespace Eventd

open KeyedList List Interference Fallible

variable {τ : Type}

/-! ### Whole windows -/

theorem ok_of_checked {value result : ℤ}
    (ok : (checkedI64 value).elim (.error .invalidTime) .ok = (.ok result : Except QueryError ℤ)) :
    result = value := by
  unfold checkedI64 at ok
  split_ifs at ok
  · exact (Except.ok.inj ok).symm
  · cases ok

/-- The whole windows of a range, from the start of the first to the end of the last. -/
structure WholeWindows (query : WindowQuery τ) (first stop : ℤ) : Prop where
  pos : 0 < query.spec.width
  low : query.spec.width ∣ first
  high : query.spec.width ∣ stop
  proper : first < stop
  since : query.since ≤ first
  until_ : stop ≤ query.until_

/-- The whole windows of a range lie in it. -/
theorem fullWindows_spec {query : WindowQuery τ} {first stop : ℤ}
    (ok : query.fullWindows = .ok (first, stop)) (proper : first < stop) :
    WholeWindows query first stop := by
  obtain ⟨width, checked, ok⟩ := bind_eq_ok.1 ok
  have eq := ok_of_checked checked
  have nonneg : 0 ≤ width := eq ▸ Int.natCast_nonneg _
  have spec : query.spec.width = width := eq.symm
  have start : ∃ lower, lower = first ∧ ∃ last, last = stop ∧ last = query.until_ / width * width ∧
      (query.since % width = 0 ∧ lower = query.since ∨
        query.since % width ≠ 0 ∧ lower = (query.since / width + 1) * width) := by
    by_cases aligned : query.since % width = 0
    · rw [if_pos aligned] at ok
      obtain ⟨_, same, ok⟩ := bind_eq_ok.1 ok
      cases same
      obtain ⟨last, checked', eq'⟩ := bind_eq_ok.1 ok
      cases eq'
      exact ⟨_, rfl, _, rfl, ok_of_checked checked', .inl ⟨aligned, rfl⟩⟩
    · rw [if_neg aligned] at ok
      obtain ⟨next, checked₁, ok⟩ := bind_eq_ok.1 ok
      obtain ⟨lower, checked₂, ok⟩ := bind_eq_ok.1 ok
      obtain ⟨last, checked', eq'⟩ := bind_eq_ok.1 ok
      cases eq'
      rw [ok_of_checked checked₁] at checked₂
      exact ⟨_, rfl, _, rfl, ok_of_checked checked', .inr ⟨aligned, ok_of_checked checked₂⟩⟩
  obtain ⟨_, rfl, _, rfl, last, lower⟩ := start
  have pos : 0 < width := by
    rcases nonneg.eq_or_lt with zero | pos
    · rw [← zero] at last lower
      rcases lower with ⟨aligned, lower⟩ | ⟨-, lower⟩
      · rw [Int.emod_zero] at aligned
        omega
      · rw [mul_zero] at last lower
        omega
    · exact pos
  refine ⟨spec ▸ pos, spec ▸ ?_, spec ▸ last ▸ Dvd.intro_left _ rfl, proper, ?_,
    last ▸ Int.ediv_mul_le _ pos.ne'⟩
  · rcases lower with ⟨aligned, rfl⟩ | ⟨-, rfl⟩
    · exact Int.dvd_of_emod_eq_zero aligned
    · exact Dvd.intro_left _ rfl
  · rcases lower with ⟨-, rfl⟩ | ⟨-, rfl⟩
    · exact le_rfl
    · exact (Int.lt_ediv_add_one_mul_self _ pos).le

theorem exists_windows {width first stop : ℤ} (pos : 0 < width) (low : width ∣ first)
    (high : width ∣ stop) (proper : first < stop) :
    ∃ n : ℕ, stop = first + (n + 1 : ℕ) * width ∧ ((stop - first) / width).toNat = n + 1 := by
  obtain ⟨a, rfl⟩ := low
  obtain ⟨b, rfl⟩ := high
  have less : a < b := lt_of_mul_lt_mul_left proper pos.le
  refine ⟨(b - a - 1).toNat, ?_, ?_⟩
  · have : (((b - a - 1).toNat + 1 : ℕ) : ℤ) = b - a := by omega
    rw [this]
    ring
  · rw [← mul_sub, Int.mul_ediv_cancel_left _ pos.ne']
    omega

theorem mem_windowStarts {width first stop start : ℤ} (pos : 0 < width) (low : width ∣ first)
    (high : width ∣ stop) :
    start ∈ windowStarts width first stop ↔ width ∣ start ∧ first ≤ start ∧ start < stop := by
  obtain ⟨a, rfl⟩ := low
  obtain ⟨b, rfl⟩ := high
  unfold windowStarts
  rw [← mul_sub, Int.mul_ediv_cancel_left _ pos.ne', mem_map]
  constructor
  · rintro ⟨i, mem, rfl⟩
    have := mem_range.1 mem
    refine ⟨dvd_add (Dvd.intro _ rfl) (Dvd.intro_left _ rfl), by nlinarith, ?_⟩
    have : (a + i : ℤ) < b := by omega
    nlinarith
  · rintro ⟨⟨c, rfl⟩, lower, till⟩
    have ge : a ≤ c := le_of_mul_le_mul_left lower pos
    have less : c < b := lt_of_mul_lt_mul_left till pos.le
    refine ⟨(c - a).toNat, mem_range.2 (by omega), ?_⟩
    have : ((c - a).toNat : ℤ) = c - a := by omega
    rw [this]
    ring

/-! ### Trusted rows -/

/-- Rows of the cache that the samples bear out, at most one under each key. -/
structure SoundRollups (store : MetricStore) : Prop where
  derived : ∀ row ∈ store.rollups, row.Derived (store.samplesOf row.seriesId)
  keys : store.rollups.Pairwise fun a b => a.key ≠ b.key

theorem distinct_samplesOf (store : MetricStore) (id : ℕ) : Distinct (store.samplesOf id) :=
  List.Pairwise.filter _ store.samples.sorted

theorem pos_samplesOf (store : MetricStore) (id : ℕ) : ∀ s ∈ store.samplesOf id, 0 < s.1 :=
  fun s mem => store.samples.pos s (mem_filter.1 mem).1

section Cached

variable {store : MetricStore} {id : ℕ} {first stop : ℤ} {spec : WindowSpec}

theorem mem_readValidRollups {row : MetricRollup} :
    row ∈ readValidRollups store id first stop spec ↔ row ∈ store.rollups ∧ row.seriesId = id ∧
      first ≤ row.windowStart ∧ row.windowStart < stop ∧ row.windowWidth = spec.width ∧
      row.transform = transformCode spec.transform ∧ row.function = aggregateCode spec.function ∧
      row.valid (store.samplesOf id) (isPairs spec.transform) = true ∧
      row.value.all Binary64.isFinite = true := by
  unfold readValidRollups
  rw [mem_filter]
  simp only [Bool.and_eq_true, decide_eq_true_eq, and_assoc]

/-- A trusted row is the window as it is now, and starts where a window starts. -/
theorem SoundRollups.right (sound : SoundRollups store) {row : MetricRollup}
    (mem : row ∈ readValidRollups store id first stop spec) :
    rangeCells .gauge spec (store.samplesOf id) row.windowStart (row.windowStart + spec.width) =
        .ok row.cell.toList ∧
      spec.width ∣ row.windowStart := by
  obtain ⟨present, rfl, -, -, width, transform, function, valid, -⟩ := mem_readValidRollups.1 mem
  obtain ⟨d, grown⟩ := sound.derived row present
  have same : d.spec = spec := by
    obtain ⟨t, f, w⟩ := spec
    have transform := transformCode_injective (d.transform.symm.trans transform)
    have function := aggregateCode_injective (d.function.symm.trans function)
    have width := d.width.symm.trans width
    cases eq : d.spec with
    | mk t' f' w' =>
      rw [eq] at transform function width
      cases transform
      cases function
      cases width
      rfl
  have right := d.right grown (distinct_samplesOf _ _) (pos_samplesOf _ _) (same ▸ valid)
  rw [same] at right
  exact ⟨right, same ▸ d.aligned⟩

theorem SoundRollups.nodup_starts (sound : SoundRollups store) :
    ((readValidRollups store id first stop spec).map MetricRollup.windowStart).Nodup := by
  have keys : (readValidRollups store id first stop spec).Pairwise fun a b => a.key ≠ b.key :=
    List.Pairwise.filter _ sound.keys
  rw [List.Nodup, pairwise_map]
  refine keys.imp_of_mem fun {a b} ha hb different same => different ?_
  obtain ⟨-, id, -, -, width, transform, function, -⟩ := mem_readValidRollups.1 ha
  obtain ⟨-, id', -, -, width', transform', function', -⟩ := mem_readValidRollups.1 hb
  unfold MetricRollup.key
  rw [id, id', same, width, width', transform, transform', function, function']

/-- **A full set of trusted rows is the range it covers.** -/
theorem cached_windows (sound : SoundRollups store) (pos : 0 < spec.width) (low : spec.width ∣ first)
    (high : spec.width ∣ stop) (proper : first < stop)
    (full : (readValidRollups store id first stop spec).length =
      ((stop - first) / spec.width).toNat) :
    ∃ values, rangeCells .gauge spec (store.samplesOf id) first stop = .ok values ∧
      ((readValidRollups store id first stop spec).filterMap MetricRollup.cell).Perm values := by
  set cached := readValidRollups store id first stop spec with cached_eq
  obtain ⟨n, rfl, count⟩ := exists_windows pos low high proper
  have starts : (cached.map MetricRollup.windowStart).Perm
      (windowStarts spec.width first (first + (n + 1 : ℕ) * spec.width)) := by
    refine (List.Nodup.subperm sound.nodup_starts fun start mem => ?_).perm_of_length_le ?_
    · obtain ⟨row, here, rfl⟩ := mem_map.1 mem
      obtain ⟨-, -, lower, till, -⟩ := mem_readValidRollups.1 here
      exact (mem_windowStarts pos low high).2 ⟨(sound.right here).2, lower, till⟩
    · unfold windowStarts
      rw [length_map, length_map, length_range, full]
  let part (start : ℤ) : List (ℤ × Value) :=
    (cached.find? fun row => decide (row.windowStart = start)).elim [] fun row => row.cell.toList
  have own : ∀ row ∈ cached, part row.windowStart = row.cell.toList := by
    intro row mem
    have found : cached.find? (fun other => decide (other.windowStart = row.windowStart)) =
        some row := by
      cases eq : cached.find? fun other => decide (other.windowStart = row.windowStart) with
      | none =>
        have := List.find?_eq_none.1 eq row mem
        simp at this
      | some other =>
        have same : other.windowStart = row.windowStart := by simpa using List.find?_some eq
        rw [inj_on_of_nodup_map sound.nodup_starts (mem_of_find?_eq_some eq) mem same]
    simp only [part, found, Option.elim_some]
  refine ⟨(windowStarts spec.width first (first + (n + 1 : ℕ) * spec.width)).flatMap part, ?_, ?_⟩
  · apply rangeCells_windows pos (distinct_samplesOf _ _) low
    intro start mem
    obtain ⟨row, here, rfl⟩ := mem_map.1 (starts.mem_iff.2 mem)
    rw [own row here]
    exact (sound.right here).1
  · have same : cached.filterMap MetricRollup.cell =
        (cached.map MetricRollup.windowStart).flatMap part := by
      rw [flatMap_map, filterMap_eq_flatMap_toList]
      exact flatMap_congr fun row mem => (own row mem).symm
    rw [same]
    exact starts.flatMap_right part

end Cached

/-! ### One series -/

section Series

variable (query : WindowQuery τ) (store : MetricStore)

/-- The rows of one series: those of its windows over the range, if it may be read. -/
def seriesAnswer (series : SeriesRef) : Except QueryError (List MetricRow) :=
  match seriesVerdict query.authorizer query.referenced series with
  | .error error => .error error
  | .ok none => .ok []
  | .ok (some allowed) =>
    (rangeCells series.metricType query.spec (store.samplesOf series.id) query.since
      query.until_).map fun values => values.map (cellRow series (query.outputName series) allowed)

variable {query store} {series : SeriesRef} {allowed : List String}

theorem value_mem_referenced (query : WindowQuery τ) : "value" ∈ query.referenced := by
  unfold WindowQuery.referenced
  rw [mem_dedup, mem_insertionSort]
  exact mem_append_right _ mem_cons_self

theorem atomically_windows
    (granted : seriesVerdict query.authorizer query.referenced series = .ok (some allowed))
    (plain : series.Plain) (since until_ : ℤ) :
    atomically store (seriesWindows query.authorizer query.referenced series query.spec
        (query.outputName series) since until_) =
      (rangeCells series.metricType query.spec (store.samplesOf series.id) since until_).map
        fun values => (values.map (cellRow series (query.outputName series) allowed),
          sourcesOf query.spec.width ((leadOf query.spec (store.samplesOf series.id) since).toList ++
            scanOf (store.samplesOf series.id) since until_)) := by
  rw [atomically_seriesWindows]
  exact windowsOf_eq _ granted plain
    (value_mem_of_granted (value_mem_referenced query) granted) leadOf_pairs
    fun s mem => (mem_scanOf.1 mem).2.1

/-- A part of a range that is not read if it is empty. -/
theorem atomically_part
    (granted : seriesVerdict query.authorizer query.referenced series = .ok (some allowed))
    (plain : series.Plain) {lower upper : ℤ} (le : lower ≤ upper)
    (empty : rangeCells series.metricType query.spec (store.samplesOf series.id) lower lower = .ok [] ∨
      lower < upper) :
    atomically store (if lower < upper then
        (seriesWindows query.authorizer query.referenced series query.spec
          (query.outputName series) lower upper >>= fun result => pure result.1)
        else pure []) =
      (rangeCells series.metricType query.spec (store.samplesOf series.id) lower upper).map
        fun values => values.map (cellRow series (query.outputName series) allowed) := by
  by_cases proper : lower < upper
  · rw [if_pos proper, atomically_bind, atomically_windows granted plain]
    cases rangeCells series.metricType query.spec (store.samplesOf series.id) lower upper <;> rfl
  · obtain rfl : lower = upper := by omega
    rw [if_neg proper, empty.resolve_right proper]
    rfl

variable {first stop : ℤ}

/-- With all windows cached, only the ends of the range are computed. -/
theorem completeSeries_answer (sound : SoundRollups store)
    (granted : seriesVerdict query.authorizer query.referenced series = .ok (some allowed))
    (plain : series.Plain) (fits : Fits series.metricType query.transform)
    (whole : WholeWindows query first stop)
    (full : (readValidRollups store series.id first stop query.spec).length =
      ((stop - first) / query.spec.width).toNat) :
    Agree List.Perm
      (atomically store (completeSeries query series (baseRow series allowed)
        (readValidRollups store series.id first stop query.spec) first stop))
      ((rangeCells series.metricType query.spec (store.samplesOf series.id) query.since
        query.until_).map fun values =>
          values.map (cellRow series (query.outputName series) allowed)) := by
  have distinct := distinct_samplesOf store series.id
  obtain ⟨pos, low, high, proper, since, until_⟩ := whole
  obtain ⟨middle, computed, cached⟩ := cached_windows sound pos low high proper full
  rw [← rangeCells_congr fits] at computed
  have whole (all : List (ℤ × Value)) :
      rangeCells series.metricType query.spec (store.samplesOf series.id) query.since query.until_ =
          .ok all ↔
        ∃ a c, rangeCells series.metricType query.spec (store.samplesOf series.id) query.since first =
            .ok a ∧
          rangeCells series.metricType query.spec (store.samplesOf series.id) stop query.until_ =
            .ok c ∧ all = a ++ (middle ++ c) := by
    rw [rangeCells_cut pos distinct low since (by omega)]
    constructor
    · rintro ⟨a, b, left, rest, rfl⟩
      obtain ⟨m, c, here, right, rfl⟩ :=
        (rangeCells_cut pos distinct high proper.le until_).1 rest
      rw [computed] at here
      cases here
      exact ⟨a, c, left, right, rfl⟩
    · rintro ⟨a, c, left, right, rfl⟩
      exact ⟨a, _, left,
        (rangeCells_cut pos distinct high proper.le until_).2 ⟨middle, c, computed, right, rfl⟩, rfl⟩
  unfold completeSeries
  simp only [atomically_bind, atomically_pure]
  rw [atomically_part granted plain since ?_, atomically_part granted plain until_ (.inl ?_)]
  · cases left : rangeCells series.metricType query.spec (store.samplesOf series.id) query.since first with
    | error e =>
      cases all : rangeCells series.metricType query.spec (store.samplesOf series.id) query.since
          query.until_ with
      | error e' => trivial
      | ok all' =>
        obtain ⟨a, c, left', -⟩ := (whole all').1 all
        rw [left] at left'
        cases left'
    | ok a =>
      cases right : rangeCells series.metricType query.spec (store.samplesOf series.id) stop
          query.until_ with
      | error e =>
        cases all : rangeCells series.metricType query.spec (store.samplesOf series.id)
            query.since query.until_ with
        | error e' => trivial
        | ok all' =>
          obtain ⟨_, c, -, right', -⟩ := (whole all').1 all
          rw [right] at right'
          cases right'
      | ok c =>
        rw [(whole _).2 ⟨a, c, left, right, rfl⟩]
        show List.Perm (List.map (cellRow series (query.outputName series) allowed) _ ++
          List.map (cellRow series (query.outputName series) allowed) a ++
          List.map (cellRow series (query.outputName series) allowed) c)
          (List.map (cellRow series (query.outputName series) allowed) _)
        rw [← map_append, ← map_append, ← append_assoc]
        exact ((cached.append_right a).trans perm_append_comm |>.append_right c).map _
  · exact rangeCells_after distinct proper.le computed
  · rcases since.lt_or_eq with less | same
    · exact .inr less
    · rw [same]
      exact .inl (rangeCells_before computed)

/-- **One series of a window query gives the rows of its windows.** -/
theorem rollupSeries_answer (sound : SoundRollups store) (plain : series.Plain)
    (fits : Fits series.metricType query.transform) (whole : WholeWindows query first stop)
    (limits : Limits) (state : List MetricRow × List MetricRollup) :
    Agree (fun result rows => ∃ part, result.1 = state.1 ++ part ∧ part.Perm rows)
      (atomically store (rollupSeries query limits first stop state series))
      (seriesAnswer query store series) := by
  unfold rollupSeries seriesAnswer
  simp only [atomically_bind, atomically_read, atomically_lift]
  rw [authorizeMetric_eq rfl rfl]
  cases granted : seriesVerdict query.authorizer query.referenced series with
  | error e => trivial
  | ok verdict =>
    cases verdict with
    | none => exact ⟨[], (append_nil _).symm, List.Perm.refl _⟩
    | some allowed =>
      show Agree _ (atomically store (if _ then _ else _)) _
      by_cases full : (readValidRollups store series.id first stop query.spec).length =
          ((stop - first) / query.spec.width).toNat
      · rw [if_pos full]
        have complete := completeSeries_answer sound granted plain fits whole full
        rw [atomically_bind]
        exact complete.left fun part rows perm => ⟨part, rfl, perm⟩
      · rw [if_neg full, atomically_bind, atomically_windows granted plain]
        cases rangeCells series.metricType query.spec (store.samplesOf series.id) query.since
            query.until_ with
        | error e => trivial
        | ok values => exact ⟨_, rfl, List.Perm.refl _⟩

end Series

/-! ### A query -/

section Query

variable {query : WindowQuery τ} {store : MetricStore}

/-- What two executions of a query have in common: both fail, or both leave the cached way,
or both return the same rows, in any order. -/
def SameAnswer (left right : Except QueryError (Option (List MetricRow) × List MetricRollup)) :
    Prop :=
  Agree (fun a b => match a.1, b.1 with
    | none, none => True
    | some rows, some rows' => rows.Perm rows'
    | _, _ => False) left right

theorem ordered_parseLabels (text : String) :
    Ordered (parseLabels text) ∧
      ∀ entry ∈ parseLabels text, ∃ value, entry.2 = Value.string value := by
  unfold parseLabels
  split_ifs
  · exact ⟨List.Pairwise.nil, fun entry mem => absurd mem not_mem_nil⟩
  have strings : ∀ entry ∈ (text.toList.splitOn ',').filterMap splitOnce,
      ∃ value, entry.2 = Value.string value := by
    intro entry mem
    obtain ⟨part, -, eq⟩ := mem_filterMap.1 mem
    unfold splitOnce at eq
    dsimp only at eq
    split at eq
    · cases eq
    · cases eq
      exact ⟨_, rfl⟩
  generalize (text.toList.splitOn ',').filterMap splitOnce = entries at strings
  suffices all : ∀ record : Record, (Ordered record ∧
      ∀ entry ∈ record, ∃ value, entry.2 = Value.string value) →
      Ordered (entries.foldl (fun record entry =>
        insert entry.1 entry.2 record) record) ∧
      ∀ entry ∈ entries.foldl (fun record entry => insert entry.1 entry.2 record) record,
        ∃ value, entry.2 = Value.string value from
    all [] ⟨List.Pairwise.nil, fun entry mem => absurd mem not_mem_nil⟩
  induction entries with
  | nil => exact fun _ good => good
  | cons head entries ih =>
    obtain ⟨first, rest⟩ := forall_mem_cons.1 strings
    intro record good
    refine ih rest _ ⟨good.1.insert _ _, fun entry mem => ?_⟩
    rcases mem_insert mem with rfl | old
    · exact first
    · exact good.2 entry old

theorem plain_of_matched {allowed : List String} {series : SeriesRef}
    (mem : series ∈ matchedSeries query store allowed) : series.Plain := by
  obtain ⟨row, -, rfl⟩ := mem_map.1 (mem_filter.1 mem).1
  exact ⟨(ordered_parseLabels _).1, (ordered_parseLabels _).2⟩

/-- Series of one type, which fits the transform. -/
theorem fits_of_checked {transform : Option Transform} {head : SeriesRef} {rest : List SeriesRef}
    (mixed : ¬(rest.any fun other => decide (other.metricType ≠ head.metricType)) = true)
    (valid : validateMetricPipeline head.metricType transform = .ok ()) :
    ∀ s ∈ head :: rest, Fits s.metricType transform := by
  intro s mem
  have same : s.metricType = head.metricType := by
    rcases mem_cons.1 mem with rfl | mem
    · rfl
    · by_contra different
      exact mixed (any_eq_true.2 ⟨s, mem, decide_eq_true different⟩)
  rw [same]
  exact fits_of_validate valid

/-- The cached way gives the same answer with any sound cache as with an empty one. -/
theorem executeRollupWindowQuery_answer (sound : SoundRollups store) {series : List SeriesRef}
    (plain : ∀ s ∈ series, s.Plain) (fits : ∀ s ∈ series, Fits s.metricType query.transform) :
    SameAnswer (atomically store (executeRollupWindowQuery query series))
      (atomically { store with rollups := [] } (executeRollupWindowQuery query series)) := by
  have empty : SoundRollups { store with rollups := [] } :=
    ⟨fun row mem => absurd mem not_mem_nil, List.Pairwise.nil⟩
  unfold executeRollupWindowQuery
  cases query.limits with
  | none => exact trivial
  | some limits =>
    simp only [atomically_ite, atomically_bind, atomically_pure, atomically_lift, atomically_foldlM]
    by_cases other : limits.adaptiveRollupMaxRows = 0 ∨ query.hasSince = false ∨
        query.hasPredicates = true ∨ query.hasCrossFilters = true ∨
        query.labels.isNone = true ∧ series.length ≠ 1
    · rw [if_pos other, if_pos other]
      trivial
    rw [if_neg other, if_neg other]
    refine agree_bind_same _ fun range whole => ?_
    by_cases none : range.2 ≤ range.1
    · rw [if_pos none, if_pos none]
      trivial
    rw [if_neg none, if_neg none]
    by_cases invalid : (checkedI64 (range.2 - range.1)).isNone = true
    · rw [if_pos invalid, if_pos invalid]
      trivial
    rw [if_neg invalid, if_neg invalid]
    have windows := fullWindows_spec whole (not_le.1 none)
    have rows : Agree (fun a b : List MetricRow × List MetricRollup => a.1.Perm b.1)
        (series.foldlM (fun b c => atomically store
          (rollupSeries query limits range.1 range.2 b c)) ([], []))
        (series.foldlM (fun b c => atomically { store with rollups := [] }
          (rollupSeries query limits range.1 range.2 b c)) ([], [])) := by
      refine agree_foldlM (fun one mem a b perm => ?_) (List.Perm.refl _)
      have left := rollupSeries_answer sound (plain one mem) (fits one mem) windows limits a
      have right := rollupSeries_answer empty (plain one mem) (fits one mem) windows limits b
      refine left.common right ?_
      rintro x y rows ⟨part, eq, perm₁⟩ ⟨part', eq', perm₂⟩
      rw [eq, eq']
      exact perm.append (perm₁.trans perm₂.symm)
    exact rows.bind fun a b perm => perm

/-- A query gives the same answer with any sound cache as with an empty one. -/
theorem executeMetric_answer (sound : SoundRollups store) :
    SameAnswer (atomically store (executeMetric query))
      (atomically { store with rollups := [] } (executeMetric query)) := by
  unfold executeMetric
  simp only [atomically_ite, atomically_bind, atomically_pure, atomically_lift, atomically_read]
  refine agree_bind_same _ fun names _ => agree_bind_same _ fun allowed _ => ?_
  by_cases none : allowed = []
  · rw [if_pos none, if_pos none]
    exact List.Perm.refl _
  rw [if_neg none, if_neg none]
  have matched : matchedSeries query { store with rollups := [] } allowed =
      matchedSeries query store allowed := rfl
  rw [matched]
  refine agree_bind_same _ fun series found => ?_
  cases found
  have plain (s : SeriesRef) (mem : s ∈ matchedSeries query store allowed) := plain_of_matched mem
  generalize matchedSeries query store allowed = series at plain
  match series with
  | [] => exact List.Perm.refl _
  | head :: rest =>
    simp only [atomically_ite, atomically_bind, atomically_lift]
    by_cases mixed : (rest.any fun other => decide (other.metricType ≠ head.metricType)) = true
    · rw [if_pos mixed, if_pos mixed]
      trivial
    rw [if_neg mixed, if_neg mixed]
    refine agree_bind_same _ fun _ valid => ?_
    exact executeRollupWindowQuery_answer sound plain (fits_of_checked mixed valid)

end Query

end Eventd
