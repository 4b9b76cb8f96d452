import Eventd.Metric.Series

/-!
# Rows of the cache and the samples they come from

A rollup is computed from two reads of a series, of which the second may see more samples
than the first; later the series may have still more.  If the row is nevertheless trusted
(`MetricRollup.valid`), then it is the window as it is now.

* `Derivation`: the reads that a row comes from; `MetricRollup.Derived`: the samples of the
  series have only grown since;
* `Derivation.right`: a trusted row is right;
* `derived_proposedRollup`: the rows that a query proposes have a derivation.
-/

namespace Eventd

open Option Fallible KeyedList List Interference

/-! ### Types and codes -/

/-- A transform that a type of series can have. -/
def Fits (metricType : MetricType) (transform : Option Transform) : Prop :=
  transform = none → metricType ≠ .histogram

variable {spec : WindowSpec} {samples : List (ℕ × Sample)} {transform : Option Transform}
  {since : ℤ}

theorem fits_of_validate {metricType : MetricType}
    (ok : validateMetricPipeline metricType transform = .ok ()) : Fits metricType transform := by
  rintro rfl rfl
  cases ok

/-- The type of a series shows in nothing that can be computed from its samples. -/
theorem readings_congr {metricType : MetricType} (fits : Fits metricType transform)
    (previous : Option (ℤ × Binary64)) (samples : List (ℕ × Sample)) :
    readings metricType transform previous samples = readings .gauge transform previous samples := by
  have one (previous : Option (ℤ × Binary64)) (sample : Sample) :
      reading metricType transform previous sample = reading .gauge transform previous sample := by
    unfold reading
    match transform with
    | none =>
      rw [if_neg (fits rfl), if_neg (by decide : MetricType.gauge ≠ .histogram)]
    | some .rate | some .delta | some (.percentile _) => rfl
  induction samples generalizing previous with
  | nil => rfl
  | cons sample samples ih => rw [readings, readings, one, ih]

theorem cells_congr {metricType : MetricType} (fits : Fits metricType spec.transform)
    (lead : Option (ℕ × Sample)) (samples : List (ℕ × Sample)) :
    cells metricType spec lead samples = cells .gauge spec lead samples := by
  unfold cells
  rw [readings_congr fits]

theorem rangeCells_congr {metricType : MetricType} (fits : Fits metricType spec.transform)
    (samples : List (ℕ × Sample)) (since until_ : ℤ) :
    rangeCells metricType spec samples since until_ = rangeCells .gauge spec samples since until_ :=
  cells_congr fits _ _

theorem transformCode_injective : Function.Injective transformCode := by
  intro a b same
  rcases a with _ | _ | _ | _ | _ | _ <;> rcases b with _ | _ | _ | _ | _ | _ <;>
    first | rfl | cases same

theorem aggregateCode_injective : Function.Injective aggregateCode := by
  intro a b same
  cases a <;> cases b <;> first | rfl | cases same

/-! ### The values of windows -/

/-- What the result of a window can be. -/
inductive Value.IsCell : Value → Prop
  | null : IsCell .null
  | float (x : Binary64) : IsCell (.float x)

theorem isCell_of_finiteValue {x : Binary64} {value : Value} (ok : finiteValue x = .ok value) :
    value.IsCell := by
  unfold finiteValue at ok
  split_ifs at ok
  cases ok
  exact .float x

/-- Numbers that are all floats. -/
structure Numeric.Floats (numeric : Numeric) : Prop where
  float : 0 < numeric.count → numeric.float = true
  least : ∀ value, numeric.least = some value → value.IsCell
  most : ∀ value, numeric.most = some value → value.IsCell

theorem Numeric.Floats.push {numeric : Numeric} (floats : numeric.Floats) {value : Value}
    (cell : value.IsCell) : (numeric.push value).Floats := by
  cases cell with
  | null => exact floats
  | float x =>
    refine ⟨fun _ => rfl, fun value least => ?_, fun value most => ?_⟩
    · simp only [Numeric.push, Numeric.counting] at least
      split_ifs at least
      · cases least
        exact .float x
      · exact floats.least value least
    · simp only [Numeric.push, Numeric.counting] at most
      split_ifs at most
      · cases most
        exact .float x
      · exact floats.most value most

theorem Numeric.Floats.finish {numeric : Numeric} (floats : numeric.Floats)
    {function : AggregateFunction} {value : Value} (ok : numeric.finish function = .ok value) :
    value.IsCell := by
  have finite {x : Binary64} (ok : Numeric.finite x = .ok value) : value.IsCell :=
    isCell_of_finiteValue ok
  unfold Numeric.finish at ok
  by_cases none : numeric.count = 0
  · rw [if_pos none] at ok
    cases ok
    exact .null
  rw [if_neg none] at ok
  cases function with
  | avg => exact finite ok
  | min =>
    cases ok
    cases least : numeric.least with
    | none => exact .null
    | some least' => exact floats.least _ least
  | max =>
    cases ok
    cases most : numeric.most with
    | none => exact .null
    | some most' => exact floats.most _ most
  | sum =>
    have sum : numeric.exactSum = .none := by
      unfold Numeric.exactSum
      rw [floats.float (Nat.pos_of_ne_zero none)]
      rfl
    rw [sum] at ok
    exact finite ok

theorem isCell_of_readings {metricType : MetricType} {previous : Option (ℤ × Binary64)}
    {rs : List Reading} (ok : readings metricType transform previous samples = .ok rs) :
    ∀ r ∈ rs, ∀ value, r.value = some value → value.IsCell := by
  intro r mem value has
  obtain ⟨sample, -, is⟩ := mem_readings ok mem
  cases is <;> cases has
  case plain =>
    split_ifs
    · exact .null
    · exact .float _
  case finite is => exact isCell_of_finiteValue is
  case overflow => exact .null
  case pair is => exact isCell_of_finiteValue is

theorem floats_tallies {width : ℤ} {rs : List Reading}
    (cell : ∀ r ∈ rs, ∀ value, r.value = some value → value.IsCell) :
    ∀ entry ∈ tallies width rs, entry.2.numeric.Floats := by
  have empty : Tally.empty.numeric.Floats := ⟨nofun, nofun, nofun⟩
  induction rs using List.reverseRecOn with
  | nil => exact fun entry mem => absurd mem not_mem_nil
  | append_singleton rs r ih =>
    have before := ih fun r mem => cell r (mem_append_left _ mem)
    intro entry mem
    unfold tallies at mem
    rw [foldl_append] at mem
    rcases mem_insert mem with rfl | old
    · have known : (((tallies width rs).lookup (windowStart width r.time)).getD
          .empty).numeric.Floats := by
        cases found : (tallies width rs).lookup (windowStart width r.time) with
        | none => exact empty
        | some tally => exact before _ (mem_of_lookup found)
      show (r.value.elim _ _ : Numeric).Floats
      cases has : r.value with
      | none => exact known
      | some value =>
        exact known.push (cell r (mem_append_right _ mem_cons_self) value has)
    · exact before entry old

theorem Numeric.Floats.value {tally : Tally} (floats : tally.numeric.Floats)
    {function : AggregateFunction} {pairs : Option Transform} {value : Value}
    (ok : tally.value function pairs = .ok value) : value.IsCell := by
  unfold Tally.value at ok
  split at ok
  · split at ok
    · cases ok
    · exact isCell_of_finiteValue ok
  · exact isCell_of_finiteValue ok
  · split_ifs at ok
    · cases ok
      exact .null
    · exact floats.finish ok

theorem tallyCells_spec {windows : List (ℤ × Tally)} {values : List (ℤ × Value)}
    (ok : tallyCells spec windows = .ok values) :
    values.map Prod.fst = windows.map Prod.fst ∧
      ((∀ entry ∈ windows, entry.2.numeric.Floats) → ∀ cell ∈ values, cell.2.IsCell) := by
  unfold tallyCells at ok
  rw [mapM_eq_ok] at ok
  induction ok with
  | nil => exact ⟨rfl, fun _ cell mem => absurd mem not_mem_nil⟩
  | cons here _ ih =>
    obtain ⟨value, computed, eq⟩ := bind_eq_ok.1 here
    cases eq
    refine ⟨by rw [map_cons, map_cons, ih.1], fun floats => ?_⟩
    obtain ⟨first, others⟩ := forall_mem_cons.1 floats
    exact forall_mem_cons.2 ⟨first.value computed, ih.2 others⟩

/-- The windows of samples are in order, and each is the window of a sample. -/
theorem cells_spec {metricType : MetricType} {lead : Option (ℕ × Sample)}
    {values : List (ℤ × Value)} (pairs : lead.isSome = true → isPairs spec.transform = true)
    (ok : cells metricType spec lead samples = .ok values) :
    Ordered values ∧ ∀ cell ∈ values, cell.2.IsCell ∧
      ∃ s ∈ samples, windowStart spec.width s.2.timestamp = cell.1 := by
  obtain ⟨rs, read, shown⟩ := bind_eq_ok.1 ok
  -- the sample before the others gives no reading
  have origin : ∀ r ∈ rs, ∃ s ∈ samples, ReadAs metricType s.2 spec.transform r := by
    intro r mem
    cases lead with
    | none => exact mem_readings read mem
    | some sample =>
      rw [toList_some, singleton_append, readings_single (pairs rfl)
        (finite_of_readings read mem_cons_self)] at read
      exact mem_readings read mem
  obtain ⟨keys, cell⟩ := tallyCells_spec shown
  constructor
  · have ordered : ((tallies spec.width rs).map Prod.fst).Pairwise (· < ·) :=
      pairwise_map.2 (ordered_tallies spec.width rs)
    rw [← keys] at ordered
    exact pairwise_map.1 ordered
  · intro entry mem
    refine ⟨cell (floats_tallies (isCell_of_readings read)) entry mem, ?_⟩
    have key : entry.1 ∈ (tallies spec.width rs).map Prod.fst := keys ▸ mem_map_of_mem mem
    obtain ⟨r, among, eq⟩ := mem_keys_tallies.1 key
    obtain ⟨s, here, is⟩ := origin r among
    exact ⟨s, here, by rw [← is.at_eq, eq]⟩

/-! ### A row and the reads it comes from -/

/-- The reads that a row comes from: of a range of times that its window lies in, first the
sample before the range and then, perhaps later, the samples in it. -/
structure Derivation (row : MetricRollup) where
  spec : WindowSpec
  since : ℤ
  until_ : ℤ
  first : List (ℕ × Sample)
  second : List (ℕ × Sample)
  values : List (ℤ × Value)
  grown : first <+: second
  width : row.windowWidth = spec.width
  transform : row.transform = transformCode spec.transform
  function : row.function = aggregateCode spec.function
  pos : 0 < spec.width
  aligned : spec.width ∣ row.windowStart
  low : since ≤ row.windowStart
  high : row.windowStart + spec.width ≤ until_
  computed : cells .gauge spec (leadOf spec first since) (scanOf second since until_) = .ok values
  cell : row.cell = values.find? fun cell => decide (cell.1 = row.windowStart)
  known : row.sourceMaxSampleId = 0 ∨ row.sourceMaxSampleId ∈ second.map Prod.fst
  baseline : isPairs spec.transform = true → row.sourceBaselineSampleId =
    (((leadOf spec first since).toList ++ scanOf second since row.windowStart).getLast?).map Prod.fst

/-- A row whose series has only grown since it was computed. -/
def MetricRollup.Derived (row : MetricRollup) (samples : List (ℕ × Sample)) : Prop :=
  ∃ d : Derivation row, d.second <+: samples

theorem MetricRollup.Derived.mono {row : MetricRollup} {samples' : List (ℕ × Sample)}
    (derived : row.Derived samples) (grown : samples <+: samples') : row.Derived samples' :=
  derived.imp fun _ before => before.trans grown

theorem leadOf_pairs :
    (leadOf spec samples since).isSome = true → isPairs spec.transform = true := by
  unfold leadOf
  split_ifs with pairs
  · exact fun _ => pairs
  · exact nofun

theorem mem_of_leadOf {s : ℕ × Sample} (mem : s ∈ (leadOf spec samples since).toList) :
    s ∈ samples ∧ s.2.timestamp < since := by
  unfold leadOf at mem
  split_ifs at mem
  · exact mem_of_precedingOf (mem_toList.1 mem)
  · cases mem

theorem scanOf_append {more : List (ℕ × Sample)} {until_ : ℤ}
    (outside : ∀ s ∈ more, ¬ (since ≤ s.2.timestamp ∧ s.2.timestamp < until_)) :
    scanOf (samples ++ more) since until_ = scanOf samples since until_ := by
  have none : more.filter (fun row =>
      decide (since ≤ row.2.timestamp) && decide (row.2.timestamp < until_)) = [] := by
    refine filter_eq_nil_iff.2 fun s mem => ?_
    rw [Bool.and_eq_true, decide_eq_true_eq, decide_eq_true_eq]
    exact outside s mem
  unfold scanOf
  rw [filter_append, none, append_nil]

/-- In the list of a range, the value of one window. -/
theorem find_window {before here after : List (ℤ × Value)} {start : ℤ}
    (low : ∀ cell ∈ before, cell.1 < start) (same : ∀ cell ∈ here, cell.1 = start)
    (ordered : Ordered here) (high : ∀ cell ∈ after, start < cell.1) :
    ((before ++ (here ++ after)).find? fun cell => decide (cell.1 = start)).toList = here := by
  rw [List.find?_append, List.find?_append]
  have none (l : List (ℤ × Value)) (other : ∀ cell ∈ l, cell.1 ≠ start) :
      l.find? (fun cell => decide (cell.1 = start)) = .none := by
    rw [List.find?_eq_none]
    intro cell mem
    simpa using other cell mem
  rw [none before fun cell mem => (low cell mem).ne, none after fun cell mem => (high cell mem).ne',
    none_or, or_none]
  match here with
  | [] => rfl
  | [cell] =>
    rw [List.find?_cons_of_pos (by simpa using same cell mem_cons_self)]
    rfl
  | a :: b :: rest =>
    have less := (pairwise_cons.1 ordered).1 b mem_cons_self
    have := same a mem_cons_self
    have := same b (mem_cons_of_mem _ mem_cons_self)
    omega

namespace Derivation

variable {row : MetricRollup} (d : Derivation row) {samples : List (ℕ × Sample)}

section

variable (grown : d.second <+: samples) (distinct : Distinct samples)
include grown distinct

/-- No sample has come into a trusted window. -/
theorem scan_eq (positive : ∀ s ∈ samples, 0 < s.1) {pair : Bool}
    (valid : row.valid samples pair = true) :
    scanOf samples row.windowStart (row.windowStart + d.spec.width) =
      scanOf d.second row.windowStart (row.windowStart + d.spec.width) := by
  obtain ⟨more, rfl⟩ := grown
  apply scanOf_append
  rintro s mem ⟨low, high⟩
  have newer : row.sourceMaxSampleId < s.1 := by
    rcases d.known with zero | known
    · rw [zero]
      exact positive s (mem_append_right _ mem)
    · obtain ⟨old, here, eq⟩ := mem_map.1 known
      rw [← eq]
      exact (pairwise_append.1 distinct).2.2 old here s mem
  have one := all_eq_true.1 (Bool.and_eq_true_iff.1 valid).1 s (mem_append_right _ mem)
  rw [d.width] at one
  simp [low, high, newer] at one

/-- The sample before a trusted window is the one it was computed with. -/
theorem lead_eq (valid : row.valid samples (isPairs d.spec.transform) = true) :
    lastOf d.spec (leadOf d.spec d.first d.since) (scanOf d.second d.since row.windowStart) =
      leadOf d.spec samples row.windowStart := by
  unfold lastOf
  conv_rhs => unfold leadOf
  by_cases pairs : isPairs d.spec.transform = true
  · rw [if_pos pairs, if_pos pairs]
    have same : ((precedingOf samples row.windowStart).map Prod.fst) =
        (((leadOf d.spec d.first d.since).toList ++
          scanOf d.second d.since row.windowStart).getLast?).map Prod.fst := by
      rw [← d.baseline pairs]
      rw [pairs] at valid
      simpa [eq_comm] using (Bool.and_eq_true_iff.1 valid).2
    have member {s : ℕ × Sample} (last : ((leadOf d.spec d.first d.since).toList ++
        scanOf d.second d.since row.windowStart).getLast? = some s) : s ∈ samples := by
      rcases mem_append.1 (mem_of_getLast? last) with mem | mem
      · exact grown.subset (d.grown.subset (mem_of_leadOf mem).1)
      · exact grown.subset (mem_scanOf.1 mem).1
    cases now : precedingOf samples row.windowStart with
    | none =>
      rw [now] at same
      exact map_eq_none_iff.1 same.symm
    | some s =>
      rw [now] at same
      obtain ⟨s', last, eq⟩ := map_eq_some_iff.1 same.symm
      rw [last, distinct.eq_of_id (member last) (mem_of_precedingOf now).1 eq]
  · rw [if_neg pairs, if_neg pairs]

/-- **A trusted row is the window as it is now.** -/
theorem right (positive : ∀ s ∈ samples, 0 < s.1)
    (valid : row.valid samples (isPairs d.spec.transform) = true) :
    rangeCells .gauge d.spec samples row.windowStart (row.windowStart + d.spec.width) =
      .ok row.cell.toList := by
  have pos := d.pos
  have low := d.low
  have high := d.high
  have distinct' : Distinct d.second := distinct.sublist grown.sublist
  have computed := d.computed
  -- cut the range at the start of the window and at its end
  rw [scanOf_cut distinct' low (by omega), cells_cut pos d.aligned
    (fun s mem => ?early) (fun s mem => (mem_scanOf.1 mem).2.1)] at computed
  case early =>
    rcases mem_append.1 mem with mem | mem
    · have := (mem_of_leadOf mem).2
      omega
    · exact (mem_scanOf.1 mem).2.2
  obtain ⟨before, rest, first, second, all⟩ := computed
  rw [d.lead_eq grown distinct valid, scanOf_cut distinct' (by omega) high, cells_cut pos
    (dvd_add d.aligned dvd_rfl) (fun s mem => ?early) (fun s mem => (mem_scanOf.1 mem).2.1)] at second
  case early =>
    rcases mem_append.1 mem with mem | mem
    · have := (mem_of_leadOf mem).2
      omega
    · exact (mem_scanOf.1 mem).2.2
  obtain ⟨here, after, one, third, parts⟩ := second
  rw [← d.scan_eq grown distinct positive valid] at one
  have lastPairs : (lastOf d.spec (leadOf d.spec samples row.windowStart)
      (scanOf d.second row.windowStart (row.windowStart + d.spec.width))).isSome = true →
        isPairs d.spec.transform = true := by
    unfold lastOf
    split_ifs with pairs
    · exact fun _ => pairs
    · exact nofun
  obtain ⟨-, beforeKeys⟩ := cells_spec leadOf_pairs first
  obtain ⟨ordered, hereKeys⟩ := cells_spec leadOf_pairs one
  obtain ⟨-, afterKeys⟩ := cells_spec lastPairs third
  unfold rangeCells
  rw [one, d.cell, all, parts, find_window ?_ ?_ ordered ?_]
  · intro cell mem
    obtain ⟨s, inside, eq⟩ := (beforeKeys cell mem).2
    have := (mem_scanOf.1 inside).2.2
    have : windowStart d.spec.width s.2.timestamp ≤ s.2.timestamp := windowStart_le pos
    omega
  · intro cell mem
    obtain ⟨s, inside, eq⟩ := (hereKeys cell mem).2
    obtain ⟨-, lower, till⟩ := mem_scanOf.1 inside
    rw [← eq]
    exact windowStart_eq pos d.aligned lower till
  · intro cell mem
    obtain ⟨s, inside, eq⟩ := (afterKeys cell mem).2
    have := le_windowStart pos (dvd_add d.aligned dvd_rfl) (mem_scanOf.1 inside).2.1
    omega

end

end Derivation

/-! ### Rows that a query proposes -/

section Proposed

variable {series : SeriesRef} {spec : WindowSpec} {first second : List (ℕ × Sample)} {since until_ : ℤ}

/-- The samples of a read are in the order of their times. -/
theorem ordered_read (spec : WindowSpec) (first second : List (ℕ × Sample)) (since until_ : ℤ) :
    ((leadOf spec first since).toList ++ scanOf second since until_).Pairwise
      fun a b => a.2.timestamp ≤ b.2.timestamp := by
  rw [pairwise_append]
  refine ⟨?_, ?_, fun a ha b hb => ?_⟩
  · cases leadOf spec first since with
    | none => exact List.Pairwise.nil
    | some s => exact pairwise_singleton _ _
  · refine (pairwise_scanOf second since until_).imp fun less => ?_
    unfold MetricStore.before at less
    omega
  · have := (mem_of_leadOf ha).2
    have := (mem_scanOf.1 hb).2.1
    omega

theorem filter_read (distinct : Distinct second) {start : ℤ} (low : since ≤ start)
    (high : start ≤ until_) :
    ((leadOf spec first since).toList ++ scanOf second since until_).filter
        (fun s => decide (s.2.timestamp < start)) =
      (leadOf spec first since).toList ++ scanOf second since start := by
  have all : ∀ s ∈ (leadOf spec first since).toList ++ scanOf second since start,
      decide (s.2.timestamp < start) = true := by
    intro s mem
    rw [decide_eq_true_eq]
    rcases mem_append.1 mem with mem | mem
    · have := (mem_of_leadOf mem).2
      omega
    · exact (mem_scanOf.1 mem).2.2
  have none : ∀ s ∈ scanOf second start until_, ¬ decide (s.2.timestamp < start) = true := by
    intro s mem
    rw [decide_eq_true_eq]
    have := (mem_scanOf.1 mem).2.1
    omega
  rw [scanOf_cut distinct low high, ← append_assoc, filter_append,
    filter_eq_self.2 all, filter_eq_nil_iff.2 none, append_nil]

/-- The value that is cached for a window is the one that is shown. -/
theorem cell_proposedRollup {values : List (ℤ × Value)} (cell : ∀ entry ∈ values, entry.2.IsCell)
    (outputName : String) (allowed : List String) (sources : RollupSources) (start : ℤ) :
    (proposedRollup series spec (values.map (cellRow series outputName allowed)) sources start).cell =
      values.find? fun entry => decide (entry.1 = start) := by
  unfold proposedRollup MetricRollup.cell
  rw [List.find?_map]
  have same : ((fun row : MetricRow => decide (row.time = start)) ∘ cellRow series outputName allowed) =
      fun entry => decide (entry.1 = start) := rfl
  rw [same]
  cases found : values.find? fun entry => decide (entry.1 = start) with
  | none => rfl
  | some entry =>
    obtain ⟨key, value⟩ := entry
    have key' : key = start := by simpa using List.find?_some found
    simp only [map_some, bind_some, cellRow, metricAggregateRow, lookup_setMetricResult]
    cases cell _ (mem_of_find?_eq_some found) with
    | null => simp [key']
    | float x => simp [key']

/-- **What a query proposes is derived from the samples it has read.** -/
theorem derived_proposedRollup (fits : Fits series.metricType spec.transform) (grown : first <+: second)
    (distinct : Distinct second) (pos : 0 < spec.width) {values : List (ℤ × Value)}
    (computed : cells series.metricType spec (leadOf spec first since)
      (scanOf second since until_) = .ok values)
    {start : ℤ} (aligned : spec.width ∣ start) (low : since ≤ start)
    (high : start + spec.width ≤ until_) (outputName : String) (allowed : List String) :
    (proposedRollup series spec (values.map (cellRow series outputName allowed))
      (sourcesOf spec.width ((leadOf spec first since).toList ++ scanOf second since until_))
      start).Derived second := by
  obtain ⟨-, cell⟩ := cells_spec leadOf_pairs computed
  rw [cells_congr fits] at computed
  refine ⟨⟨spec, since, until_, first, second, values, grown, rfl, rfl, rfl, pos, aligned, low, high,
    computed, cell_proposedRollup (fun entry mem => (cell entry mem).1) _ _ _ _, ?_, fun pairs => ?_⟩,
    prefix_rfl⟩
  · rcases proof_fst spec.width ((leadOf spec first since).toList ++ scanOf second since until_) start
      with zero | known
    · exact .inl zero
    · obtain ⟨s, mem, eq⟩ := mem_map.1 known
      refine .inr (mem_map.2 ⟨s, ?_, eq⟩)
      rcases mem_append.1 mem with mem | mem
      · exact grown.subset (mem_of_leadOf mem).1
      · exact (mem_scanOf.1 mem).1
  · have last := proof_snd pos aligned (ordered_read spec first second since until_)
    rw [filter_read distinct low (by omega)] at last
    show (if isPairs spec.transform then _ else none) = _
    rw [if_pos pairs]
    exact last

end Proposed

end Eventd
