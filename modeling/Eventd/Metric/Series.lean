import Eventd.Metric.Shown

/-!
# Reading one series

`seriesWindows` against the abstract windows.  The loop over the samples has one invariant,
`SeriesRead.Holds`: what it has read and what these samples say.

* `take_eq`, `SeriesRead.Holds.next`: one sample; `foldlM_take`: a list of samples;
* `windowsOf_eq`: the rows of a series are the rows of its windows;
* `atomically_seriesWindows`, `ensures_seriesWindows`: without interruption, and with other
  samples committed between the two reads.
-/

namespace Eventd

open KeyedList List Interference

/-! ### The proofs of freshness -/

/-- The sources of samples that have been read. -/
def sourcesOf (width : ℤ) (samples : List (ℕ × Sample)) : RollupSources :=
  samples.foldl (fun sources sample => sources.push width sample.2.timestamp sample.1) .new

theorem sourcesOf_snoc (width : ℤ) (samples : List (ℕ × Sample)) (sample : ℕ × Sample) :
    sourcesOf width (samples ++ [sample]) =
      (sourcesOf width samples).push width sample.2.timestamp sample.1 := by
  unfold sourcesOf
  rw [foldl_append, foldl_cons, foldl_nil]

theorem sourcesOf_known {width : ℤ} (samples : List (ℕ × Sample)) {start : ℤ} {known : ℕ × ℕ}
    (found : (sourcesOf width samples).windows.lookup start = some known) :
    known.1 ∈ samples.map Prod.fst := by
  induction samples using List.reverseRecOn generalizing known start with
  | nil => cases found
  | append_singleton samples sample ih =>
    rw [sourcesOf_snoc, RollupSources.push, lookup_insert] at found
    rw [map_append, mem_append]
    split_ifs at found with here
    · cases old : (sourcesOf width samples).windows.lookup (windowStart width sample.2.timestamp) with
      | none =>
        rw [old] at found
        cases found
        exact .inr mem_cons_self
      | some other =>
        rw [old] at found
        cases found
        rcases max_choice other.1 sample.1 with eq | eq
        · left
          show max other.1 sample.1 ∈ _
          rw [eq]
          exact ih old
        · right
          show max other.1 sample.1 ∈ _
          rw [eq]
          exact mem_cons_self
    · exact .inl (ih found)

/-- The largest id in a window is the id of a sample, or zero. -/
theorem proof_fst (width : ℤ) (samples : List (ℕ × Sample)) (start : ℤ) :
    ((sourcesOf width samples).proof start).1 = 0 ∨
      ((sourcesOf width samples).proof start).1 ∈ samples.map Prod.fst := by
  unfold RollupSources.proof
  cases found : (sourcesOf width samples).windows.lookup start with
  | none => exact .inl rfl
  | some known => exact .inr (sourcesOf_known samples found)

theorem sourcesOf_keys {width : ℤ} {samples : List (ℕ × Sample)} {start : ℤ}
    (mem : start ∈ (sourcesOf width samples).windows.map Prod.fst) :
    ∃ s ∈ samples, windowStart width s.2.timestamp = start := by
  induction samples using List.reverseRecOn with
  | nil => cases mem
  | append_singleton samples sample ih =>
    rw [sourcesOf_snoc, RollupSources.push, mem_keys_insert] at mem
    rcases mem with rfl | mem
    · exact ⟨sample, mem_append_right _ mem_cons_self, rfl⟩
    · obtain ⟨s, here, eq⟩ := ih mem
      exact ⟨s, mem_append_left _ here, eq⟩

theorem sourcesOf_ordered (width : ℤ) (samples : List (ℕ × Sample)) :
    Ordered (sourcesOf width samples).windows := by
  induction samples using List.reverseRecOn with
  | nil => exact List.Pairwise.nil
  | append_singleton samples sample ih =>
    rw [sourcesOf_snoc]
    exact ih.insert _ _

theorem windowStart_mono {width a b : ℤ} (pos : 0 < width) (le : a ≤ b) :
    windowStart width a ≤ windowStart width b :=
  mul_le_mul_of_nonneg_right (Int.ediv_le_ediv pos le) pos.le

theorem windowStart_lt_iff {width time start : ℤ} (pos : 0 < width) (aligned : width ∣ start) :
    windowStart width time < start ↔ time < start := by
  constructor
  · intro less
    by_contra late
    exact absurd (le_windowStart pos aligned (not_lt.1 late)) (not_le.2 less)
  · exact (windowStart_le pos).trans_lt

/-- **Of samples read in order, the last before a window is the last one known before it.** -/
theorem proof_snd {width : ℤ} (pos : 0 < width) {start : ℤ} (aligned : width ∣ start)
    {samples : List (ℕ × Sample)}
    (ordered : samples.Pairwise fun a b => a.2.timestamp ≤ b.2.timestamp) :
    ((sourcesOf width samples).proof start).2 =
      ((samples.filter fun s => decide (s.2.timestamp < start)).getLast?).map Prod.fst := by
  unfold RollupSources.proof
  induction samples using List.reverseRecOn with
  | nil => rfl
  | append_singleton samples sample ih =>
    obtain ⟨before, -, last⟩ := pairwise_append.1 ordered
    have above : ∀ entry ∈ (sourcesOf width samples).windows,
        entry.1 ≤ windowStart width sample.2.timestamp := by
      intro entry mem
      obtain ⟨s, here, eq⟩ := sourcesOf_keys (mem_map_of_mem mem)
      rw [← eq]
      exact windowStart_mono pos (last s here sample mem_cons_self)
    rw [sourcesOf_snoc, RollupSources.push]
    rw [(sourcesOf_ordered width samples).insert_of_le _ above, filter_append,
      filter_append, filter_singleton, filter_singleton]
    by_cases early : sample.2.timestamp < start
    · have window := (windowStart_lt_iff pos aligned).2 early
      simp only [early, window, decide_true, cond_true, List.getLast?_append,
        List.getLast?_singleton, Option.some_or, Option.map_some]
      cases List.lookup (windowStart width sample.2.timestamp)
        (sourcesOf width samples).windows <;> rfl
    · -- a sample after the start of the window hides no entry before it
      have window := mt (windowStart_lt_iff pos aligned).1 early
      simp only [early, window, decide_false, cond_false, append_nil]
      rw [← ih before, filter_filter]
      congr 2
      apply filter_congr
      intro entry _
      rw [Bool.and_eq_left_iff_imp]
      simp only [decide_eq_true_eq]
      omega

/-! ### One sample -/

section Take

variable {τ : Type} {authorizer : Authorizer τ} {referenced : List String} {series : SeriesRef}
  {allowed : List String}

/-- The state of a read before the first sample. -/
def SeriesRead.start (spec : WindowSpec) (since : ℤ) : SeriesRead :=
  ⟨.new, ⟨spec.transform, since, none⟩, []⟩

/-- The state of a read after a sample with a reading or none. -/
def SeriesRead.next (series : SeriesRef) (allowed : List String) (width : ℤ) (state : SeriesRead)
    (sample : ℕ × Sample) (r : Option Reading) : SeriesRead where
  sources := state.sources.push width sample.2.timestamp sample.1
  transformer := state.transformer.after sample
  windows := r.elim state.windows fun r => state.windows.push width
    (pointOf state.transformer.transform (shownSample series allowed sample) r)

theorem Transformer.transform_after (transformer : Transformer) (sample : ℕ × Sample) :
    (transformer.after sample).transform = transformer.transform := by
  unfold Transformer.after
  split_ifs <;> rfl

theorem Transformer.since_after (transformer : Transformer) (sample : ℕ × Sample) :
    (transformer.after sample).since = transformer.since := by
  unfold Transformer.after
  split_ifs <;> rfl

theorem SeriesRead.next_transformer (width : ℤ) (state : SeriesRead) (sample : ℕ × Sample)
    (r : Option Reading) : (state.next series allowed width sample r).transformer =
      state.transformer.after sample := rfl

theorem take_eq (granted : seriesVerdict authorizer referenced series = .ok (some allowed))
    {width : ℤ} {state : SeriesRead} {sample : ℕ × Sample}
    (admitted : state.transformer.since ≤ sample.2.timestamp ∨
      isPairs state.transformer.transform = true ∧ state.transformer.previous = none) :
    SeriesRead.take authorizer referenced series width state sample =
      (reading series.metricType state.transformer.transform state.transformer.previous
        sample.2).map (state.next series allowed width sample) := by
  have verdict (row : MetricRow) (name : row.identifier = series.name)
      (keys : row.record.map Prod.fst = (metricRecord series 0 .null .null).map Prod.fst) :
      authorizeMetric authorizer referenced row = .ok (some (row.shown allowed)) := by
    rw [authorizeMetric_eq name keys, granted]
    rfl
  unfold SeriesRead.take readMetricInput
  by_cases finite : sample.2.value.isFinite = true
  · rw [if_pos finite]
    show Except.bind (authorizeMetric authorizer referenced _) _ = _
    rw [verdict _ rfl (keys_metricRecord ..)]
    show Except.bind (state.transformer.push (shownInput series allowed sample)) _ = _
    rw [push_shownInput finite admitted]
    cases reading series.metricType state.transformer.transform state.transformer.previous
        sample.2 with
    | error e => rfl
    | ok r => cases r <;> rfl
  · unfold reading
    rw [if_neg finite, if_neg finite]
    rfl

/-- What a read of a series knows of the samples it has taken. -/
structure SeriesRead.Holds (series : SeriesRef) (allowed : List String) (spec : WindowSpec)
    (since : ℤ) (state : SeriesRead) (seen : List (ℕ × Sample)) (rs : List Reading) : Prop where
  transform : state.transformer.transform = spec.transform
  since : state.transformer.since = since
  previous : isPairs spec.transform = true → state.transformer.previous = lastEnd none seen
  sources : state.sources = sourcesOf spec.width seen
  tallies : state.windows.tallies = tallies spec.width rs
  alike : ∀ entry ∈ state.windows, Alike (baseRow series allowed) entry.2.template

namespace SeriesRead.Holds

variable {spec : WindowSpec} {since : ℤ} {state : SeriesRead} {seen : List (ℕ × Sample)}
  {rs : List Reading}

section

variable (holds : state.Holds series allowed spec since seen rs)
include holds

/-- What the next sample is paired with, if it is paired at all. -/
theorem reading_previous (metricType : MetricType) (sample : Sample) :
    reading metricType spec.transform state.transformer.previous sample =
      reading metricType spec.transform (lastEnd none seen) sample := by
  by_cases pairs : isPairs spec.transform = true
  · rw [holds.previous pairs]
  · exact reading_of_not_pairs (by simpa using pairs) _ _ _

theorem alike_push {width : ℤ} {point : MetricPoint}
    (like : Alike (baseRow series allowed) point.row) :
    ∀ entry ∈ state.windows.push width point, Alike (baseRow series allowed) entry.2.template := by
  intro entry mem
  rcases mem_insert mem with rfl | old
  · cases found : state.windows.lookup (windowStart width point.row.time) with
    | none => exact like.trim like
    | some fold =>
      exact (holds.alike _ (mem_of_lookup found)).trim like
  · exact holds.alike entry old

/-- **One more sample.** -/
theorem next (plain : series.Plain) (readable : "value" ∈ allowed) {sample : ℕ × Sample}
    {r : Option Reading}
    (ok : reading series.metricType spec.transform (lastEnd none seen) sample.2 = .ok r) :
    (state.next series allowed spec.width sample r).Holds series allowed spec since
      (seen ++ [sample]) (rs ++ r.toList) := by
  constructor
  · rw [next_transformer, Transformer.transform_after]
    exact holds.transform
  · rw [next_transformer, Transformer.since_after]
    exact holds.since
  · intro pairs
    rw [next_transformer]
    unfold Transformer.after lastEnd
    rw [holds.transform, if_pos pairs, List.getLast?_append]
    rfl
  · rw [sourcesOf_snoc, ← holds.sources]
    rfl
  · cases r with
    | none =>
      rw [Option.toList_none, append_nil]
      exact holds.tallies
    | some r =>
      have is := readAs_of_reading ok
      rw [Option.toList_some, Eventd.tallies, foldl_append]
      show Windows.tallies (state.windows.push spec.width _) =
        tally spec.width (Eventd.tallies spec.width rs) r
      rw [← holds.tallies, holds.transform]
      apply Windows.tallies_push
      · rw [is.at_eq]
        match spec.transform with
        | none | some .rate | some .delta | some (.percentile _) => rfl
      · exact plain.push_pointOf readable is
  · cases r with
    | none => exact holds.alike
    | some r => exact holds.alike_push ((plain.alike_shownSample allowed sample).pointOf _ _)

end

end SeriesRead.Holds

/-! ### A list of samples -/

section Loop

variable {spec : WindowSpec} {since : ℤ}
  (granted : seriesVerdict authorizer referenced series = .ok (some allowed))
  (plain : series.Plain) (readable : "value" ∈ allowed)
include granted plain readable

/-- **The loop over samples computes their readings.**  `admitted` is about the first one:
the others come after it. -/
theorem foldlM_take {samples : List (ℕ × Sample)}
    (late : ∀ s ∈ samples, since ≤ s.2.timestamp) {state : SeriesRead} {seen : List (ℕ × Sample)}
    {rs : List Reading} (holds : state.Holds series allowed spec since seen rs) :
    match readings series.metricType spec.transform (lastEnd none seen) samples with
    | .error e =>
      samples.foldlM (SeriesRead.take authorizer referenced series spec.width) state = .error e
    | .ok rs' => ∃ state',
        samples.foldlM (SeriesRead.take authorizer referenced series spec.width) state = .ok state' ∧
          state'.Holds series allowed spec since (seen ++ samples) (rs ++ rs') := by
  induction samples generalizing state seen rs with
  | nil => exact ⟨state, rfl, by simpa using holds⟩
  | cons sample samples ih =>
    obtain ⟨first, others⟩ := forall_mem_cons.1 late
    have taken : SeriesRead.take authorizer referenced series spec.width state sample = _ :=
      take_eq granted (.inl (holds.since ▸ first))
    rw [holds.transform, holds.reading_previous] at taken
    rw [foldlM_cons, taken, readings]
    cases ok : reading series.metricType spec.transform (lastEnd none seen) sample.2 with
    | error e => rfl
    | ok r =>
      have rest := ih others (holds.next plain readable ok)
      have last : lastEnd none (seen ++ [sample]) = some (endOf sample) := by
        unfold lastEnd
        rw [List.getLast?_append]
        rfl
      rw [last] at rest
      show match (Except.bind (readings _ _ _ _) _ : Except QueryError (List Reading)) with
        | .error e => Except.bind (.ok _) _ = _
        | .ok rs' => ∃ state', Except.bind (.ok _) _ = _ ∧ _
      cases eq : readings series.metricType spec.transform (some (endOf sample)) samples with
      | error e =>
        rw [eq] at rest
        exact rest
      | ok rs' =>
        rw [eq] at rest
        obtain ⟨state', run, holds'⟩ := rest
        rw [append_assoc, append_assoc] at holds'
        exact ⟨state', run, holds'⟩

/-- The sample before a range is taken first. -/
theorem foldlM_lead {lead : Option (ℕ × Sample)}
    (pairs : lead.isSome = true → isPairs spec.transform = true) :
    match readings series.metricType spec.transform none lead.toList with
    | .error e =>
      lead.toList.foldlM (SeriesRead.take authorizer referenced series spec.width)
        (.start spec since) = .error e
    | .ok rs => ∃ state,
        lead.toList.foldlM (SeriesRead.take authorizer referenced series spec.width)
            (.start spec since) = .ok state ∧
          state.Holds series allowed spec since lead.toList rs := by
  have start : (SeriesRead.start spec since).Holds series allowed spec
      since [] [] := ⟨rfl, rfl, fun _ => rfl, rfl, rfl, fun _ mem => absurd mem not_mem_nil⟩
  cases lead with
  | none => exact ⟨_, rfl, start⟩
  | some sample =>
    have admitted : isPairs (SeriesRead.start spec since).transformer.transform = true ∧
        (SeriesRead.start spec since).transformer.previous = none := ⟨pairs rfl, rfl⟩
    have taken : SeriesRead.take authorizer referenced series spec.width
        (.start spec since) sample = (reading series.metricType spec.transform none sample.2).map
          (SeriesRead.next series allowed spec.width (.start spec since) sample) :=
      take_eq granted (.inr admitted)
    cases ok : reading series.metricType spec.transform none sample.2 with
    | error e =>
      rw [Option.toList_some, foldlM_cons, taken, readings, ok]
      rfl
    | ok r =>
      have first : readings series.metricType spec.transform none [sample] = .ok r.toList := by
        rw [readings, ok]
        exact congrArg Except.ok (append_nil _)
      have run : [sample].foldlM (SeriesRead.take authorizer referenced series spec.width)
          (.start spec since) = .ok (SeriesRead.next series allowed
            spec.width (.start spec since) sample r) := by
        rw [foldlM_cons, taken, ok]
        rfl
      rw [Option.toList_some, first]
      exact ⟨_, run, start.next plain readable ok⟩

end Loop

/-! ### The windows of a series -/

section Windows

variable (authorizer referenced series) (spec : WindowSpec) (outputName : String) (since until_ : ℤ)

/-- What is computed from the samples that are read. -/
def windowsOf (lead : Option (ℕ × Sample)) (samples : List (ℕ × Sample)) :
    Except QueryError (List MetricRow × RollupSources) := do
  let state ← lead.toList.foldlM (SeriesRead.take authorizer referenced series spec.width)
    (.start spec since)
  let state ← samples.foldlM (SeriesRead.take authorizer referenced series spec.width) state
  let rows ← state.windows.rows spec.function (if isPairs spec.transform then spec.transform else none)
    true (some outputName) series.metricType (some series.id)
  return (rows, state.sources)

/-- The row of a window's value. -/
def cellRow (allowed : List String) (cell : ℤ × Value) : MetricRow :=
  metricAggregateRow (baseRow series allowed) cell.2 cell.1 true outputName series.metricType series.id

theorem atomically_seriesWindows (store : MetricStore) :
    atomically store (seriesWindows authorizer referenced series spec outputName since until_) =
      windowsOf authorizer referenced series spec outputName since
        (leadOf spec (store.samplesOf series.id) since)
        (scanOf (store.samplesOf series.id) since until_) := by
  unfold seriesWindows windowsOf leadOf
  simp only [atomically_bind, atomically_lift, atomically_pure, atomically_ite, atomically_read]
  split_ifs <;> rfl

/-- The second read of a series may see more than the first. -/
theorem ensures_seriesWindows {ι : Type} {rely : ι → ι → Prop} {view : ι → MetricStore} {now : ι}
    {post : List MetricRow × RollupSources → ι → Prop} (refl : rely now now)
    (done : ∀ mid later, rely now mid → rely mid later → ∀ result,
      windowsOf authorizer referenced series spec outputName since
          (leadOf spec ((view mid).samplesOf series.id) since)
          (scanOf ((view later).samplesOf series.id) since until_) = .ok result →
        post result later) :
    Ensures rely view post
      (seriesWindows authorizer referenced series spec outputName since until_) now := by
  unfold seriesWindows
  have rest (mid : ι) (first : rely now mid) (lead : Option (ℕ × Sample))
      (eq : lead = leadOf spec ((view mid).samplesOf series.id) since) :
      Ensures rely view post (lift (lead.toList.foldlM
        (SeriesRead.take authorizer referenced series spec.width) (.start spec since)) >>= fun state =>
        read (fun store => .ok (store.scan series.id since until_)) >>= fun samples =>
        lift (samples.foldlM (SeriesRead.take authorizer referenced series spec.width) state) >>=
        fun state => lift (state.windows.rows spec.function
          (if isPairs spec.transform then spec.transform else none) true (some outputName)
          series.metricType (some series.id)) >>= fun rows => pure (rows, state.sources)) mid := by
    refine ensures_bind (ensures_lift fun state taken => ?_)
    refine ensures_bind (ensures_read fun later second samples scanned => ?_)
    refine ensures_bind (ensures_lift fun state' taken' => ?_)
    refine ensures_bind (ensures_lift fun rows shown => ensures_pure ?_)
    apply done mid later first second
    cases scanned
    unfold windowsOf
    rw [← eq, taken]
    show Except.bind (List.foldlM _ state (scanOf _ _ _)) _ = _
    rw [show scanOf ((view later).samplesOf series.id) since until_ =
      (view later).scan series.id since until_ from rfl, taken']
    show Except.bind (Windows.rows _ _ _ _ _ _ _) _ = _
    rw [shown]
    rfl
  by_cases pairs : isPairs spec.transform = true
  · rw [if_pos pairs]
    refine ensures_bind (ensures_read fun mid first lead eq => rest mid first lead ?_)
    cases eq
    unfold leadOf
    rw [if_pos pairs]
    rfl
  · rw [if_neg pairs]
    refine ensures_bind (ensures_pure (rest now refl none ?_))
    unfold leadOf
    rw [if_neg pairs]

variable {authorizer referenced series spec since}

/-- **The rows of a series are the rows of its windows.** -/
theorem windowsOf_eq (granted : seriesVerdict authorizer referenced series = .ok (some allowed))
    (plain : series.Plain) (readable : "value" ∈ allowed) {lead : Option (ℕ × Sample)}
    (pairs : lead.isSome = true → isPairs spec.transform = true) {samples : List (ℕ × Sample)}
    (late : ∀ s ∈ samples, since ≤ s.2.timestamp) :
    windowsOf authorizer referenced series spec outputName since lead samples =
      (cells series.metricType spec lead samples).map fun values =>
        (values.map (cellRow series outputName allowed),
          sourcesOf spec.width (lead.toList ++ samples)) := by
  have first := @foldlM_lead _ _ _ _ _ _ since granted plain readable lead pairs
  unfold windowsOf cells
  rw [readings_append]
  cases eq : readings series.metricType spec.transform none lead.toList with
  | error e =>
    rw [eq] at first
    rw [first]
    rfl
  | ok rs =>
    rw [eq] at first
    obtain ⟨state, run, holds⟩ := first
    rw [run]
    have second := foldlM_take granted plain readable late holds
    show Except.bind (List.foldlM _ state samples) _ = Except.map _ (Except.bind (Except.bind
      (Except.ok rs) fun first => Except.bind (readings series.metricType spec.transform
        (lastEnd none lead.toList) samples) _) _)
    cases eq' : readings series.metricType spec.transform (lastEnd none lead.toList) samples with
    | error e =>
      rw [eq'] at second
      rw [second]
      rfl
    | ok rs' =>
      rw [eq'] at second
      obtain ⟨state', run', holds'⟩ := second
      rw [run']
      show Except.bind (Windows.rows _ _ _ _ _ _ _) _ = Except.map _ (tallyCells spec
        (tallies spec.width (rs ++ rs')))
      rw [rows_eq holds'.alike (plain.ordered_baseRow allowed), holds'.tallies, holds'.sources]
      cases tallyCells spec (tallies spec.width (rs ++ rs')) <;> rfl

end Windows

end Take

end Eventd
