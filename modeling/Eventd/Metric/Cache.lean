import Eventd.Metric.Answer

/-!
# The cache of window queries over whole runs

A row is proposed by a query and written at some later time.  In between the metric thread
commits samples, which the two ids of the row account for, and deletes samples, which they
do not: a sample that is gone leaves no larger id.  Deletion removes the rows of a series
that are in the store, but not those on their way.

* `Grows`: what happens to a series that no sample is deleted from;
* `ensures_executeMetric`: under it, what a query proposes is derived from the samples;
* `MetricWorld.Sound`: the invariant, kept by every step (`Sound.step`) that writes no row of
  a series from which samples have been deleted since the row's query began (`Untouched`);
* `cached_answer`: the cache changes no answer in such a run;
* `stale_answer`: a run in which it does.
-/

namespace Eventd

open List Interference Fallible

variable {τ : Type}

/-! ### Queries under way -/

/-- Time passes, and samples of the series in the lists are deleted: the others only grow. -/
def Grows (now later : MetricStore × List ℕ) : Prop :=
  now.2 ⊆ later.2 ∧ ∀ id ∉ later.2, now.1.samplesOf id <+: later.1.samplesOf id

theorem Grows.refl (now : MetricStore × List ℕ) : Grows now now :=
  ⟨List.Subset.refl _, fun _ _ => prefix_rfl⟩

theorem Grows.trans (a b c : MetricStore × List ℕ) (ab : Grows a b) (bc : Grows b c) : Grows a c :=
  ⟨List.Subset.trans ab.1 bc.1, fun id kept => (ab.2 id fun mem => kept (bc.1 mem)).trans (bc.2 id kept)⟩

/-- Rows of untouched series are derived from the samples. -/
def Kept (rows : List MetricRollup) (now : MetricStore × List ℕ) : Prop :=
  ∀ row ∈ rows, row.seriesId ∉ now.2 → row.Derived (now.1.samplesOf row.seriesId)

theorem stable_kept (rows : List MetricRollup) : Stable Grows (Kept rows) := by
  intro now later grows kept row mem untouched
  exact (kept row mem fun touched => untouched (grows.1 touched)).mono (grows.2 _ untouched)

theorem mem_propose {batchRows : ℕ} {series : SeriesRef} {spec : WindowSpec} {rows : List MetricRow}
    {sources : RollupSources} {cached pending : List MetricRollup} {starts : List ℤ}
    {row : MetricRollup} (mem : row ∈ propose batchRows series spec rows sources cached pending starts) :
    row ∈ pending ∨ ∃ start ∈ starts, row = proposedRollup series spec rows sources start := by
  unfold propose at mem
  induction starts generalizing pending with
  | nil => exact .inl mem
  | cons start starts ih =>
    rw [foldl_cons] at mem
    rcases ih mem with mem | ⟨later, among, eq⟩
    · split_ifs at mem
      · rcases mem_append.1 mem with mem | mem
        · exact .inl mem
        · exact .inr ⟨start, mem_cons_self, mem_singleton.1 mem⟩
      · exact .inl mem
    · exact .inr ⟨later, mem_cons_of_mem _ among, eq⟩

section Ensures

variable {query : WindowQuery τ} {series : SeriesRef} {first stop : ℤ}

/-- One series of a query proposes rows derived from its samples. -/
theorem ensures_rollupSeries (plain : series.Plain) (fits : Fits series.metricType query.transform)
    (whole : WholeWindows query first stop) (limits : Limits)
    {state : List MetricRow × List MetricRollup} {now : MetricStore × List ℕ} (kept : Kept state.2 now) :
    Ensures Grows Prod.fst (fun result => Kept result.2)
      (rollupSeries query limits first stop state series) now := by
  refine ensures_bind (ensures_read fun now₁ grows₁ cached _ => ?_)
  have kept₁ := stable_kept state.2 now now₁ grows₁ kept
  refine ensures_bind (ensures_lift fun template authorized => ?_)
  rw [authorizeMetric_eq rfl rfl] at authorized
  cases granted : seriesVerdict query.authorizer query.referenced series with
  | error e =>
    rw [granted] at authorized
    cases authorized
  | ok verdict =>
    rw [granted] at authorized
    cases verdict with
    | none =>
      cases authorized
      exact ensures_pure kept₁
    | some allowed =>
      cases authorized
      split_ifs with full
      · apply ensures_bind
        refine Ensures.mono ?_ (ensures_stable (stable_kept state.2) kept₁ _)
        exact fun rows later kept => ensures_pure kept
      · apply ensures_bind
        apply ensures_seriesWindows _ _ _ _ _ _ _ (Grows.refl _)
        intro mid later grows₂ grows₃ result computed
        have kept₂ := stable_kept state.2 now₁ later (Grows.trans _ _ _ grows₂ grows₃) kept₁
        rw [windowsOf_eq _ granted plain (value_mem_of_granted (value_mem_referenced query) granted)
          leadOf_pairs fun s mem => (mem_scanOf.1 mem).2.1] at computed
        cases values : cells series.metricType query.spec
            (leadOf query.spec (mid.1.samplesOf series.id) query.since)
            (scanOf (later.1.samplesOf series.id) query.since query.until_) with
        | error e =>
          rw [values] at computed
          cases computed
        | ok values' =>
          rw [values] at computed
          cases computed
          refine ensures_pure fun row mem untouched => ?_
          split_ifs at mem
          · rcases mem_propose mem with mem | ⟨start, among, rfl⟩
            · exact kept₂ row mem untouched
            · obtain ⟨pos, low, high, -, since, until_⟩ := whole
              obtain ⟨aligned, lower, till⟩ := (mem_windowStarts pos low high).1 among
              have inside := Int.le_of_dvd (by omega) (dvd_sub high aligned)
              exact derived_proposedRollup fits (grows₃.2 _ untouched) (distinct_samplesOf _ _)
                pos values aligned (by omega) (by omega) _ _
          · exact kept₂ row mem untouched

/-- **What a query proposes is derived from the samples,** but for the series from which
samples are deleted while it runs. -/
theorem ensures_executeMetric (query : WindowQuery τ) (now : MetricStore × List ℕ) :
    Ensures Grows Prod.fst (fun result => Kept result.2) (executeMetric query) now := by
  have nothing (now : MetricStore × List ℕ) : Kept [] now := fun row mem => absurd mem not_mem_nil
  refine ensures_bind (ensures_read fun now _ names _ => ?_)
  refine ensures_bind (ensures_lift fun allowed _ => ?_)
  split_ifs with none
  · exact ensures_pure (nothing _)
  refine ensures_bind (ensures_read fun now _ series found => ?_)
  cases found
  have plain (s : SeriesRef) (mem : s ∈ matchedSeries query now.1 allowed) := plain_of_matched mem
  generalize matchedSeries query now.1 allowed = series at plain
  match series with
  | [] => exact ensures_pure (nothing _)
  | head :: rest =>
    dsimp only
    split_ifs with mixed
    · exact ensures_bind (ensures_lift fun _ failed => nomatch failed)
    refine ensures_bind (ensures_lift fun _ valid => ?_)
    have fits := fits_of_checked mixed valid
    unfold executeRollupWindowQuery
    cases query.limits with
    | none => exact ensures_pure (nothing _)
    | some limits =>
      dsimp only
      by_cases other : limits.adaptiveRollupMaxRows = 0 ∨ query.hasSince = false ∨
          query.hasPredicates = true ∨ query.hasCrossFilters = true ∨
          query.labels.isNone = true ∧ (head :: rest).length ≠ 1
      · rw [if_pos other]
        exact ensures_pure (nothing _)
      rw [if_neg other]
      refine ensures_bind (ensures_lift fun range whole => ?_)
      obtain ⟨first, stop⟩ := range
      by_cases empty : stop ≤ first
      · rw [if_pos empty]
        exact ensures_pure (nothing _)
      rw [if_neg empty]
      by_cases invalid : (checkedI64 (stop - first)).isNone = true
      · rw [if_pos invalid]
        exact ensures_bind (ensures_lift fun _ failed => nomatch failed)
      rw [if_neg invalid]
      have windows := fullWindows_spec whole (not_le.1 empty)
      apply ensures_bind
      refine Ensures.mono ?_ (ensures_foldlM (fun state now => Kept state.2 now)
        (fun one mem state now kept => ensures_rollupSeries (plain one mem) (fits one mem) windows
          limits kept) (nothing _))
      intro result later kept
      refine ensures_pure ?_
      split_ifs
      · exact kept
      · exact nothing _

end Ensures

/-! ### What the metric thread does to the tables -/

namespace MetricStore

/-- A store with more samples and the same rollups. -/
def Extends (store store' : MetricStore) : Prop :=
  store.samples.rows <+: store'.samples.rows ∧ store'.rollups = store.rollups

theorem Extends.refl (store : MetricStore) : store.Extends store := ⟨prefix_rfl, rfl⟩

theorem Extends.trans {a b c : MetricStore} (ab : a.Extends b) (bc : b.Extends c) : a.Extends c :=
  ⟨ab.1.trans bc.1, bc.2.trans ab.2⟩

theorem extends_infoOf (batch : Batch) (record : MetricRecord) (key : SeriesKey) :
    batch.store.Extends (batch.infoOf record key).1.store := by
  unfold Batch.infoOf
  split
  · exact Extends.refl _
  · split
    · exact ⟨prefix_rfl, rfl⟩
    · unfold resolveOrInsert
      split
      · next eq =>
        split at eq
        · cases eq
          exact Extends.refl _
        · cases eq
          exact ⟨prefix_rfl, rfl⟩

theorem extends_insert {batch batch' : Batch} {record : MetricRecord}
    (ok : batch.insert record = .ok batch') : batch.store.Extends batch'.store := by
  have info := extends_infoOf batch record (seriesKey record)
  unfold Batch.insert at ok
  generalize batch.infoOf record (seriesKey record) = found at ok info
  obtain ⟨mid, series⟩ := found
  dsimp only at ok info
  split_ifs at ok
  · cases ok
    exact info
  · cases ok
    exact info.trans ⟨⟨_, (RowTable.rows_insert _ _).symm⟩, rfl⟩

theorem extends_insertAll (batch : Batch) (records : List MetricRecord) :
    batch.store.Extends (batch.insertAll records).1.store := by
  induction records generalizing batch with
  | nil => exact Extends.refl _
  | cons record records ih =>
    unfold Batch.insertAll
    cases ok : batch.insert record with
    | error e => exact extends_infoOf _ _ _
    | ok batch' => exact (extends_insert ok).trans (ih batch')

theorem extends_commit (store : MetricStore) (records : List MetricRecord)
    (fails : Option (ℕ × SqliteError)) (checkpoint : Option MetricStoreError) :
    store.Extends (store.commit records fails checkpoint).1 := by
  unfold commit
  by_cases none : records = []
  · rw [if_pos none]
    exact Extends.refl _
  rw [if_neg none]
  dsimp only
  cases fails with
  | some failure => exact ⟨prefix_rfl, rfl⟩
  | none =>
    have all := extends_insertAll ⟨store, [], .zero⟩ records
    generalize Batch.insertAll ⟨store, [], .zero⟩ records = done at all
    obtain ⟨batch, result⟩ := done
    cases result with
    | error e => exact ⟨prefix_rfl, rfl⟩
    | ok _ =>
      cases checkpoint with
      | none => exact all
      | some error =>
        dsimp only
        split_ifs
        · exact all
        · exact all

theorem samplesOf_prefix {store store' : MetricStore} (more : store.Extends store') (id : ℕ) :
    store.samplesOf id <+: store'.samplesOf id := by
  obtain ⟨rows, eq⟩ := more.1
  unfold samplesOf
  rw [← eq, filter_append]
  exact prefix_append _ _

theorem retainOldest_cases (store : MetricStore) (olderThan : Option ℤ) (limit : ℕ)
    (fails : Option SqliteError) (checkpoint : Option MetricStoreError) :
    (store.retainOldest olderThan limit fails checkpoint).1 = store ∨
      ∃ victims ids, (∀ victim ∈ victims, victim ∈ store.samples.rows) ∧
        (store.retainOldest olderThan limit fails checkpoint).1.samples =
          store.samples.delete (fun row => decide (row.1 ∈ victims.map Prod.fst)) ∧
        (store.retainOldest olderThan limit fails checkpoint).1.rollups =
          ((store.deleteSamples victims).deleteSeries ids).rollups := by
  unfold retainOldest
  split_ifs
  · exact .inl rfl
  · cases fails with
    | some code => exact .inl rfl
    | none =>
      right
      refine ⟨store.oldest olderThan limit,
        (store.deleteSamples (store.oldest olderThan limit)).emptySeries limit,
        fun victim mem => ?_, ?_⟩
      · have := mem_of_mem_take mem
        rw [mem_insertionSort] at this
        exact (mem_filter.1 this).1
      · dsimp only
        cases checkpoint <;> split_ifs <;> exact ⟨rfl, rfl⟩

end MetricStore

namespace MetricWorld

/-- Where no sample is deleted, there are the same samples as before. -/
theorem samplesOf_retained {store store' : MetricStore} {p : ℕ × Sample → Bool}
    (deleted : store'.samples = store.samples.delete p) {id : ℕ}
    (untouched : id ∉ deletedFrom store store') : store'.samplesOf id = store.samplesOf id := by
  unfold MetricStore.samplesOf
  rw [deleted, RowTable.rows_delete, filter_filter]
  refine filter_congr fun row mem => ?_
  rw [Bool.and_eq_left_iff_imp, decide_eq_true_eq]
  intro same
  by_contra gone
  refine untouched (mem_map.2 ⟨row, mem_filter.2 ⟨mem, ?_⟩, same⟩)
  rw [decide_eq_true_eq, deleted, RowTable.rows_delete, mem_filter]
  exact fun kept => gone kept.2

/-- The rollups that a deletion leaves belong to series that it does not touch. -/
theorem untouched_retained {store store' : MetricStore} {victims : List (ℕ × Sample)} {ids : List ℕ}
    (present : ∀ victim ∈ victims, victim ∈ store.samples.rows)
    (samples : store'.samples =
      store.samples.delete fun row => decide (row.1 ∈ victims.map Prod.fst))
    (rollups : store'.rollups = ((store.deleteSamples victims).deleteSeries ids).rollups)
    {row : MetricRollup} (mem : row ∈ store'.rollups) : row.seriesId ∉ deletedFrom store store' := by
  rw [rollups] at mem
  have kept := (mem_filter.1 (mem_filter.1 mem).1).2
  intro touched
  obtain ⟨sample, gone, same⟩ := mem_map.1 touched
  obtain ⟨here, missing⟩ := mem_filter.1 gone
  rw [decide_eq_true_eq, samples, RowTable.rows_delete, mem_filter] at missing
  have victim : sample.1 ∈ victims.map Prod.fst := by
    by_contra survivor
    exact missing ⟨here, by simpa using survivor⟩
  obtain ⟨other, among, eq⟩ := mem_map.1 victim
  obtain rfl : other = sample := store.samples.eq_of_id_eq (present other among) here eq
  rw [decide_eq_true_eq] at kept
  exact kept (mem_map.2 ⟨other, among, same⟩)

/-! ### The invariant -/

/-- The cache and everything on its way to it is derived from the samples. -/
structure Sound (world : MetricWorld) : Prop where
  rollups : SoundRollups world.store
  proposed : ∀ batch ∈ world.proposed, Kept batch.rows (world.store, batch.touched)
  running : ∀ query ∈ world.running, Ensures Grows Prod.fst (fun result => Kept result.2)
    query.program (world.store, query.touched)

variable {world : MetricWorld}

theorem Sound.withStore (sound : world.Sound) {store : MetricStore} {deleted : List ℕ}
    (grows : ∀ id ∉ deleted, world.store.samplesOf id <+: store.samplesOf id)
    (rollups : SoundRollups store) : (world.withStore store deleted).Sound := by
  have later (touched : List ℕ) : Grows (world.store, touched) (store, touched ++ deleted) :=
    ⟨subset_append_left _ _, fun id kept => grows id fun mem =>
      kept (mem_append_right _ mem)⟩
  refine ⟨rollups, fun batch mem => ?_, fun query mem => ?_⟩
  · obtain ⟨old, before, rfl⟩ := mem_map.1 mem
    exact stable_kept old.rows _ _ (later old.touched) (sound.proposed old before)
  · obtain ⟨old, before, rfl⟩ := mem_map.1 mem
    exact (sound.running old before).later Grows.trans (fun _ => stable_kept _)
      (later old.touched)

/-- A store with the same samples and another cache. -/
theorem Sound.withCache (sound : world.Sound) {store : MetricStore}
    (same : store.samples = world.store.samples) (rollups : SoundRollups store)
    {proposed : List Proposed} (fewer : proposed ⊆ world.proposed) :
    ({ world with store := store, proposed := proposed } : MetricWorld).Sound := by
  have grows (touched : List ℕ) : Grows (world.store, touched) (store, touched) := by
    refine ⟨List.Subset.refl _, fun id _ => ?_⟩
    show world.store.samplesOf id <+: store.samplesOf id
    unfold MetricStore.samplesOf
    rw [same]
  refine ⟨rollups, fun batch mem => ?_, fun query mem => ?_⟩
  · exact stable_kept batch.rows _ _ (grows batch.touched) (sound.proposed batch (fewer mem))
  · exact (sound.running query mem).later Grows.trans (fun _ => stable_kept _)
      (grows query.touched)

variable {store : MetricStore}

section

variable (sound : SoundRollups store)
include sound

theorem soundRollups_extends {store' : MetricStore} (more : store.Extends store') :
    SoundRollups store' := by
  refine ⟨fun row mem => ?_, more.2 ▸ sound.keys⟩
  rw [more.2] at mem
  exact (sound.derived row mem).mono (MetricStore.samplesOf_prefix more _)

theorem soundRollups_sublist {store' : MetricStore}
    (same : ∀ row ∈ store'.rollups, store'.samplesOf row.seriesId = store.samplesOf row.seriesId)
    (fewer : store'.rollups.Sublist store.rollups) : SoundRollups store' := by
  refine ⟨fun row mem => ?_, sound.keys.sublist fewer⟩
  rw [same row mem]
  exact sound.derived row (fewer.subset mem)

theorem soundRollups_retainOldest (olderThan : Option ℤ) (limit : ℕ) (fails : Option SqliteError)
    (checkpoint : Option MetricStoreError) :
    (∀ id ∉ deletedFrom store (store.retainOldest olderThan limit fails checkpoint).1,
      (store.retainOldest olderThan limit fails checkpoint).1.samplesOf id = store.samplesOf id) ∧
      SoundRollups (store.retainOldest olderThan limit fails checkpoint).1 := by
  rcases store.retainOldest_cases olderThan limit fails checkpoint with
    same | ⟨victims, ids, present, samples, rollups⟩
  · rw [same]
    exact ⟨fun _ _ => rfl, sound⟩
  · refine ⟨fun id => samplesOf_retained samples, ?_⟩
    refine soundRollups_sublist sound (fun row mem => ?_) ?_
    · exact samplesOf_retained samples (untouched_retained present samples rollups mem)
    · rw [rollups]
      exact filter_sublist.trans filter_sublist

/-- Rows written over those of their keys. -/
theorem soundRollups_upsert {row : MetricRollup}
    (derived : row.Derived (store.samplesOf row.seriesId)) :
    SoundRollups { store with rollups := MetricStore.upsert store.rollups row } := by
  unfold MetricStore.upsert
  refine ⟨fun other mem => ?_, ?_⟩
  · rcases mem_append.1 mem with mem | mem
    · exact sound.derived other (mem_filter.1 mem).1
    · rw [mem_singleton.1 mem]
      exact derived
  · rw [pairwise_append]
    refine ⟨List.Pairwise.filter _ sound.keys, pairwise_singleton _ _, fun a ha b hb => ?_⟩
    rw [mem_singleton.1 hb]
    simpa using (mem_filter.1 ha).2

theorem soundRollups_foldl_upsert {rows : List MetricRollup}
    (derived : ∀ row ∈ rows, row.Derived (store.samplesOf row.seriesId)) :
    SoundRollups { store with rollups := rows.foldl MetricStore.upsert store.rollups } := by
  induction rows generalizing store with
  | nil => exact sound
  | cons row rows ih =>
    obtain ⟨first, rest⟩ := forall_mem_cons.1 derived
    exact ih (soundRollups_upsert sound first) rest

theorem soundRollups_pruned (maxRows : ℕ) :
    SoundRollups { store with rollups := MetricStore.pruned store.rollups maxRows } :=
  soundRollups_sublist sound (fun _ _ => rfl) filter_sublist

theorem soundRollups_pruneRollups (maxRows : ℕ) (fails : Option SqliteError) :
    (store.pruneRollups maxRows fails).1.samples = store.samples ∧
      SoundRollups (store.pruneRollups maxRows fails).1 := by
  unfold MetricStore.pruneRollups
  cases fails with
  | some code => exact ⟨rfl, sound⟩
  | none =>
    split_ifs
    · exact ⟨rfl, sound⟩
    · exact ⟨rfl, soundRollups_pruned sound maxRows⟩

theorem soundRollups_commitRollups {rows : List MetricRollup}
    (derived : ∀ row ∈ rows, row.Derived (store.samplesOf row.seriesId)) (maxRows : ℕ)
    (fails : Option SqliteError) :
    (store.commitRollups rows maxRows fails).1.samples = store.samples ∧
      SoundRollups (store.commitRollups rows maxRows fails).1 := by
  unfold MetricStore.commitRollups
  by_cases none : rows = []
  · rw [if_pos none]
    exact ⟨rfl, sound⟩
  rw [if_neg none]
  by_cases off : maxRows = 0
  · rw [if_pos off]
    have pruned := soundRollups_pruneRollups sound 0 fails
    generalize store.pruneRollups 0 fails = result at pruned
    obtain ⟨left, result⟩ := result
    cases result <;> exact pruned
  rw [if_neg off]
  cases fails with
  | some code => split_ifs <;> exact ⟨rfl, sound⟩
  | none =>
    split_ifs
    · exact ⟨rfl, sound⟩
    · exact ⟨rfl, sound⟩
    · exact ⟨rfl, sound⟩
    · exact ⟨rfl, soundRollups_pruned (soundRollups_foldl_upsert sound derived) maxRows⟩

end

/-! ### Runs -/

/-- No row is written whose series has lost samples since its query began. -/
def UntouchedStep (world : MetricWorld) : MetricAction τ → Prop
  | .commitRollups index _ _ =>
    ∀ batch, world.proposed[index]? = some batch → ∀ row ∈ batch.rows, row.seriesId ∉ batch.touched
  | _ => True

/-- A run each of whose steps is of this kind. -/
def Untouched (world : MetricWorld) : List (MetricAction τ) → Prop
  | [] => True
  | action :: actions => world.UntouchedStep action ∧ (world.step action).Untouched actions

theorem untouched_snoc (world : MetricWorld) (actions : List (MetricAction τ))
    (action : MetricAction τ) : world.Untouched (actions ++ [action]) ↔
      world.Untouched actions ∧ (world.run actions).UntouchedStep action := by
  induction actions generalizing world with
  | nil => exact ⟨fun h => ⟨trivial, h.1⟩, fun h => ⟨h.2, trivial⟩⟩
  | cons first actions ih =>
    show _ ∧ (world.step first).Untouched (actions ++ [action]) ↔ (_ ∧ _) ∧ _
    rw [ih, and_assoc]
    rfl

/-- A store without rollups, and nobody who uses it. -/
structure Initial (world : MetricWorld) : Prop where
  rollups : world.store.rollups = []
  running : world.running = []
  proposed : world.proposed = []

theorem Initial.sound (initial : world.Initial) : world.Sound where
  rollups := ⟨fun _ mem => absurd (initial.rollups ▸ mem) not_mem_nil,
    initial.rollups ▸ List.Pairwise.nil⟩
  proposed _ mem := absurd (initial.proposed ▸ mem) not_mem_nil
  running _ mem := absurd (initial.running ▸ mem) not_mem_nil

/-- A query makes its next read. -/
theorem Sound.advance (sound : world.Sound) {query : Running} (mem : query ∈ world.running)
    {others : List Running} (fewer : others ⊆ world.running) : (world.advance query others).Sound := by
  have next := (sound.running query mem).advance (Grows.refl _)
  have left : ({ world with running := others } : MetricWorld).Sound :=
    ⟨sound.rollups, sound.proposed, fun other mem => sound.running other (fewer mem)⟩
  unfold MetricWorld.advance
  dsimp only
  split
  · refine ⟨sound.rollups, sound.proposed, fun other mem => ?_⟩
    rcases mem_append.1 mem with mem | mem
    · exact sound.running other (fewer mem)
    · rw [mem_singleton.1 mem]
      exact next
  · exact left
  · exact left
  · next rows _ done =>
    refine ⟨sound.rollups, fun batch mem => ?_, left.running⟩
    rcases mem_append.1 mem with mem | mem
    · exact sound.proposed batch mem
    · rw [mem_singleton.1 mem]
      exact next.result done

/-- **Every step keeps the cache sound,** if it writes no row of a series that has lost
samples. -/
theorem Sound.step (sound : world.Sound) {action : MetricAction τ}
    (untouched : world.UntouchedStep action) : (world.step action).Sound := by
  cases action with
  | commit records fails checkpoint =>
    have more := world.store.extends_commit records fails checkpoint
    exact sound.withStore (fun id _ => MetricStore.samplesOf_prefix more id)
      (soundRollups_extends sound.rollups more)
  | retainOldest olderThan limit fails checkpoint =>
    obtain ⟨same, rollups⟩ :=
      soundRollups_retainOldest sound.rollups olderThan limit fails checkpoint
    refine sound.withStore (fun id kept => ?_) rollups
    rw [same id kept]
  | commitRollups index maxRows fails =>
    simp only [MetricWorld.step]
    cases found : world.proposed[index]? with
    | none => exact sound
    | some batch =>
      have mem := mem_of_getElem? found
      have derived : ∀ row ∈ batch.rows, row.Derived (world.store.samplesOf row.seriesId) :=
        fun row here => sound.proposed batch mem row here (untouched batch found row here)
      obtain ⟨same, rollups⟩ := soundRollups_commitRollups sound.rollups derived maxRows fails
      exact sound.withCache same rollups (eraseIdx_subset)
  | pruneRollups maxRows fails =>
    obtain ⟨same, rollups⟩ := soundRollups_pruneRollups sound.rollups maxRows fails
    exact sound.withCache same rollups (List.Subset.refl _)
  | configure cacheCapacity =>
    have same : SoundRollups (world.store.configure cacheCapacity) :=
      ⟨sound.rollups.derived, sound.rollups.keys⟩
    refine sound.withCache ?_ same (List.Subset.refl _)
    rfl
  | begin query =>
    refine ⟨sound.rollups, sound.proposed, fun running mem => ?_⟩
    rcases mem_append.1 mem with mem | mem
    · exact sound.running running mem
    · rw [mem_singleton.1 mem]
      exact ensures_executeMetric query _
  | advance index =>
    simp only [MetricWorld.step]
    cases found : world.running[index]? with
    | none => exact sound
    | some query => exact sound.advance (mem_of_getElem? found) (eraseIdx_subset)

theorem Sound.run (sound : world.Sound) {actions : List (MetricAction τ)}
    (untouched : world.Untouched actions) : (world.run actions).Sound := by
  induction actions generalizing world with
  | nil => exact sound
  | cons action actions ih => exact ih (sound.step untouched.1) untouched.2

end MetricWorld

/-! ### Answers -/

/-- The smallest value of the first ten nanoseconds. -/
def smallest : WindowQuery Unit where
  authorizer := everybody
  limits := some ⟨100, 1, 10, true⟩
  namePattern := "load"
  globMatches := fun name => name = "load"
  labels := none
  fields := []
  hasSince := true
  hasPredicates := false
  hasCrossFilters := false
  transform := none
  function := .min
  width := 10
  since := 0
  until_ := 10

def load (timestamp value : ℤ) : MetricRecord where
  bootId := Vector.replicate 16 0
  timestamp := timestamp
  name := "load"
  labels := ""
  metricType := .gauge
  value := .number (.ofInt value)

/-- A store without samples. -/
@[irreducible]
def emptyWorld : MetricWorld := ⟨⟨.empty, .empty, [], [], 4⟩, [], []⟩

theorem initial_emptyWorld : emptyWorld.Initial := by
  unfold emptyWorld
  exact ⟨rfl, rfl, rfl⟩

/-- Two samples are committed, and a query computes the smallest value. -/
def computedRow : List (MetricAction Unit) :=
  [.commit [load 1 1, load 2 2] none none, .begin smallest, .advance 0, .advance 0, .advance 0,
    .advance 0]

/-- Then the row is written. -/
def promptRow : List (MetricAction Unit) := computedRow ++ [.commitRollups 0 100 none]

/-- **The cache changes no answer** in a run that writes no row of a series from which
samples have been deleted since the row's query began. -/
theorem cached_answer {υ : Type} {world : MetricWorld} (initial : world.Initial)
    {actions : List (MetricAction τ)} (untouched : world.Untouched actions) (query : WindowQuery υ) :
    SameAnswer (atomically (world.run actions).store (executeMetric query))
      (atomically { (world.run actions).store with rollups := [] } (executeMetric query)) :=
  executeMetric_answer (initial.sound.run untouched).rollups

theorem cached_answer_promptRow : (emptyWorld.run promptRow).store.rollups ≠ [] ∧
    SameAnswer (atomically (emptyWorld.run promptRow).store (executeMetric smallest))
      (atomically { (emptyWorld.run promptRow).store with rollups := [] }
        (executeMetric smallest)) := by
  have done : (∀ batch ∈ (emptyWorld.run computedRow).proposed, batch.touched = []) ∧
      (emptyWorld.run promptRow).store.rollups.length = 1 := by decide +kernel
  have untouched : emptyWorld.Untouched promptRow := by
    refine (MetricWorld.untouched_snoc emptyWorld computedRow _).2 ⟨?_, fun batch found row _ => ?_⟩
    · exact ⟨trivial, trivial, trivial, trivial, trivial, trivial, trivial⟩
    · rw [done.1 batch (mem_of_getElem? found)]
      exact not_mem_nil
  refine ⟨fun none => ?_, cached_answer initial_emptyWorld untouched smallest⟩
  have written := done.2
  rw [none] at written
  cases written

/-- The sample with the smallest value is deleted, and then the row is written. -/
def lateRow : List (MetricAction Unit) :=
  computedRow ++ [.retainOldest none 1 none none, .commitRollups 0 100 none]

/-- The values of the rows of an answer. -/
def answerValues (answer : Except QueryError (Option (List MetricRow) × List MetricRollup)) :
    Option (List (Option Binary64)) :=
  match answer with
  | .ok (some rows, _) => some (rows.map fun row =>
    match row.record.lookup "value" with
    | some (.float value) => some value
    | _ => none)
  | _ => none

theorem SameAnswer.values {left right : Except QueryError (Option (List MetricRow) × List MetricRollup)}
    (same : SameAnswer left right) {values values' : List (Option Binary64)}
    (shown : answerValues left = some values) (shown' : answerValues right = some values') :
    values.Perm values' := by
  match left, right with
  | .ok (some rows, _), .ok (some rows', _) =>
    cases shown
    cases shown'
    exact List.Perm.map _ same
  | .ok (none, _), _ => cases shown
  | .error _, _ => cases shown
  | .ok (some _, _), .ok (none, _) => cases shown'
  | .ok (some _, _), .error _ => cases shown'

/-- The cache still answers with the value of the sample that is gone. -/
theorem stale_answer :
    ¬ SameAnswer (atomically (emptyWorld.run lateRow).store (executeMetric smallest))
      (atomically { (emptyWorld.run lateRow).store with rollups := [] }
        (executeMetric smallest)) := by
  intro same
  have shown : answerValues (atomically (emptyWorld.run lateRow).store (executeMetric smallest)) =
        some [some (.ofInt 1)] ∧
      answerValues (atomically { (emptyWorld.run lateRow).store with rollups := [] }
        (executeMetric smallest)) = some [some (.ofInt 2)] := by decide +kernel
  have perm := same.values shown.1 shown.2
  rw [singleton_perm_singleton] at perm
  revert perm
  decide

end Eventd
