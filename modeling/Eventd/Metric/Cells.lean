import Eventd.Metric.Rollup

/-!
# What the windows of a series hold

The windows of a list of samples without the rows they are shown as: each sample gives a
reading or none, the readings are tallied by window, and each tally has a value.  A query
over a range can be cut at the start of a window: the sample before the cut is then read
as the one that precedes the second part.

* `Reading`, `readings`, `tallies`, `cells`: the abstract pipeline;
* `cells_cut`: the cut.
-/

namespace Eventd

open Fallible KeyedList List

/-- What a window takes from a point. -/
structure Reading where
  time : ℤ
  value : Option Value
  overflow : Bool
  delta : Option Binary64
  elapsed : Option ℤ

/-- Take a reading into account. -/
def Tally.take (tally : Tally) (reading : Reading) : Tally where
  numeric := reading.value.elim tally.numeric tally.numeric.push
  overflow := reading.overflow || tally.overflow
  delta := reading.delta.elim tally.delta tally.delta.add
  elapsed := reading.elapsed.elim tally.elapsed fun elapsed =>
    tally.elapsed.bind fun total => checkedI64 (total + elapsed)
  latest := max tally.latest reading.time

section Readings

variable (metricType : MetricType) (transform : Option Transform)

/-- The reading of a pair of samples. -/
def pairReading (rate : Bool) (earlier : ℤ × Binary64) (sample : Sample) :
    Except QueryError (Option Reading) := do
  let elapsed := saturatingSub sample.timestamp earlier.1
  if elapsed ≤ 0 then return none
  let delta := if sample.value.ge earlier.2 then sample.value.sub earlier.2 else sample.value
  let value ← finiteValue (if rate then (delta.mul billion).div (.ofInt elapsed) else delta)
  return some ⟨sample.timestamp, some value, false, some delta, some elapsed⟩

/-- The reading of a histogram. -/
def percentileReading (percentile : Percentile) (sample : Sample) :
    Except QueryError (Option Reading) :=
  match sample.histogramData with
  | none => .error .invalidHistogram
  | some histogram => do
      match ← histogramPercentile histogram percentile with
      | .empty => return none
      | .finite value =>
        return some ⟨sample.timestamp, some (← finiteValue value), false, none, none⟩
      | .overflow => return some ⟨sample.timestamp, some .null, true, none, none⟩

/-- The reading of a sample after another. -/
def reading (previous : Option (ℤ × Binary64)) (sample : Sample) :
    Except QueryError (Option Reading) :=
  if sample.value.isFinite then
    match transform with
    | none => .ok (some ⟨sample.timestamp,
        some (if metricType = .histogram then .null else .float sample.value), false, none, none⟩)
    | some (.percentile percentile) => percentileReading percentile sample
    | some .rate => previous.elim (.ok none) fun earlier => pairReading true earlier sample
    | some .delta => previous.elim (.ok none) fun earlier => pairReading false earlier sample
  else .error .nonFinite

/-- What the next sample is paired with. -/
def endOf (sample : ℕ × Sample) : ℤ × Binary64 := (sample.2.timestamp, sample.2.value)

/-- The readings of samples, one after another. -/
def readings (previous : Option (ℤ × Binary64)) :
    List (ℕ × Sample) → Except QueryError (List Reading)
  | [] => .ok []
  | sample :: samples => do
      let first ← reading metricType transform previous sample.2
      let rest ← readings (some (endOf sample)) samples
      return first.toList ++ rest

/-- What the reading of a sample can be. -/
inductive ReadAs (sample : Sample) : Option Transform → Reading → Prop
  | plain : ReadAs sample none ⟨sample.timestamp,
      some (if metricType = .histogram then .null else .float sample.value), false, none, none⟩
  | finite {p : Percentile} {x : Binary64} {value : Value} (is : finiteValue x = .ok value) :
      ReadAs sample (some (.percentile p)) ⟨sample.timestamp, some value, false, none, none⟩
  | overflow {p : Percentile} :
      ReadAs sample (some (.percentile p)) ⟨sample.timestamp, some .null, true, none, none⟩
  | pair {t : Transform} {x delta : Binary64} {value : Value} {elapsed : ℤ}
      (pairs : isPairs (some t) = true) (is : finiteValue x = .ok value) :
      ReadAs sample (some t) ⟨sample.timestamp, some value, false, some delta, some elapsed⟩

variable {metricType transform}

theorem readAs_of_pairReading {t : Transform} (pairs : isPairs (some t) = true) {rate : Bool}
    {earlier : ℤ × Binary64} {sample : Sample} {r : Reading}
    (ok : pairReading rate earlier sample = .ok (some r)) : ReadAs metricType sample (some t) r := by
  unfold pairReading at ok
  dsimp only at ok
  split_ifs at ok
  · cases ok
  all_goals
    obtain ⟨value, is, eq⟩ := bind_eq_ok.1 ok
    cases eq
    exact .pair pairs is

variable {previous : Option (ℤ × Binary64)}

theorem readAs_of_reading {sample : Sample} {r : Reading}
    (ok : reading metricType transform previous sample = .ok (some r)) :
    ReadAs metricType sample transform r := by
  unfold reading at ok
  by_cases finite : sample.value.isFinite
  swap
  · rw [if_neg finite] at ok
    cases ok
  rw [if_pos finite] at ok
  match transform, previous with
  | none, _ =>
    cases ok
    exact .plain
  | some (.percentile _), _ =>
    dsimp only at ok
    unfold percentileReading at ok
    split at ok
    · cases ok
    · obtain ⟨value, -, rest⟩ := bind_eq_ok.1 ok
      split at rest
      · cases rest
      · obtain ⟨_, is, eq⟩ := bind_eq_ok.1 rest
        cases eq
        exact .finite is
      · cases rest
        exact .overflow
  | some .rate, none => cases ok
  | some .delta, none => cases ok
  | some .rate, some earlier => exact readAs_of_pairReading rfl ok
  | some .delta, some earlier => exact readAs_of_pairReading rfl ok

theorem ReadAs.at_eq {sample : Sample} {r : Reading} (h : ReadAs metricType sample transform r) :
    r.time = sample.timestamp := by
  cases h <;> rfl

/-- Without pairs it does not matter what came before. -/
theorem reading_of_not_pairs (single : isPairs transform = false)
    (previous previous' : Option (ℤ × Binary64)) (sample : Sample) :
    reading metricType transform previous sample =
      reading metricType transform previous' sample := by
  match transform with
  | none => rfl
  | some (.percentile _) => rfl
  | some .rate => cases single
  | some .delta => cases single

theorem readings_of_not_pairs (single : isPairs transform = false)
    (previous previous' : Option (ℤ × Binary64)) (samples : List (ℕ × Sample)) :
    readings metricType transform previous samples =
      readings metricType transform previous' samples := by
  cases samples with
  | nil => rfl
  | cons sample samples =>
    unfold readings
    rw [reading_of_not_pairs single previous previous']

/-- What the sample after some others is paired with. -/
def lastEnd (previous : Option (ℤ × Binary64)) (samples : List (ℕ × Sample)) :
    Option (ℤ × Binary64) := samples.getLast?.elim previous fun sample => some (endOf sample)

theorem lastEnd_cons (previous : Option (ℤ × Binary64)) (sample : ℕ × Sample)
    (samples : List (ℕ × Sample)) :
    lastEnd previous (sample :: samples) = lastEnd (some (endOf sample)) samples := by
  unfold lastEnd
  rw [List.getLast?_cons]
  cases samples.getLast? <;> rfl

/-- The readings of one list of samples and then of another. -/
theorem readings_append (previous : Option (ℤ × Binary64)) (left right : List (ℕ × Sample)) :
    readings metricType transform previous (left ++ right) = do
      let first ← readings metricType transform previous left
      let rest ← readings metricType transform (lastEnd previous left) right
      return first ++ rest := by
  induction left generalizing previous with
  | nil =>
    show readings metricType transform previous right = _
    show _ = Except.bind _ _
    rw [show lastEnd previous [] = previous from rfl]
    cases readings metricType transform previous right <;> rfl
  | cons sample left ih =>
    rw [cons_append, readings, readings, ih, lastEnd_cons]
    cases reading metricType transform previous sample.2 with
    | error e => rfl
    | ok first =>
      cases readings metricType transform (some (endOf sample)) left with
      | error e => rfl
      | ok second =>
        cases readings metricType transform (lastEnd (some (endOf sample)) left) right with
        | error e => rfl
        | ok third => exact congrArg Except.ok (append_assoc ..).symm

theorem mem_readings {samples : List (ℕ × Sample)} {rs : List Reading}
    (ok : readings metricType transform previous samples = .ok rs) {r : Reading} (mem : r ∈ rs) :
    ∃ sample ∈ samples, ReadAs metricType sample.2 transform r := by
  induction samples generalizing previous rs with
  | nil =>
    cases ok
    cases mem
  | cons sample samples ih =>
    obtain ⟨first, here, rest⟩ := bind_eq_ok.1 ok
    obtain ⟨others, there, eq⟩ := bind_eq_ok.1 rest
    cases eq
    rcases mem_append.1 mem with mem | mem
    · rw [Option.mem_toList] at mem
      cases mem
      exact ⟨sample, mem_cons_self, readAs_of_reading here⟩
    · obtain ⟨other, among, is⟩ := ih there mem
      exact ⟨other, mem_cons_of_mem _ among, is⟩

theorem finite_of_readings {samples : List (ℕ × Sample)} {rs : List Reading}
    (ok : readings metricType transform previous samples = .ok rs) {sample : ℕ × Sample}
    (mem : sample ∈ samples) : sample.2.value.isFinite = true := by
  induction samples generalizing previous rs with
  | nil => cases mem
  | cons head samples ih =>
    obtain ⟨first, here, rest⟩ := bind_eq_ok.1 ok
    obtain ⟨others, there, -⟩ := bind_eq_ok.1 rest
    rcases mem_cons.1 mem with rfl | mem
    · unfold reading at here
      by_contra infinite
      rw [if_neg infinite] at here
      cases here
    · exact ih there mem

/-- The first of a pair gives no reading of its own. -/
theorem readings_single (pairs : isPairs transform = true) {sample : ℕ × Sample}
    (finite : sample.2.value.isFinite = true) (samples : List (ℕ × Sample)) :
    readings metricType transform none (sample :: samples) =
      readings metricType transform (some (endOf sample)) samples := by
  have none : reading metricType transform none sample.2 = .ok none := by
    unfold reading
    rw [if_pos finite]
    match transform with
    | some .rate => rfl
    | some .delta => rfl
    | none => cases pairs
    | some (.percentile _) => cases pairs
  rw [readings, none]
  show Except.bind _ _ = _
  cases readings metricType transform (some (endOf sample)) samples <;> rfl

end Readings

/-! ### Windows -/

/-- Take a reading into account in its window. -/
def tally (width : ℤ) (windows : List (ℤ × Tally)) (r : Reading) : List (ℤ × Tally) :=
  let start := windowStart width r.time
  insert start (((windows.lookup start).getD .empty).take r) windows

/-- The windows of readings. -/
def tallies (width : ℤ) (rs : List Reading) : List (ℤ × Tally) := rs.foldl (tally width) []

variable {width start time : ℤ} {rs : List Reading} {spec : WindowSpec}

theorem mem_keys_tallies_from {windows : List (ℤ × Tally)} :
    start ∈ (rs.foldl (tally width) windows).map Prod.fst ↔
      start ∈ windows.map Prod.fst ∨ ∃ r ∈ rs, windowStart width r.time = start := by
  induction rs generalizing windows with
  | nil => simp
  | cons r rs ih =>
    rw [foldl_cons, ih]
    unfold tally
    rw [mem_keys_insert]
    simp only [mem_cons, exists_eq_or_imp]
    constructor
    · rintro ((rfl | old) | later)
      · exact .inr (.inl rfl)
      · exact .inl old
      · exact .inr (.inr later)
    · rintro (old | rfl | later)
      · exact .inl (.inr old)
      · exact .inl (.inl rfl)
      · exact .inr later

theorem mem_keys_tallies :
    start ∈ (tallies width rs).map Prod.fst ↔ ∃ r ∈ rs, windowStart width r.time = start := by
  unfold tallies
  rw [mem_keys_tallies_from]
  simp

theorem ordered_tallies (width : ℤ) (rs : List Reading) : Ordered (tallies width rs) := by
  suffices all : ∀ windows, Ordered windows →
      Ordered (rs.foldl (tally width) windows) from all [] List.Pairwise.nil
  induction rs with
  | nil => exact fun _ ordered => ordered
  | cons r rs ih => exact fun windows ordered => ih _ (ordered.insert _ _)

theorem tally_append {left windows : List (ℤ × Tally)} {r : Reading}
    (above : ∀ entry ∈ left, entry.1 < windowStart width r.time) :
    tally width (left ++ windows) r = left ++ tally width windows r := by
  unfold tally
  dsimp only
  rw [lookup_append above, insert_append _ above]

/-- Readings of later windows do not touch earlier ones. -/
theorem tallies_append {left right : List Reading}
    (apart : ∀ a ∈ left, ∀ b ∈ right, windowStart width a.time < windowStart width b.time) :
    tallies width (left ++ right) = tallies width left ++ tallies width right := by
  unfold tallies
  rw [foldl_append]
  suffices all : ∀ windows, right.foldl (tally width) (left.foldl (tally width) [] ++ windows) =
      left.foldl (tally width) [] ++ right.foldl (tally width) windows by
    simpa using all []
  induction right with
  | nil => exact fun _ => rfl
  | cons r right ih =>
    intro windows
    have above : ∀ entry ∈ left.foldl (tally width) [], entry.1 < windowStart width r.time := by
      intro entry mem
      obtain ⟨a, here, eq⟩ := mem_keys_tallies.1 (mem_map_of_mem mem)
      rw [← eq]
      exact apart a here r mem_cons_self
    rw [foldl_cons, foldl_cons, tally_append above]
    exact ih (fun a ha b hb => apart a ha b (mem_cons_of_mem _ hb)) _

theorem windowStart_le (pos : 0 < width) : windowStart width time ≤ time :=
  Int.ediv_mul_le time pos.ne'

/-- A time from the start of a window on is in that window or a later one. -/
theorem le_windowStart {cut : ℤ} (pos : 0 < width) (aligned : width ∣ cut) (le : cut ≤ time) :
    cut ≤ windowStart width time := by
  obtain ⟨k, rfl⟩ := aligned
  rw [mul_comm width k] at le ⊢
  exact mul_le_mul_of_nonneg_right ((Int.le_ediv_iff_mul_le pos).2 le) pos.le

theorem windowStart_eq (pos : 0 < width) (aligned : width ∣ start) (lower : start ≤ time)
    (before : time < start + width) : windowStart width time = start := by
  refine le_antisymm ?_ (le_windowStart pos aligned lower)
  by_contra later
  have next : start + width ≤ windowStart width time := by
    obtain ⟨k, rfl⟩ := aligned
    have dvd : width ∣ windowStart width time - width * k :=
      dvd_sub (Dvd.intro_left _ rfl) (Dvd.intro _ rfl)
    have := Int.le_of_dvd (by omega) dvd
    omega
  have : windowStart width time ≤ time := windowStart_le pos
  omega

/-! ### Values -/

/-- The values of windows. -/
def tallyCells (spec : WindowSpec) (windows : List (ℤ × Tally)) :
    Except QueryError (List (ℤ × Value)) :=
  windows.mapM fun entry => do
    let value ← entry.2.value spec.function
      (if isPairs spec.transform then spec.transform else none)
    return (entry.1, value)

/-- The windows of samples, of which the first only precedes the others if there are pairs. -/
def cells (metricType : MetricType) (spec : WindowSpec) (preceding : Option (ℕ × Sample))
    (samples : List (ℕ × Sample)) : Except QueryError (List (ℤ × Value)) := do
  let rs ← readings metricType spec.transform none (preceding.toList ++ samples)
  tallyCells spec (tallies spec.width rs)

/-- The sample that precedes what follows. -/
def lastOf (spec : WindowSpec) (preceding : Option (ℕ × Sample)) (samples : List (ℕ × Sample)) :
    Option (ℕ × Sample) :=
  if isPairs spec.transform then (preceding.toList ++ samples).getLast? else none

theorem tallyCells_append {left right : List (ℤ × Tally)} {all : List (ℤ × Value)} :
    tallyCells spec (left ++ right) = .ok all ↔
      ∃ a b, tallyCells spec left = .ok a ∧ tallyCells spec right = .ok b ∧ all = a ++ b := by
  unfold tallyCells
  rw [mapM_append, bind_eq_ok]
  refine exists_congr fun a => ?_
  rw [bind_eq_ok]
  constructor
  · rintro ⟨ha, b, hb, eq⟩
    exact ⟨b, ha, hb, (Except.ok.inj eq).symm⟩
  · rintro ⟨b, ha, hb, rfl⟩
    exact ⟨ha, b, hb, rfl⟩

/-- To read the last sample first is to start after it. -/
theorem readings_lastOf {metricType : MetricType} {preceding : Option (ℕ × Sample)}
    {left : List (ℕ × Sample)}
    (ok : readings metricType spec.transform none (preceding.toList ++ left) = .ok rs)
    (right : List (ℕ × Sample)) :
    readings metricType spec.transform none ((lastOf spec preceding left).toList ++ right) =
      readings metricType spec.transform (lastEnd none (preceding.toList ++ left)) right := by
  unfold lastOf lastEnd
  by_cases pairs : isPairs spec.transform = true
  · rw [if_pos pairs]
    cases last : (preceding.toList ++ left).getLast? with
    | none => rfl
    | some sample =>
      exact readings_single pairs (finite_of_readings ok (mem_of_getLast? last)) right
  · rw [if_neg pairs]
    exact readings_of_not_pairs (by simpa using pairs) _ _ _

/-- **A range of samples can be cut at the start of a window.** -/
theorem cells_cut {metricType : MetricType} {preceding : Option (ℕ × Sample)} {cut : ℤ}
    (pos : 0 < spec.width) (aligned : spec.width ∣ cut) {left right : List (ℕ × Sample)}
    (early : ∀ s ∈ preceding.toList ++ left, s.2.timestamp < cut)
    (late : ∀ s ∈ right, cut ≤ s.2.timestamp) {all : List (ℤ × Value)} :
    cells metricType spec preceding (left ++ right) = .ok all ↔
      ∃ a b, cells metricType spec preceding left = .ok a ∧
        cells metricType spec (lastOf spec preceding left) right = .ok b ∧ all = a ++ b := by
  unfold cells
  rw [← append_assoc, readings_append]
  cases first : readings metricType spec.transform none (preceding.toList ++ left) with
  | error e => exact ⟨nofun, nofun⟩
  | ok rs =>
    rw [readings_lastOf first]
    cases second : readings metricType spec.transform
        (lastEnd none (preceding.toList ++ left)) right with
    | error e => exact ⟨nofun, nofun⟩
    | ok rs' =>
      have apart : ∀ a ∈ rs, ∀ b ∈ rs',
          windowStart spec.width a.time < windowStart spec.width b.time := by
        intro a ha b hb
        obtain ⟨s, hs, is⟩ := mem_readings first ha
        obtain ⟨s', hs', is'⟩ := mem_readings second hb
        have eq := is.at_eq
        have low : windowStart spec.width a.time ≤ a.time := windowStart_le pos
        have high := le_windowStart pos aligned (is'.at_eq ▸ late s' hs')
        have := early s hs
        omega
      show tallyCells spec (tallies spec.width (rs ++ rs')) = .ok all ↔ _
      rw [tallies_append apart]
      exact tallyCells_append

end Eventd
