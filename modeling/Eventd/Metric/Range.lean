import Eventd.Metric.Cells

/-!
# The samples of a series in a range of times

What the two reads of a series return, and how they compose: a range can be cut at any
time, and the sample before the cut is the last of what was read before it.

* `rangeCells`: the windows of a range of times;
* `rangeCells_cut`, `rangeCells_windows`: the range cut at the start of a window, and at
  the start of every window.
-/

namespace Eventd

open List MetricStore

instance : Std.Total before where
  total a b := by
    unfold before
    omega

instance : IsTrans (ℕ × Sample) before where
  trans a b c := by
    unfold before
    omega

instance : Std.Refl before where
  refl _ := .inr ⟨rfl, le_rfl⟩

/-- Samples with distinct ids. -/
def Distinct (samples : List (ℕ × Sample)) : Prop := samples.Pairwise fun a b => a.1 < b.1

variable {samples : List (ℕ × Sample)}

theorem Distinct.eq_of_id (distinct : Distinct samples) {a b : ℕ × Sample} (ha : a ∈ samples)
    (hb : b ∈ samples) (same : a.1 = b.1) : a = b := by
  have nodup : (samples.map Prod.fst).Nodup :=
    (distinct.imp fun h => h.ne).map Prod.fst fun _ _ h => h
  exact inj_on_of_nodup_map nodup ha hb same

theorem Distinct.filter (distinct : Distinct samples) (p : ℕ × Sample → Bool) :
    Distinct (samples.filter p) := List.Pairwise.filter _ distinct

theorem eq_of_before (distinct : Distinct samples) {a b : ℕ × Sample} (ha : a ∈ samples)
    (hb : b ∈ samples) (ab : before a b) (ba : before b a) : a = b := by
  apply distinct.eq_of_id ha hb
  unfold before at ab ba
  omega

theorem mem_scanOf {since until_ : ℤ} {s : ℕ × Sample} :
    s ∈ scanOf samples since until_ ↔
      s ∈ samples ∧ since ≤ s.2.timestamp ∧ s.2.timestamp < until_ := by
  unfold scanOf
  rw [mem_insertionSort, mem_filter, Bool.and_eq_true, decide_eq_true_eq,
    decide_eq_true_eq]

theorem pairwise_scanOf (samples : List (ℕ × Sample)) (since until_ : ℤ) :
    (scanOf samples since until_).Pairwise before := pairwise_insertionSort _ _

/-- The samples before a time, in order. -/
def earlier (samples : List (ℕ × Sample)) (until_ : ℤ) : List (ℕ × Sample) :=
  (samples.filter fun row => decide (row.2.timestamp < until_)).insertionSort before

theorem mem_earlier {until_ : ℤ} {s : ℕ × Sample} :
    s ∈ earlier samples until_ ↔ s ∈ samples ∧ s.2.timestamp < until_ := by
  unfold earlier
  rw [mem_insertionSort, mem_filter, decide_eq_true_eq]

theorem Distinct.nodup (distinct : Distinct samples) :
    samples.Nodup := distinct.imp fun h eq => absurd (congrArg Prod.fst eq) h.ne

/-- Sorted lists of the same samples are one list. -/
theorem sorted_cut (distinct : Distinct samples) {p q r : ℕ × Sample → Bool}
    (either : ∀ s ∈ samples, p s = true ↔ q s = true ∨ r s = true)
    (ordered : ∀ a ∈ samples, ∀ b ∈ samples, q a = true → r b = true →
      a.2.timestamp < b.2.timestamp) :
    (samples.filter p).insertionSort before =
      (samples.filter q).insertionSort before ++ (samples.filter r).insertionSort before := by
  have sorted (p : ℕ × Sample → Bool) : ((samples.filter p).insertionSort before).Pairwise before :=
    pairwise_insertionSort _ _
  have mem (p : ℕ × Sample → Bool) (s : ℕ × Sample) :
      s ∈ (samples.filter p).insertionSort before ↔ s ∈ samples ∧ p s = true := by
    rw [mem_insertionSort, mem_filter]
  have nodup (p : ℕ × Sample → Bool) : ((samples.filter p).insertionSort before).Nodup :=
    (perm_insertionSort _ _).nodup_iff.2 (distinct.filter p).nodup
  refine List.Perm.eq_of_pairwise (fun a b ha hb (ab : before a b) ba => ?_) (sorted p) ?_ ?_
  · rw [mem] at ha
    rw [mem_append, mem, mem] at hb
    exact eq_of_before distinct ha.1 (hb.elim And.left And.left) ab ba
  · rw [pairwise_append]
    refine ⟨sorted q, sorted r, fun a ha b hb => ?_⟩
    rw [mem] at ha hb
    exact .inl (ordered a ha.1 b hb.1 ha.2 hb.2)
  · rw [perm_ext_iff_of_nodup (nodup p)]
    · intro s
      rw [mem_append, mem, mem, mem, ← and_or_left]
      exact and_congr_right fun here => either s here
    · rw [nodup_append]
      refine ⟨nodup q, nodup r, fun a ha b hb eq => ?_⟩
      rw [mem] at ha hb
      subst eq
      exact lt_irrefl _ (ordered a ha.1 a hb.1 ha.2 hb.2)

section Cut

variable {samples : List (ℕ × Sample)} {since cut until_ : ℤ}

theorem scanOf_cut (distinct : Distinct samples) (low : since ≤ cut) (high : cut ≤ until_) :
    scanOf samples since until_ = scanOf samples since cut ++ scanOf samples cut until_ := by
  apply sorted_cut distinct
  · intro s _
    simp only [Bool.and_eq_true, decide_eq_true_eq]
    omega
  · intro a _ b _ ha hb
    simp only [Bool.and_eq_true, decide_eq_true_eq] at ha hb
    omega

theorem earlier_cut (distinct : Distinct samples) (low : since ≤ cut) :
    earlier samples cut = earlier samples since ++ scanOf samples since cut := by
  apply sorted_cut distinct
  · intro s _
    simp only [Bool.and_eq_true, decide_eq_true_eq]
    omega
  · intro a _ b _ ha hb
    simp only [Bool.and_eq_true, decide_eq_true_eq] at ha hb
    omega

theorem precedingOf_eq (samples : List (ℕ × Sample)) (since : ℤ) :
    precedingOf samples since = (earlier samples since).getLast? := rfl

theorem mem_of_precedingOf {s : ℕ × Sample} (last : precedingOf samples since = some s) :
    s ∈ samples ∧ s.2.timestamp < since := by
  rw [precedingOf_eq] at last
  exact mem_earlier.1 (mem_of_getLast? last)

/-- The last of some samples is the one that no other is after. -/
theorem precedingOf_eq_some {sample : ℕ × Sample} (distinct : Distinct samples) :
    precedingOf samples until_ = some sample ↔
      sample ∈ samples ∧ sample.2.timestamp < until_ ∧
        ∀ other ∈ samples, other.2.timestamp < until_ → before other sample := by
  have sorted : (earlier samples until_).Pairwise before := pairwise_insertionSort _ _
  rw [precedingOf_eq]
  constructor
  · intro eq
    obtain ⟨nonempty, rfl⟩ := mem_getLast?_eq_getLast eq
    obtain ⟨mem, early⟩ := mem_earlier.1 (getLast_mem nonempty)
    exact ⟨mem, early, fun other memOther earlyOther =>
      sorted.rel_getLast (mem_earlier.2 ⟨memOther, earlyOther⟩)⟩
  · rintro ⟨mem, early, greatest⟩
    have listed := mem_earlier.2 ⟨mem, early⟩
    have nonempty := ne_nil_of_mem listed
    obtain ⟨memLast, earlyLast⟩ := mem_earlier.1 (getLast_mem nonempty)
    rw [List.getLast?_eq_some_getLast nonempty, eq_of_before distinct memLast mem
      (greatest _ memLast earlyLast) (sorted.rel_getLast listed)]

/-- The sample before the cut is the last of what is read before it. -/
theorem precedingOf_cut (distinct : Distinct samples) (low : since ≤ cut) :
    ((precedingOf samples since).toList ++ scanOf samples since cut).getLast? =
      precedingOf samples cut := by
  rw [precedingOf_eq, precedingOf_eq, earlier_cut distinct low, List.getLast?_append,
    List.getLast?_append]
  cases (earlier samples since).getLast? <;> rfl

end Cut

/-! ### The windows of a range -/

/-- The sample that a read of a range begins with. -/
def leadOf (spec : WindowSpec) (samples : List (ℕ × Sample)) (since : ℤ) : Option (ℕ × Sample) :=
  if isPairs spec.transform then precedingOf samples since else none

/-- The windows of a range of times. -/
def rangeCells (metricType : MetricType) (spec : WindowSpec) (samples : List (ℕ × Sample))
    (since until_ : ℤ) : Except QueryError (List (ℤ × Value)) :=
  cells metricType spec (leadOf spec samples since) (scanOf samples since until_)

section Range

variable {metricType : MetricType} {spec : WindowSpec} {samples : List (ℕ × Sample)}

variable {since until_ cut : ℤ} {all : List (ℤ × Value)}

theorem early_lead (low : since ≤ cut) {s : ℕ × Sample}
    (mem : s ∈ (leadOf spec samples since).toList ++ scanOf samples since cut) :
    s.2.timestamp < cut := by
  rcases mem_append.1 mem with mem | mem
  · unfold leadOf at mem
    split_ifs at mem
    · rw [Option.mem_toList] at mem
      have := (mem_of_precedingOf mem).2
      omega
    · cases mem
  · exact (mem_scanOf.1 mem).2.2

theorem lastOf_lead (distinct : Distinct samples) (low : since ≤ cut) :
    lastOf spec (leadOf spec samples since) (scanOf samples since cut) =
      leadOf spec samples cut := by
  unfold lastOf leadOf
  split_ifs
  · exact precedingOf_cut distinct low
  · rfl

/-- **A range of times can be cut at the start of a window.** -/
theorem rangeCells_cut (pos : 0 < spec.width) (distinct : Distinct samples)
    (aligned : spec.width ∣ cut) (low : since ≤ cut) (high : cut ≤ until_) :
    rangeCells metricType spec samples since until_ = .ok all ↔
      ∃ a b, rangeCells metricType spec samples since cut = .ok a ∧
        rangeCells metricType spec samples cut until_ = .ok b ∧ all = a ++ b := by
  unfold rangeCells
  rw [scanOf_cut distinct low high, cells_cut pos aligned (fun s mem => early_lead low mem)
    (fun s mem => (mem_scanOf.1 mem).2.1), lastOf_lead distinct low]

theorem rangeCells_empty (metricType : MetricType) (spec : WindowSpec)
    (finite : ∀ s, leadOf spec samples since = some s → s.2.value.isFinite = true) :
    rangeCells metricType spec samples since since = .ok [] := by
  have none : scanOf samples since since = [] := by
    apply eq_nil_iff_forall_not_mem.2
    intro s mem
    have := (mem_scanOf.1 mem).2
    omega
  unfold rangeCells cells
  rw [none, append_nil]
  by_cases pairs : isPairs spec.transform = true
  · cases lead : leadOf spec samples since with
    | none => rfl
    | some s =>
      show (readings metricType spec.transform .none [s] >>= _) = _
      rw [readings_single pairs (finite s lead)]
      rfl
  · have : leadOf spec samples since = .none := by
      unfold leadOf
      rw [if_neg pairs]
    rw [this]
    rfl

theorem finite_of_rangeCells (ok : rangeCells metricType spec samples since until_ = .ok all)
    {s : ℕ × Sample} (mem : s ∈ (leadOf spec samples since).toList ++ scanOf samples since until_) :
    s.2.value.isFinite = true := by
  obtain ⟨rs, first, -⟩ := Fallible.bind_eq_ok.1 ok
  exact finite_of_readings first mem

/-- An empty range before one that can be read. -/
theorem rangeCells_before (ok : rangeCells metricType spec samples since until_ = .ok all) :
    rangeCells metricType spec samples since since = .ok [] := by
  apply rangeCells_empty
  intro s lead
  exact finite_of_rangeCells ok (mem_append_left _ (Option.mem_toList.2 lead))

/-- An empty range after one that can be read. -/
theorem rangeCells_after (distinct : Distinct samples) (le : since ≤ until_)
    (ok : rangeCells metricType spec samples since until_ = .ok all) :
    rangeCells metricType spec samples until_ until_ = .ok [] := by
  apply rangeCells_empty
  intro s lead
  rw [← lastOf_lead distinct le] at lead
  unfold lastOf at lead
  split_ifs at lead
  exact finite_of_rangeCells ok (mem_of_getLast? lead)

theorem windowStarts_succ {width first : ℤ} (pos : 0 < width) (n : ℕ) :
    windowStarts width first (first + (n + 1 : ℕ) * width) =
      first :: windowStarts width (first + width) (first + (n + 1 : ℕ) * width) := by
  have count (k : ℕ) (start : ℤ) (eq : first + (n + 1 : ℕ) * width - start = k * width) :
      ((first + (n + 1 : ℕ) * width - start) / width).toNat = k := by
    rw [eq, Int.mul_ediv_cancel _ pos.ne', Int.toNat_natCast]
  unfold windowStarts
  rw [count (n + 1) first (by ring), count n (first + width) (by push_cast; ring),
    range_succ_eq_map, map_cons, map_map]
  congr 1
  · simp
  · apply map_congr_left
    intro i _
    simp only [Function.comp_apply]
    push_cast
    ring

/-- **The windows of a range, one by one.** -/
theorem rangeCells_windows (pos : 0 < spec.width) (distinct : Distinct samples) {first : ℤ}
    (aligned : spec.width ∣ first) {part : ℤ → List (ℤ × Value)} (n : ℕ)
    (each : ∀ start ∈ windowStarts spec.width first (first + (n + 1 : ℕ) * spec.width),
      rangeCells metricType spec samples start (start + spec.width) = .ok (part start)) :
    rangeCells metricType spec samples first (first + (n + 1 : ℕ) * spec.width) =
      .ok ((windowStarts spec.width first (first + (n + 1 : ℕ) * spec.width)).flatMap part) := by
  induction n generalizing first with
  | zero =>
    rw [windowStarts_succ pos] at each ⊢
    have one : first + ((0 + 1 : ℕ) : ℤ) * spec.width = first + spec.width := by push_cast; ring
    rw [one] at each ⊢
    have none : windowStarts spec.width (first + spec.width) (first + spec.width) = [] := by
      unfold windowStarts
      simp
    rw [none, flatMap_cons, flatMap_nil, append_nil]
    exact each first mem_cons_self
  | succ n ih =>
    rw [windowStarts_succ pos] at each ⊢
    obtain ⟨here, later⟩ := forall_mem_cons.1 each
    have shift : first + ((n + 1 + 1 : ℕ) : ℤ) * spec.width =
        first + spec.width + ((n + 1 : ℕ) : ℤ) * spec.width := by
      push_cast
      ring
    rw [shift] at later ⊢
    have rest := ih (dvd_add aligned dvd_rfl) later
    have nonneg : 0 ≤ ((n + 1 : ℕ) : ℤ) * spec.width := by positivity
    rw [rangeCells_cut pos distinct (dvd_add aligned dvd_rfl) (by omega) (by omega)]
    exact ⟨_, _, here, rest, flatMap_cons ..⟩

end Range

end Eventd
