import Mathlib.Data.List.TakeWhile
import Eventd.Lib.Coalesce
import Eventd.Lib.Runs
import Eventd.Core.Model

/-!
# Receipt intervals and their coverage

`eventd-core/src/receipt.rs`: inclusive sequence intervals, and the merged
coverage of a set of receipt rows by stream, a stream being one CPU of one boot.
A `Coverage` carries the normal form its constructor establishes: the intervals
of a stream are in order and neither overlap nor adjoin, which is what makes its
binary search find the only interval that could contain a sequence.

* `mergeIntervals`: sort and merge, also used by a shard for the receipts of one batch;
* `mem_mergeIntervals_cells`, `separated_mergeIntervals`: merging changes no
  covered sequence, and its result is in normal form;
* `Coverage.contains_fromReceipts`: a sequence is covered exactly when some receipt
  row of its stream covers it;
* `Coverage.eq_of_contains`, `Coverage.isGreatest_highestContiguous`: a coverage is determined
  by what it contains, and where its first run ends;
* `Coverage.fromReceipts_union`: all of this for the coverage of any receipts in any order;
* `Coverage.mergeInPlace_agrees`: what a shard makes of a batch's intervals covers the same.
-/

namespace Eventd

open List

/-- One non-empty inclusive sequence interval. -/
structure Interval where
  first : ℕ
  last : ℕ
  first_pos : 0 < first
  first_le_last : first ≤ last
  last_le : last ≤ u64Max

/-- `u64::saturating_add(1)`. -/
def saturatingSucc (n : ℕ) : ℕ := min (n + 1) u64Max

namespace Interval

theorem bounds_injective : Function.Injective fun interval : Interval =>
    (interval.first, interval.last) := by
  rintro ⟨first, last, _, _, _⟩ ⟨first', last', _, _, _⟩ same
  obtain ⟨rfl, rfl⟩ := Prod.mk.inj same
  rfl

instance : DecidableEq Interval := fun _ _ => decidable_of_iff _ bounds_injective.eq_iff

/-- Whether `sequence` is covered. -/
def contains (interval : Interval) (sequence : ℕ) : Bool :=
  interval.first ≤ sequence && sequence ≤ interval.last

@[simp] theorem contains_iff (interval : Interval) (sequence : ℕ) :
    interval.contains sequence = true ↔
      interval.first ≤ sequence ∧ sequence ≤ interval.last := by
  simp [contains]

/-- The sequences an interval covers. -/
def cells (interval : Interval) : Set ℕ := {s | interval.contains s}

@[simp] theorem mem_cells (interval : Interval) (sequence : ℕ) :
    sequence ∈ interval.cells ↔ interval.contains sequence = true := Iff.rfl

/-- Whether the merge extends `previous` by `interval`: they overlap or adjoin. -/
def touches (previous interval : Interval) : Bool :=
  interval.first ≤ saturatingSucc previous.last

/-- Extend `previous` to the end of `interval`. -/
def join (previous interval : Interval) : Interval where
  first := previous.first
  last := max previous.last interval.last
  first_pos := previous.first_pos
  first_le_last := le_max_of_le_left previous.first_le_last
  last_le := max_le previous.last_le interval.last_le

/-- `later` starts after the sequence that follows `earlier`. -/
def Before (earlier later : Interval) : Prop := earlier.last + 1 < later.first

instance : IsTrans Interval Before where
  trans a b c hab hbc := by
    have := b.first_le_last
    unfold Before at *
    omega

theorem before_of_not_touches {a b : Interval} (apart : a.touches b = false) : a.Before b := by
  have := a.last_le
  have := b.first_le_last
  have := b.last_le
  rw [touches, decide_eq_false_iff_not, saturatingSucc] at apart
  unfold Before
  omega

/-- Interval merging is a coalescing pass over the sequences covered. -/
theorem coalesce_lawful : Coalesce.Lawful first touches join cells where
  key_join _ _ _ := rfl
  touches_join _ _ _ _ := rfl
  cells_join a b inOrder touch := by
    ext s
    have := a.first_le_last
    have := b.first_le_last
    rw [touches, decide_eq_true_eq, saturatingSucc] at touch
    simp only [mem_cells, contains_iff, join, Set.mem_union]
    omega

end Interval

/-- Sort intervals by their first sequence and merge those that overlap or adjoin. -/
def mergeIntervals : List Interval → List Interval :=
  Coalesce.coalesce Interval.first Interval.touches Interval.join

/-- The shard's merge once the intervals are sorted: it writes the merged ones over those read. -/
def mergeInPlace : List Interval → List Interval :=
  Coalesce.compact Interval.touches Interval.join

theorem mem_mergeIntervals_cells (intervals : List Interval) (s : ℕ) :
    (∃ i ∈ mergeIntervals intervals, i.contains s = true) ↔
      ∃ i ∈ intervals, i.contains s = true :=
  Set.ext_iff.1 (Coalesce.covers_coalesce Interval.coalesce_lawful intervals) s

theorem separated_mergeIntervals (intervals : List Interval) :
    (mergeIntervals intervals).Pairwise Interval.Before :=
  ((Coalesce.isChain_coalesce Interval.coalesce_lawful intervals).imp
    fun _ _ h => Interval.before_of_not_touches h.2).pairwise

theorem mergeInPlace_eq {sorted : List Interval}
    (inOrder : sorted.Pairwise fun a b => a.first ≤ b.first) :
    mergeInPlace sorted = mergeIntervals sorted := by
  rw [mergeInPlace, Coalesce.compact_eq_sweep, mergeIntervals, Coalesce.coalesce,
    inOrder.insertionSort_eq]

/-- Merged committed coverage by boot and CPU. -/
structure Coverage where
  /-- The intervals of a stream; a stream without a receipt has none. -/
  ranges : Guid → UInt16 → List Interval
  separated : ∀ boot cpu, (ranges boot cpu).Pairwise Interval.Before

namespace Coverage

/-- The intervals that receipt rows give for one stream, in row order. -/
def receiptsOf (receipts : List (Guid × UInt16 × Interval)) (boot : Guid) (cpu : UInt16) :
    List Interval :=
  receipts.filterMap fun (bootId, cpuId, interval) =>
    if bootId = boot ∧ cpuId = cpu then some interval else none

/-- Build a union from arbitrary, overlapping receipt rows. -/
def fromReceipts (receipts : List (Guid × UInt16 × Interval)) : Coverage where
  ranges boot cpu := mergeIntervals (receiptsOf receipts boot cpu)
  separated _ _ := separated_mergeIntervals _

/-- Borrow merged intervals for one stream. -/
def intervals (coverage : Coverage) (boot : Guid) (cpu : UInt16) : List Interval :=
  coverage.ranges boot cpu

/-- Whether a sequence is covered by a committed receipt: whether the interval before
the partition point of the sorted intervals covers it. -/
def contains (coverage : Coverage) (boot : Guid) (cpu : UInt16) (sequence : ℕ) : Bool :=
  match ((coverage.intervals boot cpu).takeWhile fun i => i.first ≤ sequence).getLast? with
  | none => false
  | some interval => interval.contains sequence

/-- Highest sequence covered contiguously from sequence one. -/
def highestContiguous (coverage : Coverage) (boot : Guid) (cpu : UInt16) : ℕ :=
  match (coverage.intervals boot cpu).head? with
  | none => 0
  | some interval => if interval.first = 1 then interval.last else 0

theorem intervals_separated (coverage : Coverage) (boot : Guid) (cpu : UInt16) :
    (coverage.intervals boot cpu).Pairwise Interval.Before := coverage.separated boot cpu

theorem mem_receiptsOf {receipts : List (Guid × UInt16 × Interval)} {boot : Guid}
    {cpu : UInt16} {i : Interval} :
    i ∈ receiptsOf receipts boot cpu ↔ (boot, cpu, i) ∈ receipts := by
  simp only [receiptsOf, mem_filterMap, Prod.exists]
  constructor
  · rintro ⟨b, c, j, mem, eq⟩
    split_ifs at eq with same
    obtain ⟨rfl, rfl⟩ := same
    exact Option.some.inj eq ▸ mem
  · intro mem
    exact ⟨boot, cpu, i, mem, by simp⟩

/-- In a separated list the partition point finds the interval of a sequence. -/
theorem lookup_iff {l : List Interval} (sep : l.Pairwise Interval.Before) (s : ℕ) :
    (match (l.takeWhile fun i => i.first ≤ s).getLast? with
      | none => false
      | some interval => interval.contains s) = true ↔ ∃ i ∈ l, i.contains s = true := by
  induction l with
  | nil => simp
  | cons a rest ih =>
    rw [pairwise_cons] at sep
    obtain ⟨before, sep⟩ := sep
    by_cases reached : a.first ≤ s
    · rw [takeWhile_cons_of_pos (by simpa using reached)]
      have ih := ih sep
      cases eq : rest.takeWhile fun i => i.first ≤ s with
      | nil =>
        rw [eq] at ih
        have none : ¬ ∃ i ∈ rest, i.contains s = true := by
          rw [← ih]
          simp
        simp only [exists_mem_cons_iff, none, or_false, List.getLast?_singleton]
      | cons b others =>
        rw [eq] at ih
        -- `b` starts at or before `s`, so `s` is past the end of `a`
        have hb : b ∈ rest.takeWhile fun i => i.first ≤ s := eq ▸ mem_cons_self
        have past := before b ((takeWhile_sublist _).mem hb)
        have start : b.first ≤ s := by simpa using mem_takeWhile_imp hb
        have notA : ¬ a.contains s = true := by
          rw [Interval.contains_iff]
          unfold Interval.Before at past
          omega
        rw [exists_mem_cons_iff, List.getLast?_cons_cons, ih]
        exact (or_iff_right notA).symm
    · -- every later interval starts later still
      rw [takeWhile_cons_of_neg (by simpa using reached)]
      simp only [List.getLast?_nil, Bool.false_eq_true, exists_mem_cons_iff, false_iff,
        not_or, not_exists, not_and]
      refine ⟨?_, fun b hb => ?_⟩
      · rw [Interval.contains_iff]
        omega
      · have past := before b hb
        have := a.first_le_last
        rw [Interval.contains_iff]
        unfold Interval.Before at past
        omega

section

variable (coverage : Coverage) (boot : Guid) (cpu : UInt16)

theorem contains_iff (s : ℕ) :
    coverage.contains boot cpu s = true ↔
      ∃ i ∈ coverage.intervals boot cpu, i.contains s = true :=
  lookup_iff (coverage.intervals_separated boot cpu) s

theorem normal_intervals :
    Runs.Normal Interval.first Interval.last (coverage.intervals boot cpu) :=
  ⟨fun interval _ => interval.first_le_last, coverage.intervals_separated boot cpu⟩

theorem covered_intervals :
    Runs.covered Interval.first Interval.last (coverage.intervals boot cpu) =
      {s | coverage.contains boot cpu s = true} := by
  ext s
  simp only [Runs.covered, Set.mem_ofPred_eq, contains_iff, Interval.contains_iff]

end

/-- **A sequence is covered exactly when a receipt row of its stream covers it.** -/
theorem contains_fromReceipts (receipts : List (Guid × UInt16 × Interval)) (boot : Guid)
    (cpu : UInt16) (s : ℕ) :
    (fromReceipts receipts).contains boot cpu s = true ↔
      ∃ i, (boot, cpu, i) ∈ receipts ∧ i.contains s = true := by
  rw [contains_iff, intervals, fromReceipts, mem_mergeIntervals_cells]
  simp only [mem_receiptsOf]

/-- A coverage is determined by the sequences it contains. -/
theorem eq_of_contains {coverage coverage' : Coverage}
    (same : ∀ boot cpu s, coverage.contains boot cpu s = coverage'.contains boot cpu s) :
    coverage = coverage' := by
  have ranges : coverage.ranges = coverage'.ranges := by
    funext boot cpu
    have covered := coverage.covered_intervals boot cpu
    simp only [same, ← covered_intervals] at covered
    exact Interval.bounds_injective.list_map ((coverage.normal_intervals boot cpu).bounds_eq_of_covered_eq
      (coverage'.normal_intervals boot cpu) covered)
  cases coverage
  cases coverage'
  simp_all only

/-- The contiguous prefix ends where the first interval does, if that starts at one. -/
theorem isGreatest_highestContiguous (coverage : Coverage) (boot : Guid) (cpu : UInt16) :
    IsGreatest {n | ∀ s, 1 ≤ s → s ≤ n → coverage.contains boot cpu s = true}
      (coverage.highestContiguous boot cpu) := by
  have normal := coverage.normal_intervals boot cpu
  simp only [contains_iff, highestContiguous]
  cases eq : coverage.intervals boot cpu with
  | nil =>
    refine ⟨fun s low high => absurd (low.trans high) (by simp), fun n covered => ?_⟩
    by_contra pos
    simpa using covered 1 le_rfl (by omega)
  | cons interval rest =>
    rw [eq] at normal
    have run := normal.isRun mem_cons_self
    have pos := interval.first_pos
    simp only [List.head?_cons]
    split_ifs with starts
    · refine ⟨fun s low high => ⟨interval, mem_cons_self, ?_⟩, fun n covered => ?_⟩
      · rw [Interval.contains_iff]
        omega
      -- one more sequence would make the first run longer
      · by_contra longer
        obtain ⟨other, mem, hit⟩ := covered (interval.last + 1) (by omega) (by omega)
        exact run.right ⟨other, mem, (Interval.contains_iff _ _).1 hit⟩
    · refine ⟨fun s low high => by omega, fun n covered => ?_⟩
      by_contra positive
      obtain ⟨other, mem, hit⟩ := covered 1 le_rfl (by omega)
      rw [Interval.contains_iff] at hit
      have := other.first_pos
      -- the intervals are in order, so none starts before the first
      rcases mem_cons.1 mem with rfl | mem
      · omega
      · have := (pairwise_cons.1 normal.apart).1 other mem
        omega

/-- **Coverage is the union of its receipts**: it contains what some receipt of the stream
contains, its intervals are in order and neither overlap nor adjoin, its contiguous prefix is
the longest one, and the order of the receipts does not matter. -/
theorem fromReceipts_union (receipts : List (Guid × UInt16 × Interval)) (boot : Guid)
    (cpu : UInt16) :
    (∀ s, (fromReceipts receipts).contains boot cpu s = true ↔
      ∃ i, (boot, cpu, i) ∈ receipts ∧ i.contains s = true) ∧
    ((fromReceipts receipts).intervals boot cpu).Pairwise Interval.Before ∧
    IsGreatest {n | ∀ s, 1 ≤ s → s ≤ n → (fromReceipts receipts).contains boot cpu s = true}
      ((fromReceipts receipts).highestContiguous boot cpu) ∧
    ∀ others : List (Guid × UInt16 × Interval), others.Perm receipts →
      fromReceipts others = fromReceipts receipts := by
  refine ⟨contains_fromReceipts receipts boot cpu, intervals_separated _ _ _,
    isGreatest_highestContiguous _ _ _, fun others perm => eq_of_contains fun boot cpu s => ?_⟩
  rw [Bool.eq_iff_iff, contains_fromReceipts, contains_fromReceipts]
  simp only [perm.mem_iff]

/-- Two receipts that adjoin, the later one first. -/
def adjoining : List (Guid × UInt16 × Interval) :=
  [(.replicate 16 7, 3, ⟨10, 12, by decide, by decide, by decide⟩),
    (.replicate 16 7, 3, ⟨1, 9, Nat.one_pos, by decide, by decide⟩)]

theorem fromReceipts_union_reversed :
    fromReceipts adjoining.reverse = fromReceipts adjoining :=
  (fromReceipts_union adjoining (.replicate 16 7) 3).2.2.2 _ (reverse_perm _)

example : (fromReceipts adjoining).highestContiguous (.replicate 16 7) 3 = 12 := by decide +kernel

/-- **The shard's merge agrees with the coverage**, however the sort leaves intervals that start
alike: what it makes of a stream's intervals is in order, neither overlaps nor adjoins, covers
the same sequences, and as receipts next to any others it gives the same coverage. -/
theorem mergeInPlace_agrees {intervals sorted : List Interval} (perm : sorted.Perm intervals)
    (inOrder : sorted.Pairwise fun a b => a.first ≤ b.first) :
    (mergeInPlace sorted).Pairwise Interval.Before ∧
    (∀ s, (∃ i ∈ mergeInPlace sorted, i.contains s = true) ↔
      ∃ i ∈ intervals, i.contains s = true) ∧
    ∀ boot cpu (others : List (Guid × UInt16 × Interval)),
      fromReceipts (others ++ (mergeInPlace sorted).map fun i => (boot, cpu, i)) =
        fromReceipts (others ++ intervals.map fun i => (boot, cpu, i)) := by
  have same (s : ℕ) := mem_mergeIntervals_cells sorted s
  simp only [perm.mem_iff] at same
  rw [mergeInPlace_eq inOrder]
  refine ⟨separated_mergeIntervals sorted, same, fun boot cpu others =>
    eq_of_contains fun boot' cpu' s => ?_⟩
  have rows (l : List Interval) : (∃ i, (boot', cpu', i) ∈ l.map (fun i => (boot, cpu, i)) ∧
      i.contains s = true) ↔ (boot = boot' ∧ cpu = cpu') ∧ ∃ i ∈ l, i.contains s = true := by
    grind
  rw [Bool.eq_iff_iff, contains_fromReceipts, contains_fromReceipts]
  simp only [mem_append, or_and_right, exists_or, rows, same]

/-- An interval that ends at `u64::MAX`, and one that starts with it. -/
theorem mergeInPlace_agrees_last :
    (mergeInPlace [⟨5, u64Max, by decide, by decide, by decide⟩,
      ⟨5, 6, by decide, by decide, by decide⟩]).Pairwise Interval.Before :=
  (mergeInPlace_agrees (.refl _) (by decide)).1

end Coverage

end Eventd
