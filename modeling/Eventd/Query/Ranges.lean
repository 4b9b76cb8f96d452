import Eventd.Lib.HalfOpen
import Eventd.Query.Instant

/-!
# Ranges of time

`merge_ranges`, `intersect_ranges`, `range_contains`, `split_window` and `existence_ranges` of
`eventd/src/query/executor.rs`: the times at which a condition on other records holds, as a list
of ranges.

* `mergeRanges`, `intersectRanges`, `rangeContains`: the operations on lists of ranges;
* `splitWindow`, `existenceRanges`: the times that are near a record.
-/

namespace Eventd

/-- A stretch of time, with its start and without its end. -/
abbrev TimeRange := HalfOpen ℤ

/-- Sorted by start and end, and joined where they overlap or touch. -/
def mergeRanges (ranges : List TimeRange) : List TimeRange := HalfOpen.merge ranges

/-- Two sorted lists in one pass: the range that ends first is done with. -/
def intersectRanges (left right : List TimeRange) : List TimeRange := HalfOpen.intersect left right

/-- The number of ranges that have started is where a binary search ends. -/
def rangeContains (ranges : List TimeRange) (timestamp : ℤ) : Bool :=
  let index := (ranges.takeWhile (HalfOpen.begun timestamp)).length
  index != 0 && (ranges[index - 1]?).any fun range => timestamp < range.stop

theorem rangeContains_eq (ranges : List TimeRange) (timestamp : ℤ) :
    rangeContains ranges timestamp = HalfOpen.contains ranges timestamp := by
  unfold rangeContains HalfOpen.contains
  rw [List.getLast?_eq_getElem?]
  rcases eq : ranges.takeWhile (HalfOpen.begun timestamp) with _ | ⟨first, rest⟩
  · rfl
  · -- what is before the partition point is the same in both lists
    obtain ⟨later, same⟩ : (first :: rest) <+: ranges := eq ▸ List.takeWhile_prefix _
    have inside : (first :: rest).length - 1 < (first :: rest).length := by simp
    simp only [← same, List.getElem?_append_left inside]
    rfl

/-- Ranges of times within a query's are within it themselves. -/
theorem bounds_of_union {ranges : List TimeRange} {since until_ : ℤ}
    (proper : ∀ range ∈ ranges, range.start < range.stop)
    (inside : ∀ t ∈ HalfOpen.union ranges, since ≤ t ∧ t < until_) :
    ∀ range ∈ ranges, since ≤ range.start ∧ range.stop ≤ until_ := by
  intro range mem
  have some := proper range mem
  have first := inside range.start ⟨range, mem, le_rfl, some⟩
  have last := inside (range.stop - 1) ⟨range, mem, by omega, by omega⟩
  omega

/-- How far before and after a record a window reaches. -/
def splitWindow (window : ℤ) : ℤ × ℤ :=
  let lower := window.tdiv 2
  (lower, window - lower)

/-- The times of a query that a record is near. -/
def existenceRange (since until_ lower upper timestamp : ℤ) : Option TimeRange :=
  let start := max (saturatingSub timestamp lower) since
  let stop := min (saturatingAdd timestamp upper) until_
  if start < stop then some ⟨start, stop⟩ else none

def existenceRanges (timestamps : List ℤ) (since until_ lower upper : ℤ) : List TimeRange :=
  mergeRanges (timestamps.filterMap (existenceRange since until_ lower upper))

/-! ### The times near a record -/

theorem splitWindow_nonneg {window : ℤ} (nonneg : 0 ≤ window) :
    0 ≤ (splitWindow window).1 ∧ 0 ≤ (splitWindow window).2 ∧
      (splitWindow window).1 + (splitWindow window).2 = window := by
  have half : window.tdiv 2 = window / 2 := Int.tdiv_eq_ediv_of_nonneg nonneg
  simp only [splitWindow, half]
  omega

variable {since until_ lower upper : ℤ}

theorem eq_of_existenceRange {timestamp : ℤ} {range : TimeRange}
    (eq : existenceRange since until_ lower upper timestamp = some range) :
    range.start = max (saturatingSub timestamp lower) since ∧
      range.stop = min (saturatingAdd timestamp upper) until_ ∧ range.start < range.stop := by
  simp only [existenceRange] at eq
  split_ifs at eq with proper
  obtain rfl := Option.some.inj eq
  exact ⟨rfl, rfl, proper⟩

variable {t : ℤ} {timestamps : List ℤ}

/-- Within the times of the query the two saturations and the clipping say no more than the
record's distance. -/
theorem mem_existenceRange {timestamp : ℤ} (sinceFits : InI64 since) (untilFits : InI64 until_)
    (started : since ≤ t) (before : t < until_) :
    (∃ range, existenceRange since until_ lower upper timestamp = some range ∧ t ∈ range.cells) ↔
      timestamp - lower ≤ t ∧ t < timestamp + upper := by
  have near : max (saturatingSub timestamp lower) since ≤ t ∧
      t < min (saturatingAdd timestamp upper) until_ ↔
        timestamp - lower ≤ t ∧ t < timestamp + upper := by
    unfold InI64 at sinceFits untilFits
    unfold saturatingSub saturatingAdd
    omega
  rw [← near]
  constructor
  · rintro ⟨range, eq, inside⟩
    obtain ⟨start, stop, -⟩ := eq_of_existenceRange eq
    rwa [HalfOpen.mem_cells, start, stop] at inside
  · intro inside
    exact ⟨_, if_pos (inside.1.trans_lt inside.2), inside⟩

theorem proper_existenceRanges {range : TimeRange}
    (mem : range ∈ timestamps.filterMap (existenceRange since until_ lower upper)) :
    range.start < range.stop := by
  obtain ⟨timestamp, -, eq⟩ := List.mem_filterMap.1 mem
  exact (eq_of_existenceRange eq).2.2

theorem apart_existenceRanges (timestamps : List ℤ) :
    HalfOpen.Apart (existenceRanges timestamps since until_ lower upper) :=
  HalfOpen.apart_merge fun _ mem => proper_existenceRanges mem

/-- The ranges are of the times of the query that some record is near. -/
theorem mem_existenceRanges (sinceFits : InI64 since) (untilFits : InI64 until_) (started : since ≤ t)
    (before : t < until_) :
    t ∈ HalfOpen.union (existenceRanges timestamps since until_ lower upper) ↔
      ∃ e ∈ timestamps, e - lower ≤ t ∧ t < e + upper := by
  rw [existenceRanges, mergeRanges, HalfOpen.union_merge]
  constructor
  · rintro ⟨range, mem, inside⟩
    obtain ⟨e, memE, eq⟩ := List.mem_filterMap.1 mem
    exact ⟨e, memE, (mem_existenceRange sinceFits untilFits started before).1 ⟨range, eq, inside⟩⟩
  · rintro ⟨e, memE, near⟩
    obtain ⟨range, eq, inside⟩ := (mem_existenceRange sinceFits untilFits started before).2 near
    exact ⟨range, List.mem_filterMap.2 ⟨e, memE, eq⟩, inside⟩

theorem inside_existenceRanges
    (mem : t ∈ HalfOpen.union (existenceRanges timestamps since until_ lower upper)) :
    since ≤ t ∧ t < until_ := by
  rw [existenceRanges, mergeRanges, HalfOpen.union_merge] at mem
  obtain ⟨range, listed, started, before⟩ := mem
  obtain ⟨timestamp, -, eq⟩ := List.mem_filterMap.1 listed
  obtain ⟨start, stop, -⟩ := eq_of_existenceRange eq
  exact ⟨(le_max_right _ _).trans (start.symm.le.trans started),
    (before.trans_le stop.le).trans_le (min_le_right _ _)⟩

end Eventd
