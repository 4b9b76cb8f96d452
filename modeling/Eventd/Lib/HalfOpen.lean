import Mathlib.Data.Prod.Lex
import Mathlib.Order.Interval.Set.Basic
import Mathlib.Data.List.TakeWhile
import Eventd.Lib.Coalesce

/-!
# Lists of half-open ranges

Ranges of a linear order that have their start and not their stop.  A list of them stands for the
union of its ranges; in a list that is ordered, each range stops where the next one starts, or before.

* `HalfOpen`, `HalfOpen.cells`, `HalfOpen.union`;
* `Ordered`, `Apart`: ranges in order, and ranges in order that do not touch;
* `merge`: sorted and swept, `apart_merge`, `union_merge`;
* `intersect`: two ordered lists in one pass, `ordered_intersect`, `union_intersect`;
* `contains`: membership by the last range that has started, `contains_iff`.
-/

/-- A range with its start and without its stop. -/
structure HalfOpen (α : Type*) where
  start : α
  stop : α
  deriving DecidableEq

namespace HalfOpen

open Set List

variable {α : Type*} [LinearOrder α]

/-- What a range is of. -/
def cells (range : HalfOpen α) : Set α := Set.Ico range.start range.stop

@[simp] theorem mem_cells {range : HalfOpen α} {t : α} :
    t ∈ range.cells ↔ range.start ≤ t ∧ t < range.stop := Iff.rfl

/-- What the ranges of a list are of together. -/
def union (ranges : List (HalfOpen α)) : Set α := Coalesce.covers cells ranges

@[simp] theorem mem_union {ranges : List (HalfOpen α)} {t : α} :
    t ∈ union ranges ↔ ∃ range ∈ ranges, range.start ≤ t ∧ t < range.stop := Iff.rfl

theorem union_cons (range : HalfOpen α) (ranges : List (HalfOpen α)) :
    union (range :: ranges) = range.cells ∪ union ranges := Coalesce.covers_cons _ _ _

/-- Ranges one after the other. -/
structure Ordered (ranges : List (HalfOpen α)) : Prop where
  forward : ∀ range ∈ ranges, range.start ≤ range.stop
  after : ranges.Pairwise fun a b => a.stop ≤ b.start

/-- Ranges one after the other, none empty, with something between any two. -/
structure Apart (ranges : List (HalfOpen α)) : Prop where
  proper : ∀ range ∈ ranges, range.start < range.stop
  apart : ranges.Pairwise fun a b => a.stop < b.start

variable {ranges : List (HalfOpen α)}

theorem Apart.ordered (h : Apart ranges) : Ordered ranges :=
  ⟨fun range mem => (h.proper range mem).le, h.apart.imp le_of_lt⟩

variable {range : HalfOpen α} {as bs : List (HalfOpen α)}

theorem ordered_singleton (forward : range.start ≤ range.stop) :
    Ordered [range] :=
  ⟨fun other mem => by rwa [mem_singleton.1 mem], pairwise_singleton _ _⟩

theorem ordered_nil : Ordered ([] : List (HalfOpen α)) := ⟨nofun, .nil⟩

theorem Ordered.tail (h : Ordered (range :: ranges)) : Ordered ranges :=
  ⟨fun other mem => h.forward other (mem_cons_of_mem _ mem), h.after.of_cons⟩

theorem Ordered.le_start {other : HalfOpen α} (h : Ordered (range :: ranges)) (mem : other ∈ ranges) :
    range.stop ≤ other.start := rel_of_pairwise_cons h.after mem

/-! ### Merging -/

/-- Whether the second of two ranges in order starts within the first, or at its stop. -/
def touches (previous range : HalfOpen α) : Bool := decide (range.start ≤ previous.stop)

def join (previous range : HalfOpen α) : HalfOpen α := ⟨previous.start, max previous.stop range.stop⟩

/-- Sort by start and stop, and join what touches. -/
def merge (ranges : List (HalfOpen α)) : List (HalfOpen α) :=
  Coalesce.sweep touches join
    (ranges.insertionSort fun a b => toLex (a.start, a.stop) ≤ toLex (b.start, b.stop))

theorem lawful : Coalesce.Lawful (start : HalfOpen α → α) touches join cells where
  key_join _ _ _ := rfl
  touches_join _ _ _ _ := rfl
  cells_join a b le touch := by
    have touch : b.start ≤ a.stop := of_decide_eq_true touch
    show Set.Ico a.start (max a.stop b.stop) = Set.Ico a.start a.stop ∪ Set.Ico b.start b.stop
    ext t
    simp only [mem_Ico, lt_max_iff]
    constructor
    · rintro ⟨lower, upper | upper⟩
      · exact .inl ⟨lower, upper⟩
      · rcases lt_or_ge t a.stop with inside | outside
        · exact .inl ⟨lower, inside⟩
        · exact .inr ⟨touch.trans outside, upper⟩
    · rintro (⟨lower, upper⟩ | ⟨lower, upper⟩)
      · exact ⟨lower, .inl upper⟩
      · exact ⟨le.trans lower, .inr upper⟩

theorem sorted_by_start (ranges : List (HalfOpen α)) :
    (ranges.insertionSort fun a b => toLex (a.start, a.stop) ≤ toLex (b.start, b.stop)).Pairwise
      fun a b => a.start ≤ b.start := by
  refine (Coalesce.sorted_by_key (fun a : HalfOpen α => toLex (a.start, a.stop)) ranges).imp ?_
  intro a b le
  rcases (Prod.Lex.toLex_le_toLex.1 le) with less | ⟨same, -⟩
  · exact less.le
  · exact same.le

/-- **Merging keeps the union.** -/
theorem union_merge (ranges : List (HalfOpen α)) : union (merge ranges) = union ranges := by
  unfold union merge
  rw [Coalesce.covers_sweep lawful (sorted_by_start ranges)]
  ext t
  simp

theorem proper_sweepFrom {current : HalfOpen α} {rest : List (HalfOpen α)}
    (first : current.start < current.stop) (proper : ∀ range ∈ rest, range.start < range.stop) :
    ∀ range ∈ Coalesce.sweepFrom touches join current rest, range.start < range.stop := by
  induction rest generalizing current with
  | nil =>
    intro range mem
    rwa [mem_singleton.1 mem]
  | cons next rest ih =>
    have proper' : ∀ range ∈ rest, range.start < range.stop :=
      fun range mem => proper range (mem_cons_of_mem _ mem)
    intro range mem
    rw [Coalesce.sweepFrom] at mem
    split_ifs at mem
    · exact ih (lt_max_of_lt_left first) proper' range mem
    · rcases mem_cons.1 mem with rfl | mem
      · exact first
      · exact ih (proper next mem_cons_self) proper' range mem

section

variable (proper : ∀ range ∈ ranges, range.start < range.stop)
include proper

theorem proper_sweep :
    ∀ range ∈ Coalesce.sweep touches join ranges, range.start < range.stop := by
  cases ranges with
  | nil => exact fun range mem => nomatch mem
  | cons first rest =>
    exact proper_sweepFrom (proper first mem_cons_self)
      fun range mem => proper range (mem_cons_of_mem _ mem)

theorem proper_merge :
    ∀ range ∈ merge ranges, range.start < range.stop :=
  proper_sweep fun range mem => proper range ((mem_insertionSort _).1 mem)

/-- **Merged ranges are in order and do not touch.** -/
theorem apart_merge : Apart (merge ranges) := by
  have proper' := proper_merge proper
  refine ⟨proper', ?_⟩
  have chain := Coalesce.isChain_sweep lawful (sorted_by_start ranges)
  -- a range that is not empty carries the order from its left neighbour to its right one
  have linked : (merge ranges).IsChain fun a b => a.stop < b.start ∧ b.start < b.stop := by
    refine chain.imp_of_mem_imp ?_
    intro a b _ memB ⟨_, untouched⟩
    exact ⟨not_le.1 (of_decide_eq_false untouched), proper' b memB⟩
  have trans : IsTrans (HalfOpen α) fun a b => a.stop < b.start ∧ b.start < b.stop :=
    ⟨fun _ _ _ first second => ⟨(first.1.trans first.2).trans second.1, second.2⟩⟩
  exact (isChain_iff_pairwise.1 linked).imp And.left

end

/-! ### Intersection -/

/-- What two ranges have in common. -/
def meet (a b : HalfOpen α) : HalfOpen α := ⟨max a.start b.start, min a.stop b.stop⟩

/-- The same as a list, without an empty range. -/
def shared (a b : HalfOpen α) : List (HalfOpen α) :=
  if (meet a b).start < (meet a b).stop then [meet a b] else []

/-- Two lists in one pass: at each step the range that stops first is done with. -/
def intersect : List (HalfOpen α) → List (HalfOpen α) → List (HalfOpen α)
  | [], _ => []
  | _ :: _, [] => []
  | a :: as, b :: bs =>
    if a.stop ≤ b.stop then shared a b ++ intersect as (b :: bs)
    else shared a b ++ intersect (a :: as) bs
  termination_by as bs => as.length + bs.length

theorem mem_shared {a b : HalfOpen α} :
    range ∈ shared a b ↔ range = meet a b ∧ range.start < range.stop := by
  unfold shared
  split_ifs with proper
  · constructor
    · intro mem
      obtain rfl := mem_singleton.1 mem
      exact ⟨rfl, proper⟩
    · rintro ⟨rfl, -⟩
      exact mem_singleton_self _
  · constructor
    · exact nofun
    · rintro ⟨rfl, proper'⟩
      exact absurd proper' proper

theorem union_append (as bs : List (HalfOpen α)) : union (as ++ bs) = union as ∪ union bs := by
  ext t
  simp only [mem_union, mem_append, Set.mem_union, or_and_right, exists_or]

theorem union_shared (a b : HalfOpen α) : union (shared a b) = a.cells ∩ b.cells := by
  ext t
  have both : t ∈ (meet a b).cells ↔ t ∈ a.cells ∧ t ∈ b.cells := by
    simp only [meet, mem_cells, max_le_iff, lt_min_iff]
    tauto
  rw [mem_inter_iff, ← both]
  constructor
  · rintro ⟨range, mem, inside⟩
    rwa [← (mem_shared.1 mem).1]
  · intro inside
    exact ⟨meet a b, mem_shared.2 ⟨rfl, inside.1.trans_lt inside.2⟩, inside⟩

/-- Every range of the intersection is what one range of each list have in common. -/
theorem eq_meet_of_mem_intersect (as bs : List (HalfOpen α)) :
    ∀ range ∈ intersect as bs, range.start < range.stop ∧ ∃ a ∈ as, ∃ b ∈ bs, range = meet a b := by
  fun_induction intersect as bs with
  | case1 | case2 => exact nofun
  | case3 a as b bs _ ih | case4 a as b bs _ ih =>
    intro range mem
    rcases mem_append.1 mem with mem | mem
    · obtain ⟨eq, proper⟩ := mem_shared.1 mem
      exact ⟨proper, a, mem_cons_self, b, mem_cons_self, eq⟩
    · obtain ⟨proper, a', memA, b', memB, eq⟩ := ih range mem
      exact ⟨proper, a', by simp [memA], b', by simp [memB], eq⟩

theorem intersect_eq_nil (empty : ∀ a ∈ as, a.stop ≤ a.start) :
    intersect as bs = [] := by
  rw [eq_nil_iff_forall_not_mem]
  intro range mem
  obtain ⟨proper, a, memA, b, -, rfl⟩ := eq_meet_of_mem_intersect as bs range mem
  exact absurd (((le_max_left _ _).trans_lt proper).trans_le (min_le_left _ _))
    (not_lt.2 (empty a memA))

theorem pairwise_shared_append {a b : HalfOpen α} {rest : List (HalfOpen α)}
    (after : ∀ range ∈ rest, min a.stop b.stop ≤ range.start)
    (tail : rest.Pairwise fun a b => a.stop ≤ b.start) :
    (shared a b ++ rest).Pairwise fun a b => a.stop ≤ b.start := by
  unfold shared
  split_ifs with proper
  · exact pairwise_cons.2 ⟨after, tail⟩
  · exact tail

/-- **The intersection of two ordered lists is ordered.** -/
theorem ordered_intersect (left : Ordered as) (right : Ordered bs) :
    Ordered (intersect as bs) := by
  refine ⟨fun range mem => (eq_meet_of_mem_intersect as bs range mem).1.le, ?_⟩
  fun_induction intersect as bs with
  | case1 bs => exact .nil
  | case2 a as => exact .nil
  | case3 a as b bs first ih =>
    refine pairwise_shared_append ?_ (ih left.tail right)
    intro range mem
    obtain ⟨-, a', memA, b', -, rfl⟩ := eq_meet_of_mem_intersect _ _ range mem
    exact (min_le_left _ _).trans ((left.le_start memA).trans (le_max_left _ _))
  | case4 a as b bs second ih =>
    refine pairwise_shared_append ?_ (ih left right.tail)
    intro range mem
    obtain ⟨-, a', -, b', memB, rfl⟩ := eq_meet_of_mem_intersect _ _ range mem
    exact (min_le_right _ _).trans ((right.le_start memB).trans (le_max_right _ _))

/-- Nothing before the stop of the first range is in a later one. -/
theorem Ordered.not_mem_union (h : Ordered (range :: ranges)) {t : α} (before : t < range.stop) :
    t ∉ union ranges := by
  rintro ⟨other, mem, started, -⟩
  exact absurd (before.trans_le (h.le_start mem)) (not_lt.2 started)

/-- **The intersection of two ordered lists is of what both are of.** -/
theorem union_intersect (left : Ordered as) (right : Ordered bs) :
    union (intersect as bs) = union as ∩ union bs := by
  fun_induction intersect as bs with
  | case1 bs => simp [union, Coalesce.covers]
  | case2 a as => simp [union, Coalesce.covers]
  | case3 a as b bs first ih =>
    rw [union_append, union_shared, ih left.tail right, union_cons a as, union_cons b bs]
    -- what the left range has before its stop is in no later range on the right
    have apart : a.cells ∩ union bs = ∅ := by
      rw [eq_empty_iff_forall_notMem]
      rintro t ⟨inside, later⟩
      exact right.not_mem_union (inside.2.trans_le first) later
    rw [union_inter_distrib_right, inter_union_distrib_left a.cells, apart, union_empty]
  | case4 a as b bs second ih =>
    rw [union_append, union_shared, ih left right.tail, union_cons a as, union_cons b bs]
    have apart : union as ∩ b.cells = ∅ := by
      rw [eq_empty_iff_forall_notMem]
      rintro t ⟨later, inside⟩
      exact left.not_mem_union (inside.2.trans (not_le.1 second)) later
    rw [inter_union_distrib_left, union_inter_distrib_right _ _ b.cells, apart,
      union_empty]

/-! ### Membership -/

/-- Whether a range has started by `t`. -/
def begun (t : α) (range : HalfOpen α) : Bool := decide (range.start ≤ t)

/-- The last range that has started by `t`, and whether it has not stopped. -/
def contains (ranges : List (HalfOpen α)) (t : α) : Bool :=
  (ranges.takeWhile (begun t)).getLast?.any fun range => t < range.stop

theorem contains_of_lt {t : α} (early : t < range.start) :
    contains (range :: ranges) t = false := by
  have waits : ¬ begun t range = true := by simpa [begun] using early
  rw [contains, takeWhile_cons_of_neg waits]
  rfl

theorem contains_of_le {t : α} (started : range.start ≤ t) :
    contains (range :: ranges) t =
      decide (t < ((ranges.takeWhile (begun t)).getLast?.getD range).stop) := by
  have holds : begun t range = true := decide_eq_true started
  rw [contains, takeWhile_cons_of_pos holds, List.getLast?_cons]
  rfl

/-- **In an ordered list the last range that has started decides.** -/
theorem contains_iff (h : Ordered ranges) (t : α) : contains ranges t = true ↔ t ∈ union ranges := by
  induction ranges with
  | nil => simp [contains]
  | cons range ranges ih =>
    have ih := ih h.tail
    rw [union_cons, Set.mem_union]
    rcases le_or_gt range.start t with started | early
    · rw [contains_of_le started]
      unfold contains at ih
      rcases eq : (ranges.takeWhile (begun t)).getLast? with _ | last
      · -- no later range has started
        have outside : t ∉ union ranges := by
          intro inside
          rw [← ih, eq] at inside
          cases inside
        simp only [Option.getD_none, decide_eq_true_eq, mem_cells, started, true_and, outside,
          or_false]
      · -- a later one has, so that the first has stopped
        have mem : last ∈ ranges.takeWhile (begun t) := mem_of_getLast? eq
        have started' : begun t last = true := mem_takeWhile_imp mem
        have stopped : range.stop ≤ t :=
          (h.le_start (takeWhile_subset _ mem)).trans (of_decide_eq_true started')
        have outside : t ∉ range.cells := fun inside => absurd inside.2 (not_lt.2 stopped)
        rw [eq] at ih
        simpa [outside] using ih
    · have outside : t ∉ union ranges :=
        h.not_mem_union (early.trans_le (h.forward range mem_cons_self))
      simp only [contains_of_lt early, Bool.false_eq_true, mem_cells, not_le.2 early, false_and,
        outside, or_self]

end HalfOpen
