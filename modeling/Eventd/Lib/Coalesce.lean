import Mathlib.Tactic
import Mathlib.Data.List.Sort

/-!
# Coalescing a list in one sweep

A list of pieces is sorted by a key and read once from left to right.  The piece
being built absorbs the next one while the two touch; otherwise it is finished
and the next one is started.  Merging intervals is the usual instance, but
nothing here is about intervals: pieces are elements of an arbitrary type, and
what a piece stands for is an arbitrary set `cells`.

* `sweep`, `coalesce`: the pass over a sorted list, and sorting followed by it;
* `compact`, `compact_eq_sweep`: the same pass within the list it reads;
* `Lawful`: what touching and joining have to satisfy;
* `covers_coalesce`: the pass keeps exactly the cells of its input;
* `isChain_coalesce`: neighbours in the output no longer touch.
-/

namespace Coalesce

open List

variable {α β κ : Type*}

/-- The sweep, with `current` as the piece still being built. -/
def sweepFrom (touches : α → α → Bool) (join : α → α → α) (current : α) : List α → List α
  | [] => [current]
  | next :: rest =>
    if touches current next then sweepFrom touches join (join current next) rest
    else current :: sweepFrom touches join next rest

/-- The sweep over a whole list. -/
def sweep (touches : α → α → Bool) (join : α → α → α) : List α → List α
  | [] => []
  | first :: rest => sweepFrom touches join first rest

/-- Sort by `key`, then sweep. -/
def coalesce [LinearOrder κ] (key : α → κ) (touches : α → α → Bool) (join : α → α → α)
    (l : List α) : List α :=
  sweep touches join (l.insertionSort fun a b => key a ≤ key b)

/-- One turn of the sweep within the list it reads: the first `output` pieces are those finished
and the one being built, and the piece at `input` comes next. -/
def compactStep (touches : α → α → Bool) (join : α → α → α) (state : List α × ℕ) (input : ℕ) :
    List α × ℕ :=
  match state, state.1[input]?, state.1[state.2 - 1]? with
  | (l, output), some next, some previous =>
    if 0 < output ∧ touches previous next then (l.set (output - 1) (join previous next), output)
    else (l.set output next, output + 1)
  | state, _, _ => state

/-- The sweep in place: what lies beyond the pieces written is cut off at the end. -/
def compact (touches : α → α → Bool) (join : α → α → α) (l : List α) : List α :=
  let (l, output) := (List.range l.length).foldl (compactStep touches join) (l, 0)
  l.take output

/-- The cells that the pieces of a list stand for. -/
def covers (cells : α → Set β) (l : List α) : Set β := {x | ∃ a ∈ l, x ∈ cells a}

@[simp] theorem mem_covers {cells : α → Set β} {l : List α} {x : β} :
    x ∈ covers cells l ↔ ∃ a ∈ l, x ∈ cells a := Iff.rfl

theorem covers_cons (cells : α → Set β) (a : α) (l : List α) :
    covers cells (a :: l) = cells a ∪ covers cells l := by
  ext x
  simp

section Compact

variable (touches : α → α → Bool) (join : α → α → α)

theorem compactStep_succ {l : List α} {output input : ℕ} {next previous : α}
    (read : l[input]? = some next) (last : l[output]? = some previous) :
    compactStep touches join (l, output + 1) input =
      if touches previous next then (l.set output (join previous next), output + 1)
      else (l.set (output + 1) next, output + 2) := by
  simp [compactStep, read, last]

/-- The pieces between those written and those still to be read are left over from earlier turns. -/
theorem foldl_compactStep (front : List α) (current : α) (stale rest : List α) :
    ∃ left, (List.range' (front.length + 1 + stale.length) rest.length).foldl
        (compactStep touches join) (front ++ current :: (stale ++ rest), front.length + 1) =
      (front ++ sweepFrom touches join current rest ++ left,
        (front ++ sweepFrom touches join current rest).length) := by
  induction rest generalizing front current stale with
  | nil => exact ⟨stale, by simp [sweepFrom]⟩
  | cons next rest ih =>
    have read : (front ++ current :: (stale ++ next :: rest))[front.length + 1 + stale.length]? =
        some next := by
      rw [add_assoc, getElem?_append_right (by omega)]
      simp [add_comm 1]
    have last : (front ++ current :: (stale ++ next :: rest))[front.length]? = some current := by
      simp
    rw [length_cons, List.range'_succ, foldl_cons, sweepFrom,
      compactStep_succ touches join read last]
    split_ifs with touch
    · obtain ⟨left, eq⟩ := ih front (join current next) (stale ++ [next])
      refine ⟨left, ?_⟩
      simpa [add_assoc] using eq
    · -- the piece is written over the first stale one, or over itself
      obtain ⟨left, eq⟩ := ih (front ++ [current]) next (stale ++ [next]).tail
      refine ⟨left, ?_⟩
      cases stale with
      | nil => simpa using eq
      | cons old stale => simpa [add_assoc, add_comm, add_left_comm] using eq

/-- **The sweep in place gives what the sweep gives.** -/
theorem compact_eq_sweep (l : List α) : compact touches join l = sweep touches join l := by
  cases l with
  | nil => rfl
  | cons first rest =>
    obtain ⟨left, eq⟩ := foldl_compactStep touches join [] first [] rest
    have start : compactStep touches join (first :: rest, 0) 0 = (first :: rest, 1) := by
      simp [compactStep]
    rw [compact, length_cons, List.range_eq_range', List.range'_succ, foldl_cons, start]
    simp only [length_nil, zero_add, nil_append, add_zero] at eq ⊢
    simp only [eq, take_left, sweep]

end Compact

/-- Joining two touching pieces, given in key order, keeps the key and whatever
touches on the left, and the join stands for the union. -/
structure Lawful [Preorder κ] (key : α → κ) (touches : α → α → Bool) (join : α → α → α)
    (cells : α → Set β) : Prop where
  key_join : ∀ a b, touches a b = true → key (join a b) = key a
  touches_join : ∀ a b c, touches b c = true → touches a (join b c) = touches a b
  cells_join : ∀ a b, key a ≤ key b → touches a b = true → cells (join a b) = cells a ∪ cells b

section Laws

variable [LinearOrder κ] {key : α → κ} {touches : α → α → Bool} {join : α → α → α}
  {cells : α → Set β}

/-- In the order of their keys. -/
abbrev Sorted (key : α → κ) (l : List α) : Prop := l.Pairwise fun a b => key a ≤ key b

theorem sorted_by_key (key : α → κ) (l : List α) :
    Sorted key (l.insertionSort fun a b => key a ≤ key b) := by
  have : Std.Total fun a b => key a ≤ key b := ⟨fun a b => le_total (key a) (key b)⟩
  have : IsTrans α fun a b => key a ≤ key b := ⟨fun _ _ _ => le_trans⟩
  exact pairwise_insertionSort _ l

variable (law : Lawful key touches join cells)
include law

theorem join_sorted {current next : α} {rest : List α}
    (sorted : Sorted key (current :: next :: rest)) (touch : touches current next = true) :
    Sorted key (join current next :: rest) ∧
      cells current ⊆ cells (join current next) ∧ cells next ⊆ cells (join current next) := by
  obtain ⟨below, tail⟩ := pairwise_cons.1 sorted
  rw [Sorted, pairwise_cons, law.key_join _ _ touch,
    law.cells_join _ _ (below next mem_cons_self) touch]
  exact ⟨⟨fun b hb => below b (mem_cons_of_mem _ hb), tail.of_cons⟩,
    Set.subset_union_left, Set.subset_union_right⟩

theorem covers_sweepFrom (current : α) (l : List α) (sorted : Sorted key (current :: l)) :
    covers cells (sweepFrom touches join current l) = cells current ∪ covers cells l := by
  induction l generalizing current with
  | nil => simp [sweepFrom, covers]
  | cons next rest ih =>
    obtain ⟨below, tail⟩ := pairwise_cons.1 sorted
    rw [sweepFrom, covers_cons]
    split_ifs with touch
    · rw [ih _ (join_sorted law sorted touch).1, law.cells_join _ _ (below next mem_cons_self) touch,
        Set.union_assoc]
    · rw [covers_cons, ih _ tail]

/-- The first output piece has the key of the piece the sweep started from, and is
touched from the left by the same pieces. -/
theorem sweepFrom_head (current : α) (l : List α) :
    ∃ head tail, sweepFrom touches join current l = head :: tail ∧
      key head = key current ∧ ∀ a, touches a head = touches a current := by
  induction l generalizing current with
  | nil => exact ⟨current, [], rfl, rfl, fun _ => rfl⟩
  | cons next rest ih =>
    rw [sweepFrom]
    split_ifs with touch
    · obtain ⟨head, tail, eq, sameKey, sameTouch⟩ := ih (join current next)
      refine ⟨head, tail, eq, ?_, fun a => ?_⟩
      · rw [sameKey, law.key_join _ _ touch]
      · rw [sameTouch, law.touches_join _ _ _ touch]
    · exact ⟨current, _, rfl, rfl, fun _ => rfl⟩

theorem isChain_sweepFrom (current : α) (l : List α) (sorted : Sorted key (current :: l)) :
    (sweepFrom touches join current l).IsChain
      fun a b => key a ≤ key b ∧ touches a b = false := by
  induction l generalizing current with
  | nil => simp [sweepFrom]
  | cons next rest ih =>
    obtain ⟨below, tail⟩ := pairwise_cons.1 sorted
    rw [sweepFrom]
    split_ifs with touch
    · exact ih _ (join_sorted law sorted touch).1
    · obtain ⟨head, others, eq, sameKey, sameTouch⟩ := sweepFrom_head law next rest
      have chain := ih next tail
      rw [eq] at chain ⊢
      refine List.IsChain.cons_cons ⟨?_, ?_⟩ chain
      · rw [sameKey]
        exact below next mem_cons_self
      · rw [sameTouch]
        exact Bool.not_eq_true _ ▸ touch

theorem covers_sweep {l : List α} (sorted : Sorted key l) :
    covers cells (sweep touches join l) = covers cells l := by
  cases l with
  | nil => rfl
  | cons first rest => rw [sweep, covers_sweepFrom law first rest sorted, covers_cons]

theorem isChain_sweep {l : List α} (sorted : Sorted key l) :
    (sweep touches join l).IsChain fun a b => key a ≤ key b ∧ touches a b = false := by
  cases l with
  | nil => exact List.IsChain.nil
  | cons first rest => exact isChain_sweepFrom law first rest sorted

/-- **Coalescing keeps exactly the cells of its input.** -/
theorem covers_coalesce (l : List α) :
    covers cells (coalesce key touches join l) = covers cells l := by
  rw [coalesce, covers_sweep law (sorted_by_key key l)]
  ext x
  simp

/-- **Neighbours in the output are in key order and do not touch.** -/
theorem isChain_coalesce (l : List α) :
    (coalesce key touches join l).IsChain fun a b => key a ≤ key b ∧ touches a b = false :=
  isChain_sweep law (sorted_by_key key l)

/-! ### What a joined piece carries -/

section Weight

variable {ω : Type*} [LinearOrder ω] {weight : α → ω}
  (weight_join : ∀ a b, weight (join a b) = max (weight a) (weight b))
include weight_join

/-- Every piece ends up in one of the output that weighs at least as much. -/
theorem exists_mem_sweepFrom (current : α) (l : List α) (sorted : Sorted key (current :: l)) :
    ∀ piece ∈ current :: l, ∃ merged ∈ sweepFrom touches join current l,
      cells piece ⊆ cells merged ∧ weight piece ≤ weight merged := by
  induction l generalizing current with
  | nil =>
    intro piece mem
    obtain rfl := mem_singleton.1 mem
    exact ⟨piece, by simp [sweepFrom], subset_rfl, le_rfl⟩
  | cons next rest ih =>
    intro piece mem
    rw [sweepFrom]
    split_ifs with touch
    · obtain ⟨joined, left, right⟩ := join_sorted law sorted touch
      obtain ⟨whole, memWhole, inside, heavier⟩ := ih _ joined _ mem_cons_self
      rw [weight_join] at heavier
      rcases mem_cons.1 mem with rfl | mem
      · exact ⟨whole, memWhole, left.trans inside, (le_max_left _ _).trans heavier⟩
      · rcases mem_cons.1 mem with rfl | mem
        · exact ⟨whole, memWhole, right.trans inside, (le_max_right _ _).trans heavier⟩
        · exact ih _ joined piece (mem_cons_of_mem _ mem)
    · rcases mem_cons.1 mem with rfl | mem
      · exact ⟨piece, mem_cons_self, subset_rfl, le_rfl⟩
      · obtain ⟨merged, memMerged, inside⟩ := ih next sorted.of_cons piece mem
        exact ⟨merged, mem_cons_of_mem _ memMerged, inside⟩

/-- The weight of every piece of the output is that of a piece in it. -/
theorem exists_piece_of_mem_sweepFrom (current : α) (l : List α) (sorted : Sorted key (current :: l)) :
    ∀ merged ∈ sweepFrom touches join current l, ∃ piece ∈ current :: l,
      cells piece ⊆ cells merged ∧ weight piece = weight merged := by
  induction l generalizing current with
  | nil =>
    intro merged mem
    exact ⟨merged, mem, subset_rfl, rfl⟩
  | cons next rest ih =>
    intro merged mem
    rw [sweepFrom] at mem
    split_ifs at mem with touch
    · obtain ⟨joined, left, right⟩ := join_sorted law sorted touch
      obtain ⟨piece, memPiece, inside, same⟩ := ih _ joined merged mem
      rcases mem_cons.1 memPiece with rfl | memPiece
      · -- the joined piece weighs as much as one of the two
        rw [weight_join] at same
        rcases max_choice (weight current) (weight next) with heavier | heavier
        · exact ⟨current, by simp, left.trans inside, heavier ▸ same⟩
        · exact ⟨next, by simp, right.trans inside, heavier ▸ same⟩
      · exact ⟨piece, by simp [memPiece], inside, same⟩
    · rcases mem_cons.1 mem with rfl | mem
      · exact ⟨merged, mem_cons_self, subset_rfl, rfl⟩
      · obtain ⟨piece, memPiece, inside⟩ := ih next sorted.of_cons merged mem
        exact ⟨piece, mem_cons_of_mem _ memPiece, inside⟩

variable {l : List α}

theorem exists_mem_sweep (sorted : Sorted key l) {piece : α} (mem : piece ∈ l) :
    ∃ merged ∈ sweep touches join l, cells piece ⊆ cells merged ∧ weight piece ≤ weight merged := by
  cases l with
  | nil => cases mem
  | cons first rest => exact exists_mem_sweepFrom law weight_join first rest sorted piece mem

theorem exists_piece_of_mem_sweep (sorted : Sorted key l) {merged : α}
    (mem : merged ∈ sweep touches join l) :
    ∃ piece ∈ l, cells piece ⊆ cells merged ∧ weight piece = weight merged := by
  cases l with
  | nil => cases mem
  | cons first rest =>
    exact exists_piece_of_mem_sweepFrom law weight_join first rest sorted merged mem

end Weight

end Laws

end Coalesce
