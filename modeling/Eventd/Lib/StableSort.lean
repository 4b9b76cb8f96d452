import Mathlib.Tactic
import Mathlib.Data.List.Sort

/-!
# Keeping the best of a list

A stable sort by a total and transitive relation.  Sorting what comes first, and keeping only the
first `k` of it, does not change the first `k` of the whole.

* `insertionSort_append`: sorting two lists together is merging them sorted;
* `take_merge`: the first elements of a merge need only the first elements of each list;
* `best`, `best_append`: the first `k` in order, and that only they matter;
* `insertionSort_perm`: among elements that the order tells apart, the order they came in does
  not matter.
-/

namespace StableSort

open List

variable {α : Type*} (r : α → α → Prop) [DecidableRel r]

/-- The first `k` in order. -/
def best (k : ℕ) (l : List α) : List α := (l.insertionSort r).take k

/-- Two sorted lists as one; of equal elements those of the first list come first. -/
def merge (xs ys : List α) : List α := List.merge xs ys fun a b => decide (r a b)

@[simp] theorem merge_nil_left (ys : List α) : merge r [] ys = ys := by
  simp [merge]

@[simp] theorem merge_nil_right (xs : List α) : merge r xs [] = xs := by
  simp [merge]

theorem merge_cons_of_rel {x y : α} (xs ys : List α) (le : r x y) :
    merge r (x :: xs) (y :: ys) = x :: merge r xs (y :: ys) := by
  simp [merge, le]

theorem merge_cons_of_not_rel {x y : α} (xs ys : List α) (lt : ¬ r x y) :
    merge r (x :: xs) (y :: ys) = y :: merge r (x :: xs) ys := by
  simp [merge, lt]

theorem mem_merge {xs ys : List α} {a : α} : a ∈ merge r xs ys ↔ a ∈ xs ∨ a ∈ ys :=
  List.mem_merge

/-- The first elements of a merge need only the first elements of its first list. -/
theorem take_merge {k j : ℕ} (le : k ≤ j) (xs ys : List α) :
    (merge r (xs.take j) ys).take k = (merge r xs ys).take k := by
  induction k generalizing j xs ys with
  | zero => simp
  | succ k ih =>
    obtain ⟨j, rfl⟩ : ∃ i, j = i + 1 := ⟨j - 1, by omega⟩
    cases xs with
    | nil => simp
    | cons x xs =>
      cases ys with
      | nil => simp [take_take, Nat.min_eq_left (Nat.le_of_succ_le_succ le)]
      | cons y ys =>
        by_cases first : r x y
        · rw [take_succ_cons, merge_cons_of_rel r _ _ first, merge_cons_of_rel r _ _ first,
            take_succ_cons, take_succ_cons, ih (Nat.le_of_succ_le_succ le)]
        · have later := ih (Nat.le_of_succ_le le) (x :: xs) ys
          rw [take_succ_cons] at later ⊢
          rw [merge_cons_of_not_rel r _ _ first, merge_cons_of_not_rel r _ _ first,
            take_succ_cons, take_succ_cons, later]

theorem orderedInsert_of_forall_rel {a : α} {l : List α} (least : ∀ b ∈ l, r a b) :
    l.orderedInsert r a = a :: l := by
  cases l with
  | nil => rfl
  | cons b l => exact orderedInsert_cons_of_le r l (least b mem_cons_self)

section Total

variable [Std.Total r] [IsTrans α r]

omit [DecidableRel r] [IsTrans α r] in
theorem rel_of_not_rel {a b : α} (lt : ¬ r a b) : r b a := (Std.Total.total a b).resolve_left lt

theorem orderedInsert_comm {x a : α} (lt : ¬ r a x) (l : List α) :
    (l.orderedInsert r a).orderedInsert r x = (l.orderedInsert r x).orderedInsert r a := by
  have le : r x a := rel_of_not_rel r lt
  induction l with
  | nil => simp [le, lt]
  | cons b l ih =>
    by_cases ab : r a b
    · have xb : r x b := trans_of r le ab
      simp [ab, xb, le, lt]
    · by_cases xb : r x b
      · simp [ab, xb, lt]
      · simp [ab, xb, ih]

omit [Std.Total r] in
/-- Inserting the elements of a list that is sorted is merging it. -/
theorem foldr_orderedInsert {xs ys : List α} (first : xs.Pairwise r) (second : ys.Pairwise r) :
    xs.foldr (fun a l => l.orderedInsert r a) ys = merge r xs ys := by
  induction xs with
  | nil => simp
  | cons x xs ih =>
    obtain ⟨least, first⟩ := pairwise_cons.1 first
    rw [foldr_cons, ih first]
    clear ih
    induction ys with
    | nil =>
      rw [merge_nil_right, merge_nil_right]
      exact orderedInsert_of_forall_rel r least
    | cons y ys ihy =>
      obtain ⟨leastY, second⟩ := pairwise_cons.1 second
      by_cases xy : r x y
      · rw [merge_cons_of_rel r _ _ xy]
        refine orderedInsert_of_forall_rel r fun b mem => ?_
        rcases (mem_merge r).1 mem with mem | mem
        · exact least b mem
        · rcases mem_cons.1 mem with rfl | mem
          · exact xy
          · exact trans_of r xy (leastY b mem)
      · -- nothing of the first list comes before `y`
        have ahead : merge r xs (y :: ys) = y :: merge r xs ys := by
          cases xs with
          | nil => simp
          | cons x' xs =>
            exact merge_cons_of_not_rel r _ _ fun le =>
              xy (trans_of r (least x' mem_cons_self) le)
        rw [merge_cons_of_not_rel r _ _ xy, ← ihy second, ahead,
          orderedInsert_of_not_le r _ xy]

/-- Insertions in the order of a list, or in sorted order. -/
theorem foldr_insertionSort (xs ys : List α) :
    (xs.insertionSort r).foldr (fun a l => l.orderedInsert r a) ys =
      xs.foldr (fun a l => l.orderedInsert r a) ys := by
  have insert (a : α) (l : List α) :
      (l.orderedInsert r a).foldr (fun a l => l.orderedInsert r a) ys =
        (l.foldr (fun a l => l.orderedInsert r a) ys).orderedInsert r a := by
    induction l with
    | nil => rfl
    | cons b l ih =>
      by_cases ab : r a b
      · rw [orderedInsert_cons_of_le r l ab]
        rfl
      · rw [orderedInsert_of_not_le r l ab, foldr_cons, ih, foldr_cons,
          orderedInsert_comm r ab]
  induction xs with
  | nil => rfl
  | cons x xs ih => rw [insertionSort_cons, insert, ih, foldr_cons]

/-- **Sorting two lists together is merging them sorted.** -/
theorem insertionSort_append (xs ys : List α) :
    (xs ++ ys).insertionSort r = merge r (xs.insertionSort r) (ys.insertionSort r) := by
  have together : (xs ++ ys).insertionSort r =
      xs.foldr (fun a l => l.orderedInsert r a) (ys.insertionSort r) := by
    induction xs with
    | nil => rfl
    | cons x xs ih => rw [cons_append, insertionSort_cons, ih, foldr_cons]
  rw [together, ← foldr_insertionSort,
    foldr_orderedInsert r (pairwise_insertionSort r xs) (pairwise_insertionSort r ys)]

theorem insertionSort_best (k : ℕ) (l : List α) : (best r k l).insertionSort r = best r k l :=
  ((pairwise_insertionSort r l).sublist (take_sublist _ _)).insertionSort_eq

theorem best_best (k : ℕ) (l : List α) : best r k (best r k l) = best r k l := by
  rw [best, insertionSort_best, best, take_take, Nat.min_self]

/-- **Of what comes first, only the best matter.** -/
theorem best_append (k : ℕ) (xs ys : List α) : best r k (best r k xs ++ ys) = best r k (xs ++ ys) := by
  rw [best, insertionSort_append, insertionSort_best, best, take_merge r le_rfl, best,
    insertionSort_append]

/-- Among elements that the order tells apart, the order they came in does not matter. -/
theorem insertionSort_perm {l l' : List α} (perm : l.Perm l')
    (apart : ∀ a ∈ l, ∀ b ∈ l, r a b → r b a → a = b) : l.insertionSort r = l'.insertionSort r := by
  have same := ((perm_insertionSort r l).trans perm).trans (perm_insertionSort r l').symm
  refine same.eq_of_pairwise ?_ (pairwise_insertionSort r l) (pairwise_insertionSort r l')
  intro a b memA memB ab ba
  exact apart a ((mem_insertionSort r).1 memA) b
    (perm.mem_iff.2 ((mem_insertionSort r).1 memB)) ab ba

end Total

end StableSort
