import Mathlib.Tactic
import Mathlib.Data.List.Sort

/-!
# Taking the first elements in batches

From a list whose elements have different keys, the elements that satisfy a condition are
taken in an order, some at a time.  Two batches take what one batch of both sizes takes.

* `first`, `rest`: a batch and what it leaves.
-/

namespace Batches

open List

variable {α κ : Type*} (key : α → κ) (r : α → α → Prop) [DecidableRel r] (condition : α → Bool)

/-- The elements that satisfy the condition, in their order. -/
def sorted (l : List α) : List α := (l.filter condition).insertionSort r

/-- The first of them. -/
def first (count : ℕ) (l : List α) : List α := (sorted r condition l).take count

/-- What is left without the first of them. -/
def rest [DecidableEq κ] (count : ℕ) (l : List α) : List α :=
  l.filter fun a => !decide (key a ∈ (first r condition count l).map key)

variable {key r condition} {l : List α}

theorem mem_sorted {a : α} : a ∈ sorted r condition l ↔ a ∈ l ∧ condition a = true := by
  rw [sorted, mem_insertionSort, mem_filter]

theorem rest_zero [DecidableEq κ] : rest key r condition 0 l = l := by
  simp [rest, first]

theorem mem_drop_iff {l : List α} (nodup : l.Nodup) {count : ℕ} {a : α} :
    a ∈ l.drop count ↔ a ∈ l ∧ a ∉ l.take count := by
  rw [← take_append_drop count l, nodup_append] at nodup
  constructor
  · intro mem
    exact ⟨mem_of_mem_drop mem, fun taken => nodup.2.2 a taken a mem rfl⟩
  · rintro ⟨mem, untaken⟩
    rw [← take_append_drop count l, mem_append] at mem
    exact mem.resolve_left untaken

section Keys

variable (distinct : (l.map key).Nodup)

include distinct

theorem nodup_sorted : (sorted r condition l).Nodup :=
  (perm_insertionSort _ _).nodup_iff.2 ((List.Nodup.of_map _ distinct).filter _)

/-- A key is among those of the batch exactly if its element is in the batch. -/
theorem key_mem_first_iff {count : ℕ} {a : α} (ha : a ∈ l) :
    key a ∈ (first r condition count l).map key ↔ a ∈ first r condition count l := by
  constructor
  · intro mem
    obtain ⟨b, hb, same⟩ := mem_map.1 mem
    rwa [inj_on_of_nodup_map distinct ha (mem_sorted.1 (mem_of_mem_take hb)).1 same.symm]
  · exact mem_map_of_mem

variable [DecidableEq κ]

theorem mem_rest {count : ℕ} {a : α} :
    a ∈ rest key r condition count l ↔ a ∈ l ∧ a ∉ first r condition count l := by
  rw [rest, mem_filter]
  refine and_congr_right fun ha => ?_
  rw [Bool.not_eq_true', decide_eq_false_iff_not, key_mem_first_iff distinct ha]

theorem distinct_rest (count : ℕ) : ((rest key r condition count l).map key).Nodup :=
  distinct.sublist (filter_sublist.map key)

variable [Std.Total r] [IsTrans α r] (antisymm : ∀ a b, r a b → r b a → key a = key b)

include antisymm

theorem sorted_rest (count : ℕ) :
    sorted r condition (rest key r condition count l) = (sorted r condition l).drop count := by
  have nodup : (sorted r condition l).Nodup := nodup_sorted distinct
  have pairwise (l : List α) : (sorted r condition l).Pairwise r := pairwise_insertionSort r _
  refine List.Perm.eq_of_pairwise ?_ (pairwise _) ((pairwise l).sublist (drop_sublist _ _)) ?_
  · intro a b ha hb le ge
    have ha := (mem_sorted.1 ha).1
    have hb := (mem_sorted.1 (mem_of_mem_drop hb)).1
    exact inj_on_of_nodup_map distinct (mem_of_mem_filter ha) hb (antisymm a b le ge)
  · -- both hold exactly the elements that are not among the first
    refine (perm_ext_iff_of_nodup (nodup_sorted (distinct_rest distinct count))
      (nodup.sublist (drop_sublist _ _))).2 fun a => ?_
    rw [mem_sorted, mem_rest distinct, mem_drop_iff nodup, mem_sorted, first]
    tauto

theorem rest_rest (count more : ℕ) :
    rest key r condition more (rest key r condition count l) =
      rest key r condition (count + more) l := by
  have taken : first r condition (count + more) l =
      first r condition count l ++ first r condition more (rest key r condition count l) := by
    rw [first, first, first, sorted_rest distinct antisymm, take_add]
  unfold rest at taken ⊢
  rw [taken, filter_filter]
  refine filter_congr fun a _ => ?_
  rw [map_append, Bool.eq_iff_iff]
  simp only [Bool.and_eq_true, Bool.not_eq_true', decide_eq_false_iff_not, mem_append, not_or]
  tauto

end Keys

end Batches
