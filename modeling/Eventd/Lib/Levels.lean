import Mathlib.Tactic

/-!
# Trees given by levels

A tree can be written as the list of its nodes in preorder, each with its level: the
nodes beneath a node are those that follow it directly and have higher levels.  A node
is then a position, and the tree is a function from positions to levels.

* `Covers`: a position is another one or lies above it;
* `IsChild`, `exists_child`: the positions directly beneath one, and that everything
  beneath a position is covered by one of its children;
* `ofList`, `covers_append_left`, `covers_append_right`: levels read from a list, and
  covering within a part of it.
-/

namespace Levels

variable {level : ℕ → ℕ} {i j k : ℕ}

/-- Position `j` is `i` or lies beneath it. -/
def Covers (level : ℕ → ℕ) (i j : ℕ) : Prop := i ≤ j ∧ ∀ k ≤ j, i < k → level i < level k

instance : Decidable (Covers level i j) :=
  inferInstanceAs (Decidable (i ≤ j ∧ ∀ k ≤ j, i < k → level i < level k))

theorem covers_refl (level : ℕ → ℕ) (i : ℕ) : Covers level i i :=
  ⟨le_rfl, fun _ le lt => absurd lt le.not_gt⟩

theorem covers_trans (ij : Covers level i j) (jk : Covers level j k) : Covers level i k := by
  refine ⟨ij.1.trans jk.1, fun m le lt => ?_⟩
  rcases le_or_gt m j with before | after
  · exact ij.2 m before lt
  · rcases ij.1.eq_or_lt with rfl | below
    · exact jk.2 m le lt
    · exact (ij.2 j le_rfl below).trans (jk.2 m le after)

/-- Of two positions that cover a third, the first covers the second. -/
theorem covers_of_le (ik : Covers level i k) (jk : Covers level j k) (le : i ≤ j) :
    Covers level i j :=
  ⟨le, fun m lem lt => ik.2 m (lem.trans jk.1) lt⟩

/-- Position `c` lies directly beneath `i`. -/
def IsChild (level : ℕ → ℕ) (i c : ℕ) : Prop :=
  i < c ∧ Covers level i c ∧ ∀ m < c, i < m → Covers level i m → ¬ Covers level m c

instance {c : ℕ} : Decidable (IsChild level i c) :=
  inferInstanceAs (Decidable (i < c ∧ Covers level i c ∧
    ∀ m < c, i < m → Covers level i m → ¬ Covers level m c))

theorem exists_child (ik : Covers level i k) (ne : i ≠ k) :
    ∃ c, IsChild level i c ∧ Covers level c k := by
  have some : ∃ c, i < c ∧ Covers level i c ∧ Covers level c k :=
    ⟨k, lt_of_le_of_ne ik.1 ne, ik, covers_refl level k⟩
  -- the first such position has none between it and `i`
  obtain ⟨below, ic, ck⟩ := Nat.find_spec some
  refine ⟨Nat.find some, ⟨below, ic, fun m lt im covered mc => ?_⟩, ck⟩
  exact Nat.find_min some lt ⟨im, covered, covers_trans mc ck⟩

/-! ### Levels read from a list -/

/-- The levels of a list; beyond its end the level is zero. -/
def ofList (levels : List ℕ) (i : ℕ) : ℕ := levels.getD i 0

variable {before after : List ℕ}

theorem covers_cons {first : ℕ} {levels : List ℕ} :
    Covers (ofList (first :: levels)) (i + 1) (j + 1) ↔ Covers (ofList levels) i j := by
  unfold Covers
  refine and_congr Nat.succ_le_succ_iff ⟨fun h k le lt => ?_, fun h k le lt => ?_⟩
  · exact h (k + 1) (Nat.succ_le_succ le) (Nat.succ_lt_succ lt)
  · obtain ⟨k, rfl⟩ := Nat.exists_eq_succ_of_ne_zero (Nat.ne_zero_of_lt lt)
    exact h k (Nat.le_of_succ_le_succ le) (Nat.lt_of_succ_lt_succ lt)

theorem ofList_append_left (lt : i < before.length) :
    ofList (before ++ after) i = ofList before i := by
  simp [ofList, List.getElem?_append_left lt]

theorem ofList_append_right (le : before.length ≤ i) :
    ofList (before ++ after) i = ofList after (i - before.length) := by
  simp [ofList, List.getElem?_append_right le]

theorem covers_append_left (lt : j < before.length) :
    Covers (ofList (before ++ after)) i j ↔ Covers (ofList before) i j := by
  unfold Covers
  refine and_congr_right fun le => forall₃_congr fun k lek _ => ?_
  rw [ofList_append_left (le.trans_lt lt), ofList_append_left (lek.trans_lt lt)]

theorem covers_append_right (le : before.length ≤ i) :
    Covers (ofList (before ++ after)) i j ↔
      before.length ≤ j ∧ Covers (ofList after) (i - before.length) (j - before.length) := by
  unfold Covers
  constructor
  · rintro ⟨ij, h⟩
    refine ⟨le.trans ij, Nat.sub_le_sub_right ij _, fun k lek lt => ?_⟩
    have := h (k + before.length) (by omega) (by omega)
    rwa [ofList_append_right le, ofList_append_right (by omega), Nat.add_sub_cancel] at this
  · rintro ⟨lej, ij, h⟩
    refine ⟨by omega, fun k lek lt => ?_⟩
    rw [ofList_append_right le, ofList_append_right (by omega)]
    exact h _ (by omega) (by omega)

/-- A position covers nothing beyond a later one whose level is not higher. -/
theorem not_covers_of_le (ik : i < k) (kj : k ≤ j) (level_le : level k ≤ level i) :
    ¬ Covers level i j :=
  fun h => absurd (h.2 k kj ik) level_le.not_gt

end Levels
