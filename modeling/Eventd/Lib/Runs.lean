import Mathlib.Tactic
import Mathlib.Data.List.Sort

/-!
# Sets of numbers as lists of runs

A list of pieces, each standing for the numbers from its first to its last, is in normal form
if the pieces are in order and no two overlap or adjoin.  Such a list is determined by the set
it covers: its pieces are the runs of that set, the intervals of it that cannot be extended.

* `covered`, `Normal`: what a list covers, and the normal form;
* `IsRun`: an interval of a set that cannot be extended;
* `isRun_covered_iff`: the pieces of a list in normal form are the runs of what it covers;
* `bounds_eq_of_covered_eq`: two lists in normal form that cover the same are the same.
-/

namespace Runs

variable {α : Type*} {first last : α → ℕ}

/-- The numbers that the pieces of a list stand for. -/
def covered (first last : α → ℕ) (l : List α) : Set ℕ :=
  {n | ∃ piece ∈ l, first piece ≤ n ∧ n ≤ last piece}

/-- No piece is empty, and each starts after the number that follows the piece before it. -/
structure Normal (first last : α → ℕ) (l : List α) : Prop where
  nonempty : ∀ piece ∈ l, first piece ≤ last piece
  apart : l.Pairwise fun a b => last a + 1 < first b

/-- The numbers from `a` to `b` are in the set, and neither neighbour is. -/
structure IsRun (s : Set ℕ) (a b : ℕ) : Prop where
  le : a ≤ b
  mem : ∀ n, a ≤ n → n ≤ b → n ∈ s
  left : ∀ n, n + 1 = a → n ∉ s
  right : b + 1 ∉ s

/-- Two runs of a set that share a number are the same. -/
theorem IsRun.eq {s : Set ℕ} {a b a' b' n : ℕ} (run : IsRun s a b) (run' : IsRun s a' b')
    (mem : a ≤ n ∧ n ≤ b) (mem' : a' ≤ n ∧ n ≤ b') : a = a' ∧ b = b' := by
  have starts {a b a' b' : ℕ} (run : IsRun s a b) (run' : IsRun s a' b') (mem : a ≤ n ∧ n ≤ b)
      (mem' : a' ≤ n ∧ n ≤ b') : a' ≤ a := by
    by_contra later
    exact run'.left (a' - 1) (by omega) (run.mem _ (by omega) (by omega))
  have ends {a b a' b' : ℕ} (run : IsRun s a b) (run' : IsRun s a' b') (mem : a ≤ n ∧ n ≤ b)
      (mem' : a' ≤ n ∧ n ≤ b') : b ≤ b' := by
    by_contra earlier
    exact run'.right (run.mem _ (by omega) (by omega))
  exact ⟨le_antisymm (starts run' run mem' mem) (starts run run' mem mem'),
    le_antisymm (ends run run' mem mem') (ends run' run mem' mem)⟩

namespace Normal

variable {l : List α}

section

variable (normal : Normal first last l)
include normal

theorem eq_or_apart {a b : α} (memA : a ∈ l) (memB : b ∈ l) :
    a = b ∨ last a + 1 < first b ∨ last b + 1 < first a := by
  have symm : Std.Symm fun a b => last a + 1 < first b ∨ last b + 1 < first a :=
    ⟨fun _ _ => Or.symm⟩
  have apart : l.Pairwise fun a b => last a + 1 < first b ∨ last b + 1 < first a :=
    normal.apart.imp Or.inl
  exact or_iff_not_imp_left.2 (apart.forall memA memB)

theorem isRun {piece : α} (mem : piece ∈ l) :
    IsRun (covered first last l) (first piece) (last piece) where
  le := normal.nonempty piece mem
  mem n low high := ⟨piece, mem, low, high⟩
  -- a piece with a neighbour of this one in it would overlap or adjoin it
  left := by
    rintro n next ⟨other, memOther, low, high⟩
    rcases normal.eq_or_apart memOther mem with rfl | apart | apart
    · omega
    · omega
    · have := normal.nonempty piece mem
      omega
  right := by
    rintro ⟨other, memOther, low, high⟩
    rcases normal.eq_or_apart memOther mem with rfl | apart | apart
    · omega
    · have := normal.nonempty piece mem
      omega
    · omega

/-- The pieces of a list in normal form are the runs of what it covers. -/
theorem isRun_covered_iff {a b : ℕ} :
    IsRun (covered first last l) a b ↔ ∃ piece ∈ l, first piece = a ∧ last piece = b := by
  constructor
  · intro run
    obtain ⟨piece, mem, low, high⟩ := run.mem a le_rfl run.le
    obtain ⟨rfl, rfl⟩ := run.eq (normal.isRun mem) ⟨le_rfl, run.le⟩ ⟨low, high⟩
    exact ⟨piece, mem, rfl, rfl⟩
  · rintro ⟨piece, mem, rfl, rfl⟩
    exact normal.isRun mem

theorem pairwise_bounds :
    (l.map fun piece => (first piece, last piece)).Pairwise fun a b => a.1 < b.1 := by
  rw [List.pairwise_map]
  refine normal.apart.imp_of_mem fun memA _ apart => ?_
  have := normal.nonempty _ memA
  omega

/-- Two lists in normal form that cover the same numbers have the same bounds. -/
theorem bounds_eq_of_covered_eq {l' : List α} (normal' : Normal first last l')
    (same : covered first last l = covered first last l') :
    (l.map fun piece => (first piece, last piece)) =
      l'.map fun piece => (first piece, last piece) := by
  have distinct {l : List α} (normal : Normal first last l) :
      (l.map fun piece => (first piece, last piece)).Nodup :=
    normal.pairwise_bounds.imp fun lt eq => lt.ne (congrArg Prod.fst eq)
  refine List.Perm.eq_of_pairwise (fun a b _ _ lt gt => absurd lt gt.asymm)
    normal.pairwise_bounds normal'.pairwise_bounds ?_
  refine (List.perm_ext_iff_of_nodup (distinct normal) (distinct normal')).2 fun ⟨a, b⟩ => ?_
  simp only [List.mem_map, Prod.mk.injEq]
  rw [← normal.isRun_covered_iff, ← normal'.isRun_covered_iff, same]

end

end Normal

end Runs
