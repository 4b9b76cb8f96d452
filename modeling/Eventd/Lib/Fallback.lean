import Mathlib.Tactic

/-!
# Trying one target after another

Something is offered to targets in turn.  A target accepts it, or passes it on to the
next, or stops the search; each is left in some state, and a state weighs what the target
then holds of it.  Ideally exactly one target holds it if the search succeeds, and none
does if it fails.

* `Verdict`, `run`: the search;
* `Once`: success means held once, failure means not held;
* `Reported`, `once_iff`: this is so exactly if no target that is asked keeps what it does
  not accept.
-/

namespace Fallback

open List

variable {α σ ε : Type*}

/-- What a target answers. -/
inductive Verdict (ε : Type*)
  | accepted
  | passed (error : ε)
  | stopped (error : ε)

variable (answer : α → σ × Verdict ε) (untouched : α → σ) (weight : σ → ℕ)

/-- Ask the targets in turn, and remember the last refusal. -/
def run (last : ε) : List α → List σ × Except ε Unit
  | [] => ([], .error last)
  | target :: targets =>
    match answer target with
    | (left, .accepted) => (left :: targets.map untouched, .ok ())
    | (left, .stopped error) => (left :: targets.map untouched, .error error)
    | (left, .passed error) => (left :: (run error targets).1, (run error targets).2)

/-- How often the targets hold it altogether. -/
def held (states : List σ) : ℕ := (states.map weight).sum

/-- Success means that it is held once, and failure that it is not held. -/
def Once (result : List σ × Except ε Unit) : Prop :=
  (result.2 = .ok () → held weight result.1 = 1) ∧
    ∀ error, result.2 = .error error → held weight result.1 = 0

/-- A target keeps what it does not accept. -/
def Keeps (target : α) : Prop :=
  (answer target).2 ≠ .accepted ∧ weight (answer target).1 ≠ 0

/-- No target that is asked keeps what it does not accept. -/
def Reported : List α → Prop
  | [] => True
  | target :: targets =>
    ¬ Keeps answer weight target ∧
      ((∃ error, (answer target).2 = .passed error) → Reported targets)

variable {answer untouched weight}

@[simp] theorem held_cons (state : σ) (states : List σ) :
    held weight (state :: states) = weight state + held weight states := rfl

theorem held_untouched {targets : List α} (none : ∀ target ∈ targets, weight (untouched target) = 0) :
    held weight (targets.map untouched) = 0 := by
  unfold held
  rw [map_map, sum_eq_zero_iff]
  intro w mem
  obtain ⟨target, here, rfl⟩ := mem_map.1 mem
  exact none target here

theorem held_pos_of_ok {targets : List α}
    (one : ∀ target ∈ targets, (answer target).2 = .accepted → weight (answer target).1 = 1)
    (last : ε) (ok : (run answer untouched last targets).2 = .ok ()) :
    0 < held weight (run answer untouched last targets).1 := by
  induction targets generalizing last with
  | nil => cases ok
  | cons target targets ih =>
    obtain ⟨accepted, one⟩ := forall_mem_cons.1 one
    unfold run at ok ⊢
    split at ok
    · next left eq =>
      rw [eq] at accepted
      have : weight left = 1 := accepted rfl
      simp only [held_cons]
      omega
    · cases ok
    · next left error eq =>
      have := ih one error ok
      simp only [held_cons]
      omega

/-- **A search is reported truthfully exactly if no target that is asked keeps what it does
not accept.** -/
theorem once_iff {targets : List α} (none : ∀ target ∈ targets, weight (untouched target) = 0)
    (one : ∀ target ∈ targets, (answer target).2 = .accepted → weight (answer target).1 = 1)
    (last : ε) :
    Once weight (run answer untouched last targets) ↔ Reported answer weight targets := by
  induction targets generalizing last with
  | nil => exact iff_of_true ⟨nofun, fun _ _ => rfl⟩ trivial
  | cons target targets ih =>
    obtain ⟨accepted, one⟩ := forall_mem_cons.1 one
    obtain ⟨-, none⟩ := forall_mem_cons.1 none
    unfold run Reported Keeps
    split
    · next left eq =>
      rw [eq] at accepted ⊢
      refine iff_of_true ⟨fun _ => ?_, nofun⟩ ⟨fun keeps => keeps.1 rfl, nofun⟩
      have others := held_untouched none
      have : weight left = 1 := accepted rfl
      rw [held_cons, this, others]
    · next left error eq =>
      rw [eq]
      have others := held_untouched none
      have total : held weight (left :: targets.map untouched) = weight left := by
        rw [held_cons, others, Nat.add_zero]
      constructor
      · intro once
        have zero := once.2 error rfl
        rw [total] at zero
        exact ⟨fun keeps => keeps.2 zero, nofun⟩
      · rintro ⟨kept, -⟩
        refine ⟨nofun, fun _ _ => ?_⟩
        rw [total]
        by_contra some
        exact kept ⟨nofun, some⟩
    · next left error eq =>
      rw [eq, ← ih none one error]
      have found (ok : (run answer untouched error targets).2 = .ok ()) :
          0 < held weight (run answer untouched error targets).1 :=
        held_pos_of_ok one error ok
      unfold Once
      rw [held_cons]
      constructor
      · intro once
        -- whatever the rest of the search finds, this target must be empty
        have zero : weight left = 0 := by
          cases rest : (run answer untouched error targets).2 with
          | ok done =>
            have := once.1 rest
            have := found rest
            omega
          | error last =>
            have := once.2 last rest
            omega
        rw [zero, Nat.zero_add] at once
        exact ⟨fun keeps => keeps.2 zero, fun _ => once⟩
      · rintro ⟨kept, rest⟩
        have zero : weight left = 0 := by
          by_contra some
          exact kept ⟨nofun, some⟩
        rw [zero, Nat.zero_add]
        exact rest ⟨error, rfl⟩

end Fallback
