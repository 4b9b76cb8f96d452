import Mathlib.Tactic

/-!
# Loops with a variant

A loop whose body stops, fails, or gives the state for the next turn.  The loop is
run with fuel, so that it computes.  If every turn lowers a variant, fuel above the
variant is enough: the loop then ends because its body stops, and not because the
fuel is spent.

* `run`: the loop with fuel;
* `run_spec`: the total-correctness rule, from what one turn does to where the loop ends.
-/

namespace Loop

variable {ε σ : Type*}

/-- Run a loop for at most `fuel` turns. -/
def run (body : σ → Except ε (Option σ)) : ℕ → σ → Except ε σ
  | 0, s => .ok s
  | fuel + 1, s =>
    match body s with
    | .error error => .error error
    | .ok none => .ok s
    | .ok (some next) => run body fuel next

variable {body : σ → Except ε (Option σ)}

/-- **The rule of a loop.**  If in every state that the invariant allows the body either
stops or goes on to a lower state that the invariant allows, then with enough fuel the
loop ends in such a state, and its body stops there. -/
theorem run_spec (inv : σ → Prop) (variant : σ → ℕ)
    (turn : ∀ s, inv s → body s = .ok none ∨
      ∃ next, body s = .ok (some next) ∧ inv next ∧ variant next < variant s)
    {fuel : ℕ} {s : σ} (h : inv s) (enough : variant s < fuel) :
    ∃ final, run body fuel s = .ok final ∧ inv final ∧ body final = .ok none := by
  induction fuel generalizing s with
  | zero => omega
  | succ fuel ih =>
    unfold run
    rcases turn s h with stop | ⟨next, go, kept, lower⟩
    · rw [stop]
      exact ⟨s, rfl, h, stop⟩
    · rw [go]
      exact ih kept (by omega)

end Loop
