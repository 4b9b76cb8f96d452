import Mathlib.Tactic
import Mathlib.Data.List.ReduceOption

/-!
# Loops that stop at the first error

A loop over a list whose body may fail is `List.foldlM` in `Except`.  These rules
say what a successful loop has done, from what one successful turn does; the
invariant of a loop may speak of the items it has already read.

* `bind_eq_ok`, `mapM_eq_ok`, `foldlM_invariant`: what a successful sequence, mapping and loop
  did;
* `foldlM_append`, `foldlM_union`, `foldlM_const`: the invariants most loops have;
* `FailsOnly`: which errors a computation can end with, and its rules;
* `Agree`: two computations that both fail or both succeed, with related results.
-/

namespace Fallible

open List

universe u

theorem bind_eq_ok {ε : Type*} {α β : Type u} {x : Except ε α} {g : α → Except ε β} {b : β} :
    (x >>= g) = .ok b ↔ ∃ a, x = .ok a ∧ g a = .ok b := by
  cases x with
  | error e => exact ⟨nofun, nofun⟩
  | ok a => exact ⟨fun h => ⟨a, rfl, h⟩, fun ⟨_, h, hg⟩ => Except.ok.inj h ▸ hg⟩

/-- A mapping succeeds exactly if it does at every element. -/
theorem mapM_eq_ok {ε : Type*} {α β : Type u} {g : α → Except ε β} {l : List α} {r : List β} :
    l.mapM g = .ok r ↔ List.Forall₂ (fun a b => g a = .ok b) l r := by
  induction l generalizing r with
  | nil =>
    rw [mapM_nil, forall₂_nil_left_iff]
    exact ⟨fun h => (Except.ok.inj h).symm, fun h => h ▸ rfl⟩
  | cons a l ih =>
    rw [mapM_cons, bind_eq_ok, forall₂_cons_left_iff]
    refine exists_congr fun b => ?_
    rw [bind_eq_ok]
    constructor
    · rintro ⟨first, rest, eq, h⟩
      exact ⟨rest, first, ih.1 eq, (Except.ok.inj h).symm⟩
    · rintro ⟨rest, first, eq, rfl⟩
      exact ⟨first, rest, ih.2 eq, rfl⟩

variable {ε σ α : Type*} {f : σ → α → Except ε σ}

variable {s s' : σ} {l : List α} {P : ε → Prop}

theorem foldlM_invariant_from (inv : List α → σ → Prop)
    (step : ∀ done a s s', inv done s → f s a = .ok s' → inv (done ++ [a]) s') {done : List α}
    (init : inv done s) (run : l.foldlM f s = .ok s') : inv (done ++ l) s' := by
  induction l generalizing done s with
  | nil =>
    rw [append_nil, ← Except.ok.inj run]
    exact init
  | cons a l ih =>
    obtain ⟨mid, first, rest⟩ := bind_eq_ok.1 run
    have := ih (step done a s mid init first) rest
    rwa [append_assoc, singleton_append] at this

/-- **The invariant rule of a fallible loop.**  `inv done s` speaks of the items
already read and of the state after them. -/
theorem foldlM_invariant (inv : List α → σ → Prop)
    (step : ∀ done a s s', inv done s → f s a = .ok s' → inv (done ++ [a]) s') (init : inv [] s)
    (run : l.foldlM f s = .ok s') : inv l s' :=
  foldlM_invariant_from inv step init run

/-- A loop whose turns each append to a list appends what its items contribute. -/
theorem foldlM_append {β : Type*} (content : σ → List β) (contribution : α → List β)
    (step : ∀ a s s', f s a = .ok s' → content s' = content s ++ contribution a)
    (run : l.foldlM f s = .ok s') :
    content s' = content s ++ l.flatMap contribution :=
  foldlM_invariant (fun done t => content t = content s ++ done.flatMap contribution)
    (fun done a t t' ih turn => by simp [step a t t' turn, ih]) (by simp) run

/-- A loop whose turns each add to a set adds what its items contribute. -/
theorem foldlM_union {β : Type*} (content : σ → Set β) (contribution : α → Set β)
    (step : ∀ a s s', f s a = .ok s' → content s' = content s ∪ contribution a)
    (run : l.foldlM f s = .ok s') :
    content s' = content s ∪ {b | ∃ a ∈ l, b ∈ contribution a} :=
  foldlM_invariant (fun done t => content t = content s ∪ {b | ∃ a ∈ done, b ∈ contribution a})
    (fun done a t t' ih turn => by
      rw [step a t t' turn, ih]
      ext b
      simp [or_and_right, exists_or, or_assoc]) (by simp) run

/-- A loop whose turns all keep a quantity keeps it. -/
theorem foldlM_const {β : Type*} (content : σ → β)
    (step : ∀ a s s', f s a = .ok s' → content s' = content s) (run : l.foldlM f s = .ok s') :
    content s' = content s :=
  foldlM_invariant (fun _ t => content t = content s)
    (fun _ a t t' ih turn => (step a t t' turn).trans ih) rfl run

/-! ### Which errors are possible -/

/-- The computation ends with no error outside `P`. -/
def FailsOnly {ε α : Type*} (P : ε → Prop) (x : Except ε α) : Prop := ∀ e, x = .error e → P e

theorem failsOnly_ok {ε α : Type*} {P : ε → Prop} (a : α) : FailsOnly P (.ok a) := nofun

theorem FailsOnly.bind {ε : Type*} {α β : Type u} {P : ε → Prop} {x : Except ε α}
    {g : α → Except ε β} (first : FailsOnly P x) (rest : ∀ a, FailsOnly P (g a)) :
    FailsOnly P (x >>= g) := by
  intro e h
  cases x with
  | error e' =>
    obtain rfl := Except.error.inj h
    exact first e' rfl
  | ok a => exact rest a e h

/-- A loop fails only as its turns do. -/
theorem failsOnly_foldlM (turn : ∀ s a, FailsOnly P (f s a)) (l : List α) (s : σ) :
    FailsOnly P (l.foldlM f s) := by
  induction l generalizing s with
  | nil => exact failsOnly_ok s
  | cons a l ih =>
    rw [foldlM_cons]
    exact (turn s a).bind ih

/-! ### Two computations -/

/-- Both computations fail, or both succeed with related results. -/
def Agree {ε α β : Type*} (R : α → β → Prop) : Except ε α → Except ε β → Prop
  | .ok a, .ok b => R a b
  | .error _, .error _ => True
  | _, _ => False

section Agree

universe v

variable {ε : Type*} {α α' : Type u} {β β' : Type v} {R : α → β → Prop} {S : α' → β' → Prop}

variable {x : Except ε α} {y : Except ε β}

theorem Agree.bind (first : Agree R x y) {f : α → Except ε α'} {g : β → Except ε β'}
    (rest : ∀ a b, R a b → Agree S (f a) (g b)) :
    Agree S (x >>= f) (y >>= g) := by
  match x, y with
  | .ok a, .ok b => exact rest a b first
  | .error _, .error _ => trivial
  | .ok _, .error _ => cases first
  | .error _, .ok _ => cases first

theorem Agree.left (first : Agree R x y) {f : α → Except ε α'} {T : α' → β → Prop}
    (rest : ∀ a b, R a b → Agree T (f a) (.ok b)) : Agree T (x >>= f) y := by
  have both : Agree T (x >>= f) (y >>= pure) := first.bind rest
  rwa [bind_pure] at both

/-- Two computations that agree with a third agree. -/
theorem Agree.common {γ : Type*} {z : Except ε γ} {P : α → γ → Prop} {Q : β → γ → Prop}
    (left : Agree P x z) (right : Agree Q y z) (join : ∀ a b c, P a c → Q b c → R a b) :
    Agree R x y := by
  match x, y, z with
  | .ok a, .ok b, .ok c => exact join a b c left right
  | .error _, .error _, _ => trivial
  | .ok _, .error _, .ok _ => cases right
  | .ok _, _, .error _ => cases left
  | .error _, .ok _, .ok _ => cases left
  | .error _, .ok _, .error _ => cases right

theorem agree_bind_same {γ : Type u} (x : Except ε γ) {f g : γ → Except ε α}
    {T : α → α → Prop} (rest : ∀ c, x = .ok c → Agree T (f c) (g c)) :
    Agree T (x >>= f) (x >>= g) := by
  cases x with
  | error e => trivial
  | ok c => exact rest c rfl

/-- Two loops over one list, whose states stay related. -/
theorem agree_foldlM {γ : Type*} {f : α → γ → Except ε α} {g : β → γ → Except ε β} {l : List γ}
    (turn : ∀ c ∈ l, ∀ a b, R a b → Agree R (f a c) (g b c)) {a : α} {b : β} (init : R a b) :
    Agree R (l.foldlM f a) (l.foldlM g b) := by
  induction l generalizing a b with
  | nil => exact init
  | cons c l ih =>
    obtain ⟨first, others⟩ := forall_mem_cons.1 turn
    rw [foldlM_cons, foldlM_cons]
    exact (first a b init).bind fun a b related => ih others related

end Agree

end Fallible
