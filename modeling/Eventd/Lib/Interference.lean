import Mathlib.Tactic

/-!
# Programs that read a state that others change

A program that reads a shared state several times, each time as it is at that moment, and
may fail.  Run without interruption it is a function of one state (`atomically`); run
step by step (`advance`) it is open to whatever others do between its reads.  What it then
ensures is stated under a *rely* condition on the others: a preorder on the states, or on
richer states of which the program sees a part.

* `Program`, `read`, `atomically`, `advance`;
* `atomically_bind`, `atomically_foldlM`: running without interruption commutes with the
  structure of a program;
* `Ensures`: every run under the rely condition ends in the postcondition;
  `ensures_bind`, `ensures_read`, `ensures_stable`, `ensures_foldlM` are its rules, and `Ensures.later`,
  `Ensures.advance` say that a program that has been left alone or has made a step still
  ensures it.
-/

namespace Interference

/-- A program that reads states of type `σ`. -/
inductive Program (σ : Type) (α : Type)
  | done (result : α)
  | ask (next : σ → Program σ α)

namespace Program

variable {σ α β : Type}

protected def bind : Program σ α → (α → Program σ β) → Program σ β
  | .done a, f => f a
  | .ask next, f => .ask fun s => (next s).bind f

instance : Monad (Program σ) where
  pure := .done
  bind := Program.bind

/-- Run a program without interruption. -/
def atomically (s : σ) : Program σ α → α
  | .done a => a
  | .ask next => (next s).atomically s

/-- Make the next read. -/
def advance (s : σ) : Program σ α → Program σ α
  | .done a => .done a
  | .ask next => next s

/-- The result, if there is nothing left to read. -/
def result : Program σ α → Option α
  | .done a => some a
  | .ask _ => none

end Program

/-- Programs that may fail. -/
abbrev Fallible (ε σ α : Type) := ExceptT ε (Program σ) α

variable {ε σ α β : Type}

/-- Read the state and look at a part of it. -/
def read (look : σ → Except ε α) : Fallible ε σ α := .mk (.ask fun s => .done (look s))

/-- A computation that reads nothing. -/
def lift (x : Except ε α) : Fallible ε σ α := .mk (.done x)

/-- Run a program without interruption. -/
def atomically (s : σ) (x : Fallible ε σ α) : Except ε α := x.run.atomically s

section Atomically

variable {s : σ}

@[simp] theorem atomically_pure (a : α) : atomically s (pure a : Fallible ε σ α) = .ok a := rfl

@[simp] theorem atomically_lift (x : Except ε α) : atomically s (lift x) = x := rfl

@[simp] theorem atomically_read (look : σ → Except ε α) : atomically s (read look) = look s := rfl

theorem run_atomically_bind (x : Program σ α) (f : α → Program σ β) :
    (x >>= f).atomically s = (f (x.atomically s)).atomically s := by
  induction x with
  | done a => rfl
  | ask next ih => exact ih s

@[simp] theorem atomically_bind (x : Fallible ε σ α) (f : α → Fallible ε σ β) :
    atomically s (x >>= f) = atomically s x >>= fun a => atomically s (f a) := by
  show ((x.run >>= ExceptT.bindCont f) : Program σ (Except ε β)).atomically s = _
  rw [run_atomically_bind]
  show _ = Except.bind (x.run.atomically s) _
  cases x.run.atomically s <;> rfl

@[simp] theorem atomically_ite {p : Prop} [Decidable p] (x y : Fallible ε σ α) :
    atomically s (if p then x else y) = if p then atomically s x else atomically s y := by
  split_ifs <;> rfl

theorem atomically_foldlM {γ : Type} (f : β → γ → Fallible ε σ β) (l : List γ) (b : β) :
    atomically s (l.foldlM f b) = l.foldlM (fun b c => atomically s (f b c)) b := by
  induction l generalizing b with
  | nil => rfl
  | cons c l ih =>
    rw [List.foldlM_cons, List.foldlM_cons, atomically_bind]
    exact congrArg _ (funext ih)

end Atomically

/-! ### Under interference -/

section Ensures

variable {ι : Type} (rely : ι → ι → Prop) (view : ι → σ)

/-- Whatever others do within the rely condition, the program ends in the postcondition. -/
def Program.Ensures (post : α → ι → Prop) : Program σ α → ι → Prop
  | .done a, now => post a now
  | .ask next, now => ∀ later, rely now later → (next (view later)).Ensures post later

/-- A fallible program ends in the postcondition unless it fails. -/
def Ensures (post : α → ι → Prop) (x : Fallible ε σ α) (now : ι) : Prop :=
  x.run.Ensures rely view (fun r now => ∀ a, r = .ok a → post a now) now

/-- What is true stays true under the rely condition. -/
def Stable (rely : ι → ι → Prop) (p : ι → Prop) : Prop :=
  ∀ now later, rely now later → p now → p later

variable {rely view}

variable {post : α → ι → Prop} {now : ι}

theorem Program.Ensures.later (trans : ∀ a b c, rely a b → rely b c → rely a c)
    (stable : ∀ a, Stable rely (post a)) {x : Program σ α} {now later : ι} (h : rely now later)
    (ensures : x.Ensures rely view post now) : x.Ensures rely view post later := by
  cases x with
  | done a => exact stable a now later h ensures
  | ask next => exact fun last after => ensures last (trans now later last h after)

theorem Program.Ensures.mono {post' : α → ι → Prop} (imp : ∀ a now, post a now → post' a now)
    {x : Program σ α} {now : ι} (ensures : x.Ensures rely view post now) :
    x.Ensures rely view post' now := by
  induction x generalizing now with
  | done a => exact imp a now ensures
  | ask next ih => exact fun later h => ih (view later) (ensures later h)

variable {x : Fallible ε σ α}

/-- A program that has been left alone still ensures its postcondition. -/
theorem Ensures.later (trans : ∀ a b c, rely a b → rely b c → rely a c)
    (stable : ∀ a, Stable rely (post a)) {now later : ι} (h : rely now later)
    (ensures : Ensures rely view post x now) : Ensures rely view post x later := by
  refine Program.Ensures.later trans ?_ h ensures
  intro r now later h kept a eq
  exact stable a now later h (kept a eq)

theorem Ensures.mono {post' : α → ι → Prop} (imp : ∀ a now, post a now → post' a now) {now : ι}
    (ensures : Ensures rely view post x now) :
    Ensures rely view post' x now :=
  Program.Ensures.mono (fun _ now kept a eq => imp a now (kept a eq)) ensures

/-- So does one that has made its next read. -/
theorem Ensures.advance (refl : rely now now) (ensures : Ensures rely view post x now) :
    Ensures rely view post (ExceptT.mk (x.run.advance (view now))) now := by
  unfold Ensures at ensures ⊢
  cases eq : x.run with
  | done a =>
    rw [eq] at ensures
    exact ensures
  | ask next =>
    rw [eq] at ensures
    exact ensures now refl

/-- A program that is done has reached its postcondition. -/
theorem Ensures.result {a : α} (ensures : Ensures rely view post x now)
    (done : x.run.result = some (.ok a)) : post a now := by
  unfold Ensures at ensures
  cases eq : x.run with
  | done r =>
    rw [eq] at ensures done
    exact ensures a (Option.some.inj done)
  | ask next =>
    rw [eq] at done
    cases done

theorem ensures_pure {a : α} (h : post a now) :
    Ensures rely view post (pure a : Fallible ε σ α) now := by
  intro b eq
  exact Except.ok.inj eq ▸ h

theorem ensures_lift {x : Except ε α} (h : ∀ a, x = .ok a → post a now) :
    Ensures rely view post (lift x) now := h

theorem ensures_read {look : σ → Except ε α}
    (h : ∀ later, rely now later → ∀ a, look (view later) = .ok a → post a later) :
    Ensures rely view post (read look) now := h

theorem program_ensures_bind {post : β → ι → Prop} {x : Program σ α} {f : α → Program σ β}
    (h : x.Ensures rely view (fun a later => (f a).Ensures rely view post later) now) :
    (x >>= f).Ensures rely view post now := by
  induction x generalizing now with
  | done a => exact h
  | ask next ih => exact fun later after => ih (view later) (h later after)

/-- The rule of sequence. -/
theorem ensures_bind {post : β → ι → Prop} {f : α → Fallible ε σ β}
    (h : Ensures rely view (fun a later => Ensures rely view post (f a) later) x now) :
    Ensures rely view post (x >>= f) now := by
  apply program_ensures_bind
  refine Program.Ensures.mono ?_ h
  intro r later after
  cases r with
  | error e => exact nofun
  | ok a => exact after a rfl

theorem ensures_stable {p : ι → Prop} (stable : Stable rely p) {now : ι} (h : p now)
    (x : Fallible ε σ α) : Ensures rely view (fun _ => p) x now := by
  suffices all : ∀ (x : Program σ (Except ε α)) (now : ι), p now →
      x.Ensures rely view (fun r now => ∀ a, r = .ok a → p now) now from all x.run now h
  intro x
  induction x with
  | done r => exact fun now h _ _ => h
  | ask next ih => exact fun now h later after => ih _ later (stable now later after h)

/-- The rule of a loop: its invariant speaks of the state of the loop and of the world. -/
theorem ensures_foldlM {γ : Type} {f : β → γ → Fallible ε σ β} (inv : β → ι → Prop) {l : List γ}
    (turn : ∀ c ∈ l, ∀ b now, inv b now → Ensures rely view inv (f b c) now) {b : β} {now : ι}
    (init : inv b now) : Ensures rely view inv (l.foldlM f b) now := by
  induction l generalizing b now with
  | nil => exact ensures_pure init
  | cons c l ih =>
    obtain ⟨first, rest⟩ := List.forall_mem_cons.1 turn
    rw [List.foldlM_cons]
    apply ensures_bind
    exact (first b now init).mono fun b later kept => ih rest kept

end Ensures

end Interference
