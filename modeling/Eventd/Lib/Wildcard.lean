import Mathlib.Tactic

/-!
# Patterns with a wildcard

A pattern is a list of symbols of which one stands for any stretch of the text.  The matcher goes
through pattern and text once and remembers only the last wildcard it met: when it is stuck, that
wildcard takes one symbol more.  It compares symbols first, so that a wildcard in the text is taken
for the one in the pattern.

* `Matches`: what a pattern stands for;
* `Search`, `step`, `run`: the matcher, which ends on every input;
* `run_start_iff`: it is right about texts with no wildcard before their last symbol;
* `run_stuck`: about any other text it is wrong for some pattern.
-/

namespace Wildcard

open List

variable {α : Type*} (any : α)

/-- The text is the pattern, with some stretch in the place of each wildcard. -/
def Matches : List α → List α → Prop
  | [], text => text = []
  | a :: pattern, text =>
    a = any ∧ (∃ rest, rest <:+ text ∧ Matches pattern rest) ∨
      a ≠ any ∧ ∃ rest, text = a :: rest ∧ Matches pattern rest

/-- The matcher between two turns: what is left of the pattern and of the text, and what is left
after the last wildcard, where the text begins that it did not take. -/
structure Search (α : Type*) where
  pattern : List α
  text : List α
  star : Option (List α × List α)
  behind : ∀ mark ∈ star, pattern.length ≤ mark.1.length ∧ text.length ≤ mark.2.length

variable {any}

variable {pattern text : List α}

@[simp] theorem matches_nil : Matches any [] text ↔ text = [] := Iff.rfl

@[simp] theorem matches_any :
    Matches any (any :: pattern) text ↔ ∃ rest, rest <:+ text ∧ Matches any pattern rest := by
  simp [Matches]

theorem matches_symbol {a : α} (symbol : a ≠ any) {pattern text : List α} :
    Matches any (a :: pattern) text ↔ ∃ rest, text = a :: rest ∧ Matches any pattern rest := by
  simp [Matches, symbol]

theorem matches_empty : Matches any pattern [] ↔ ∀ a ∈ pattern, a = any := by
  induction pattern with
  | nil => simp
  | cons a pattern ih => simp [Matches, ih]

theorem matches_any_cons {b : α} :
    Matches any (any :: pattern) (b :: text) ↔
      Matches any pattern (b :: text) ∨ Matches any (any :: pattern) text := by
  simp only [matches_any, suffix_cons_iff]
  grind

/-- A text that is a wildcard is taken by any wildcard of the pattern. -/
theorem matches_last :
    Matches any (any :: pattern) [any] ↔ Matches any pattern [] := by
  have one : Matches any pattern [any] → Matches any pattern [] := by
    induction pattern with
    | nil => simp
    | cons a pattern ih =>
      by_cases symbol : a = any
      · subst symbol
        simp only [matches_any, suffix_cons_iff, suffix_nil]
        grind
      · simp [matches_symbol symbol, Ne.symm symbol]
  simp only [matches_any, suffix_cons_iff, suffix_nil]
  grind

/-- Symbols of the pattern stand at the beginning of the text. -/
theorem matches_after {literal : List α} (symbols : any ∉ literal)
    (h : Matches any (literal ++ pattern) text) :
    ∃ rest, text = literal ++ rest ∧ Matches any pattern rest := by
  induction literal generalizing text with
  | nil => exact ⟨text, rfl, h⟩
  | cons a literal ih =>
    obtain ⟨first, others⟩ := not_or.1 (mt mem_cons.2 symbols)
    obtain ⟨rest, rfl, later⟩ := (matches_symbol (Ne.symm first)).1 h
    obtain ⟨rest, rfl, found⟩ := ih others later
    exact ⟨rest, rfl, found⟩

theorem not_matches_of_head {b : α} (other : pattern.head? ≠ some b)
    (symbol : pattern.head? ≠ some any) : ¬Matches any pattern (b :: text) := by
  cases pattern with
  | nil => simp
  | cons a pattern => simp_all [Matches, eq_comm]

/-! ### What can still be found -/

namespace Search

variable (any) in
/-- A match from here on, or one in which the last wildcard takes more. -/
def Open (s : Search α) : Prop :=
  Matches any s.pattern s.text ∨
    ∃ after b retry, s.star = some (after, b :: retry) ∧ Matches any (any :: after) retry

variable (any) in
/-- The text has no wildcard before its last symbol, and after the last wildcard of the pattern there
were symbols only. -/
structure Plain (s : Search α) : Prop where
  text : any ∉ s.text.dropLast
  star : ∀ after retry, s.star = some (after, retry) →
    ∃ literal, any ∉ literal ∧ after = literal ++ s.pattern ∧ retry = literal ++ s.text

/-- A wildcard that takes more leaves less of the text to the rest of the pattern. -/
theorem Plain.shorter {s : Search α} (plain : s.Plain any) {after retry : List α} {b : α}
    (star : s.star = some (after, b :: retry)) (found : Matches any (any :: after) retry) :
    ∃ rest, rest <:+ s.text ∧ rest.length < s.text.length ∧ Matches any s.pattern rest := by
  obtain ⟨literal, symbols, rfl, same⟩ := plain.star _ _ star
  obtain ⟨_, suffix, within⟩ := matches_any.1 found
  obtain ⟨rest, rfl, here⟩ := matches_after symbols within
  have short := suffix.length_le
  have long := congrArg List.length same
  simp only [length_append, length_cons] at short long
  have left : rest <:+ literal ++ s.text :=
    same ▸ ((suffix_append literal rest).trans suffix).trans (suffix_cons b retry)
  exact ⟨rest, suffix_of_suffix_length_le left (suffix_append ..) (by omega), by omega, here⟩

section Turns

variable {pattern text after retry : List α} {b : α} {star : Option (List α × List α)} {behind behind'}

theorem Plain.symbol (symbol : b ≠ any) (plain : Plain any ⟨b :: pattern, b :: text, star, behind⟩) :
    Plain any ⟨pattern, text, star, behind'⟩ := by
  refine ⟨fun mem => plain.text ?_, fun after retry is => ?_⟩
  · cases text with
    | nil => cases mem
    | cons c text => exact mem_cons_of_mem _ mem
  · obtain ⟨literal, symbols, rfl, rfl⟩ := plain.star after retry is
    exact ⟨literal ++ [b], by simp [symbols, symbol.symm], by simp, by simp⟩

theorem open_symbol (symbol : b ≠ any) :
    Open any ⟨b :: pattern, b :: text, star, behind⟩ ↔ Open any ⟨pattern, text, star, behind'⟩ := by
  simp [Open, matches_symbol symbol]

/-- A wildcard that ends the text is taken for the one in the pattern. -/
theorem open_last (plain : Plain any ⟨any :: pattern, [any], star, behind⟩) :
    Open any ⟨any :: pattern, [any], star, behind⟩ ↔ Matches any pattern [] := by
  refine ⟨?_, fun found => .inl (matches_last.2 found)⟩
  rintro (here | ⟨after, b, retry, is, found⟩)
  · exact matches_last.1 here
  · obtain ⟨rest, -, short, here⟩ := plain.shorter is found
    obtain rfl : rest = [] := by simpa using short
    simpa using here

/-- A wildcard is remembered in the place of the one before: what that one could find by taking more,
this one can find too. -/
theorem open_wildcard (plain : Plain any ⟨any :: pattern, b :: text, star, behind⟩) :
    Open any ⟨any :: pattern, b :: text, star, behind⟩ ↔
      Open any ⟨pattern, b :: text, some (pattern, b :: text), behind'⟩ := by
  have here : Open any ⟨pattern, b :: text, some (pattern, b :: text), behind'⟩ ↔
      Matches any (any :: pattern) (b :: text) := by
    rw [matches_any_cons]
    simp [Open]
  rw [here]
  refine ⟨?_, .inl⟩
  rintro (found | ⟨after, b, retry, is, found⟩)
  · exact found
  · obtain ⟨rest, suffix, -, found⟩ := plain.shorter is found
    obtain ⟨rest', suffix', found⟩ := matches_any.1 found
    exact matches_any.2 ⟨rest', suffix'.trans suffix, found⟩

theorem Plain.again (plain : Plain any ⟨pattern, b :: text, some (after, retry), behind⟩) :
    retry ≠ [] ∧ Plain any ⟨after, retry.tail, some (after, retry.tail), behind'⟩ := by
  obtain ⟨literal, symbols, -, same⟩ := plain.star _ _ rfl
  change retry = literal ++ b :: text at same
  refine ⟨by simp [same], fun mem => ?_, fun _ _ is => ?_⟩
  · have mem : any ∈ retry.dropLast := by
      rw [← tail_dropLast] at mem
      exact mem_of_mem_tail mem
    rw [same, dropLast_append_of_ne_nil (cons_ne_nil b text)] at mem
    exact (mem_append.1 mem).elim symbols plain.text
  · cases is
    exact ⟨[], by simp, rfl, rfl⟩

theorem open_retry (other : pattern.head? ≠ some b) (symbol : pattern.head? ≠ some any)
    (long : retry ≠ []) :
    Open any ⟨pattern, b :: text, some (after, retry), behind⟩ ↔
      Open any ⟨after, retry.tail, some (after, retry.tail), behind'⟩ := by
  obtain ⟨c, retry, rfl⟩ := exists_cons_of_ne_nil long
  have here : Open any ⟨pattern, b :: text, some (after, c :: retry), behind⟩ ↔
      Matches any (any :: after) retry := by
    simp [Open, not_matches_of_head other symbol]
  rw [here]
  cases retry with
  | nil => simp [Open]
  | cons d retry =>
    rw [matches_any_cons]
    simp [Open]

end Turns

/-! ### The matcher -/

variable [DecidableEq α]

def start (pattern text : List α) : Search α := ⟨pattern, text, none, nofun⟩

variable (any)

/-- One turn of the loop: the next state, or the answer. -/
def step : Search α → Search α ⊕ Bool
  | ⟨pattern, [], _, _⟩ => .inr (pattern.all (· = any))
  | ⟨pattern, b :: text, star, behind⟩ =>
    if pattern.head? = some b then
      .inl ⟨pattern.tail, text, star, fun mark is => by grind⟩
    else if pattern.head? = some any then
      .inl ⟨pattern.tail, b :: text, some (pattern.tail, b :: text),
        fun mark is => by cases is; exact ⟨le_rfl, le_rfl⟩⟩
    else
      match star with
      | some (after, retry) =>
        .inl ⟨after, retry.tail, some (after, retry.tail),
          fun mark is => by cases is; exact ⟨le_rfl, le_rfl⟩⟩
      | none => .inr false

omit [DecidableEq α] in
/-- A later wildcard, or the same one with more of the text, or less of the text left. -/
def variant (s : Search α) : ℕ ×ₗ ℕ ×ₗ ℕ :=
  toLex (s.star.elim (s.pattern.length + 1) fun mark => mark.1.length,
    toLex (s.star.elim 0 fun mark => mark.2.length, s.text.length))

theorem variant_step {s next : Search α} (h : s.step any = .inl next) :
    next.variant < s.variant := by
  obtain ⟨pattern, text, star, behind⟩ := s
  cases text with
  | nil => simp [step] at h
  | cons b text =>
    simp only [step] at h
    split_ifs at h with same wild
    · cases h
      cases star <;> cases pattern <;> simp_all [variant, Prod.Lex.toLex_lt_toLex]
    · cases h
      cases star <;> cases pattern <;> simp_all [variant, Prod.Lex.toLex_lt_toLex]
      grind
    · cases star with
      | none => simp at h
      | some mark =>
        obtain ⟨-, long⟩ := behind mark rfl
        cases h
        simp only [variant, Prod.Lex.toLex_lt_toLex, Option.elim_some, length_tail,
          length_cons] at long ⊢
        exact .inr ⟨trivial, .inl (by omega)⟩

def run (s : Search α) : Bool :=
  match _turn : s.step any with
  | .inl next => run next
  | .inr answer => answer
termination_by s.variant
decreasing_by exact variant_step any _turn

theorem run_eq (s : Search α) : s.run any = (s.step any).elim (run any) id := by
  rw [run]
  split <;> simp_all

variable {any}

/-- **The matcher finds what there is to find.** -/
theorem run_iff {s : Search α} (plain : s.Plain any) : s.run any = true ↔ s.Open any := by
  induction s using run.induct any with
  | case1 s next turn ih =>
    rw [run_eq, turn]
    change next.run any = true ↔ _
    obtain ⟨pattern, text, star, behind⟩ := s
    cases text with
    | nil => simp [step] at turn
    | cons b text =>
      simp only [step] at turn
      split_ifs at turn with same wild
      · obtain ⟨tail, rfl⟩ := List.head?_eq_some_iff.1 same
        cases turn
        by_cases symbol : b = any
        · subst symbol
          obtain rfl : text = [] := by
            have := plain.text
            cases text <;> simp_all
          rw [open_last plain, run_eq, matches_empty]
          simp [step]
        · exact (ih (plain.symbol symbol)).trans (open_symbol symbol).symm
      · obtain ⟨tail, rfl⟩ := List.head?_eq_some_iff.1 wild
        cases turn
        refine (ih ⟨plain.text, fun after retry is => ?_⟩).trans (open_wildcard plain).symm
        cases is
        exact ⟨[], by simp, rfl, rfl⟩
      · cases star with
        | none => cases turn
        | some mark =>
          cases turn
          obtain ⟨long, plain'⟩ := plain.again
          exact (ih plain').trans (open_retry same wild long).symm
  | case2 s answer turn =>
    rw [run_eq, turn]
    obtain ⟨pattern, text, star, behind⟩ := s
    cases text with
    | nil =>
      cases turn
      have ended : ∀ after b retry, star = some (after, b :: retry) →
          ¬Matches any (any :: after) retry := by
        intro after b retry is found
        obtain ⟨rest, -, short, -⟩ := plain.shorter is found
        exact absurd short (Nat.not_lt_zero _)
      simp only [Open, matches_empty]
      grind
    | cons b text =>
      simp only [step] at turn
      split_ifs at turn with same wild
      cases star with
      | none =>
        cases turn
        simp [Open, not_matches_of_head same wild]
      | some mark => cases turn

end Search

variable [DecidableEq α]

/-- **The matcher is right about a text with no wildcard before its last symbol.** -/
theorem run_start_iff {text : List α} (plain : any ∉ text.dropLast) (pattern : List α) :
    (Search.start pattern text).run any = true ↔ Matches any pattern text := by
  have start : (Search.start pattern text).Plain any :=
    ⟨plain, fun after retry is => by cases is⟩
  rw [Search.run_iff start]
  simp [Search.Open, Search.start]

/-- A pattern that is the beginning of a text, with a wildcard at its end. -/
theorem run_stuck (first : List α) {last : List α} (more : last ≠ []) :
    (Search.start (first ++ [any]) (first ++ any :: last)).run any = false ∧
      Matches any (first ++ [any]) (first ++ any :: last) := by
  induction first with
  | nil =>
    obtain ⟨b, last, rfl⟩ := exists_cons_of_ne_nil more
    refine ⟨?_, by simp⟩
    have ended : (Search.start [] (b :: last)).run any = false := by
      rw [Search.run_eq]
      simp [Search.step, Search.start]
    rw [Search.run_eq]
    simpa [Search.step, Search.start] using ended
  | cons a first ih =>
    refine ⟨?_, ?_⟩
    · rw [Search.run_eq]
      simpa [Search.step, Search.start] using ih.1
    · by_cases symbol : a = any
      · subst symbol
        exact matches_any.2 ⟨_, suffix_cons a _, ih.2⟩
      · exact (matches_symbol symbol).2 ⟨_, rfl, ih.2⟩

end Wildcard
