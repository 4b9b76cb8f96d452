import Mathlib.Tactic

/-!
# Texts that end where they end

A text is *delimited* if it can be told, whatever follows it, what it is the text of and
where it ends.  Texts put together from delimited ones are delimited, so nothing has to be
parsed to see that a printed form determines what was printed, up to a relation `R`.  Some
texts, such as the digits of a number, end only where one of certain characters follows.

* `At`, `Stops`: the notion, and what may follow.
-/

namespace Delimited

open List

variable {α γ : Type*}

/-- The text of `a` can be told from that of any other value, with what may follow. -/
def At (R : α → α → Prop) (text : α → List γ) (follow : List γ → Prop) (a : α) : Prop :=
  ∀ b r s, follow r → follow s → text a ++ r = text b ++ s → R a b ∧ r = s

/-- What begins with a character that stops the text before it. -/
def Stops (stop : γ → Prop) (r : List γ) : Prop := ∃ c t, r = c :: t ∧ stop c

theorem stops_cons {stop : γ → Prop} {c : γ} (stops : stop c) (t : List γ) : Stops stop (c :: t) :=
  ⟨c, t, rfl, stops⟩

/-- Texts without a character that stops them, up to one that does. -/
theorem stop_inj {stop : γ → Prop} {t t' r s : List γ} (clean : ∀ c ∈ t, ¬ stop c)
    (clean' : ∀ c ∈ t', ¬ stop c) (stops : Stops stop r) (stops' : Stops stop s)
    (same : t ++ r = t' ++ s) : t = t' ∧ r = s := by
  induction t generalizing t' with
  | nil =>
    cases t' with
    | nil => exact ⟨rfl, same⟩
    | cons d t' =>
      obtain ⟨c, u, rfl, stops⟩ := stops
      obtain ⟨rfl, -⟩ := List.cons.inj same
      exact absurd stops (clean' c mem_cons_self)
  | cons d t ih =>
    cases t' with
    | nil =>
      obtain ⟨c, u, rfl, stops'⟩ := stops'
      obtain ⟨rfl, -⟩ := List.cons.inj same
      exact absurd stops' (clean d mem_cons_self)
    | cons d' t' =>
      obtain ⟨rfl, rest⟩ := List.cons.inj same
      obtain ⟨rfl, eq⟩ := ih (fun c mem => clean c (mem_cons_of_mem _ mem))
        (fun c mem => clean' c (mem_cons_of_mem _ mem)) rest
      exact ⟨rfl, eq⟩

theorem at_of_clean {R : α → α → Prop} {text : α → List γ} {stop : γ → Prop}
    (clean : ∀ a, ∀ c ∈ text a, ¬ stop c) (distinct : ∀ a b, text a = text b → R a b) (a : α) :
    At R text (Stops stop) a := by
  intro b r s stops stops' same
  obtain ⟨here, rest⟩ := stop_inj (clean a) (clean b) stops stops' same
  exact ⟨distinct a b here, rest⟩

section Lists

variable {R : α → α → Prop} {text : α → List γ} {follow : List γ → Prop} {close : γ}

/-- **Delimited texts in a row are delimited by what closes the row.** -/
theorem forall₂_flatMap {as : List α} (each : ∀ a ∈ as, At R text follow a)
    (opens : ∀ a, ∃ c t, text a = c :: t ∧ c ≠ close) (closes : ∀ r, follow (close :: r))
    (goes : ∀ a r, follow (text a ++ r)) {bs : List α} {r s : List γ}
    (same : as.flatMap text ++ close :: r = bs.flatMap text ++ close :: s) :
    List.Forall₂ R as bs ∧ r = s := by
  have follows (as : List α) (r : List γ) : follow (as.flatMap text ++ close :: r) := by
    cases as with
    | nil => exact closes r
    | cons a as =>
      rw [flatMap_cons, append_assoc]
      exact goes a _
  induction as generalizing bs with
  | nil =>
    cases bs with
    | nil => exact ⟨.nil, (List.cons.inj same).2⟩
    | cons b bs =>
      obtain ⟨c, t, eq, other⟩ := opens b
      rw [flatMap_cons, eq] at same
      exact absurd (List.cons.inj same).1.symm other
  | cons a as ih =>
    obtain ⟨first, others⟩ := forall_mem_cons.1 each
    cases bs with
    | nil =>
      obtain ⟨c, t, eq, other⟩ := opens a
      rw [flatMap_cons, eq] at same
      exact absurd (List.cons.inj same).1 other
    | cons b bs =>
      rw [flatMap_cons, flatMap_cons, append_assoc, append_assoc] at same
      obtain ⟨here, same⟩ := first b _ _ (follows as r) (follows bs s) same
      obtain ⟨there, eq⟩ := ih others same
      exact ⟨.cons here there, eq⟩

/-- Texts with a separator between any two. -/
def joined (separator : List γ) : List (List γ) → List γ
  | [] => []
  | text :: texts => text ++ texts.flatMap (separator ++ ·)

variable {c : γ} {rest : List γ}

/-- **A list of delimited texts is delimited by what closes it.** -/
theorem forall₂_joined {as : List α} (differ : c ≠ close) (each : ∀ a ∈ as, At R text follow a)
    (opens : ∀ a, ∃ c t, text a = c :: t ∧ c ≠ close) (closes : ∀ r, follow (close :: r))
    (goes : ∀ r, follow (c :: r)) {bs : List α} {r s : List γ}
    (same : joined (c :: rest) (as.map text) ++ close :: r =
      joined (c :: rest) (bs.map text) ++ close :: s) : List.Forall₂ R as bs ∧ r = s := by
  cases as with
  | nil =>
    cases bs with
    | nil => exact ⟨.nil, (List.cons.inj same).2⟩
    | cons b bs =>
      obtain ⟨d, t, eq, other⟩ := opens b
      simp only [map_nil, map_cons, joined, eq] at same
      exact absurd (List.cons.inj same).1.symm other
  | cons a as =>
    cases bs with
    | nil =>
      obtain ⟨d, t, eq, other⟩ := opens a
      simp only [map_nil, map_cons, joined, eq] at same
      exact absurd (List.cons.inj same).1 other
    | cons b bs =>
      -- with a separator before the first text, too, the texts are in a row
      have row (a : α) (as : List α) (r : List γ) : c :: rest ++ (joined (c :: rest)
          ((a :: as).map text) ++ r) = ((a :: as).flatMap fun a => c :: rest ++ text a) ++ r := by
        simp [joined, flatMap_map]
      rw [← append_right_inj (c :: rest), row, row] at same
      have separated : ∀ d ∈ a :: as, At R (fun a => c :: rest ++ text a) follow d := by
        intro d mem b r s follow follow' same
        rw [append_assoc, append_assoc] at same
        exact each d mem b r s follow follow' (append_cancel_left same)
      exact forall₂_flatMap separated (fun a => ⟨c, _, rfl, differ⟩) closes (fun a r => goes _) same

end Lists

/-! ### Digits -/

theorem digitChar_inj {m n : ℕ} (hm : m < 16) (hn : n < 16) (same : m.digitChar = n.digitChar) :
    m = n := by
  have all : ∀ m < 16, ∀ n < 16, m.digitChar = n.digitChar → m = n := by decide
  exact all m hm n hn same

theorem digit_of_mem_toDigits {b n : ℕ} (one : 1 < b) {c : Char} (mem : c ∈ Nat.toDigits b n) :
    ∃ d < b, c = d.digitChar := by
  induction n using Nat.strong_induction_on with
  | _ n ih =>
    rw [Nat.toDigits_eq_if one] at mem
    by_cases small : n < b
    · rw [if_pos small] at mem
      exact ⟨n, small, mem_singleton.1 mem⟩
    · rw [if_neg small] at mem
      rcases mem_append.1 mem with mem | mem
      · exact ih (n / b) (Nat.div_lt_self (by omega) one) mem
      · exact ⟨n % b, Nat.mod_lt _ (by omega), mem_singleton.1 mem⟩

theorem toDigits_injective {b : ℕ} (one : 1 < b) (hex : b ≤ 16) : Function.Injective (Nat.toDigits b) := by
  intro m
  induction m using Nat.strong_induction_on with
  | _ m ih =>
    intro n same
    have long (n : ℕ) (d e : Char) : [d] ≠ Nat.toDigits b n ++ [e] := by
      intro eq
      exact Nat.toDigits_ne_nil (append_inj_left' eq.symm rfl : Nat.toDigits b n = [])
    rw [Nat.toDigits_eq_if (n := m) one, Nat.toDigits_eq_if (n := n) one] at same
    by_cases small : m < b
    · by_cases small' : n < b
      · rw [if_pos small, if_pos small'] at same
        exact digitChar_inj (by omega) (by omega) (singleton_inj.1 same)
      · rw [if_pos small, if_neg small'] at same
        exact absurd same (long _ _ _)
    · by_cases small' : n < b
      · rw [if_neg small, if_pos small'] at same
        exact absurd same.symm (long _ _ _)
      · rw [if_neg small, if_neg small'] at same
        obtain ⟨tens, ones⟩ := append_inj' same rfl
        have quotient := ih (m / b) (Nat.div_lt_self (by omega) one) tens
        have remainder := digitChar_inj ((Nat.mod_lt m (by omega)).trans_le hex)
          ((Nat.mod_lt n (by omega)).trans_le hex) (singleton_inj.1 ones)
        rw [← Nat.div_add_mod m b, ← Nat.div_add_mod n b, quotient, remainder]

end Delimited
