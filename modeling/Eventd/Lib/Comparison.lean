import Mathlib.Tactic

/-!
# Three-way comparisons, one step at a time

A comparison on a recursive type is transitive because it is so on smaller values, so its
laws are needed for some values before they are known for all.  `Chains cmp a b c` says what
a total preorder says of one chain `a ≤ b ≤ c`, and how it ends: with equality only if both
steps are equalities.

* `Chains`, `chains_of_transCmp`: the law for one chain, and every lawful comparison has it;
* `lexicographic`, `chains_lexicographic`, `swap_lexicographic`: lists, member by member;
* `least`: the first of the smallest members;
* `mergeSort_eq_of_perm`: a sorted list is determined by what it holds.
-/

namespace Comparison

open List

variable {α : Type*}

/-- What a total preorder says of a chain `a ≤ b ≤ c`. -/
def Chains (cmp : α → α → Ordering) (a b c : α) : Prop :=
  cmp a b ≠ .gt → cmp b c ≠ .gt → cmp a c = (cmp a b).then (cmp b c)

theorem chains_of_transCmp (cmp : α → α → Ordering) [Std.TransCmp cmp] (a b c : α) :
    Chains cmp a b c := by
  intro first second
  cases ab : cmp a b with
  | gt => exact absurd ab first
  | eq => exact Std.TransCmp.congr_left ab
  | lt =>
    cases bc : cmp b c with
    | gt => exact absurd bc second
    | eq => rw [← Std.TransCmp.congr_right bc, ab]; rfl
    | lt => exact Std.TransCmp.lt_trans ab bc

theorem chains_cmp [LinearOrder α] (a b c : α) : Chains cmp a b c := by
  unfold Chains
  rw [cmp_eq_compare, cmp_eq_compare, cmp_eq_compare]
  exact chains_of_transCmp compare a b c

/-- One comparison, and another where it sees no difference. -/
theorem Chains.then {f g : α → α → Ordering} {a b c : α} (first : Chains f a b c)
    (second : f a b = .eq → f b c = .eq → Chains g a b c) :
    Chains (fun a b => (f a b).then (g a b)) a b c := by
  intro ab bc
  dsimp only at ab bc ⊢
  cases fab : f a b with
  | gt => simp [fab] at ab
  | lt =>
    cases fbc : f b c with
    | gt => simp [fbc] at bc
    | lt | eq =>
      have := first (by simp [fab]) (by simp [fbc])
      rw [this, fab]
      rfl
  | eq =>
    rw [fab] at ab
    cases fbc : f b c with
    | gt => simp [fbc] at bc
    | lt =>
      have := first (by simp [fab]) (by simp [fbc])
      rw [this, fab, fbc]
      cases gab : g a b with
      | gt => exact absurd gab ab
      | lt | eq => rfl
    | eq =>
      rw [fbc] at bc
      have := first (by simp [fab]) (by simp [fbc])
      rw [this, fab, fbc]
      exact second fab fbc ab bc

/-- Member by member; a list comes before those that it is the beginning of. -/
def lexicographic (cmp : α → α → Ordering) : List α → List α → Ordering
  | [], [] => .eq
  | [], _ :: _ => .lt
  | _ :: _, [] => .gt
  | a :: as, b :: bs => (cmp a b).then (lexicographic cmp as bs)

variable {cmp : α → α → Ordering} {as : List α}

theorem swap_lexicographic (each : ∀ a ∈ as, ∀ b, cmp b a = (cmp a b).swap) (bs : List α) :
    lexicographic cmp bs as = (lexicographic cmp as bs).swap := by
  induction as generalizing bs with
  | nil => cases bs <;> rfl
  | cons a as ih =>
    obtain ⟨first, others⟩ := forall_mem_cons.1 each
    cases bs with
    | nil => rfl
    | cons b bs =>
      simp only [lexicographic]
      rw [first, ih others, Ordering.swap_then]

/-- **Lists of values that chain, chain.** -/
theorem chains_lexicographic (each : ∀ a ∈ as, ∀ b c, Chains cmp a b c) (bs cs : List α) :
    Chains (lexicographic cmp) as bs cs := by
  induction as generalizing bs cs with
  | nil =>
    intro ab bc
    cases bs with
    | nil => rfl
    | cons b bs =>
      cases cs with
      | nil => exact absurd rfl bc
      | cons c cs => rfl
  | cons a as ih =>
    obtain ⟨first, others⟩ := forall_mem_cons.1 each
    intro ab bc
    cases bs with
    | nil => exact absurd rfl ab
    | cons b bs =>
      cases cs with
      | nil => exact absurd rfl bc
      | cons c cs =>
        have heads : Chains (fun x y : α × List α => cmp x.1 y.1) (a, as) (b, bs) (c, cs) :=
          first b c
        exact heads.then (g := fun x y : α × List α => lexicographic cmp x.2 y.2)
          (fun _ _ => ih others bs cs) ab bc

theorem lexicographic_eq {R : α → α → Prop} {bs : List α}
    (each : ∀ a ∈ as, ∀ b, cmp a b = .eq → R a b) (same : lexicographic cmp as bs = .eq) :
    List.Forall₂ R as bs := by
  induction as generalizing bs with
  | nil =>
    cases bs with
    | nil => exact .nil
    | cons b bs => cases same
  | cons a as ih =>
    obtain ⟨here, others⟩ := forall_mem_cons.1 each
    cases bs with
    | nil => cases same
    | cons b bs =>
      obtain ⟨first, rest⟩ := Ordering.then_eq_eq.1 same
      exact .cons (here b first) (ih others rest)

/-- What is compared may be replaced by what is equal to it. -/
theorem lexicographic_congr {ι : Type*} [Std.TransCmp cmp] {f f' g g' : ι → α} {l : List ι}
    (first : ∀ i ∈ l, cmp (f i) (f' i) = .eq) (second : ∀ i ∈ l, cmp (g i) (g' i) = .eq) :
    lexicographic cmp (l.map f) (l.map g) = lexicographic cmp (l.map f') (l.map g') := by
  induction l with
  | nil => rfl
  | cons i l ih =>
    obtain ⟨here, others⟩ := forall_mem_cons.1 first
    obtain ⟨here', others'⟩ := forall_mem_cons.1 second
    simp only [map_cons, lexicographic]
    rw [ih others others', Std.TransCmp.congr_left here, Std.TransCmp.congr_right here']

theorem Chains.isLE {a b c : α} (chains : Chains cmp a b c) (first : (cmp a b).isLE)
    (second : (cmp b c).isLE) : (cmp a c).isLE := by
  rw [Ordering.isLE_iff_ne_gt] at first second
  rw [chains first second]
  cases ab : cmp a b <;> cases bc : cmp b c <;> simp_all

/-! ### The smallest member -/

/-- The first of the smallest of some values. -/
def least (cmp : α → α → Ordering) (a : α) (as : List α) : α :=
  as.foldl (fun smallest b => if cmp b smallest = .lt then b else smallest) a

section Least

variable {cmp : α → α → Ordering} [Std.TransCmp cmp]

theorem least_spec (a : α) (as : List α) :
    least cmp a as ∈ a :: as ∧ ∀ b ∈ a :: as, (cmp (least cmp a as) b).isLE := by
  induction as generalizing a with
  | nil => simp [least, Std.ReflCmp.compare_self]
  | cons b as ih =>
    unfold least at ih ⊢
    rw [foldl_cons]
    by_cases less : cmp b a = .lt
    · rw [if_pos less]
      obtain ⟨mem, below⟩ := ih b
      refine ⟨mem_cons_of_mem _ mem, forall_mem_cons.2 ⟨?_, below⟩⟩
      exact Std.TransCmp.isLE_trans (below b mem_cons_self) (by rw [less]; rfl)
    · rw [if_neg less]
      obtain ⟨mem, below⟩ := ih a
      obtain ⟨here, others⟩ := forall_mem_cons.1 below
      refine ⟨?_, forall_mem_cons.2 ⟨here, forall_mem_cons.2 ⟨?_, others⟩⟩⟩
      · rcases mem_cons.1 mem with same | mem
        · rw [same]
          exact mem_cons_self
        · exact mem_cons_of_mem _ (mem_cons_of_mem _ mem)
      · refine Std.TransCmp.isLE_trans here ?_
        have swap : cmp a b = (cmp b a).swap := Std.OrientedCmp.eq_swap
        rw [swap]
        cases order : cmp b a with
        | lt => exact absurd order less
        | eq | gt => rfl

theorem least_mem (a : α) (as : List α) : least cmp a as ∈ a :: as := (least_spec a as).1

theorem least_le {a b : α} {as : List α} (mem : b ∈ a :: as) : (cmp (least cmp a as) b).isLE :=
  (least_spec a as).2 b mem

theorem least_of_first {a : α} {as : List α} (below : ∀ b ∈ as, (cmp a b).isLE) : least cmp a as = a := by
  induction as with
  | nil => rfl
  | cons b as ih =>
    obtain ⟨here, others⟩ := forall_mem_cons.1 below
    have kept : cmp b a ≠ .lt := by
      have swap : cmp b a = (cmp a b).swap := Std.OrientedCmp.eq_swap
      rw [swap, Ne, Ordering.swap_eq_lt]
      intro less
      rw [less] at here
      cases here
    unfold least at ih ⊢
    rw [foldl_cons, if_neg kept]
    exact ih others

end Least

/-! ### Sorting -/

section Sorting

variable {cmp : α → α → Ordering}

theorem eq_of_isLE [Std.OrientedCmp cmp] {a b : α} (first : (cmp a b).isLE) (second : (cmp b a).isLE) :
    cmp a b = .eq := by
  have swap : cmp b a = (cmp a b).swap := Std.OrientedCmp.eq_swap
  rw [swap] at second
  cases order : cmp a b with
  | eq => rfl
  | lt =>
    rw [order] at second
    cases second
  | gt =>
    rw [order] at first
    cases first

theorem pairwise_mergeSort [Std.TransCmp cmp] (l : List α) :
    (l.mergeSort fun a b => (cmp a b).isLE).Pairwise fun a b => (cmp a b).isLE = true := by
  refine List.pairwise_mergeSort (fun a b c => Std.TransCmp.isLE_trans) (fun a b => ?_) l
  have swap : cmp b a = (cmp a b).swap := Std.OrientedCmp.eq_swap
  rw [swap]
  cases cmp a b <;> rfl

/-- A sorted list of things that the order tells apart is determined by what it holds. -/
theorem mergeSort_eq_of_perm [Std.TransCmp cmp] {l l' : List α} (perm : l.Perm l')
    (apart : ∀ a ∈ l, ∀ b ∈ l, cmp a b = .eq → a = b) :
    (l.mergeSort fun a b => (cmp a b).isLE) = l'.mergeSort fun a b => (cmp a b).isLE := by
  refine List.Perm.eq_of_pairwise (fun a b ha hb first second => ?_) (pairwise_mergeSort l)
    (pairwise_mergeSort l') (((mergeSort_perm l _).trans perm).trans (mergeSort_perm l' _).symm)
  have ha := (mergeSort_perm l _).mem_iff.1 ha
  have hb := perm.mem_iff.2 ((mergeSort_perm l' _).mem_iff.1 hb)
  exact apart a ha b hb (eq_of_isLE first second)

end Sorting

end Comparison
