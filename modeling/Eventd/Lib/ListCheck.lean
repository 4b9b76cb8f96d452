import Eventd.Lib.Levels

/-!
# Deciding the nodes of a tree by a list of rules

A tree is given in preorder, each node with a level and a name, and rules are taken in
order.  A rule allows or denies the node it names, or the first node if it names none:
every node at or beneath it that is still undecided is decided.  A deny is also carried
to the undecided nodes above, and an undecided node all of whose children have come to
be granted is granted.  What is undecided at the end is denied.

* `apply`, `decisions`, `check`: one rule, all rules, and the verdicts;
* `Coherent`: beneath a granted node everything is granted, above a denied one denied;
* `coherent_decisions`: every list of rules leaves a coherent tree;
* `decisions_leaf`: a node with nothing beneath it gets the verdict of the first rule
  that names it or a node above it;
* `governs_iff`: which rules these are, if names are distinct.
-/

namespace ListCheck

open Levels

variable {ν : Type*} [DecidableEq ν]

/-- A node of the list. -/
structure Entry (ν : Type*) where
  level : ℕ
  name : ν
  deriving DecidableEq

/-- A rule; without a target it names the first node. -/
structure Rule (ν : Type*) where
  allow : Bool
  target : Option ν
  deriving DecidableEq

/-- What has been decided about each position. -/
abbrev Decisions := ℕ → Option Bool

variable (entries : List (Entry ν))

/-- The level at a position. -/
def levelAt : ℕ → ℕ := ofList (entries.map Entry.level)

/-- The position that a rule names, if it is in the list. -/
def named (rule : Rule ν) : Option ℕ :=
  match rule.target with
  | none => some 0
  | some name => entries.findIdx? fun entry => entry.name = name

/-- The positions that a rule naming `n` reaches: those at and beneath it and, for a deny,
those above it. -/
def Reaches (allow : Bool) (n j : ℕ) : Prop :=
  Covers (levelAt entries) n j ∨ allow = false ∧ Covers (levelAt entries) j n

instance (allow : Bool) (n j : ℕ) : Decidable (Reaches entries allow n j) :=
  inferInstanceAs (Decidable (Covers _ n j ∨ allow = false ∧ Covers _ j n))

/-- Decide the undecided positions that a rule reaches. -/
def settle (allow : Bool) (n : ℕ) (d : Decisions) : Decisions := fun j =>
  if d j = none ∧ Reaches entries allow n j then some allow else d j

/-- Whether a position is undecided and has children, all of them granted. -/
def Liftable (d : Decisions) (i : ℕ) : Prop :=
  d i = none ∧ (∃ c < entries.length, IsChild (levelAt entries) i c) ∧
    ∀ c < entries.length, IsChild (levelAt entries) i c → d c = some true

instance (d : Decisions) (i : ℕ) : Decidable (Liftable entries d i) :=
  inferInstanceAs (Decidable (d i = none ∧ (∃ c < entries.length, IsChild (levelAt entries) i c) ∧
    ∀ c < entries.length, IsChild (levelAt entries) i c → d c = some true))

/-- Grant a position all of whose children are granted. -/
def liftAt (i : ℕ) (d : Decisions) : Decisions := fun j =>
  if j = i ∧ Liftable entries d i then some true else d j

/-- Lift grants at the positions below `n`, the last one first, so that a node comes after
its children. -/
def lift : ℕ → Decisions → Decisions
  | 0, d => d
  | n + 1, d => lift n (liftAt entries n d)

/-- Take one rule into account. -/
def apply (d : Decisions) (rule : Rule ν) : Decisions :=
  match named entries rule with
  | none => d
  | some n => lift entries entries.length (settle entries rule.allow n d)

/-- What a list of rules decides. -/
def decisions (rules : List (Rule ν)) : Decisions := rules.foldl (apply entries) fun _ => none

/-- The verdict on each node. -/
def check (rules : List (Rule ν)) : List Bool :=
  (List.range entries.length).map fun i => decisions entries rules i == some true

theorem check_getD {i : ℕ} (lt : i < entries.length) (rules : List (Rule ν)) :
    (check entries rules).getD i false = (decisions entries rules i == some true) := by
  simp [check, lt]

omit [DecidableEq ν] in
theorem settle_eq_some {allow verdict : Bool} {n j : ℕ} {d : Decisions} :
    settle entries allow n d j = some verdict ↔
      d j = some verdict ∨ d j = none ∧ Reaches entries allow n j ∧ allow = verdict := by
  unfold settle
  cases d j with
  | none => simp
  | some old => simp

omit [DecidableEq ν] in
theorem liftAt_eq_some {verdict : Bool} {n j : ℕ} {d : Decisions} :
    liftAt entries n d j = some verdict ↔
      d j = some verdict ∨ j = n ∧ Liftable entries d n ∧ verdict = true := by
  unfold liftAt
  split_ifs with lifted
  · obtain ⟨rfl, liftable⟩ := lifted
    simp [liftable.1, liftable, eq_comm]
  · exact ⟨.inl, fun h => h.resolve_right fun h => lifted ⟨h.1, h.2.1⟩⟩

/-! ### Coherence -/

/-- Beneath a granted node everything is granted; above a denied node everything is denied. -/
structure Coherent (d : Decisions) : Prop where
  granted : ∀ i j, j < entries.length → Covers (levelAt entries) i j → d i = some true →
    d j = some true
  denied : ∀ i j, j < entries.length → Covers (levelAt entries) i j → d j = some false →
    d i = some false

variable {entries}

omit [DecidableEq ν] in
theorem coherent_settle {d : Decisions} (h : Coherent entries d) (allow : Bool) (n : ℕ) :
    Coherent entries (settle entries allow n d) := by
  constructor
  · intro i j lt ij gi
    rw [settle_eq_some] at gi ⊢
    rcases gi with gi | ⟨undecided, reached, rfl⟩
    · exact .inl (h.granted i j lt ij gi)
    · have nj : Covers (levelAt entries) n j := covers_trans (reached.resolve_right (by simp)) ij
      cases old : d j with
      | none => exact .inr ⟨rfl, .inl nj, rfl⟩
      | some verdict =>
        cases verdict with
        | true => exact .inl rfl
        -- the node above was undecided, so nothing beneath it was denied
        | false => exact absurd (h.denied i j lt ij old) (by simp [undecided])
  · intro i j lt ij dj
    rw [settle_eq_some] at dj ⊢
    rcases dj with dj | ⟨undecided, reached, rfl⟩
    · exact .inl (h.denied i j lt ij dj)
    · -- whatever lies above a newly denied node lies above or beneath the named one
      have near : Covers (levelAt entries) n i ∨ Covers (levelAt entries) i n := by
        rcases reached with nj | ⟨-, jn⟩
        · rcases le_total n i with le | le
          · exact .inl (covers_of_le nj ij le)
          · exact .inr (covers_of_le ij nj le)
        · exact .inr (covers_trans ij jn)
      cases old : d i with
      | none => exact .inr ⟨rfl, near.imp_right fun h => ⟨rfl, h⟩, rfl⟩
      | some verdict =>
        cases verdict with
        | false => exact .inl rfl
        | true => exact absurd (h.granted i j lt ij old) (by simp [undecided])

omit [DecidableEq ν] in
theorem coherent_liftAt {d : Decisions} (h : Coherent entries d) (n : ℕ) :
    Coherent entries (liftAt entries n d) := by
  constructor
  · intro i j lt ij gi
    rw [liftAt_eq_some] at gi ⊢
    rcases gi with gi | ⟨rfl, liftable, -⟩
    · exact .inl (h.granted i j lt ij gi)
    · rcases eq_or_ne i j with rfl | ne
      · exact .inr ⟨rfl, liftable, rfl⟩
      · obtain ⟨c, child, cj⟩ := exists_child ij ne
        exact .inl (h.granted c j lt cj (liftable.2.2 c (cj.1.trans_lt lt) child))
  · intro i j lt ij dj
    rw [liftAt_eq_some] at dj ⊢
    rcases dj with dj | ⟨-, -, contra⟩
    · exact .inl (h.denied i j lt ij dj)
    · cases contra

omit [DecidableEq ν] in
theorem coherent_lift {d : Decisions} (h : Coherent entries d) (n : ℕ) :
    Coherent entries (lift entries n d) := by
  induction n generalizing d with
  | zero => exact h
  | succ n ih => exact ih (coherent_liftAt h n)

theorem coherent_apply {d : Decisions} (h : Coherent entries d) (rule : Rule ν) :
    Coherent entries (apply entries d rule) := by
  unfold apply
  split
  · exact h
  · next n _ => exact coherent_lift (coherent_settle h rule.allow n) _

/-- **Every list of rules leaves a coherent tree.** -/
theorem coherent_decisions (rules : List (Rule ν)) :
    Coherent entries (decisions entries rules) := by
  refine List.foldlRecOn rules (apply entries) ⟨nofun, nofun⟩ ?_
  intro d h rule _
  exact coherent_apply h rule

/-! ### Nodes with nothing beneath them -/

variable (entries) in
/-- Nothing lies beneath the position. -/
def IsLeaf (i : ℕ) : Prop := ∀ j < entries.length, Covers (levelAt entries) i j → j = i

variable (entries) in
/-- The rule names the position or one above it. -/
def Governs (i : ℕ) (rule : Rule ν) : Bool :=
  (named entries rule).any fun n => Covers (levelAt entries) n i

omit [DecidableEq ν] in
theorem lift_leaf {i : ℕ} (leaf : IsLeaf entries i) (d : Decisions) (n : ℕ) :
    lift entries n d i = d i := by
  induction n generalizing d with
  | zero => rfl
  | succ n ih =>
    unfold lift
    rw [ih]
    unfold liftAt
    rw [if_neg]
    rintro ⟨rfl, -, ⟨c, lt, child⟩, -⟩
    exact child.1.ne (leaf c lt child.2.1).symm

theorem named_lt (nonempty : 0 < entries.length) {rule : Rule ν} {n : ℕ}
    (h : named entries rule = some n) : n < entries.length := by
  unfold named at h
  split at h
  · obtain rfl := Option.some.inj h
    exact nonempty
  · exact (List.findIdx?_eq_some_iff_findIdx_eq.1 h).1

theorem apply_leaf {i : ℕ} (lt : i < entries.length) (leaf : IsLeaf entries i) (d : Decisions)
    (rule : Rule ν) :
    apply entries d rule i =
      if d i = none ∧ Governs entries i rule = true then some rule.allow else d i := by
  unfold apply Governs
  cases eq : named entries rule with
  | none => simp
  | some n =>
    dsimp only
    rw [lift_leaf leaf]
    refine if_congr (and_congr_right fun _ => ?_) rfl rfl
    rw [Option.any_some, decide_eq_true_eq]
    refine ⟨fun reached => reached.elim id fun below => ?_, .inl⟩
    -- a deny that names a node beneath a leaf names the leaf
    rw [leaf n (named_lt (Nat.zero_lt_of_lt lt) eq) below.2]
    exact covers_refl _ i

/-- **A node with nothing beneath it gets the verdict of the first rule that names it or a
node above it.** -/
theorem decisions_leaf {i : ℕ} (lt : i < entries.length) (leaf : IsLeaf entries i)
    (rules : List (Rule ν)) :
    decisions entries rules i = (rules.find? (Governs entries i)).map Rule.allow := by
  have started (d : Decisions) : rules.foldl (apply entries) d i =
      (d i).or ((rules.find? (Governs entries i)).map Rule.allow) := by
    induction rules generalizing d with
    | nil => simp
    | cons rule rules ih =>
      rw [List.foldl_cons, ih, apply_leaf lt leaf]
      cases d i with
      | some verdict => simp
      | none => cases governs : Governs entries i rule <;> simp [governs]
  exact started fun _ => none

/-- With distinct names, a rule governs a position if it names none, or a name of a
position that covers it. -/
theorem governs_iff (nodup : (entries.map Entry.name).Nodup) {i : ℕ}
    (root : Covers (levelAt entries) 0 i) (rule : Rule ν) :
    Governs entries i rule = true ↔ ∀ name, rule.target = some name →
      ∃ n, Covers (levelAt entries) n i ∧ entries[n]?.map Entry.name = some name := by
  unfold Governs named
  cases rule.target with
  | none => simpa using root
  | some name =>
    rw [Option.any_eq_true]
    simp only [decide_eq_true_eq, Option.some.injEq, forall_eq']
    constructor
    · rintro ⟨n, eq, covers⟩
      obtain ⟨lt, same, -⟩ := List.findIdx?_eq_some_iff_getElem.1 eq
      refine ⟨n, covers, ?_⟩
      rw [List.getElem?_eq_getElem lt, Option.map_some, of_decide_eq_true same]
    · rintro ⟨n, covers, same⟩
      obtain ⟨entry, at_n, rfl⟩ := Option.map_eq_some_iff.1 same
      obtain ⟨lt, rfl⟩ := List.getElem?_eq_some_iff.1 at_n
      refine ⟨n, List.findIdx?_eq_some_iff_getElem.2 ⟨lt, by simp, fun j lt' same => ?_⟩, covers⟩
      -- an earlier entry of the same name would be this one
      have ltn : n < (entries.map Entry.name).length := by simpa using lt
      have ltj : j < (entries.map Entry.name).length := lt'.trans ltn
      have eq : (entries.map Entry.name)[j] = (entries.map Entry.name)[n] := by simpa using same
      exact lt'.ne (nodup.getElem_inj_iff.1 eq)

end ListCheck
