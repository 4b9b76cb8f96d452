import Mathlib.Data.List.Perm.Basic
import Eventd.Lib.Levels

/-!
# Forests and their preorder lists

An ordered forest: a first tree, given by its value and the forest beneath it, and the
trees after it.  Walking a forest in preorder with a stack lists its values with their
levels, and in that list one value lies above another exactly if it does in the forest.

* `flatten`, `Above`: the preorder list with levels, and lying above or being the same;
* `covers_flatten`: covering in the preorder list is lying above in the forest;
* `addChild`, `above_addChild`: a new last child, and what then lies above what;
* `Rep`, `walk`, `walk_rep`: a forest kept as lists of children, and walking it with a
  stack.
-/

/-- An ordered forest. -/
inductive Forest (α : Type*)
  | nil
  | node (value : α) (children siblings : Forest α)

namespace Forest

open List Levels

variable {α : Type*}

/-- The values in preorder. -/
def values : Forest α → List α
  | nil => []
  | node value children siblings => value :: (children.values ++ siblings.values)

/-- The preorder list with levels, the roots at level `d`. -/
def flatten (d : ℕ) : Forest α → List (ℕ × α)
  | nil => []
  | node value children siblings =>
    (d, value) :: (children.flatten (d + 1) ++ siblings.flatten d)

/-- Value `a` is `b` or lies above it. -/
def Above : Forest α → α → α → Prop
  | nil, _, _ => False
  | node value children siblings, a, b =>
    (a = value ∧ (b = value ∨ b ∈ children.values)) ∨
      children.Above a b ∨ siblings.Above a b

theorem map_snd_flatten (d : ℕ) (f : Forest α) : (f.flatten d).map Prod.snd = f.values := by
  induction f generalizing d with
  | nil => rfl
  | node value children siblings ihc ihs => simp [flatten, values, ihc, ihs]

@[simp] theorem length_flatten (d : ℕ) (f : Forest α) :
    (f.flatten d).length = f.values.length := by
  rw [← map_snd_flatten d, length_map]

theorem le_level_flatten (d : ℕ) (f : Forest α) : ∀ entry ∈ f.flatten d, d ≤ entry.1 := by
  induction f generalizing d with
  | nil => nofun
  | node value children siblings ihc ihs =>
    intro entry mem
    rcases mem_cons.1 mem with rfl | mem
    · exact le_rfl
    · rcases mem_append.1 mem with mem | mem
      · exact (Nat.le_succ d).trans (ihc (d + 1) entry mem)
      · exact ihs d entry mem

variable {f children siblings : Forest α} {b a value : α}

theorem above_mem (h : f.Above a b) : a ∈ f.values ∧ b ∈ f.values := by
  induction f with
  | nil => exact h.elim
  | node value children siblings ihc ihs =>
    simp only [values, mem_cons, mem_append]
    rcases h with ⟨rfl, same | beneath⟩ | h | h
    · exact ⟨.inl rfl, .inl same⟩
    · exact ⟨.inl rfl, .inr (.inl beneath)⟩
    · exact ⟨.inr (.inl (ihc h).1), .inr (.inl (ihc h).2)⟩
    · exact ⟨.inr (.inr (ihs h).1), .inr (.inr (ihs h).2)⟩

/-- The levels of the preorder list. -/
def levels (d : ℕ) (f : Forest α) : List ℕ := (f.flatten d).map Prod.fst

@[simp] theorem length_levels (d : ℕ) (f : Forest α) : (f.levels d).length = f.values.length := by
  simp [levels]

theorem levels_node (d : ℕ) (value : α) (children siblings : Forest α) :
    (node value children siblings).levels d =
      d :: (children.levels (d + 1) ++ siblings.levels d) := by
  simp [levels, flatten]

theorem ofList_levels_zero {d : ℕ} (nonempty : 0 < f.values.length) :
    ofList (f.levels d) 0 = d := by
  cases f with
  | nil => simp [values] at nonempty
  | node value children siblings => simp [levels_node, ofList]

theorem le_ofList_levels {d : ℕ} {i : ℕ} (lt : i < f.values.length) :
    d ≤ ofList (f.levels d) i := by
  have bound : i < (f.levels d).length := by simpa using lt
  unfold ofList
  rw [getD_eq_getElem?_getD, List.getElem?_eq_getElem bound, Option.getD_some]
  obtain ⟨entry, mem, eq⟩ := mem_map.1 (getElem_mem bound)
  rw [← eq]
  exact le_level_flatten d f entry mem

theorem ofList_levels_le (d : ℕ) (f : Forest α) (i : ℕ) : ofList (f.levels d) i ≤ d + i := by
  induction f generalizing d i with
  | nil => simp [levels, flatten, ofList]
  | node value children siblings ihc ihs =>
    rw [levels_node]
    cases i with
    | zero => exact le_rfl
    | succ i =>
      show ofList (children.levels (d + 1) ++ siblings.levels d) i ≤ d + (i + 1)
      rcases lt_or_ge i (children.levels (d + 1)).length with lt | ge
      · rw [ofList_append_left lt]
        exact (ihc (d + 1) i).trans (by omega)
      · rw [ofList_append_right ge]
        exact (ihs d _).trans (by omega)

section Node

variable (nodup : (node value children siblings).values.Nodup)
include nodup

theorem nodup_node :
    (value ∉ children.values ∧ value ∉ siblings.values) ∧ children.values.Nodup ∧
      siblings.values.Nodup ∧ ∀ a ∈ children.values, a ∉ siblings.values := by
  rw [values, nodup_cons, mem_append, not_or, nodup_append] at nodup
  obtain ⟨top, nodupC, nodupS, apart⟩ := nodup
  exact ⟨top, nodupC, nodupS, fun a memC memS => apart a memC a memS rfl⟩

theorem above_node_of_mem_children (mem : a ∈ children.values) :
    (node value children siblings).Above a b ↔ children.Above a b := by
  obtain ⟨⟨notC, -⟩, -, -, apart⟩ := nodup_node nodup
  refine ⟨fun h => ?_, fun h => .inr (.inl h)⟩
  rcases h with ⟨rfl, -⟩ | h | h
  · exact absurd mem notC
  · exact h
  · exact absurd (above_mem h).1 (apart a mem)

theorem above_node_of_mem_siblings (mem : a ∈ siblings.values) :
    (node value children siblings).Above a b ↔ siblings.Above a b := by
  obtain ⟨⟨-, notS⟩, -, -, apart⟩ := nodup_node nodup
  refine ⟨fun h => ?_, fun h => .inr (.inr h)⟩
  rcases h with ⟨rfl, -⟩ | h | h
  · exact absurd mem notS
  · exact absurd mem (apart a (above_mem h).1)
  · exact h

theorem above_node_value :
    (node value children siblings).Above value b ↔ b = value ∨ b ∈ children.values := by
  obtain ⟨⟨notC, notS⟩, -⟩ := nodup_node nodup
  refine ⟨fun h => ?_, fun h => .inl ⟨rfl, h⟩⟩
  rcases h with ⟨-, h⟩ | h | h
  · exact h
  · exact absurd (above_mem h).1 notC
  · exact absurd (above_mem h).1 notS

end Node

/-- **In the preorder list a position covers another exactly if its value lies above.** -/
theorem covers_flatten (nodup : f.values.Nodup) (d : ℕ) {i j : ℕ} {a b : α}
    (hi : f.values[i]? = some a) (hj : f.values[j]? = some b) :
    Covers (ofList (f.levels d)) i j ↔ f.Above a b := by
  induction f generalizing d i j with
  | nil => simp [values] at hi
  | node value children siblings ihc ihs =>
    obtain ⟨⟨notC, notS⟩, nodupC, nodupS, apart⟩ := nodup_node nodup
    have lenC := children.length_levels (d + 1)
    rw [levels_node]
    rw [values] at hi hj
    cases i with
    | zero =>
      obtain rfl := Option.some.inj hi
      rw [above_node_value nodup]
      cases j with
      | zero => exact ⟨fun _ => .inl (Option.some.inj hj).symm, fun _ => covers_refl _ 0⟩
      | succ j =>
        rw [List.getElem?_cons_succ] at hj
        rcases lt_or_ge j children.values.length with lt | ge
        · rw [List.getElem?_append_left lt] at hj
          refine ⟨fun _ => .inr (mem_of_getElem? hj), fun _ => ⟨Nat.zero_le _, ?_⟩⟩
          intro k le pos
          obtain ⟨k, rfl⟩ := Nat.exists_eq_succ_of_ne_zero pos.ne'
          have inside : k < children.values.length := by omega
          show d < ofList (children.levels (d + 1) ++ siblings.levels d) k
          rw [ofList_append_left (by rwa [lenC])]
          exact le_ofList_levels inside
        · rw [List.getElem?_append_right ge] at hj
          have mem := mem_of_getElem? hj
          refine ⟨fun h => absurd h ?_, fun h => ?_⟩
          · refine not_covers_of_le (k := children.values.length + 1) (by omega) (by omega) ?_
            show ofList (children.levels (d + 1) ++ siblings.levels d)
              children.values.length ≤ d
            rw [ofList_append_right (by rw [lenC]), lenC, Nat.sub_self,
              ofList_levels_zero (length_pos_of_mem mem)]
          · rcases h with rfl | memC
            · exact absurd mem notS
            · exact absurd mem (apart b memC)
    | succ i =>
      rw [List.getElem?_cons_succ] at hi
      cases j with
      | zero =>
        obtain rfl := Option.some.inj hj
        refine ⟨fun h => absurd h.1 (by omega), fun h => ?_⟩
        rcases h with ⟨rfl, -⟩ | h | h
        · rcases mem_append.1 (mem_of_getElem? hi) with mem | mem
          · exact absurd mem notC
          · exact absurd mem notS
        · exact absurd (above_mem h).2 notC
        · exact absurd (above_mem h).2 notS
      | succ j =>
        rw [List.getElem?_cons_succ] at hj
        rw [covers_cons]
        rcases lt_or_ge i children.values.length with lt | ge
        · rw [List.getElem?_append_left lt] at hi
          rw [above_node_of_mem_children nodup (mem_of_getElem? hi)]
          rcases lt_or_ge j children.values.length with ltj | gej
          · rw [List.getElem?_append_left ltj] at hj
            rw [covers_append_left (by rwa [lenC])]
            exact ihc nodupC (d + 1) hi hj
          · rw [List.getElem?_append_right gej] at hj
            have mem := mem_of_getElem? hj
            refine ⟨fun h => absurd h ?_, fun h => absurd mem (apart b (above_mem h).2)⟩
            refine not_covers_of_le lt gej ?_
            rw [ofList_append_right (by rw [lenC]), lenC, Nat.sub_self,
              ofList_levels_zero (length_pos_of_mem mem),
              ofList_append_left (by rwa [lenC])]
            exact (Nat.le_succ d).trans (le_ofList_levels lt)
        · rw [List.getElem?_append_right ge] at hi
          have memI := mem_of_getElem? hi
          rw [above_node_of_mem_siblings nodup memI, covers_append_right (by rwa [lenC]),
            lenC]
          rcases lt_or_ge j children.values.length with ltj | gej
          · rw [List.getElem?_append_left ltj] at hj
            refine ⟨fun h => absurd h.1 ltj.not_ge, fun h => ?_⟩
            exact absurd (above_mem h).2 (apart b (mem_of_getElem? hj))
          · rw [List.getElem?_append_right gej] at hj
            rw [and_iff_right gej]
            exact ihs nodupS d hi hj

/-! ### A new last child -/

/-- Add a tree of one value after the others. -/
def snoc : Forest α → α → Forest α
  | nil, new => node new nil nil
  | node value children siblings, new => node value children (siblings.snoc new)

theorem values_snoc (f : Forest α) (new : α) : (f.snoc new).values = f.values ++ [new] := by
  induction f with
  | nil => rfl
  | node value children siblings _ ih => simp [snoc, values, ih]

theorem above_snoc (f : Forest α) (new a b : α) :
    (f.snoc new).Above a b ↔ f.Above a b ∨ a = new ∧ b = new := by
  induction f with
  | nil => simp [snoc, Above, values]
  | node value children siblings _ ih =>
    unfold snoc Above
    rw [ih]
    tauto

variable [DecidableEq α]

/-- Add a value as the last child of `parent`. -/
def addChild (parent new : α) : Forest α → Forest α
  | nil => nil
  | node value children siblings =>
    if value = parent then node value (children.snoc new) siblings
    else node value (children.addChild parent new) (siblings.addChild parent new)

variable {parent new : α} {f : Forest α}

theorem addChild_of_not_mem (new : α) {f : Forest α} (not_mem : parent ∉ f.values) :
    f.addChild parent new = f := by
  induction f with
  | nil => rfl
  | node value children siblings ihc ihs =>
    rw [values, mem_cons, mem_append, not_or, not_or] at not_mem
    unfold addChild
    rw [if_neg (Ne.symm not_mem.1), ihc not_mem.2.1, ihs not_mem.2.2]

/-- The new value is one more value, wherever its parent is. -/
theorem perm_values_addChild (nodup : f.values.Nodup) (mem : parent ∈ f.values) :
    (f.addChild parent new).values.Perm (new :: f.values) := by
  induction f with
  | nil => exact absurd mem not_mem_nil
  | node value children siblings ihc ihs =>
    obtain ⟨-, nodupC, nodupS, apart⟩ := nodup_node nodup
    unfold addChild
    split_ifs with here
    · simp only [values, values_snoc, append_assoc, singleton_append]
      exact (perm_middle.cons value).trans (.swap new value _)
    · rw [values, mem_cons, mem_append] at mem
      rcases mem.resolve_left (Ne.symm here) with memC | memS
      · rw [addChild_of_not_mem new (apart parent memC)]
        simp only [values]
        exact (((ihc nodupC memC).append_right _).cons value).trans (.swap new value _)
      · rw [addChild_of_not_mem new fun memC => apart parent memC memS]
        simp only [values]
        refine ((((ihs nodupS memS).append_left _).trans perm_middle).cons value).trans ?_
        exact .swap new value _

/-- **What lies above what after adding a child**: above the new value lies what lies above
its parent, and nothing else changes. -/
theorem above_addChild (nodup : f.values.Nodup) (mem : parent ∈ f.values) (a b : α) :
    (f.addChild parent new).Above a b ↔
      f.Above a b ∨ b = new ∧ (a = new ∨ f.Above a parent) := by
  induction f with
  | nil => exact absurd mem not_mem_nil
  | node value children siblings ihc ihs =>
    obtain ⟨⟨notC, notS⟩, nodupC, nodupS, apart⟩ := nodup_node nodup
    unfold addChild
    split_ifs with here
    · subst here
      have above : (node value children siblings).Above a value ↔ a = value := by
        refine ⟨fun h => ?_, fun h => .inl ⟨h, .inl rfl⟩⟩
        rcases h with ⟨h, -⟩ | h | h
        · exact h
        · exact absurd (above_mem h).2 notC
        · exact absurd (above_mem h).2 notS
      rw [above]
      simp only [Above, above_snoc, values_snoc, mem_append, mem_singleton]
      grind
    · rw [values, mem_cons, mem_append] at mem
      rcases mem.resolve_left (Ne.symm here) with memC | memS
      · have notIn := apart parent memC
        have above : (node value children siblings).Above a parent ↔
            a = value ∨ children.Above a parent := by
          refine ⟨fun h => ?_, fun h => ?_⟩
          · rcases h with ⟨h, -⟩ | h | h
            · exact .inl h
            · exact .inr h
            · exact absurd (above_mem h).2 notIn
          · exact h.imp (fun h => ⟨h, .inr memC⟩) .inl
        have values : b ∈ (children.addChild parent new).values ↔ b ∈ new :: children.values :=
          (perm_values_addChild nodupC memC).mem_iff
        rw [above, addChild_of_not_mem new notIn]
        simp only [Above, ihc nodupC memC, values, mem_cons]
        grind
      · have notIn : parent ∉ children.values := fun memC => apart parent memC memS
        have above : (node value children siblings).Above a parent ↔
            siblings.Above a parent := by
          refine ⟨fun h => ?_, fun h => .inr (.inr h)⟩
          rcases h with ⟨-, h | h⟩ | h | h
          · exact absurd h.symm here
          · exact absurd h notIn
          · exact absurd (above_mem h).2 notIn
          · exact h
        rw [above, addChild_of_not_mem new notIn]
        simp only [Above, ihs nodupS memS]
        grind

/-! ### Forests kept as lists of children -/

/-- The forest has the given roots, and beneath each value its children. -/
def Rep (children : α → List α) : List α → Forest α → Prop
  | roots, nil => roots = []
  | roots, node value below siblings =>
    ∃ rest, roots = value :: rest ∧ Rep children (children value) below ∧
      Rep children rest siblings

/-- Walk in preorder with a stack of nodes and their levels, for at most `fuel` nodes. -/
def walk (children : α → List α) : ℕ → List (α × ℕ) → List (ℕ × α)
  | 0, _ => []
  | _ + 1, [] => []
  | fuel + 1, (value, depth) :: stack =>
    (depth, value) :: walk children fuel
      ((children value).map (fun child => (child, depth + 1)) ++ stack)

omit [DecidableEq α] in
/-- **Walking with a stack lists the forest in preorder.** -/
theorem walk_rep {children : α → List α} {roots : List α} (rep : Rep children roots f) (d : ℕ)
    {fuel : ℕ} (enough : f.values.length ≤ fuel) (stack : List (α × ℕ)) :
    walk children fuel (roots.map (fun root => (root, d)) ++ stack) =
      f.flatten d ++ walk children (fuel - f.values.length) stack := by
  induction f generalizing roots d fuel stack with
  | nil =>
    obtain rfl := rep
    simp [flatten, values]
  | node value below siblings ihc ihs =>
    obtain ⟨rest, rfl, repC, repS⟩ := rep
    simp only [values, length_cons, length_append] at enough ⊢
    obtain ⟨fuel, rfl⟩ := Nat.exists_eq_succ_of_ne_zero (n := fuel) (by omega)
    have left : fuel - below.values.length - siblings.values.length =
        fuel + 1 - (below.values.length + siblings.values.length + 1) := by omega
    simp only [map_cons, cons_append, walk, flatten]
    rw [ihc repC (d + 1) (by omega), ihs repS d (by omega), append_assoc, left]

omit [DecidableEq α] in
theorem rep_congr {children others : α → List α} {roots : List α} {f : Forest α}
    (rep : Rep children roots f) (same : ∀ a ∈ f.values, others a = children a) :
    Rep others roots f := by
  induction f generalizing roots with
  | nil => exact rep
  | node value below siblings ihc ihs =>
    obtain ⟨rest, rfl, repC, repS⟩ := rep
    rw [values, forall_mem_cons, forall_mem_append] at same
    refine ⟨rest, rfl, ?_, ihs repS same.2.2⟩
    rw [same.1]
    exact ihc repC same.2.1

omit [DecidableEq α] in
theorem rep_snoc {children : α → List α} {roots : List α} {f : Forest α}
    (rep : Rep children roots f) {new : α} (none : children new = []) :
    Rep children (roots ++ [new]) (f.snoc new) := by
  induction f generalizing roots with
  | nil =>
    obtain rfl := rep
    exact ⟨[], rfl, none, rfl⟩
  | node value below siblings _ ihs =>
    obtain ⟨rest, rfl, repC, repS⟩ := rep
    exact ⟨rest ++ [new], rfl, repC, ihs repS⟩

/-- Appending to a list of children adds a child to the forest. -/
theorem rep_addChild {children others : α → List α} (nodup : f.values.Nodup)
    (fresh : new ∉ f.values) (atParent : others parent = children parent ++ [new])
    (atNew : others new = []) (elsewhere : ∀ a ∈ f.values, a ≠ parent → others a = children a)
    {roots : List α} (rep : Rep children roots f) : Rep others roots (f.addChild parent new) := by
  induction f generalizing roots with
  | nil => exact rep
  | node value below siblings ihc ihs =>
    obtain ⟨rest, rfl, repC, repS⟩ := rep
    obtain ⟨⟨notC, notS⟩, nodupC, nodupS, -⟩ := nodup_node nodup
    rw [values, mem_cons, mem_append, not_or, not_or] at fresh
    rw [values, forall_mem_cons, forall_mem_append] at elsewhere
    obtain ⟨atValue, inC, inS⟩ := elsewhere
    unfold addChild
    split_ifs with here
    · subst here
      refine ⟨rest, rfl, ?_, rep_congr repS fun a mem => inS a mem fun eq => notS (eq ▸ mem)⟩
      rw [atParent]
      exact rep_snoc (rep_congr repC fun a mem => inC a mem fun eq => notC (eq ▸ mem)) atNew
    · refine ⟨rest, rfl, ?_, ihs nodupS fresh.2.2 inS repS⟩
      rw [atValue here]
      exact ihc nodupC fresh.2.1 inC repC

end Forest
