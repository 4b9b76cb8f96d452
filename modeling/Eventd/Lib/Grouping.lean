import Mathlib.Tactic

/-!
# Grouping by a key

A list is read once, and each member is merged into the group of its class, which is opened
when the first member of the class comes.  The groups stand in the order in which they were
opened.

* `add`, `gather`: the groups so far, each with its class;
* `summary`: what a group comes to from its members alone;
* `gathered`: one group for each class, holding the summary of the members of the class;
* `landings`: into which group each member went, and `landings_eq_iff`.
-/

namespace Grouping

open Option List

variable {α κ γ : Type*} [DecidableEq κ] (cls : α → κ) (start : α → γ) (merge : γ → α → γ)

/-- Merge a member into the group of its class. -/
def add (groups : List (κ × γ)) (a : α) : List (κ × γ) :=
  match groups with
  | [] => [(cls a, start a)]
  | group :: rest =>
    if group.1 = cls a then (group.1, merge group.2 a) :: rest else group :: add rest a

def gather (rows : List α) : List (κ × γ) := rows.foldl (add cls start merge) []

/-- The place of the group into which a member goes. -/
def landing (groups : List (κ × γ)) (a : α) : ℕ := (groups.map Prod.fst).idxOf (cls a)

/-- A group from its members. -/
def summary : List α → Option γ
  | [] => none
  | a :: as => some (as.foldl merge (start a))

variable {cls start merge}

theorem summary_append_singleton (as : List α) (a : α) :
    summary start merge (as ++ [a]) = some ((summary start merge as).elim (start a) (merge · a)) := by
  cases as with
  | nil => rfl
  | cons b as => simp [summary]

theorem classes_add (groups : List (κ × γ)) (a : α) :
    (add cls start merge groups a).map Prod.fst =
      if cls a ∈ groups.map Prod.fst then groups.map Prod.fst else groups.map Prod.fst ++ [cls a] := by
  induction groups with
  | nil => rfl
  | cons group rest ih =>
    unfold add
    by_cases same : group.1 = cls a
    · simp [same]
    · rw [if_neg same, map_cons, ih, map_cons]
      by_cases mem : cls a ∈ rest.map Prod.fst
      · rw [if_pos mem, if_pos (mem_cons_of_mem _ mem)]
      · rw [if_neg mem, if_neg (by simp [mem, Ne.symm same]), cons_append]

variable {groups : List (κ × γ)} {a : α}

theorem nodup_add (nodup : (groups.map Prod.fst).Nodup) (a : α) :
    ((add cls start merge groups a).map Prod.fst).Nodup := by
  rw [classes_add]
  by_cases mem : cls a ∈ groups.map Prod.fst
  · rw [if_pos mem]
    exact nodup
  · rw [if_neg mem]
    refine nodup_append.2 ⟨nodup, nodup_singleton _, ?_⟩
    rintro k known l single rfl
    exact mem (mem_singleton.1 single ▸ known)

theorem mem_add (nodup : (groups.map Prod.fst).Nodup) {a : α} {entry : κ × γ}
    (mem : entry ∈ add cls start merge groups a) :
    entry.1 ≠ cls a ∧ entry ∈ groups ∨
      entry.1 = cls a ∧ (∃ g, (cls a, g) ∈ groups ∧ entry.2 = merge g a ∨
        cls a ∉ groups.map Prod.fst ∧ entry.2 = start a) := by
  induction groups with
  | nil =>
    rw [add, mem_singleton] at mem
    subst mem
    exact .inr ⟨rfl, start a, .inr ⟨not_mem_nil, rfl⟩⟩
  | cons group rest ih =>
    unfold add at mem
    rw [map_cons, nodup_cons] at nodup
    by_cases same : group.1 = cls a
    · rw [if_pos same] at mem
      rcases mem_cons.1 mem with rfl | mem
      · refine .inr ⟨same, group.2, .inl ⟨?_, rfl⟩⟩
        rw [← same]
        exact mem_cons_self
      · refine .inl ⟨fun eq => nodup.1 ?_, mem_cons_of_mem _ mem⟩
        rw [same, ← eq]
        exact mem_map_of_mem mem
    · rw [if_neg same] at mem
      rcases mem_cons.1 mem with rfl | mem
      · exact .inl ⟨same, mem_cons_self⟩
      · rcases ih nodup.2 mem with ⟨other, mem⟩ | ⟨eq, g, ⟨mem, merged⟩ | ⟨new, started⟩⟩
        · exact .inl ⟨other, mem_cons_of_mem _ mem⟩
        · exact .inr ⟨eq, g, .inl ⟨mem_cons_of_mem _ mem, merged⟩⟩
        · refine .inr ⟨eq, g, .inr ⟨?_, started⟩⟩
          rw [map_cons, mem_cons, not_or]
          exact ⟨Ne.symm same, new⟩

theorem getElem?_landing (known : cls a ∈ groups.map Prod.fst) :
    ∃ g, groups[landing cls groups a]? = some (cls a, g) := by
  have there := List.getElem?_idxOf known
  rw [List.getElem?_map, map_eq_some_iff] at there
  obtain ⟨⟨_, g⟩, there, rfl⟩ := there
  exact ⟨g, there⟩

theorem landing_eq_length (new : cls a ∉ groups.map Prod.fst) :
    landing cls groups a = groups.length := by
  rw [landing, idxOf_eq_length new, length_map]

theorem add_of_notMem (new : cls a ∉ groups.map Prod.fst) :
    add cls start merge groups a = groups ++ [(cls a, start a)] := by
  induction groups with
  | nil => rfl
  | cons group rest ih =>
    rw [map_cons, mem_cons, not_or] at new
    rw [add, if_neg (Ne.symm new.1), ih new.2, cons_append]

theorem add_of_getElem? (nodup : (groups.map Prod.fst).Nodup) {a : α} {i : ℕ} {g : γ}
    (there : groups[i]? = some (cls a, g)) :
    add cls start merge groups a = groups.modify i fun group => (group.1, merge group.2 a) := by
  induction groups generalizing i with
  | nil => cases there
  | cons group rest ih =>
    rw [map_cons, nodup_cons] at nodup
    cases i with
    | zero =>
      obtain rfl := Option.some.inj there
      rw [add, if_pos rfl, modify_zero_cons]
    | succ i =>
      rw [List.getElem?_cons_succ] at there
      have other : group.1 ≠ cls a := fun same =>
        nodup.1 (same ▸ mem_map_of_mem (mem_of_getElem? there))
      rw [add, if_neg other, ih nodup.2 there, modify_succ_cons]

/-- What is known of the groups of the members read so far. -/
structure Gathered (cls : α → κ) (start : α → γ) (merge : γ → α → γ) (rows : List α)
    (groups : List (κ × γ)) : Prop where
  nodup : (groups.map Prod.fst).Nodup
  mem : ∀ k, k ∈ groups.map Prod.fst ↔ ∃ a ∈ rows, cls a = k
  summary : ∀ entry ∈ groups, summary start merge (rows.filter (cls · = entry.1)) = some entry.2

theorem Gathered.add {rows : List α} (gathered : Gathered cls start merge rows groups) (a : α) :
    Gathered cls start merge (rows ++ [a]) (add cls start merge groups a) where
  nodup := nodup_add gathered.nodup a
  mem k := by
    have old := gathered.mem k
    rw [classes_add]
    by_cases mem : cls a ∈ groups.map Prod.fst
    · rw [if_pos mem, old]
      constructor
      · rintro ⟨b, mem, rfl⟩
        exact ⟨b, mem_append_left _ mem, rfl⟩
      · rintro ⟨b, mem', rfl⟩
        rcases mem_append.1 mem' with mem' | mem'
        · exact ⟨b, mem', rfl⟩
        · rw [mem_singleton.1 mem']
          exact (gathered.mem _).1 mem
    · rw [if_neg mem, mem_append, old, mem_singleton]
      constructor
      · rintro (⟨b, mem, rfl⟩ | rfl)
        · exact ⟨b, mem_append_left _ mem, rfl⟩
        · exact ⟨a, mem_append_right _ (mem_singleton_self a), rfl⟩
      · rintro ⟨b, mem', rfl⟩
        rcases mem_append.1 mem' with mem' | mem'
        · exact .inl ⟨b, mem', rfl⟩
        · rw [mem_singleton.1 mem']
          exact .inr rfl
  summary entry mem := by
    rw [filter_append]
    rcases mem_add gathered.nodup mem with ⟨other, mem⟩ | ⟨same, g, ⟨mem, merged⟩ | ⟨new, started⟩⟩
    · rw [filter_cons_of_neg (by simpa using Ne.symm other), filter_nil, append_nil]
      exact gathered.summary entry mem
    · rw [filter_cons_of_pos (by simpa using same.symm), filter_nil, summary_append_singleton,
        same, gathered.summary _ mem, merged]
      rfl
    · have none : rows.filter (cls · = entry.1) = [] := by
        refine filter_eq_nil_iff.2 fun b mem => ?_
        rw [decide_eq_true_eq]
        exact fun eq => new ((gathered.mem _).2 ⟨b, mem, eq.trans same⟩)
      rw [filter_cons_of_pos (by simpa using same.symm), none, started]
      rfl

/-- **One group for each class, with the summary of the members of the class.** -/
theorem gathered (rows : List α) : Gathered cls start merge rows (gather cls start merge rows) := by
  have empty : Gathered cls start merge ([] : List α) ([] : List (κ × γ)) :=
    { nodup := nodup_nil
      mem := by simp
      summary := fun _ mem => absurd mem not_mem_nil }
  have run (rows : List α) : ∀ (done : List α) (groups : List (κ × γ)),
      Gathered cls start merge done groups →
        Gathered cls start merge (done ++ rows) (rows.foldl (Grouping.add cls start merge) groups) := by
    induction rows with
    | nil =>
      intro done groups gathered
      rw [append_nil]
      exact gathered
    | cons a rows ih =>
      intro done groups gathered
      rw [foldl_cons, append_cons]
      exact ih _ _ (gathered.add a)
  exact run rows [] [] empty

/-! ### Where the members go -/

variable (cls start merge)

/-- The places into which the members go, one after the other. -/
def landings (groups : List (κ × γ)) : List α → List ℕ
  | [] => []
  | a :: as => landing cls groups a :: landings (add cls start merge groups a) as

variable {cls start merge}

theorem classes_foldl (groups : List (κ × γ)) (rows : List α) :
    groups.map Prod.fst <+: (rows.foldl (add cls start merge) groups).map Prod.fst := by
  induction rows generalizing groups with
  | nil => exact prefix_rfl
  | cons a rows ih =>
    refine List.IsPrefix.trans ?_ (ih (add cls start merge groups a))
    rw [classes_add]
    by_cases mem : cls a ∈ groups.map Prod.fst
    · rw [if_pos mem]
    · rw [if_neg mem]
      exact prefix_append _ _

theorem landings_eq (groups : List (κ × γ)) (rows : List α) :
    landings cls start merge groups rows =
      rows.map fun a => ((rows.foldl (add cls start merge) groups).map Prod.fst).idxOf (cls a) := by
  induction rows generalizing groups with
  | nil => rfl
  | cons a rows ih =>
    rw [landings, map_cons, foldl_cons, ih]
    obtain ⟨later, eq⟩ : _ <+: (rows.foldl (add cls start merge) (add cls start merge groups a)).map
      Prod.fst := classes_foldl _ rows
    rw [← eq, classes_add, landing]
    congr 1
    by_cases mem : cls a ∈ groups.map Prod.fst
    · rw [if_pos mem, idxOf_append_of_mem mem]
    · rw [if_neg mem, append_assoc, idxOf_append_of_notMem mem, singleton_append,
        idxOf_cons_self, idxOf_eq_length mem, Nat.add_zero]

/-- **Two members go into one group if and only if they are of one class.** -/
theorem landings_eq_iff {rows : List α} {i j : ℕ} {a b : α} (hi : rows[i]? = some a)
    (hj : rows[j]? = some b) :
    (landings cls start merge [] rows)[i]? = (landings cls start merge [] rows)[j]? ↔ cls a = cls b := by
  rw [landings_eq, List.getElem?_map, List.getElem?_map, hi, hj, map_some, map_some,
    some_inj]
  exact idxOf_inj (((gathered rows).mem _).2 ⟨a, mem_of_getElem? hi, rfl⟩)

theorem landings_eq_some_iff {rows : List α} {i k : ℕ} {a : α} {entry : κ × γ} (hi : rows[i]? = some a)
    (hk : (gather cls start merge rows)[k]? = some entry) :
    (landings cls start merge [] rows)[i]? = some k ↔ cls a = entry.1 := by
  have all : Gathered cls start merge rows (gather cls start merge rows) := gathered rows
  have known : cls a ∈ (gather cls start merge rows).map Prod.fst :=
    (all.mem _).2 ⟨a, mem_of_getElem? hi, rfl⟩
  have there : ((gather cls start merge rows).map Prod.fst)[k]? = some entry.1 := by
    rw [List.getElem?_map, hk, map_some]
  rw [landings_eq, List.getElem?_map, hi, map_some, some_inj]
  constructor
  · rintro rfl
    exact Option.some.inj ((List.getElem?_idxOf known).symm.trans there)
  · intro same
    have short := (List.getElem?_eq_some_iff.1 there).1
    refine ((List.getElem?_inj short all.nodup).1 ?_).symm
    rw [there]
    show _ = (List.map Prod.fst (gather cls start merge rows))[List.idxOf (cls a) _]?
    rw [← same]
    exact (List.getElem?_idxOf known).symm

/-! ### Counting -/

/-- A count that grows by one with each member counts every member once. -/
theorem sum_gather {count : γ → ℕ} (first : ∀ a, count (start a) = 1)
    (next : ∀ g a, count (merge g a) = count g + 1) (rows : List α) :
    ((gather cls start merge rows).map fun group => count group.2).sum = rows.length := by
  have step (groups : List (κ × γ)) (a : α) :
      ((add cls start merge groups a).map fun group => count group.2).sum =
        (groups.map fun group => count group.2).sum + 1 := by
    induction groups with
    | nil => simp [add, first]
    | cons group rest ih =>
      unfold add
      by_cases same : group.1 = cls a
      · rw [if_pos same, map_cons, sum_cons, next, map_cons, sum_cons]
        omega
      · rw [if_neg same, map_cons, sum_cons, ih, map_cons, sum_cons]
        omega
  have run (rows : List α) : ∀ groups : List (κ × γ),
      ((rows.foldl (add cls start merge) groups).map fun group => count group.2).sum =
        (groups.map fun group => count group.2).sum + rows.length := by
    induction rows with
    | nil => exact fun _ => rfl
    | cons a rows ih =>
      intro groups
      rw [foldl_cons, ih, step, length_cons]
      omega
  rw [gather, run]
  simp

end Grouping
