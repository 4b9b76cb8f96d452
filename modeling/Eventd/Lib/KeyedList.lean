import Mathlib.Tactic

/-!
# Maps as lists in the order of their keys

What a B-tree map holds, as the list of its entries.  A key is looked up with
`List.lookup`, so the rules for the operations need no invariant; with the keys in strictly
increasing order a map is determined by what is looked up in it.

* `insert`, `erase`, `keep`: the operations, and `lookup_insert`, `lookup_erase`, `lookup_keep`;
* `Ordered`: the order, which every operation keeps;
* `Ordered.ext`: two ordered maps with the same entries are one.
-/

namespace KeyedList

open List

variable {κ β : Type*} [LinearOrder κ]

/-- Add an entry, or replace the one of its key. -/
def insert (key : κ) (value : β) : List (κ × β) → List (κ × β)
  | [] => [(key, value)]
  | entry :: rest =>
    if key = entry.1 then (key, value) :: rest
    else if key < entry.1 then (key, value) :: entry :: rest
    else entry :: insert key value rest

/-- Keep the entries of some keys. -/
def keep (p : κ → Bool) (map : List (κ × β)) : List (κ × β) := map.filter fun entry => p entry.1

/-- Remove the entry of a key. -/
def erase (key : κ) (map : List (κ × β)) : List (κ × β) := keep (· ≠ key) map

/-- The entries are in the order of their keys. -/
def Ordered (map : List (κ × β)) : Prop := map.Pairwise fun a b => a.1 < b.1

theorem lookup_cons (key : κ) (entry : κ × β) (rest : List (κ × β)) :
    List.lookup key (entry :: rest) =
      if key = entry.1 then some entry.2 else List.lookup key rest := by
  obtain ⟨k, v⟩ := entry
  rw [List.lookup_cons]
  by_cases same : key = k
  · simp [same]
  · rw [beq_eq_false_iff_ne.2 same, if_neg same]

theorem lookup_insert (key other : κ) (value : β) (map : List (κ × β)) :
    List.lookup other (insert key value map) =
      if other = key then some value else List.lookup other map := by
  induction map with
  | nil =>
    unfold insert
    rw [lookup_cons]
  | cons entry rest ih =>
    unfold insert
    split_ifs with same less is is
    all_goals grind [lookup_cons]

/-- Entries of different keys are all there after they were added one by one. -/
theorem lookup_foldl_insert {entries : List (κ × β)} (distinct : (entries.map Prod.fst).Nodup)
    (map : List (κ × β)) {key : κ} {value : β} (mem : (key, value) ∈ entries) :
    List.lookup key (entries.foldl (fun map entry => insert entry.1 entry.2 map) map) =
      some value := by
  induction entries using List.reverseRecOn with
  | nil => cases mem
  | append_singleton entries last ih =>
    rw [map_append, nodup_append] at distinct
    rw [foldl_append, foldl_cons, foldl_nil, lookup_insert]
    rcases mem_append.1 mem with mem | mem
    · have other : key ≠ last.1 :=
        distinct.2.2 key (mem_map_of_mem mem) last.1 (by simp)
      rw [if_neg other, ih distinct.1 mem]
    · cases mem_singleton.1 mem
      exact if_pos rfl

theorem lookup_keep (p : κ → Bool) (key : κ) (map : List (κ × β)) :
    List.lookup key (keep p map) = if p key then List.lookup key map else none := by
  induction map with
  | nil => simp [keep]
  | cons entry rest ih =>
    unfold keep at ih ⊢
    rw [filter_cons]
    by_cases kept : p entry.1 = true
    · rw [if_pos kept, lookup_cons, lookup_cons, ih]
      by_cases same : key = entry.1
      · rw [if_pos same, if_pos same, same, if_pos kept]
      · rw [if_neg same, if_neg same]
    · rw [if_neg kept, lookup_cons, ih]
      by_cases same : key = entry.1
      · rw [same, if_neg kept, if_neg kept]
      · rw [if_neg same]

theorem lookup_erase (key other : κ) (map : List (κ × β)) :
    List.lookup other (erase key map) = if other = key then none else List.lookup other map := by
  unfold erase
  rw [lookup_keep]
  by_cases same : other = key <;> simp [same]

/-! ### Mapped values -/

theorem lookup_map {γ : Type*} (f : β → γ) (key : κ) (map : List (κ × β)) :
    List.lookup key (map.map fun entry => (entry.1, f entry.2)) = (List.lookup key map).map f := by
  induction map with
  | nil => rfl
  | cons entry rest ih =>
    rw [map_cons, lookup_cons, lookup_cons, ih]
    split_ifs <;> rfl

theorem map_insert {γ : Type*} (f : β → γ) (key : κ) (value : β) (map : List (κ × β)) :
    (insert key value map).map (fun entry => (entry.1, f entry.2)) =
      insert key (f value) (map.map fun entry => (entry.1, f entry.2)) := by
  induction map with
  | nil => rfl
  | cons entry rest ih =>
    rw [map_cons, insert, insert]
    split_ifs
    · rfl
    · rfl
    · rw [map_cons, ih]

variable {map : List (κ × β)} {key : κ} {value : β}

theorem mem_insert {entry : κ × β} (mem : entry ∈ insert key value map) :
    entry = (key, value) ∨ entry ∈ map := by
  induction map with
  | nil => exact .inl (mem_singleton.1 mem)
  | cons head rest ih =>
    unfold insert at mem
    split_ifs at mem
    · rcases mem_cons.1 mem with eq | mem
      · exact .inl eq
      · exact .inr (mem_cons_of_mem _ mem)
    · rcases mem_cons.1 mem with eq | mem
      · exact .inl eq
      · exact .inr mem
    · rcases mem_cons.1 mem with eq | mem
      · exact .inr (eq ▸ mem_cons_self)
      · exact (ih mem).imp id (mem_cons_of_mem _)

theorem mem_of_lookup (found : List.lookup key map = some value) : (key, value) ∈ map := by
  induction map with
  | nil => cases found
  | cons entry rest ih =>
    rw [lookup_cons] at found
    split_ifs at found with same
    · cases found
      rw [same]
      exact mem_cons_self
    · exact mem_cons_of_mem _ (ih found)

/-! ### The keys -/

/-- The keys after an insertion depend on the keys before it only. -/
theorem keys_insert_congr {map' : List (κ × β)} (same : map.map Prod.fst = map'.map Prod.fst)
    (key : κ) (value value' : β) :
    (insert key value map).map Prod.fst = (insert key value' map').map Prod.fst := by
  induction map generalizing map' with
  | nil =>
    cases map' with
    | nil => rfl
    | cons entry rest => cases same
  | cons entry rest ih =>
    cases map' with
    | nil => cases same
    | cons entry' rest' =>
      obtain ⟨first, others⟩ := List.cons.inj same
      unfold insert
      rw [← first]
      split_ifs
      · simp [others]
      · simp [first, others]
      · simp [first, ih others]

theorem mem_keys_insert {other : κ} :
    other ∈ (insert key value map).map Prod.fst ↔ other = key ∨ other ∈ map.map Prod.fst := by
  induction map with
  | nil => simp [insert]
  | cons entry rest ih =>
    unfold insert
    split_ifs with same less
    · simp [← same]
    · simp
    · simp only [map_cons, mem_cons, ih]
      tauto

/-! ### The order -/

theorem Ordered.insert (ordered : Ordered map) (key : κ) (value : β) :
    Ordered (insert key value map) := by
  induction map with
  | nil => exact pairwise_singleton _ _
  | cons entry rest ih =>
    obtain ⟨first, others⟩ := pairwise_cons.1 ordered
    unfold KeyedList.insert
    split_ifs with same less
    · refine pairwise_cons.2 ⟨fun e he => ?_, others⟩
      rw [same]
      exact first e he
    · refine pairwise_cons.2 ⟨fun e he => ?_, ordered⟩
      rcases mem_cons.1 he with rfl | he
      · exact less
      · exact less.trans (first e he)
    · refine pairwise_cons.2 ⟨fun e he => ?_, ih others⟩
      have key' : e.1 ∈ (KeyedList.insert key value rest).map Prod.fst := mem_map_of_mem he
      rcases mem_keys_insert.1 key' with eq | old
      · rw [eq]
        exact lt_of_le_of_ne (not_lt.1 less) (Ne.symm same)
      · obtain ⟨e', he', eq⟩ := mem_map.1 old
        rw [← eq]
        exact first e' he'

theorem Ordered.keep (ordered : Ordered map) (p : κ → Bool) :
    Ordered (keep p map) := List.Pairwise.filter _ ordered

theorem Ordered.erase (ordered : Ordered map) (key : κ) :
    Ordered (erase key map) := ordered.keep _

theorem lookup_eq_none_of_lt (above : ∀ entry ∈ map, key < entry.1) :
    List.lookup key map = none := by
  rw [lookup_eq_none_iff]
  intro entry mem
  simpa using (above entry mem).ne

/-- **An ordered map is determined by what is looked up in it.** -/
theorem Ordered.ext {map' : List (κ × β)} (ordered : Ordered map) (ordered' : Ordered map')
    (same : ∀ key, List.lookup key map = List.lookup key map') : map = map' := by
  induction map generalizing map' with
  | nil =>
    cases map' with
    | nil => rfl
    | cons entry rest =>
      have := same entry.1
      rw [lookup_cons, if_pos rfl] at this
      cases this
  | cons entry rest ih =>
    obtain ⟨first, others⟩ := pairwise_cons.1 ordered
    cases map' with
    | nil =>
      have := same entry.1
      rw [lookup_cons, if_pos rfl] at this
      cases this
    | cons entry' rest' =>
      obtain ⟨first', others'⟩ := pairwise_cons.1 ordered'
      -- neither first key can be missing from the other map
      have keys : entry.1 = entry'.1 := by
        rcases lt_trichotomy entry.1 entry'.1 with less | eq | less
        · have := same entry.1
          rw [lookup_cons, if_pos rfl, lookup_cons, if_neg less.ne,
            lookup_eq_none_of_lt fun e he => less.trans (first' e he)] at this
          cases this
        · exact eq
        · have := same entry'.1
          rw [lookup_cons, if_neg less.ne, lookup_cons, if_pos rfl,
            lookup_eq_none_of_lt fun e he => less.trans (first e he)] at this
          cases this
      have values : entry.2 = entry'.2 := by
        have := same entry.1
        rw [lookup_cons, if_pos rfl, lookup_cons, if_pos keys] at this
        exact Option.some.inj this
      have tails : rest = rest' := by
        refine ih others others' fun key => ?_
        have here := same key
        rw [lookup_cons, lookup_cons, keys, values] at here
        by_cases is : key = entry'.1
        · rw [is, lookup_eq_none_of_lt (fun e he => keys ▸ first e he),
            lookup_eq_none_of_lt first']
        · rwa [if_neg is, if_neg is] at here
      rw [tails, Prod.ext keys values]

/-- An entry whose key is the largest is the last one. -/
theorem Ordered.insert_of_le (ordered : Ordered map) {key : κ} (value : β)
    (above : ∀ entry ∈ map, entry.1 ≤ key) :
    KeyedList.insert key value map =
      map.filter (fun entry => decide (entry.1 < key)) ++ [(key, value)] := by
  induction map with
  | nil => rfl
  | cons entry rest ih =>
    obtain ⟨first, others⟩ := pairwise_cons.1 ordered
    obtain ⟨here, later⟩ := forall_mem_cons.1 above
    unfold KeyedList.insert
    rcases here.lt_or_eq with less | same
    · rw [if_neg less.ne', if_neg less.asymm, ih others later,
        filter_cons, if_pos (decide_eq_true less), cons_append]
    · have none : rest = [] := by
        refine eq_nil_iff_forall_not_mem.2 fun e mem => ?_
        exact absurd ((later e mem).trans_lt (same ▸ first e mem)) (lt_irrefl _)
      simp [none, same]

/-- Looked up among larger keys only, a smaller entry does not matter. -/
theorem insert_append {left right : List (κ × β)} (value : β)
    (above : ∀ entry ∈ left, entry.1 < key) :
    insert key value (left ++ right) = left ++ insert key value right := by
  induction left with
  | nil => rfl
  | cons entry rest ih =>
    obtain ⟨first, others⟩ := forall_mem_cons.1 above
    rw [cons_append, insert, if_neg first.ne', if_neg first.asymm, ih others,
      cons_append]

theorem lookup_append {left right : List (κ × β)} (above : ∀ entry ∈ left, entry.1 < key) :
    List.lookup key (left ++ right) = List.lookup key right := by
  rw [List.lookup_append, List.lookup_eq_none_iff.2 fun entry mem => by
    simpa using (above entry mem).ne', Option.none_or]

end KeyedList
