import Mathlib.Tactic

/-!
# The largest value of each key

A map built entry by entry that keeps, for each key met, the largest value met with
it: what a hash map filled with `entry().and_modify(max).or_insert` holds, and what
`SELECT key, MAX(value) … GROUP BY key` returns.  The order in which the map lists
its keys is that of their first entries and means nothing.

* `record`, `collect`: one entry, and a list of entries;
* `Tracks`: the map has one entry for each key of a set of entries, with its largest value.
-/

namespace MaxByKey

open List

variable {κ τ : Type*} [DecidableEq κ] [LinearOrder τ]

/-- Take one entry into account. -/
def record : List (κ × τ) → κ × τ → List (κ × τ)
  | [], entry => [entry]
  | known :: rest, entry =>
    if known.1 = entry.1 then (known.1, max known.2 entry.2) :: rest
    else known :: record rest entry

/-- Take a list of entries into account. -/
def collect (known entries : List (κ × τ)) : List (κ × τ) := entries.foldl record known

/-- The value is the largest that the entries have for the key. -/
def IsMax (entries : Set (κ × τ)) (key : κ) (value : τ) : Prop :=
  (key, value) ∈ entries ∧ ∀ other, (key, other) ∈ entries → other ≤ value

/-- The map lists each key of the entries once, with its largest value. -/
structure Tracks (known : List (κ × τ)) (entries : Set (κ × τ)) : Prop where
  nodup : (known.map Prod.fst).Nodup
  isMax : ∀ entry ∈ known, IsMax entries entry.1 entry.2
  complete : ∀ entry ∈ entries, ∃ value, (entry.1, value) ∈ known

theorem keys_record (known : List (κ × τ)) (entry : κ × τ) (key : κ) :
    key ∈ (record known entry).map Prod.fst ↔ key ∈ known.map Prod.fst ∨ key = entry.1 := by
  induction known with
  | nil => simp [record]
  | cons first rest ih =>
    unfold record
    split_ifs with same
    · rw [map_cons, map_cons, mem_cons, ← same]
      tauto
    · simp only [map_cons, mem_cons, ih, or_assoc]

variable {known : List (κ × τ)} {entries : Set (κ × τ)}

theorem nodup_record (nodup : (known.map Prod.fst).Nodup) (entry : κ × τ) :
    ((record known entry).map Prod.fst).Nodup := by
  induction known with
  | nil => simp [record]
  | cons first rest ih =>
    unfold record
    rw [map_cons, nodup_cons] at nodup
    split_ifs with same
    · simpa using nodup
    · rw [map_cons, nodup_cons, keys_record]
      exact ⟨fun h => h.elim nodup.1 same, ih nodup.2⟩

/-- An entry of the map after recording: an old one of another key, or that of the
recorded key with the larger of the two values. -/
theorem mem_record (nodup : (known.map Prod.fst).Nodup) {entry listed : κ × τ}
    (mem : listed ∈ record known entry) :
    (listed ∈ known ∧ listed.1 ≠ entry.1) ∨
    (∃ value, (entry.1, value) ∈ known ∧ listed = (entry.1, max value entry.2)) ∨
    (entry.1 ∉ known.map Prod.fst ∧ listed = entry) := by
  induction known with
  | nil => exact .inr (.inr ⟨not_mem_nil, mem_singleton.1 mem⟩)
  | cons first rest ih =>
    unfold record at mem
    rw [map_cons, nodup_cons] at nodup
    split_ifs at mem with same
    · rcases mem_cons.1 mem with rfl | mem
      · exact .inr (.inl ⟨first.2, by simp [← same], by simp [← same]⟩)
      · refine .inl ⟨mem_cons_of_mem _ mem, fun eq => nodup.1 ?_⟩
        rw [same, ← eq]
        exact mem_map_of_mem mem
    · rcases mem_cons.1 mem with rfl | mem
      · exact .inl ⟨mem_cons_self, same⟩
      · rcases ih nodup.2 mem with ⟨old, other⟩ | ⟨value, old, eq⟩ | ⟨fresh, eq⟩
        · exact .inl ⟨mem_cons_of_mem _ old, other⟩
        · exact .inr (.inl ⟨value, mem_cons_of_mem _ old, eq⟩)
        · refine .inr (.inr ⟨?_, eq⟩)
          rw [map_cons, mem_cons]
          exact fun h => h.elim (fun h => same h.symm) fresh

theorem tracks_record (h : Tracks known entries) (entry : κ × τ) :
    Tracks (record known entry) (entries ∪ {entry}) where
  nodup := nodup_record h.nodup entry
  isMax listed mem := by
    rcases mem_record h.nodup mem with ⟨old, other⟩ | ⟨value, old, rfl⟩ | ⟨fresh, rfl⟩
    · obtain ⟨present, largest⟩ := h.isMax listed old
      refine ⟨.inl present, fun v hv => hv.elim (largest v) fun eq => ?_⟩
      exact absurd (congrArg Prod.fst eq) other
    · obtain ⟨present, largest⟩ := h.isMax _ old
      constructor
      · rcases max_choice value entry.2 with eq | eq
        · rw [eq]
          exact .inl present
        · rw [eq]
          exact .inr rfl
      · rintro v (hv | eq)
        · exact le_max_of_le_left (largest v hv)
        · exact (congrArg Prod.snd eq).trans_le (le_max_right _ _)
    · refine ⟨.inr rfl, fun v hv => hv.elim (fun hv => ?_) fun eq => ?_⟩
      · obtain ⟨value, listed⟩ := h.complete _ hv
        exact absurd (mem_map_of_mem listed) fresh
      · exact (congrArg Prod.snd eq).le
  complete := by
    rintro e (he | rfl)
    · obtain ⟨value, listed⟩ := h.complete e he
      have key := (keys_record known entry e.1).2 (.inl (mem_map.2 ⟨_, listed, rfl⟩))
      obtain ⟨⟨_, v⟩, hv, rfl⟩ := mem_map.1 key
      exact ⟨v, hv⟩
    · obtain ⟨⟨_, v⟩, hv, eq⟩ := mem_map.1 ((keys_record known e e.1).2 (.inr rfl))
      exact ⟨v, by rwa [← eq]⟩

/-- **Collecting entries tracks them too.** -/
theorem tracks_collect (h : Tracks known entries) (more : List (κ × τ)) :
    Tracks (collect known more) (entries ∪ {e | e ∈ more}) := by
  induction more generalizing known entries with
  | nil => simpa [collect] using h
  | cons entry more ih =>
    have eq : entries ∪ {e | e ∈ entry :: more} = entries ∪ {entry} ∪ {e | e ∈ more} := by
      ext e
      simp [or_left_comm, or_assoc]
    rw [eq]
    exact ih (tracks_record h entry)

omit [DecidableEq κ] in
theorem tracks_nil : Tracks ([] : List (κ × τ)) ∅ := ⟨nodup_nil, nofun, nofun⟩

/-- **Collecting what a map tracks is as good as collecting its entries.** -/
theorem tracks_collect_trans {grouped : List (κ × τ)} {more : Set (κ × τ)}
    (h : Tracks known entries) (group : Tracks grouped more) :
    Tracks (collect known grouped) (entries ∪ more) := by
  have collected := tracks_collect h grouped
  refine ⟨collected.nodup, fun entry mem => ?_, ?_⟩
  · obtain ⟨present, largest⟩ := collected.isMax entry mem
    refine ⟨present.imp_right fun h => (group.isMax _ h).1, fun value hv => ?_⟩
    rcases hv with hv | hv
    · exact largest value (.inl hv)
    · obtain ⟨top, listed⟩ := group.complete _ hv
      exact ((group.isMax _ listed).2 value hv).trans (largest top (.inr listed))
  · rintro entry (he | he)
    · exact collected.complete entry (.inl he)
    · obtain ⟨top, listed⟩ := group.complete entry he
      exact collected.complete (entry.1, top) (.inr listed)

end MaxByKey
