import Mathlib.Tactic

/-!
# Tables whose rows are numbered by insertion

A table with an integer key that the database assigns: a new row gets the largest
present key plus one, or one if the table is empty.  Rows are kept in the order of
their keys, which is then also the order of insertion.  Deleting the last rows
frees their keys for the next insertion, so a key identifies a row only among the
rows present at one time.

* `RowTable`, `insert`, `delete`: the table and its two operations;
* `maxId`, `le_maxId`: the largest present key, zero for an empty table;
* `eq_of_id_eq`: present rows with one key are one row.
-/

/-- A table of rows numbered in insertion order. -/
structure RowTable (α : Type*) where
  rows : List (ℕ × α)
  sorted : rows.Pairwise fun a b => a.1 < b.1
  pos : ∀ row ∈ rows, 0 < row.1

namespace RowTable

open List

variable {α : Type*}

/-- The table without rows. -/
def empty : RowTable α := ⟨[], List.Pairwise.nil, by simp⟩

@[simp] theorem rows_empty : (empty : RowTable α).rows = [] := rfl

/-- The largest present key, or zero. -/
def maxId (table : RowTable α) : ℕ := (table.rows.getLast?.map Prod.fst).getD 0

theorem le_maxId (table : RowTable α) {row : ℕ × α} (mem : row ∈ table.rows) :
    row.1 ≤ table.maxId := by
  obtain ⟨front, last, eq⟩ : ∃ front last, table.rows = front ++ [last] := by
    rcases eq_nil_or_concat table.rows with nil | ⟨front, last, eq⟩
    · simp [nil] at mem
    · exact ⟨front, last, by simpa using eq⟩
  have sorted := table.sorted
  rw [eq, pairwise_append] at sorted
  rw [maxId, eq, List.getLast?_append]
  rw [eq, mem_append, mem_singleton] at mem
  rcases mem with mem | rfl
  · exact (sorted.2.2 row mem last mem_cons_self).le
  · exact le_rfl

/-- Append a row under the next key. -/
def insert (table : RowTable α) (value : α) : RowTable α where
  rows := table.rows ++ [(table.maxId + 1, value)]
  sorted := by
    rw [pairwise_append]
    refine ⟨table.sorted, pairwise_singleton _ _, fun a ha b hb => ?_⟩
    rw [mem_singleton.1 hb]
    exact Nat.lt_succ_of_le (table.le_maxId ha)
  pos row mem := by
    rcases mem_append.1 mem with mem | mem
    · exact table.pos row mem
    · rw [mem_singleton.1 mem]
      exact Nat.succ_pos _

@[simp] theorem rows_insert (table : RowTable α) (value : α) :
    (table.insert value).rows = table.rows ++ [(table.maxId + 1, value)] := rfl

@[simp] theorem maxId_insert (table : RowTable α) (value : α) :
    (table.insert value).maxId = table.maxId + 1 := by
  simp [maxId]

/-- Delete the rows that satisfy a condition. -/
def delete (table : RowTable α) (condition : ℕ × α → Bool) : RowTable α where
  rows := table.rows.filter fun row => !condition row
  sorted := table.sorted.filter _
  pos row mem := table.pos row (mem_filter.1 mem).1

@[simp] theorem rows_delete (table : RowTable α) (condition : ℕ × α → Bool) :
    (table.delete condition).rows = table.rows.filter fun row => !condition row := rfl

theorem nodup_ids (table : RowTable α) : (table.rows.map Prod.fst).Nodup :=
  (table.sorted.imp fun h => h.ne).map Prod.fst fun _ _ h => h

theorem eq_of_id_eq (table : RowTable α) {a b : ℕ × α} (ha : a ∈ table.rows)
    (hb : b ∈ table.rows) (same : a.1 = b.1) : a = b :=
  inj_on_of_nodup_map table.nodup_ids ha hb same

end RowTable
