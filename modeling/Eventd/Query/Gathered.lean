import Eventd.Lib.StableSort
import Eventd.Query.Evaluate

/-!
# Sorted results

`Gathered::add`, `sort_rows` and `apply_pagination` of `eventd/src/query/executor.rs`: a query with
SORT gathers its rows and sorts them.  With TAKE it needs only the best SKIP + TAKE, and drops the
others now and then.

* `rowCmp`, `sortRows`: the order of rows, SORT keys first, then time and place;
* `applyPagination`, `arrange`: SKIP and TAKE of the sorted rows;
* `gatheredAdd`, `gather`: the rows of a stream, trimmed as they come;
* `best_foldlM`: what is kept has the best rows of the stream;
* `pages_tile`: one page after the other.

Sizes are `usize`s of `w` bits.  A vector of rows is never longer than `isize::MAX`: one push more
stops the thread.
-/

namespace Eventd

open List StableSort

/-! ### The order of rows -/

section Compare

variable (text : DebugText)

/-- How two records compare by one SORT key. -/
def keyCmp (key : SortKey) (left right : Record) : Ordering :=
  let ordering := (valueOf left key.field).languageCmp text (valueOf right key.field)
  if key.descending then ordering.swap else ordering

/-- The first SORT key that tells two records apart. -/
def sortKeysCmp : List SortKey → Record → Record → Ordering
  | [], _, _ => .eq
  | key :: keys, left, right => (keyCmp text key left right).then (sortKeysCmp keys left right)

/-- Shards in order, and the later record of a table first. -/
def tieCmp : Tie → Tie → Ordering
  | .event leftShard leftId, .event rightShard rightId =>
    (compare leftShard rightShard).then (compare rightId leftId)
  | .single left, .single right => compare right left
  | .event .., .single _ => .lt
  | .single _, .event .. => .gt

def rowCmp (keys : List SortKey) (left right : RecordRow) : Ordering :=
  (sortKeysCmp text keys left.record right.record).then
    ((compare right.time left.time).then (tieCmp left.tie right.tie))

/-- Whether a row does not come after another. -/
def rowLE (keys : List SortKey) (left right : RecordRow) : Prop :=
  (rowCmp text keys left right).isLE = true

instance (keys : List SortKey) : DecidableRel (rowLE text keys) :=
  fun left right => inferInstanceAs (Decidable ((rowCmp text keys left right).isLE = true))

/-- A stable sort. -/
def sortRows (query : Query) (rows : List RecordRow) : List RecordRow :=
  rows.insertionSort (rowLE text query.sort)

end Compare

/-! ### Pages -/

/-- SKIP and TAKE; a number that is no `usize` is larger than every list. -/
def applyPagination {α : Type} (w : ℕ) (query : Query) (rows : List α) : List α :=
  let skip := min (if query.skip < 2 ^ w then query.skip else 2 ^ w - 1) rows.length
  let rows := rows.drop skip
  match query.take.filter fun take => decide (take < 2 ^ w) with
  | some take => rows.take take
  | none => rows

/-- The result of a query that has gathered some rows. -/
def arrange (text : DebugText) (w : ℕ) (query : Query) (rows : List RecordRow) : List RecordRow :=
  applyPagination w query (sortRows text query rows)

/-! ### Gathering -/

def trimAt : ℕ := 1024

/-- How many rows of a sorted query matter. -/
def keepRows (w : ℕ) (query : Query) : Option ℕ :=
  query.take.bind fun take =>
    let total := min (take + query.skip) u64Max
    if total < 2 ^ w then some total else none

/-- The longest vector of rows. -/
def maxRows (w : ℕ) : ℕ := 2 ^ (w - 1) - 1

/-- From how many rows on a query trims. -/
def trimFrom (w keep : ℕ) : ℕ := max (min (keep * 2) (2 ^ w - 1)) trimAt

/-- One row more.  `grants` is what the shared budget answers, when the row is added and when the
rows have been trimmed. -/
def gatheredAdd (text : DebugText) (w : ℕ) (query : Query) (keep : Option ℕ) (rows : List RecordRow)
    (row : RecordRow) (grants : Bool × Bool) : Outcome (List RecordRow) :=
  if grants.1 = false then settled (.error .heldLimit)
  else if maxRows w ≤ rows.length then ExceptT.mk none
  else
    let rows := rows ++ [row]
    match keep with
    | none => settled (.ok rows)
    | some keep =>
      if trimFrom w keep ≤ rows.length then
        if grants.2 = false then settled (.error .heldLimit)
        else settled (.ok ((sortRows text query rows).take keep))
      else settled (.ok rows)

/-- The rows of a stream, each with the answers of the budget. -/
def gather (text : DebugText) (w : ℕ) (query : Query) (stream : List (RecordRow × Bool × Bool)) :
    Outcome (List RecordRow) :=
  stream.foldlM (fun rows entry =>
    gatheredAdd text w query (keepRows w query) rows entry.1 entry.2) []

/-! ### The order is total -/

section Order

variable {text : DebugText}

instance (key : SortKey) : Std.TransCmp (keyCmp text key) := by
  have plain : Std.TransCmp fun left right : Record =>
      (valueOf left key.field).languageCmp text (valueOf right key.field) :=
    { eq_swap := Std.OrientedCmp.eq_swap
      isLE_trans := Std.TransCmp.isLE_trans }
  have eq : keyCmp text key = if key.descending then
      fun left right : Record => (valueOf right key.field).languageCmp text (valueOf left key.field)
      else fun left right => (valueOf left key.field).languageCmp text (valueOf right key.field) := by
    funext left right
    unfold keyCmp
    split_ifs
    · exact Std.OrientedCmp.eq_swap.symm
    · rfl
  rw [eq]
  split_ifs
  · exact plain.opposite
  · exact plain

instance (keys : List SortKey) : Std.TransCmp (sortKeysCmp text keys) := by
  induction keys with
  | nil => exact { eq_swap := rfl, isLE_trans := fun _ _ => rfl }
  | cons key keys ih =>
    exact inferInstanceAs (Std.TransCmp (compareLex (keyCmp text key) (sortKeysCmp text keys)))

/-- Records of shards come before those of a single table. -/
def Tie.kind : Tie → ℕ
  | .event .. => 0
  | .single _ => 1

def Tie.shard : Tie → ℕ
  | .event shard _ => shard
  | .single _ => 0

def Tie.id : Tie → ℤ
  | .event _ id => id
  | .single id => id

theorem tieCmp_eq (a b : Tie) :
    tieCmp a b = (compare a.kind b.kind).then ((compare a.shard b.shard).then (compare b.id a.id)) := by
  cases a <;> cases b <;> rfl

instance : Std.TransCmp tieCmp := by
  have eq : tieCmp = compareLex (compareOn Tie.kind)
      (compareLex (compareOn Tie.shard) fun a b => compareOn Tie.id b a) :=
    funext fun a => funext fun b => tieCmp_eq a b
  have later : Std.TransCmp fun a b : Tie => compareOn Tie.id b a := Std.TransCmp.opposite
  rw [eq]
  infer_instance

theorem eq_of_tieCmp {a b : Tie} (same : tieCmp a b = .eq) : a = b := by
  rw [tieCmp_eq, Ordering.then_eq_eq, Ordering.then_eq_eq] at same
  simp only [Std.LawfulEqCmp.compare_eq_iff_eq] at same
  cases a <;> cases b <;> simp_all [Tie.kind, Tie.shard, Tie.id]

instance (keys : List SortKey) : Std.TransCmp (rowCmp text keys) := by
  have newest : Std.TransCmp fun left right : RecordRow => compare right.time left.time :=
    (inferInstance : Std.TransCmp (compareOn RecordRow.time)).opposite
  have records : Std.TransCmp fun left right : RecordRow =>
      sortKeysCmp text keys left.record right.record :=
    { eq_swap := Std.OrientedCmp.eq_swap
      isLE_trans := Std.TransCmp.isLE_trans }
  have ties : Std.TransCmp fun left right : RecordRow => tieCmp left.tie right.tie :=
    { eq_swap := Std.OrientedCmp.eq_swap
      isLE_trans := Std.TransCmp.isLE_trans }
  exact inferInstanceAs (Std.TransCmp (compareLex
    (fun left right : RecordRow => sortKeysCmp text keys left.record right.record)
    (compareLex (fun left right => compare right.time left.time)
      fun left right => tieCmp left.tie right.tie)))

instance (keys : List SortKey) : Std.Total (rowLE text keys) where
  total left right := by
    have swap : rowCmp text keys right left = (rowCmp text keys left right).swap :=
      Std.OrientedCmp.eq_swap
    unfold rowLE
    rw [swap]
    cases rowCmp text keys left right <;> decide

instance (keys : List SortKey) : IsTrans RecordRow (rowLE text keys) where
  trans _ _ _ := Std.TransCmp.isLE_trans

/-- The order tells rows of different places apart. -/
theorem tie_eq_of_rowLE {keys : List SortKey} {left right : RecordRow}
    (le : rowLE text keys left right) (ge : rowLE text keys right left) : left.tie = right.tie := by
  have same : rowCmp text keys left right = .eq := by
    have swap : rowCmp text keys right left = (rowCmp text keys left right).swap :=
      Std.OrientedCmp.eq_swap
    unfold rowLE at le ge
    rw [swap] at ge
    revert le ge
    cases rowCmp text keys left right <;> decide
  unfold rowCmp at same
  rw [Ordering.then_eq_eq, Ordering.then_eq_eq] at same
  exact eq_of_tieCmp same.2.2

end Order

/-! ### What is gathered -/

section Gather

variable {text : DebugText} {w : ℕ} {query : Query} {keep : Option ℕ} {rows rows' : List RecordRow}
  {stream : List (RecordRow × Bool × Bool)}

/-- What a row more can do. -/
theorem gatheredAdd_cases {row : RecordRow} {grants : Bool × Bool}
    (ok : gatheredAdd text w query keep rows row grants = settled (.ok rows')) :
    rows.length < maxRows w ∧ (rows' = rows ++ [row] ∨ ∃ k, keep = some k ∧
      trimFrom w k ≤ rows.length + 1 ∧ rows' = best (rowLE text query.sort) k (rows ++ [row])) := by
  unfold gatheredAdd at ok
  by_cases refused : grants.1 = false
  · rw [if_pos refused] at ok
    cases ok
  by_cases full : maxRows w ≤ rows.length
  · rw [if_neg refused, if_pos full] at ok
    cases ok
  rw [if_neg refused, if_neg full] at ok
  refine ⟨not_le.1 full, ?_⟩
  cases keep with
  | none =>
    cases ok
    exact .inl rfl
  | some k =>
    dsimp only at ok
    by_cases trims : trimFrom w k ≤ (rows ++ [row]).length
    · rw [if_pos trims] at ok
      split_ifs at ok
      · cases ok
      · cases ok
        exact .inr ⟨k, rfl, by simpa using trims, rfl⟩
    · rw [if_neg trims] at ok
      cases ok
      exact .inl rfl

/-- Whatever has the best of the rows so far has the best of the stream in the end. -/
theorem best_foldlM {k : ℕ} {seen : List RecordRow}
    (same : best (rowLE text query.sort) k rows = best (rowLE text query.sort) k seen)
    (ok : stream.foldlM (fun rows entry => gatheredAdd text w query (some k) rows entry.1 entry.2)
      rows = settled (.ok rows')) :
    best (rowLE text query.sort) k rows' =
      best (rowLE text query.sort) k (seen ++ stream.map Prod.fst) := by
  induction stream generalizing rows seen with
  | nil =>
    cases ok
    simpa using same
  | cons entry stream ih =>
    rw [foldlM_cons] at ok
    obtain ⟨next, added, ok⟩ := bind_eq_settled_ok.1 ok
    have more : best (rowLE text query.sort) k next =
        best (rowLE text query.sort) k (seen ++ [entry.1]) := by
      rw [← best_append _ k seen, ← same, best_append]
      rcases (gatheredAdd_cases added).2 with rfl | ⟨k', eq, -, rfl⟩
      · rfl
      · cases eq
        exact best_best _ k _
    rw [ih more ok, map_cons, append_assoc]
    rfl

/-- A query that never has enough rows to trim gathers them all. -/
theorem untrimmed_foldlM (never : ∀ k, keep = some k → maxRows w < trimFrom w k)
    (ok : stream.foldlM (fun rows entry => gatheredAdd text w query keep rows entry.1 entry.2)
      rows = settled (.ok rows')) : rows' = rows ++ stream.map Prod.fst := by
  induction stream generalizing rows with
  | nil =>
    cases ok
    simp
  | cons entry stream ih =>
    rw [foldlM_cons] at ok
    obtain ⟨next, added, ok⟩ := bind_eq_settled_ok.1 ok
    have all : next = rows ++ [entry.1] := by
      obtain ⟨room, eq | ⟨k, eq, trims, -⟩⟩ := gatheredAdd_cases added
      · exact eq
      · exact absurd (never k eq) (by omega)
    rw [ih ok, all, map_cons, append_assoc]
    rfl

/-- The rows that matter, or nothing to trim. -/
theorem keepRows_cases (narrow : w ≤ 64) :
    (∃ take, query.take = some take ∧ keepRows w query = some (query.skip + take) ∧
      query.skip < 2 ^ w ∧ take < 2 ^ w) ∨
    ∀ k, keepRows w query = some k → maxRows w < trimFrom w k := by
  unfold keepRows
  cases query.take with
  | none => exact .inr nofun
  | some take =>
    simp only [Option.bind_some]
    split_ifs with fits
    · rcases le_or_gt (take + query.skip) u64Max with whole | saturated
      · rw [min_eq_left whole] at fits ⊢
        exact .inl ⟨take, rfl, by rw [Nat.add_comm], by omega, by omega⟩
      · -- only the widest `usize` has room for the largest number, and no vector is so long
        rw [min_eq_right saturated.le] at fits ⊢
        refine .inr fun k eq => ?_
        obtain rfl := Option.some.inj eq
        have wide : w = 64 := by
          by_contra other
          have : 2 ^ w ≤ 2 ^ 63 := Nat.pow_le_pow_right (by decide) (by omega)
          unfold u64Max at fits
          omega
        subst wide
        decide
    · exact .inr nofun

/-- A page of sorted rows needs only the best SKIP + TAKE. -/
theorem arrange_eq {take : ℕ} (given : query.take = some take) (skips : query.skip < 2 ^ w)
    (takes : take < 2 ^ w) :
    arrange text w query rows =
      (best (rowLE text query.sort) (query.skip + take) rows).drop query.skip := by
  have all (l : List RecordRow) : l.drop (min query.skip l.length) = l.drop query.skip := by
    rcases le_total query.skip l.length with le | le
    · rw [min_eq_left le]
    · rw [min_eq_right le, drop_length, drop_of_length_le le]
  have page : query.take.filter (fun take => decide (take < 2 ^ w)) = some take := by
    rw [given, Option.filter_some, if_pos (decide_eq_true takes)]
  simp only [arrange, applyPagination, page, if_pos skips, all]
  rw [best, drop_take, Nat.add_sub_cancel_left]
  rfl

theorem gatheredAdd_ok (row : RecordRow) (room : rows.length < maxRows w) :
    ∃ next, gatheredAdd text w query keep rows row (true, true) = settled (.ok next) ∧
      next.length ≤ rows.length + 1 := by
  unfold gatheredAdd
  rw [if_neg (by simp), if_neg (not_le.2 room)]
  cases keep with
  | none => exact ⟨_, rfl, by simp⟩
  | some k =>
    dsimp only
    split_ifs with trims refused
    · cases refused
    · refine ⟨_, rfl, ?_⟩
      rw [length_take, sortRows, length_insertionSort]
      simp
    · exact ⟨_, rfl, by simp⟩

/-- Gathering succeeds if the budget never refuses and a vector is long enough for every row. -/
theorem foldlM_ok (granted : ∀ entry ∈ stream, entry.2 = (true, true))
    (short : rows.length + stream.length ≤ maxRows w) :
    ∃ rows', stream.foldlM (fun rows entry =>
      gatheredAdd text w query keep rows entry.1 entry.2) rows = settled (.ok rows') := by
  induction stream generalizing rows with
  | nil => exact ⟨rows, rfl⟩
  | cons entry stream ih =>
    rw [length_cons] at short
    have both := granted entry mem_cons_self
    have room : rows.length < maxRows w := by omega
    obtain ⟨next, added, longer⟩ : ∃ next, gatheredAdd text w query keep rows entry.1 (true, true) =
        settled (.ok next) ∧ next.length ≤ rows.length + 1 := gatheredAdd_ok entry.1 room
    rw [foldlM_cons, both, added, settled_ok_bind]
    exact ih (fun other mem => granted other (mem_cons_of_mem _ mem)) (by omega)

theorem arrange_gather (narrow : w ≤ 64) (ok : gather text w query stream = settled (.ok rows)) :
    arrange text w query rows = arrange text w query (stream.map Prod.fst) := by
  unfold gather at ok
  rcases keepRows_cases narrow with ⟨take, given, kept, skips, takes⟩ | never
  · rw [kept] at ok
    rw [arrange_eq given skips takes, arrange_eq given skips takes, best_foldlM rfl ok]
    rfl
  · rw [untrimmed_foldlM never ok]
    rfl

/-- Rows of different places are shown in the same order whatever order they came in. -/
theorem arrange_eq_of_perm {first second : List RecordRow} (perm : first.Perm second)
    (apart : (first.map RecordRow.tie).Nodup) :
    arrange text w query first = arrange text w query second := by
  have sorted : sortRows text query first = sortRows text query second :=
    insertionSort_perm _ perm fun a memA b memB le ge =>
      inj_on_of_nodup_map apart memA memB (tie_eq_of_rowLE le ge)
  unfold arrange
  rw [sorted]

/-- **Trimming is invisible**: what a query with SORT shows is what it would show if it kept every
row, and does not depend on the order in which the rows came. -/
theorem trimming_invisible (text : DebugText) {w : ℕ} (narrow : w ≤ 64) (query : Query)
    (stream : List (RecordRow × Bool × Bool)) :
    ((∀ entry ∈ stream, entry.2 = (true, true)) → stream.length ≤ maxRows w →
      ∃ rows, gather text w query stream = settled (.ok rows)) ∧
    ∀ rows, gather text w query stream = settled (.ok rows) →
      arrange text w query rows = arrange text w query (stream.map Prod.fst) ∧
      (((stream.map Prod.fst).map RecordRow.tie).Nodup → ∀ stream' rows',
        (stream'.map Prod.fst).Perm (stream.map Prod.fst) →
        gather text w query stream' = settled (.ok rows') →
        arrange text w query rows' = arrange text w query rows) := by
  refine ⟨fun granted short => foldlM_ok granted (by simpa using short), fun rows ok => ?_⟩
  have kept := arrange_gather narrow ok
  refine ⟨kept, fun apart stream' rows' perm ok' => ?_⟩
  rw [arrange_gather narrow ok', kept, arrange_eq_of_perm perm.symm apart]

/-- The row after the first, by the field `n`. -/
def secondByField : Query where
  source := .events none
  since := none
  until_ := none
  predicates := []
  crossFilters := []
  sort := [⟨"n", true⟩]
  take := some 1
  skip := 1
  select := []
  aggregate := none
  transform := none
  metricAggregate := none
  stream := false
  index := none

/-- As many events as make a query trim. -/
def manyRows : List (RecordRow × Bool × Bool) :=
  (range trimAt).map fun i =>
    ({ identifier := "a", record := [("n", .signed (.ofNat i))], time := i, tie := .event 0 i },
      true, true)

/-- Two rows are kept of those that come, in either order. -/
theorem trimming_invisible_manyRows : ∃ rows rows',
    (keepRows 64 secondByField).map (trimFrom 64) = some manyRows.length ∧
      gather default 64 secondByField manyRows = settled (.ok rows) ∧
      gather default 64 secondByField manyRows.reverse = settled (.ok rows') ∧
      arrange default 64 secondByField rows' = arrange default 64 secondByField rows := by
  have count : manyRows.length = trimAt := by simp [manyRows]
  have granted : ∀ entry ∈ manyRows, entry.2 = (true, true) := by simp [manyRows]
  have apart : ((manyRows.map Prod.fst).map RecordRow.tie).Nodup := by
    simp only [manyRows, map_map]
    exact nodup_range.map fun i j eq => by simpa using eq
  obtain ⟨total, invisible⟩ := trimming_invisible default (le_refl 64) secondByField manyRows
  obtain ⟨total', -⟩ := trimming_invisible default (le_refl 64) secondByField manyRows.reverse
  obtain ⟨rows, ok⟩ := total granted (by rw [count]; decide)
  obtain ⟨rows', ok'⟩ := total' (by simpa using granted) (by rw [length_reverse, count]; decide)
  have perm := (reverse_perm manyRows).map Prod.fst
  exact ⟨rows, rows', by rw [count]; rfl, ok, ok', (invisible rows ok).2 apart _ _ perm ok'⟩

/-! ### One page after the other -/

/-- The query for one of the pages of `take` rows. -/
def Query.page (query : Query) (take i : ℕ) : Query :=
  { query with take := some take, skip := i * take }

theorem arrange_page {take i : ℕ} (fits : i * take + take < 2 ^ w) :
    arrange text w (query.page take i) rows =
      ((sortRows text query rows).drop (i * take)).take take := by
  rw [arrange_eq rfl (show i * take < 2 ^ w by omega) (by omega)]
  exact (drop_take ..).trans (by rw [Nat.add_sub_cancel_left]; rfl)

/-- **Pages tile the result.**  A query that is sent again and again for the next `take` rows, and
meets the same records in any order, shows each row once, whatever it trims. -/
theorem pages_tile (text : DebugText) {w : ℕ} (narrow : w ≤ 64) (query : Query)
    {rows : List RecordRow} (apart : (rows.map RecordRow.tie).Nodup) {take pages : ℕ}
    (fits : pages * take < 2 ^ w) {streams : ℕ → List (RecordRow × Bool × Bool)}
    (same : ∀ i < pages, rows.Perm ((streams i).map Prod.fst)) {kept : ℕ → List RecordRow}
    (ok : ∀ i < pages, gather text w (query.page take i) (streams i) = settled (.ok (kept i))) :
    (range pages).flatMap (fun i => arrange text w (query.page take i) (kept i)) =
      (sortRows text query rows).take (pages * take) := by
  induction pages with
  | zero => simp
  | succ pages ih =>
    have last := Nat.lt_succ_self pages
    rw [Nat.succ_mul] at fits ⊢
    rw [range_succ, flatMap_append, flatMap_singleton, arrange_gather narrow (ok pages last),
      ← arrange_eq_of_perm (same pages last) apart, arrange_page fits, take_add,
      ih (by omega) (fun i lt => same i (lt.trans last)) fun i lt => ok i (lt.trans last)]

/-- Two events of a shard, one of them with the field. -/
def twoRows : List (RecordRow × Bool × Bool) :=
  [({ identifier := "a", record := [], time := 1, tie := .event 0 1 }, true, true),
    ({ identifier := "a", record := [("n", .bool true)], time := 2, tie := .event 0 2 }, true, true)]

/-- Two pages of a row each. -/
theorem pages_tile_twoRows : ∃ kept : ℕ → List RecordRow,
    (range 2).flatMap (fun i => arrange default 64 (secondByField.page 1 i) (kept i)) =
      (sortRows default secondByField (twoRows.map Prod.fst)).take (2 * 1) :=
  ⟨_, pages_tile default (le_refl 64) secondByField (by decide) (by decide)
    (fun _ _ => Perm.refl _) fun i lt => (by interval_cases i <;> rfl :
      gather default 64 (secondByField.page 1 i) twoRows = settled (.ok (twoRows.map Prod.fst)))⟩

end Gather

end Eventd
