import Eventd.Query.Stream

/-!
# What a stream hands over

Which of the records committed while a stream runs reach it, whatever the writers and
retention do between its reads.

* `mem_scanTable`: the rows found in one table;
* `World.Sound.step`: in every run, no record is handed over twice;
* `Tracked.Follows`: one stored record, from its commit on.
-/

namespace Eventd

open Fallible Function List

variable {V τ : Type} {n : ℕ} {query : RecordQuery n V} {authorizer : Authorizer τ}

/-! ### The rows of one table -/

section Scan

variable {bounds : Bounds} {lower upper : ℕ} {material : List String} {shard : Fin n}
  {table : RowTable (Stored V)}

/-- A query wants a record if its source and its predicates hold of it, the caller may read
it, and nothing pushed down to SQLite leaves it out. -/
structure Wanted (query : RecordQuery n V) (authorizer : Authorizer τ) (record : Stored V) :
    Prop where
  selected : query.selects record.row.identifier = true
  granted : authorizer.mayRead query.source record.row.identifier query.referenced = .ok true
  asked : query.asks record.row = true
  shown : ∃ kept, authorizeRow authorizer query.source record.row query.referenced = .ok (some kept) ∧
    query.predicates kept.record = true
  pushed : ∀ material, query.pushed material record = true
  before : record.time < i64Max

variable {row : ℕ × Stored V}

theorem visit_sublist {rows : List (Found n V)}
    (h : visit query authorizer bounds shard row = .ok rows) :
    (rows.map Found.serial).Sublist [row.2.serial] := by
  unfold visit at h
  split_ifs at h
  · obtain rfl := Except.ok.inj h
    exact nil_sublist _
  · obtain ⟨kept, -, h⟩ := bind_eq_ok.1 h
    cases kept with
    | none =>
      obtain rfl := Except.ok.inj h
      exact nil_sublist _
    | some kept =>
      dsimp only at h
      split_ifs at h
      · obtain rfl := Except.ok.inj h
        exact nil_sublist _
      · obtain rfl := Except.ok.inj h
        exact List.Sublist.refl _
  · obtain rfl := Except.ok.inj h
    exact nil_sublist _

theorem mem_visit (wanted : Wanted query authorizer row.2)
    (allowed : row.2.row.identifier ∈ bounds.allowed) {rows : List (Found n V)}
    (h : visit query authorizer bounds shard row = .ok rows) :
    row.2.serial ∈ rows.map Found.serial := by
  obtain ⟨kept, shown, holds⟩ := wanted.shown
  unfold visit at h
  simp only [allowed, not_true_eq_false, if_false, wanted.asked, Bool.not_true, shown, bind,
    Except.bind, holds, Bool.false_eq_true, pure, Except.pure] at h
  obtain rfl := Except.ok.inj h
  exact mem_singleton_self _

/-- A scan finds each row at most once, in order, and only rows that are handed over. -/
theorem scanTable_sublist {more : List (Found n V)}
    (h : scanTable query authorizer bounds lower upper material shard table = .ok more) :
    (more.map Found.serial).Sublist
      ((table.rows.filter (handsOver query bounds lower upper material)).map
        fun row => row.2.serial) := by
  refine foldlM_invariant
    (fun (done : List (ℕ × Stored V)) rows =>
      (rows.map Found.serial).Sublist (done.map fun row => row.2.serial)) ?_ (nil_sublist _) h
  intro done row rows rows' ih turn
  obtain ⟨more, visited, turn⟩ := bind_eq_ok.1 turn
  obtain rfl := Except.ok.inj turn
  rw [map_append, map_append]
  exact ih.append (visit_sublist visited)

/-- A scan finds every wanted row that is handed over and whose identifier may be read. -/
theorem mem_scanTable {more : List (Found n V)}
    (h : scanTable query authorizer bounds lower upper material shard table = .ok more)
    (mem : row ∈ table.rows) (hands : handsOver query bounds lower upper material row = true)
    (wanted : Wanted query authorizer row.2) (allowed : row.2.row.identifier ∈ bounds.allowed) :
    row.2.serial ∈ more.map Found.serial := by
  have all := foldlM_invariant
    (fun (done : List (ℕ × Stored V)) rows => row ∈ done → row.2.serial ∈ rows.map Found.serial)
    (fun done other rows rows' ih turn inside => ?_) (fun mem => absurd mem not_mem_nil) h
  · exact all (mem_filter.2 ⟨mem, hands⟩)
  · obtain ⟨more, visited, turn⟩ := bind_eq_ok.1 turn
    obtain rfl := Except.ok.inj turn
    rw [map_append, mem_append]
    rcases mem_append.1 inside with before | last
    · exact .inl (ih before)
    · obtain rfl := mem_singleton.1 last
      exact .inr (mem_visit wanted allowed visited)

theorem handsOver_iff :
    handsOver query bounds lower upper material row = true ↔
      bounds.since ≤ row.2.time ∧ row.2.time < bounds.until_ ∧ lower < row.1 ∧ row.1 ≤ upper ∧
        query.pushed material row.2 = true := by
  simp [handsOver, and_assoc]

end Scan

/-- Arranging a result adds no record and repeats none. -/
theorem arrange_subperm (watch : Bool) (rows : List (Found n V)) :
    ((query.arrange watch rows).map Found.serial).Subperm (rows.map Found.serial) := by
  unfold RecordQuery.arrange
  split_ifs
  · exact List.Subperm.refl _
  · have sorted := perm_insertionSort (fun a b => query.order a b = true) rows
    refine List.Subperm.trans ?_ (sorted.map Found.serial).subperm
    cases query.take with
    | none => exact ((drop_sublist _ _).map _).subperm
    | some take => exact (((take_sublist _ _).trans (drop_sublist _ _)).map _).subperm

@[simp] theorem serial_project (found : Found n V) : (query.project found).serial = found.serial := by
  unfold RecordQuery.project
  split_ifs <;> rfl

/-- Without pages, arranging a result loses no record. -/
theorem arrange_perm (plain : query.skip = 0 ∧ query.take = none) (watch : Bool)
    (rows : List (Found n V)) : (query.arrange watch rows).Perm rows := by
  unfold RecordQuery.arrange
  split_ifs
  · exact List.Perm.refl rows
  · simp only [plain, drop_zero, Option.elim_none]
    exact perm_insertionSort _ rows

theorem serials_project (rows : List (Found n V)) :
    (rows.map query.project).map Found.serial = rows.map Found.serial := by
  rw [map_map]
  exact map_congr_left fun found _ => serial_project found

/-! ### What a read can do -/

/-- Everything that the next read of a pass can do to a stream. -/
inductive Advanced (query : RecordQuery n V) (authorizer : Authorizer τ)
    (tables : Fin n → RowTable (Stored V)) (committed : ℕ) (material : List String)
    (reader : Reader n V) : Reader n V → Prop
  | idle : Advanced query authorizer tables committed material reader reader
  | capture {upper : Fin n → ℕ} {shard : Fin n} (phase : reader.stage = .capturing upper shard) :
      Advanced query authorizer tables committed material reader
        (reader.capture (tables shard) committed upper shard)
  | unchanged {upper : Fin n → ℕ} {next : ℕ} (phase : reader.stage = .capturing upper next)
      (all : n ≤ next) (watch : reader.watch = true) (same : upper = reader.cursor) :
      Advanced query authorizer tables committed material reader
        { reader with stage := .rest, completed := reader.completed + 1 }
  | look {upper : Fin n → ℕ} {next : ℕ} {since until_ : ℤ}
      (phase : reader.stage = .capturing upper next) (all : n ≤ next)
      (range : timeRange query.since query.until_ reader.evaluation = some (since, until_)) :
      Advanced query authorizer tables committed material reader
        { reader with
          stage := .discovering upper since (if reader.watch then i64Max else until_) [] 0 }
  | nothing {upper : Fin n → ℕ} {next : ℕ} {since until_ : ℤ}
      (phase : reader.stage = .capturing upper next) (all : n ≤ next)
      (range : timeRange query.since query.until_ reader.evaluation = some (since, until_))
      (empty : (if reader.watch then (i64Max : ℤ) else until_) ≤ since) :
      Advanced query authorizer tables committed material reader (reader.finish query upper [])
  | discover {upper : Fin n → ℕ} {since until_ : ℤ} {found : List String} {shard : Fin n}
      (phase : reader.stage = .discovering upper since until_ found shard) :
      Advanced query authorizer tables committed material reader
        { reader with
          stage := .discovering upper since until_ (found ++ query.discover (tables shard))
            (shard + 1) }
  | allow {upper : Fin n → ℕ} {since until_ : ℤ} {found : List String} {next : ℕ}
      (phase : reader.stage = .discovering upper since until_ found next) (all : n ≤ next)
      {allowed : List String}
      (ok : authorizer.authorizeIdentifiers query.source (found.insertionSort (· ≤ ·)).dedup
        query.referenced = .ok allowed) :
      Advanced query authorizer tables committed material reader
        { reader with stage := .scanning upper ⟨since, until_, allowed⟩ [] 0 }
  | scan {upper : Fin n → ℕ} {bounds : Bounds} {rows more : List (Found n V)} {shard : Fin n}
      (phase : reader.stage = .scanning upper bounds rows shard)
      (ok : scanTable query authorizer bounds (reader.cursor shard) (upper shard) material shard
        (tables shard) = .ok more) :
      Advanced query authorizer tables committed material reader
        { reader with stage := .scanning upper bounds (rows ++ more) (shard + 1) }
  | finish {upper : Fin n → ℕ} {bounds : Bounds} {rows : List (Found n V)} {next : ℕ}
      (phase : reader.stage = .scanning upper bounds rows next) (all : n ≤ next) :
      Advanced query authorizer tables committed material reader (reader.finish query upper rows)
  | fail : Advanced query authorizer tables committed material reader reader.fail

theorem advanced (tables : Fin n → RowTable (Stored V)) (committed : ℕ) (material : List String)
    (reader : Reader n V) :
    Advanced query authorizer tables committed material reader
      (reader.advance query authorizer tables committed material) := by
  unfold Reader.advance
  cases phase : reader.stage with
  | rest => exact .idle
  | failed => exact .idle
  | capturing upper next =>
    dsimp only
    split_ifs with lt
    · exact .capture phase
    · have all : n ≤ next := not_lt.1 lt
      unfold Reader.captured
      by_cases same : reader.watch = true ∧ upper = reader.cursor
      · rw [if_pos same]
        exact .unchanged phase all same.1 same.2
      · rw [if_neg same]
        cases range : timeRange query.since query.until_ reader.evaluation with
        | none => exact .fail
        | some bounds =>
          dsimp only
          by_cases empty : (if reader.watch then (i64Max : ℤ) else bounds.2) ≤ bounds.1
          · rw [if_pos empty]
            exact .nothing phase all range empty
          · rw [if_neg empty]
            exact .look phase all range
  | discovering upper since until_ found next =>
    dsimp only
    split_ifs with lt
    · exact .discover phase
    · unfold Reader.discovered
      split
      · exact .fail
      · next allowed ok => exact .allow phase (not_lt.1 lt) ok
  | scanning upper bounds rows next =>
    dsimp only
    split_ifs with lt
    · unfold Reader.scan
      split
      · exact .fail
      · next more ok => exact .scan phase ok
    · exact .finish phase (not_lt.1 lt)

/-! ### No record twice -/

namespace Stage

/-- The captured cursor of a table, once it is captured. -/
def upperAt : Stage n V → Fin n → Option ℕ
  | .capturing upper next, shard => if shard.val < next then some (upper shard) else none
  | .discovering upper _ _ _ _, shard => some (upper shard)
  | .scanning upper _ _ _, shard => some (upper shard)
  | .rest, _ => none
  | .failed, _ => none

/-- The rows found so far. -/
def gathered : Stage n V → List (Found n V)
  | .scanning _ _ rows _ => rows
  | _ => []

/-- Whether a table has been scanned. -/
def Scanned : Stage n V → Fin n → Prop
  | .scanning _ _ _ next, shard => shard.val < next
  | _, _ => False

end Stage

/-- The records in the tables are numbered apart. -/
structure Numbered (tables : Fin n → RowTable (Stored V)) (committed : ℕ) : Prop where
  lt : ∀ s, ∀ row ∈ (tables s).rows, row.2.serial < committed
  distinct : ∀ s, ∀ row ∈ (tables s).rows, ∀ s', ∀ row' ∈ (tables s').rows,
    row.2.serial = row'.2.serial → s = s' ∧ row = row'

/-- The numbers of the records handed over or about to be. -/
def Reader.handed (reader : Reader n V) : List ℕ :=
  (reader.emitted ++ reader.stage.gathered).map Found.serial

/-- If the record of a number is stored, its id is past by the cursor, and by the cursor
that the pass under way has captured. -/
def Reader.Behind (tables : Fin n → RowTable (Stored V)) (reader : Reader n V) (serial : ℕ) :
    Prop :=
  ∀ s, ∀ row ∈ (tables s).rows, row.2.serial = serial →
    row.1 ≤ reader.cursor s ∧ ∀ upper, reader.stage.upperAt s = some upper → row.1 ≤ upper

/-- What has been handed over lies behind the cursor, and was handed over once. -/
structure Reader.Sound (tables : Fin n → RowTable (Stored V)) (committed : ℕ)
    (reader : Reader n V) : Prop where
  lt : ∀ serial ∈ reader.handed, serial < committed
  nodup : reader.handed.Nodup
  emitted : ∀ serial ∈ reader.emitted.map Found.serial, reader.Behind tables serial
  gathered : ∀ s, ∀ row ∈ (tables s).rows, row.2.serial ∈ reader.stage.gathered.map Found.serial →
    reader.stage.Scanned s ∧ ∀ upper, reader.stage.upperAt s = some upper → row.1 ≤ upper
  marks : ∀ s, reader.marks s ≤ committed

section Sound

variable {tables : Fin n → RowTable (Stored V)} {committed : ℕ} {reader : Reader n V}

variable {upper : Fin n → ℕ} {serial : ℕ} {after : Reader n V} {material : List String}

theorem upperAt_capturing {next : ℕ} (phase : reader.stage = .capturing upper next) (all : n ≤ next)
    (s : Fin n) :
    reader.stage.upperAt s = some (upper s) := by
  rw [phase]
  exact if_pos (s.isLt.trans_le all)

section

variable (h : reader.Behind tables serial)
include h

theorem Reader.Behind.of_stage (cursor : after.cursor = reader.cursor)
    (upper : ∀ s u, after.stage.upperAt s = some u → reader.stage.upperAt s = some u) :
    after.Behind tables serial := by
  intro s row mem same
  rw [cursor]
  exact ⟨(h s row mem same).1, fun u eq => (h s row mem same).2 u (upper s u eq)⟩

/-- A pass ends behind the cursors that it has captured. -/
theorem Reader.Behind.finish (all : ∀ s, reader.stage.upperAt s = some (upper s))
    (rows : List (Found n V)) :
    (reader.finish query upper rows).Behind tables serial :=
  fun s row mem same => ⟨(h s row mem same).2 _ (all s), nofun⟩

/-- **What is behind a stream stays behind it.** -/
theorem Reader.Behind.advance
    (advanced : Advanced query authorizer tables committed material reader after) :
    after.Behind tables serial := by
  cases advanced with
  | idle => exact h
  | @capture upper shard phase =>
    intro s row mem same
    refine ⟨(h s row mem same).1, fun u eq => ?_⟩
    simp only [Reader.capture, Stage.upperAt] at eq
    split_ifs at eq with before
    rw [← Option.some.inj eq]
    rcases eq_or_ne s shard with rfl | ne
    · rw [update_self]
      exact (tables s).le_maxId mem
    · rw [update_of_ne ne]
      refine (h s row mem same).2 _ ?_
      rw [phase]
      exact if_pos (lt_of_le_of_ne (Nat.lt_succ_iff.1 before) (Fin.val_ne_of_ne ne))
  | unchanged => exact h.of_stage rfl nofun
  | look phase all => exact h.of_stage rfl fun s u eq => (upperAt_capturing phase all s).trans eq
  | nothing phase all => exact h.finish (upperAt_capturing phase all) _
  | discover phase | allow phase | scan phase => exact h.of_stage rfl fun s u eq => by rwa [phase]
  | finish phase => exact h.finish (fun s => by rw [phase]; rfl) _
  | fail => exact h.of_stage rfl nofun

theorem Reader.Behind.begin :
    reader.begin.Behind tables serial :=
  h.of_stage rfl fun s u eq => by simp [Reader.begin, Stage.upperAt] at eq

end

section

variable (h : reader.Sound tables committed)
include h

/-- Where nothing has been found yet, what matters is what was handed over before. -/
theorem Reader.Sound.of_stage (same : after.emitted = reader.emitted)
    (none : after.stage.gathered = [])
    (behind : ∀ serial, reader.Behind tables serial → after.Behind tables serial)
    (marks_le : ∀ s, after.marks s ≤ committed) : after.Sound tables committed := by
  have handed : after.handed = reader.emitted.map Found.serial := by
    unfold Reader.handed
    rw [same, none, append_nil]
  have sub : after.handed.Sublist reader.handed := by
    rw [handed, Reader.handed, map_append]
    exact sublist_append_left _ _
  refine ⟨fun serial mem => h.lt serial (sub.subset mem), h.nodup.sublist sub, ?_, ?_, marks_le⟩
  · rw [same]
    exact fun serial mem => behind serial (h.emitted serial mem)
  · intro s row _ inside
    rw [none] at inside
    exact absurd inside not_mem_nil

/-- A pass ends with every table captured. -/
theorem Reader.Sound.finish (all : ∀ s, reader.stage.upperAt s = some (upper s)) :
    (reader.finish query upper reader.stage.gathered).Sound tables committed := by
  have arranged : ((query.arrange reader.watch reader.stage.gathered).map Found.serial).Subperm
      (reader.stage.gathered.map Found.serial) := arrange_subperm reader.watch _
  have emitted : (reader.finish query upper reader.stage.gathered).emitted.map Found.serial =
      reader.emitted.map Found.serial ++
        (query.arrange reader.watch reader.stage.gathered).map Found.serial := by
    unfold Reader.finish
    rw [map_append, serials_project]
  have handed : (reader.finish query upper reader.stage.gathered).handed.Subperm reader.handed := by
    have none : (reader.finish query upper reader.stage.gathered).stage.gathered = [] := rfl
    unfold Reader.handed
    rw [none, append_nil, emitted, map_append]
    exact List.Subperm.append (List.Subperm.refl _) arranged
  refine ⟨fun serial mem => h.lt serial (handed.subset mem), ?_, fun serial inside => ?_, ?_, h.marks⟩
  · obtain ⟨part, perm, sub⟩ := handed
    exact perm.nodup_iff.1 (h.nodup.sublist sub)
  · rw [emitted, mem_append] at inside
    rcases inside with before | now
    · exact (h.emitted serial before).finish all _
    · rintro s row mem rfl
      exact ⟨(h.gathered s row mem (arranged.subset now)).2 _ (all s), nofun⟩
  · exact fun s row mem inside => absurd inside not_mem_nil

/-- A scan adds rows that were not handed over. -/
theorem Reader.Sound.scan (numbered : Numbered tables committed) {bounds : Bounds}
    {rows more : List (Found n V)} {shard : Fin n}
    (phase : reader.stage = .scanning upper bounds rows shard)
    (ok : scanTable query authorizer bounds (reader.cursor shard) (upper shard) material shard
      (tables shard) = .ok more) :
    Reader.Sound tables committed
      { reader with stage := .scanning upper bounds (rows ++ more) (shard + 1) } := by
  have sub := scanTable_sublist ok
  -- the rows found are rows of the table between the cursors
  have found {serial : ℕ} (mem : serial ∈ more.map Found.serial) :
      ∃ row ∈ (tables shard).rows, row.2.serial = serial ∧ reader.cursor shard < row.1 ∧
        row.1 ≤ upper shard := by
    obtain ⟨row, inside, rfl⟩ := mem_map.1 (sub.subset mem)
    obtain ⟨mem, hands⟩ := mem_filter.1 inside
    obtain ⟨-, -, above, below, -⟩ := handsOver_iff.1 hands
    exact ⟨row, mem, rfl, above, below⟩
  have handed : reader.handed = (reader.emitted ++ rows).map Found.serial := by
    rw [Reader.handed, phase]
    rfl
  have gathered := h.gathered
  rw [phase] at gathered
  have nodup := h.nodup
  rw [handed] at nodup
  refine ⟨fun serial mem => ?_, ?_, fun serial inside => ?_, fun s row mem inside => ?_, h.marks⟩
  · unfold Reader.handed at mem
    simp only [Stage.gathered] at mem
    rw [← append_assoc, map_append, mem_append] at mem
    rcases mem with old | new
    · exact h.lt serial (by rwa [handed])
    · obtain ⟨row, mem, rfl, -⟩ := found new
      exact numbered.lt shard row mem
  · unfold Reader.handed
    simp only [Stage.gathered]
    rw [← append_assoc, map_append, nodup_append]
    refine ⟨nodup, ?_, ?_⟩
    · refine List.Nodup.sublist (sub.trans (filter_sublist.map _)) ?_
      refine List.Nodup.map_on (fun a ha b hb same => ?_) ?_
      · exact (numbered.distinct shard a ha shard b hb same).2
      · exact (tables shard).nodup_ids.of_map
    · rintro serial old _ new rfl
      obtain ⟨row, mem, rfl, above, -⟩ := found new
      rw [map_append, mem_append] at old
      rcases old with emitted | before
      · exact absurd (h.emitted _ emitted shard row mem rfl).1 (not_le.2 above)
      · exact absurd (gathered shard row mem before).1 (lt_irrefl _)
  · exact (h.emitted serial inside).of_stage rfl fun s u eq => by rwa [phase]
  · simp only [Stage.gathered] at inside
    rw [map_append, mem_append] at inside
    rcases inside with before | now
    · have := gathered s row mem before
      exact ⟨Nat.lt_succ_of_lt this.1, this.2⟩
    · obtain ⟨row', mem', same, -, below⟩ := found now
      obtain ⟨rfl, rfl⟩ := numbered.distinct shard row' mem' s row mem same
      refine ⟨Nat.lt_succ_self _, fun u eq => ?_⟩
      rwa [← Option.some.inj eq]

/-- **No read hands a record over twice.** -/
theorem Reader.Sound.advance (numbered : Numbered tables committed)
    (advanced : Advanced query authorizer tables committed material reader after) :
    after.Sound tables committed := by
  have behind (serial : ℕ) (before : reader.Behind tables serial) : after.Behind tables serial :=
    before.advance advanced
  cases advanced with
  | idle => exact h
  | @capture upper shard phase =>
    refine h.of_stage rfl rfl behind fun s => ?_
    unfold Reader.capture
    dsimp only
    split_ifs
    · exact h.marks s
    · rcases eq_or_ne s shard with rfl | ne
      · rw [update_self]
      · rw [update_of_ne ne]
        exact h.marks s
  | unchanged | look => exact h.of_stage rfl rfl behind h.marks
  | nothing phase all =>
    have none : reader.stage.gathered = [] := by rw [phase]; rfl
    rw [← none]
    exact h.finish (upperAt_capturing phase all)
  | discover | allow => exact h.of_stage rfl rfl behind h.marks
  | scan phase ok => exact h.scan numbered phase ok
  | finish phase =>
    have rows := congrArg Stage.gathered phase
    simp only [Stage.gathered] at rows
    rw [← rows]
    exact h.finish fun s => by rw [phase]; rfl
  | fail => exact h.of_stage rfl rfl behind h.marks

theorem Reader.Sound.begin :
    reader.begin.Sound tables committed :=
  h.of_stage rfl rfl (fun _ before => before.begin) h.marks

theorem Reader.Sound.start (now : ℤ) :
    (reader.start now).Sound tables committed := by
  unfold Reader.start
  split_ifs
  · exact h.of_stage rfl rfl (fun _ before => before.begin) h.marks
  · exact h

theorem Reader.Sound.poll :
    reader.poll.Sound tables committed := by
  unfold Reader.poll
  split
  · split_ifs
    · exact h.begin
    · exact h
  · exact h

/-- Rows may go, and rows with new numbers may come. -/
theorem Reader.Sound.of_tables {tables' : Fin n → RowTable (Stored V)} {committed' : ℕ}
    (le : committed ≤ committed')
    (rows : ∀ s, ∀ row ∈ (tables' s).rows, row ∈ (tables s).rows ∨ committed ≤ row.2.serial) :
    reader.Sound tables' committed' := by
  have old {s : Fin n} {row : ℕ × Stored V} (mem : row ∈ (tables' s).rows)
      (handed : row.2.serial ∈ reader.handed) : row ∈ (tables s).rows :=
    (rows s row mem).resolve_right (h.lt _ handed).not_ge
  have handed_of {serial : ℕ} (mem : serial ∈ reader.emitted.map Found.serial ∨
      serial ∈ reader.stage.gathered.map Found.serial) : serial ∈ reader.handed := by
    unfold Reader.handed
    rwa [map_append, mem_append]
  refine ⟨fun serial mem => (h.lt serial mem).trans_le le, h.nodup, ?_, ?_,
    fun s => (h.marks s).trans le⟩
  · rintro serial inside s row mem rfl
    exact h.emitted _ inside s row (old mem (handed_of (.inl inside))) rfl
  · exact fun s row mem inside => h.gathered s row (old mem (handed_of (.inr inside))) inside

end

end Sound

/-- The records are numbered apart, and none was handed over twice. -/
structure World.Sound (world : World n V) : Prop where
  numbered : Numbered world.tables world.committed
  reader : world.reader.Sound world.tables world.committed

section Run

variable {world : World n V}

theorem mem_store {shard s : Fin n} {record : ℤ × Row V} {row : ℕ × Stored V} :
    row ∈ ((world.store shard record).tables s).rows ↔
      row ∈ (world.tables s).rows ∨
        s = shard ∧ row = ((world.tables shard).maxId + 1, ⟨world.committed, record.1, record.2⟩) := by
  unfold World.store
  rcases eq_or_ne s shard with rfl | ne
  · simp
  · simp [ne]

theorem World.Sound.store (h : world.Sound) (shard : Fin n) (record : ℤ × Row V) :
    (world.store shard record).Sound := by
  have new {s : Fin n} {row : ℕ × Stored V}
      (added : s = shard ∧ row =
        ((world.tables shard).maxId + 1, ⟨world.committed, record.1, record.2⟩)) :
      row.2.serial = world.committed := by rw [added.2]
  refine ⟨⟨fun s row mem => ?_, fun s row mem s' row' mem' same => ?_⟩, ?_⟩
  · rcases mem_store.1 mem with old | added
    · exact Nat.lt_succ_of_lt (h.numbered.lt s row old)
    · rw [new added]
      exact Nat.lt_succ_self _
  · rcases mem_store.1 mem with old | added <;> rcases mem_store.1 mem' with old' | added'
    · exact h.numbered.distinct s row old s' row' old' same
    · have := h.numbered.lt s row old
      rw [same, new added'] at this
      exact absurd this (lt_irrefl _)
    · have := h.numbered.lt s' row' old'
      rw [← same, new added] at this
      exact absurd this (lt_irrefl _)
    · exact ⟨added.1.trans added'.1.symm, added.2.trans added'.2.symm⟩
  · refine h.reader.of_tables (Nat.le_succ _) fun s row mem => ?_
    rcases mem_store.1 mem with old | added
    · exact .inl old
    · exact .inr (new added).ge

theorem World.Sound.commit (h : world.Sound) (shard : Fin n) (records : List (ℤ × Row V)) :
    (world.commit shard records).Sound := by
  refine List.foldlRecOn records _ h ?_
  intro world h record _
  exact h.store shard record

theorem mem_delete {shard s : Fin n} {condition : ℕ × Stored V → Bool} {row : ℕ × Stored V}
    (mem : row ∈ ((world.delete shard condition).tables s).rows) : row ∈ (world.tables s).rows := by
  unfold World.delete at mem
  rcases eq_or_ne s shard with rfl | ne
  · simp only [update_self, RowTable.rows_delete] at mem
    exact (mem_filter.1 mem).1
  · simpa [update_of_ne ne] using mem

theorem World.Sound.delete (h : world.Sound) (shard : Fin n) (condition : ℕ × Stored V → Bool) :
    (world.delete shard condition).Sound := by
  refine ⟨⟨fun s row mem => h.numbered.lt s row (mem_delete mem), ?_⟩, ?_⟩
  · exact fun s row mem s' row' mem' =>
      h.numbered.distinct s row (mem_delete mem) s' row' (mem_delete mem')
  · exact h.reader.of_tables le_rfl fun s row mem => .inl (mem_delete mem)

theorem World.Sound.step (h : world.Sound) (action : StreamAction n V) :
    (world.step query authorizer action).Sound := by
  cases action with
  | commit shard records => exact h.commit shard records
  | delete shard condition => exact h.delete shard condition
  | start now => exact ⟨h.numbered, h.reader.start now⟩
  | poll => exact ⟨h.numbered, h.reader.poll⟩
  | advance material => exact ⟨h.numbered, h.reader.advance h.numbered (advanced _ _ _ _)⟩
  | fail =>
    exact ⟨h.numbered, h.reader.of_stage rfl rfl (fun _ before => before.of_stage rfl nofun)
      h.reader.marks⟩

end Run

/-! ### The course of a pass -/

namespace Stage

/-- The range of times of a pass, once it is known. -/
def range : Stage n V → Option (ℤ × ℤ)
  | .discovering _ since until_ _ _ => some (since, until_)
  | .scanning _ bounds _ _ => some (bounds.since, bounds.until_)
  | _ => none

/-- How many passes have begun for so many completed ones. -/
def Pace : Stage n V → ℕ → ℕ → Prop
  | .rest, begun, completed => begun = completed
  | .failed, begun, completed => completed ≤ begun
  | _, begun, completed => begun = completed + 1

end Stage

/-- The end of the times a pass looks at: a watch batch has none. -/
def Reader.bound (reader : Reader n V) (given : ℤ) : ℤ := if reader.watch then i64Max else given

/-- What holds of a stream whatever the stores are. -/
structure Reader.Regular (query : RecordQuery n V) (reader : Reader n V) : Prop where
  unread : reader.watch = false → ∀ s, reader.cursor s = 0
  unbegun : reader.begun = 0 → reader.watch = false
  pace : reader.stage.Pace reader.begun reader.completed
  range : ∀ since until_, reader.stage.range = some (since, until_) →
    ∃ given, timeRange query.since query.until_ reader.evaluation = some (since, given) ∧
      until_ = reader.bound given

section Regular

variable {reader : Reader n V}

theorem Reader.Regular.completed_le (h : reader.Regular query) :
    reader.completed ≤ reader.begun := by
  have pace := h.pace
  cases phase : reader.stage <;> rw [phase] at pace <;> simp only [Stage.Pace] at pace <;> omega

theorem regular_fresh : (Reader.fresh : Reader n V).Regular query :=
  ⟨fun _ _ => rfl, fun _ => rfl, rfl, nofun⟩

theorem regular_finish (upper : Fin n → ℕ) (rows : List (Found n V))
    (pace : reader.begun = reader.completed + 1) :
    (reader.finish query upper rows).Regular query := by
  refine ⟨nofun, fun zero => ?_, pace, nofun⟩
  have : reader.begun = 0 := zero
  omega

theorem Reader.Regular.fail (h : reader.Regular query) : reader.fail.Regular query :=
  ⟨h.unread, h.unbegun, h.completed_le, nofun⟩

theorem Reader.Regular.start (h : reader.Regular query) (now : ℤ) :
    (reader.start now).Regular query := by
  unfold Reader.start
  split_ifs with zero
  · have none := h.completed_le
    exact ⟨h.unread, nofun, by simp only [Reader.begin, Stage.Pace]; omega, nofun⟩
  · exact h

theorem Reader.Regular.poll (h : reader.Regular query) : reader.poll.Regular query := by
  unfold Reader.poll
  split
  · next phase =>
    have pace := h.pace
    rw [phase] at pace
    split_ifs
    · exact ⟨h.unread, nofun, congrArg (· + 1) pace, nofun⟩
    · exact h
  · exact h

theorem Reader.Regular.advance (h : reader.Regular query)
    {tables : Fin n → RowTable (Stored V)} {committed : ℕ} {material : List String}
    {after : Reader n V}
    (advanced : Advanced query authorizer tables committed material reader after) :
    after.Regular query := by
  have pace := h.pace
  cases advanced with
  | idle => exact h
  | capture phase | unchanged phase =>
    rw [phase] at pace
    exact ⟨h.unread, h.unbegun, pace, nofun⟩
  | look phase _ range =>
    rw [phase] at pace
    refine ⟨h.unread, h.unbegun, pace, fun since until_ eq => ?_⟩
    obtain ⟨rfl, rfl⟩ := Prod.mk.inj (Option.some.inj eq)
    exact ⟨_, range, rfl⟩
  | nothing phase =>
    rw [phase] at pace
    exact regular_finish _ _ pace
  | discover phase | allow phase | scan phase =>
    rw [phase] at pace
    exact ⟨h.unread, h.unbegun, pace, fun since until_ eq => h.range since until_ (by rwa [phase])⟩
  | finish phase =>
    rw [phase] at pace
    exact regular_finish _ _ pace
  | fail => exact h.fail

end Regular

/-! ### One record -/

/-- A record in a table, and how many passes had begun when it was committed. -/
structure Tracked (n : ℕ) (V : Type) where
  shard : Fin n
  id : ℕ
  record : Stored V
  begun : ℕ

namespace Tracked

variable (t : Tracked n V) (reader : Reader n V)

/-- The record is stored when `start_stream` captures the cursor of its table, and its time
is not before the time that `start_stream` has read. -/
def Late : Prop :=
  t.record.serial < reader.marks t.shard ∧ reader.evaluation ≤ t.record.time

/-- The time of the record is not before the time that `SINCE` gives. -/
def InRange (query : RecordQuery n V) : Prop :=
  ∀ since given, timeRange query.since query.until_ reader.evaluation = some (since, given) →
    since ≤ t.record.time

/-- What a captured cursor says of the record. -/
structure Reached (upper : ℕ) : Prop where
  after : t.begun < reader.begun → t.id ≤ upper
  done : t.id ≤ reader.cursor t.shard → t.id ≤ upper
  first : reader.watch = false → (t.id ≤ upper ↔ t.record.serial < reader.marks t.shard)

/-- Where the record stands with a stream: behind the cursor it has been handed over, unless
it was late; before the cursor it has not, and the pass under way knows of it once its
cursor is past it. -/
structure Follows (query : RecordQuery n V) : Prop where
  emitted : t.record.serial ∈ reader.emitted.map Found.serial ↔
    t.id ≤ reader.cursor t.shard ∧ t.InRange reader query ∧ ¬ t.Late reader
  pending : reader.watch = true → reader.cursor t.shard < t.id → ¬ t.Late reader
  unread : reader.watch = false → reader.cursor t.shard < t.id
  completed : t.begun < reader.completed → t.id ≤ reader.cursor t.shard
  reached : ∀ upper, reader.stage.upperAt t.shard = some upper → t.Reached reader upper
  discovered : ∀ {upper since until_ found next},
    reader.stage = .discovering upper since until_ found next → t.id ≤ upper t.shard →
      t.shard.val < next → t.record.row.identifier ∈ found
  allowed : ∀ {upper bounds rows next}, reader.stage = .scanning upper bounds rows next →
    t.id ≤ upper t.shard → t.record.row.identifier ∈ bounds.allowed
  gathered : ∀ {upper bounds rows next}, reader.stage = .scanning upper bounds rows next →
    (t.record.serial ∈ rows.map Found.serial ↔ reader.cursor t.shard < t.id ∧
      t.id ≤ upper t.shard ∧ t.shard.val < next ∧ bounds.since ≤ t.record.time ∧
        t.record.time < bounds.until_)

end Tracked

section Follows

variable {t : Tracked n V} {reader : Reader n V}

/-- Where the pass under way has found nothing yet, only its cursors matter. -/
theorem Tracked.Follows.of_stage (h : t.Follows reader query) {stage : Stage n V} {begun : ℕ}
    (reached : ∀ upper, stage.upperAt t.shard = some upper →
      t.Reached { reader with begun := begun } upper)
    (discovered : ∀ {upper since until_ found next},
      stage = .discovering upper since until_ found next → t.id ≤ upper t.shard →
        t.shard.val < next → t.record.row.identifier ∈ found)
    (scanning : ∀ {upper bounds rows next}, stage ≠ .scanning upper bounds rows next) :
    t.Follows { reader with stage := stage, begun := begun } query :=
  ⟨h.emitted, h.pending, h.unread, h.completed,
    fun upper eq => ⟨(reached upper eq).after, (reached upper eq).done, (reached upper eq).first⟩,
    discovered, fun eq => absurd eq scanning, fun eq => absurd eq scanning⟩

/-- A pass hands the record over if its cursor has reached it and it looks at its time. -/
theorem Tracked.Follows.finish (h : t.Follows reader query) (wanted : Wanted query authorizer t.record)
    (plain : reader.watch = false →
      query.until_ = none ∧ query.skip = 0 ∧ query.take = none)
    (pace : reader.begun = reader.completed + 1)
    {upper : Fin n → ℕ} {rows : List (Found n V)} {since given : ℤ}
    (reached : t.Reached reader (upper t.shard))
    (range : timeRange query.since query.until_ reader.evaluation = some (since, given))
    (found : t.record.serial ∈ rows.map Found.serial ↔ reader.cursor t.shard < t.id ∧
      t.id ≤ upper t.shard ∧ since ≤ t.record.time ∧ t.record.time < reader.bound given) :
    t.Follows (reader.finish query upper rows) query := by
  have inRange : t.InRange reader query ↔ since ≤ t.record.time := by
    unfold Tracked.InRange
    rw [range]
    simp
  have before := wanted.before
  have handed : t.record.serial ∈ (reader.finish query upper rows).emitted.map Found.serial ↔
      t.record.serial ∈ reader.emitted.map Found.serial ∨ t.record.serial ∈ rows.map Found.serial := by
    unfold Reader.finish
    rw [map_append, serials_project, mem_append]
    refine or_congr_right ?_
    cases watch : reader.watch with
    | true => rfl
    | false => exact ((arrange_perm (plain watch).2 false rows).map Found.serial).mem_iff
  have emitted : t.record.serial ∈ (reader.finish query upper rows).emitted.map Found.serial ↔
      t.id ≤ upper t.shard ∧ since ≤ t.record.time ∧ ¬ t.Late reader := by
    rw [handed, h.emitted, found, inRange]
    cases watch : reader.watch with
    | true =>
      rcases le_or_gt t.id (reader.cursor t.shard) with done | pending
      · simp [done, reached.done done, done.not_gt]
      · have ends : reader.bound given = i64Max := if_pos watch
        simp [pending, pending.not_ge, h.pending watch pending, ends, before]
    | false =>
      -- the first pass looks at times before the evaluation time only
      have pending := h.unread watch
      have ends : reader.bound given = reader.evaluation := by
        rw [(plain watch).1, timeRange_none] at range
        obtain ⟨_, -, eq⟩ := Option.map_eq_some_iff.1 range
        rw [← (Prod.mk.inj eq).2]
        exact if_neg (by simp [watch])
      have first := reached.first watch
      unfold Tracked.Late
      rw [ends, ← first]
      simp only [pending, pending.not_ge, false_and, false_or, true_and, not_and, not_le]
      exact and_congr_right fun reached => and_congr_right fun _ => ⟨fun lt _ => lt, fun h => h reached⟩
  refine ⟨?_, fun _ pending => ?_, nofun, fun after => reached.after ?_, nofun, nofun, nofun, nofun⟩
  · rw [emitted, ← inRange]
    rfl
  · have ahead : upper t.shard < t.id := pending
    intro late
    cases watch : reader.watch with
    | true =>
      refine h.pending watch (lt_of_not_ge fun done => ?_) late
      exact absurd (reached.done done) ahead.not_ge
    | false => exact absurd ((reached.first watch).2 late.1) ahead.not_ge
  · have : t.begun < reader.completed + 1 := after
    omega

variable {tables : Fin n → RowTable (Stored V)} {committed : ℕ} {material : List String}

/-- Capturing the cursor of its table reaches the record. -/
theorem Tracked.Follows.capture (h : t.Follows reader query)
    (numbered : Numbered tables committed) (mem : (t.id, t.record) ∈ (tables t.shard).rows)
    {upper : Fin n → ℕ} {shard : Fin n} (phase : reader.stage = .capturing upper shard) :
    t.Follows (reader.capture (tables shard) committed upper shard) query := by
  have marks (watch : reader.watch = true) :
      (reader.capture (tables shard) committed upper shard).marks = reader.marks := if_pos watch
  have set (watch : reader.watch = false) :
      (reader.capture (tables shard) committed upper shard).marks =
        update reader.marks shard committed := if_neg (by simp [watch])
  have behind (watch : reader.watch = false) : ¬ t.id ≤ reader.cursor t.shard :=
    (h.unread watch).not_ge
  refine ⟨?_, fun watch pending late => ?_, h.unread, h.completed, fun u eq => ?_, nofun, nofun,
    nofun⟩
  · cases watch : reader.watch with
    | true =>
      have late : t.Late (reader.capture (tables shard) committed upper shard) ↔ t.Late reader := by
        unfold Tracked.Late
        rw [marks watch]
        rfl
      rw [late]
      exact h.emitted
    | false =>
      constructor
      · exact fun inside => absurd (h.emitted.1 inside).1 (behind watch)
      · exact fun inside => absurd inside.1 (behind watch)
  · unfold Tracked.Late at late
    rw [marks watch] at late
    exact h.pending watch pending late
  · simp only [Reader.capture, Stage.upperAt] at eq
    split_ifs at eq with before
    obtain rfl := Option.some.inj eq
    rcases eq_or_ne t.shard shard with same | ne
    · have le : t.id ≤ (tables shard).maxId := by
        rw [← same]
        exact (tables t.shard).le_maxId mem
      rw [same, update_self]
      refine ⟨fun _ => le, fun _ => le, fun watch => iff_of_true le ?_⟩
      rw [set watch, same, update_self]
      exact numbered.lt t.shard _ mem
    · rw [update_of_ne ne]
      have reached := h.reached (upper t.shard) (by
        rw [phase]
        exact if_pos (lt_of_le_of_ne (Nat.lt_succ_iff.1 before) (Fin.val_ne_of_ne ne)))
      refine ⟨reached.after, reached.done, fun watch => ?_⟩
      rw [set watch, update_of_ne ne]
      exact reached.first watch

/-- A scan of its table finds the record if it lies between the cursors and in the range of
times; other tables do not have it. -/
theorem Tracked.Follows.scan (h : t.Follows reader query) (wanted : Wanted query authorizer t.record)
    (numbered : Numbered tables committed) (mem : (t.id, t.record) ∈ (tables t.shard).rows)
    {upper : Fin n → ℕ} {bounds : Bounds} {rows more : List (Found n V)} {shard : Fin n}
    (phase : reader.stage = .scanning upper bounds rows shard)
    (ok : scanTable query authorizer bounds (reader.cursor shard) (upper shard) material shard
      (tables shard) = .ok more) :
    t.Follows { reader with stage := .scanning upper bounds (rows ++ more) (shard + 1) } query := by
  have before := h.gathered phase
  -- a record of this number is this record, in its table
  have found (inside : t.record.serial ∈ more.map Found.serial) : t.shard = shard ∧
      handsOver query bounds (reader.cursor shard) (upper shard) material (t.id, t.record) = true := by
    obtain ⟨row, inside, same⟩ := mem_map.1 ((scanTable_sublist ok).subset inside)
    obtain ⟨mem', hands⟩ := mem_filter.1 inside
    obtain ⟨rfl, rfl⟩ := numbered.distinct shard row mem' t.shard _ mem same
    exact ⟨rfl, hands⟩
  refine ⟨h.emitted, h.pending, h.unread, h.completed, fun u eq => ?_, nofun, fun eq le => ?_,
    fun eq => ?_⟩
  · have reached := h.reached u (by rw [phase]; exact eq)
    exact ⟨reached.after, reached.done, reached.first⟩
  · obtain ⟨rfl, rfl, -, -⟩ := Stage.scanning.inj eq
    exact h.allowed phase le
  · obtain ⟨rfl, rfl, rfl, rfl⟩ := Stage.scanning.inj eq
    rw [map_append, mem_append, before]
    constructor
    · rintro (⟨ahead, le, lt, range⟩ | inside)
      · exact ⟨ahead, le, Nat.lt_succ_of_lt lt, range⟩
      · obtain ⟨rfl, hands⟩ := found inside
        obtain ⟨since, until_, ahead, le, -⟩ := handsOver_iff.1 hands
        exact ⟨ahead, le, Nat.lt_succ_self _, since, until_⟩
    · rintro ⟨ahead, le, lt, since, until_⟩
      rcases (Nat.lt_succ_iff.1 lt).lt_or_eq with lt | eq
      · exact .inl ⟨ahead, le, lt, since, until_⟩
      · obtain rfl := Fin.val_injective eq
        refine .inr (mem_scanTable ok mem ?_ wanted (h.allowed phase le))
        exact handsOver_iff.2 ⟨since, until_, ahead, le, wanted.pushed material⟩

/-- **A read keeps the record where it stands with the stream.** -/
theorem Tracked.Follows.advance (h : t.Follows reader query)
    (wanted : Wanted query authorizer t.record)
    (plain : reader.watch = false → query.until_ = none ∧ query.skip = 0 ∧ query.take = none)
    (regular : reader.Regular query) (numbered : Numbered tables committed)
    (mem : (t.id, t.record) ∈ (tables t.shard).rows) {after : Reader n V}
    (advanced : Advanced query authorizer tables committed material reader after) :
    t.Follows after query := by
  have pace := regular.pace
  cases advanced with
  | idle => exact h
  | capture phase => exact h.capture numbered mem phase
  | @unchanged upper next phase all watch same =>
    rw [phase] at pace
    refine ⟨h.emitted, h.pending, h.unread, fun after => ?_, nofun, nofun, nofun, nofun⟩
    have reached := h.reached _ (upperAt_capturing phase all t.shard)
    have : t.begun < reader.completed + 1 := after
    rw [← same]
    refine reached.after ?_
    rw [pace]
    exact this
  | look phase all =>
    refine h.of_stage (fun u eq => ?_) (fun eq _ lt => ?_) nofun
    · obtain rfl := Option.some.inj eq
      exact h.reached _ (upperAt_capturing phase all t.shard)
    · obtain ⟨-, -, -, -, rfl⟩ := Stage.discovering.inj eq
      exact absurd lt (Nat.not_lt_zero _)
  | nothing phase all range empty =>
    rw [phase] at pace
    refine h.finish wanted plain pace (h.reached _ (upperAt_capturing phase all t.shard)) range ?_
    refine iff_of_false not_mem_nil ?_
    rintro ⟨-, -, since, until_⟩
    exact absurd (until_.trans_le (empty.trans since)) (lt_irrefl _)
  | discover phase =>
    refine h.of_stage (fun u eq => ?_) (fun eq le lt => ?_) nofun
    · exact h.reached u (by rw [phase]; exact eq)
    · obtain ⟨rfl, -, -, rfl, rfl⟩ := Stage.discovering.inj eq
      rw [mem_append]
      rcases (Nat.lt_succ_iff.1 lt).lt_or_eq with lt | eq
      · exact .inl (h.discovered phase le lt)
      · obtain rfl := Fin.val_injective eq
        right
        exact mem_filter.2 ⟨mem_map.2 ⟨_, mem, rfl⟩, wanted.selected⟩
  | allow phase all ok =>
    refine ⟨h.emitted, h.pending, h.unread, h.completed, fun u eq => ?_, nofun, fun eq le => ?_,
      fun eq => ?_⟩
    · have reached := h.reached u (by rw [phase]; exact eq)
      exact ⟨reached.after, reached.done, reached.first⟩
    · obtain ⟨rfl, rfl, -, -⟩ := Stage.scanning.inj eq
      refine (mem_authorizeIdentifiers ok).2 ⟨?_, wanted.granted⟩
      rw [mem_dedup, mem_insertionSort]
      exact h.discovered phase le (t.shard.isLt.trans_le all)
    · obtain ⟨-, -, rfl, rfl⟩ := Stage.scanning.inj eq
      exact iff_of_false not_mem_nil fun inside => absurd inside.2.2.1 (Nat.not_lt_zero _)
  | scan phase ok => exact h.scan wanted numbered mem phase ok
  | @finish upper bounds rows next phase all =>
    obtain ⟨given, range, ends⟩ := regular.range bounds.since bounds.until_ (by rw [phase]; rfl)
    rw [phase] at pace
    refine h.finish wanted plain pace (h.reached _ (by rw [phase]; rfl)) range ?_
    rw [h.gathered phase, ← ends]
    simp only [t.shard.isLt.trans_le all, true_and]
  | fail => exact h.of_stage nofun nofun nofun

end Follows

end Eventd
