import Eventd.Lib.Batches
import Eventd.Daemon.Retention

/-!
# Which rows of the current boot size retention deletes

When deleting other boots does not bring the store within its limit, the pass deletes rows of
the current boot: one batch from every shard, each by the shard's own order, and again until the
store is within its limit or nothing of the boot is left.

* `afterBatches`: the rows left after a number of turns, from the rows before the first;
* `Suffices`: the number of turns the pass takes;
* `oldest_rows_cut_iff`: the deleted rows are the oldest exactly if the rows are spread over the
  shards so that as many of the oldest of each shard are the oldest of all;
* `retain_event_size_reaches_limit`: where the whole pass ends.
-/

namespace Eventd

open List

namespace Shard

instance : Std.Total OlderOrSame where
  total a b := by
    unfold OlderOrSame
    omega

instance : IsTrans (ℕ × EventRow) OlderOrSame where
  trans a b c := by
    unfold OlderOrSame
    omega

theorem survivors_eq_rest (shard : Shard) (condition : EventRow → Bool) (limit : ℕ) :
    shard.survivors condition limit =
      Batches.rest Prod.fst OlderOrSame (fun row => condition row.2) limit shard.events.rows := rfl

/-- Two bounded deletes in turn are one with both limits. -/
theorem survivors_survivors {shard next : Shard} {condition : EventRow → Bool} {limit : ℕ}
    (left : next.events.rows = shard.survivors condition limit) (more : ℕ) :
    next.survivors condition more = shard.survivors condition (limit + more) := by
  have antisymm (a b : ℕ × EventRow) (le : OlderOrSame a b) (ge : OlderOrSame b a) : a.1 = b.1 := by
    unfold OlderOrSame at le ge
    omega
  rw [survivors_eq_rest next, left, survivors_eq_rest, survivors_eq_rest,
    Batches.rest_rest shard.events.nodup_ids antisymm]

theorem mem_survivors {shard : Shard} {condition : EventRow → Bool} {limit : ℕ}
    {row : ℕ × EventRow} :
    row ∈ shard.survivors condition limit ↔
      row ∈ shard.events.rows ∧ row ∉ shard.oldest condition limit := by
  rw [survivors_eq_rest, Batches.mem_rest shard.events.nodup_ids]
  rfl

end Shard

namespace SizePass

variable (pass : SizePass)

/-- Whether a row is of the current boot. -/
def isCurrent (row : EventRow) : Bool := row.bootId = pass.currentBoot

/-- The rows of the shards after some batches of the current boot. -/
def afterBatches (shards : List Shard) (count : ℕ) : List Rows :=
  shards.map fun shard => shard.survivors pass.isCurrent (count * pass.config.batchRows)

/-- Some row is of the current boot. -/
def HasCurrent (rows : List Rows) : Prop :=
  ∃ table ∈ rows, ∃ row ∈ table, pass.isCurrent row.2 = true

/-- The store is within its limit, or nothing of the current boot is left. -/
def Settled (rows : List Rows) : Prop :=
  pass.total rows ≤ pass.config.eventMaxBytes ∨ ¬ pass.HasCurrent rows

/-- So many batches are enough, and no fewer. -/
structure Suffices (shards : List Shard) (count : ℕ) : Prop where
  settled : pass.Settled (pass.afterBatches shards count)
  least : ∀ fewer < count, ¬ pass.Settled (pass.afterBatches shards fewer)

theorem afterBatches_zero (shards : List Shard) : pass.afterBatches shards 0 = rowsOf shards := by
  refine map_congr_left fun shard _ => ?_
  rw [Nat.zero_mul, Shard.survivors_eq_rest, Batches.rest_zero]

theorem afterBatches_succ {shards now : List Shard} {count : ℕ}
    (rows : rowsOf now = pass.afterBatches shards count) :
    (now.map fun shard => shard.survivors pass.isCurrent pass.config.batchRows) =
      pass.afterBatches shards (count + 1) := by
  unfold rowsOf afterBatches at *
  rw [← forall₂_eq_eq_eq, forall₂_map_left_iff, forall₂_map_right_iff] at rows ⊢
  refine rows.imp fun next shard left => ?_
  rw [Nat.succ_mul]
  exact Shard.survivors_survivors left _

/-- Nothing of the current boot is left exactly if a batch finds nothing. -/
theorem hasCurrent_iff (shards : List Shard) :
    pass.HasCurrent (rowsOf shards) ↔
      ¬ ∀ shard ∈ shards, shard.oldest pass.isCurrent pass.config.batchRows = [] := by
  constructor
  · rintro ⟨table, htable, row, hrow, current⟩ none
    obtain ⟨shard, mem, rfl⟩ := mem_map.1 htable
    have other := shard.oldest_eq_nil _ _ pass.config.batch_pos (none shard mem) row hrow
    exact Bool.false_ne_true (other.symm.trans current)
  · intro some
    push Not at some
    obtain ⟨shard, mem, nonempty⟩ := some
    obtain ⟨row, hrow⟩ := exists_mem_of_ne_nil _ nonempty
    obtain ⟨present, current⟩ := shard.mem_oldest _ _ hrow
    exact ⟨_, mem_map_of_mem mem, row, present, current⟩

/-- One turn stops if the batches so far are enough, and deletes one more from every shard if
not. -/
theorem cutCurrentTurn_batches {shards now : List Shard} {count : ℕ}
    (fits : pass.total (rowsOf shards) ≤ u64Max) (rows : rowsOf now = pass.afterBatches shards count) :
    (pass.cutCurrentTurn now = .ok none ∧ pass.Settled (pass.afterBatches shards count)) ∨
    ¬ pass.Settled (pass.afterBatches shards count) ∧
      ∃ next, pass.cutCurrentTurn now = .ok (some next) ∧
        rowsOf next = pass.afterBatches shards (count + 1) ∧ rowCount next < rowCount now := by
  have less : pass.total (rowsOf now) ≤ u64Max := by
    rw [rows]
    exact (pass.total_survivors_le _ _ shards).trans fits
  rw [← rows]
  rcases pass.cutCurrentTurn_eq less with ⟨stop, why⟩ | ⟨exceeds, some, next, go, left⟩
  · refine .inl ⟨stop, why.imp_right fun none => ?_⟩
    rw [hasCurrent_iff]
    exact not_not.2 none
  · refine .inr ⟨?_, next, go, left.trans (pass.afterBatches_succ rows), ?_⟩
    · rintro (within | gone)
      · exact absurd exceeds (not_lt.2 within)
      · exact gone ((pass.hasCurrent_iff now).2 some)
    · rw [rowCount_eq, left]
      exact length_survivors_sum_lt _ _ some

/-- **Cutting the current boot takes as many batches from every shard as are needed.** -/
theorem cutCurrent_eq {shards : List Shard} (fits : pass.total (rowsOf shards) ≤ u64Max) :
    ∃ left count, pass.cutCurrent shards = .ok left ∧ pass.Suffices shards count ∧
      rowsOf left = pass.afterBatches shards count := by
  obtain ⟨left, eq, ⟨count, rows, least⟩, stopped⟩ := Loop.run_spec
    (fun now => ∃ count, rowsOf now = pass.afterBatches shards count ∧
      ∀ fewer < count, ¬ pass.Settled (pass.afterBatches shards fewer)) rowCount
    (fun now ⟨count, rows, least⟩ => by
      rcases pass.cutCurrentTurn_batches fits rows with ⟨stop, -⟩ | ⟨unsettled, next, go, left, lower⟩
      · exact .inl stop
      · refine .inr ⟨next, go, ⟨count + 1, left, fun fewer lt => ?_⟩, lower⟩
        rcases Nat.lt_succ_iff_lt_or_eq.1 lt with lt | rfl
        · exact least fewer lt
        · exact unsettled)
    ⟨0, (pass.afterBatches_zero shards).symm, by omega⟩ (Nat.lt_succ_self (rowCount shards))
  refine ⟨left, count, eq, ⟨?_, least⟩, rows⟩
  rcases pass.cutCurrentTurn_batches fits rows with ⟨-, settled⟩ | ⟨-, next, go, -⟩
  · exact settled
  · rw [stopped] at go
    cases go

/-! ### The oldest rows -/

/-- No row of the current boot that is left is older than one that is gone. -/
def OldestGone (before after : List Rows) : Prop :=
  ∀ tables ∈ before.zip after, ∀ gone ∈ tables.1, pass.isCurrent gone.2 = true → gone ∉ tables.2 →
    ∀ table ∈ after, ∀ row ∈ table, pass.isCurrent row.2 = true → gone.2.timestamp ≤ row.2.timestamp

/-- The rows of the current boot are spread over the shards so that of all of them, the first
`count` batches of each shard are not newer than any row beyond those of another. -/
def Balanced (shards : List Shard) (count : ℕ) : Prop :=
  ∀ shard ∈ shards, ∀ gone ∈ shard.oldest pass.isCurrent (count * pass.config.batchRows),
    ∀ other ∈ shards, ∀ row ∈ other.events.rows, pass.isCurrent row.2 = true →
      row ∉ other.oldest pass.isCurrent (count * pass.config.batchRows) →
        gone.2.timestamp ≤ row.2.timestamp

theorem oldestGone_iff (shards : List Shard) (count : ℕ) :
    pass.OldestGone (rowsOf shards) (pass.afterBatches shards count) ↔ pass.Balanced shards count := by
  unfold OldestGone Balanced
  have zip : (rowsOf shards).zip (pass.afterBatches shards count) = shards.map fun shard =>
      (shard.events.rows, shard.survivors pass.isCurrent (count * pass.config.batchRows)) := by
    exact zip_map'
  rw [zip]
  simp only [afterBatches, forall_mem_map, Shard.mem_survivors, not_and, not_not]
  constructor
  · intro oldest shard mem gone taken other hother row hrow current spared
    obtain ⟨present, satisfied⟩ := shard.mem_oldest _ _ taken
    exact oldest shard mem gone present satisfied (fun _ => taken) other hother row ⟨hrow, spared⟩
      current
  · intro balanced shard mem gone present _ taken other hother row ⟨hrow, spared⟩ current
    exact balanced shard mem gone (taken present) other hother row hrow current spared

/-- **When only the current boot has rows, size retention deletes the oldest of them, and leaves
the store within its limit or without a row of the boot, exactly if the rows are balanced over the
shards for the number of batches that it takes.**  The pass always ends, and always leaves the
store so. -/
theorem oldest_rows_cut_iff (shards : List Shard) (fits : pass.total (rowsOf shards) ≤ u64Max)
    (only : ¬ pass.HasOldBoot (rowsOf shards)) :
    ∃ left count, pass.retainEventSize shards = .ok left ∧ pass.Suffices shards count ∧
      pass.Settled (rowsOf left) ∧
      (pass.OldestGone (rowsOf shards) (rowsOf left) ∧ pass.Settled (rowsOf left) ↔
        pass.Balanced shards count) := by
  obtain ⟨left, count, eq, suffices_, rows⟩ := pass.cutCurrent_eq fits
  have settled : pass.Settled (rowsOf left) := rows ▸ suffices_.settled
  refine ⟨left, count, ?_, suffices_, settled, ?_⟩
  · unfold retainEventSize
    rw [(pass.bootOrder_eq_nil_iff shards).2 only]
    exact eq
  · rw [and_iff_left settled, rows]
    exact pass.oldestGone_iff shards count

/-- A pass that deletes one row at a time, over databases whose live size is their number of
rows. -/
def oneAtATime (eventMaxBytes : ℕ) (max_pos : 0 < eventMaxBytes) : SizePass :=
  { countingRows eventMaxBytes max_pos with
    config := ⟨eventMaxBytes, 1, max_pos, Nat.one_pos, by decide⟩ }

/-- A shard with a row of the current boot for each time. -/
def rowsAt (times : List UInt64) : Shard :=
  times.foldl (fun shard time =>
    shard.insertRow (syntheticRow ⟨Vector.replicate 16 1, time, daemonStarted, []⟩)) Shard.new

/-- Rows that came to two shards in turn, and a limit that takes one from each: the oldest go. -/
theorem oldest_rows_cut_in_turn :
    ∃ left, (oneAtATime 2 (by decide)).retainEventSize [rowsAt [1, 3], rowsAt [2, 4]] = .ok left ∧
      (oneAtATime 2 (by decide)).OldestGone (rowsOf [rowsAt [1, 3], rowsAt [2, 4]])
        (rowsOf left) := by
  have settled : (oneAtATime 2 (by decide)).Settled
      ((oneAtATime 2 (by decide)).afterBatches [rowsAt [1, 3], rowsAt [2, 4]] 1) := .inl (by decide)
  obtain ⟨left, count, eq, suffices_, -, oldest⟩ := (oneAtATime 2 (by decide)).oldest_rows_cut_iff
    [rowsAt [1, 3], rowsAt [2, 4]] (by decide) (by unfold HasOldBoot; decide)
  refine ⟨left, eq, (oldest.2 ?_).1⟩
  have some : count ≠ 0 := by
    rintro rfl
    rcases suffices_.settled with within | gone
    · exact absurd within (by decide)
    · exact gone (by unfold HasCurrent; decide)
  obtain rfl : count = 1 := by
    by_contra other
    exact suffices_.least 1 (by omega) settled
  unfold Balanced
  decide

/-- All rows of one shard are older than those of the other: a batch from each deletes the third
row although the second stays. -/
theorem newer_row_cut :
    ∃ left, (oneAtATime 3 (by decide)).retainEventSize [rowsAt [1, 2], rowsAt [5, 6]] = .ok left ∧
      ¬ (oneAtATime 3 (by decide)).OldestGone (rowsOf [rowsAt [1, 2], rowsAt [5, 6]])
        (rowsOf left) := by
  refine ⟨_, rfl, ?_⟩
  unfold OldestGone
  decide

/-! ### Where the pass ends -/

theorem deleteBoots_settled (boots : List Guid) {shards left : List Shard}
    (fits : pass.total (rowsOf shards) ≤ u64Max) (ok : pass.deleteBoots boots shards = .ok left) :
    pass.Settled (rowsOf left) := by
  induction boots generalizing shards with
  | nil =>
    obtain ⟨cut, count, eq, enough, rows⟩ := pass.cutCurrent_eq fits
    obtain rfl := Except.ok.inj (eq.symm.trans ok)
    exact rows ▸ enough.settled
  | cons boot boots ih =>
    obtain ⟨rest, deleted, rows⟩ := pass.deleteBoot_rows boot shards
    have fits' : pass.total (rowsOf (pass.checkpointEvents rest)) ≤ u64Max := by
      rw [rowsOf_checkpointEvents, rows]
      exact (pass.total_without_le _ _).trans fits
    unfold deleteBoots at ok
    simp only [deleted, pass.totalLiveSize_eq fits', bind, Except.bind, pass.isOver_iff] at ok
    split_ifs at ok with exceeds
    · exact ih fits' ok
    · obtain rfl := Except.ok.inj ok
      exact .inl (not_lt.1 exceeds)

/-- **A size pass ends within the limit, or with no event left**, whatever the boots and the shards
of the rows. -/
theorem retain_event_size_reaches_limit (shards : List Shard)
    (fits : pass.total (rowsOf shards) ≤ u64Max) :
    ∃ left, pass.retainEventSize shards = .ok left ∧
      (pass.total (rowsOf left) ≤ pass.config.eventMaxBytes ∨ ∀ table ∈ rowsOf left, table = []) := by
  obtain ⟨left, k, ok, -, -, -, enough, others, current⟩ :=
    pass.deleteBoots_rows (pass.bootOrder shards) fits
  refine ⟨left, ok, or_iff_not_imp_left.2 fun exceeds table mem => ?_⟩
  have noCurrent := (pass.deleteBoots_settled _ fits ok).resolve_left exceeds
  -- over the limit, all other boots are gone
  have all : (pass.bootOrder shards).length ≤ k := by
    by_contra fewer
    have same := not_imp_not.2 current fun whole => fewer whole.1.ge
    exact exceeds (not_not.1 same ▸ enough (not_le.1 fewer))
  rw [take_of_length_le all] at others
  refine eq_nil_iff_forall_not_mem.2 fun row inside => ?_
  have other : row.2.bootId ≠ pass.currentBoot := fun is =>
    noCurrent ⟨table, mem, row, inside, decide_eq_true is⟩
  have kept : table.filter (fun row => row.2.bootId ∉ [pass.currentBoot]) ∈
      without [pass.currentBoot] (without (pass.bootOrder shards) (rowsOf shards)) :=
    others ▸ mem_map_of_mem mem
  obtain ⟨first, inFirst, is⟩ := mem_map.1 kept
  obtain ⟨before, present, rfl⟩ := mem_map.1 inFirst
  have stays := (mem_filter.1 (is.symm ▸ mem_filter.2 ⟨inside, by simpa using other⟩)).1
  obtain ⟨there, gone⟩ := mem_filter.1 stays
  exact of_decide_eq_true gone (((pass.oldestFirst_bootOrder shards).mem_iff _).2
    ⟨other, before, present, row, there, rfl⟩)

theorem retain_event_size_reaches_limit_one :
    ∃ left, (countingRows 1 (by decide)).retainEventSize [rowsAt [1, 2]] = .ok left ∧
      ((countingRows 1 (by decide)).total (rowsOf left) ≤ 1 ∨ ∀ table ∈ rowsOf left, table = []) :=
  (countingRows 1 (by decide)).retain_event_size_reaches_limit _ (by decide)

end SizePass

end Eventd
