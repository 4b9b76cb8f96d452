import Eventd.Lib.Loop
import Eventd.Lib.MaxByKey
import Eventd.Core.Shard

/-!
# Size retention of the event store

`retain_event_size` of `eventd/src/retention.rs`: when the event store has a size
limit, whole boots other than the current one are deleted, the one whose newest
event is oldest first, and then rows of the current boot, until the store is within
its limit.  The pass runs here with nothing else happening and storage that does not
fail; what the databases' live size is, in which order a hash map lists its keys, and
when an orphan check may run are parameters.

* `retainEventSize`: the pass;
* `OnlyDemanded`: that a pass deleted only what the limit demands;
* `deleteBoot_rows`, `deleteBoots_rows`: what deleting one boot, and the boots in turn, leaves;
* `retain_event_size_only_demanded_iff`: a pass deletes only what is demanded exactly if
  the store is over its limit to begin with, or holds no boot but the current one.
-/

namespace Eventd

open List

/-- The rows of one `events` table. -/
abbrev Rows := List (ℕ × EventRow)

/-- The settings a size pass reads.  Passes run only with a limit, and the registry keeps
the batch between 100 and 100000 rows. -/
structure RetentionConfig where
  eventMaxBytes : ℕ
  batchRows : ℕ
  max_pos : 0 < eventMaxBytes
  batch_pos : 0 < batchRows
  batch_le : batchRows ≤ i64Max

/-- Everything a size pass depends on besides the shards. -/
structure SizePass where
  config : RetentionConfig
  currentBoot : Guid
  /-- The live size of a database with these event rows. -/
  liveSize : Rows → ℕ
  /-- Whether the orphan check of a shard may run when the shard is checkpointed. -/
  orphanCheck : Shard → Bool
  /-- The order in which a hash map with these entries lists them. -/
  iteration : List (Guid × ℤ) → List (Guid × ℤ)
  liveSize_mono : ∀ fewer rows : Rows, fewer.Sublist rows → liveSize fewer ≤ liveSize rows
  iteration_perm : ∀ entries, (iteration entries).Perm entries

/-- Why a pass ends early. -/
inductive RetentionError
  | shard (error : ShardError)
  | sizeOverflow
  deriving DecidableEq

/-- Whether a store of `size` bytes exceeds `maximum`, zero meaning no limit. -/
def isOver (size maximum : ℕ) : Bool := maximum ≠ 0 && maximum < size

namespace SizePass

variable (pass : SizePass)

/-- The live size of all event databases. -/
def totalLiveSize (shards : List Shard) : Except RetentionError ℕ :=
  shards.foldlM (fun total shard =>
    if total + pass.liveSize shard.events.rows ≤ u64Max then
      .ok (total + pass.liveSize shard.events.rows)
    else .error .sizeOverflow) 0

/-- Every boot in the databases with the timestamp of its newest event. -/
def bootInventory (shards : List Shard) : List (Guid × ℤ) :=
  shards.foldl (fun boots shard =>
    -- one `SELECT boot_id, MAX(timestamp) … GROUP BY boot_id` per database
    MaxByKey.collect boots
      (MaxByKey.collect [] (shard.events.rows.map fun row => (row.2.bootId, row.2.timestamp)))) []

/-- Delete one batch of a boot from every shard; the shards left and how many rows went. -/
def deleteBootOnce (boot : Guid) (limit : ℕ) :
    List Shard → Except RetentionError (List Shard × ℕ)
  | [] => .ok ([], 0)
  | shard :: shards =>
    match shard.retainBoot boot limit .fine with
    | (_, .error error) => .error (.shard error)
    | (shard, .ok deleted) => do
        let (rest, more) ← deleteBootOnce boot limit shards
        return (shard :: rest, deleted + more)

/-- Offer each shard its orphan check and checkpoint it. -/
def checkpointEvents (shards : List Shard) : List Shard :=
  shards.map fun shard => (shard.removeOrphanTypes (pass.orphanCheck shard) .fine).1

/-- How many event rows the shards hold. -/
def rowCount (shards : List Shard) : ℕ := (shards.map fun shard => shard.events.rows.length).sum

/-- One turn of deleting a boot: stop when a batch deletes nothing, which also leaves
every shard as it was. -/
def deleteBootTurn (boot : Guid) (shards : List Shard) :
    Except RetentionError (Option (List Shard)) := do
  let (shards, deleted) ← deleteBootOnce boot pass.config.batchRows shards
  return if deleted ≠ 0 then some shards else none

/-- Delete one whole non-current boot, a batch at a time.  Every turn deletes a row, so
the loop has at most as many turns as there are rows. -/
def deleteBoot (boot : Guid) (shards : List Shard) : Except RetentionError (List Shard) :=
  Loop.run (pass.deleteBootTurn boot) (rowCount shards + 1) shards

/-- One turn of cutting the current boot. -/
def cutCurrentTurn (shards : List Shard) : Except RetentionError (Option (List Shard)) := do
  let size ← pass.totalLiveSize shards
  if isOver size pass.config.eventMaxBytes then
    let (shards, deleted) ← deleteBootOnce pass.currentBoot pass.config.batchRows shards
    return if deleted = 0 then none else some (pass.checkpointEvents shards)
  else return none

/-- Delete batches of the current boot while the store is over its limit. -/
def cutCurrent (shards : List Shard) : Except RetentionError (List Shard) :=
  Loop.run pass.cutCurrentTurn (rowCount shards + 1) shards

/-- Delete boots in turn until the store is within its limit, and then cut the current one. -/
def deleteBoots : List Guid → List Shard → Except RetentionError (List Shard)
  | [], shards => pass.cutCurrent shards
  | boot :: boots, shards => do
      let shards ← pass.deleteBoot boot shards
      let shards := pass.checkpointEvents shards
      let size ← pass.totalLiveSize shards
      if isOver size pass.config.eventMaxBytes then deleteBoots boots shards
      else return shards

/-- The non-current boots, the one with the oldest newest event first. -/
def bootOrder (shards : List Shard) : List Guid :=
  (((pass.iteration (bootInventory shards)).filter fun entry =>
      entry.1 ≠ pass.currentBoot).insertionSort fun a b => a.2 ≤ b.2).map Prod.fst

/-- The size pass. -/
def retainEventSize (shards : List Shard) : Except RetentionError (List Shard) :=
  pass.deleteBoots (pass.bootOrder shards) shards

/-! ### What the pass is for -/

/-- The event rows of each shard. -/
def rowsOf (shards : List Shard) : List Rows := shards.map fun shard => shard.events.rows

/-- The rows of each shard without those of some boots. -/
def without (boots : List Guid) (rows : List Rows) : List Rows :=
  rows.map fun table => table.filter fun row => row.2.bootId ∉ boots

/-- The live size of databases with these rows. -/
def total (rows : List Rows) : ℕ := (rows.map pass.liveSize).sum

/-- The boots and timestamps of all rows. -/
def entries (rows : List Rows) : Set (Guid × ℤ) :=
  {entry | ∃ table ∈ rows, ∃ row ∈ table, (row.2.bootId, row.2.timestamp) = entry}

/-- The boots other than the current one, in the order of their newest events. -/
structure OldestFirst (rows : List Rows) (order : List Guid) : Prop where
  nodup : order.Nodup
  mem_iff : ∀ boot, boot ∈ order ↔
    boot ≠ pass.currentBoot ∧ ∃ table ∈ rows, ∃ row ∈ table, row.2.bootId = boot
  sorted : order.Pairwise fun a b => ∀ s t,
    MaxByKey.IsMax (entries rows) a s → MaxByKey.IsMax (entries rows) b t → s ≤ t

/-- The pass deleted only what the limit demands: nothing if the store was within its limit,
and otherwise the shortest sufficient run of the oldest non-current boots (all of them if
none suffices), each completely, and rows of the current boot only if that did not suffice. -/
structure OnlyDemanded (before after : List Rows) : Prop where
  within : pass.total before ≤ pass.config.eventMaxBytes → after = before
  exceeding : pass.config.eventMaxBytes < pass.total before →
    ∃ order, pass.OldestFirst before order ∧ ∃ k ≤ order.length,
      (∀ j < k, pass.config.eventMaxBytes < pass.total (without (order.take j) before)) ∧
      (k < order.length →
        pass.total (without (order.take k) before) ≤ pass.config.eventMaxBytes) ∧
      -- of the other boots, exactly the first `k` are gone
      (without [pass.currentBoot] after =
        without [pass.currentBoot] (without (order.take k) before)) ∧
      -- and of the current one, nothing unless all others did not suffice
      (after ≠ without (order.take k) before →
        k = order.length ∧ pass.config.eventMaxBytes < pass.total (without order before))

/-! ### One batch -/

theorem rowsOf_checkpointEvents (shards : List Shard) :
    rowsOf (pass.checkpointEvents shards) = rowsOf shards := by
  unfold rowsOf checkpointEvents
  rw [map_map]
  refine map_congr_left fun shard _ => ?_
  rw [Function.comp_apply, Shard.events_removeOrphanTypes]

/-- A batch leaves of each shard what a bounded delete of the boot leaves. -/
theorem deleteBootOnce_eq (boot : Guid) {limit : ℕ} (fits : limit ≤ i64Max) (shards : List Shard) :
    ∃ left deleted, deleteBootOnce boot limit shards = .ok (left, deleted) ∧
      rowsOf left = shards.map (fun shard => shard.survivors (fun row => row.bootId = boot) limit) ∧
      (deleted = 0 ↔ ∀ shard ∈ shards, shard.oldest (fun row => row.bootId = boot) limit = []) := by
  induction shards with
  | nil => exact ⟨[], 0, rfl, rfl, by simp⟩
  | cons shard shards ih =>
    obtain ⟨left, deleted, eq, rows, zero⟩ := ih
    obtain ⟨result, kept⟩ :=
      shard.deleteEvents_fine (fun row => row.bootId = boot) limit fits
    have pair : shard.retainBoot boot limit .fine =
        ((shard.retainBoot boot limit .fine).1,
          .ok (shard.oldest (fun row => row.bootId = boot) limit).length) :=
      Prod.ext rfl result
    unfold deleteBootOnce
    rw [pair, eq]
    refine ⟨_, _, rfl, ?_, ?_⟩
    · simp only [rowsOf, map_cons, List.cons.injEq] at rows ⊢
      exact ⟨kept, rows⟩
    · rw [Nat.add_eq_zero_iff, length_eq_zero_iff, zero, forall_mem_cons]

/-- What survives a bounded delete of a boot agrees with what was there on all other boots. -/
theorem without_survivors (boot : Guid) (limit : ℕ) (shards : List Shard) :
    without [boot]
        (shards.map fun shard => shard.survivors (fun row => row.bootId = boot) limit) =
      without [boot] (rowsOf shards) := by
  unfold without rowsOf
  rw [map_map, map_map]
  refine map_congr_left fun shard _ => ?_
  have kept := shard.filter_survivors (fun row => row.bootId = boot) limit
  simpa using kept

theorem rowCount_eq (shards : List Shard) :
    rowCount shards = ((rowsOf shards).map List.length).sum := by
  unfold rowCount rowsOf
  rw [map_map]
  rfl

theorem length_survivors_sum_lt (boot : Guid) (limit : ℕ) {shards : List Shard}
    (some : ¬ ∀ shard ∈ shards, shard.oldest (fun row => row.bootId = boot) limit = []) :
    ((shards.map fun shard =>
        shard.survivors (fun row => row.bootId = boot) limit).map List.length).sum <
      rowCount shards := by
  rw [map_map]
  push Not at some
  obtain ⟨shard, mem, nonempty⟩ := some
  refine sum_lt_sum _ _ (fun shard _ => ?_) ⟨shard, mem, ?_⟩
  · exact (shard.survivors_sublist _ limit).length_le
  · exact shard.length_survivors_lt _ limit nonempty

theorem without_of_oldest_nil {boot : Guid} {limit : ℕ} (pos : 0 < limit) {shards : List Shard}
    (none : ∀ shard ∈ shards, shard.oldest (fun row => row.bootId = boot) limit = []) :
    without [boot] (rowsOf shards) = rowsOf shards := by
  unfold without rowsOf
  rw [map_map]
  refine map_congr_left fun shard mem => ?_
  rw [Function.comp_apply, filter_eq_self]
  intro row hrow
  have := shard.oldest_eq_nil _ limit pos (none shard mem) row hrow
  simpa using this

/-! ### Deleting one boot -/

theorem deleteBootTurn_cases (boot : Guid) (shards : List Shard) :
    (pass.deleteBootTurn boot shards = .ok none ∧
      without [boot] (rowsOf shards) = rowsOf shards) ∨
    ∃ next, pass.deleteBootTurn boot shards = .ok (some next) ∧
      without [boot] (rowsOf next) = without [boot] (rowsOf shards) ∧
      rowCount next < rowCount shards := by
  obtain ⟨left, deleted, eq, rows, zero⟩ :=
    deleteBootOnce_eq boot pass.config.batch_le shards
  unfold deleteBootTurn
  rw [eq]
  by_cases none : deleted = 0
  · refine .inl ⟨by simp [none], ?_⟩
    exact without_of_oldest_nil pass.config.batch_pos (zero.1 none)
  · refine .inr ⟨left, by simp [none], ?_, ?_⟩
    · rw [rows, without_survivors]
    · rw [rowCount_eq left, rows]
      exact length_survivors_sum_lt boot _ (mt zero.2 none)

/-- **Deleting a boot removes all its rows from every shard, and no other row.** -/
theorem deleteBoot_rows (boot : Guid) (shards : List Shard) :
    ∃ left, pass.deleteBoot boot shards = .ok left ∧
      rowsOf left = without [boot] (rowsOf shards) := by
  obtain ⟨left, eq, same, stopped⟩ := Loop.run_spec
    (fun s => without [boot] (rowsOf s) = without [boot] (rowsOf shards)) rowCount
    (fun s inv => by
      rcases pass.deleteBootTurn_cases boot s with ⟨stop, -⟩ | ⟨next, go, same, lower⟩
      · exact .inl stop
      · exact .inr ⟨next, go, same.trans inv, lower⟩)
    rfl (Nat.lt_succ_self (rowCount shards))
  refine ⟨left, eq, ?_⟩
  -- the loop ended because a batch found nothing more of the boot
  rcases pass.deleteBootTurn_cases boot left with ⟨-, gone⟩ | ⟨_, go, -⟩
  · rw [← gone, same]
  · rw [stopped] at go
    cases go

/-! ### Sizes -/

variable {shards : List Shard}

theorem totalLiveSize_eq (fits : pass.total (rowsOf shards) ≤ u64Max) :
    pass.totalLiveSize shards = .ok (pass.total (rowsOf shards)) := by
  have started (start : ℕ) (fits : start + pass.total (rowsOf shards) ≤ u64Max) :
      shards.foldlM (fun total shard =>
        if total + pass.liveSize shard.events.rows ≤ u64Max then
          Except.ok (total + pass.liveSize shard.events.rows)
        else .error RetentionError.sizeOverflow) start =
        .ok (start + pass.total (rowsOf shards)) := by
    induction shards generalizing start with
    | nil => rfl
    | cons shard shards ih =>
      have split : pass.total (rowsOf (shard :: shards)) =
          pass.liveSize shard.events.rows + pass.total (rowsOf shards) := by
        simp [total, rowsOf]
      rw [split] at fits ⊢
      rw [foldlM_cons, if_pos (by omega)]
      exact (ih (by omega) _ (by omega)).trans (by rw [add_assoc])
  rw [totalLiveSize, started 0 (by omega), zero_add]

theorem total_le_of_sublists {fewer rows : List Rows}
    (sub : List.Forall₂ List.Sublist fewer rows) : pass.total fewer ≤ pass.total rows := by
  induction sub with
  | nil => exact le_rfl
  | cons head _ ih =>
    simp only [total, map_cons, sum_cons] at ih ⊢
    exact Nat.add_le_add (pass.liveSize_mono _ _ head) ih

theorem total_without_le (boots : List Guid) (rows : List Rows) :
    pass.total (without boots rows) ≤ pass.total rows := by
  refine pass.total_le_of_sublists ?_
  unfold without
  rw [forall₂_map_left_iff]
  exact forall₂_same.2 fun _ _ => filter_sublist

theorem isOver_iff (size : ℕ) :
    isOver size pass.config.eventMaxBytes = true ↔ pass.config.eventMaxBytes < size := by
  have := pass.config.max_pos
  simp only [isOver, Bool.and_eq_true, decide_eq_true_eq]
  omega

/-! ### Cutting the current boot -/

/-- What one turn of cutting the current boot does: it stops within the limit or where nothing
of the boot is left, and otherwise deletes a batch from every shard. -/
theorem cutCurrentTurn_eq (fits : pass.total (rowsOf shards) ≤ u64Max) :
    (pass.cutCurrentTurn shards = .ok none ∧
      (pass.total (rowsOf shards) ≤ pass.config.eventMaxBytes ∨ ∀ shard ∈ shards,
        shard.oldest (fun row => row.bootId = pass.currentBoot) pass.config.batchRows = [])) ∨
    pass.config.eventMaxBytes < pass.total (rowsOf shards) ∧
    (¬ ∀ shard ∈ shards,
      shard.oldest (fun row => row.bootId = pass.currentBoot) pass.config.batchRows = []) ∧
    ∃ next, pass.cutCurrentTurn shards = .ok (some next) ∧
      rowsOf next = shards.map fun shard =>
        shard.survivors (fun row => row.bootId = pass.currentBoot) pass.config.batchRows := by
  obtain ⟨left, deleted, eq, rows, zero⟩ :=
    deleteBootOnce_eq pass.currentBoot pass.config.batch_le shards
  unfold cutCurrentTurn
  rw [pass.totalLiveSize_eq fits]
  by_cases exceeds : pass.config.eventMaxBytes < pass.total (rowsOf shards)
  · by_cases none : deleted = 0
    · refine .inl ⟨?_, .inr (zero.1 none)⟩
      simp [bind, Except.bind, pass.isOver_iff, exceeds, eq, none, pure, Except.pure]
    · refine .inr ⟨exceeds, mt zero.2 none, pass.checkpointEvents left, ?_, ?_⟩
      · simp [bind, Except.bind, pass.isOver_iff, exceeds, eq, none, pure, Except.pure]
      · rw [rowsOf_checkpointEvents, rows]
  · refine .inl ⟨?_, .inl (not_lt.1 exceeds)⟩
    simp [bind, Except.bind, pass.isOver_iff, exceeds, pure, Except.pure]

theorem total_survivors_le (condition : EventRow → Bool) (limit : ℕ) (shards : List Shard) :
    pass.total (shards.map fun shard => shard.survivors condition limit) ≤
      pass.total (rowsOf shards) := by
  refine pass.total_le_of_sublists ?_
  unfold rowsOf
  rw [forall₂_map_left_iff, forall₂_map_right_iff]
  exact forall₂_same.2 fun shard _ => shard.survivors_sublist _ _

theorem cutCurrentTurn_cases (fits : pass.total (rowsOf shards) ≤ u64Max) :
    pass.cutCurrentTurn shards = .ok none ∨
    pass.config.eventMaxBytes < pass.total (rowsOf shards) ∧
    ∃ next, pass.cutCurrentTurn shards = .ok (some next) ∧
      without [pass.currentBoot] (rowsOf next) = without [pass.currentBoot] (rowsOf shards) ∧
      pass.total (rowsOf next) ≤ pass.total (rowsOf shards) ∧
      rowCount next < rowCount shards := by
  rcases pass.cutCurrentTurn_eq fits with ⟨stop, -⟩ | ⟨exceeds, some, next, go, rows⟩
  · exact .inl stop
  · refine .inr ⟨exceeds, next, go, ?_, ?_, ?_⟩
    · rw [rows, without_survivors]
    · rw [rows]
      exact pass.total_survivors_le _ _ shards
    · rw [rowCount_eq, rows]
      exact length_survivors_sum_lt _ _ some

/-- Cutting the current boot touches no other boot, and nothing within the limit. -/
theorem cutCurrent_rows (fits : pass.total (rowsOf shards) ≤ u64Max) :
    ∃ left, pass.cutCurrent shards = .ok left ∧
      without [pass.currentBoot] (rowsOf left) = without [pass.currentBoot] (rowsOf shards) ∧
      (rowsOf left ≠ rowsOf shards → pass.config.eventMaxBytes < pass.total (rowsOf shards)) := by
  obtain ⟨left, eq, ⟨same, -, demanded⟩, -⟩ := Loop.run_spec
    (fun s => without [pass.currentBoot] (rowsOf s) =
        without [pass.currentBoot] (rowsOf shards) ∧
      pass.total (rowsOf s) ≤ pass.total (rowsOf shards) ∧
      (rowsOf s ≠ rowsOf shards → pass.config.eventMaxBytes < pass.total (rowsOf shards)))
    rowCount
    (fun s inv => by
      rcases pass.cutCurrentTurn_cases (inv.2.1.trans fits) with
        stop | ⟨exceeds, next, go, same, less, lower⟩
      · exact .inl stop
      · exact .inr ⟨next, go, ⟨same.trans inv.1, less.trans inv.2.1,
          fun _ => exceeds.trans_le inv.2.1⟩, lower⟩)
    ⟨rfl, le_rfl, fun differ => absurd rfl differ⟩ (Nat.lt_succ_self (rowCount shards))
  exact ⟨left, eq, same, demanded⟩

/-! ### Deleting boots in turn -/

@[simp] theorem without_nil (rows : List Rows) : without [] rows = rows := by
  simp [without]

theorem without_cons (boot : Guid) (boots : List Guid) (rows : List Rows) :
    without (boot :: boots) rows = without boots (without [boot] rows) := by
  simp [without, filter_filter, Bool.and_comm]

/-- **The boots in turn.**  Some first `k` of the boots are gone, and nothing else but rows
of the current boot.  The first boot goes unasked; each further one only while the store
is over its limit. -/
theorem deleteBoots_rows (boots : List Guid) {shards : List Shard}
    (fits : pass.total (rowsOf shards) ≤ u64Max) :
    ∃ left k, pass.deleteBoots boots shards = .ok left ∧ k ≤ boots.length ∧
      (boots ≠ [] → 0 < k) ∧
      (∀ j, 0 < j → j < k →
        pass.config.eventMaxBytes < pass.total (without (boots.take j) (rowsOf shards))) ∧
      (k < boots.length →
        pass.total (without (boots.take k) (rowsOf shards)) ≤ pass.config.eventMaxBytes) ∧
      without [pass.currentBoot] (rowsOf left) =
        without [pass.currentBoot] (without (boots.take k) (rowsOf shards)) ∧
      (rowsOf left ≠ without (boots.take k) (rowsOf shards) → k = boots.length ∧
        pass.config.eventMaxBytes < pass.total (without boots (rowsOf shards))) := by
  induction boots generalizing shards with
  | nil =>
    obtain ⟨left, eq, same, demanded⟩ := pass.cutCurrent_rows fits
    refine ⟨left, 0, eq, le_rfl, fun h => absurd rfl h, by omega, by simp, ?_, ?_⟩
    · simpa using same
    · simpa using demanded
  | cons boot boots ih =>
    obtain ⟨rest, deleted, rows⟩ := pass.deleteBoot_rows boot shards
    have checkpointed : rowsOf (pass.checkpointEvents rest) = without [boot] (rowsOf shards) :=
      (pass.rowsOf_checkpointEvents rest).trans rows
    have fits' : pass.total (rowsOf (pass.checkpointEvents rest)) ≤ u64Max := by
      rw [checkpointed]
      exact (pass.total_without_le _ _).trans fits
    unfold deleteBoots
    simp only [deleted, pass.totalLiveSize_eq fits', bind, Except.bind, pass.isOver_iff]
    split_ifs with exceeds
    · obtain ⟨left, k, eq, le, -, before, enough, others, current⟩ := ih fits'
      rw [checkpointed] at before enough others current exceeds
      refine ⟨left, k + 1, eq, Nat.succ_le_succ le, fun _ => Nat.succ_pos k, ?_, ?_, ?_, ?_⟩
      · intro j pos lt
        obtain ⟨i, rfl⟩ := Nat.exists_eq_add_of_lt pos
        rw [zero_add, take_succ_cons, without_cons]
        rcases Nat.eq_zero_or_pos i with rfl | pos
        · simpa using exceeds
        · exact before i pos (by omega)
      · rw [take_succ_cons, without_cons, length_cons]
        exact fun lt => enough (by omega)
      · rw [take_succ_cons, without_cons boot]
        exact others
      · rw [take_succ_cons, without_cons boot (boots.take k), without_cons boot boots,
          length_cons]
        exact fun differ => (current differ).imp_left (congrArg Nat.succ)
    · rw [checkpointed] at exceeds
      refine ⟨_, 1, rfl, by simp, fun _ => Nat.one_pos, by omega, fun _ => ?_, ?_, ?_⟩
      · simpa using exceeds
      · simp [checkpointed]
      · simp [checkpointed]

/-! ### The order of the boots -/

theorem tracks_bootInventory (shards : List Shard) :
    MaxByKey.Tracks (bootInventory shards) (entries (rowsOf shards)) := by
  have started (known : List (Guid × ℤ)) (seen : Set (Guid × ℤ))
      (h : MaxByKey.Tracks known seen) :
      MaxByKey.Tracks
        (shards.foldl (fun boots shard => MaxByKey.collect boots
          (MaxByKey.collect [] (shard.events.rows.map fun row =>
            (row.2.bootId, row.2.timestamp)))) known)
        (seen ∪ entries (rowsOf shards)) := by
    induction shards generalizing known seen with
    | nil => simpa [entries, rowsOf] using h
    | cons shard shards ih =>
      have group := MaxByKey.tracks_collect MaxByKey.tracks_nil
        (shard.events.rows.map fun row => (row.2.bootId, row.2.timestamp))
      have eq : seen ∪ entries (rowsOf (shard :: shards)) =
          seen ∪ (∅ ∪ {e | e ∈ shard.events.rows.map fun row =>
            (row.2.bootId, row.2.timestamp)}) ∪ entries (rowsOf shards) := by
        ext entry
        simp [entries, rowsOf, or_assoc]
      rw [eq]
      exact ih _ _ (MaxByKey.tracks_collect_trans h group)
  have all := started [] ∅ MaxByKey.tracks_nil
  rwa [Set.empty_union] at all

theorem mem_entries_iff (rows : List Rows) (boot : Guid) :
    (∃ time, (boot, time) ∈ entries rows) ↔ ∃ table ∈ rows, ∃ row ∈ table, row.2.bootId = boot := by
  constructor
  · rintro ⟨time, table, htable, row, hrow, eq⟩
    exact ⟨table, htable, row, hrow, congrArg Prod.fst eq⟩
  · rintro ⟨table, htable, row, hrow, rfl⟩
    exact ⟨row.2.timestamp, table, htable, row, hrow, rfl⟩

/-- **The pass takes the boots in the right order.** -/
theorem oldestFirst_bootOrder (shards : List Shard) :
    pass.OldestFirst (rowsOf shards) (pass.bootOrder shards) := by
  have tracks := tracks_bootInventory shards
  have perm := pass.iteration_perm (bootInventory shards)
  have mem (entry : Guid × ℤ) :
      entry ∈ ((pass.iteration (bootInventory shards)).filter fun entry =>
        entry.1 ≠ pass.currentBoot).insertionSort (fun a b => a.2 ≤ b.2) ↔
        entry ∈ bootInventory shards ∧ entry.1 ≠ pass.currentBoot := by
    rw [mem_insertionSort, mem_filter, perm.mem_iff, decide_eq_true_eq]
  refine ⟨?_, fun boot => ?_, ?_⟩
  · refine ((perm_insertionSort _ _).map Prod.fst).nodup_iff.2 ?_
    exact (((perm.map Prod.fst).nodup_iff.2 tracks.nodup).sublist
      (filter_sublist.map Prod.fst))
  · rw [bootOrder, mem_map, ← mem_entries_iff]
    constructor
    · rintro ⟨entry, listed, rfl⟩
      obtain ⟨listed, other⟩ := (mem entry).1 listed
      exact ⟨other, entry.2, (tracks.isMax entry listed).1⟩
    · rintro ⟨other, time, present⟩
      obtain ⟨value, listed⟩ := tracks.complete _ present
      exact ⟨(boot, value), (mem _).2 ⟨listed, other⟩, rfl⟩
  · rw [bootOrder, pairwise_map]
    refine (pairwise_insertionSort (fun a b : Guid × ℤ => a.2 ≤ b.2) _).imp_of_mem ?_
    intro a b ha hb le s t hs ht
    -- the inventory holds the newest timestamp of each boot
    have maxA := tracks.isMax a ((mem a).1 ha).1
    have maxB := tracks.isMax b ((mem b).1 hb).1
    calc s ≤ a.2 := maxA.2 s hs.1
      _ ≤ b.2 := le
      _ ≤ t := ht.2 _ maxB.1

/-! ### The whole pass -/

/-- Some row belongs to a boot other than the current one. -/
def HasOldBoot (rows : List Rows) : Prop :=
  ∃ table ∈ rows, ∃ row ∈ table, row.2.bootId ≠ pass.currentBoot

theorem bootOrder_eq_nil_iff (shards : List Shard) :
    pass.bootOrder shards = [] ↔ ¬ pass.HasOldBoot (rowsOf shards) := by
  have order := pass.oldestFirst_bootOrder shards
  rw [eq_nil_iff_forall_not_mem]
  constructor
  · rintro none ⟨table, htable, row, hrow, other⟩
    exact none row.2.bootId ((order.mem_iff _).2 ⟨other, table, htable, row, hrow, rfl⟩)
  · intro none boot mem
    obtain ⟨other, table, htable, row, hrow, rfl⟩ := (order.mem_iff boot).1 mem
    exact none ⟨table, htable, row, hrow, other⟩

/-- Deleting a boot other than the current one that has rows changes the rows of the others. -/
theorem without_ne {boots : List Guid} {boot : Guid} (mem : boot ∈ boots)
    (other : boot ≠ pass.currentBoot) {rows after : List Rows}
    (present : ∃ table ∈ rows, ∃ row ∈ table, row.2.bootId = boot)
    (gone : without [pass.currentBoot] after =
      without [pass.currentBoot] (without boots rows)) : after ≠ rows := by
  rintro rfl
  obtain ⟨table, htable, row, hrow, rfl⟩ := present
  have kept : table.filter (fun row => row.2.bootId ∉ [pass.currentBoot]) ∈
      without [pass.currentBoot] after := mem_map_of_mem htable
  rw [gone] at kept
  obtain ⟨_, htable', eq⟩ := mem_map.1 kept
  obtain ⟨table', -, rfl⟩ := mem_map.1 htable'
  have hrow' : row ∈ table.filter (fun row => row.2.bootId ∉ [pass.currentBoot]) := by
    simp [hrow, other]
  rw [← eq, mem_filter, mem_filter] at hrow'
  simpa [mem] using hrow'.1.2

/-- **Size retention deletes only what the limit demands, exactly if the store is over its
limit when the pass starts, or no boot but the current one has a row.**  The pass always
ends. -/
theorem retain_event_size_only_demanded_iff (shards : List Shard)
    (fits : pass.total (rowsOf shards) ≤ u64Max) :
    ∃ left, pass.retainEventSize shards = .ok left ∧
      (pass.OnlyDemanded (rowsOf shards) (rowsOf left) ↔
        pass.config.eventMaxBytes < pass.total (rowsOf shards) ∨
          ¬ pass.HasOldBoot (rowsOf shards)) := by
  have order := pass.oldestFirst_bootOrder shards
  obtain ⟨left, k, eq, le, first, before, enough, others, current⟩ :=
    pass.deleteBoots_rows (pass.bootOrder shards) fits
  refine ⟨left, eq, fun demanded => ?_, fun condition => ⟨fun within => ?_, fun exceeds => ?_⟩⟩
  · by_contra fails
    push Not at fails
    have nonempty := mt (pass.bootOrder_eq_nil_iff shards).1 (not_not.2 fails.2)
    -- the oldest boot is gone although the store was within its limit
    obtain ⟨boot, boots, eq⟩ := exists_cons_of_ne_nil nonempty
    have taken : boot ∈ (pass.bootOrder shards).take k := by
      obtain ⟨i, rfl⟩ := Nat.exists_eq_add_of_lt (first nonempty)
      rw [zero_add, eq, take_succ_cons]
      exact mem_cons_self
    have old := (order.mem_iff boot).1 (mem_of_mem_take taken)
    exact pass.without_ne taken old.1 old.2 others (demanded.within fails.1)
  · have nil := (pass.bootOrder_eq_nil_iff shards).2 (condition.resolve_left within.not_gt)
    rw [nil] at current
    by_contra differ
    simp only [take_nil, without_nil] at current
    exact absurd (current differ).2 within.not_gt
  · refine ⟨pass.bootOrder shards, order, k, le, fun j lt => ?_, enough, others, current⟩
    rcases Nat.eq_zero_or_pos j with rfl | pos
    · simpa using exceeds
    · exact before j pos lt

/-- A pass over databases whose live size is their number of rows. -/
def countingRows (eventMaxBytes : ℕ) (max_pos : 0 < eventMaxBytes) : SizePass where
  config := ⟨eventMaxBytes, 100, max_pos, by decide, by decide⟩
  currentBoot := Vector.replicate 16 1
  liveSize := List.length
  orphanCheck _ := true
  iteration := id
  liveSize_mono _ _ sub := sub.length_le
  iteration_perm := .refl

/-- A shard with one row, of a given boot. -/
def oneRow (boot : Guid) : Shard :=
  Shard.new.insertRow (syntheticRow ⟨boot, 0, daemonStarted, []⟩)

/-- Two old rows and a limit of one: the pass deletes only what is demanded. -/
theorem retain_event_size_over_limit :
    ∃ left, (countingRows 1 (by decide)).retainEventSize
        [oneRow (Vector.replicate 16 2), oneRow (Vector.replicate 16 3)] = .ok left ∧
      (countingRows 1 (by decide)).OnlyDemanded
        (rowsOf [oneRow (Vector.replicate 16 2), oneRow (Vector.replicate 16 3)])
        (rowsOf left) := by
  obtain ⟨left, eq, demanded⟩ := (countingRows 1 (by decide)).retain_event_size_only_demanded_iff
    [oneRow (Vector.replicate 16 2), oneRow (Vector.replicate 16 3)] (by decide)
  exact ⟨left, eq, demanded.2 (.inl (by decide))⟩

/-- A store of one row, of an old boot, with room for ten: the pass deletes the row. -/
theorem retain_event_size_under_limit :
    ∃ left, (countingRows 10 (by decide)).retainEventSize [oneRow (Vector.replicate 16 2)] =
        .ok left ∧
      (countingRows 10 (by decide)).total (rowsOf [oneRow (Vector.replicate 16 2)]) = 1 ∧
      rowsOf left = [[]] ∧
      ¬ (countingRows 10 (by decide)).OnlyDemanded (rowsOf [oneRow (Vector.replicate 16 2)])
        (rowsOf left) := by
  refine ⟨_, rfl, rfl, rfl, fun demanded => ?_⟩
  exact absurd (demanded.within (by decide)) (by decide)

end SizePass

end Eventd
