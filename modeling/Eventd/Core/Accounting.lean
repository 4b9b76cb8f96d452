import Eventd.Core.Reconcile
import Eventd.Core.Shard

/-!
# What stored rows say about a sequence

A sequence of a stream is accounted for in the store in one of two ways: an event
row carries it, or the payload of a gap row names a range around it.  This module
reads both off the rows as they are stored, and relates them to the items a batch
was made of.

* `EventRow.isEventOf`, `EventRow.isGapOver`: the two ways;
* `stored`, `lost`: how often each happens in a list of rows;
* `IngestItem.accounts`: how often an item accounts for a sequence;
* `stored_add_lost_rows`: an item's rows account for a sequence as often as the item does;
* `accounts_pos_iff`: the receipts of an item cover exactly what it accounts for;
* `Shard.accounts_commit`, `Shard.covers_commit`: what a commit adds to both.
-/

namespace Eventd

open List

namespace EventRow

/-- Whether the row is the event with this sequence of the stream. -/
def isEventOf (row : EventRow) (bootId : Guid) (cpuId : UInt16) (s : ℕ) : Bool :=
  row.bootId == bootId && row.cpuId == some cpuId && row.sequence == some s

/-- The fields of a gap record; an emitter's event never has this type. -/
def gapPayload (row : EventRow) : Option GapPayload :=
  if row.eventType = eventsLost ∧ row.sequence = none then row.payload.bind decodeGapPayload
  else none

/-- Whether the row is a gap record of the stream that contains this sequence. -/
def isGapOver (row : EventRow) (bootId : Guid) (cpuId : UInt16) (s : ℕ) : Bool :=
  row.bootId == bootId && row.cpuId == some cpuId &&
    row.gapPayload.any fun gap => gap.sequence ≤ s && s ≤ gap.sequenceLast

end EventRow

section

variable (event : RealEvent) (boot bootId : Guid) (cpu cpuId : UInt16) (gap : Gap) (s : ℕ)

@[simp] theorem isEventOf_gapRow :
    (gapRow boot cpu gap).isEventOf bootId cpuId s = false := by
  simp [EventRow.isEventOf, gapRow]

@[simp] theorem isGapOver_eventRow :
    (eventRow event).isGapOver bootId cpuId s = false := by
  simp [EventRow.isGapOver, EventRow.gapPayload, eventRow]

theorem isEventOf_eventRow :
    (eventRow event).isEventOf bootId cpuId s = true ↔
      (event.bootId, event.cpuId) = (bootId, cpuId) ∧ event.sequence = s := by
  simp [EventRow.isEventOf, eventRow]

theorem isGapOver_gapRow :
    (gapRow boot cpu gap).isGapOver bootId cpuId s = true ↔
      (boot, cpu) = (bootId, cpuId) ∧ gap.contains s = true := by
  simp [EventRow.isGapOver, EventRow.gapPayload, gapRow, decodeGapPayload_encodeGapPayload]

end

/-- How many rows are the event with this sequence. -/
def stored (rows : List EventRow) (bootId : Guid) (cpuId : UInt16) (s : ℕ) : ℕ :=
  rows.countP fun row => row.isEventOf bootId cpuId s

/-- How many rows are gap records over this sequence. -/
def lost (rows : List EventRow) (bootId : Guid) (cpuId : UInt16) (s : ℕ) : ℕ :=
  rows.countP fun row => row.isGapOver bootId cpuId s

theorem stored_append (rows others : List EventRow) (bootId : Guid) (cpuId : UInt16) (s : ℕ) :
    stored (rows ++ others) bootId cpuId s =
      stored rows bootId cpuId s + stored others bootId cpuId s := countP_append

theorem lost_append (rows others : List EventRow) (bootId : Guid) (cpuId : UInt16) (s : ℕ) :
    lost (rows ++ others) bootId cpuId s =
      lost rows bootId cpuId s + lost others bootId cpuId s := countP_append

namespace IngestItem

/-- How often an item accounts for a sequence of a stream. -/
def accounts (item : IngestItem) (bootId : Guid) (cpuId : UInt16) (s : ℕ) : ℕ :=
  if item.stream = (bootId, cpuId) then
    (if item.storeEvent ∧ item.event.sequence = s then 1 else 0) + gapCount item.gaps s
  else 0

section

variable (item : IngestItem) (bootId : Guid) (cpuId : UInt16) (s : ℕ)

theorem stored_rows :
    stored item.rows bootId cpuId s =
      if item.stream = (bootId, cpuId) ∧ item.storeEvent ∧ item.event.sequence = s then 1
      else 0 := by
  have gaps : stored (item.gaps.map fun gap => gapRow item.event.bootId item.event.cpuId gap)
      bootId cpuId s = 0 := by
    rw [stored, countP_eq_zero]
    simp
  rw [rows, stored_append, gaps, zero_add]
  split
  · next event =>
    rw [stored, countP_singleton]
    simp only [isEventOf_eventRow, event, true_and]
    rfl
  · next event => simp [stored, event]

theorem lost_rows :
    lost item.rows bootId cpuId s =
      if item.stream = (bootId, cpuId) then gapCount item.gaps s else 0 := by
  have event : lost (if item.storeEvent then [eventRow item.event] else []) bootId cpuId s = 0 := by
    rw [lost, countP_eq_zero]
    split <;> simp
  rw [rows, lost_append, event, add_zero, lost, countP_map]
  split
  · next same =>
    refine countP_congr fun gap _ => ?_
    rw [Function.comp_apply, isGapOver_gapRow]
    exact and_iff_right same
  · next other =>
    rw [countP_eq_zero]
    intro gap _
    rw [Function.comp_apply, isGapOver_gapRow]
    exact fun h => other h.1

/-- **The rows of an item account for a sequence as often as the item does.** -/
theorem stored_add_lost_rows :
    stored item.rows bootId cpuId s + lost item.rows bootId cpuId s =
      item.accounts bootId cpuId s := by
  rw [stored_rows, lost_rows, accounts]
  by_cases same : item.stream = (bootId, cpuId) <;> simp [same]

/-- **The receipts of an item cover exactly what the item accounts for.** -/
theorem accounts_pos_iff :
    0 < item.accounts bootId cpuId s ↔
      item.stream = (bootId, cpuId) ∧ ∃ i ∈ item.receipts, i.contains s = true := by
  rw [accounts]
  split
  · next same =>
    have gaps : 0 < gapCount item.gaps s ↔ ∃ gap ∈ item.gaps, gap.contains s = true :=
      countP_pos_iff
    have event : (∃ i ∈ (if item.storeEvent then [item.event.interval] else []),
        i.contains s = true) ↔ item.storeEvent = true ∧ item.event.sequence = s := by
      rw [← RealEvent.contains_interval]
      split <;> simp [*]
    rw [Nat.add_pos_iff_pos_or_pos, gaps, and_iff_right same, receipts]
    simp only [mem_append, or_and_right, exists_or, event]
    rw [or_comm]
    refine or_congr ?_ ?_
    · simp only [mem_map, exists_exists_and_eq_and, Gap.contains_interval]
    · split <;> simp [*]
  · next other => simp [other]

end

end IngestItem

/-- How often the items of a list account for a sequence. -/
def accountsOf (items : List IngestItem) (bootId : Guid) (cpuId : UInt16) (s : ℕ) : ℕ :=
  (items.map fun item => item.accounts bootId cpuId s).sum

section

variable (items others : List IngestItem) (bootId : Guid) (cpuId : UInt16) (s : ℕ)

theorem accountsOf_append : accountsOf (items ++ others) bootId cpuId s =
      accountsOf items bootId cpuId s + accountsOf others bootId cpuId s := by
  simp [accountsOf]

theorem stored_add_lost_flatMap :
    stored (items.flatMap IngestItem.rows) bootId cpuId s +
        lost (items.flatMap IngestItem.rows) bootId cpuId s =
      accountsOf items bootId cpuId s := by
  induction items with
  | nil => rfl
  | cons item items ih =>
    have head := item.stored_add_lost_rows bootId cpuId s
    rw [flatMap_cons, stored_append, lost_append, accountsOf, map_cons,
      sum_cons, ← accountsOf]
    omega

theorem accountsOf_pos_iff :
    0 < accountsOf items bootId cpuId s ↔ ∃ item ∈ items, item.stream = (bootId, cpuId) ∧
      ∃ i ∈ item.receipts, i.contains s = true := by
  simp only [← IngestItem.accounts_pos_iff]
  induction items with
  | nil => simp [accountsOf]
  | cons item items ih =>
    rw [accountsOf, map_cons, sum_cons, ← accountsOf, Nat.add_pos_iff_pos_or_pos, ih,
      exists_mem_cons_iff]

end

namespace Shard

/-- How often the rows of a shard account for a sequence. -/
def accounts (shard : Shard) (bootId : Guid) (cpuId : UInt16) (s : ℕ) : ℕ :=
  stored shard.eventRows bootId cpuId s + lost shard.eventRows bootId cpuId s

/-- Whether a commit of these items writes them, whatever it then reports. -/
def commits (shard : Shard) (items : List IngestItem) (io : StorageIo) : Bool :=
  io.transaction.isNone && (writeItems items shard).isOk

theorem commit_of_commits {shard : Shard} {items : List IngestItem} {io : StorageIo}
    (h : shard.commits items io = true) :
    writeItems items shard = .ok (shard.commit items io).1 := by
  rw [commits, Bool.and_eq_true, Option.isNone_iff_eq_none] at h
  cases written : writeItems items shard with
  | error error => simp [written, Except.isOk, Except.toBool] at h
  | ok committed =>
    rw [commit]
    split
    · next empty =>
      subst empty
      exact written.symm
    · rw [transact, h.1, written]

theorem commit_of_not_commits {shard : Shard} {items : List IngestItem} {io : StorageIo}
    (h : shard.commits items io = false) : (shard.commit items io).1 = shard := by
  rcases commit_cases (Prod.mk.eta (p := shard.commit items io)).symm with
    ⟨-, same, -⟩ | ⟨-, same, -⟩ | ⟨-, written, fine, -⟩
  · exact same
  · exact same
  · simp [commits, fine, written, Except.isOk, Except.toBool] at h

section

variable (shard : Shard) (items : List IngestItem) (io : StorageIo)
  (bootId : Guid) (cpuId : UInt16) (s : ℕ)

/-- **A commit adds what its items account for**, if it writes them at all. -/
theorem accounts_commit :
    (shard.commit items io).1.accounts bootId cpuId s = shard.accounts bootId cpuId s +
      if shard.commits items io then accountsOf items bootId cpuId s else 0 := by
  cases written : shard.commits items io with
  | false => rw [commit_of_not_commits written, if_neg (by simp), add_zero]
  | true =>
    have rows := stored_add_lost_flatMap items bootId cpuId s
    rw [accounts, writeItems_rows (commit_of_commits written), stored_append, lost_append,
      accounts, if_pos rfl]
    omega

/-- **A commit adds receipts for what its items account for**, if it writes them at all. -/
theorem covers_commit :
    (shard.commit items io).1.Covers bootId cpuId s ↔ shard.Covers bootId cpuId s ∨
      0 < if shard.commits items io then accountsOf items bootId cpuId s else 0 := by
  cases written : shard.commits items io with
  | false => simp [commit_of_not_commits written]
  | true => rw [covers_writeItems (commit_of_commits written), if_pos rfl, accountsOf_pos_iff]

end

end Shard

end Eventd
