import Eventd.Daemon.LostBatches
import Mathlib.Order.CompletePartialOrder

/-!
# Where the sequences of a writer's items are

An item taken from the queue names sequences of its CPU: those of its gaps, and that of its event
if the event is stored.  Between two turns of the loop each of them is in a row that was
committed, on the list of lost ranges or in the batch being filled; and of the rows of the live
shard, events and gaps apart, the list and the batch only one names it.

A commit can report a corruption after it has taken effect.  Until the shard is replaced its rows
and the list then name the same sequences, so the invariant comes in two parts: `Kept`, that
nothing disappears, which every operation keeps, and `Ledger`, that nothing is in two places,
which holds where an operation has succeeded.

* `named`, `eventCells`, `gapCells`: the sequences of items and of rows;
* `Kept`, `Ledger`: the invariant;
* `ledger_rule`, `moving_rule`: what control messages and commits of batches make of it;
* `ledger_run`, `items_accounted`: every run.
-/

namespace Eventd

open List Coalesce

/-! ### The sequences of items and rows -/

/-- The sequences that items account for, with their CPU. -/
def named (items : List IngestItem) : Set (UInt16 × ℕ) := covers LostRange.cells (lostRanges items)

/-- The sequences of the events among some rows. -/
def eventCells (bootId : Guid) (rows : List EventRow) : Set (UInt16 × ℕ) :=
  {cell | ∃ row ∈ rows, row.isEventOf bootId cell.1 cell.2 = true}

/-- The sequences inside the gaps among some rows. -/
def gapCells (bootId : Guid) (rows : List EventRow) : Set (UInt16 × ℕ) :=
  {cell | ∃ row ∈ rows, row.isGapOver bootId cell.1 cell.2 = true}

/-- The sequences that some rows account for. -/
def recorded (bootId : Guid) (rows : List EventRow) : Set (UInt16 × ℕ) :=
  eventCells bootId rows ∪ gapCells bootId rows

/-- No gap of the item contains the sequence of its own event. -/
def IngestItem.Apart (item : IngestItem) : Prop :=
  item.storeEvent = true → ∀ gap ∈ item.gaps, gap.contains item.event.sequence = false

section Cells

variable {bootId : Guid}

theorem named_append (items others : List IngestItem) :
    named (items ++ others) = named items ∪ named others := by
  ext cell
  simp only [named, lostRanges, flatMap_append, mem_covers, mem_append, or_and_right,
    exists_or, Set.mem_union]

variable {items : List IngestItem} {item : IngestItem}

theorem mem_named_iff {cell : UInt16 × ℕ} :
    cell ∈ named items ↔ ∃ item ∈ items, cell ∈ named [item] := by
  simp only [named, lostRanges, mem_covers, mem_flatMap, flatMap_cons, flatMap_nil,
    append_nil]
  constructor
  · rintro ⟨range, ⟨item, mem, own⟩, inside⟩
    exact ⟨item, mem, range, own, inside⟩
  · rintro ⟨item, mem, range, own, inside⟩
    exact ⟨range, ⟨item, mem, own⟩, inside⟩

theorem eventCells_append (rows others : List EventRow) :
    eventCells bootId (rows ++ others) = eventCells bootId rows ∪ eventCells bootId others := by
  ext cell
  simp [eventCells, or_and_right, exists_or]

theorem gapCells_append (rows others : List EventRow) :
    gapCells bootId (rows ++ others) = gapCells bootId rows ∪ gapCells bootId others := by
  ext cell
  simp [gapCells, or_and_right, exists_or]

theorem recorded_append (rows others : List EventRow) :
    recorded bootId (rows ++ others) = recorded bootId rows ∪ recorded bootId others := by
  rw [recorded, eventCells_append, gapCells_append, recorded, recorded]
  exact Set.union_union_union_comm _ _ _ _

theorem eventCells_mono {rows others : List EventRow} (sub : rows ⊆ others) :
    eventCells bootId rows ⊆ eventCells bootId others :=
  fun _ ⟨row, mem, is⟩ => ⟨row, sub mem, is⟩

theorem gapCells_mono {rows others : List EventRow} (sub : rows ⊆ others) :
    gapCells bootId rows ⊆ gapCells bootId others :=
  fun _ ⟨row, mem, is⟩ => ⟨row, sub mem, is⟩

/-- The rows of pending ranges record what the ranges cover. -/
theorem gapCells_ranges (ranges : List LostRange) :
    gapCells bootId (ranges.map fun range => gapRow bootId range.1 range.2) =
      covers LostRange.cells ranges := by
  ext cell
  simp only [gapCells, Set.mem_ofPred_eq, mem_map, exists_exists_and_eq_and,
    isGapOver_gapRow, Prod.mk.injEq, true_and, mem_covers]
  rfl

theorem eventCells_ranges (ranges : List LostRange) :
    eventCells bootId (ranges.map fun range => gapRow bootId range.1 range.2) = ∅ := by
  ext cell
  simp [eventCells]

theorem recorded_synthetic (event : SyntheticEvent) : recorded bootId [syntheticRow event] = ∅ := by
  ext cell
  simp [recorded, eventCells, gapCells, EventRow.isEventOf, EventRow.isGapOver, syntheticRow]

theorem mem_eventCells_rows (boot : item.event.bootId = bootId) {cell : UInt16 × ℕ} :
    cell ∈ eventCells bootId item.rows ↔
      item.storeEvent = true ∧ item.event.cpuId = cell.1 ∧ item.event.sequence = cell.2 := by
  have gaps : eventCells bootId
      (item.gaps.map fun gap => gapRow item.event.bootId item.event.cpuId gap) = ∅ := by
    ext
    simp [eventCells]
  rw [IngestItem.rows, eventCells_append, gaps, Set.empty_union]
  by_cases stored : item.storeEvent = true
  · simp [eventCells, stored, isEventOf_eventRow, boot]
  · simp [eventCells, stored]

theorem mem_gapCells_rows (boot : item.event.bootId = bootId) {cell : UInt16 × ℕ} :
    cell ∈ gapCells bootId item.rows ↔
      item.event.cpuId = cell.1 ∧ ∃ gap ∈ item.gaps, gap.contains cell.2 = true := by
  have event : gapCells bootId (if item.storeEvent then [eventRow item.event] else []) = ∅ := by
    ext
    split_ifs <;> simp [gapCells]
  rw [IngestItem.rows, gapCells_append, event, Set.union_empty]
  simp only [gapCells, Set.mem_ofPred_eq, mem_map, exists_exists_and_eq_and,
    isGapOver_gapRow, boot, Prod.mk.injEq, true_and]
  constructor
  · rintro ⟨gap, mem, cpu, inside⟩
    exact ⟨cpu, gap, mem, inside⟩
  · rintro ⟨cpu, gap, mem, inside⟩
    exact ⟨gap, mem, cpu, inside⟩

theorem recorded_rows (boot : item.event.bootId = bootId) :
    recorded bootId item.rows = named [item] := by
  ext cell
  have mem : cell ∈ named [item] ↔ _ := mem_covers_lostRanges
  rw [recorded, Set.mem_union, mem_eventCells_rows boot, mem_gapCells_rows boot, mem]
  simp only [mem_singleton, exists_eq_left]
  rw [and_or_left, and_left_comm, or_comm]

theorem recorded_flatMap (boot : ∀ item ∈ items, item.event.bootId = bootId) :
    recorded bootId (items.flatMap IngestItem.rows) = named items := by
  induction items with
  | nil =>
    ext cell
    simp [recorded, eventCells, gapCells, named, lostRanges]
  | cons item items ih =>
    obtain ⟨here, later⟩ := forall_mem_cons.1 boot
    rw [flatMap_cons, recorded_append, recorded_rows here, ih later, ← named_append]
    rfl

/-- If every item is apart from its own gaps and no two share a sequence, no event of theirs
lies in a gap. -/
theorem disjoint_rows (boot : ∀ item ∈ items, item.event.bootId = bootId)
    (apart : ∀ item ∈ items, item.Apart)
    (distinct : items.Pairwise fun a b => Disjoint (named [a]) (named [b])) :
    Disjoint (eventCells bootId (items.flatMap IngestItem.rows))
      (gapCells bootId (items.flatMap IngestItem.rows)) := by
  refine Set.disjoint_left.2 fun cell ⟨row, memRow, event⟩ ⟨row', memRow', gap⟩ => ?_
  obtain ⟨item, mem, own⟩ := mem_flatMap.1 memRow
  obtain ⟨item', mem', own'⟩ := mem_flatMap.1 memRow'
  have event : cell ∈ eventCells bootId item.rows := ⟨row, own, event⟩
  have gap : cell ∈ gapCells bootId item'.rows := ⟨row', own', gap⟩
  by_cases same : item = item'
  · subst same
    obtain ⟨stored, -, same⟩ := (mem_eventCells_rows (boot item mem)).1 event
    obtain ⟨-, hole, memHole, inside⟩ := (mem_gapCells_rows (boot item mem)).1 gap
    rw [← same, apart item mem stored hole memHole] at inside
    cases inside
  · have symm : Std.Symm fun a b : IngestItem => Disjoint (named [a]) (named [b]) :=
      ⟨fun _ _ disjoint => disjoint.symm⟩
    have none := distinct.forall mem mem' same
    rw [← recorded_rows (boot item mem), ← recorded_rows (boot item' mem')] at none
    exact Set.disjoint_left.1 none (.inl event) (.inr gap)

end Cells

/-! ### The invariant -/

namespace Writer

/-- The rows that the writer committed, to the live shard or to one quarantined since. -/
def written (w : Writer) : List EventRow :=
  w.log.filterMap fun effect =>
    match effect with
    | .wrote row => some row
    | .lost _ _ => none

/-- The sequences on the list of lost ranges. -/
def pending (w : Writer) : Set (UInt16 × ℕ) := covers LostRange.cells w.pendingGaps

/-- Nothing that the items `past` name has disappeared, and nothing else is on the list. -/
structure Kept (bootId : Guid) (past : List IngestItem) (w : Writer) : Prop where
  kept : named past ⊆ recorded bootId w.written ∪ w.pending
  owned : w.pending ⊆ named past

/-- And nothing of it is in two places.  The sequences of the whole stream are `mine`; what else
the shard holds does not matter. -/
structure Ledger (bootId : Guid) (mine : Set (UInt16 × ℕ)) (past : List IngestItem) (w : Writer) :
    Prop extends Kept bootId past w where
  live : recorded bootId w.shard.eventRows ∩ mine ⊆ named past
  split : Disjoint (eventCells bootId w.shard.eventRows ∩ mine) (gapCells bootId w.shard.eventRows)
  apart : Disjoint (recorded bootId w.shard.eventRows) w.pending

section Writes

variable {bootId : Guid} {mine : Set (UInt16 × ℕ)} {past : List IngestItem} {w w' : Writer}

variable {left : Shard} {rows : List EventRow}

theorem written_took (eq : left.eventRows = w.shard.eventRows ++ rows) :
    (w.took left).written = w.written ++ rows := by
  rw [written, log_took eq, filterMap_append, filterMap_map, ← written]
  congr 1
  exact filterMap_some

theorem written_refused : w.refused.written = w.written := by
  rw [written, refused, filterMap_append, filterMap_map, ← written]
  simp

theorem pending_refused : w.refused.pending = w.pending ∪ named w.batch :=
  covers_recordLost w.batch w.pendingGaps

theorem Kept.mono (h : Kept bootId past w)
    (written : recorded bootId w.written ⊆ recorded bootId w'.written)
    (pending : w'.pending = w.pending) : Kept bootId past w' := by
  constructor
  · rw [pending]
    exact h.kept.trans (Set.union_subset_union_left _ written)
  · rw [pending]
    exact h.owned

theorem Kept.took (h : Kept bootId past w) (eq : left.eventRows = w.shard.eventRows ++ rows) :
    Kept bootId past (w.took left) := by
  refine h.mono ?_ rfl
  rw [written_took eq, recorded_append]
  exact Set.subset_union_left

/-- A shard with fewer events and gaps names nothing twice either. -/
theorem Ledger.mono (h : Ledger bootId mine past w)
    (written : recorded bootId w.written ⊆ recorded bootId w'.written)
    (pending : w'.pending = w.pending)
    (events : eventCells bootId w'.shard.eventRows ⊆ eventCells bootId w.shard.eventRows)
    (gaps : gapCells bootId w'.shard.eventRows ⊆ gapCells bootId w.shard.eventRows) :
    Ledger bootId mine past w' where
  toKept := h.toKept.mono written pending
  live := (Set.inter_subset_inter_left _ (Set.union_subset_union events gaps)).trans h.live
  split := h.split.mono (Set.inter_subset_inter_left _ events) gaps
  apart := by
    rw [pending]
    exact h.apart.mono_left (Set.union_subset_union events gaps)

/-- Rows that name no sequence change nothing. -/
theorem Ledger.took (h : Ledger bootId mine past w)
    (eq : left.eventRows = w.shard.eventRows ++ rows) (none : recorded bootId rows = ∅) :
    Ledger bootId mine past (w.took left) := by
  obtain ⟨events, gaps⟩ := Set.union_empty_iff.1 none
  refine h.mono ?_ rfl ?_ ?_
  · rw [written_took eq, recorded_append]
    exact Set.subset_union_left
  · rw [show (w.took left).shard = left from rfl, eq, eventCells_append, events, Set.union_empty]
  · rw [show (w.took left).shard = left from rfl, eq, gapCells_append, gaps, Set.union_empty]

theorem Ledger.commitSynthetic (h : Ledger bootId mine past w) {event : SyntheticEvent}
    {io : StorageIo} {result : Except ShardError Unit}
    (eq : w.shard.commitSynthetic event io = (left, result)) :
    Ledger bootId mine past (w.took left) := by
  rcases Shard.commitSynthetic_cases eq with ⟨rfl, -⟩ | ⟨rows, -⟩
  · rwa [took_self]
  · exact h.took (Shard.writeSynthetic_rows rows).1 (recorded_synthetic event)

theorem Kept.fresh (h : Kept bootId past w) :
    Ledger bootId mine past { w with shard := Shard.new } where
  toKept := ⟨h.kept, h.owned⟩
  live := by simp [recorded, eventCells, gapCells, Shard.new, Shard.eventRows]
  split := by simp [eventCells, Shard.new, Shard.eventRows]
  apart := by simp [recorded, eventCells, gapCells, Shard.new, Shard.eventRows]

/-- After the recovery of a corrupt shard nothing is in two places, whatever was before. -/
theorem ledger_recoverCorruption (ctx : WriterContext) (mine : Set (UInt16 × ℕ))
    {error : ShardError} {io : RecoverIo} (h : Kept ctx.bootId past w)
    (ok : (w.recoverCorruption ctx error io).2 = .ok ()) :
    Ledger ctx.bootId mine past (w.recoverCorruption ctx error io).1 := by
  have fresh : Ledger ctx.bootId mine past { w with shard := Shard.new } := h.fresh
  unfold recoverCorruption at ok ⊢
  split at ok
  · cases ok
  · cases ok
  · next timestamp replaced clock =>
    split at ok
    · next left eq => exact fresh.commitSynthetic eq
    · next left failure eq => exact fresh.commitSynthetic eq

/-! ### Control messages -/

theorem eventRows_deleteEvents_subset (shard : Shard) (condition : EventRow → Bool) (limit : ℕ)
    (io : StorageIo) : (shard.deleteEvents condition limit io).1.eventRows ⊆ shard.eventRows := by
  unfold Shard.deleteEvents
  split
  · exact List.Subset.refl _
  · split
    · exact List.Subset.refl _
    · exact map_subset _ filter_sublist.subset

theorem eventRows_maintain_subset (command : EventMaintenance) (io : MaintenanceIo) :
    (w.maintain command io).1.eventRows ⊆ w.shard.eventRows := by
  cases command with
  | deleteBefore cutoff limit | deleteBoot bootId limit =>
    exact eventRows_deleteEvents_subset _ _ _ _
  | checkpoint =>
    have orphans : (w.shard.removeOrphanTypes io.orphanCheck io.storage).1.eventRows =
        w.shard.eventRows := by
      unfold Shard.removeOrphanTypes
      split_ifs
      · rfl
      · split <;> rfl
    unfold maintain
    dsimp only
    split
    · next eq => rw [eq] at orphans; exact orphans ▸ List.Subset.refl _
    · next eq => rw [eq] at orphans; split <;> exact orphans ▸ List.Subset.refl _

theorem kept_rule (ctx : WriterContext) :
    ControlRule ctx (Kept bootId past) (Kept bootId past) := by
  refine .of_shard (fun h _ => ⟨h.kept, h.owned⟩) fun h written => ?_
  rcases Shard.commitSynthetic_cases written with ⟨rfl, -⟩ | ⟨rows, -⟩
  · rwa [took_self]
  · exact h.took (Shard.writeSynthetic_rows rows).1

theorem ledger_rule (ctx : WriterContext) (mine : Set (UInt16 × ℕ)) (past : List IngestItem) :
    ControlRule ctx (Ledger ctx.bootId mine past) (Kept ctx.bootId past) where
  weaken := Ledger.toKept
  recover h error io :=
    ⟨((kept_rule ctx).recover h error io).kept, fun _ => ledger_recoverCorruption ctx mine h⟩
  commitSynthetic h written := h.commitSynthetic written
  maintain h command io := h.mono subset_rfl rfl
    (eventCells_mono (eventRows_maintain_subset command io))
    (gapCells_mono (eventRows_maintain_subset command io))

/-! ### Batches -/

/-- Writing the list moves it into the shard. -/
theorem Ledger.record (h : Ledger bootId mine past w) (eq : left.eventRows = w.shard.eventRows ++
      w.pendingGaps.map fun range => gapRow bootId range.1 range.2) :
    Ledger bootId mine past { w.took left with pendingGaps := [] } := by
  have rows : recorded bootId (w.pendingGaps.map fun range => gapRow bootId range.1 range.2) =
      w.pending := by rw [recorded, eventCells_ranges, gapCells_ranges, Set.empty_union, pending]
  have none : ({ w.took left with pendingGaps := [] } : Writer).pending = ∅ := by
    ext
    simp [pending]
  have shard : ({ w.took left with pendingGaps := [] } : Writer).shard.eventRows = _ := eq
  have log : ({ w.took left with pendingGaps := [] } : Writer).written = _ := written_took eq
  constructor
  · constructor
    · rw [log, recorded_append, rows, none, Set.union_empty]
      exact h.kept
    · rw [none]
      exact Set.empty_subset _
  · rw [shard, recorded_append, rows, Set.union_inter_distrib_right]
    exact Set.union_subset h.live (Set.inter_subset_left.trans h.owned)
  · rw [shard, eventCells_append, eventCells_ranges, Set.union_empty, gapCells_append,
      gapCells_ranges, ← pending, Set.disjoint_union_right]
    exact ⟨h.split, h.apart.mono_left (Set.inter_subset_left.trans Set.subset_union_left)⟩
  · rw [none]
    exact Set.disjoint_empty _

/-- The items of the batch move to the list. -/
theorem Kept.refused (h : Kept bootId past w) : Kept bootId (past ++ w.batch) w.refused := by
  constructor
  · rw [named_append, pending_refused, written_refused, ← Set.union_assoc]
    exact Set.union_subset_union_left _ h.kept
  · rw [named_append, pending_refused]
    exact Set.union_subset_union_left _ h.owned

/-- What is asked of a batch: it is of this boot, its sequences are new, and no event of it lies
in a gap of it. -/
structure Fits (bootId : Guid) (mine : Set (UInt16 × ℕ)) (past batch : List IngestItem) :
    Prop where
  boot : ∀ item ∈ batch, item.event.bootId = bootId
  all : named batch ⊆ mine
  new : Disjoint (named past) (named batch)
  apart : Disjoint (eventCells bootId (batch.flatMap IngestItem.rows))
    (gapCells bootId (batch.flatMap IngestItem.rows))

theorem Ledger.refused (h : Ledger bootId mine past w) (fits : Fits bootId mine past w.batch) :
    Ledger bootId mine (past ++ w.batch) w.refused where
  toKept := h.toKept.refused
  live := by
    rw [named_append]
    exact h.live.trans Set.subset_union_left
  split := h.split
  apart := by
    rw [pending_refused, Set.disjoint_union_right]
    refine ⟨h.apart, Set.disjoint_left.2 fun cell live inBatch => ?_⟩
    exact Set.disjoint_left.1 fits.new (h.live ⟨live, fits.all inBatch⟩) inBatch

/-- The items of the batch move into the shard. -/
theorem Ledger.store (h : Ledger bootId mine past w) (fits : Fits bootId mine past w.batch)
    (none : w.pendingGaps = [])
    (eq : left.eventRows = w.shard.eventRows ++ w.batch.flatMap IngestItem.rows) :
    Ledger bootId mine (past ++ w.batch) (w.took left) := by
  have rows : recorded bootId (w.batch.flatMap IngestItem.rows) = named w.batch :=
    recorded_flatMap fits.boot
  have nothing : (w.took left).pending = ∅ := by
    ext
    simp [pending, Writer.took, none]
  have before : named past ⊆ recorded bootId w.written := by
    have kept := h.kept
    rwa [show w.pending = ∅ from nothing, Set.union_empty] at kept
  have shard : (w.took left).shard.eventRows = _ := eq
  -- a sequence of the batch is in no row of before
  have apart : Disjoint (recorded bootId w.shard.eventRows) (named w.batch) :=
    Set.disjoint_left.2 fun cell live inBatch =>
      Set.disjoint_left.1 fits.new (h.live ⟨live, fits.all inBatch⟩) inBatch
  constructor
  · constructor
    · rw [written_took eq, recorded_append, rows, nothing, Set.union_empty, named_append]
      exact Set.union_subset_union_left _ before
    · rw [nothing]
      exact Set.empty_subset _
  · rw [shard, recorded_append, rows, Set.union_inter_distrib_right, named_append]
    exact Set.union_subset_union h.live Set.inter_subset_left
  · have events : eventCells bootId (w.batch.flatMap IngestItem.rows) ⊆ named w.batch :=
      rows ▸ Set.subset_union_left
    have gaps : gapCells bootId (w.batch.flatMap IngestItem.rows) ⊆ named w.batch :=
      rows ▸ Set.subset_union_right
    rw [shard, eventCells_append, gapCells_append, Set.union_inter_distrib_right,
      Set.disjoint_union_left, Set.disjoint_union_right, Set.disjoint_union_right]
    refine ⟨⟨h.split, ?_⟩, ?_, ?_⟩
    · exact apart.mono (Set.inter_subset_left.trans Set.subset_union_left) gaps
    · exact apart.symm.mono (Set.inter_subset_left.trans events) Set.subset_union_right
    · exact fits.apart.mono_left Set.inter_subset_left
  · rw [nothing]
    exact Set.disjoint_empty _

variable (ctx : WriterContext)

/-- The commit of a batch that fits moves its items to the past. -/
theorem moving_rule {batch : List IngestItem} (fits : Fits ctx.bootId mine past batch) :
    BatchRule ctx
      (fun moved w => Ledger ctx.bootId mine (if moved then past ++ batch else past) w ∧
        w.batch = batch)
      fun moved w => Kept ctx.bootId (if moved then past ++ batch else past) w ∧
        w.batch = batch where
  control moved := (ledger_rule ctx mine _).and (.of_shard (fun h _ => h) fun h _ => h)
  empty := by
    rintro w ⟨h, rfl⟩ none
    exact ⟨by simpa [none] using h, rfl⟩
  record h rows := ⟨⟨h.1.record rows, h.2⟩, h.1.toKept.took rows, h.2⟩
  store := by
    rintro w left ⟨h, rfl⟩ none rows
    exact ⟨⟨h.store fits none rows, rfl⟩, h.toKept.took rows, rfl⟩
  refuse := by
    rintro w ⟨h, rfl⟩
    exact ⟨h.refused fits, rfl⟩
  refuseKept := by
    rintro w ⟨h, rfl⟩
    exact ⟨h.refused, rfl⟩

variable {io : BatchIo} {rest : List IngestItem}

/-! ### The loop -/

/-- The items among the inputs. -/
def itemsOf (inputs : List Input) : List IngestItem :=
  inputs.filterMap fun input =>
    match input with
    | .item item _ _ _ => some item
    | _ => none

/-- What is asked of the items of a whole run. -/
structure Named (bootId : Guid) (items : List IngestItem) : Prop where
  boot : ∀ item ∈ items, item.event.bootId = bootId
  apart : ∀ item ∈ items, item.Apart
  distinct : items.Pairwise fun a b => Disjoint (named [a]) (named [b])

theorem Named.disjoint {items others : List IngestItem} (h : Named bootId (items ++ others)) :
    Disjoint (named items) (named others) := by
  refine Set.disjoint_left.2 fun cell mem mem' => ?_
  obtain ⟨item, hitem, inside⟩ := mem_named_iff.1 mem
  obtain ⟨other, hother, inside'⟩ := mem_named_iff.1 mem'
  exact Set.disjoint_left.1 ((pairwise_append.1 h.distinct).2.2 item hitem other hother)
    inside inside'

theorem Named.fits {batch : List IngestItem} (h : Named bootId (past ++ batch ++ rest)) :
    Fits bootId (named (past ++ batch ++ rest)) past batch where
  boot item mem := h.boot item (by simp [mem])
  all := by
    rw [named_append, named_append]
    exact Set.subset_union_right.trans Set.subset_union_left
  new := (⟨fun item mem => h.boot item (mem_append_left _ mem),
    fun item mem => h.apart item (mem_append_left _ mem),
    (pairwise_append.1 h.distinct).1⟩ : Named bootId (past ++ batch)).disjoint
  apart := disjoint_rows (fun item mem => h.boot item (by simp [mem]))
    (fun item mem => h.apart item (by simp [mem]))
    (h.distinct.sublist ((sublist_append_right past batch).trans (sublist_append_left _ _)))

theorem ledger_finishBatch (h : Ledger ctx.bootId mine past w)
    (fits : Fits ctx.bootId mine past w.batch) (running : (w.finishBatch ctx io).returned = none) :
    Ledger ctx.bootId mine (past ++ w.batch) (w.finishBatch ctx io) ∧
      (w.finishBatch ctx io).batch = [] := by
  unfold finishBatch at running ⊢
  split at running
  · next w' eq =>
    have done := ((moving_rule ctx fits).commitBatch ⟨h, rfl⟩ io).live ()
    rw [eq] at done
    have done := (done rfl).1
    exact ⟨done.mono subset_rfl rfl subset_rfl subset_rfl, rfl⟩
  · cases running

theorem ok_of_orReturn {outcome : Writer × Except ShardError Unit}
    (running : (orReturn outcome).returned = none) :
    outcome.2 = .ok () ∧ orReturn outcome = outcome.1 := by
  obtain ⟨w, ⟨⟩ | ⟨⟩⟩ := outcome
  · cases running
  · exact ⟨rfl, rfl⟩

/-- One turn moves the items of the batch, or adds one to it. -/
theorem ledger_turn {input : Input}
    (stream : Named ctx.bootId (past ++ w.batch ++ itemsOf [input] ++ rest))
    (h : Ledger ctx.bootId (named (past ++ w.batch ++ itemsOf [input] ++ rest)) past w)
    (running : (w.turn ctx input).returned = none) :
    ∃ past', past' ++ (w.turn ctx input).batch = past ++ w.batch ++ itemsOf [input] ∧
      Ledger ctx.bootId (named (past ++ w.batch ++ itemsOf [input] ++ rest)) past'
        (w.turn ctx input) := by
  have fits : Fits ctx.bootId (named (past ++ w.batch ++ itemsOf [input] ++ rest)) past w.batch := by
    rw [append_assoc _ (itemsOf [input])] at stream ⊢
    exact stream.fits
  have pushed (item : IngestItem) (size : ℕ) : Ledger ctx.bootId _ past (w.push item size) :=
    h.mono subset_rfl rfl subset_rfl subset_rfl
  have is := turned ctx w input
  generalize w.turn ctx input = w' at is running ⊢
  cases is with
  | pushed item size => exact ⟨past, (append_assoc _ _ _).symm, pushed item size⟩
  | filled item size =>
    have fits' : Fits ctx.bootId (named (past ++ w.batch ++ [item] ++ rest)) past
        (w.push item size).batch := by
      have stream : Named ctx.bootId (past ++ w.batch ++ [item] ++ rest) := stream
      rw [append_assoc past] at stream ⊢
      exact stream.fits
    obtain ⟨done, none⟩ := ledger_finishBatch ctx (pushed item size) fits' running
    refine ⟨_, ?_, done⟩
    rw [none, append_nil]
    exact (append_assoc _ _ _).symm
  | stopped message io ended =>
    rw [running] at ended
    cases ended
  | handled message io going =>
    obtain ⟨done, none⟩ := ledger_finishBatch ctx h fits going
    obtain ⟨ok, eq⟩ := ok_of_orReturn running
    rw [eq]
    refine ⟨_, ?_, ((ledger_rule ctx _ _).handleControl done message).live () ok⟩
    rw [(keeps_handleControl ctx _ message).batch, none]
    rfl
  | emptied =>
    obtain ⟨done, none⟩ := ledger_finishBatch ctx h fits running
    refine ⟨_, ?_, done⟩
    rw [none]
    rfl
  | converged io =>
    obtain ⟨ok, eq⟩ := ok_of_orReturn running
    rw [eq]
    refine ⟨past, ?_, ((ledger_rule ctx _ _).convergeOnce h io).live () ok⟩
    rw [(keeps_convergeOnce ctx w io).batch]
    exact (append_nil _).symm
  | filling => exact ⟨past, (append_nil _).symm, h⟩

/-- A run moves each item of its inputs, or leaves it in the batch. -/
theorem ledger_run {shard : Shard} {inputs : List Input}
    (stream : Named ctx.bootId (itemsOf inputs ++ rest))
    (fresh : Disjoint (recorded ctx.bootId shard.eventRows) (named (itemsOf inputs ++ rest)))
    (running : ((start shard).run ctx inputs).returned = none) :
    ∃ past, past ++ ((start shard).run ctx inputs).batch = itemsOf inputs ∧
      Ledger ctx.bootId (named (itemsOf inputs ++ rest)) past ((start shard).run ctx inputs) := by
  induction inputs using List.reverseRecOn generalizing rest with
  | nil =>
    refine ⟨[], rfl, ⟨?_, ?_⟩, ?_, ?_, ?_⟩
    · simp [named, lostRanges, Set.subset_def]
    · simp [pending, run, start, Set.subset_def]
    · rintro cell ⟨live, inside⟩
      exact (Set.disjoint_left.1 fresh live inside).elim
    · rw [Set.disjoint_left]
      rintro cell ⟨event, inside⟩ -
      exact Set.disjoint_left.1 fresh (.inl event) inside
    · simp [pending, run, start, covers]
  | append_singleton inputs input ih =>
    have split : itemsOf (inputs ++ [input]) = itemsOf inputs ++ itemsOf [input] :=
      filterMap_append
    rw [split, append_assoc] at stream fresh
    have runs : (start shard).run ctx (inputs ++ [input]) =
        ((start shard).run ctx inputs).step ctx input := by simp [run]
    by_cases ended : ((start shard).run ctx inputs).returned.isSome = true
    · rw [runs, Writer.step, if_pos ended] at running
      rw [running] at ended
      cases ended
    · obtain ⟨past, taken, ledger⟩ := ih stream fresh (by simpa using ended)
      rw [Writer.step, if_neg ended] at runs
      rw [runs] at running ⊢
      rw [← taken, ← append_assoc] at stream ledger
      obtain ⟨past', taken', ledger'⟩ := ledger_turn ctx stream ledger running
      rw [split, ← taken]
      exact ⟨past', taken', ledger'⟩

/-- **Nothing handed to the writer disappears, and nothing is in two places.**  The items of the
stream are of the writer's boot, name no sequence twice, and the shard names none of theirs at
the start.  While the loop has not ended, each sequence of an item taken from the queue is in a
row that was committed, to the live shard or to one quarantined since, on the list of lost ranges
or in the batch; and it is in only one of: an event row of the live shard, a gap row of it, the
list, the batch. -/
theorem items_accounted {shard : Shard} {inputs : List Input}
    (stream : Named ctx.bootId (itemsOf inputs))
    (fresh : Disjoint (recorded ctx.bootId shard.eventRows) (named (itemsOf inputs)))
    (running : ((start shard).run ctx inputs).returned = none) :
    ∀ cell ∈ named (itemsOf inputs),
      (cell ∈ recorded ctx.bootId ((start shard).run ctx inputs).written ∨
        cell ∈ ((start shard).run ctx inputs).pending ∨
        cell ∈ named ((start shard).run ctx inputs).batch) ∧
      [cell ∈ eventCells ctx.bootId ((start shard).run ctx inputs).shard.eventRows,
        cell ∈ gapCells ctx.bootId ((start shard).run ctx inputs).shard.eventRows,
        cell ∈ ((start shard).run ctx inputs).pending,
        cell ∈ named ((start shard).run ctx inputs).batch].Pairwise fun a b => ¬ (a ∧ b) := by
  intro cell mem
  rw [← append_nil (itemsOf inputs)] at stream fresh
  obtain ⟨past, taken, ledger⟩ := ledger_run ctx stream fresh running
  rw [append_nil] at stream ledger
  rw [← taken] at stream ledger mem
  have new := stream.disjoint
  constructor
  · rw [named_append] at mem
    rcases mem with before | inBatch
    · exact (ledger.kept before).imp_right .inl
    · exact .inr (.inr inBatch)
  · have live (is : cell ∈ recorded ctx.bootId _) : cell ∈ named past := ledger.live ⟨is, mem⟩
    simp only [pairwise_cons, mem_cons, not_mem_nil, or_false, forall_eq_or_imp,
      forall_eq, List.Pairwise.nil, and_true, not_and, IsEmpty.forall_iff, implies_true]
    refine ⟨⟨fun event gap => ?_, fun event lost => ?_, fun event inBatch => ?_⟩,
      ⟨fun gap lost => ?_, fun gap inBatch => ?_⟩, fun lost inBatch => ?_⟩
    · exact Set.disjoint_left.1 ledger.split ⟨event, mem⟩ gap
    · exact Set.disjoint_left.1 ledger.apart (.inl event) lost
    · exact Set.disjoint_left.1 new (live (.inl event)) inBatch
    · exact Set.disjoint_left.1 ledger.apart (.inr gap) lost
    · exact Set.disjoint_left.1 new (live (.inr gap)) inBatch
    · exact Set.disjoint_left.1 new (ledger.owned lost) inBatch

/-- A batch is refused, and the next event waits in the batch. -/
def refusedThenWaiting : List Input :=
  [.item (plainItem 1 (by decide)) 1 false (plainIo true),
    .item (plainItem 2 (by decide)) 2 false (plainIo false)]

theorem named_refusedThenWaiting : Named plainContext.bootId (itemsOf refusedThenWaiting) where
  boot := by
    intro item mem
    rcases mem_pair.1 mem with rfl | rfl <;> rfl
  apart := by
    intro item mem _ gap none
    rcases mem_pair.1 mem with rfl | rfl <;> cases none
  distinct := by
    refine pairwise_pair.2 (Set.disjoint_left.2 fun cell first second => ?_)
    have first := mem_covers_lostRanges.1 first
    have second := mem_covers_lostRanges.1 second
    simp only [mem_singleton, exists_eq_left, plainItem] at first second
    obtain ⟨-, ⟨_, none, -⟩ | ⟨-, one⟩⟩ := first
    · cases none
    obtain ⟨-, ⟨_, none, -⟩ | ⟨-, two⟩⟩ := second
    · cases none
    exact absurd (one.trans two.symm) (by decide)

theorem items_accounted_refusedThenWaiting :
    ((0, 1) ∈ recorded plainContext.bootId
        ((start Shard.new).run plainContext refusedThenWaiting).written ∨
      (0, 1) ∈ ((start Shard.new).run plainContext refusedThenWaiting).pending ∨
      (0, 1) ∈ named ((start Shard.new).run plainContext refusedThenWaiting).batch) :=
  (items_accounted plainContext named_refusedThenWaiting
    (by simp [recorded, eventCells, gapCells, Shard.new, Shard.eventRows]) rfl (0, 1)
    (mem_covers_lostRanges.2 ⟨plainItem 1 (by decide), mem_cons_self, rfl, .inr ⟨rfl, rfl⟩⟩)).1

end Writes

end Writer

end Eventd
