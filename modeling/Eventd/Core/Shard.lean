import Eventd.Lib.Fallible
import Eventd.Lib.RowTable
import Eventd.Core.GapPayload
import Eventd.Core.Receipt

/-!
# One event shard

`eventd-core/src/shard.rs`: the tables of one SQLite database and the operations
of its only writer.  A write transaction works on a copy of the shard that is kept
if the transaction commits and dropped otherwise, so a failed one leaves the shard
as it was.  What SQLite and the filesystem answer is an argument, `StorageIo`: the
error of the transaction, if any, and the error of the checkpoint after it.

* `Shard.commit`, `commitGaps`, `commitSynthetic`, `retainBefore`, `retainBoot`;
* `CommitCases`, `commitSynthetic_cases`: what commits can have done;
* `writeItems_rows`, `covers_writeItems`: the rows and receipts a batch leaves;
* `survivors`, `deleteEvents_fine`: what a bounded delete leaves.
-/

namespace Eventd

open Set Fallible List

/-- The SQLite failures that the code tells apart. -/
inductive SqliteError
  | diskFull
  | databaseCorrupt
  | notADatabase
  | other
  deriving DecidableEq

/-- Event-shard failure. -/
inductive ShardError
  | sql (code : SqliteError)
  | io
  | invalidSchema (reason : String)
  | unknownVersion (version : String)
  | unrecognisedContents
  | integerRange (field : String)
  | invalidSyntheticType
  deriving DecidableEq

namespace ShardError

/-- Whether retrying after retention may make this operation succeed. -/
def isCapacity : ShardError → Bool
  | .sql .diskFull => true
  | _ => false

/-- Whether SQLite has declared the database image corrupt, or it holds contents
that are not an event shard at all. -/
def isCorruption : ShardError → Bool
  | .sql .databaseCorrupt => true
  | .sql .notADatabase => true
  | .unrecognisedContents => true
  | _ => false

theorem not_corruption_of_capacity {error : ShardError} (h : error.isCapacity = true) :
    error.isCorruption = false := by
  unfold isCapacity at h
  split at h
  · rfl
  · contradiction

end ShardError

/-- What the storage answers to one write: the failure that rolls its transaction
back, and the failure of the checkpoint that follows a committed one. -/
structure StorageIo where
  transaction : Option SqliteError
  checkpoint : Option ShardError
  deriving DecidableEq

/-- Storage that does what it is asked. -/
def StorageIo.fine : StorageIo := ⟨none, none⟩

/-- The columns of `events` besides its key. -/
structure EventRow where
  bootId : Guid
  timestamp : ℤ
  cpuId : Option UInt16
  sequence : Option ℕ
  originClass : Option UInt8
  eventType : String
  effectiveTokenGuid : Option Guid
  trueTokenGuid : Option Guid
  processGuid : Option Guid
  payload : Option (List UInt8)
  deriving DecidableEq

/-- The row of a gap record. -/
def gapRow (bootId : Guid) (cpuId : UInt16) (gap : Gap) : EventRow where
  bootId := bootId
  timestamp := gap.revealingTimestamp.toNat
  cpuId := some cpuId
  sequence := none
  originClass := none
  eventType := eventsLost
  effectiveTokenGuid := none
  trueTokenGuid := none
  processGuid := none
  payload := some (encodeGapPayload cpuId gap)

/-- The row of a real event. -/
def eventRow (event : RealEvent) : EventRow where
  bootId := event.bootId
  timestamp := event.timestamp.toNat
  cpuId := some event.cpuId
  sequence := some event.sequence
  originClass := some event.originClass
  eventType := event.eventType
  effectiveTokenGuid := some event.effectiveTokenGuid
  trueTokenGuid := some event.trueTokenGuid
  processGuid := some event.processGuid
  payload := some event.payload

/-- The row of a daemon-generated event. -/
def syntheticRow (event : SyntheticEvent) : EventRow where
  bootId := event.bootId
  timestamp := event.timestamp.toNat
  cpuId := none
  sequence := none
  originClass := none
  eventType := event.eventType
  effectiveTokenGuid := none
  trueTokenGuid := none
  processGuid := none
  payload := some event.payload

/-- A row of `receipt_ranges`. -/
abbrev ReceiptRow := Guid × UInt16 × Interval

/-- One shard: its tables, and what its writer keeps in memory about them.  The
primary key of `receipt_ranges` is the whole row, so the table holds each row once. -/
structure Shard where
  events : RowTable EventRow
  eventTypes : List String
  receipts : List ReceiptRow
  knownTypes : List String
  orphanCandidates : List String
  receipts_nodup : receipts.Nodup

/-- Rows produced by one successful commit. -/
structure CommitStats where
  items : ℕ
  eventRows : ℕ
  receiptRows : ℕ
  deriving DecidableEq, Inhabited

/-- Convert to SQLite's signed `INTEGER`. -/
def sqliteInteger (value : ℕ) (field : String) : Except ShardError ℤ :=
  if value ≤ i64Max then .ok value else .error (.integerRange field)

/-- A row limit as SQLite's signed `INTEGER`. -/
def sqliteLimit (limit : ℕ) : Except ShardError ℕ :=
  if limit ≤ i64Max then .ok limit else .error (.integerRange "retention batch size")

/-! ### Inside a transaction -/

/-- The sequences a gap accounts for. -/
def Gap.interval (gap : Gap) : Interval :=
  ⟨gap.firstSequence, gap.lastSequence, gap.first_pos, gap.first_le_last, gap.last_le⟩

@[simp] theorem Gap.contains_interval (gap : Gap) (s : ℕ) :
    gap.interval.contains s = gap.contains s := rfl

/-- The one sequence a stored event accounts for. -/
def RealEvent.interval (event : RealEvent) : Interval :=
  ⟨event.sequence, event.sequence, event.sequence_pos, le_rfl, event.sequence_le⟩

@[simp] theorem RealEvent.contains_interval (event : RealEvent) (s : ℕ) :
    event.interval.contains s = true ↔ event.sequence = s := by
  rw [Interval.contains_iff]
  exact ⟨fun h => le_antisymm h.1 h.2, fun h => ⟨h.le, h.ge⟩⟩

namespace IngestItem

/-- The stream an item belongs to: one CPU of one boot. -/
def stream (item : IngestItem) : Guid × UInt16 := (item.event.bootId, item.event.cpuId)

/-- The sequences an item accounts for: those of its gaps, and that of its event if
the event is stored. -/
def receipts (item : IngestItem) : List Interval :=
  item.gaps.map Gap.interval ++ if item.storeEvent then [item.event.interval] else []

/-- The rows an item is stored as. -/
def rows (item : IngestItem) : List EventRow :=
  (item.gaps.map fun gap => gapRow item.event.bootId item.event.cpuId gap) ++
  if item.storeEvent then [eventRow item.event] else []

end IngestItem

namespace Shard

/-- A freshly created database. -/
def new : Shard := ⟨.empty, [], [], [], [], nodup_nil⟩

/-- What a later `open` of the same database finds. -/
def reopen (shard : Shard) : Shard :=
  { shard with knownTypes := shard.eventTypes, orphanCandidates := [] }

/-- Catalogue a type the writer does not know yet.  The set of types learned by a
transaction is kept with the working copy, so it is dropped with it on failure. -/
def internType (shard : Shard) (eventType : String) : Shard :=
  if eventType ∈ shard.knownTypes then shard
  else { shard with
    eventTypes := shard.eventTypes.insert eventType
    knownTypes := eventType :: shard.knownTypes }

/-- Insert a row into `events`. -/
def insertRow (shard : Shard) (row : EventRow) : Shard :=
  { shard with events := shard.events.insert row }

/-- Insert the record of one gap. -/
def insertGap (bootId : Guid) (cpuId : UInt16) (shard : Shard) (gap : Gap) :
    Except ShardError Shard := do
  let _ ← sqliteInteger gap.revealingTimestamp.toNat "gap timestamp"
  return (shard.internType eventsLost).insertRow (gapRow bootId cpuId gap)

/-- Insert one real event. -/
def insertEvent (shard : Shard) (event : RealEvent) : Except ShardError Shard := do
  let _ ← sqliteInteger event.timestamp.toNat "event timestamp"
  let _ ← sqliteInteger event.sequence "event sequence"
  return (shard.internType event.eventType).insertRow (eventRow event)

/-- Insert the rows of one item, its gaps first. -/
def insertItem (shard : Shard) (item : IngestItem) : Except ShardError Shard := do
  let shard ← item.gaps.foldlM (insertGap item.event.bootId item.event.cpuId) shard
  if item.storeEvent then shard.insertEvent item.event else return shard

/-- `INSERT OR IGNORE` of one receipt. -/
def insertReceiptRange (bootId : Guid) (cpuId : UInt16) (shard : Shard) (interval : Interval) :
    Except ShardError Shard := do
  let _ ← sqliteInteger interval.first "receipt first sequence"
  let _ ← sqliteInteger interval.last "receipt last sequence"
  return { shard with
    receipts := shard.receipts.insert (bootId, cpuId, interval)
    receipts_nodup := shard.receipts_nodup.insert }

/-- Insert receipts by stream, each stream's intervals merged first. -/
def insertReceipts (shard : Shard) (receipts : List ((Guid × UInt16) × List Interval)) :
    Except ShardError Shard :=
  receipts.foldlM (fun shard entry =>
    (mergeIntervals entry.2).foldlM (insertReceiptRange entry.1.1 entry.1.2) shard) shard

end Shard

/-- The receipts of a batch by stream. -/
def batchReceipts (items : List IngestItem) : List ((Guid × UInt16) × List Interval) :=
  (items.map IngestItem.stream).dedup.map fun stream =>
    (stream, (items.filter fun item => item.stream = stream).flatMap IngestItem.receipts)

/-- The receipts of a list of gaps of one boot, by CPU. -/
def gapReceipts (bootId : Guid) (gaps : List (UInt16 × Gap)) :
    List ((Guid × UInt16) × List Interval) :=
  (gaps.map Prod.fst).dedup.map fun cpuId =>
    ((bootId, cpuId), (gaps.filter fun entry => entry.1 = cpuId).map fun entry =>
      entry.2.interval)

namespace Shard

/-- What one batch writes. -/
def writeItems (items : List IngestItem) (shard : Shard) : Except ShardError Shard := do
  let shard ← items.foldlM insertItem shard
  shard.insertReceipts (batchReceipts items)

/-- What a list of gap records writes. -/
def writeGaps (bootId : Guid) (gaps : List (UInt16 × Gap)) (shard : Shard) :
    Except ShardError Shard := do
  let shard ← gaps.foldlM (fun shard entry => insertGap bootId entry.1 shard entry.2) shard
  shard.insertReceipts (gapReceipts bootId gaps)

/-- What a daemon-generated event writes. -/
def writeSynthetic (event : SyntheticEvent) (shard : Shard) : Except ShardError Shard := do
  let _ ← sqliteInteger event.timestamp.toNat "synthetic timestamp"
  return (shard.internType event.eventType).insertRow (syntheticRow event)

/-! ### The writer's operations

Each returns the shard it leaves and the result it reports. -/

/-- Run a write transaction.  If it fails the shard stays as it was; if it commits, the
result is that of what follows the commit. -/
def transact {α : Type} (shard : Shard) (io : StorageIo)
    (write : Shard → Except ShardError Shard) (afterwards : Except ShardError α) :
    Shard × Except ShardError α :=
  match io.transaction with
  | some code => (shard, .error (.sql code))
  | none =>
    match write shard with
    | .error error => (shard, .error error)
    | .ok committed => (committed, afterwards)

/-- Checkpoint, where a full disk is not reported: the commit has already succeeded. -/
def checkpointTolerant (io : StorageIo) : Except ShardError Unit :=
  match io.checkpoint with
  | some error => if error.isCapacity then .ok () else .error error
  | none => .ok ()

/-- Checkpoint and report any failure. -/
def checkpointIfNeeded (io : StorageIo) : Except ShardError Unit :=
  match io.checkpoint with
  | some error => .error error
  | none => .ok ()

/-- How many receipt rows a write inserts or finds present. -/
def receiptRows (receipts : List ((Guid × UInt16) × List Interval)) : ℕ :=
  (receipts.map fun entry => (mergeIntervals entry.2).length).sum

/-- Commit a batch, including catalogue rows and receipt ranges. -/
def commit (shard : Shard) (items : List IngestItem) (io : StorageIo) :
    Shard × Except ShardError CommitStats :=
  if items = [] then (shard, .ok default)
  else shard.transact io (writeItems items) ((checkpointTolerant io).map fun () =>
    { items := items.length
      eventRows := items.countP IngestItem.storeEvent +
        (items.map fun item => item.gaps.length).sum
      receiptRows := receiptRows (batchReceipts items) })

/-- Durably describe event ranges consumed while storage was unavailable. -/
def commitGaps (shard : Shard) (bootId : Guid) (gaps : List (UInt16 × Gap)) (io : StorageIo) :
    Shard × Except ShardError CommitStats :=
  if gaps = [] then (shard, .ok default)
  else shard.transact io (writeGaps bootId gaps) ((checkpointTolerant io).map fun () =>
    { items := gaps.length
      eventRows := gaps.length
      receiptRows := receiptRows (gapReceipts bootId gaps) })

/-- Commit one daemon-generated event in its own transaction.  A checkpoint that fails
afterwards is reported as the failure of the whole operation. -/
def commitSynthetic (shard : Shard) (event : SyntheticEvent) (io : StorageIo) :
    Shard × Except ShardError Unit :=
  if isStoreWritten event.eventType then
    shard.transact io (writeSynthetic event) (checkpointIfNeeded io)
  else (shard, .error .invalidSyntheticType)

/-- `ORDER BY timestamp, id`. -/
def OlderOrSame (a b : ℕ × EventRow) : Prop :=
  a.2.timestamp < b.2.timestamp ∨ a.2.timestamp = b.2.timestamp ∧ a.1 ≤ b.1

instance : DecidableRel OlderOrSame := fun _ _ => inferInstanceAs (Decidable (_ ∨ _))

/-- The oldest `limit` rows that satisfy a condition. -/
def oldest (shard : Shard) (condition : EventRow → Bool) (limit : ℕ) : List (ℕ × EventRow) :=
  ((shard.events.rows.filter fun row => condition row.2).insertionSort OlderOrSame).take limit

/-- Run one bounded delete, recording the types it touched once it commits. -/
def deleteEvents (shard : Shard) (condition : EventRow → Bool) (limit : ℕ) (io : StorageIo) :
    Shard × Except ShardError ℕ :=
  match sqliteLimit limit with
  | .error error => (shard, .error error)
  | .ok limit =>
    match io.transaction with
    | some code => (shard, .error (.sql code))
    | none =>
      let doomed := shard.oldest condition limit
      ({ shard with
          events := shard.events.delete fun row => row.1 ∈ doomed.map Prod.fst
          orphanCandidates :=
            doomed.foldl (fun types row => types.insert row.2.eventType)
              shard.orphanCandidates },
        (checkpointIfNeeded io).map fun () => doomed.length)

/-- Delete at most `limit` event rows older than `cutoff`. -/
def retainBefore (shard : Shard) (cutoff : ℤ) (limit : ℕ) (io : StorageIo) :
    Shard × Except ShardError ℕ :=
  shard.deleteEvents (fun row => row.timestamp < cutoff) limit io

/-- Delete at most `limit` rows belonging to one complete boot. -/
def retainBoot (shard : Shard) (bootId : Guid) (limit : ℕ) (io : StorageIo) :
    Shard × Except ShardError ℕ :=
  shard.deleteEvents (fun row => row.bootId = bootId) limit io

/-- SQLite's `NOCASE`: ASCII letters compare without case. -/
def eqNocase (a b : String) : Bool := a.toList.map Char.toLower = b.toList.map Char.toLower

/-- Remove catalogued types that retention's deletes left with no event.  The check is
skipped, and its candidates kept, when it is not `allowed`: work is waiting, it was
interrupted, or the index it needs is missing. -/
def removeOrphanTypes (shard : Shard) (allowed : Bool) (io : StorageIo) :
    Shard × Except ShardError ℕ :=
  if shard.orphanCandidates = [] ∨ allowed = false then (shard, .ok 0)
  else
    match io.transaction with
    | some code => (shard, .error (.sql code))
    | none =>
      let removed := shard.orphanCandidates.filter fun eventType =>
        eventType ∈ shard.eventTypes ∧
          (shard.events.rows.any fun row => eqNocase row.2.eventType eventType) = false
      ({ shard with
          eventTypes := shard.eventTypes.filter fun eventType => eventType ∉ removed
          knownTypes := shard.knownTypes.filter fun eventType => eventType ∉ removed
          orphanCandidates := [] },
        (checkpointIfNeeded io).map fun () => removed.length)

/-! ### What a committed transaction leaves -/

/-- The rows of `events` without their keys. -/
def eventRows (shard : Shard) : List EventRow := shard.events.rows.map Prod.snd

/-- Whether a receipt of the shard covers a sequence of a stream. -/
def Covers (shard : Shard) (bootId : Guid) (cpuId : UInt16) (s : ℕ) : Prop :=
  ∃ interval, (bootId, cpuId, interval) ∈ shard.receipts ∧ interval.contains s = true

/-- The receipts of the shard as a set. -/
def receiptSet (shard : Shard) : Set ReceiptRow := {receipt | receipt ∈ shard.receipts}

@[simp] theorem eventRows_internType (shard : Shard) (eventType : String) :
    (shard.internType eventType).eventRows = shard.eventRows := by
  unfold internType
  split <;> rfl

@[simp] theorem receipts_internType (shard : Shard) (eventType : String) :
    (shard.internType eventType).receipts = shard.receipts := by
  unfold internType
  split <;> rfl

@[simp] theorem eventRows_insertRow (shard : Shard) (row : EventRow) :
    (shard.insertRow row).eventRows = shard.eventRows ++ [row] := by
  simp [eventRows, insertRow]

@[simp] theorem receipts_insertRow (shard : Shard) (row : EventRow) :
    (shard.insertRow row).receipts = shard.receipts := rfl

variable {shard shard' : Shard} {bootId : Guid}

theorem insertGap_ok {cpuId : UInt16} {gap : Gap}
    (h : insertGap bootId cpuId shard gap = .ok shard') :
    shard'.eventRows = shard.eventRows ++ [gapRow bootId cpuId gap] ∧
      shard'.receipts = shard.receipts := by
  obtain ⟨_, -, h⟩ := bind_eq_ok.1 h
  obtain rfl := Except.ok.inj h
  simp

theorem insertEvent_ok {event : RealEvent} (h : shard.insertEvent event = .ok shard') :
    shard'.eventRows = shard.eventRows ++ [eventRow event] ∧
      shard'.receipts = shard.receipts := by
  obtain ⟨_, -, h⟩ := bind_eq_ok.1 h
  obtain ⟨_, -, h⟩ := bind_eq_ok.1 h
  obtain rfl := Except.ok.inj h
  simp

theorem insertItem_ok {item : IngestItem} (h : shard.insertItem item = .ok shard') :
    shard'.eventRows = shard.eventRows ++ item.rows ∧ shard'.receipts = shard.receipts := by
  obtain ⟨mid, gaps, event⟩ := bind_eq_ok.1 h
  have rows : mid.eventRows = shard.eventRows ++
      item.gaps.flatMap fun gap => [gapRow item.event.bootId item.event.cpuId gap] :=
    foldlM_append eventRows (fun gap => [gapRow item.event.bootId item.event.cpuId gap])
      (fun _ _ _ h => (insertGap_ok h).1) gaps
  have receipts : mid.receipts = shard.receipts :=
    foldlM_const receipts (fun _ _ _ h => (insertGap_ok h).2) gaps
  rw [← map_eq_flatMap] at rows
  rw [IngestItem.rows, ← append_assoc, ← rows, ← receipts]
  split at event
  · next stored => rw [if_pos stored]; exact insertEvent_ok event
  · next dropped =>
    obtain rfl := Except.ok.inj event
    rw [if_neg dropped, append_nil]
    exact ⟨rfl, rfl⟩

theorem insertReceiptRange_ok {cpuId : UInt16} {interval : Interval}
    (h : insertReceiptRange bootId cpuId shard interval = .ok shard') :
    shard'.eventRows = shard.eventRows ∧
      shard'.receiptSet = shard.receiptSet ∪ {(bootId, cpuId, interval)} := by
  obtain ⟨_, -, h⟩ := bind_eq_ok.1 h
  obtain ⟨_, -, h⟩ := bind_eq_ok.1 h
  obtain rfl := Except.ok.inj h
  refine ⟨rfl, ?_⟩
  ext receipt
  simp [receiptSet, or_comm]

theorem insertReceipts_ok {receipts : List ((Guid × UInt16) × List Interval)}
    (h : shard.insertReceipts receipts = .ok shard') :
    shard'.eventRows = shard.eventRows ∧
      shard'.receiptSet = shard.receiptSet ∪
        {receipt | ∃ entry ∈ receipts, (receipt.1, receipt.2.1) = entry.1 ∧
          receipt.2.2 ∈ mergeIntervals entry.2} := by
  refine ⟨foldlM_const eventRows (fun entry s s' turn =>
      foldlM_const eventRows (fun _ _ _ h => (insertReceiptRange_ok h).1) turn) h,
    foldlM_union receiptSet _ (fun entry s s' turn => ?_) h⟩
  rw [foldlM_union receiptSet (fun interval => {(entry.1.1, entry.1.2, interval)})
    (fun _ _ _ h => (insertReceiptRange_ok h).2) turn]
  ext ⟨bootId, cpuId, interval⟩
  simp only [mem_union, mem_ofPred_eq, mem_singleton_iff, Prod.mk.injEq]
  refine or_congr_right ⟨?_, ?_⟩
  · rintro ⟨i, mem, rfl, rfl, rfl⟩
    exact ⟨rfl, mem⟩
  · rintro ⟨same, mem⟩
    exact ⟨interval, mem, congrArg Prod.fst same, congrArg Prod.snd same, rfl⟩

/-- Receipts inserted by stream cover what the intervals of the stream cover. -/
theorem covers_insertReceipts {receipts : List ((Guid × UInt16) × List Interval)}
    (h : shard.insertReceipts receipts = .ok shard') (bootId : Guid) (cpuId : UInt16) (s : ℕ) :
    shard'.Covers bootId cpuId s ↔ shard.Covers bootId cpuId s ∨
      ∃ entry ∈ receipts, entry.1 = (bootId, cpuId) ∧ ∃ i ∈ entry.2, i.contains s = true := by
  have set (receipt : ReceiptRow) := Set.ext_iff.1 (insertReceipts_ok h).2 receipt
  simp only [receiptSet, Set.mem_union, Set.mem_ofPred_eq] at set
  simp only [Covers, set, or_and_right, exists_or]
  refine or_congr_right ⟨?_, ?_⟩
  · rintro ⟨i, ⟨entry, mem, same, hi⟩, hs⟩
    exact ⟨entry, mem, same.symm, (mem_mergeIntervals_cells _ s).1 ⟨i, hi, hs⟩⟩
  · rintro ⟨entry, mem, same, covered⟩
    obtain ⟨i, hi, hs⟩ := (mem_mergeIntervals_cells _ s).2 covered
    exact ⟨i, ⟨entry, mem, same.symm, hi⟩, hs⟩

/-- **A committed batch leaves exactly the rows of its items**, in order, after the old ones. -/
theorem writeItems_rows {items : List IngestItem} (h : writeItems items shard = .ok shard') :
    shard'.eventRows = shard.eventRows ++ items.flatMap IngestItem.rows := by
  obtain ⟨mid, rows, receipts⟩ := bind_eq_ok.1 h
  rw [(insertReceipts_ok receipts).1]
  exact foldlM_append eventRows IngestItem.rows (fun _ _ _ h => (insertItem_ok h).1) rows

/-- **A committed batch leaves receipts for exactly what its items account for.** -/
theorem covers_writeItems {items : List IngestItem} (h : writeItems items shard = .ok shard')
    (bootId : Guid) (cpuId : UInt16) (s : ℕ) :
    shard'.Covers bootId cpuId s ↔ shard.Covers bootId cpuId s ∨
      ∃ item ∈ items, item.stream = (bootId, cpuId) ∧
        ∃ i ∈ item.receipts, i.contains s = true := by
  obtain ⟨mid, rows, receipts⟩ := bind_eq_ok.1 h
  have same : mid.receipts = shard.receipts :=
    foldlM_const Shard.receipts (fun _ _ _ h => (insertItem_ok h).2) rows
  rw [covers_insertReceipts receipts, Covers, same, ← Covers]
  refine or_congr_right ⟨?_, ?_⟩
  · rintro ⟨entry, mem, stream, i, hi, hs⟩
    obtain ⟨_, -, rfl⟩ := mem_map.1 mem
    obtain ⟨item, hitem, hi⟩ := mem_flatMap.1 hi
    obtain ⟨hitem, same⟩ := mem_filter.1 hitem
    exact ⟨item, hitem, (of_decide_eq_true same).trans stream, i, hi, hs⟩
  · rintro ⟨item, hitem, stream, i, hi, hs⟩
    refine ⟨_, mem_map_of_mem (mem_dedup.2 (mem_map_of_mem hitem)), stream, i, ?_, hs⟩
    exact mem_flatMap.2 ⟨item, mem_filter.2 ⟨hitem, decide_eq_true rfl⟩, hi⟩

theorem writeGaps_rows {gaps : List (UInt16 × Gap)} (h : writeGaps bootId gaps shard = .ok shard') :
    shard'.eventRows = shard.eventRows ++
      gaps.map fun entry => gapRow bootId entry.1 entry.2 := by
  obtain ⟨mid, rows, receipts⟩ := bind_eq_ok.1 h
  rw [(insertReceipts_ok receipts).1, map_eq_flatMap]
  exact foldlM_append eventRows
    (fun entry : UInt16 × Gap => [gapRow bootId entry.1 entry.2])
    (fun _ _ _ h => (insertGap_ok h).1) rows

theorem writeSynthetic_rows {event : SyntheticEvent} (h : writeSynthetic event shard = .ok shard') :
    shard'.eventRows = shard.eventRows ++ [syntheticRow event] ∧
      shard'.receipts = shard.receipts := by
  obtain ⟨_, -, h⟩ := bind_eq_ok.1 h
  obtain rfl := Except.ok.inj h
  simp

/-! ### How a write can fail by itself

With storage that does what it is asked, only a number that SQLite's integers cannot
hold makes a write fail. -/

end Shard

/-- The error of a number out of range. -/
def ShardError.IsRange (error : ShardError) : Prop := ∃ field, error = .integerRange field

open Fallible (FailsOnly failsOnly_ok failsOnly_foldlM)

theorem failsOnly_sqliteInteger (value : ℕ) (field : String) :
    FailsOnly ShardError.IsRange (sqliteInteger value field) := by
  intro error h
  unfold sqliteInteger at h
  split at h
  · cases h
  · exact ⟨field, (Except.error.inj h).symm⟩

namespace Shard

theorem failsOnly_insertGap (bootId : Guid) (cpuId : UInt16) (shard : Shard) (gap : Gap) :
    FailsOnly ShardError.IsRange (insertGap bootId cpuId shard gap) :=
  (failsOnly_sqliteInteger _ _).bind fun _ => failsOnly_ok _

theorem failsOnly_insertItem (shard : Shard) (item : IngestItem) :
    FailsOnly ShardError.IsRange (shard.insertItem item) := by
  refine (failsOnly_foldlM (failsOnly_insertGap _ _) _ _).bind fun mid => ?_
  split
  · exact (failsOnly_sqliteInteger _ _).bind fun _ =>
      (failsOnly_sqliteInteger _ _).bind fun _ => failsOnly_ok _
  · exact failsOnly_ok mid

theorem failsOnly_insertReceipts (shard : Shard)
    (receipts : List ((Guid × UInt16) × List Interval)) :
    FailsOnly ShardError.IsRange (shard.insertReceipts receipts) :=
  failsOnly_foldlM (fun _ _ => failsOnly_foldlM (fun _ _ =>
    (failsOnly_sqliteInteger _ _).bind fun _ =>
      (failsOnly_sqliteInteger _ _).bind fun _ => failsOnly_ok _) _ _) _ _

theorem failsOnly_writeItems (items : List IngestItem) (shard : Shard) :
    FailsOnly ShardError.IsRange (writeItems items shard) :=
  (failsOnly_foldlM failsOnly_insertItem _ _).bind fun mid => mid.failsOnly_insertReceipts _

theorem failsOnly_writeGaps (bootId : Guid) (gaps : List (UInt16 × Gap)) (shard : Shard) :
    FailsOnly ShardError.IsRange (writeGaps bootId gaps shard) :=
  (failsOnly_foldlM (fun s (entry : UInt16 × Gap) =>
    failsOnly_insertGap bootId entry.1 s entry.2) _ _).bind
    fun mid => mid.failsOnly_insertReceipts _

/-! ### What each operation can have done -/

/-- A transaction is rolled back whole or written whole. -/
theorem transact_cases {α : Type} (shard : Shard) (io : StorageIo)
    (write : Shard → Except ShardError Shard) (afterwards : Except ShardError α) :
    (∃ error, shard.transact io write afterwards = (shard, .error error)) ∨
    ∃ committed, io.transaction = none ∧ write shard = .ok committed ∧
      shard.transact io write afterwards = (committed, afterwards) := by
  rw [transact]
  cases fault : io.transaction with
  | some code => exact .inl ⟨_, rfl⟩
  | none =>
    cases written : write shard with
    | error error => exact .inl ⟨_, rfl⟩
    | ok committed => exact .inr ⟨committed, rfl, rfl, rfl⟩

/-- A commit that reports a full disk has written nothing. -/
theorem checkpointTolerant_cases (io : StorageIo) :
    checkpointTolerant io = .ok () ∨
      ∃ error, checkpointTolerant io = .error error ∧ error.isCapacity = false := by
  rw [checkpointTolerant]
  cases io.checkpoint with
  | none => exact .inl rfl
  | some error =>
    by_cases full : error.isCapacity = true
    · exact .inl (if_pos full)
    · exact .inr ⟨error, if_neg full, by simpa using full⟩

variable {shard shard' : Shard} {io : StorageIo} {result : Except ShardError CommitStats}

/-- What a commit can have done.  Unless it was idle, it was rolled back, or has written everything,
after which only the checkpoint can fail, and not for want of space. -/
abbrev CommitCases (idle : Prop) (written : Except ShardError Shard) (io : StorageIo)
    (shard shard' : Shard) (result : Except ShardError CommitStats) : Prop :=
  (idle ∧ shard' = shard ∧ result = .ok default) ∨
  (¬ idle ∧ shard' = shard ∧ ∃ error, result = .error error) ∨
  (¬ idle ∧ written = .ok shard' ∧ io.transaction = none ∧
    ((∃ stats, result = .ok stats) ∨
      ∃ error, result = .error error ∧ error.isCapacity = false))

/-- A transaction followed by a tolerant checkpoint. -/
theorem transact_tolerant_cases {idle : Prop} (busy : ¬ idle)
    {write : Shard → Except ShardError Shard} {stats : CommitStats}
    (h : shard.transact io write ((checkpointTolerant io).map fun () => stats) = (shard', result)) :
    CommitCases idle (write shard) io shard shard' result := by
  rcases transact_cases shard io write _ with ⟨error, eq⟩ | ⟨c, fine, written, eq⟩
  · obtain ⟨rfl, rfl⟩ := Prod.mk.inj (eq.symm.trans h)
    exact .inr (.inl ⟨busy, rfl, error, rfl⟩)
  · obtain ⟨rfl, rfl⟩ := Prod.mk.inj (eq.symm.trans h)
    refine .inr (.inr ⟨busy, written, fine, ?_⟩)
    rcases checkpointTolerant_cases io with done | ⟨error, failed, full⟩
    · exact .inl ⟨_, by rw [done]; rfl⟩
    · exact .inr ⟨error, by rw [failed]; rfl, full⟩

theorem commit_cases {items : List IngestItem} (h : shard.commit items io = (shard', result)) :
    CommitCases (items = []) (writeItems items shard) io shard shard' result := by
  rw [commit] at h
  split at h
  · next idle => exact .inl ⟨idle, (Prod.mk.inj h).1.symm, (Prod.mk.inj h).2.symm⟩
  · next busy => exact transact_tolerant_cases busy h

theorem commitGaps_cases {bootId : Guid} {gaps : List (UInt16 × Gap)}
    (h : shard.commitGaps bootId gaps io = (shard', result)) :
    CommitCases (gaps = []) (writeGaps bootId gaps shard) io shard shard' result := by
  rw [commitGaps] at h
  split at h
  · next idle => exact .inl ⟨idle, (Prod.mk.inj h).1.symm, (Prod.mk.inj h).2.symm⟩
  · next busy => exact transact_tolerant_cases busy h

/-- Everything a commit of a daemon-generated event can have done.  Once the row is
committed, the result is that of the checkpoint. -/
theorem commitSynthetic_cases {event : SyntheticEvent} {result : Except ShardError Unit}
    (h : shard.commitSynthetic event io = (shard', result)) :
    (shard' = shard ∧ ∃ error, result = .error error) ∨
    (writeSynthetic event shard = .ok shard' ∧ io.transaction = none ∧
      result = checkpointIfNeeded io) := by
  rw [commitSynthetic] at h
  split at h
  · rcases transact_cases shard io (writeSynthetic event) (checkpointIfNeeded io) with
      ⟨error, eq⟩ | ⟨c, fine, written, eq⟩
    · obtain ⟨rfl, rfl⟩ := Prod.mk.inj (eq.symm.trans h)
      exact .inl ⟨rfl, error, rfl⟩
    · obtain ⟨rfl, rfl⟩ := Prod.mk.inj (eq.symm.trans h)
      exact .inr ⟨written, fine, rfl⟩
  · obtain ⟨rfl, rfl⟩ := Prod.mk.inj h
    exact .inl ⟨rfl, _, rfl⟩

/-- A transaction on storage that does what it is asked fails only as its write does. -/
theorem failsOnly_transact_fine {P : ShardError → Prop} (shard : Shard)
    {write : Shard → Except ShardError Shard} (fails : FailsOnly P (write shard))
    (stats : CommitStats) :
    FailsOnly P
      (shard.transact .fine write ((checkpointTolerant .fine).map fun () => stats)).2 := by
  intro error h
  unfold transact at h
  cases written : write shard with
  | error cause =>
    rw [written] at h
    obtain rfl := Except.error.inj h
    exact fails _ written
  | ok committed =>
    rw [written] at h
    cases h

theorem failsOnly_commit_fine (shard : Shard) (items : List IngestItem) :
    FailsOnly ShardError.IsRange (shard.commit items .fine).2 := by
  unfold commit
  split
  · exact failsOnly_ok _
  · exact failsOnly_transact_fine shard (failsOnly_writeItems items shard) _

theorem failsOnly_commitGaps_fine (shard : Shard) (bootId : Guid) (gaps : List (UInt16 × Gap)) :
    FailsOnly ShardError.IsRange (shard.commitGaps bootId gaps .fine).2 := by
  unfold commitGaps
  split
  · exact failsOnly_ok _
  · exact failsOnly_transact_fine shard (failsOnly_writeGaps bootId gaps shard) _

theorem events_removeOrphanTypes (shard : Shard) (allowed : Bool) (io : StorageIo) :
    (shard.removeOrphanTypes allowed io).1.events = shard.events := by
  unfold removeOrphanTypes
  split
  · rfl
  · split <;> rfl

/-! ### What a bounded delete leaves -/

section Delete

variable (shard : Shard) (condition : EventRow → Bool) (limit : ℕ)

theorem mem_oldest {row : ℕ × EventRow} (mem : row ∈ shard.oldest condition limit) :
    row ∈ shard.events.rows ∧ condition row.2 = true := by
  have := mem_of_mem_take mem
  rwa [mem_insertionSort, mem_filter] at this

theorem oldest_eq_nil (pos : 0 < limit) (none : shard.oldest condition limit = []) :
    ∀ row ∈ shard.events.rows, condition row.2 = false := by
  intro row mem
  unfold oldest at none
  rw [take_eq_nil_iff, or_iff_right pos.ne', ← length_eq_zero_iff,
    length_insertionSort, length_eq_zero_iff, filter_eq_nil_iff] at none
  simpa using none row mem

/-- The rows a bounded delete leaves. -/
def survivors : List (ℕ × EventRow) :=
  shard.events.rows.filter fun row => !decide (row.1 ∈ (shard.oldest condition limit).map Prod.fst)

theorem deleteEvents_fine (fits : limit ≤ i64Max) :
    (shard.deleteEvents condition limit .fine).2 = .ok (shard.oldest condition limit).length ∧
      (shard.deleteEvents condition limit .fine).1.events.rows =
        shard.survivors condition limit := by
  unfold deleteEvents
  rw [sqliteLimit, if_pos fits]
  exact ⟨rfl, rfl⟩

theorem filter_survivors :
    (shard.survivors condition limit).filter (fun row => !condition row.2) =
      shard.events.rows.filter fun row => !condition row.2 := by
  unfold survivors
  rw [filter_filter]
  refine filter_congr fun row mem => ?_
  cases spared : condition row.2 with
  | true => rfl
  | false =>
    -- a selected row with this key would be this row, and satisfy the condition
    have kept : row.1 ∉ (shard.oldest condition limit).map Prod.fst := by
      intro selected
      obtain ⟨other, hother, same⟩ := mem_map.1 selected
      obtain ⟨present, satisfied⟩ := mem_oldest shard condition limit hother
      rw [shard.events.eq_of_id_eq present mem same, spared] at satisfied
      cases satisfied
    simp [kept]

theorem survivors_sublist : (shard.survivors condition limit).Sublist shard.events.rows :=
  filter_sublist

theorem length_survivors_lt (some : shard.oldest condition limit ≠ []) :
    (shard.survivors condition limit).length < shard.events.rows.length := by
  obtain ⟨row, mem⟩ := exists_mem_of_ne_nil _ some
  unfold survivors
  rw [length_filter_lt_length_iff_exists]
  refine ⟨row, (mem_oldest shard condition limit mem).1, ?_⟩
  simpa using ⟨row.2, mem⟩

end Delete

end Shard

end Eventd
