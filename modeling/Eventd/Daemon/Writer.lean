import Mathlib.Data.Prod.Lex
import Eventd.Core.Accounting

/-!
# The writer of one event shard

`eventd/src/writer.rs`: the loop that owns a shard.  It collects queued events into a
batch and commits it, answers control messages in queue order, and keeps the ranges of
batches the storage refused in a list that is written as gap records before the next
batch.  Each turn of the loop is a step on an `Input`, which carries what the queue, the
clock and the storage answer in that turn.  Indexes are left out; of building them only
a reported corruption matters here, and it is an input as well.

The writer also keeps a log that the code does not have: the rows it committed and the
ranges that entered the list of lost ones, in the order in which that happened.

* `recordLost`: merge the ranges of a refused batch into the list, and
  `recordsLost_exact_union`: the list is then the union, in normal form;
* `recoverCorruption`, `commitBatch`, `handleSynthetic`, `handleMaintenance`, `handleControl`;
* `step`, `run`, `close`: the loop up to an error or the closing of the queue.
-/

namespace Eventd

open List

/-! ### Lost ranges -/

/-- A range of sequences of one CPU. -/
abbrev LostRange := UInt16 × Gap

namespace LostRange

/-- The sort key: CPU, then first sequence. -/
def key (range : LostRange) : ℕ ×ₗ ℕ := toLex (range.1.toNat, range.2.firstSequence)

/-- Whether the merge extends `previous` by `range`. -/
def touches (previous range : LostRange) : Bool :=
  previous.1 == range.1 && range.2.firstSequence ≤ saturatingSucc previous.2.lastSequence

/-- Extend `previous` by `range`. -/
def join (previous range : LostRange) : LostRange :=
  (previous.1,
    { previous.2 with
      lastSequence := max previous.2.lastSequence range.2.lastSequence
      revealingTimestamp := max previous.2.revealingTimestamp range.2.revealingTimestamp
      first_le_last := le_max_of_le_left previous.2.first_le_last
      last_le := max_le previous.2.last_le range.2.last_le })

/-- The sequences of a range, with their CPU. -/
def cells (range : LostRange) : Set (UInt16 × ℕ) :=
  {cell | range.1 = cell.1 ∧ range.2.contains cell.2 = true}

/-- Touching ranges in key order join to their union. -/
theorem lawful : Coalesce.Lawful key touches join cells where
  key_join _ _ _ := rfl
  touches_join _ _ _ _ := rfl
  cells_join a b le touch := by
    unfold touches at touch
    rw [Bool.and_eq_true, beq_iff_eq, decide_eq_true_eq, saturatingSucc] at touch
    obtain ⟨cpu, near⟩ := touch
    have first : a.2.firstSequence ≤ b.2.firstSequence := by
      rw [Prod.Lex.le_iff] at le
      rcases le with lt | ⟨-, le⟩
      · exact absurd (congrArg UInt16.toNat cpu) lt.ne
      · exact le
    have := a.2.first_le_last
    have := b.2.first_le_last
    ext ⟨c, s⟩
    simp only [cells, Gap.contains_iff, Set.mem_ofPred_eq, Set.mem_union, ← cpu, ← and_or_left]
    refine and_congr_right fun _ => ?_
    simp only [join]
    omega

end LostRange

/-- The ranges that a batch accounts for: the gaps of its items and its stored events. -/
def lostRanges (batch : List IngestItem) : List LostRange :=
  batch.flatMap fun item =>
    item.gaps.map (fun gap => (item.event.cpuId, gap)) ++
      if item.storeEvent then
        [(item.event.cpuId,
          { firstSequence := item.event.sequence
            lastSequence := item.event.sequence
            precedingTimestamp := none
            revealingTimestamp := item.event.timestamp
            first_pos := item.event.sequence_pos
            first_le_last := le_rfl
            last_le := item.event.sequence_le })]
      else []

/-- Merge the ranges of a batch into the pending ones.  The source sorts unstably; ranges
with one key touch, so their order shows only in the preceding timestamp of the merge. -/
def recordLost (batch : List IngestItem) (pending : List LostRange) : List LostRange :=
  Coalesce.coalesce LostRange.key LostRange.touches LostRange.join (pending ++ lostRanges batch)

/-- **The list of lost ranges gains exactly the sequences of the batch.** -/
theorem covers_recordLost (batch : List IngestItem) (pending : List LostRange) :
    Coalesce.covers LostRange.cells (recordLost batch pending) =
      Coalesce.covers LostRange.cells pending ∪
        Coalesce.covers LostRange.cells (lostRanges batch) := by
  unfold recordLost
  rw [Coalesce.covers_coalesce LostRange.lawful]
  ext cell
  simp [or_and_right, exists_or]

namespace LostRange

/-- `later` is of a later CPU, or starts after the sequence that follows `earlier`. -/
def Before (earlier later : LostRange) : Prop :=
  earlier.1.toNat < later.1.toNat ∨
    earlier.1 = later.1 ∧ earlier.2.lastSequence + 1 < later.2.firstSequence

instance : IsTrans LostRange Before where
  trans a b c hab hbc := by
    have := b.2.first_le_last
    rcases hab with lt | ⟨same, apart⟩ <;> rcases hbc with lt' | ⟨same', apart'⟩
    · exact .inl (lt.trans lt')
    · exact .inl (same' ▸ lt)
    · exact .inl (same ▸ lt')
    · exact .inr ⟨same.trans same', by omega⟩

theorem before_of_not_touches {a b : LostRange} (le : key a ≤ key b)
    (apart : touches a b = false) : a.Before b := by
  rw [Prod.Lex.le_iff] at le
  rcases le with lt | ⟨same, -⟩
  · exact .inl lt
  · have cpu : a.1 = b.1 := UInt16.toNat_inj.1 same
    refine .inr ⟨cpu, ?_⟩
    rw [touches, cpu, beq_self_eq_true, Bool.true_and, decide_eq_false_iff_not,
      saturatingSucc] at apart
    have := b.2.first_le_last
    have := b.2.last_le
    omega

theorem cells_nonempty (range : LostRange) : (range.1, range.2.firstSequence) ∈ range.cells :=
  ⟨rfl, (Gap.contains_iff _ _).2 ⟨le_rfl, range.2.first_le_last⟩⟩

theorem Before.not_mem {a b : LostRange} (before : a.Before b) {cell : UInt16 × ℕ}
    (memA : cell ∈ a.cells) (memB : cell ∈ b.cells) : False := by
  obtain ⟨cpuA, inA⟩ := memA
  obtain ⟨cpuB, inB⟩ := memB
  rw [Gap.contains_iff] at inA inB
  rcases before with lt | ⟨-, apart⟩
  · rw [cpuA, cpuB] at lt
    omega
  · omega

/-- When a range was revealed. -/
def revealing (range : LostRange) : ℕ := range.2.revealingTimestamp.toNat

theorem revealing_join (a b : LostRange) :
    (join a b).revealing = max a.revealing b.revealing := UInt64.toNat_max _ _

end LostRange

/-- What `record_lost` may leave.  Its sort is not stable, so that ranges with one key may
come in any order. -/
def RecordsLost (batch : List IngestItem) (pending result : List LostRange) : Prop :=
  ∃ sorted : List LostRange, sorted.Perm (pending ++ lostRanges batch) ∧
    (sorted.Pairwise fun a b => a.key ≤ b.key) ∧
    result = Coalesce.sweep LostRange.touches LostRange.join sorted

theorem recordsLost_recordLost (batch : List IngestItem) (pending : List LostRange) :
    RecordsLost batch pending (recordLost batch pending) :=
  ⟨_, perm_insertionSort _ _, Coalesce.sorted_by_key _ _, rfl⟩

theorem mem_covers_lostRanges {batch : List IngestItem} {cpu : UInt16} {s : ℕ} :
    (cpu, s) ∈ Coalesce.covers LostRange.cells (lostRanges batch) ↔
      ∃ item ∈ batch, item.event.cpuId = cpu ∧
        ((∃ gap ∈ item.gaps, gap.contains s = true) ∨
          item.storeEvent = true ∧ item.event.sequence = s) := by
  have one (item : IngestItem) : (∃ range ∈ lostRanges [item], (cpu, s) ∈ range.cells) ↔
      item.event.cpuId = cpu ∧ ((∃ gap ∈ item.gaps, gap.contains s = true) ∨
        item.storeEvent = true ∧ item.event.sequence = s) := by
    simp only [lostRanges, flatMap_cons, flatMap_nil, append_nil, mem_append,
      mem_map, LostRange.cells, Set.mem_ofPred_eq]
    constructor
    · rintro ⟨range, ⟨gap, mem, rfl⟩ | stored, rfl, inside⟩
      · exact ⟨rfl, .inl ⟨gap, mem, inside⟩⟩
      · split_ifs at stored with store
        · obtain rfl := mem_singleton.1 stored
          rw [Gap.contains_iff] at inside
          exact ⟨rfl, .inr ⟨store, le_antisymm inside.1 inside.2⟩⟩
        · cases stored
    · rintro ⟨rfl, ⟨gap, mem, inside⟩ | ⟨store, rfl⟩⟩
      · exact ⟨_, .inl ⟨gap, mem, rfl⟩, rfl, inside⟩
      · rw [if_pos store]
        exact ⟨_, .inr mem_cons_self, rfl, (Gap.contains_iff _ _).2 ⟨le_rfl, le_rfl⟩⟩
  simp only [Coalesce.mem_covers, ← one]
  simp only [lostRanges, mem_flatMap, flatMap_cons, flatMap_nil, append_nil]
  exact ⟨fun ⟨range, ⟨item, mem, own⟩, inside⟩ => ⟨item, mem, range, own, inside⟩,
    fun ⟨item, mem, range, own, inside⟩ => ⟨range, ⟨item, mem, own⟩, inside⟩⟩

/-- **The list of lost ranges becomes the exact union.**  For each CPU it names the sequences
of the old list, of the gaps of the batch and of its stored events, as ranges that are in order
and neither overlap nor adjoin; and a range reveals at the latest of the times of those that
were merged into it. -/
theorem recordsLost_exact_union {batch : List IngestItem} {pending result : List LostRange}
    (records : RecordsLost batch pending result) :
    (∀ cpu s, (∃ range ∈ result, range.1 = cpu ∧ range.2.contains s = true) ↔
      (∃ range ∈ pending, range.1 = cpu ∧ range.2.contains s = true) ∨
        ∃ item ∈ batch, item.event.cpuId = cpu ∧
          ((∃ gap ∈ item.gaps, gap.contains s = true) ∨
            item.storeEvent = true ∧ item.event.sequence = s)) ∧
    result.Pairwise LostRange.Before ∧
    ∀ merged ∈ result,
      IsGreatest {time | ∃ range ∈ pending ++ lostRanges batch,
          range.cells ⊆ merged.cells ∧ range.revealing = time} merged.revealing := by
  obtain ⟨sorted, perm, inOrder, rfl⟩ := records
  have apart : (Coalesce.sweep LostRange.touches LostRange.join sorted).Pairwise
      LostRange.Before :=
    ((Coalesce.isChain_sweep LostRange.lawful inOrder).imp
      fun _ _ h => LostRange.before_of_not_touches h.1 h.2).pairwise
  refine ⟨fun cpu s => ?_, apart, fun merged mem => ⟨?_, ?_⟩⟩
  · have cells := Set.ext_iff.1 (Coalesce.covers_sweep LostRange.lawful inOrder) (cpu, s)
    rw [← mem_covers_lostRanges]
    refine cells.trans ?_
    simp only [Coalesce.mem_covers, perm.mem_iff, mem_append, or_and_right, exists_or]
    rfl
  · obtain ⟨range, memRange, inside, same⟩ := Coalesce.exists_piece_of_mem_sweep
      LostRange.lawful LostRange.revealing_join inOrder mem
    exact ⟨range, perm.mem_iff.1 memRange, inside, same⟩
  · -- a range inside the merged one was merged into it, since no other meets it
    rintro _ ⟨range, memRange, inside, rfl⟩
    obtain ⟨other, memOther, insideOther, le⟩ := Coalesce.exists_mem_sweep
      LostRange.lawful LostRange.revealing_join inOrder (perm.mem_iff.2 memRange)
    have cell := range.cells_nonempty
    have symm : Std.Symm fun a b : LostRange => a.Before b ∨ b.Before a := ⟨fun _ _ => Or.symm⟩
    have either : (Coalesce.sweep LostRange.touches LostRange.join sorted).Pairwise
        fun a b => a.Before b ∨ b.Before a := apart.imp Or.inl
    by_cases same : other = merged
    · exact same ▸ le
    · rcases either.forall memOther mem same with before | before
      · exact (before.not_mem (insideOther cell) (inside cell)).elim
      · exact (before.not_mem (inside cell) (insideOther cell)).elim

/-- A batch of one event, whose gap lies before it. -/
def gapAndEvent : IngestItem where
  gaps := [⟨3, 6, none, 20, by decide, by decide, by decide⟩]
  storeEvent := true
  event :=
    { bootId := .replicate 16 0
      timestamp := 20
      cpuId := 1
      sequence := 7
      originClass := 0
      effectiveTokenGuid := .replicate 16 0
      trueTokenGuid := .replicate 16 0
      processGuid := .replicate 16 0
      eventType := "x"
      payload := []
      sequence_pos := by decide
      sequence_le := by decide }

theorem recordsLost_exact_union_gapAndEvent :
    (recordLost [gapAndEvent] [(1, ⟨1, 3, none, 9, by decide, by decide, by decide⟩)]).Pairwise
      LostRange.Before :=
  (recordsLost_exact_union (recordsLost_recordLost _ _)).2.1

example : (recordLost [gapAndEvent] [(1, ⟨1, 3, none, 9, by decide, by decide, by decide⟩)]) =
    [(1, ⟨1, 7, none, 20, by decide, by decide, by decide⟩)] := by decide +kernel

/-! ### The writer's state and what it is answered -/

/-- What the log records. -/
inductive Effect
  | wrote (row : EventRow)
  | lost (cpuId : UInt16) (gap : Gap)
  deriving DecidableEq

/-- The state of the loop between two turns.  A batch is being filled while it is not empty. -/
structure Writer where
  shard : Shard
  batch : List IngestItem
  /-- The batch size that was configured when the batch was opened. -/
  maxBatchSize : ℕ
  pendingGaps : List LostRange
  /-- What the loop returned, if it has ended. -/
  returned : Option (Except ShardError Unit)
  log : List Effect

/-- Which shard's writer this is. -/
structure WriterContext where
  bootId : Guid
  /-- The quarantine report that `synthetic::storage_error` makes for this shard. -/
  report : ShardError → UInt64 → SyntheticEvent

/-- What a recovery from corruption is answered: by the quarantine and reopening of the
database, by the clock, and by the storage for the report. -/
structure RecoverIo where
  replace : Option ShardError
  clock : Except ShardError UInt64
  report : StorageIo

/-- What a commit of a batch is answered. -/
structure BatchIo where
  gaps : StorageIo
  recoverGaps : RecoverIo
  retryGaps : StorageIo
  commit : StorageIo
  recover : RecoverIo

/-- What a commit of a daemon-generated event is answered. -/
structure SyntheticIo where
  commit : StorageIo
  recover : RecoverIo
  retry : StorageIo

/-- What a maintenance command is answered. -/
structure MaintenanceIo where
  storage : StorageIo
  orphanCheck : Bool
  passiveCheckpoint : Option ShardError
  recover : RecoverIo

/-- One bounded low-priority retention or checkpoint operation. -/
inductive EventMaintenance
  | deleteBefore (cutoff : ℤ) (limit : ℕ)
  | deleteBoot (bootId : Guid) (limit : ℕ)
  | checkpoint

/-- What one step of index convergence is answered: its error, if any. -/
structure ConvergeIo where
  error : Option ShardError
  recover : RecoverIo

/-- The messages besides events. -/
inductive Control
  | barrier
  | synthetic (event : SyntheticEvent) (io : SyntheticIo)
  | maintenance (command : EventMaintenance) (io : MaintenanceIo)
  | indexPolicy (steps : List ConvergeIo)

/-- What one turn of the loop meets. -/
inductive Input
  /-- An event, the configured batch size, whether the batch's time is over after it, and
  what the storage answers if the batch is then committed. -/
  | item (item : IngestItem) (maxBatchSize : ℕ) (elapsed : Bool) (io : BatchIo)
  | control (message : Control) (io : BatchIo)
  /-- An empty queue. -/
  | empty (io : BatchIo)
  /-- A convergence step of a quiet writer. -/
  | quiet (io : ConvergeIo)

/-- What a control message leads to: the writer, the reply if one was sent, and whether
the loop goes on. -/
structure Handled (α : Type) where
  writer : Writer
  reply : Option (Except ShardError α)
  result : Except ShardError Unit

namespace Writer

variable (ctx : WriterContext) (w : Writer)

/-- The writer of a shard before its first turn. -/
def start (shard : Shard) : Writer := ⟨shard, [], 0, [], none, []⟩

/-- Take over what a write left of the shard, and log the rows it committed. -/
def took (left : Shard) : Writer :=
  { w with
    shard := left
    log := w.log ++ (left.eventRows.drop w.shard.eventRows.length).map .wrote }

/-- Hold the ranges of the batch in the list of lost ones. -/
def refused : Writer :=
  { w with
    pendingGaps := recordLost w.batch w.pendingGaps
    log := w.log ++ (lostRanges w.batch).map fun range => .lost range.1 range.2 }

/-- Replace a corrupt shard by an empty one and report it there. -/
def recoverCorruption (error : ShardError) (io : RecoverIo) :
    Writer × Except ShardError Unit :=
  match io.replace, io.clock with
  | some failure, _ => (w, .error failure)
  | none, .error failure => ({ w with shard := Shard.new }, .error failure)
  | none, .ok timestamp =>
    match Shard.new.commitSynthetic (ctx.report error timestamp) io.report with
    | (left, .ok ()) => ({ w with shard := Shard.new }.took left, .ok ())
    | (left, .error failure) =>
      ({ w with shard := Shard.new }.took left,
        if failure.isCapacity then .ok () else .error failure)

/-! ### Batches -/

/-- Write the pending ranges as gap records. -/
def commitPending (io : StorageIo) : Writer × Except ShardError Unit :=
  match w.shard.commitGaps ctx.bootId w.pendingGaps io with
  | (left, .ok _) => ({ w.took left with pendingGaps := [] }, .ok ())
  | (left, .error error) => (w.took left, .error error)

/-- Write the pending ranges into a replaced shard; a full disk refuses the batch. -/
def retryPending (io : StorageIo) : Writer × Except ShardError Bool :=
  match w.commitPending ctx io with
  | (w, .ok ()) => (w, .ok true)
  | (w, .error retry) => if retry.isCapacity then (w.refused, .ok false) else (w, .error retry)

/-- Write the pending ranges, once more after a recovery.  The result says whether the
batch can be committed after them; if not, it has been refused. -/
def flushPending (io : BatchIo) : Writer × Except ShardError Bool :=
  if w.pendingGaps = [] then (w, .ok true)
  else
    match w.commitPending ctx io.gaps with
    | (w, .ok ()) => (w, .ok true)
    | (w, .error error) =>
      if error.isCapacity then (w.refused, .ok false)
      else if error.isCorruption then
        match w.recoverCorruption ctx error io.recoverGaps with
        | (w, .error failure) => (w, .error failure)
        | (w, .ok ()) => w.retryPending ctx io.retryGaps
      else (w, .error error)

/-- Commit the batch itself. -/
def storeBatch (io : BatchIo) : Writer × Except ShardError Unit :=
  match w.shard.commit w.batch io.commit with
  | (left, .ok _) => (w.took left, .ok ())
  | (left, .error error) =>
    if error.isCapacity then ((w.took left).refused, .ok ())
    else if error.isCorruption then
      (w.took left).refused.recoverCorruption ctx error io.recover
    else (w.took left, .error error)

/-- Commit the pending ranges and then the batch. -/
def commitBatch (io : BatchIo) : Writer × Except ShardError Unit :=
  if w.batch = [] then (w, .ok ())
  else
    match w.flushPending ctx io with
    | (w, .error error) => (w, .error error)
    | (w, .ok false) => (w, .ok ())
    | (w, .ok true) => w.storeBatch ctx io

/-! ### Control messages -/

/-- Commit a daemon-generated event, once more after a recovery. -/
def handleSynthetic (event : SyntheticEvent) (io : SyntheticIo) : Handled Unit :=
  match w.shard.commitSynthetic event io.commit with
  | (left, .ok ()) => ⟨w.took left, some (.ok ()), .ok ()⟩
  | (left, .error error) =>
    if error.isCapacity then ⟨w.took left, some (.error error), .ok ()⟩
    else if error.isCorruption then
      match (w.took left).recoverCorruption ctx error io.recover with
      | (w, .error failure) => ⟨w, none, .error failure⟩
      | (w, .ok ()) =>
        match w.shard.commitSynthetic event io.retry with
        | (left, .ok ()) => ⟨w.took left, some (.ok ()), .ok ()⟩
        | (left, .error retry) =>
          ⟨w.took left, some (.error retry),
            if retry.isCapacity then .ok () else .error retry⟩
    else ⟨w.took left, some (.error error), .error error⟩

/-- Run a maintenance command on the shard.  None of them writes an event row. -/
def maintain (command : EventMaintenance) (io : MaintenanceIo) :
    Shard × Except ShardError ℕ :=
  match command with
  | .deleteBefore cutoff limit => w.shard.retainBefore cutoff limit io.storage
  | .deleteBoot bootId limit => w.shard.retainBoot bootId limit io.storage
  | .checkpoint =>
    match w.shard.removeOrphanTypes io.orphanCheck io.storage with
    | (left, .error error) => (left, .error error)
    | (left, .ok _) =>
      match io.passiveCheckpoint with
      | some error => (left, .error error)
      | none => (left, .ok 0)

/-- Answer a maintenance command. -/
def handleMaintenance (command : EventMaintenance) (io : MaintenanceIo) : Handled ℕ :=
  match w.maintain command io with
  | (left, .ok deleted) => ⟨{ w with shard := left }, some (.ok deleted), .ok ()⟩
  | (left, .error error) =>
    if error.isCapacity then ⟨{ w with shard := left }, some (.error error), .ok ()⟩
    else if error.isCorruption then
      match { w with shard := left }.recoverCorruption ctx error io.recover with
      | (w, result) => ⟨w, some (.error error), result⟩
    else ⟨{ w with shard := left }, some (.error error), .error error⟩

/-- One convergence step: only a corruption is acted on. -/
def convergeOnce (io : ConvergeIo) : Writer × Except ShardError Unit :=
  match io.error with
  | some error =>
    if error.isCorruption then w.recoverCorruption ctx error io.recover else (w, .ok ())
  | none => (w, .ok ())

/-- Convergence steps, one after another while the queue stays empty. -/
def converge (w : Writer) : List ConvergeIo → Writer × Except ShardError Unit
  | [] => (w, .ok ())
  | io :: steps =>
    match w.convergeOnce ctx io with
    | (w, .error error) => (w, .error error)
    | (w, .ok ()) => converge w steps

/-- Answer a control message. -/
def handleControl (message : Control) : Writer × Except ShardError Unit :=
  match message with
  | .barrier => (w, .ok ())
  | .synthetic event io =>
    ((w.handleSynthetic ctx event io).writer, (w.handleSynthetic ctx event io).result)
  | .maintenance command io =>
    ((w.handleMaintenance ctx command io).writer, (w.handleMaintenance ctx command io).result)
  | .indexPolicy steps => w.converge ctx steps

/-! ### The loop -/

/-- End the loop if an operation failed. -/
def orReturn : Writer × Except ShardError Unit → Writer
  | (w, .ok ()) => w
  | (w, .error error) => { w with returned := some (.error error) }

/-- Commit the batch and start an empty one. -/
def finishBatch (io : BatchIo) : Writer :=
  match w.commitBatch ctx io with
  | (w, .ok ()) => { w with batch := [] }
  | (w, .error error) => { w with returned := some (.error error) }

/-- Put an event into the batch; opening a batch reads the configured size. -/
def push (item : IngestItem) (maxBatchSize : ℕ) : Writer :=
  { w with
    maxBatchSize := if w.batch = [] then maxBatchSize else w.maxBatchSize
    batch := w.batch ++ [item] }

/-- One turn of a loop that has not ended. -/
def turn (input : Input) : Writer :=
  match input with
  | .item item maxBatchSize elapsed io =>
    let w := w.push item maxBatchSize
    if w.batch.length < w.maxBatchSize && !elapsed then w else w.finishBatch ctx io
  | .control message io =>
    -- a batch being filled is committed first
    let w := w.finishBatch ctx io
    if w.returned.isSome then w else orReturn (w.handleControl ctx message)
  | .empty io => w.finishBatch ctx io
  | .quiet io => if w.batch = [] then orReturn (w.convergeOnce ctx io) else w

/-- One turn, if the loop has not ended. -/
def step (input : Input) : Writer := if w.returned.isSome then w else w.turn ctx input

/-- A run of the loop. -/
def run (inputs : List Input) : Writer := inputs.foldl (step ctx) w

/-- The queue is closed and drained. -/
def close (io : BatchIo) : Writer :=
  if w.returned.isSome then w
  else
    let w := w.finishBatch ctx io
    if w.returned.isSome then w else { w with returned := some (.ok ()) }

end Writer

end Eventd
