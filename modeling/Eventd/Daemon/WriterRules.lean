import Eventd.Daemon.Writer

/-!
# Rules for the operations of a shard writer

The operations of a writer are made of a few changes: rows are committed, the ranges of the batch
enter the list of lost ones, a shard is replaced.  What an operation can lead to is followed here
once, for any predicates that these changes carry over: `live` holds where the last write has
succeeded or left nothing behind, and `kept` wherever a write may have failed half way.

* `Ends`: what holds after an operation that may fail;
* `ControlRule`, `ControlRule.handleControl`: control messages;
* `BatchRule`, `BatchRule.commitBatch`: a batch, before and after it has been dealt with;
* `Turned`, `turned`: everything that one turn of the loop can do.
-/

namespace Eventd

namespace Writer

theorem took_self (w : Writer) : w.took w.shard = w := by simp [took]

/-- What holds after an operation that may fail. -/
structure Ends {α : Type} (kept : Writer → Prop) (live : α → Writer → Prop)
    (outcome : Writer × Except ShardError α) : Prop where
  kept : kept outcome.1
  live : ∀ a, outcome.2 = .ok a → live a outcome.1

/-! ### Control messages -/

/-- What control messages do keeps `live`, or `kept` where a shard is found corrupt. -/
structure ControlRule (ctx : WriterContext) (live kept : Writer → Prop) : Prop where
  weaken : ∀ {w}, live w → kept w
  recover : ∀ {w}, kept w → ∀ error io,
    Ends kept (fun _ => live) (w.recoverCorruption ctx error io)
  commitSynthetic : ∀ {w event io left} {result : Except ShardError Unit}, live w →
    w.shard.commitSynthetic event io = (left, result) → live (w.took left)
  maintain : ∀ {w}, live w → ∀ command io, live { w with shard := (w.maintain command io).1 }

namespace ControlRule

variable {ctx : WriterContext} {live kept live' kept' : Writer → Prop} {w : Writer}

theorem of_shard {p : Writer → Prop} (shard : ∀ {w}, p w → ∀ shard, p { w with shard := shard })
    (commitSynthetic : ∀ {w event io left} {result : Except ShardError Unit}, p w →
      w.shard.commitSynthetic event io = (left, result) → p (w.took left)) :
    ControlRule ctx p p where
  weaken := id
  recover {w} h error io := by
    have fresh := shard h Shard.new
    suffices still : p (w.recoverCorruption ctx error io).1 from ⟨still, fun _ _ => still⟩
    unfold recoverCorruption
    split
    · exact h
    · exact fresh
    · split <;> next written => exact commitSynthetic fresh written
  commitSynthetic := commitSynthetic
  maintain h _ _ := shard h _

theorem and (rule : ControlRule ctx live kept) (rule' : ControlRule ctx live' kept') :
    ControlRule ctx (fun w => live w ∧ live' w) fun w => kept w ∧ kept' w where
  weaken h := ⟨rule.weaken h.1, rule'.weaken h.2⟩
  recover h error io :=
    have first := rule.recover h.1 error io
    have second := rule'.recover h.2 error io
    ⟨⟨first.kept, second.kept⟩, fun done ok => ⟨first.live done ok, second.live done ok⟩⟩
  commitSynthetic h written := ⟨rule.commitSynthetic h.1 written, rule'.commitSynthetic h.2 written⟩
  maintain h command io := ⟨rule.maintain h.1 command io, rule'.maintain h.2 command io⟩

variable (rule : ControlRule ctx live kept) (h : live w)
include rule h

theorem ends {α : Type} {result : Except ShardError α} : Ends kept (fun _ => live) (w, result) :=
  ⟨rule.weaken h, fun _ _ => h⟩

theorem handleSynthetic (event : SyntheticEvent) (io : SyntheticIo) :
    Ends kept (fun _ => live)
      ((w.handleSynthetic ctx event io).writer, (w.handleSynthetic ctx event io).result) := by
  unfold Writer.handleSynthetic
  rcases written : w.shard.commitSynthetic event io.commit with ⟨left, error | done⟩
  · have first := rule.commitSynthetic h written
    dsimp only
    split_ifs
    · exact rule.ends first
    · have recovered := rule.recover (rule.weaken first) error io.recover
      rcases eq : (w.took left).recoverCorruption ctx error io.recover with ⟨w', failure | done⟩
      · rw [eq] at recovered
        exact recovered
      · rw [eq] at recovered
        have again := recovered.live done rfl
        dsimp only
        rcases retried : w'.shard.commitSynthetic event io.retry with ⟨left', retry | done⟩
        · exact rule.ends (rule.commitSynthetic again retried)
        · exact rule.ends (rule.commitSynthetic again retried)
    · exact rule.ends first
  · exact rule.ends (rule.commitSynthetic h written)

theorem handleMaintenance (command : EventMaintenance) (io : MaintenanceIo) :
    Ends kept (fun _ => live)
      ((w.handleMaintenance ctx command io).writer,
        (w.handleMaintenance ctx command io).result) := by
  have maintained := rule.maintain h command io
  unfold Writer.handleMaintenance
  rcases eq : w.maintain command io with ⟨left, error | deleted⟩ <;> rw [eq] at maintained
  · dsimp only
    split_ifs
    · exact rule.ends maintained
    · exact rule.recover (rule.weaken maintained) error io.recover
    · exact rule.ends maintained
  · exact rule.ends maintained

theorem convergeOnce (io : ConvergeIo) : Ends kept (fun _ => live) (w.convergeOnce ctx io) := by
  unfold Writer.convergeOnce
  split
  · split_ifs
    · exact rule.recover (rule.weaken h) _ _
    · exact rule.ends h
  · exact rule.ends h

theorem converge (steps : List ConvergeIo) :
    Ends kept (fun _ => live) (w.converge ctx steps) := by
  induction steps generalizing w with
  | nil => exact rule.ends h
  | cons io steps ih =>
    have first := rule.convergeOnce h io
    unfold Writer.converge
    split
    · next eq => rw [eq] at first; exact ⟨first.kept, nofun⟩
    · next eq => rw [eq] at first; exact ih (first.live () rfl)

theorem handleControl (message : Control) :
    Ends kept (fun _ => live) (w.handleControl ctx message) := by
  cases message with
  | barrier => exact rule.ends h
  | synthetic event io => exact rule.handleSynthetic h event io
  | maintenance command io => exact rule.handleMaintenance h command io
  | indexPolicy steps => exact rule.converge h steps

end ControlRule

/-! ### Batches -/

/-- What the commit of a batch does keeps the predicates, and carries them from `false` to `true`
where the batch has been dealt with. -/
structure BatchRule (ctx : WriterContext) (live kept : Bool → Writer → Prop) : Prop where
  control : ∀ moved, ControlRule ctx (live moved) (kept moved)
  empty : ∀ {w}, live false w → w.batch = [] → live true w
  record : ∀ {w left}, live false w →
    left.eventRows = w.shard.eventRows ++
      w.pendingGaps.map (fun range => gapRow ctx.bootId range.1 range.2) →
    live false { w.took left with pendingGaps := [] } ∧ kept false (w.took left)
  store : ∀ {w left}, live false w → w.pendingGaps = [] →
    left.eventRows = w.shard.eventRows ++ w.batch.flatMap IngestItem.rows →
    live true (w.took left) ∧ kept false (w.took left)
  refuse : ∀ {w}, live false w → live true w.refused
  refuseKept : ∀ {w}, kept false w → kept true w.refused

/-- What writing the list before a batch leads to: the list is in the shard and the batch can be
committed, or the batch is on the list. -/
def Flushed (live kept : Bool → Writer → Prop) : Writer × Except ShardError Bool → Prop :=
  Ends (fun w => ∃ moved, kept moved w)
    fun ready w => live (!ready) w ∧ (ready = true → w.pendingGaps = [])

namespace BatchRule

variable {ctx : WriterContext} {live kept : Bool → Writer → Prop} {w : Writer}
  (rule : BatchRule ctx live kept) (h : live false w)
include rule h

/-- A full disk leaves nothing behind; after any other error the rows may have been committed. -/
theorem commitPending (io : StorageIo) :
    Ends (kept false) (fun _ w => live false w ∧ w.pendingGaps = []) (w.commitPending ctx io) ∧
      ∀ error, (w.commitPending ctx io).2 = .error error → error.isCapacity = true →
        live false (w.commitPending ctx io).1 := by
  unfold Writer.commitPending
  split
  · next left stats written =>
    have rows : left.eventRows = w.shard.eventRows ++
        w.pendingGaps.map fun range => gapRow ctx.bootId range.1 range.2 := by
      rcases Shard.commitGaps_cases written with ⟨none, rfl, -⟩ | ⟨-, -, _, failed⟩ | ⟨-, rows, -⟩
      · simp [none]
      · cases failed
      · exact Shard.writeGaps_rows rows
    have done := (rule.record h rows).1
    exact ⟨⟨(rule.control false).weaken done, fun _ _ => ⟨done, rfl⟩⟩, nofun⟩
  · next left error written =>
    rcases Shard.commitGaps_cases written with ⟨-, -, ok⟩ | ⟨-, rfl, -⟩ | ⟨-, rows, -, result⟩
    · cases ok
    · rw [took_self]
      exact ⟨⟨(rule.control false).weaken h, nofun⟩, fun _ _ _ => h⟩
    · refine ⟨⟨(rule.record h (Shard.writeGaps_rows rows)).2, nofun⟩, fun other is full => ?_⟩
      rcases result with ⟨stats, ok⟩ | ⟨same, eq, notFull⟩
      · cases ok
      · rw [← Except.error.inj eq, Except.error.inj is, full] at notFull
        cases notFull

theorem flushed_ready (none : w.pendingGaps = []) : Flushed live kept (w, .ok true) :=
  ⟨⟨false, (rule.control false).weaken h⟩, fun _ is => Except.ok.inj is ▸ ⟨h, fun _ => none⟩⟩

theorem flushed_refused : Flushed live kept (w.refused, .ok false) :=
  ⟨⟨true, (rule.control true).weaken (rule.refuse h)⟩,
    fun _ is => Except.ok.inj is ▸ ⟨rule.refuse h, nofun⟩⟩

theorem retryPending (io : StorageIo) : Flushed live kept (w.retryPending ctx io) := by
  obtain ⟨first, partly⟩ := rule.commitPending h io
  unfold Writer.retryPending
  split
  · next eq =>
    rw [eq] at first
    obtain ⟨still, none⟩ := first.live () rfl
    exact rule.flushed_ready still none
  · next retry eq =>
    rw [eq] at first partly
    split_ifs with full
    · exact rule.flushed_refused (partly retry rfl full)
    · exact ⟨⟨false, first.kept⟩, nofun⟩

theorem flushPending (io : BatchIo) : Flushed live kept (w.flushPending ctx io) := by
  obtain ⟨first, partly⟩ := rule.commitPending h io.gaps
  unfold Writer.flushPending
  split_ifs with none
  · exact rule.flushed_ready h none
  split
  · next eq =>
    rw [eq] at first
    obtain ⟨still, none⟩ := first.live () rfl
    exact rule.flushed_ready still none
  · next error eq =>
    rw [eq] at first partly
    split_ifs with full
    · exact rule.flushed_refused (partly error rfl full)
    · have recovered := (rule.control false).recover first.kept error io.recoverGaps
      split
      · next eq' => rw [eq'] at recovered; exact ⟨⟨false, recovered.kept⟩, nofun⟩
      · next eq' =>
        rw [eq'] at recovered
        exact rule.retryPending (recovered.live () rfl) io.retryGaps
    · exact ⟨⟨false, first.kept⟩, nofun⟩

theorem storeBatch (none : w.pendingGaps = []) (io : BatchIo) :
    Ends (fun w => ∃ moved, kept moved w) (fun _ => live true) (w.storeBatch ctx io) := by
  have done {w : Writer} {result : Except ShardError Unit} (h : live true w) :
      Ends (fun w => ∃ moved, kept moved w) (fun _ => live true) (w, result) :=
    ⟨⟨true, (rule.control true).weaken h⟩, fun _ _ => h⟩
  unfold Writer.storeBatch
  split
  · next written =>
    rcases Shard.commit_cases written with ⟨empty, rfl, -⟩ | ⟨-, -, _, failed⟩ | ⟨-, rows, -⟩
    · exact done (rule.store h none (by simp [empty])).1
    · cases failed
    · exact done (rule.store h none (Shard.writeItems_rows rows)).1
  · next left error written =>
    have first : kept false (w.took left) ∧ (error.isCapacity = true → live false (w.took left)) := by
      rcases Shard.commit_cases written with ⟨-, -, ok⟩ | ⟨-, rfl, -⟩ | ⟨-, rows, -, result⟩
      · cases ok
      · rw [took_self]
        exact ⟨(rule.control false).weaken h, fun _ => h⟩
      · refine ⟨(rule.store h none (Shard.writeItems_rows rows)).2, fun full => ?_⟩
        rcases result with ⟨stats, ok⟩ | ⟨same, eq, notFull⟩
        · cases ok
        · rw [← Except.error.inj eq, full] at notFull
          cases notFull
    split_ifs with full
    · exact done (rule.refuse (first.2 full))
    · have recovered := (rule.control true).recover (rule.refuseKept first.1) error io.recover
      exact ⟨⟨true, recovered.kept⟩, recovered.live⟩
    · exact ⟨⟨false, first.1⟩, nofun⟩

/-- **A batch that is committed has been dealt with.** -/
theorem commitBatch (io : BatchIo) :
    Ends (fun w => ∃ moved, kept moved w) (fun _ => live true) (w.commitBatch ctx io) := by
  have flushed := rule.flushPending h io
  unfold Writer.commitBatch
  split_ifs with empty
  · exact ⟨⟨false, (rule.control false).weaken h⟩, fun _ _ => rule.empty h empty⟩
  split
  · next eq => rw [eq] at flushed; exact ⟨flushed.kept, nofun⟩
  · next eq => rw [eq] at flushed; exact ⟨flushed.kept, fun _ _ => (flushed.live false rfl).1⟩
  · next eq =>
    rw [eq] at flushed
    obtain ⟨still, none⟩ := flushed.live true rfl
    exact rule.storeBatch still (none rfl) io

end BatchRule

/-! ### Turns -/

/-- Everything that one turn of a loop that has not ended can do. -/
inductive Turned (ctx : WriterContext) (w : Writer) : Input → Writer → Prop
  | pushed (item : IngestItem) (size : ℕ) (elapsed : Bool) (io : BatchIo) :
      Turned ctx w (.item item size elapsed io) (w.push item size)
  | filled (item : IngestItem) (size : ℕ) (elapsed : Bool) (io : BatchIo) :
      Turned ctx w (.item item size elapsed io) ((w.push item size).finishBatch ctx io)
  | stopped (message : Control) (io : BatchIo)
      (ended : (w.finishBatch ctx io).returned.isSome = true) :
      Turned ctx w (.control message io) (w.finishBatch ctx io)
  | handled (message : Control) (io : BatchIo) (running : (w.finishBatch ctx io).returned = none) :
      Turned ctx w (.control message io) (orReturn ((w.finishBatch ctx io).handleControl ctx message))
  | emptied (io : BatchIo) : Turned ctx w (.empty io) (w.finishBatch ctx io)
  | converged (io : ConvergeIo) (empty : w.batch = []) :
      Turned ctx w (.quiet io) (orReturn (w.convergeOnce ctx io))
  | filling (io : ConvergeIo) : Turned ctx w (.quiet io) w

theorem turned (ctx : WriterContext) (w : Writer) (input : Input) :
    Turned ctx w input (w.turn ctx input) := by
  cases input with
  | item item size elapsed io =>
    unfold turn
    dsimp only
    split_ifs
    · exact .pushed item size elapsed io
    · exact .filled item size elapsed io
  | control message io =>
    unfold turn
    dsimp only
    split_ifs with ended
    · exact .stopped message io ended
    · exact .handled message io (by simpa using ended)
  | empty io => exact .emptied io
  | quiet io =>
    unfold turn
    split_ifs with empty
    · exact .converged io empty
    · exact .filling io

end Writer

end Eventd
