import Eventd.Lib.Fallback
import Eventd.Daemon.Writer

/-!
# Where a daemon-wide event goes

`commit_synthetic_fallback` and `commit_direct_fallback` of `eventd/src/pipeline.rs`: an event of
the daemon itself is offered to the shards in order, until one takes it.

* `Target`, `commitSyntheticFallback`;
* `SyntheticIo.Unreported`: the answers of the storage with which a writer stores the event
  and reports that it did not; `truthful_handleSynthetic`: no other answers do that;
* `synthetic_stored_once_iff`: what becomes of the event;
* `commitDirectFallback`, `direct_stored_once_iff`: the same at startup.
-/

namespace Eventd

/-- Why no writer took an event. -/
inductive FallbackError
  | noActiveShard
  | queue
  | write (error : ShardError)
  | stopped
  deriving DecidableEq

/-- A writer and its queue, when an event of the daemon reaches them: whether the queue has
room for a message, the writer as it is when it takes the message, its batch committed, and
what the storage then answers. -/
structure Target where
  ctx : WriterContext
  reserved : Bool
  writer : Writer
  io : SyntheticIo

/-- Offer an event to a writer.  One that has ended does not reply. -/
def Target.answer (event : SyntheticEvent) (target : Target) :
    Writer × Fallback.Verdict FallbackError :=
  if target.reserved then
    if target.writer.returned.isSome then (target.writer, .passed .stopped)
    else
      let handled := target.writer.handleSynthetic target.ctx event target.io
      (Writer.orReturn (handled.writer, handled.result),
        match handled.reply with
        | some (.ok ()) => .accepted
        | some (.error error) => .passed (.write error)
        | none => .passed .stopped)
  else (target.writer, .passed .queue)

/-- How often a shard holds the row of an event. -/
def Shard.holds (event : SyntheticEvent) (shard : Shard) : ℕ :=
  shard.eventRows.count (syntheticRow event)

/-- An event that a shard can store: of a type that the daemon writes, and of a time that
fits its column. -/
def SyntheticEvent.Storable (event : SyntheticEvent) : Prop :=
  isStoreWritten event.eventType = true ∧ event.timestamp.toNat ≤ i64Max

instance (event : SyntheticEvent) : Decidable event.Storable :=
  inferInstanceAs (Decidable (_ ∧ _))

/-- What a write reports if it is asked for nothing impossible. -/
def StorageIo.error (io : StorageIo) : Option ShardError :=
  match io.transaction with
  | some code => some (.sql code)
  | none => io.checkpoint

/-- The transaction commits, and the checkpoint after it fails. -/
def StorageIo.Halfway (io : StorageIo) : Prop :=
  io.transaction = none ∧ io.checkpoint ≠ none

section Shard

variable {event : SyntheticEvent} {shard : Shard} {io : StorageIo}

/-- A storable event is written unless the transaction fails. -/
theorem commitSynthetic_of_storable (storable : event.Storable) :
    (shard.commitSynthetic event io).2 = io.error.elim (.ok ()) .error ∧
      (shard.commitSynthetic event io).1.eventRows =
        if io.transaction = none then shard.eventRows ++ [syntheticRow event]
        else shard.eventRows := by
  unfold Shard.commitSynthetic Shard.transact StorageIo.error
  rw [if_pos storable.1]
  cases io.transaction with
  | some code => exact ⟨rfl, by simp⟩
  | none =>
    have written : Shard.writeSynthetic event shard =
        .ok ((shard.internType event.eventType).insertRow (syntheticRow event)) := by
      unfold Shard.writeSynthetic sqliteInteger
      rw [if_pos storable.2]
      rfl
    simp only [written, if_true, Shard.eventRows_insertRow, Shard.eventRows_internType, and_true]
    unfold Shard.checkpointIfNeeded
    cases io.checkpoint <;> rfl

theorem commitSynthetic_of_not_storable (shard : Shard) (io : StorageIo) (not : ¬ event.Storable) :
    ∃ error, shard.commitSynthetic event io = (shard, .error error) := by
  unfold Shard.commitSynthetic Shard.transact
  split_ifs with type
  · cases io.transaction with
    | some code => exact ⟨_, rfl⟩
    | none =>
      have refused : Shard.writeSynthetic event shard =
          .error (.integerRange "synthetic timestamp") := by
        unfold Shard.writeSynthetic sqliteInteger
        rw [if_neg fun fits => not ⟨type, fits⟩]
        rfl
      rw [refused]
      exact ⟨_, rfl⟩
  · exact ⟨_, rfl⟩

theorem holds_commitSynthetic_of_ne {other : SyntheticEvent}
    (ne : syntheticRow other ≠ syntheticRow event) :
    (shard.commitSynthetic other io).1.holds event = shard.holds event := by
  by_cases storable : other.Storable
  · have rows : (shard.commitSynthetic other io).1.eventRows = _ :=
      (commitSynthetic_of_storable storable).2
    unfold Shard.holds
    rw [rows]
    split_ifs
    · rw [List.count_append, List.count_singleton, if_neg (by simpa using ne), Nat.add_zero]
    · rfl
  · obtain ⟨error, eq⟩ := commitSynthetic_of_not_storable shard io storable
    rw [eq]

end Shard

/-! ### One writer -/

/-- A corrupt shard is replaced and reported, or there is no room for the report. -/
def RecoverIo.Succeeds (ctx : WriterContext) (error : ShardError) (io : RecoverIo) : Prop :=
  io.replace = none ∧ ∃ timestamp, io.clock = .ok timestamp ∧
    ∀ failure, (Shard.new.commitSynthetic (ctx.report error timestamp) io.report).2 =
      .error failure → failure.isCapacity = true

/-- The event is committed and reported as such, at once or after the shard is replaced. -/
def SyntheticIo.Accepts (ctx : WriterContext) (event : SyntheticEvent) (io : SyntheticIo) : Prop :=
  event.Storable ∧
    (io.commit.error = none ∨
      ∃ error, io.commit.error = some error ∧ error.isCorruption = true ∧
        io.recover.Succeeds ctx error ∧ io.retry.error = none)

/-- The event is committed and then reported as a failure: the checkpoint after it fails,
and is not answered by replacing the shard; or it fails after the retry that follows the
replacement. -/
def SyntheticIo.Unreported (ctx : WriterContext) (event : SyntheticEvent) (io : SyntheticIo) :
    Prop :=
  event.Storable ∧
    (io.commit.Halfway ∧
        (∀ error, io.commit.error = some error → error.isCorruption = true →
          io.recover.replace ≠ none) ∨
      ∃ error, io.commit.error = some error ∧ error.isCorruption = true ∧
        io.recover.Succeeds ctx error ∧ io.retry.Halfway)

section Writer

variable {ctx : WriterContext} {event : SyntheticEvent} {w : Writer}

/-- A recovery leaves a shard without the event, unless the shard cannot be replaced. -/
theorem recoverCorruption_spec (error : ShardError) (io : RecoverIo)
    (apart : ∀ error timestamp, syntheticRow (ctx.report error timestamp) ≠ syntheticRow event) :
    (io.replace ≠ none → (w.recoverCorruption ctx error io).1 = w ∧
        (w.recoverCorruption ctx error io).2 ≠ .ok ()) ∧
      (io.replace = none → (w.recoverCorruption ctx error io).1.shard.holds event = 0 ∧
        ((w.recoverCorruption ctx error io).2 = .ok () ↔ io.Succeeds ctx error)) := by
  unfold Writer.recoverCorruption RecoverIo.Succeeds
  cases replace : io.replace with
  | some failure => exact ⟨fun _ => ⟨rfl, nofun⟩, nofun⟩
  | none =>
    refine ⟨fun some => absurd rfl some, fun _ => ?_⟩
    cases clock : io.clock with
    | error failure => exact ⟨rfl, iff_of_false nofun (by simp)⟩
    | ok timestamp =>
      have fresh : (Shard.new.commitSynthetic (ctx.report error timestamp) io.report).1.holds
          event = 0 := holds_commitSynthetic_of_ne (apart error timestamp)
      dsimp only
      split
      · next left written =>
        rw [written] at fresh
        refine ⟨fresh, iff_of_true rfl ⟨rfl, timestamp, rfl, ?_⟩⟩
        rw [written]
        exact nofun
      · next left failure written =>
        rw [written] at fresh
        refine ⟨fresh, ?_⟩
        simp only [Except.ok.injEq, exists_eq_left', true_and, written, Except.error.injEq,
          forall_eq']
        split_ifs with full <;> simp [full]

/-- What a writer leaves of an event it has handled: an accepted one is stored, and another
one exactly if the storage answers as in `SyntheticIo.Unreported`. -/
structure Handled.Truthful (ctx : WriterContext) (event : SyntheticEvent) (io : SyntheticIo)
    (handled : Handled Unit) : Prop where
  accepts : handled.reply = some (.ok ()) ↔ io.Accepts ctx event
  accepted : handled.reply = some (.ok ()) →
    handled.writer.shard.holds event = 1 ∧ ¬ io.Unreported ctx event
  other : handled.reply ≠ some (.ok ()) →
    (handled.writer.shard.holds event ≠ 0 ↔ io.Unreported ctx event)

variable {io : SyntheticIo} {error : ShardError}

theorem handleSynthetic_of_not_storable (not : ¬ event.Storable) (absent : w.shard.holds event = 0)
    (apart : ∀ error timestamp, syntheticRow (ctx.report error timestamp) ≠ syntheticRow event) :
    (w.handleSynthetic ctx event io).Truthful ctx event io := by
  have unreported : ¬ io.Unreported ctx event := fun h => not h.1
  obtain ⟨error, first⟩ := commitSynthetic_of_not_storable w.shard io.commit not
  suffices refused : (w.handleSynthetic ctx event io).reply ≠ some (.ok ()) ∧
      (w.handleSynthetic ctx event io).writer.shard.holds event = 0 from
    ⟨iff_of_false refused.1 fun h => not h.1, fun ok => absurd ok refused.1,
      fun _ => by simp [refused.2, unreported]⟩
  unfold Writer.handleSynthetic
  rw [first]
  dsimp only
  split_ifs
  · exact ⟨nofun, absent⟩
  · obtain ⟨kept, replaced⟩ := recoverCorruption_spec (w := w.took w.shard) error io.recover apart
    have clean : ((w.took w.shard).recoverCorruption ctx error io.recover).1.shard.holds event = 0 := by
      by_cases replace : io.recover.replace = none
      · exact (replaced replace).1
      · rw [(kept replace).1]
        exact absent
    generalize (w.took w.shard).recoverCorruption ctx error io.recover = recovered at clean
    obtain ⟨w', result⟩ := recovered
    cases result with
    | error failure => exact ⟨nofun, clean⟩
    | ok done =>
      obtain ⟨retry, second⟩ := commitSynthetic_of_not_storable w'.shard io.retry not
      simp only [second]
      exact ⟨nofun, clean⟩
  · exact ⟨nofun, absent⟩

/-- After a commit the row is there if the transaction committed it. -/
theorem commitSynthetic_eq {shard : Shard} (io : StorageIo) (storable : event.Storable)
    (absent : shard.holds event = 0) :
    ∃ left, shard.commitSynthetic event io = (left, io.error.elim (.ok ()) .error) ∧
      left.holds event = if io.transaction = none then 1 else 0 := by
  obtain ⟨result, rows⟩ := @commitSynthetic_of_storable event shard io storable
  refine ⟨_, Prod.ext rfl result, ?_⟩
  unfold Shard.holds at absent ⊢
  rw [rows]
  split_ifs
  · rw [List.count_append, absent]
    simp
  · exact absent

theorem transaction_of_no_error {io : StorageIo} (none : io.error = none) :
    io.transaction = .none := by
  unfold StorageIo.error at none
  cases transaction : io.transaction with
  | none => rfl
  | some code =>
    rw [transaction] at none
    cases none

theorem not_halfway_of_no_error {io : StorageIo} (none : io.error = none) : ¬ io.Halfway := by
  rintro ⟨committed, failed⟩
  rw [StorageIo.error, committed] at none
  exact failed none

theorem halfway_iff {io : StorageIo} (failed : io.error = some error) :
    io.Halfway ↔ io.transaction = none := by
  refine and_iff_left_of_imp fun committed none => ?_
  unfold StorageIo.error at failed
  rw [committed, none] at failed
  cases failed

theorem not_unreported_of_no_error (none : io.commit.error = none) :
    ¬ io.Unreported ctx event := by
  rintro ⟨-, ⟨halfway, -⟩ | ⟨error, failed, -⟩⟩
  · exact not_halfway_of_no_error none halfway
  · rw [none] at failed
    cases failed

theorem accepts_of_no_error (storable : event.Storable) (none : io.commit.error = none) :
    io.Accepts ctx event := ⟨storable, .inl none⟩

theorem not_accepts_of_not_corruption (failed : io.commit.error = some error)
    (not : error.isCorruption = false) :
    ¬ io.Accepts ctx event := by
  unfold SyntheticIo.Accepts
  simp [failed, not]

section

variable (storable : event.Storable) (failed : io.commit.error = some error)
include storable failed

theorem accepts_of_corruption (corrupt : error.isCorruption = true) :
    io.Accepts ctx event ↔ io.recover.Succeeds ctx error ∧ io.retry.error = none := by
  unfold SyntheticIo.Accepts
  simp [storable, failed, corrupt]

/-- A failure other than a corruption leaves the row if the transaction committed it. -/
theorem unreported_of_not_corruption (not : error.isCorruption = false) :
    io.Unreported ctx event ↔ io.commit.transaction = none := by
  rw [← halfway_iff failed]
  unfold SyntheticIo.Unreported
  simp [storable, failed, not]

theorem unreported_of_corruption (corrupt : error.isCorruption = true) :
    io.Unreported ctx event ↔ io.commit.transaction = none ∧ io.recover.replace ≠ none ∨
      io.recover.Succeeds ctx error ∧ io.retry.Halfway := by
  rw [← halfway_iff failed]
  unfold SyntheticIo.Unreported
  simp [storable, failed, corrupt]

end

theorem ite_one_ne_zero {p : Prop} [Decidable p] : (if p then 1 else 0) ≠ 0 ↔ p := by
  split_ifs with h <;> simp [h]

/-- A corrupt shard is replaced, and the event tried again. -/
theorem truthful_retry {w' : Writer} {result : Except ShardError Unit} (storable : event.Storable)
    (failed : io.commit.error = some error) (corrupt : error.isCorruption = true)
    (replaced : io.recover.replace = none) (absent : w'.shard.holds event = 0)
    (succeeds : result = .ok () ↔ io.recover.Succeeds ctx error) :
    Handled.Truthful ctx event io
      (match (w', result) with
      | (w, .error failure) => ⟨w, none, .error failure⟩
      | (w, .ok ()) =>
        match w.shard.commitSynthetic event io.retry with
        | (left, .ok ()) => ⟨w.took left, some (.ok ()), .ok ()⟩
        | (left, .error retry) =>
          ⟨w.took left, some (.error retry),
            if retry.isCapacity then .ok () else .error retry⟩) := by
  have unreported : io.Unreported ctx event ↔ io.recover.Succeeds ctx error ∧ io.retry.Halfway := by
    rw [unreported_of_corruption storable failed corrupt]
    simp [replaced]
  have accepts : io.Accepts ctx event ↔ io.recover.Succeeds ctx error ∧ io.retry.error = none :=
    accepts_of_corruption storable failed corrupt
  cases result with
  | error failure =>
    have fails : ¬ io.recover.Succeeds ctx error := fun h => nomatch succeeds.2 h
    refine ⟨iff_of_false nofun ?_, nofun, fun _ => ?_⟩
    · rw [accepts]
      exact fun h => fails h.1
    · rw [unreported]
      simp [absent, fails]
  | ok done =>
    have recovered : io.recover.Succeeds ctx error := succeeds.1 rfl
    obtain ⟨left, second, held⟩ := commitSynthetic_eq io.retry storable absent
    dsimp only
    rw [second]
    cases again : io.retry.error with
    | none =>
      refine ⟨iff_of_true rfl (accepts.2 ⟨recovered, again⟩), fun _ => ⟨?_, ?_⟩,
        fun refused => absurd rfl refused⟩
      · show left.holds event = 1
        rw [held, if_pos (transaction_of_no_error again)]
      · rw [unreported]
        exact fun h => not_halfway_of_no_error again h.2
    | some retry =>
      refine ⟨iff_of_false nofun ?_, nofun, fun _ => ?_⟩
      · rw [accepts, again]
        exact fun h => nomatch h.2
      · rw [unreported, halfway_iff again, and_iff_right recovered]
        show left.holds event ≠ 0 ↔ _
        rw [held, ite_one_ne_zero]

/-- **A writer reports an event truthfully, except with the answers of
`SyntheticIo.Unreported`.** -/
theorem truthful_handleSynthetic (io : SyntheticIo) (absent : w.shard.holds event = 0)
    (apart : ∀ error timestamp, syntheticRow (ctx.report error timestamp) ≠ syntheticRow event) :
    (w.handleSynthetic ctx event io).Truthful ctx event io := by
  by_cases storable : event.Storable
  swap
  · exact handleSynthetic_of_not_storable storable absent apart
  obtain ⟨left, first, held⟩ := commitSynthetic_eq io.commit storable absent
  unfold Writer.handleSynthetic
  rw [first]
  cases failed : io.commit.error with
  | none =>
    refine ⟨iff_of_true rfl (accepts_of_no_error storable failed),
      fun _ => ⟨?_, not_unreported_of_no_error failed⟩, fun refused => absurd rfl refused⟩
    show left.holds event = 1
    rw [held, if_pos (transaction_of_no_error failed)]
  | some error =>
    dsimp only [Option.elim_some]
    have refused (not : error.isCorruption = false) (answer : Except ShardError Unit) :
        Handled.Truthful ctx event io ⟨w.took left, some (.error error), answer⟩ := by
      refine ⟨iff_of_false nofun (not_accepts_of_not_corruption failed not), nofun, fun _ => ?_⟩
      rw [unreported_of_not_corruption storable failed not]
      show left.holds event ≠ 0 ↔ _
      rw [held, ite_one_ne_zero]
    split_ifs with full corrupt
    · exact refused (ShardError.not_corruption_of_capacity full) _
    · obtain ⟨kept, replaced⟩ :=
        recoverCorruption_spec (w := w.took left) error io.recover apart
      by_cases replace : io.recover.replace = none
      · obtain ⟨clean, succeeds⟩ := replaced replace
        exact truthful_retry storable failed corrupt replace clean succeeds
      · obtain ⟨same, fails⟩ := kept replace
        generalize (w.took left).recoverCorruption ctx error io.recover = recovered at same fails
        obtain ⟨w', result⟩ := recovered
        cases result with
        | ok done => exact absurd rfl fails
        | error failure =>
          have never : ¬ io.recover.Succeeds ctx error := fun h => replace h.1
          refine ⟨iff_of_false nofun ?_, nofun, fun _ => ?_⟩
          · rw [accepts_of_corruption storable failed corrupt]
            exact fun h => never h.1
          rw [unreported_of_corruption storable failed corrupt]
          show w'.shard.holds event ≠ 0 ↔ _
          rw [show w' = w.took left from same]
          show left.holds event ≠ 0 ↔ _
          simp [held, replace, never]
    · exact refused (by simpa using corrupt) _

end Writer

/-! ### The search for a shard -/

section Search

variable {event : SyntheticEvent}

/-- How often a writer's shard holds the row of an event. -/
def Writer.holds (event : SyntheticEvent) (w : Writer) : ℕ := w.shard.holds event

theorem shard_orReturn (w : Writer) (result : Except ShardError Unit) :
    (Writer.orReturn (w, result)).shard = w.shard := by
  cases result <;> rfl

/-- A writer is asked, and its storage answers so that it stores the event and reports a
failure. -/
def Target.Unreported (event : SyntheticEvent) (target : Target) : Prop :=
  target.reserved = true ∧ target.writer.returned = none ∧
    target.io.Unreported target.ctx event

/-- A writer is asked, and stores the event and says so. -/
def Target.Accepts (event : SyntheticEvent) (target : Target) : Prop :=
  target.reserved = true ∧ target.writer.returned = none ∧ target.io.Accepts target.ctx event

/-- A shard without the event, whose writer never reports this event as its own. -/
structure Target.Clean (event : SyntheticEvent) (target : Target) : Prop where
  absent : target.writer.holds event = 0
  apart : ∀ error timestamp,
    syntheticRow (target.ctx.report error timestamp) ≠ syntheticRow event

/-- What a target answers, and what it keeps. -/
structure Target.Answers (event : SyntheticEvent) (target : Target) : Prop where
  accepts : (target.answer event).2 = .accepted ↔ target.Accepts event
  held : (target.answer event).2 = .accepted → (target.answer event).1.holds event = 1
  keeps : Fallback.Keeps (Target.answer event) (Writer.holds event) target ↔
    target.Unreported event
  passes : (∃ error, (target.answer event).2 = .passed error) ↔ ¬ target.Accepts event

theorem Target.Clean.answers {target : Target} (clean : target.Clean event) :
    target.Answers event := by
  have truthful : (target.writer.handleSynthetic target.ctx event target.io).Truthful target.ctx
      event target.io := truthful_handleSynthetic target.io clean.absent clean.apart
  have absent := clean.absent
  by_cases asked : target.reserved = true ∧ target.writer.returned = none
  · obtain ⟨reserved, returned⟩ := asked
    have answer : target.answer event =
        (Writer.orReturn ((target.writer.handleSynthetic target.ctx event target.io).writer,
            (target.writer.handleSynthetic target.ctx event target.io).result),
          match (target.writer.handleSynthetic target.ctx event target.io).reply with
          | some (.ok ()) => .accepted
          | some (.error error) => .passed (.write error)
          | none => .passed .stopped) := by
      unfold Target.answer
      simp only [reserved, returned, if_true, Option.isSome_none, Bool.false_eq_true, if_false]
    have accepts : target.Accepts event ↔
        (target.writer.handleSynthetic target.ctx event target.io).reply = some (.ok ()) := by
      rw [truthful.accepts]
      unfold Target.Accepts
      simp only [reserved, returned, true_and]
    have unreported : target.Unreported event ↔ target.io.Unreported target.ctx event := by
      unfold Target.Unreported
      simp only [reserved, returned, true_and]
    generalize target.writer.handleSynthetic target.ctx event target.io = handled at *
    obtain ⟨writer, reply, result⟩ := handled
    have held : (target.answer event).1.holds event = writer.shard.holds event := by
      rw [answer]
      exact congrArg (Shard.holds event) (shard_orReturn writer result)
    have verdict := congrArg Prod.snd answer
    by_cases accepted : reply = some (.ok ())
    · subst accepted
      obtain ⟨one, not⟩ := truthful.accepted rfl
      refine ⟨iff_of_true verdict (accepts.2 rfl), fun _ => held.trans one, ?_, ?_⟩
      · rw [unreported]
        exact iff_of_false (fun keeps => keeps.1 verdict) not
      · rw [verdict, accepts]
        simp
    · obtain ⟨error, passed⟩ : ∃ error, (target.answer event).2 = .passed error := by
        rw [verdict]
        split
        · next ok => exact absurd ok accepted
        · exact ⟨_, rfl⟩
        · exact ⟨_, rfl⟩
      have other := truthful.other accepted
      have refuses : ¬ target.Accepts event := fun h => accepted (accepts.1 h)
      refine ⟨iff_of_false ?_ refuses, fun accepted => ?_, ?_, iff_of_true ⟨error, passed⟩ refuses⟩
      · rw [passed]
        exact nofun
      · rw [passed] at accepted
        cases accepted
      · unfold Fallback.Keeps
        rw [passed, held, unreported, ← other]
        exact and_iff_right nofun
  · -- nothing is written where the queue is full or the writer has ended
    obtain ⟨same, error, passed⟩ : (target.answer event).1 = target.writer ∧
        ∃ error, (target.answer event).2 = .passed error := by
      unfold Target.answer
      split_ifs with reserved returned
      · exact ⟨rfl, _, rfl⟩
      · exact absurd ⟨reserved, by simpa using returned⟩ asked
      · exact ⟨rfl, _, rfl⟩
    have not : ¬ target.Accepts event := fun h => asked ⟨h.1, h.2.1⟩
    refine ⟨iff_of_false (by rw [passed]; nofun) not, fun accepted => ?_, ?_, ?_⟩
    · rw [passed] at accepted
      cases accepted
    · refine iff_of_false (fun keeps => keeps.2 ?_) fun h => asked ⟨h.1, h.2.1⟩
      rw [same]
      exact absent
    · exact iff_of_true ⟨error, passed⟩ not

/-- What the report of a search should say: the row is in one shard at most, in one exactly
if a success is reported, and in none if a failure is. -/
def StoredOnce {σ ε : Type} (holds : σ → ℕ) (result : List σ × Except ε Unit) : Prop :=
  Fallback.held holds result.1 ≤ 1 ∧
    (result.2 = .ok () ↔ Fallback.held holds result.1 = 1) ∧
    ∀ error, result.2 = .error error → Fallback.held holds result.1 = 0

theorem storedOnce_iff_once {σ ε : Type} {holds : σ → ℕ} (result : List σ × Except ε Unit) :
    StoredOnce holds result ↔ Fallback.Once holds result := by
  constructor
  · rintro ⟨-, success, failure⟩
    exact ⟨success.1, failure⟩
  · rintro ⟨success, failure⟩
    cases reported : result.2 with
    | ok done =>
      have one := success reported
      refine ⟨one.le, iff_of_true reported one, fun error failed => ?_⟩
      rw [reported] at failed
      cases failed
    | error error =>
      have zero := failure error reported
      refine ⟨zero.trans_le (Nat.zero_le 1), iff_of_false ?_ ?_, failure⟩
      · rw [reported]
        exact nofun
      · omega

end Search

/-! ### Before the writers own the shards -/

/-- Offer an event to a shard.  Only a full one passes it on. -/
def Shard.answer (event : SyntheticEvent) (target : Shard × StorageIo) :
    Shard × Fallback.Verdict ShardError :=
  match target.1.commitSynthetic event target.2 with
  | (left, .ok ()) => (left, .accepted)
  | (left, .error error) => (left, if error.isCapacity then .passed error else .stopped error)

/-- Offer an event to the shards in order.  Without a shard there is an error, too. -/
def commitDirectFallback (event : SyntheticEvent) (targets : List (Shard × StorageIo)) :
    List Shard × Except ShardError Unit :=
  Fallback.run (Shard.answer event) Prod.fst .io targets

/-- No shard that is asked commits the event and then fails in the checkpoint. -/
def NoneHalfway : List (Shard × StorageIo) → Prop
  | [] => True
  | target :: targets =>
    ¬ target.2.Halfway ∧
      ((∃ error, target.2.error = some error ∧ error.isCapacity = true) → NoneHalfway targets)

section Direct

variable {event : SyntheticEvent} {target : Shard × StorageIo} {targets : List (Shard × StorageIo)}

theorem Shard.answer_spec (storable : event.Storable) (absent : target.1.holds event = 0) :
    ((answer event target).2 = .accepted → (answer event target).1.holds event = 1) ∧
      (Fallback.Keeps (answer event) (holds event) target ↔ target.2.Halfway) ∧
      ((∃ error, (answer event target).2 = .passed error) ↔
        ∃ error, target.2.error = some error ∧ error.isCapacity = true) := by
  obtain ⟨left, eq, held⟩ := commitSynthetic_eq target.2 storable absent
  unfold Fallback.Keeps answer
  rw [eq]
  cases failed : target.2.error with
  | none =>
    refine ⟨fun _ => held.trans (if_pos (transaction_of_no_error failed)),
      iff_of_false (fun keeps => keeps.1 rfl) (not_halfway_of_no_error failed), ?_⟩
    simp
  | some error =>
    rw [halfway_iff failed]
    by_cases full : error.isCapacity = true <;> simp [full, held]

theorem reported_direct_iff (storable : event.Storable)
    (absent : ∀ target ∈ targets, target.1.holds event = 0) :
    Fallback.Reported (Shard.answer event) (Shard.holds event) targets ↔ NoneHalfway targets := by
  induction targets with
  | nil => exact Iff.rfl
  | cons target targets ih =>
    obtain ⟨first, rest⟩ := List.forall_mem_cons.1 absent
    obtain ⟨-, keeps, passes⟩ := Shard.answer_spec storable first
    unfold Fallback.Reported NoneHalfway
    rw [keeps, passes, ih rest]

/-- **At startup an event of the daemon is stored at most once, and reported truthfully, exactly
if no shard that is asked fails in the checkpoint after its commit.** -/
theorem direct_stored_once_iff (storable : event.Storable)
    (absent : ∀ target ∈ targets, target.1.holds event = 0) :
    StoredOnce (Shard.holds event) (commitDirectFallback event targets) ↔ NoneHalfway targets := by
  rw [storedOnce_iff_once, ← reported_direct_iff storable absent]
  exact Fallback.once_iff absent
    (fun target mem => (Shard.answer_spec storable (absent target mem)).1) ShardError.io

end Direct

end Eventd
