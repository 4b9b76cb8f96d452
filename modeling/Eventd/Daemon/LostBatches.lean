import Eventd.Daemon.WriterRules

/-!
# Lost batches and their records

What the log of a shard writer says about the batches the storage refused.  A sequence
that entered the list of lost ranges is unrecorded until a gap row over it is committed.
The writer commits that list before every batch, so no event row is ever committed while
a loss is unrecorded.  It commits the list at no other time, however: when the queue is
closed, a loss is on record if another event reached the writer after it.

* `unrecorded`: the sequences lost and not recorded since;
* `LossesFirst`: no event row is committed while a loss is unrecorded;
* `Keeps`, `Batched`: what control messages and commits of batches preserve;
* `goes_step`, `goes_run`: everything unrecorded is on the list, and losses come first;
* `lost_batches_on_record`: the two together, and when the list is empty at the end.
-/

namespace Eventd

open List

/-- Whether a sequence was lost and no gap record over it has been committed since. -/
def unrecorded (bootId : Guid) (log : List Effect) (cpuId : UInt16) (s : ℕ) : Bool :=
  log.foldl (fun missing effect =>
    match effect with
    | .lost cpu gap => missing || (cpu == cpuId && gap.contains s)
    | .wrote row => missing && !row.isGapOver bootId cpuId s) false

/-- No event row is committed while a loss is unrecorded. -/
def LossesFirst (bootId : Guid) (log : List Effect) : Prop :=
  ∀ before row, before ++ [.wrote row] <+: log → row.sequence ≠ none →
    ∀ cpuId s, unrecorded bootId before cpuId s = false

section Log

variable (bootId : Guid) (log : List Effect)

theorem unrecorded_append_wrote (rows : List EventRow) (cpuId : UInt16) (s : ℕ) :
    unrecorded bootId (log ++ rows.map .wrote) cpuId s =
      (unrecorded bootId log cpuId s && !rows.any fun row => row.isGapOver bootId cpuId s) := by
  induction rows using List.reverseRecOn with
  | nil => simp
  | append_singleton rows row ih =>
    rw [map_append, ← append_assoc]
    unfold unrecorded at ih ⊢
    rw [foldl_append, ih]
    simp [Bool.and_assoc]

theorem unrecorded_append_lost (ranges : List LostRange) (cpuId : UInt16) (s : ℕ) :
    unrecorded bootId (log ++ ranges.map fun range => .lost range.1 range.2) cpuId s =
      (unrecorded bootId log cpuId s ||
        ranges.any fun range => range.1 == cpuId && range.2.contains s) := by
  induction ranges using List.reverseRecOn with
  | nil => simp
  | append_singleton ranges range ih =>
    rw [map_append, ← append_assoc]
    unfold unrecorded at ih ⊢
    rw [foldl_append, ih]
    simp [Bool.or_assoc]

variable {bootId log}

theorem LossesFirst.append_wrote (first : LossesFirst bootId log) {rows : List EventRow}
    (quiet : (∀ cpuId s, unrecorded bootId log cpuId s = false) ∨
      ∀ row ∈ rows, row.sequence = none) :
    LossesFirst bootId (log ++ rows.map .wrote) := by
  induction rows using List.reverseRecOn with
  | nil => simpa using first
  | append_singleton rows row ih =>
    rw [map_append, ← append_assoc, map_singleton]
    intro before row' sub event cpuId s
    rcases prefix_concat_iff.1 sub with eq | sub
    · obtain ⟨rfl, same⟩ := append_inj' eq rfl
      obtain rfl := Effect.wrote.inj (singleton_inj.1 same)
      rcases quiet with none | noEvent
      · rw [unrecorded_append_wrote, none, Bool.false_and]
      · exact absurd (noEvent row' (by simp)) event
    · refine ih (quiet.imp_right fun noEvent r mem => noEvent r ?_) before row' sub event cpuId s
      exact mem_append_left _ mem

theorem LossesFirst.append_lost (first : LossesFirst bootId log) (ranges : List LostRange) :
    LossesFirst bootId (log ++ ranges.map fun range => .lost range.1 range.2) := by
  induction ranges using List.reverseRecOn with
  | nil => simpa using first
  | append_singleton ranges range ih =>
    rw [map_append, ← append_assoc, map_singleton]
    intro before row sub
    rcases prefix_concat_iff.1 sub with eq | sub
    · have same := (append_inj' eq rfl).2
      cases singleton_inj.1 same
    · exact ih before row sub

end Log

namespace Writer

/-- Everything unrecorded is on the list of lost ranges, and losses come first. -/
structure Sound (bootId : Guid) (w : Writer) : Prop where
  tracked : ∀ cpuId s, unrecorded bootId w.log cpuId s = true →
    (cpuId, s) ∈ Coalesce.covers LostRange.cells w.pendingGaps
  first : LossesFirst bootId w.log

/-- What an operation that leaves the batch and the list alone preserves. -/
structure Keeps (bootId : Guid) (w w' : Writer) : Prop where
  batch : w'.batch = w.batch
  pendingGaps : w'.pendingGaps = w.pendingGaps
  returned : w'.returned = w.returned
  sound : Sound bootId w → Sound bootId w'

theorem Keeps.refl (bootId : Guid) (w : Writer) : Keeps bootId w w := ⟨rfl, rfl, rfl, id⟩

variable {w : Writer} {bootId : Guid}

theorem Keeps.trans {w' w'' : Writer} (h : Keeps bootId w w') (h' : Keeps bootId w' w'') :
    Keeps bootId w w'' :=
  ⟨h'.batch.trans h.batch, h'.pendingGaps.trans h.pendingGaps, h'.returned.trans h.returned,
    h'.sound ∘ h.sound⟩

theorem Sound.unrecorded_eq_false (h : Sound bootId w) (none : w.pendingGaps = []) (cpuId : UInt16)
    (s : ℕ) :
    unrecorded bootId w.log cpuId s = false := by
  by_contra missing
  have := h.tracked cpuId s (by simpa using missing)
  simp [none] at this

/-! ### Writes -/

variable {left : Shard} {rows : List EventRow}

theorem log_took (eq : left.eventRows = w.shard.eventRows ++ rows) :
    (w.took left).log = w.log ++ rows.map .wrote := by
  simp [took, eq]

theorem Sound.took (h : Sound bootId w) (eq : left.eventRows = w.shard.eventRows ++ rows)
    (quiet : w.pendingGaps = [] ∨ ∀ row ∈ rows, row.sequence = none) :
    Sound bootId (w.took left) := by
  constructor
  · intro cpuId s missing
    rw [log_took eq, unrecorded_append_wrote, Bool.and_eq_true] at missing
    exact h.tracked cpuId s missing.1
  · rw [log_took eq]
    exact h.first.append_wrote (quiet.imp_left h.unrecorded_eq_false)

/-- A write of rows that are no events leaves the list alone. -/
theorem keeps_took (bootId : Guid) (w : Writer) (eq : left.eventRows = w.shard.eventRows ++ rows)
    (quiet : ∀ row ∈ rows, row.sequence = none) :
    Keeps bootId w (w.took left) :=
  ⟨rfl, rfl, rfl, fun h => h.took eq (.inr quiet)⟩

theorem keeps_commitSynthetic (bootId : Guid) (w : Writer) {event : SyntheticEvent} {io : StorageIo}
    {result : Except ShardError Unit} (h : w.shard.commitSynthetic event io = (left, result)) :
    Keeps bootId w (w.took left) := by
  rcases Shard.commitSynthetic_cases h with ⟨rfl, -⟩ | ⟨written, -⟩
  · exact keeps_took bootId w (append_nil _).symm nofun
  · refine keeps_took bootId w (Shard.writeSynthetic_rows written).1 fun row mem => ?_
    rw [mem_singleton.1 mem]
    rfl

variable (ctx : WriterContext) (w : Writer)

theorem keeps_rule :
    ControlRule ctx (Keeps ctx.bootId w) (Keeps ctx.bootId w) :=
  .of_shard (fun h _ => h.trans ⟨rfl, rfl, rfl, fun sound => ⟨sound.tracked, sound.first⟩⟩)
    fun h written => h.trans (keeps_commitSynthetic _ _ written)

theorem keeps_handleControl (message : Control) :
    Keeps ctx.bootId w (w.handleControl ctx message).1 :=
  ((keeps_rule ctx w).handleControl (.refl _ w) message).kept

theorem keeps_convergeOnce (io : ConvergeIo) : Keeps ctx.bootId w (w.convergeOnce ctx io).1 :=
  ((keeps_rule ctx w).convergeOnce (.refl _ w) io).kept

/-! ### Batches -/

theorem noEvents_gapRows (bootId : Guid) (ranges : List LostRange) :
    ∀ row ∈ ranges.map fun range => gapRow bootId range.1 range.2, row.sequence = none :=
  forall_mem_map.2 fun _ _ => rfl

/-- Gap records of the pending ranges record everything that was unrecorded. -/
theorem Sound.record {ctx : WriterContext} {w : Writer} (h : Sound ctx.bootId w) {left : Shard}
    (eq : left.eventRows = w.shard.eventRows ++
      w.pendingGaps.map fun range => gapRow ctx.bootId range.1 range.2) :
    Sound ctx.bootId { w.took left with pendingGaps := [] } := by
  constructor
  · intro cpuId s missing
    rw [log_took eq, unrecorded_append_wrote, Bool.and_eq_true, Bool.not_eq_true',
      any_eq_false] at missing
    obtain ⟨range, mem, same, inside⟩ := h.tracked cpuId s missing.1
    have recorded := missing.2 _ (mem_map_of_mem mem)
    rw [isGapOver_gapRow] at recorded
    exact absurd ⟨congrArg (Prod.mk ctx.bootId) same, inside⟩ recorded
  · exact (h.took eq (.inr (noEvents_gapRows _ _))).first

theorem sound_refused {bootId : Guid} {w : Writer} (h : Sound bootId w) :
    Sound bootId w.refused := by
  constructor
  · intro cpuId s missing
    unfold refused at missing ⊢
    rw [unrecorded_append_lost, Bool.or_eq_true, any_eq_true] at missing
    rw [covers_recordLost]
    rcases missing with missing | ⟨range, mem, inside⟩
    · exact .inl (h.tracked cpuId s missing)
    · rw [Bool.and_eq_true, beq_iff_eq] at inside
      exact .inr ⟨range, mem, inside⟩
  · exact h.first.append_lost _

/-- What every part of a commit leaves as it is. -/
structure Batched (bootId : Guid) (w w' : Writer) : Prop where
  batch : w'.batch = w.batch
  returned : w'.returned = w.returned
  sound : Sound bootId w'

theorem batched_rule :
    BatchRule ctx (fun _ => Batched ctx.bootId w) fun _ => Batched ctx.bootId w where
  control _ := .of_shard (fun h _ => ⟨h.batch, h.returned, h.sound.tracked, h.sound.first⟩)
    fun h written => ⟨h.batch, h.returned, (keeps_commitSynthetic _ _ written).sound h.sound⟩
  empty h _ := h
  record h rows := ⟨⟨h.batch, h.returned, h.sound.record rows⟩,
    h.batch, h.returned, h.sound.took rows (.inr (noEvents_gapRows _ _))⟩
  store h none rows :=
    have sound := h.sound.took rows (.inl none)
    ⟨⟨h.batch, h.returned, sound⟩, h.batch, h.returned, sound⟩
  refuse h := ⟨h.batch, h.returned, sound_refused h.sound⟩
  refuseKept h := ⟨h.batch, h.returned, sound_refused h.sound⟩

theorem batched_commitBatch (io : BatchIo) (h : Sound ctx.bootId w) :
    Batched ctx.bootId w (w.commitBatch ctx io).1 := by
  obtain ⟨-, batched⟩ := ((batched_rule ctx w).commitBatch ⟨rfl, rfl, h⟩ io).kept
  exact batched

/-! ### The loop -/

theorem sound_start (bootId : Guid) (shard : Shard) : Sound bootId (start shard) := by
  refine ⟨nofun, fun before row sub => ?_⟩
  have := prefix_nil.1 sub
  simp at this

variable {ctx w}

/-- What a turn of the loop does: everything unrecorded is on the list and losses come first, and
the loop returns `Ok` only when the queue is closed. -/
structure Goes (bootId : Guid) (w w' : Writer) : Prop where
  sound : Sound bootId w'
  returned : w'.returned = w.returned ∨ ∃ error, w'.returned = some (.error error)

theorem Goes.refl (h : Sound bootId w) : Goes bootId w w := ⟨h, .inl rfl⟩

theorem Goes.trans {w' w'' : Writer} (h : Goes bootId w w') (h' : Goes bootId w' w'') :
    Goes bootId w w'' := by
  refine ⟨h'.sound, ?_⟩
  rcases h'.returned with same | failed
  · rw [same]
    exact h.returned
  · exact .inr failed

theorem Keeps.goes {w' : Writer} (keeps : Keeps bootId w w') (h : Sound bootId w) :
    Goes bootId w w' := ⟨keeps.sound h, .inl keeps.returned⟩

theorem goes_finishBatch (h : Sound ctx.bootId w) (io : BatchIo) :
    Goes ctx.bootId w (w.finishBatch ctx io) := by
  obtain ⟨-, same, committed⟩ := batched_commitBatch ctx w io h
  unfold finishBatch
  split
  · next eq =>
    rw [eq] at same committed
    exact ⟨⟨committed.tracked, committed.first⟩, .inl same⟩
  · next w' error eq =>
    rw [eq] at committed
    exact ⟨⟨committed.tracked, committed.first⟩, .inr ⟨error, rfl⟩⟩

theorem goes_orReturn {outcome : Writer × Except ShardError Unit} (h : Goes bootId w outcome.1) :
    Goes bootId w (orReturn outcome) := by
  obtain ⟨w', error | ⟨⟩⟩ := outcome
  · exact ⟨⟨h.sound.tracked, h.sound.first⟩, .inr ⟨error, rfl⟩⟩
  · exact h

theorem goes_turn (h : Sound ctx.bootId w) (input : Input) :
    Goes ctx.bootId w (w.turn ctx input) := by
  have pushed (item : IngestItem) (size : ℕ) : Goes ctx.bootId w (w.push item size) :=
    ⟨⟨h.tracked, h.first⟩, .inl rfl⟩
  have is := turned ctx w input
  generalize w.turn ctx input = w' at is ⊢
  cases is with
  | pushed item size => exact pushed item size
  | filled item size _ io =>
    exact (pushed item size).trans (goes_finishBatch (pushed item size).sound io)
  | stopped _ io | emptied io => exact goes_finishBatch h io
  | handled message io =>
    have finished := goes_finishBatch h io
    exact goes_orReturn (finished.trans ((keeps_handleControl ctx _ message).goes finished.sound))
  | converged io => exact goes_orReturn ((keeps_convergeOnce ctx w io).goes h)
  | filling => exact .refl h

theorem goes_step (h : Sound ctx.bootId w) (input : Input) :
    Goes ctx.bootId w (w.step ctx input) := by
  unfold step
  split_ifs
  · exact .refl h
  · exact goes_turn h input

theorem goes_run (h : Sound ctx.bootId w) (inputs : List Input) :
    Goes ctx.bootId w (w.run ctx inputs) := by
  induction inputs generalizing w with
  | nil => exact .refl h
  | cons input inputs ih =>
    have first := goes_step h input
    exact first.trans (ih first.sound)

theorem sound_close (h : Sound ctx.bootId w) (io : BatchIo) :
    Sound ctx.bootId (w.close ctx io) := by
  have finished := (goes_finishBatch h io).sound
  unfold close
  dsimp only
  split_ifs
  · exact h
  · exact finished
  · exact ⟨finished.tracked, finished.first⟩

end Writer

/-! ### Storage that does what it is asked -/

theorem ShardError.IsRange.not_capacity {error : ShardError} (h : error.IsRange) :
    error.isCapacity = false := by
  obtain ⟨field, rfl⟩ := h
  rfl

theorem ShardError.IsRange.not_corruption {error : ShardError} (h : error.IsRange) :
    error.isCorruption = false := by
  obtain ⟨field, rfl⟩ := h
  rfl

/-- The storage takes the gap records and the batch. -/
def BatchIo.Fine (io : BatchIo) : Prop := io.gaps = .fine ∧ io.commit = .fine

/-- If the turn commits a batch, the storage takes it. -/
def Input.Fine : Input → Prop
  | .item _ _ _ io => io.Fine
  | .control _ io => io.Fine
  | .empty io => io.Fine
  | .quiet _ => True

/-- Whether the turn takes an event from the queue. -/
def Input.isItem : Input → Bool
  | .item _ _ _ _ => true
  | _ => false

namespace Writer

variable (ctx : WriterContext) (w : Writer)

/-- The list is empty, or a batch is open before which it will be written. -/
def Ready : Prop := w.returned = none → w.pendingGaps = [] ∨ w.batch ≠ []

variable {io : BatchIo}

theorem flushPending_fine (fine : io.Fine) :
    (w.flushPending ctx io).2 = .ok true ∨ ∃ error, (w.flushPending ctx io).2 = .error error := by
  unfold flushPending
  split_ifs
  · exact .inl rfl
  · split
    · exact .inl rfl
    · next w' error eq =>
      have range : error.IsRange := by
        unfold commitPending at eq
        rw [fine.1] at eq
        have fails := w.shard.failsOnly_commitGaps_fine ctx.bootId w.pendingGaps
        split at eq
        · cases eq
        · next written =>
          obtain ⟨-, same⟩ := Prod.mk.inj eq
          rw [written] at fails
          exact fails error (by rw [Except.error.inj same])
      rw [if_neg (by simp [range.not_capacity]), if_neg (by simp [range.not_corruption])]
      exact .inr ⟨error, rfl⟩

theorem storeBatch_fine (fine : io.Fine) (ok : (w.storeBatch ctx io).2 = .ok ()) :
    (w.storeBatch ctx io).1.pendingGaps = w.pendingGaps := by
  unfold storeBatch at ok ⊢
  rw [fine.2] at ok ⊢
  have fails := w.shard.failsOnly_commit_fine w.batch
  split at ok
  · rfl
  · next left error written =>
    have range : error.IsRange := fails error (by rw [written])
    rw [if_neg (by simp [range.not_capacity]), if_neg (by simp [range.not_corruption])] at ok
    cases ok

/-- A batch that is committed leaves nothing on the list. -/
theorem commitBatch_fine (fine : io.Fine) (h : Sound ctx.bootId w)
    (ready : w.pendingGaps = [] ∨ w.batch ≠ []) (ok : (w.commitBatch ctx io).2 = .ok ()) :
    (w.commitBatch ctx io).1.pendingGaps = [] := by
  unfold commitBatch at ok ⊢
  split_ifs at ok ⊢ with none
  · exact ready.resolve_right (not_not.2 none)
  · have flushed := (batched_rule ctx w).flushPending ⟨rfl, rfl, h⟩ io
    have taken := flushPending_fine ctx w fine
    split at ok
    · cases ok
    · next eq => rw [eq] at taken; simp at taken
    · next w' eq =>
      rw [eq] at flushed
      exact (storeBatch_fine ctx w' fine ok).trans ((flushed.live true rfl).2 rfl)

theorem finishBatch_fine (fine : io.Fine) (h : Sound ctx.bootId w)
    (ready : w.pendingGaps = [] ∨ w.batch ≠ []) (running : (w.finishBatch ctx io).returned = none) :
    (w.finishBatch ctx io).pendingGaps = [] := by
  have empty := commitBatch_fine ctx w fine h ready
  unfold finishBatch at running ⊢
  split at running
  · next eq => rw [eq] at empty; exact empty rfl
  · cases running

theorem ready_finishBatch (fine : io.Fine) (h : Sound ctx.bootId w)
    (ready : w.pendingGaps = [] ∨ w.batch ≠ []) : (w.finishBatch ctx io).Ready :=
  fun running => .inl (finishBatch_fine ctx w fine h ready running)

theorem ready_orReturn {outcome : Writer × Except ShardError Unit} (ready : outcome.1.Ready) :
    (orReturn outcome).Ready := by
  obtain ⟨w, error | ⟨⟩⟩ := outcome
  · exact nofun
  · exact ready

theorem Keeps.ready {bootId : Guid} {w w' : Writer} (h : Keeps bootId w w') (ready : w.Ready) :
    w'.Ready := by
  intro running
  rw [h.pendingGaps, h.batch]
  exact ready (h.returned.symm.trans running)

/-- An event opens a batch, and from then on the list will be written. -/
theorem ready_turn {input : Input} (fine : input.Fine) (h : Sound ctx.bootId w)
    (ready : (w.pendingGaps = [] ∨ w.batch ≠ []) ∨ input.isItem = true) :
    (w.turn ctx input).Ready := by
  have noItem (none : input.isItem = false) : w.pendingGaps = [] ∨ w.batch ≠ [] :=
    ready.resolve_right (by simp [none])
  have is := turned ctx w input
  generalize w.turn ctx input = w' at is ⊢
  cases is with
  | pushed => exact fun _ => .inr (by simp [push])
  | filled item size =>
    exact ready_finishBatch ctx (w.push item size) fine ⟨h.tracked, h.first⟩ (.inr (by simp [push]))
  | stopped | emptied => exact ready_finishBatch ctx w fine h (noItem rfl)
  | handled message =>
    exact ready_orReturn ((keeps_handleControl ctx _ message).ready
      (ready_finishBatch ctx w fine h (noItem rfl)))
  | converged io => exact ready_orReturn ((keeps_convergeOnce ctx w io).ready fun _ => noItem rfl)
  | filling => exact fun _ => noItem rfl

theorem ready_step {input : Input} (fine : input.Fine) (h : Sound ctx.bootId w)
    (ready : w.Ready ∨ input.isItem = true) : (w.step ctx input).Ready := by
  unfold step
  split_ifs with ended
  · exact fun running => absurd running (Option.isSome_iff_ne_none.1 ended)
  · exact ready_turn ctx w fine h (ready.imp_left fun r => r (by simpa using ended))

theorem ready_run {inputs : List Input} (fine : ∀ input ∈ inputs, input.Fine)
    (h : Sound ctx.bootId w)
    (ready : w.Ready ∨ ∃ input ∈ inputs, input.isItem = true) : (w.run ctx inputs).Ready := by
  induction inputs generalizing w with
  | nil => exact ready.resolve_right (by simp)
  | cons input inputs ih =>
    rw [forall_mem_cons] at fine
    refine ih (w.step ctx input) fine.2 (goes_step h input).sound ?_
    rw [exists_mem_cons_iff, ← or_assoc] at ready
    exact ready.imp_left (ready_step ctx w fine.1 h)

/-- **No event row is committed while a loss is unrecorded, and at the end no loss is
unrecorded**, if the loop ends because its queue is closed, the storage takes everything
from some point on, and an event reaches the writer after that point or it is the start. -/
theorem lost_batches_on_record (shard : Shard) (before after : List Input) (io : BatchIo) :
    LossesFirst ctx.bootId (((start shard).run ctx (before ++ after)).close ctx io).log ∧
    ((((start shard).run ctx (before ++ after)).close ctx io).returned = some (.ok ()) →
      (∀ input ∈ after, input.Fine) → io.Fine →
      (before = [] ∨ ∃ input ∈ after, input.isItem = true) →
      ∀ cpuId s, unrecorded ctx.bootId
        (((start shard).run ctx (before ++ after)).close ctx io).log cpuId s = false) := by
  have started := sound_start ctx.bootId shard
  have ran := goes_run started (before ++ after)
  have sound := sound_close ran.sound io
  refine ⟨sound.first, fun ok fine last again => sound.unrecorded_eq_false ?_⟩
  have running : ((start shard).run ctx (before ++ after)).returned = none := by
    rcases ran.returned with same | ⟨error, failed⟩
    · exact same
    · rw [close, if_pos (by simp [failed]), failed] at ok
      cases ok
  have ready : ((start shard).run ctx (before ++ after)).Ready := by
    rw [run, foldl_append]
    refine ready_run ctx _ fine (goes_run started before).sound (again.imp_left ?_)
    rintro rfl
    exact fun _ => .inl rfl
  have empty := finishBatch_fine ctx _ last ran.sound (ready running)
  rw [close, if_neg (by simp [running])] at ok ⊢
  dsimp only at ok ⊢
  split_ifs at ok ⊢ with ended
  · rcases (goes_finishBatch ran.sound io).returned with same | ⟨_, failed⟩
    · rw [same, running] at ended
      cases ended
    · rw [failed] at ok
      cases ok
  · exact empty (by simpa using ended)

/-- An event of CPU 0 to be stored. -/
def plainItem (sequence : Fin 100) (sequence_pos : 0 < sequence.val) : IngestItem where
  gaps := []
  storeEvent := true
  event :=
    { bootId := Vector.replicate 16 1
      timestamp := 0
      cpuId := 0
      sequence := sequence
      originClass := 0
      eventType := "a"
      effectiveTokenGuid := Vector.replicate 16 0
      trueTokenGuid := Vector.replicate 16 0
      processGuid := Vector.replicate 16 0
      payload := []
      sequence_pos := sequence_pos
      sequence_le := sequence.isLt.le.trans (by decide) }

/-- The writer of a shard of this boot. -/
def plainContext : WriterContext where
  bootId := Vector.replicate 16 1
  report _ timestamp := ⟨Vector.replicate 16 1, timestamp, storeQuarantined, []⟩

/-- Storage that takes everything but, if `full`, the batch. -/
def plainIo (full : Bool) : BatchIo where
  gaps := .fine
  recoverGaps := ⟨none, .ok 0, .fine⟩
  retryGaps := .fine
  commit := ⟨if full then some .diskFull else none, none⟩
  recover := ⟨none, .ok 0, .fine⟩

/-- A batch is refused, and another event follows: the loss is on record. -/
theorem lost_batches_on_record_next :
    ∀ cpuId s, unrecorded plainContext.bootId
      (((start Shard.new).run plainContext
        ([.item (plainItem 1 (by decide)) 1 false (plainIo true)] ++
          [.item (plainItem 2 (by decide)) 1 false (plainIo false)])).close plainContext
        (plainIo false)).log cpuId s = false :=
  (lost_batches_on_record plainContext Shard.new _ _ _).2 rfl
    (by simp [Input.Fine, BatchIo.Fine, plainIo, StorageIo.fine])
    (by simp [BatchIo.Fine, plainIo, StorageIo.fine]) (.inr (by simp [Input.isItem]))

/-- A batch is refused, and then the daemon stops: its barrier, its record of the stop and
the closing of the queue all succeed, and the loss is nowhere on record. -/
theorem lost_batch_not_on_record :
    let w := ((start Shard.new).run plainContext
      [.item (plainItem 1 (by decide)) 1 false (plainIo true),
        .control .barrier (plainIo false),
        .control (.synthetic ⟨Vector.replicate 16 1, 0, daemonStopped, []⟩
          ⟨.fine, ⟨none, .ok 0, .fine⟩, .fine⟩) (plainIo false)]).close plainContext (plainIo false)
    w.returned = some (.ok ()) ∧ unrecorded plainContext.bootId w.log 0 1 = true :=
  ⟨rfl, by decide⟩

end Writer

end Eventd
