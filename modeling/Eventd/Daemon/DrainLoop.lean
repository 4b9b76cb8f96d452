import Eventd.Core.Queue
import Eventd.Core.Routing
import Eventd.Daemon.Drain

/-!
# The drain loop and a producer that overwrites

`drain` of `eventd/src/kmes.rs` as a machine that takes one step at a time.  What a step reads of
the ring, the queues and the flags is given to it, so that a schedule of the producer and the loop
is a list of what the steps were shown.

* `Shown`: what a step is shown;
* `DrainLoop`, `DrainLoop.step`: the loop, with the scan of a replacement ring;
* `Lapped`: the position was overwritten by the time of the check after the read;
* `step_lapped_iff`: such a read has no effect unless it ends the loop before that check;
* `torn_reads_have_no_effect`: whole schedules.
-/

namespace Eventd

inductive DrainError
  | peios
  | kmes (error : KmesError)
  | queue (error : ReserveError)
  | positionOverflow
  | markers
  deriving DecidableEq

/-- What a step is shown of its surroundings.  `tail` and `write` are read before the event, `recheck`
and `again` after it; `reserve` is the answer of the queue to so many bytes. -/
structure Shown where
  stopping : Bool
  tail : ℕ
  write : ℕ
  /-- What `event_at` gives: the event and its size. -/
  event : Option (RingEvent × ℕ)
  reserve : ℕ → Option ReserveError
  recheck : ℕ
  again : ℕ
  generation : ℕ
  /-- Whether a replacement ring can be attached and mapped. -/
  attaches : Bool
  /-- Whether the recovery markers are committed. -/
  markersCommit : Bool
  /-- Whether waiting for the ring succeeds. -/
  waits : Bool

/-- Where the loop is. -/
inductive DrainPhase
  | top
  | read (finalWrite : Option ℕ) (progressed : Bool)
  | settle (progressed : Bool)
  /-- Looking for the first event of a replacement ring that was not seen yet. -/
  | scan (position : ℕ)
  /-- Going over to a replacement ring. -/
  | adopt (position : ℕ)
  | ended (error : Option DrainError)
  deriving DecidableEq

structure DrainLoop where
  phase : DrainPhase
  readPosition : ℕ
  generation : ℕ
  recoveryBoundary : ℕ
  recoveryComplete : Bool
  finalCycleComplete : Bool
  reconciler : Reconciler
  lastSequence : Option ℕ
  router : StripeRouter
  /-- What was handed to the writers, with the shard. -/
  handed : List (ℕ × IngestItem)

/-- The position after an event. -/
def advancePosition (position size : ℕ) : Option ℕ :=
  if position + size ≤ u64Max then some (position + size) else none

namespace DrainLoop

-- what a message and a gap take in memory
variable (messageSize gapSize : ℕ)

/-- What an item is charged in its queue. -/
def chargedBytes (item : IngestItem) (event : RingEvent) : ℕ :=
  messageSize + item.gaps.length * gapSize + (strBytes event.eventType).length +
    event.payload.length

def fail (loop : DrainLoop) (error : DrainError) : DrainLoop :=
  { loop with phase := .ended (some error) }

/-- Go past an event that was read and checked. -/
def pass (loop : DrainLoop) (finalWrite : Option ℕ) (event : RingEvent) (size : ℕ)
    (candidate : Reconciler) : DrainLoop :=
  match advancePosition loop.readPosition size with
  | none => loop.fail .positionOverflow
  | some position =>
    { loop with
      phase := .read finalWrite true
      readPosition := position
      lastSequence := some event.sequence
      reconciler := candidate }

/-- Hand an item to the writer of the current shard. -/
def publish (loop : DrainLoop) (item : IngestItem) : DrainLoop :=
  { loop with
    handed := loop.handed ++ [(loop.router.currentShard, item)]
    router := loop.router.advance }

/-- Read the next event, reconcile it, and hand it over if the position was not overwritten
meanwhile. -/
def readEvent (loop : DrainLoop) (finalWrite : Option ℕ) (shown : Shown) : DrainLoop :=
  match shown.event with
  | none => loop.fail .peios
  | some (event, size) =>
    match drainEvent loop.reconciler event with
    | .error error => loop.fail (.kmes error)
    | .ok (none, candidate) =>
      if loop.readPosition < shown.recheck then { loop with readPosition := shown.again }
      else loop.pass finalWrite event size candidate
    | .ok (some item, candidate) =>
      match shown.reserve (chargedBytes messageSize gapSize item event) with
      | some error => loop.fail (.queue error)
      | none =>
        if loop.readPosition < shown.recheck then { loop with readPosition := shown.again }
        else (loop.publish item).pass finalWrite event size candidate

/-- A turn of the inner loop. -/
def readTurn (loop : DrainLoop) (finalWrite : Option ℕ) (progressed : Bool) (shown : Shown) :
    DrainLoop :=
  let loop := { loop with readPosition := max loop.readPosition shown.tail }
  if finalWrite.getD shown.write ≤ loop.readPosition then
    { loop with phase := .settle progressed }
  else loop.readEvent messageSize gapSize finalWrite shown

/-- After the inner loop: a replacement ring, the end of recovery, the end of the loop, a wait. -/
def settle (loop : DrainLoop) (progressed : Bool) (shown : Shown) : DrainLoop :=
  if shown.generation ≠ loop.generation then
    if shown.attaches then
      { loop with
        phase := if loop.lastSequence.isSome then .scan shown.tail else .adopt shown.tail }
    else loop.fail .peios
  else
    let recovered := !loop.recoveryComplete && decide (loop.recoveryBoundary ≤ loop.readPosition)
    if recovered && !shown.markersCommit then loop.fail .markers
    else
      let loop := { loop with recoveryComplete := loop.recoveryComplete || recovered }
      if loop.finalCycleComplete then { loop with phase := .ended none }
      else if !progressed && !shown.waits then loop.fail .peios
      else { loop with phase := .top }

/-- A turn of the scan of a replacement ring. -/
def scanTurn (loop : DrainLoop) (position : ℕ) (shown : Shown) : DrainLoop :=
  let position := max position shown.tail
  if shown.write ≤ position then { loop with phase := .adopt position }
  else
    match shown.event with
    | none => loop.fail .peios
    | some (event, size) =>
      if position < shown.recheck then { loop with phase := .scan shown.again }
      else if loop.lastSequence.any fun last => decide (last < event.sequence) then
        { loop with phase := .adopt position }
      else
        match advancePosition position size with
        | none => loop.fail .positionOverflow
        | some position => { loop with phase := .scan position }

def step (loop : DrainLoop) (shown : Shown) : DrainLoop :=
  match loop.phase with
  | .top =>
    if shown.stopping then
      if loop.finalCycleComplete then { loop with phase := .ended none }
      else { loop with phase := .read (some shown.write) false, finalCycleComplete := true }
    else { loop with phase := .read none false }
  | .read finalWrite progressed => loop.readTurn messageSize gapSize finalWrite progressed shown
  | .settle progressed => loop.settle progressed shown
  | .scan position => loop.scanTurn position shown
  | .adopt position =>
    { loop with
      phase := .top
      readPosition := position
      generation := shown.generation
      recoveryBoundary := if loop.recoveryComplete then loop.recoveryBoundary else shown.write }
  | .ended _ => loop

/-- The loop after it was shown all this. -/
def run (loop : DrainLoop) (schedule : List Shown) : DrainLoop :=
  schedule.foldl (step messageSize gapSize) loop

/-! ### Reads that were overwritten -/

/-- Where the step reads an event, if it reads one. -/
def readsAt (loop : DrainLoop) (shown : Shown) : Option ℕ :=
  match loop.phase with
  | .read finalWrite _ =>
    if finalWrite.getD shown.write ≤ max loop.readPosition shown.tail then none
    else some (max loop.readPosition shown.tail)
  | .scan position =>
    if shown.write ≤ max position shown.tail then none else some (max position shown.tail)
  | _ => none

/-- The check after the read shows that the position was overwritten. -/
def Lapped (loop : DrainLoop) (shown : Shown) : Prop :=
  ∃ position ∈ loop.readsAt shown, position < shown.recheck

/-- Nothing ends the loop between the read of an event and the check after it: the event is read,
its CPU and its sequence are accepted, and its queue takes what it is charged. -/
def NoEarlyError (loop : DrainLoop) (shown : Shown) : Prop :=
  ∃ event size, shown.event = some (event, size) ∧
    ∀ finalWrite progressed, loop.phase = .read finalWrite progressed →
      ∃ item candidate, drainEvent loop.reconciler event = .ok (item, candidate) ∧
        ∀ handed ∈ item, shown.reserve (chargedBytes messageSize gapSize handed event) = none

/-- Go on at the tail. -/
def skip (loop : DrainLoop) (shown : Shown) : DrainLoop :=
  match loop.phase with
  | .scan _ => { loop with phase := .scan shown.again }
  | _ => { loop with readPosition := shown.again }

section Lapped

variable {messageSize gapSize} {loop : DrainLoop} {shown : Shown}

theorem fail_ne {other : DrainLoop} {error : DrainError} (going : ∀ error, other.phase ≠ .ended error) :
    loop.fail error ≠ other := fun same => going (some error) (congrArg DrainLoop.phase same).symm

/-- Reading an event at a position that was overwritten. -/
theorem readEvent_lapped_iff {finalWrite : Option ℕ} {progressed : Bool}
    (phase : loop.phase = .read finalWrite progressed) (lapped : loop.readPosition < shown.recheck) :
    loop.readEvent messageSize gapSize finalWrite shown = { loop with readPosition := shown.again } ↔
      ∃ event size, shown.event = some (event, size) ∧
        ∃ item candidate, drainEvent loop.reconciler event = .ok (item, candidate) ∧
          ∀ handed ∈ item, shown.reserve (chargedBytes messageSize gapSize handed event) = none := by
  have going : ∀ error, ({ loop with readPosition := shown.again } : DrainLoop).phase ≠ .ended error := by
    intro error same
    rw [show ({ loop with readPosition := shown.again } : DrainLoop).phase = loop.phase from rfl,
      phase] at same
    cases same
  unfold readEvent
  cases is_event : shown.event with
  | none => exact iff_of_false (fail_ne going) (by simp)
  | some pair =>
    obtain ⟨event, size⟩ := pair
    dsimp only
    cases drained : drainEvent loop.reconciler event with
    | error error =>
      refine iff_of_false (fail_ne going) ?_
      rintro ⟨_, _, same, item, candidate, ok, -⟩
      cases same
      cases drained.symm.trans ok
    | ok result =>
      obtain ⟨item, candidate⟩ := result
      cases item with
      | none =>
        dsimp only
        rw [if_pos lapped]
        exact iff_of_true rfl ⟨event, size, rfl, none, candidate, drained, by simp⟩
      | some item =>
        dsimp only
        cases reserved : shown.reserve (chargedBytes messageSize gapSize item event) with
        | none =>
          rw [if_pos lapped]
          exact iff_of_true rfl ⟨event, size, rfl, some item, candidate, drained, by
            simpa using reserved⟩
        | some error =>
          refine iff_of_false (fail_ne going) ?_
          rintro ⟨_, _, same, _, _, ok, free⟩
          cases same
          cases drained.symm.trans ok
          cases reserved.symm.trans (free item rfl)

/-- What an overwritten read does: it goes on at the tail if and only if nothing ends the loop before
the check. -/
theorem step_lapped_iff (lapped : loop.Lapped shown) :
    loop.step messageSize gapSize shown = loop.skip shown ↔
      loop.NoEarlyError messageSize gapSize shown := by
  obtain ⟨position, reads, overwritten⟩ := lapped
  unfold readsAt at reads
  cases phase : loop.phase with
  | top | settle | adopt | ended =>
    rw [phase] at reads
    cases reads
  | read finalWrite progressed =>
    have step_eq : loop.step messageSize gapSize shown
        = loop.readTurn messageSize gapSize finalWrite progressed shown := by rw [step, phase]
    have skip_eq : loop.skip shown = { loop with readPosition := shown.again } := by
      rw [skip, phase]
    rw [phase] at reads
    dsimp only at reads
    split_ifs at reads with enough
    · cases reads
    obtain rfl := Option.mem_some_iff.1 reads
    rw [step_eq, skip_eq, readTurn, if_neg enough, NoEarlyError]
    have moved : ({ loop with readPosition := max loop.readPosition shown.tail } : DrainLoop).phase
        = .read finalWrite progressed := phase
    refine (readEvent_lapped_iff moved overwritten).trans ?_
    simp [phase]
  | scan position =>
    have step_eq : loop.step messageSize gapSize shown = loop.scanTurn position shown := by
      rw [step, phase]
    have skip_eq : loop.skip shown = { loop with phase := .scan shown.again } := by rw [skip, phase]
    rw [phase] at reads
    dsimp only at reads
    split_ifs at reads with enough
    · cases reads
    obtain rfl := Option.mem_some_iff.1 reads
    rw [step_eq, skip_eq, scanTurn, if_neg enough, NoEarlyError]
    cases is_event : shown.event with
    | none =>
      refine iff_of_false (fail_ne fun error same => ?_) (by simp)
      cases same
    | some pair =>
      obtain ⟨event, size⟩ := pair
      dsimp only
      rw [if_pos overwritten]
      refine iff_of_true rfl ⟨event, size, rfl, fun _ _ absent => ?_⟩
      rw [phase] at absent
      cases absent

end Lapped

/-! ### Schedules -/

/-- The two are alike, except for the event if its position was overwritten. -/
def AlikeButTorn (loop : DrainLoop) (shown other : Shown) : Prop :=
  shown = other ∨ loop.Lapped shown ∧ shown = { other with event := shown.event }

/-- Two schedules that are alike, except for events that were overwritten. -/
def SameButTorn : DrainLoop → List Shown → List Shown → Prop
  | _, [], [] => True
  | loop, shown :: schedule, other :: schedule' =>
    loop.AlikeButTorn shown other ∧
      SameButTorn (loop.step messageSize gapSize shown) schedule schedule'
  | _, _, _ => False

/-- No read of an event that was overwritten ends the loop before the check. -/
def NoTornError : DrainLoop → List Shown → Prop
  | _, [] => True
  | loop, shown :: schedule =>
    (loop.Lapped shown → loop.NoEarlyError messageSize gapSize shown) ∧
      NoTornError (loop.step messageSize gapSize shown) schedule

section Schedules

variable {messageSize gapSize}

theorem lapped_congr {loop : DrainLoop} {shown other : Shown}
    (alike : shown = { other with event := shown.event }) (lapped : loop.Lapped shown) :
    loop.Lapped other ∧ loop.skip shown = loop.skip other := by
  rw [alike] at lapped
  exact ⟨lapped, by rw [alike]; rfl⟩

/-- Torn data have no effect.  An overwritten read does nothing but go on at the tail, unless it ends
the loop before the check; and in schedules in which none does, what the events that were overwritten
hold changes nothing of what the loop knows, hands over or ends with. -/
theorem torn_reads_have_no_effect (loop : DrainLoop) :
    (∀ shown, loop.Lapped shown →
      (loop.step messageSize gapSize shown = loop.skip shown ↔
        loop.NoEarlyError messageSize gapSize shown)) ∧
    ∀ schedule schedule', SameButTorn messageSize gapSize loop schedule schedule' →
      NoTornError messageSize gapSize loop schedule →
      NoTornError messageSize gapSize loop schedule' →
      loop.run messageSize gapSize schedule = loop.run messageSize gapSize schedule' := by
  refine ⟨fun shown => step_lapped_iff, fun schedule => ?_⟩
  induction schedule generalizing loop with
  | nil =>
    intro schedule' same _ _
    cases schedule' with
    | nil => rfl
    | cons => exact same.elim
  | cons shown schedule ih =>
    intro schedule' same quiet quiet'
    cases schedule' with
    | nil => exact same.elim
    | cons other schedule' =>
      obtain ⟨alike, same⟩ := same
      have step_eq : loop.step messageSize gapSize shown = loop.step messageSize gapSize other := by
        rcases alike with rfl | ⟨lapped, alike⟩
        · rfl
        · obtain ⟨lapped', skips⟩ := lapped_congr alike lapped
          rw [(step_lapped_iff lapped).2 (quiet.1 lapped),
            (step_lapped_iff lapped').2 (quiet'.1 lapped'), skips]
      have rest := quiet'.2
      rw [← step_eq] at rest
      have tail := ih _ schedule' same quiet.2 rest
      rwa [run, run, List.foldl_cons, List.foldl_cons, ← step_eq]

end Schedules

end DrainLoop

/-- An event of this CPU with this sequence. -/
def plainEvent (cpuId : UInt16) (sequence : Fin 10) : RingEvent where
  cpuId := cpuId
  sequence := sequence
  timestamp := 5
  originClass := .userspace
  effectiveTokenGuid := .replicate 16 0
  trueTokenGuid := .replicate 16 0
  processGuid := .replicate 16 0
  eventType := "x"
  payload := []
  sequence_le := by
    have := sequence.isLt
    unfold u64Max
    omega

/-- A loop about to read at position 0. -/
def readingLoop : DrainLoop where
  phase := .read none false
  readPosition := 0
  generation := 1
  recoveryBoundary := 0
  recoveryComplete := true
  finalCycleComplete := false
  reconciler := .new (.fromReceipts []) (.replicate 16 0) 0
  lastSequence := none
  router := ⟨[0], 1024, 0, 0⟩
  handed := []

/-- An event at position 0 that is overwritten up to position 64 while it is read. -/
def overwritten (event : RingEvent) : Shown where
  stopping := false
  tail := 0
  write := 128
  event := some (event, 64)
  reserve := fun _ => none
  recheck := 64
  again := 64
  generation := 1
  attaches := true
  markersCommit := true
  waits := true

theorem lapped_overwritten (event : RingEvent) : readingLoop.Lapped (overwritten event) :=
  ⟨0, rfl, show 0 < 64 by decide⟩

theorem noEarlyError_overwritten {event : RingEvent}
    (ok : (drainEvent readingLoop.reconciler event).toBool = true) :
    readingLoop.NoEarlyError 0 0 (overwritten event) := by
  cases drained : drainEvent readingLoop.reconciler event with
  | error error =>
    rw [drained] at ok
    cases ok
  | ok result => exact ⟨event, 64, rfl, fun _ _ _ => ⟨_, _, drained, fun _ _ => rfl⟩⟩

theorem torn_sequence_has_no_effect :
    readingLoop.run 0 0 [overwritten (plainEvent 0 1)]
      = readingLoop.run 0 0 [overwritten (plainEvent 0 3)] :=
  (DrainLoop.torn_reads_have_no_effect readingLoop).2 _ _
    ⟨.inr ⟨lapped_overwritten _, rfl⟩, trivial⟩
    ⟨fun _ => noEarlyError_overwritten (by decide +kernel), trivial⟩
    ⟨fun _ => noEarlyError_overwritten (by decide +kernel), trivial⟩

/-- The CPU or the sequence of an event that was overwritten while it was read ends the loop. -/
theorem torn_event_ends_loop :
    (readingLoop.step 0 0 (overwritten (plainEvent 0 1))).phase = .read none false ∧
      (readingLoop.step 0 0 (overwritten (plainEvent 1 1))).phase
        = .ended (some (.kmes (.cpuMismatch 0 1))) ∧
      (readingLoop.step 0 0 (overwritten (plainEvent 0 0))).phase
        = .ended (some (.kmes (.sequence .zeroSequence))) := by
  decide +kernel

end Eventd
