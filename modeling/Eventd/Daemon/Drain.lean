import Eventd.Core.Accounting

/-!
# One turn of a drain thread

The body of the loop of `eventd/src/kmes.rs`: a ring event is checked, reconciled,
and handed to a shard's queue if it is to be stored or reveals a gap.  An event
that was lapped while it was being read changes nothing and is not modelled; the
ring itself and the queue's byte budget are left out.

* `drainEvent`: what the thread makes of one event that survived in the ring;
* `drainEvent_cases`: everything a successful turn can have done;
* `accounts_of_drain`: a turn accounts for each uncovered sequence it passes once,
  except that of an event it drops for its type.
-/

namespace Eventd

/-- Where KMES says an event came from. -/
inductive OriginClass
  | userspace
  | kmes
  | kacs
  | lcs
  | other (value : UInt8)
  deriving DecidableEq

/-- The stored form of an origin class. -/
def originDiscriminant : OriginClass → UInt8
  | .userspace => 0
  | .kmes => 1
  | .kacs => 2
  | .lcs => 3
  | .other value => value

/-- An event as the ring presents it. -/
structure RingEvent where
  cpuId : UInt16
  sequence : ℕ
  timestamp : UInt64
  originClass : OriginClass
  effectiveTokenGuid : Guid
  trueTokenGuid : Guid
  processGuid : Guid
  eventType : String
  payload : List UInt8
  sequence_le : sequence ≤ u64Max

/-- The failures of a turn that the ring's contents can cause. -/
inductive KmesError
  | sequence (error : ReconcileError)
  | cpuMismatch (attached stamped : UInt16)
  deriving DecidableEq

/-- Whether a KMES event claims a type eventd writes itself. -/
def isReserved (eventType : String) : Bool := isStoreWritten eventType

/-- The owned copy of a ring event. -/
def RingEvent.toReal (event : RingEvent) (bootId : Guid) (cpuId : UInt16)
    (pos : 0 < event.sequence) : RealEvent where
  bootId := bootId
  timestamp := event.timestamp
  cpuId := cpuId
  sequence := event.sequence
  originClass := originDiscriminant event.originClass
  effectiveTokenGuid := event.effectiveTokenGuid
  trueTokenGuid := event.trueTokenGuid
  processGuid := event.processGuid
  eventType := event.eventType
  payload := event.payload
  sequence_pos := pos
  sequence_le := event.sequence_le

/-- Reconcile one ring event: the item to hand to a writer, if any, and the state to
go on from.  An event of a reserved type is handed over but not to be stored. -/
def drainEvent (r : Reconciler) (event : RingEvent) :
    Except KmesError (Option IngestItem × Reconciler) :=
  if event.cpuId ≠ r.cpuId then .error (.cpuMismatch r.cpuId event.cpuId)
  else
    match h : r.observe event.sequence event.timestamp with
    | .error error => .error (.sequence error)
    | .ok (observation, candidate) =>
      if observation.storeEvent || !observation.gaps.isEmpty then
        .ok (some
          { gaps := observation.gaps
            storeEvent := observation.storeEvent && !isReserved event.eventType
            event := event.toReal r.bootId r.cpuId (Reconciler.observe_pos h) }, candidate)
      else .ok (none, candidate)

variable {r r' : Reconciler} {event : RingEvent} {item : Option IngestItem}

/-- Everything a successful turn can have done: skip an event already receipted, or move
past the sequences up to the event's, handing over what is not covered. -/
theorem drainEvent_cases (h : drainEvent r event = .ok (item, r')) :
    (event.sequence < r.nextSequence ∧ item = none ∧
      r' = { r with precedingTimestamp := some event.timestamp }) ∨
    (r.nextSequence ≤ event.sequence ∧ r'.nextSequence = event.sequence + 1 ∧
      r'.coverage = r.coverage ∧ r'.bootId = r.bootId ∧ r'.cpuId = r.cpuId ∧
      ∃ (pos : 0 < event.sequence) (hseq : event.sequence < u64Max),
        let gaps := r.uncoveredGaps event.sequence hseq event.timestamp
        (item = none ∧ r.covered event.sequence = true ∧ gaps = []) ∨
        item = some
          { gaps := gaps
            storeEvent := !r.covered event.sequence && !isReserved event.eventType
            event := event.toReal r.bootId r.cpuId pos }) := by
  rw [drainEvent] at h
  split_ifs at h
  split at h
  · cases h
  · next observation candidate observed =>
    have pos := Reconciler.observe_pos observed
    rcases Reconciler.observe_cases observed with
      ⟨-, below, -, rfl, rfl⟩ | ⟨next, hseq, rfl, rfl⟩
    · obtain ⟨rfl, rfl⟩ := Prod.mk.inj (Except.ok.inj h)
      exact .inl ⟨below, rfl, rfl⟩
    · refine .inr ⟨next, ?_⟩
      split_ifs at h with handoff
      · obtain ⟨rfl, rfl⟩ := Prod.mk.inj (Except.ok.inj h)
        exact ⟨rfl, rfl, rfl, rfl, pos, hseq, .inr rfl⟩
      · obtain ⟨rfl, rfl⟩ := Prod.mk.inj (Except.ok.inj h)
        refine ⟨rfl, rfl, rfl, rfl, pos, hseq, .inl ⟨rfl, ?_⟩⟩
        simpa using handoff

/-- Whether the thread hands this event over only to be dropped for its type. -/
def dropsReserved (r : Reconciler) (event : RingEvent) : Bool :=
  r.nextSequence ≤ event.sequence && !r.covered event.sequence && isReserved event.eventType

theorem drainEvent_stream (h : drainEvent r event = .ok (item, r')) :
    r'.coverage = r.coverage ∧ r'.bootId = r.bootId ∧ r'.cpuId = r.cpuId ∧
      r.nextSequence ≤ r'.nextSequence ∧ event.sequence < r'.nextSequence := by
  rcases drainEvent_cases h with ⟨below, -, rfl⟩ | ⟨next, advanced, coverage, boot, cpu, -⟩
  · exact ⟨rfl, rfl, rfl, le_rfl, below⟩
  · exact ⟨coverage, boot, cpu, by omega, by omega⟩

/-- What a turn hands over belongs to its stream and carries the event it read; the event
is not to be stored only if it is covered or of a reserved type. -/
theorem drainEvent_item {item : IngestItem} (h : drainEvent r event = .ok (some item, r')) :
    item.stream = (r.bootId, r.cpuId) ∧ item.event.sequence = event.sequence ∧
      item.event.eventType = event.eventType ∧ r.nextSequence ≤ event.sequence ∧
      item.storeEvent = (!r.covered event.sequence && !isReserved event.eventType) := by
  rcases drainEvent_cases h with ⟨-, none, -⟩ | ⟨next, -, -, -, -, pos, hseq, ⟨none, -⟩ | some⟩
  · cases none
  · cases none
  · obtain rfl := Option.some.inj some
    exact ⟨rfl, rfl, rfl, next, rfl⟩

/-- **A turn accounts once for each uncovered sequence that it moves past**, counting
the event it drops for its type as accounted for. -/
theorem accounts_of_drain (h : drainEvent r event = .ok (item, r')) (s : ℕ) :
    accountsOf item.toList r.bootId r.cpuId s +
        (if dropsReserved r event = true ∧ event.sequence = s then 1 else 0) =
      if r.nextSequence ≤ s ∧ s < r'.nextSequence ∧ r.covered s = false then 1 else 0 := by
  rcases drainEvent_cases h with
    ⟨below, rfl, rfl⟩ | ⟨next, advanced, -, -, -, pos, hseq, ⟨rfl, covered, gaps⟩ | rfl⟩
  · have kept : dropsReserved r event = false := by
      rw [dropsReserved, decide_eq_false (not_le.2 below)]
      rfl
    rw [kept, if_neg (by simp), if_neg (by simp only; omega)]
    rfl
  · -- nothing handed over: the event and everything before it is covered
    have none := r.gapCount_uncoveredGaps event.sequence hseq event.timestamp s
    rw [gaps, gapCount_nil] at none
    have kept : dropsReserved r event = false := by simp [dropsReserved, covered]
    rw [kept, if_neg (by simp), advanced]
    refine (if_neg ?_).symm
    rintro ⟨lower, upper, uncovered⟩
    rcases Nat.lt_or_ge s event.sequence with before | here
    · rw [if_pos ⟨lower, before, uncovered⟩] at none
      cases none
    · obtain rfl : s = event.sequence := by omega
      rw [covered] at uncovered
      cases uncovered
  · have gaps := r.gapCount_uncoveredGaps event.sequence hseq event.timestamp s
    have handed : IngestItem.accounts
        { gaps := r.uncoveredGaps event.sequence hseq event.timestamp
          storeEvent := !r.covered event.sequence && !isReserved event.eventType
          event := event.toReal r.bootId r.cpuId pos } r.bootId r.cpuId s =
        (if (!r.covered event.sequence && !isReserved event.eventType) = true ∧
          event.sequence = s then 1 else 0) +
        gapCount (r.uncoveredGaps event.sequence hseq event.timestamp) s := if_pos rfl
    rw [Option.toList_some, accountsOf, List.map_singleton, List.sum_singleton, handed, gaps,
      dropsReserved, advanced, decide_eq_true next]
    rcases lt_trichotomy s event.sequence with before | rfl | after
    · simp [before.ne', before, Nat.lt_succ_of_lt before]
    · cases r.covered event.sequence <;> cases isReserved event.eventType <;> simp [next]
    · have : ¬ s < event.sequence + 1 := by omega
      simp [after.ne, after.le, this]

end Eventd
