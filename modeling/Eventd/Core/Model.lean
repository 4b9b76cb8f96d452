import Mathlib.Tactic

/-!
# Records handed from the drain threads to the shard writers

The types of `eventd-core/src/model.rs`.  Sequences are natural numbers that stay
inside `u64`; records that the source documents as valid only in some range carry
that range as a field, so an invalid record cannot be built.  Timestamps, which
no code here does arithmetic on, keep their machine type.

* `RealEvent`, `Gap`, `IngestItem`, `SyntheticEvent`;
* `storeWrittenTypes`, `isStoreWritten`: the five types the daemon writes itself.
-/

namespace Eventd

/-- `u64::MAX`. -/
def u64Max : ℕ := 2 ^ 64 - 1

/-- `i64::MAX`, the largest integer an SQLite column holds. -/
def i64Max : ℕ := 2 ^ 63 - 1

/-- A GUID in PCDS binary layout. -/
abbrev Guid := Vector UInt8 16

instance : LawfulBEq Guid := inferInstance

/-- A real KMES event copied out of its ring.  Sequence zero is reserved and the
drain refuses it before an event is copied. -/
structure RealEvent where
  bootId : Guid
  timestamp : UInt64
  cpuId : UInt16
  sequence : ℕ
  originClass : UInt8
  effectiveTokenGuid : Guid
  trueTokenGuid : Guid
  processGuid : Guid
  eventType : String
  payload : List UInt8
  sequence_pos : 0 < sequence
  sequence_le : sequence ≤ u64Max
  deriving DecidableEq

/-- eventd started, attached to KMES and decided where to resume each ring. -/
def daemonStarted : String := "eventd.daemon.started"

/-- eventd shut down gracefully. -/
def daemonStopped : String := "eventd.daemon.stopped"

/-- Sequence numbers missing from one CPU's ring: the gap record. -/
def eventsLost : String := "eventd.events.lost"

/-- A corrupt store was moved aside and replaced. -/
def storeQuarantined : String := "eventd.store.quarantined"

/-- A configuration value changed at runtime and the change was applied. -/
def configChanged : String := "eventd.config.changed"

/-- Every event type eventd writes straight into its own store. -/
def storeWrittenTypes : List String :=
  [daemonStarted, daemonStopped, eventsLost, storeQuarantined, configChanged]

/-- Whether `eventType` is one eventd writes itself, which a KMES event may not claim. -/
def isStoreWritten (eventType : String) : Bool := storeWrittenTypes.contains eventType

/-- A missing inclusive sequence interval revealed by a real event. -/
structure Gap where
  firstSequence : ℕ
  lastSequence : ℕ
  precedingTimestamp : Option UInt64
  revealingTimestamp : UInt64
  first_pos : 0 < firstSequence
  first_le_last : firstSequence ≤ lastSequence
  last_le : lastSequence ≤ u64Max
  deriving DecidableEq

namespace Gap

/-- Number of missing sequences. -/
def count (gap : Gap) : ℕ := gap.lastSequence - gap.firstSequence + 1

/-- Whether `sequence` is one of the missing ones. -/
def contains (gap : Gap) (sequence : ℕ) : Bool :=
  gap.firstSequence ≤ sequence && sequence ≤ gap.lastSequence

@[simp] theorem contains_iff (gap : Gap) (sequence : ℕ) :
    gap.contains sequence = true ↔
      gap.firstSequence ≤ sequence ∧ sequence ≤ gap.lastSequence := by
  simp [contains]

end Gap

/-- One indivisible handoff: the gaps established before an event, and the event. -/
structure IngestItem where
  gaps : List Gap
  storeEvent : Bool
  event : RealEvent
  deriving DecidableEq

/-- A daemon-generated event written directly to an event shard. -/
structure SyntheticEvent where
  bootId : Guid
  timestamp : UInt64
  eventType : String
  payload : List UInt8
  deriving DecidableEq

end Eventd
