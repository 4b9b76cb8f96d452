import Eventd.Lib.Wrapping

/-!
# The bounded queue

`BoundedQueue` of `eventd-core/src/queue.rs`, one atomic step at a time.  Producers reserve a slot
of a ring and a number of bytes, and publish a value or drop the permit; one consumer pops the slots
in the order in which they were claimed.  Positions are words that wrap around.

Every step of a thread looks at the shared memory and makes one access to it that may change it, so
that a schedule is a list of which thread goes next.  A thread that holds several permits at a time
counts as several producers.  Who sleeps and who is woken has no part in what is reserved and
popped; it is left out here.

* `QueueSize`: what `BoundedQueue::new` accepts;
* `Inner`, `Slot`, `Operation`: the shared memory and the accesses;
* `Producing`, `Consuming`: where a producer and the consumer are, and their next access;
* `BoundedQueue`, `QueueAction`, `BoundedQueue.act`: the queue with its threads;
* `BoundedQueue.charged`: the bytes that somebody has still to give back;
* `QueueHistory`, `TrackedQueue`: the same with a record of what has happened.
-/

namespace Eventd

open Function

inductive ReserveError
  | full
  | tooLarge
  | closed
  deriving DecidableEq

/-- What a pop returns.  A value that was read from memory never written to is `none`. -/
inductive Pop (T : Type*)
  | item (value : Option T)
  | empty
  | closed
  deriving DecidableEq

/-! ### Sizes -/

/-- The sizes of a queue: slots, and bytes. -/
structure QueueSize (w : ℕ) where
  slots : ℕ
  bytes : ℕ
  two_le : 2 ≤ slots
  isPowerOfTwo : slots.isPowerOfTwo
  bytes_pos : 0 < bytes
  slots_lt : slots < 2 ^ w
  bytes_lt : bytes < 2 ^ w

namespace QueueSize

variable {w : ℕ}

variable (size : QueueSize w)

theorem slots_pos : 0 < size.slots := Nat.zero_lt_of_lt size.two_le

theorem dvd : size.slots ∣ 2 ^ w := by
  obtain ⟨k, is⟩ := size.isPowerOfTwo
  rw [is]
  refine pow_dvd_pow 2 ?_
  by_contra more
  have := size.slots_lt
  rw [is] at this
  exact absurd (Nat.pow_le_pow_right (by decide) (not_le.1 more).le) this.not_ge

/-- The cell of the ring that a position stands for: `position & mask`. -/
def index (position : BitVec w) : ℕ := (position &&& BitVec.ofNat w (size.slots - 1)).toNat

theorem index_eq (position : BitVec w) : size.index position = position.toNat % size.slots := by
  obtain ⟨k, is⟩ := size.isPowerOfTwo
  have lt := size.slots_lt
  rw [index, BitVec.toNat_and, BitVec.toNat_ofNat, Nat.mod_eq_of_lt (by omega), is,
    Nat.and_two_pow_sub_one_eq_mod]

theorem index_lt (position : BitVec w) : size.index position < size.slots := by
  rw [index_eq]
  exact Nat.mod_lt _ size.slots_pos

theorem index_ofNat (n : ℕ) : size.index (BitVec.ofNat w n) = n % size.slots := by
  rw [index_eq, Wrapping.toNat_mod size.dvd]

end QueueSize

/-- A small queue with positions of 64 bits. -/
def twoSlots : QueueSize 64 where
  slots := 2
  bytes := 4
  two_le := le_rfl
  isPowerOfTwo := ⟨1, rfl⟩
  bytes_pos := by decide
  slots_lt := by decide
  bytes_lt := by decide

namespace BoundedQueue

/-! ### The shared memory -/

structure Slot (w : ℕ) (T : Type*) where
  sequence : BitVec w
  bytes : ℕ
  cancelled : Bool
  /-- Memory that nothing has been written to is `none`. -/
  value : Option T

structure Inner (w : ℕ) (T : Type*) where
  ring : ℕ → Slot w T
  enqueue : BitVec w
  dequeue : BitVec w
  bytesUsed : ℕ
  closed : Bool

/-- A store to a field of a slot other than its sequence. -/
inductive Store (T : Type*)
  | value (value : T)
  | bytes (bytes : ℕ)
  | cancelled (cancelled : Bool)

variable {w : ℕ} {T : Type*} {ι : Type*}

def Slot.store (slot : Slot w T) : Store T → Slot w T
  | .value value => { slot with value := some value }
  | .bytes bytes => { slot with bytes := bytes }
  | .cancelled cancelled => { slot with cancelled := cancelled }

@[simp] theorem Slot.store_sequence (slot : Slot w T) (store : Store T) :
    (slot.store store).sequence = slot.sequence := by
  cases store <;> rfl

/-- An access to the shared memory.  What is only read does not show here, except for the position
that a producer starts from. -/
inductive Operation (w : ℕ) (T : Type*)
  | quiet
  | loadEnqueue
  | addBytes (bytes : ℕ)
  | subBytes (bytes : ℕ)
  /-- The exchange of `enqueue` has succeeded. -/
  | claim (position : BitVec w)
  | write (position : BitVec w) (store : Store T)
  /-- The sequence of a slot shows that it holds a value, or was cancelled. -/
  | settle (position : BitVec w) (value : Option T)
  /-- The consumer moves `dequeue`. -/
  | advance (position : BitVec w)
  /-- The sequence of a slot shows that it is free again. -/
  | release (position : BitVec w) (value : Option (Option T))

namespace Inner

variable (size : QueueSize w) (inner : Inner w T)

def slot (position : BitVec w) : Slot w T := inner.ring (size.index position)

def setSlot (position : BitVec w) (slot : Slot w T) : Inner w T :=
  { inner with ring := update inner.ring (size.index position) slot }

def apply : Operation w T → Inner w T
  | .quiet => inner
  | .loadEnqueue => inner
  | .addBytes bytes => { inner with bytesUsed := (inner.bytesUsed + bytes) % 2 ^ w }
  | .subBytes bytes => { inner with bytesUsed := (inner.bytesUsed + 2 ^ w - bytes) % 2 ^ w }
  | .claim position => { inner with enqueue := position + 1 }
  | .write position store => inner.setSlot size position ((inner.slot size position).store store)
  | .settle position _ =>
    inner.setSlot size position { inner.slot size position with sequence := position + 1 }
  | .advance position => { inner with dequeue := position + 1 }
  | .release position _ =>
    inner.setSlot size position
      { inner.slot size position with sequence := position + BitVec.ofNat w size.slots }

end Inner

/-! ### Producers -/

/-- Where a producer is.  It carries the bytes it asked for and the position it works with. -/
inductive Producing (w : ℕ) (T : Type*)
  | idle
  /-- The reservation has returned this error. -/
  | refused (error : ReserveError)
  | loadClosed (bytes : ℕ)
  | charge (bytes : ℕ)
  | loadEnqueue (bytes : ℕ)
  | loadSequence (bytes : ℕ) (position : BitVec w)
  | exchange (bytes : ℕ) (position : BitVec w)
  | giveBack (bytes : ℕ)
  /-- The slot is claimed; `closed` is looked at once more. -/
  | recheck (bytes : ℕ) (position : BitVec w)
  /-- The producer has the permit. -/
  | holding (bytes : ℕ) (position : BitVec w)
  | publishValue (bytes : ℕ) (position : BitVec w) (value : T)
  | publishBytes (bytes : ℕ) (position : BitVec w) (value : T)
  | publishCancelled (bytes : ℕ) (position : BitVec w) (value : T)
  | publishSequence (bytes : ℕ) (position : BitVec w) (value : T)
  /-- The permit is dropped, by its holder or because the queue was closed. -/
  | dropBytes (bytes : ℕ) (position : BitVec w) (closed : Bool)
  | dropCancelled (bytes : ℕ) (position : BitVec w) (closed : Bool)
  | dropGiveBack (bytes : ℕ) (position : BitVec w) (closed : Bool)
  | dropSequence (position : BitVec w) (closed : Bool)

namespace Producing

variable (size : QueueSize w) (inner : Inner w T)

/-- The next access of a producer, and where it is then.  The exchange may fail without a reason. -/
def next (spurious : Bool) : Producing w T → Operation w T × Producing w T
  | .idle => (.quiet, .idle)
  | .refused error => (.quiet, .refused error)
  -- try_reserve
  | .loadClosed bytes => (.quiet, if inner.closed then .refused .closed else .charge bytes)
  | .charge bytes =>
    -- checked_add, and the filter
    if inner.bytesUsed + bytes < 2 ^ w ∧ inner.bytesUsed + bytes ≤ size.bytes then
      (.addBytes bytes, .loadEnqueue bytes)
    else (.quiet, .refused .full)
  | .loadEnqueue bytes => (.loadEnqueue, .loadSequence bytes inner.enqueue)
  | .loadSequence bytes position =>
    let difference := ((inner.slot size position).sequence - position).toInt
    (.quiet,
      if difference = 0 then .exchange bytes position
      else if difference < 0 then .giveBack bytes
      else .loadEnqueue bytes)
  | .exchange bytes position =>
    if inner.enqueue = position ∧ spurious = false then
      (.claim position, .recheck bytes position)
    else (.quiet, .loadEnqueue bytes)
  | .giveBack bytes => (.subBytes bytes, .refused .full)
  | .recheck bytes position =>
    (.quiet, if inner.closed then .dropBytes bytes position true else .holding bytes position)
  | .holding bytes position => (.quiet, .holding bytes position)
  -- publish
  | .publishValue bytes position value =>
    (.write position (.value value), .publishBytes bytes position value)
  | .publishBytes bytes position value =>
    (.write position (.bytes bytes), .publishCancelled bytes position value)
  | .publishCancelled bytes position value =>
    (.write position (.cancelled false), .publishSequence bytes position value)
  | .publishSequence _ position value => (.settle position (some value), .idle)
  -- drop
  | .dropBytes bytes position closed =>
    (.write position (.bytes 0), .dropCancelled bytes position closed)
  | .dropCancelled bytes position closed =>
    (.write position (.cancelled true), .dropGiveBack bytes position closed)
  | .dropGiveBack bytes position closed => (.subBytes bytes, .dropSequence position closed)
  | .dropSequence position closed =>
    (.settle position none, if closed then .refused .closed else .idle)

/-- `BoundedQueue::reserve` and `try_reserve` begin. -/
def reserve (bytes : ℕ) : Producing w T → Producing w T
  | .idle | .refused _ => if size.bytes < bytes then .refused .tooLarge else .loadClosed bytes
  | other => other

def publish (value : T) : Producing w T → Producing w T
  | .holding bytes position => .publishValue bytes position value
  | other => other

def drop : Producing w T → Producing w T
  | .holding bytes position => .dropBytes bytes position false
  | other => other

/-- The bytes that the producer has charged, and that no published slot carries. -/
def charged : Producing w T → ℕ
  | .idle | .refused _ | .loadClosed _ | .charge _ | .dropSequence _ _ => 0
  | .loadEnqueue bytes | .loadSequence bytes _ | .exchange bytes _ | .giveBack bytes
  | .recheck bytes _ | .holding bytes _ | .publishValue bytes _ _ | .publishBytes bytes _ _
  | .publishCancelled bytes _ _ | .publishSequence bytes _ _ | .dropBytes bytes _ _
  | .dropCancelled bytes _ _ | .dropGiveBack bytes _ _ => bytes

/-- The position that the producer has claimed and not settled. -/
def claimed : Producing w T → Option (BitVec w)
  | .idle | .refused _ | .loadClosed _ | .charge _ | .loadEnqueue _ | .loadSequence _ _
  | .exchange _ _ | .giveBack _ => none
  | .recheck _ position | .holding _ position | .publishValue _ position _
  | .publishBytes _ position _ | .publishCancelled _ position _ | .publishSequence _ position _
  | .dropBytes _ position _ | .dropCancelled _ position _ | .dropGiveBack _ position _
  | .dropSequence position _ => some position

/-- The producer has a permit, and may publish a value or is about to. -/
def hasPermit : Producing w T → Bool
  | .holding _ _ | .publishValue _ _ _ | .publishBytes _ _ _ | .publishCancelled _ _ _
  | .publishSequence _ _ _ => true
  | _ => false

/-- What the producer is about to give back. -/
def givesBack : Producing w T → Option ℕ
  | .giveBack bytes | .dropGiveBack bytes _ _ => some bytes
  | _ => none

end Producing

/-! ### The consumer -/

/-- Where the consumer is. -/
inductive Consuming (w : ℕ) (T : Type*)
  /-- Between two calls; what the last one returned. -/
  | idle (returned : Option (Pop T))
  | loadDequeue
  | loadSequence (position : BitVec w)
  | storeDequeue (position : BitVec w)
  | loadCancelled (position : BitVec w)
  | loadBytes (position : BitVec w) (cancelled : Bool)
  | readValue (position : BitVec w) (bytes : ℕ) (cancelled : Bool)
  | storeSequence (position : BitVec w) (bytes : ℕ) (value : Option (Option T))
  | giveBack (bytes : ℕ) (value : Option (Option T))
  | loadClosed
  /-- `is_drained` -/
  | drainedDequeue
  | drainedEnqueue (dequeue : BitVec w)

namespace Consuming

variable (size : QueueSize w) (inner : Inner w T)

/-- A value is returned; after a cancelled slot the loop goes on. -/
def finish : Option (Option T) → Consuming w T
  | some value => .idle (some (.item value))
  | none => .loadDequeue

/-- The next access of the consumer, and where it is then. -/
def next : Consuming w T → Operation w T × Consuming w T
  | .idle returned => (.quiet, .idle returned)
  | .loadDequeue => (.quiet, .loadSequence inner.dequeue)
  | .loadSequence position =>
    let difference := ((inner.slot size position).sequence - (position + 1)).toInt
    (.quiet,
      if difference = 0 then .storeDequeue position
      else if difference < 0 then .loadClosed
      else .loadDequeue)
  | .storeDequeue position => (.advance position, .loadCancelled position)
  | .loadCancelled position =>
    (.quiet, .loadBytes position (inner.slot size position).cancelled)
  | .loadBytes position cancelled =>
    (.quiet, .readValue position (inner.slot size position).bytes cancelled)
  | .readValue position bytes cancelled =>
    (.quiet, .storeSequence position bytes
      (if cancelled then none else some (inner.slot size position).value))
  | .storeSequence position bytes value =>
    (.release position value, if bytes ≠ 0 then .giveBack bytes value else finish value)
  | .giveBack bytes value => (.subBytes bytes, finish value)
  | .loadClosed => (.quiet, if inner.closed then .drainedDequeue else .idle (some .empty))
  | .drainedDequeue => (.quiet, .drainedEnqueue inner.dequeue)
  | .drainedEnqueue dequeue =>
    (.quiet, .idle (some (if dequeue = inner.enqueue then .closed else .empty)))

def pop : Consuming w T → Consuming w T
  | .idle _ => .loadDequeue
  | other => other

/-- The position that the consumer has taken and not released. -/
def taken : Consuming w T → Option (BitVec w)
  | .loadCancelled position | .loadBytes position _ | .readValue position _ _
  | .storeSequence position _ _ => some position
  | _ => none

/-- The bytes of the slot that is being popped, until they are given back. -/
def charged : Consuming w T → ℕ
  | .loadCancelled position | .loadBytes position _ => (inner.slot size position).bytes
  | .readValue _ bytes _ | .storeSequence _ bytes _ | .giveBack bytes _ => bytes
  | _ => 0

def givesBack : Consuming w T → Option ℕ
  | .giveBack bytes _ => some bytes
  | _ => none

end Consuming

end BoundedQueue

/-! ### The queue with its threads -/

open BoundedQueue

/-- The shared memory and where every thread is. -/
structure BoundedQueue (w : ℕ) (T ι : Type*) where
  inner : Inner w T
  producers : ι → Producing w T
  consumer : Consuming w T

/-- What happens next. -/
inductive QueueAction (T ι : Type*)
  | reserve (p : ι) (bytes : ℕ)
  /-- The producer takes its next step. -/
  | produce (p : ι) (spurious : Bool)
  | publish (p : ι) (value : T)
  | drop (p : ι)
  | pop
  /-- The consumer takes its next step. -/
  | consume
  | close

namespace BoundedQueue

variable {w : ℕ} {T : Type*} {ι : Type*} [DecidableEq ι]

/-- The queue as `new` leaves it. -/
def new (w : ℕ) (T ι : Type*) : BoundedQueue w T ι where
  inner :=
    { ring := fun i => ⟨BitVec.ofNat w i, 0, false, none⟩
      enqueue := 0
      dequeue := 0
      bytesUsed := 0
      closed := false }
  producers _ := .idle
  consumer := .idle none

variable (size : QueueSize w)

def act (q : BoundedQueue w T ι) : QueueAction T ι → BoundedQueue w T ι
  | .reserve p bytes =>
    { q with producers := update q.producers p ((q.producers p).reserve size bytes) }
  | .produce p spurious =>
    let (operation, stage) := (q.producers p).next size q.inner spurious
    { q with
      inner := q.inner.apply size operation
      producers := update q.producers p stage }
  | .publish p value =>
    { q with producers := update q.producers p ((q.producers p).publish value) }
  | .drop p => { q with producers := update q.producers p (q.producers p).drop }
  | .pop => { q with consumer := q.consumer.pop }
  | .consume =>
    let (operation, stage) := q.consumer.next size q.inner
    { q with inner := q.inner.apply size operation, consumer := stage }
  | .close => { q with inner := { q.inner with closed := true } }

def run (q : BoundedQueue w T ι) (actions : List (QueueAction T ι)) : BoundedQueue w T ι :=
  actions.foldl (act size) q

/-- The slots from `dequeue` to `enqueue` whose sequence shows that they were published or cancelled;
`Inner::drop` goes through them in the same way. -/
def unpopped (q : BoundedQueue w T ι) : List (Slot w T) :=
  (((List.range (q.inner.enqueue - q.inner.dequeue).toNat).map fun k =>
    q.inner.dequeue + BitVec.ofNat w k).filter fun position =>
      (q.inner.slot size position).sequence = position + 1).map (q.inner.slot size)

/-- The bytes of reservations under way, of permits and of items that are not popped yet. -/
def charged [Fintype ι] (q : BoundedQueue w T ι) : ℕ :=
  ∑ p, (q.producers p).charged + ((q.unpopped size).map Slot.bytes).sum +
    q.consumer.charged size q.inner

/-- What some thread is about to give back. -/
def GivesBack (q : BoundedQueue w T ι) (bytes : ℕ) : Prop :=
  (∃ p, (q.producers p).givesBack = some bytes) ∨ q.consumer.givesBack = some bytes

end BoundedQueue

/-! ### What has happened -/

/-- A record of the accesses. -/
structure QueueHistory (T ι : Type*) where
  /-- The positions claimed, moved to by the consumer, released and settled. -/
  claims : ℕ
  advances : ℕ
  releases : ℕ
  settles : ℕ
  /-- How many were claimed when a producer last loaded `enqueue`. -/
  loadedAt : ι → ℕ
  /-- How many were claimed after a producer last claimed one. -/
  since : ι → ℕ
  /-- What was settled for a position. -/
  outcome : ℕ → Option (Option T)
  /-- What was popped, with cancelled slots. -/
  popped : List (Option (Option T))

namespace QueueHistory

variable {w : ℕ} {T : Type*} {ι : Type*} [DecidableEq ι]

def new (T ι : Type*) : QueueHistory T ι :=
  ⟨0, 0, 0, 0, fun _ => 0, fun _ => 0, fun _ => none, []⟩

/-- The number of the position that a producer claimed last. -/
def number (h : QueueHistory T ι) (p : ι) : ℕ := h.since p - 1

def produced (h : QueueHistory T ι) (p : ι) : Operation w T → QueueHistory T ι
  | .loadEnqueue => { h with loadedAt := update h.loadedAt p h.claims }
  | .claim _ =>
    { h with claims := h.claims + 1, since := update h.since p (h.claims + 1) }
  | .settle _ value =>
    { h with
      settles := h.settles + 1
      outcome := update h.outcome (h.number p) (some value) }
  | _ => h

def consumed (h : QueueHistory T ι) : Operation w T → QueueHistory T ι
  | .advance _ => { h with advances := h.advances + 1 }
  | .release _ value => { h with releases := h.releases + 1, popped := h.popped ++ [value] }
  | _ => h

end QueueHistory

/-- The queue with the record. -/
structure TrackedQueue (w : ℕ) (T ι : Type*) where
  queue : BoundedQueue w T ι
  history : QueueHistory T ι

namespace TrackedQueue

variable {w : ℕ} {T : Type*} {ι : Type*} [DecidableEq ι] (size : QueueSize w)

def new (w : ℕ) (T ι : Type*) : TrackedQueue w T ι := ⟨.new w T ι, .new T ι⟩

def act (t : TrackedQueue w T ι) (action : QueueAction T ι) : TrackedQueue w T ι where
  queue := t.queue.act size action
  history :=
    match action with
    | .produce p spurious =>
      t.history.produced p ((t.queue.producers p).next size t.queue.inner spurious).1
    | .consume => t.history.consumed (t.queue.consumer.next size t.queue.inner).1
    | _ => t.history

def run (t : TrackedQueue w T ι) (actions : List (QueueAction T ι)) : TrackedQueue w T ι :=
  actions.foldl (act size) t

theorem queue_run (t : TrackedQueue w T ι) (actions : List (QueueAction T ι)) :
    (t.run size actions).queue = t.queue.run size actions := by
  induction actions generalizing t with
  | nil => rfl
  | cons action rest ih => exact ih (t.act size action)

end TrackedQueue

end Eventd
