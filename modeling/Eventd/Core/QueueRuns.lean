import Eventd.Core.QueueAccount

/-!
# Runs of the queue

Whole runs in which every exchange is timely, and a run in which one is not: a producer that stands
still between its load of `enqueue` and its exchange while `2 ^ w` positions are claimed.  The
exchange succeeds then, although the slot is taken.

* `TrackedQueue.AllTimely`, `TrackedQueue.accounted_run`;
* `bytes_accounted`: the bytes of the queue in every such run;
* `Waiting.cycles`, `Waiting.overtake`: once round;
* `bytes_unaccounted`.
-/

namespace Eventd

open Function List BoundedQueue

/-! ### Timely runs -/

namespace TrackedQueue

variable {w : ℕ} {T : Type*} {ι : Type*} [DecidableEq ι] {size : QueueSize w}
  {t : TrackedQueue w T ι}

variable (size) in
/-- Every exchange of a run is timely. -/
def AllTimely (t : TrackedQueue w T ι) : List (QueueAction T ι) → Prop
  | [] => True
  | action :: rest => t.Timely action ∧ AllTimely (t.act size action) rest

theorem claims_act (t : TrackedQueue w T ι) (action : QueueAction T ι) :
    (t.act size action).history.claims ≤ t.history.claims + 1 := by
  have step : Step size t (t.act size action) := step_act t action
  generalize t.act size action = t' at step
  cases step with
  | @produced p operation => cases operation <;> first | exact le_rfl | exact Nat.le_succ _
  | @consumed operation => cases operation <;> exact Nat.le_succ _
  | close => exact Nat.le_succ _

/-- A run of fewer than `2 ^ w` steps is timely. -/
theorem allTimely_of_short {actions : List (QueueAction T ι)}
    (short : t.history.claims + actions.length < 2 ^ w) : t.AllTimely size actions := by
  induction actions generalizing t with
  | nil => trivial
  | cons action rest ih =>
    rw [length_cons] at short
    have : (t.act size action).history.claims ≤ _ := claims_act t action
    refine ⟨fun p _ _ _ _ _ => ?_, ih ?_⟩
    · omega
    · omega

variable [Fintype ι]

theorem accounted_run (h : Accounted size t) {actions : List (QueueAction T ι)}
    (timely : t.AllTimely size actions) : Accounted size (t.run size actions) := by
  induction actions generalizing t with
  | nil => exact h
  | cons action rest ih => exact ih (h.act timely.1) timely.2

omit [DecidableEq ι] [Fintype ι] in
/-- The slots that were settled and not popped, position by position. -/
theorem unpopped_bytes (h : Exact size t) :
    ((t.queue.unpopped size).map Slot.bytes).sum =
      ∑ n ∈ Finset.Ico t.history.advances t.history.claims, held size t.queue.inner n := by
  have le := h.advances_le
  have within := h.within
  have advances := h.linked.advances
  have length : (t.queue.inner.enqueue - t.queue.inner.dequeue).toNat
      = t.history.claims - t.history.advances := by
    have split : t.queue.inner.enqueue = t.queue.inner.dequeue +
        BitVec.ofNat w (t.history.claims - t.history.advances) := by
      rw [h.linked.enqueue, h.linked.dequeue, ← BitVec.ofNat_add, Nat.add_sub_cancel' le]
    rw [split, BitVec.add_comm, BitVec.add_sub_cancel, BitVec.toNat_ofNat, Nat.mod_eq_of_lt (by omega)]
  have filtered (positions : List (BitVec w)) (shows : BitVec w → Bool) :
      (((positions.filter shows).map (t.queue.inner.slot size)).map Slot.bytes).sum =
        (positions.map fun position =>
          if shows position then (t.queue.inner.slot size position).bytes else 0).sum := by
    induction positions with
    | nil => rfl
    | cons position rest ih =>
      rw [map_cons, sum_cons, ← ih, filter_cons]
      split_ifs
      · rfl
      · rw [Nat.zero_add]
  have asSum (f : ℕ → ℕ) (n : ℕ) : ((List.range n).map f).sum = ∑ k ∈ Finset.range n, f k := rfl
  unfold BoundedQueue.unpopped
  rw [filtered, map_map, length, asSum, Finset.sum_Ico_eq_sum_range]
  refine Finset.sum_congr rfl fun k mem => ?_
  have below := Finset.mem_range.1 mem
  have word : t.queue.inner.dequeue + BitVec.ofNat w k = BitVec.ofNat w (t.history.advances + k) := by
    rw [h.linked.dequeue, BitVec.ofNat_add]
  have slot : t.queue.inner.slot size (BitVec.ofNat w (t.history.advances + k))
      = t.queue.inner.ring ((t.history.advances + k) % size.slots) := by
    rw [Inner.slot, size.index_ofNat]
  have next : BitVec.ofNat w (t.history.advances + k) + 1
      = BitVec.ofNat w (t.history.advances + k + 1) := (BitVec.ofNat_add _ _).symm
  rw [Function.comp_apply, word, slot, next, held]
  refine if_congr ?_ rfl rfl
  rw [decide_eq_true_iff]
  constructor
  · intro sequence
    have fresh := Consuming.fresh_of_sequence (slot ▸ sequence.trans next.symm)
    rwa [size.index_ofNat] at fresh
  · intro fresh
    exact (h.settled _ (by omega) (by omega) fun p hp => h.number_ne hp fresh).1

end TrackedQueue

variable {w : ℕ} {T : Type*} {ι : Type*} [Fintype ι]

theorem BoundedQueue.charged_eq_zero {size : QueueSize w} {q : BoundedQueue w T ι}
    (drained : q.inner.dequeue = q.inner.enqueue) (nobody : ∀ p, (q.producers p).charged = 0)
    (idle : ∃ returned, q.consumer = .idle returned) : q.charged size = 0 := by
  obtain ⟨returned, idle⟩ := idle
  have empty : q.unpopped size = [] := by
    unfold BoundedQueue.unpopped
    rw [drained, BitVec.sub_self]
    rfl
  rw [BoundedQueue.charged, empty, idle, Finset.sum_eq_zero fun p _ => nobody p]
  rfl

variable [DecidableEq ι]

/-- **Bytes are accounted for.**  In every state of a run with timely exchanges `bytesUsed` is what
reservations under way, permits and items not popped carry; it is never more than the capacity, and
never less than what a thread is about to give back.  It is zero when the queue is drained, nobody
has a reservation or a permit, and the consumer is between two calls. -/
theorem bytes_accounted (size : QueueSize w) (actions : List (QueueAction T ι))
    (timely : (TrackedQueue.new w T ι).AllTimely size actions) :
    let q := (BoundedQueue.new w T ι).run size actions
    q.inner.bytesUsed = q.charged size ∧ q.inner.bytesUsed ≤ size.bytes ∧
      (∀ bytes, q.GivesBack bytes → bytes ≤ q.inner.bytesUsed) ∧
      (q.inner.dequeue = q.inner.enqueue → (∀ p, (q.producers p).charged = 0) →
        (∃ returned, q.consumer = .idle returned) → q.inner.bytesUsed = 0) := by
  intro q
  have h := TrackedQueue.accounted_run TrackedQueue.accounted_new timely
  have is : ((TrackedQueue.new w T ι).run size actions).queue = q := TrackedQueue.queue_run size _ _
  have sum : q.inner.bytesUsed = q.charged size := by
    rw [← is]
    unfold BoundedQueue.charged
    rw [TrackedQueue.unpopped_bytes h.exact]
    exact h.bytes
  refine ⟨sum, is ▸ h.bytes_le, ?_, fun drained nobody idle => ?_⟩
  · rintro bytes (⟨p, gives⟩ | gives)
    · have le : (q.producers p).charged ≤ q.inner.bytesUsed := is ▸ h.charged_le p
      cases stage : q.producers p <;> rw [stage] at gives le <;> cases gives <;> exact le
    · rw [sum, BoundedQueue.charged]
      cases stage : q.consumer <;> rw [stage] at gives <;> cases gives
      exact Nat.le_add_left _ _
  · rw [sum, BoundedQueue.charged_eq_zero drained nobody idle]

namespace BoundedQueue

variable {w : ℕ} {T : Type*} {ι : Type*} [DecidableEq ι] {size : QueueSize w}
  {q : BoundedQueue w T ι} {p : ι} {bytes : ℕ} {position : BitVec w} {value : T}

theorem run_append (q : BoundedQueue w T ι) (first second : List (QueueAction T ι)) :
    q.run size (first ++ second) = (q.run size first).run size second := foldl_append

/-- A reservation up to its exchange. -/
def approach (p : ι) (bytes : ℕ) : List (QueueAction T ι) :=
  [.reserve p bytes, .produce p false, .produce p false, .produce p false, .produce p false]

theorem run_approach (idle : q.producers p = .idle) (closed : q.inner.closed = false)
    (fits : q.inner.bytesUsed + bytes ≤ size.bytes)
    (free : (q.inner.slot size q.inner.enqueue).sequence = q.inner.enqueue) :
    q.run size (approach p bytes) =
      { q with
        inner := { q.inner with bytesUsed := q.inner.bytesUsed + bytes }
        producers := update q.producers p (.exchange bytes q.inner.enqueue) } := by
  have small : q.inner.bytesUsed + bytes < 2 ^ w := fits.trans_lt size.bytes_lt
  have within : ¬size.bytes < bytes := by omega
  unfold Inner.slot at free
  simp [run, approach, act, Producing.reserve, Producing.next, idle, closed, within, fits, small,
    Inner.apply, Nat.mod_eq_of_lt small, Inner.slot, free]

/-- The exchange, and the second look at `closed`. -/
def claim (p : ι) : List (QueueAction T ι) := [.produce p false, .produce p false]

theorem run_claim (ready : q.producers p = .exchange bytes position)
    (same : q.inner.enqueue = position) (closed : q.inner.closed = false) :
    q.run size (claim p) =
      { q with
        inner := { q.inner with enqueue := position + 1 }
        producers := update q.producers p (.holding bytes position) } := by
  simp [run, claim, act, Producing.next, ready, same, closed, Inner.apply]

/-- A permit is published, up to the store of the sequence. -/
def fill (p : ι) (value : T) : List (QueueAction T ι) :=
  [.publish p value, .produce p false, .produce p false, .produce p false]

theorem run_fill (holds : q.producers p = .holding bytes position) :
    q.run size (fill p value) =
      { q with
        inner := q.inner.setSlot size position
          ⟨(q.inner.slot size position).sequence, bytes, false, some value⟩
        producers := update q.producers p (.publishSequence bytes position value) } := by
  simp [run, fill, act, Producing.publish, Producing.next, holds, Inner.apply, Inner.setSlot,
    Inner.slot, Slot.store]

theorem run_settle (filled : q.producers p = .publishSequence bytes position value) :
    q.run size [.produce p false] =
      { q with
        inner := q.inner.setSlot size position
          { q.inner.slot size position with sequence := position + 1 }
        producers := update q.producers p .idle } := by
  simp [run, act, Producing.next, filled, Inner.apply]

/-- A pop of a slot that carries bytes. -/
def popping : List (QueueAction T ι) := .pop :: List.replicate 8 .consume

theorem run_popping {returned : Option (Pop T)} {written : Option T}
    (idle : q.consumer = .idle returned)
    (full : q.inner.slot size q.inner.dequeue = ⟨q.inner.dequeue + 1, bytes, false, written⟩)
    (some : bytes ≠ 0) :
    q.run size popping =
      { q with
        inner := { q.inner.setSlot size q.inner.dequeue
            ⟨q.inner.dequeue + BitVec.ofNat w size.slots, bytes, false, written⟩ with
          dequeue := q.inner.dequeue + 1
          bytesUsed := (q.inner.bytesUsed + 2 ^ w - bytes) % 2 ^ w }
        consumer := .idle (.some (.item written)) } := by
  unfold Inner.slot at full
  simp [run, popping, List.replicate, act, Consuming.pop, Consuming.next, Consuming.finish, idle,
    Inner.slot, full, some, Inner.apply, Inner.setSlot]

/-- A reservation that is published at once. -/
def publishing (p : ι) (bytes : ℕ) (value : T) : List (QueueAction T ι) :=
  approach p bytes ++ claim p ++ fill p value ++ [.produce p false]

theorem run_publishing (idle : q.producers p = .idle) (closed : q.inner.closed = false)
    (fits : q.inner.bytesUsed + bytes ≤ size.bytes)
    (free : (q.inner.slot size q.inner.enqueue).sequence = q.inner.enqueue) :
    q.run size (publishing p bytes value) =
      { q with
        inner := { q.inner.setSlot size q.inner.enqueue
            ⟨q.inner.enqueue + 1, bytes, false, some value⟩ with
          enqueue := q.inner.enqueue + 1
          bytesUsed := q.inner.bytesUsed + bytes } } := by
  unfold publishing
  rw [run_append, run_append, run_append, run_approach idle closed fits free]
  rw [@run_claim w T ι _ size _ p bytes q.inner.enqueue]
  · rw [@run_fill w T ι _ size _ p bytes q.inner.enqueue]
    · rw [@run_settle w T ι _ size _ p bytes q.inner.enqueue value]
      · simp [Inner.setSlot, Inner.slot, ← idle]
      · exact update_self ..
    · exact update_self ..
  · exact update_self ..
  · rfl
  · exact closed

theorem bytes_accounted_published :
    let q := (BoundedQueue.new 64 ℕ (Fin 2)).run twoSlots (publishing 1 3 7 ++ approach 0 1)
    q.inner.bytesUsed = q.charged twoSlots ∧ q.inner.bytesUsed ≤ twoSlots.bytes ∧
      (∀ bytes, q.GivesBack bytes → bytes ≤ q.inner.bytesUsed) ∧
      (q.inner.dequeue = q.inner.enqueue → (∀ p, (q.producers p).charged = 0) →
        (∃ returned, q.consumer = .idle returned) → q.inner.bytesUsed = 0) :=
  bytes_accounted twoSlots _ (TrackedQueue.allTimely_of_short (by decide))

/-! ### Once round -/

section Round

variable {ring : ℕ → Slot 64 ℕ} {enqueue dequeue : BitVec 64} {bytesUsed : ℕ}
  {first : Producing 64 ℕ} {returned : Option (Pop ℕ)} {position : BitVec 64} {bytes value : ℕ}

/-- An open queue of two slots, between calls of its second producer and of the consumer. -/
def between (ring : ℕ → Slot 64 ℕ) (enqueue dequeue : BitVec 64) (bytesUsed : ℕ)
    (first : Producing 64 ℕ) (returned : Option (Pop ℕ)) : BoundedQueue 64 ℕ (Fin 2) :=
  ⟨⟨ring, enqueue, dequeue, bytesUsed, false⟩, ![first, .idle], .idle returned⟩

theorem update_first (first stage : Producing 64 ℕ) :
    update ![first, .idle] 0 stage = ![stage, .idle] := by
  funext p
  fin_cases p <;> rfl

theorem between_publishing (fits : bytesUsed + bytes ≤ 4)
    (free : (ring (twoSlots.index enqueue)).sequence = enqueue) :
    (between ring enqueue dequeue bytesUsed first returned).run twoSlots (publishing 1 bytes value) =
      between
        (update ring (twoSlots.index enqueue) ⟨enqueue + 1, bytes, false, some value⟩)
        (enqueue + 1) dequeue (bytesUsed + bytes) first returned :=
  run_publishing rfl rfl fits free

theorem between_popping {written : Option ℕ}
    (full : ring (twoSlots.index dequeue) = ⟨dequeue + 1, bytes, false, written⟩) (some : bytes ≠ 0) :
    (between ring enqueue dequeue bytesUsed first returned).run twoSlots popping =
      between (update ring (twoSlots.index dequeue) ⟨dequeue + 2, bytes, false, written⟩)
        enqueue (dequeue + 1) ((bytesUsed + 2 ^ 64 - bytes) % 2 ^ 64) first
        (.some (.item written)) :=
  run_popping rfl full some

theorem between_claim :
    (between ring enqueue dequeue bytesUsed (.exchange bytes enqueue) returned).run twoSlots (claim 0) =
      between ring (enqueue + 1) dequeue bytesUsed (.holding bytes enqueue) returned := by
  refine (run_claim rfl rfl rfl).trans ?_
  unfold between
  rw [update_first]

theorem between_fill :
    (between ring enqueue dequeue bytesUsed (.holding bytes position) returned).run twoSlots
        (fill 0 value) =
      between
        (update ring (twoSlots.index position)
          ⟨(ring (twoSlots.index position)).sequence, bytes, false, some value⟩)
        enqueue dequeue bytesUsed (.publishSequence bytes position value) returned := by
  refine (run_fill rfl).trans ?_
  unfold between
  rw [update_first]
  rfl

theorem between_settle :
    (between ring enqueue dequeue bytesUsed (.publishSequence bytes position value) returned).run
        twoSlots [.produce 0 false] =
      between
        (update ring (twoSlots.index position)
          { ring (twoSlots.index position) with sequence := position + 1 })
        enqueue dequeue bytesUsed .idle returned := by
  refine (run_settle rfl).trans ?_
  unfold between
  rw [update_first]
  rfl

/-- The first producer has seen the slot of position 0 free and stands still; as many positions were
popped as claimed since. -/
def Waiting (n : ℕ) (q : BoundedQueue 64 ℕ (Fin 2)) : Prop :=
  ∃ ring returned, q = between ring (BitVec.ofNat 64 n) (BitVec.ofNat 64 n) 2 (.exchange 2 0) returned ∧
    (ring (n % 2)).sequence = BitVec.ofNat 64 n ∧
    (ring ((n + 1) % 2)).sequence = BitVec.ofNat 64 (n + 1)

theorem waiting_approach : Waiting 0 ((new 64 ℕ (Fin 2)).run twoSlots (approach 0 2)) := by
  refine ⟨fun i => ⟨BitVec.ofNat 64 i, 0, false, none⟩, none,
    (run_approach rfl rfl (by decide) rfl).trans ?_, rfl, rfl⟩
  have producers : update (fun _ : Fin 2 => (.idle : Producing 64 ℕ)) 0 (.exchange 2 0)
      = ![.exchange 2 0, .idle] := by
    funext p
    fin_cases p <;> rfl
  unfold between
  rw [← producers]
  rfl

/-- The other producer publishes, and the consumer pops. -/
def cycle : List (QueueAction ℕ (Fin 2)) := publishing 1 1 7 ++ popping

theorem Waiting.cycle {n : ℕ} {q : BoundedQueue 64 ℕ (Fin 2)} (h : Waiting n q) :
    Waiting (n + 1) (q.run twoSlots cycle) := by
  obtain ⟨ring, returned, rfl, this, next⟩ := h
  have cell : twoSlots.index (BitVec.ofNat 64 n) = n % 2 := twoSlots.index_ofNat n
  have apart : (n + 1) % 2 ≠ n % 2 := by omega
  unfold BoundedQueue.cycle
  rw [run_append, between_publishing (by decide) (by rw [cell, this]), cell]
  rw [@between_popping _ _ _ _ _ _ 1 (some 7) (by rw [cell, update_self]) (by decide), cell]
  rw [show BitVec.ofNat 64 n + 1 = BitVec.ofNat 64 (n + 1) from (BitVec.ofNat_add _ _).symm]
  refine ⟨_, _, rfl, ?_, ?_⟩
  · rw [update_of_ne apart, update_of_ne apart]
    exact next
  · rw [show (n + 1 + 1) % 2 = n % 2 by omega, update_self]
    exact (BitVec.ofNat_add _ _).symm

theorem Waiting.cycles {n : ℕ} {q : BoundedQueue 64 ℕ (Fin 2)} (h : Waiting n q) (k : ℕ) :
    Waiting (n + k) (q.run twoSlots (List.replicate k BoundedQueue.cycle).flatten) := by
  induction k generalizing n q with
  | zero => exact h
  | succ k ih =>
    rw [replicate_succ, flatten_cons, run_append, ← Nat.add_assoc, Nat.add_right_comm]
    exact ih h.cycle

/-- The ring is filled up to the position where the first producer stands, and that producer
exchanges and publishes; the consumer comes in the middle of it. -/
def overtake : List (QueueAction ℕ (Fin 2)) :=
  publishing 1 1 7 ++ publishing 1 1 8 ++ claim 0 ++ fill 0 9 ++ popping ++ [.produce 0 false] ++
    popping ++ popping

/-- The first producer publishes in the slot of a value that was not popped. -/
def republish : List (QueueAction ℕ (Fin 2)) :=
  fill 0 9 ++ popping ++ [.produce 0 false] ++ popping ++ popping

theorem overtake_eq :
    overtake = (publishing 1 1 7 ++ publishing 1 1 8 ++ claim 0) ++ republish := by
  simp only [overtake, republish, append_assoc]

theorem last_but_one : BitVec.ofNat 64 (2 ^ 64 - 2) + 1 + 1 = 0 := by decide

/-- The first producer gets the slot of the last position but one, which was not popped. -/
theorem Waiting.claimed {q : BoundedQueue 64 ℕ (Fin 2)} (h : Waiting (2 ^ 64 - 2) q) :
    ∃ ring returned, q.run twoSlots (publishing 1 1 7 ++ publishing 1 1 8 ++ claim 0) =
        between ring 1 (BitVec.ofNat 64 (2 ^ 64 - 2)) 4 (.holding 2 0) returned ∧
      ring 0 = ⟨BitVec.ofNat 64 (2 ^ 64 - 2) + 1, 1, false, some 7⟩ ∧
      ring 1 = ⟨0, 1, false, some 8⟩ := by
  obtain ⟨ring, returned, rfl, this, next⟩ := h
  have come := last_but_one
  generalize is : BitVec.ofNat 64 (2 ^ 64 - 2) = last at come
  have cell : twoSlots.index last = 0 := by rw [← is]; decide
  have cell' : twoSlots.index (last + 1) = 1 := by rw [← is]; decide
  rw [run_append, run_append, between_publishing (by decide) (by rw [cell, ← is]; exact this), cell,
    between_publishing (by decide) (by rw [cell', ← is]; exact next), cell', come, between_claim]
  exact ⟨_, _, rfl, rfl, rfl⟩

/-- Everything was popped, and more bytes were given back than were charged. -/
theorem Waiting.overtake {q : BoundedQueue 64 ℕ (Fin 2)} (h : Waiting (2 ^ 64 - 2) q) :
    ∃ ring, q.run twoSlots overtake =
      between ring 1 1 (2 ^ 64 - 1) .idle (some (.item (some 9))) := by
  obtain ⟨ring, returned, claimed, this, next⟩ := h.claimed
  have come := last_but_one
  generalize is : BitVec.ofNat 64 (2 ^ 64 - 2) = last at come claimed this
  have cell : twoSlots.index last = 0 := by rw [← is]; decide
  have cell' : twoSlots.index (last + 1) = 1 := by rw [← is]; decide
  have cell₀ : twoSlots.index 0 = 0 := by decide
  have come' : last + 2 = 0 := by rw [← is]; decide
  unfold BoundedQueue.overtake
  rw [run_append, run_append, run_append, run_append, run_append, claimed, between_fill, cell₀,
    -- the slot of the last position but one, with the bytes of the first producer
    @between_popping _ _ _ _ _ _ 2 (some 9) (by rw [cell]; simp [this]) (by decide), cell, come',
    between_settle, cell₀,
    @between_popping _ _ _ _ _ _ 1 (some 8) (by rw [cell', come]; simp [next]) (by decide), cell',
    come,
    -- position 0, with the same bytes again
    @between_popping _ _ _ _ _ _ 2 (some 9) (by rw [cell₀]; simp) (by decide)]
  exact ⟨_, rfl⟩

theorem waiting_round : ∃ actions, Waiting (2 ^ 64 - 2) ((new 64 ℕ (Fin 2)).run twoSlots actions) := by
  have waiting := waiting_approach.cycles (2 ^ 64 - 2)
  rw [Nat.zero_add, ← run_append] at waiting
  exact ⟨_, waiting⟩

theorem once_round : ∃ actions ring, (new 64 ℕ (Fin 2)).run twoSlots actions =
    between ring 1 1 (2 ^ 64 - 1) .idle (some (.item (some 9))) := by
  obtain ⟨actions, waiting⟩ := waiting_round
  obtain ⟨ring, eq⟩ := waiting.overtake
  rw [← run_append] at eq
  exact ⟨_, ring, eq⟩

end Round

end BoundedQueue

/-- A run in which a position comes round under a producer that stands still: everything was popped,
nobody has a permit, and `bytesUsed` is far above the capacity.  And a reservation that has met an
open queue: when the queue is closed and drained meanwhile, its bytes are still charged. -/
theorem bytes_unaccounted :
    (∃ actions : List (QueueAction ℕ (Fin 2)),
      let q := (BoundedQueue.new 64 ℕ (Fin 2)).run twoSlots actions
      (∀ p, q.producers p = .idle) ∧ (∃ returned, q.consumer = .idle returned) ∧
        q.inner.dequeue = q.inner.enqueue ∧ q.charged twoSlots = 0 ∧
        q.inner.bytesUsed = 2 ^ 64 - 1) ∧
    ∃ actions : List (QueueAction ℕ (Fin 2)),
      let q := (BoundedQueue.new 64 ℕ (Fin 2)).run twoSlots actions
      q.inner.closed = true ∧ q.consumer = .idle (some .closed) ∧
        (∀ p, (q.producers p).claimed = none) ∧ q.inner.bytesUsed = 1 := by
  constructor
  · obtain ⟨actions, ring, eq⟩ := once_round
    refine ⟨actions, ?_⟩
    rw [eq]
    have idle : ∀ p, (between ring 1 1 (2 ^ 64 - 1) .idle (some (.item (some 9)))).producers p
        = .idle := by
      intro p
      fin_cases p <;> rfl
    exact ⟨idle, ⟨_, rfl⟩, rfl, charged_eq_zero rfl (fun p => by rw [idle]; rfl) ⟨_, rfl⟩, rfl⟩
  · refine ⟨[.reserve 0 1, .produce 0 false, .close, .produce 0 false, .pop] ++
      List.replicate 5 .consume, rfl, rfl, fun p => ?_, rfl⟩
    fin_cases p <;> rfl

end Eventd
