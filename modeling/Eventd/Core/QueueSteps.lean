import Eventd.Core.Queue

/-!
# What a step of the queue can do

Everything that a step of a producer or of the consumer can do, in a few cases, and what every run
of the queue keeps even when positions wrap around.

* `Producing.Move`, `Consuming.Move`: what an access says about the thread that makes it;
* `TrackedQueue.Step`, `TrackedQueue.step_act`: what an action is;
* `Inner.Fresh`: the sequence of a slot was stored by a producer last;
* `TrackedQueue.Linked`: the words and the numbers they stand for;
* `Linked.produced`, `Linked.consumed`: a step keeps the links while fewer than `2 ^ w` positions
  are not released.
-/

namespace Eventd

open Finset Function

namespace BoundedQueue

variable {w : ℕ} {T : Type*} {ι : Type*} (size : QueueSize w)

/-! ### Producers -/

namespace Producing

/-- The position that a producer has loaded and not claimed yet. -/
def loaded : Producing w T → Option (BitVec w)
  | .loadSequence _ position | .exchange _ position => some position
  | _ => none

/-- What a producer has stored to its slot so far. -/
def Wrote (slot : Slot w T) : Producing w T → Prop
  | .publishBytes _ _ value => slot.value = some value
  | .publishCancelled bytes _ value => slot.value = some value ∧ slot.bytes = bytes
  | .publishSequence bytes _ value =>
    slot.value = some value ∧ slot.bytes = bytes ∧ slot.cancelled = false
  | .dropCancelled _ _ _ => slot.bytes = 0
  | .dropGiveBack _ _ _ | .dropSequence _ _ => slot.bytes = 0 ∧ slot.cancelled = true
  | _ => True

theorem wrote_sequence (stage : Producing w T) (slot : Slot w T) (sequence : BitVec w) :
    stage.Wrote { slot with sequence := sequence } ↔ stage.Wrote slot := by
  cases stage <;> exact Iff.rfl

/-- A producer goes on without a change to the memory. -/
structure Quiet (inner : Inner w T) (stage stage' : Producing w T) : Prop where
  charged : stage'.charged = stage.charged
  claimed : stage'.claimed = stage.claimed
  loaded : ∀ position, stage'.loaded = some position → stage.loaded = some position
  exchange : ∀ bytes position, stage' = .exchange bytes position →
    stage = .exchange bytes position ∨
      stage = .loadSequence bytes position ∧ (inner.slot size position).sequence = position
  permit : stage'.hasPermit = true → stage.hasPermit = true ∨ inner.closed = false
  wrote : ∀ slot, stage.Wrote slot → stage'.Wrote slot

/-- What a step of a producer can do. -/
inductive Move (inner : Inner w T) : Producing w T → Operation w T → Producing w T → Prop
  | quiet {stage stage' : Producing w T} (quiet : Quiet size inner stage stage') :
      Move inner stage .quiet stage'
  | load (bytes : ℕ) :
      Move inner (.loadEnqueue bytes) .loadEnqueue (.loadSequence bytes inner.enqueue)
  | charge {bytes : ℕ} (fits : inner.bytesUsed + bytes ≤ size.bytes) :
      Move inner (.charge bytes) (.addBytes bytes) (.loadEnqueue bytes)
  | giveBack {stage stage' : Producing w T} {bytes : ℕ} (gives : stage.givesBack = some bytes)
      (charged : stage.charged = bytes) (charged' : stage'.charged = 0)
      (claimed : stage'.claimed = stage.claimed) (loaded : stage'.loaded = none)
      (permit : stage'.hasPermit = false) (wrote : ∀ slot, stage.Wrote slot → stage'.Wrote slot) :
      Move inner stage (.subBytes bytes) stage'
  | claim {bytes : ℕ} {position : BitVec w} (same : inner.enqueue = position) :
      Move inner (.exchange bytes position) (.claim position) (.recheck bytes position)
  | write {stage stage' : Producing w T} {position : BitVec w} {store : Store T}
      (claimed : stage.claimed = some position) (claimed' : stage'.claimed = some position)
      (charged : stage'.charged = stage.charged) (loaded : stage'.loaded = none)
      (permit : stage'.hasPermit = stage.hasPermit)
      (cancels : stage.hasPermit = false → store = .bytes 0 ∨ store = .cancelled true)
      (wrote : ∀ slot, stage.Wrote slot → stage'.Wrote (slot.store store)) :
      Move inner stage (.write position store) stage'
  | settle {stage stage' : Producing w T} {position : BitVec w} {value : Option T}
      (claimed : stage.claimed = some position) (claimed' : stage'.claimed = none)
      (charged' : stage'.charged = 0) (loaded : stage'.loaded = none)
      (permit : stage'.hasPermit = false) (publishes : value.isSome = true → stage.hasPermit = true)
      (wrote : ∀ slot, stage.Wrote slot → slot.bytes = stage.charged ∧
        slot.cancelled = value.isNone ∧ ∀ v ∈ value, slot.value = some v)
      (wrote' : ∀ slot, stage'.Wrote slot) :
      Move inner stage (.settle position value) stage'

variable {size} {inner : Inner w T}

theorem Quiet.refl (stage : Producing w T) : Quiet size inner stage stage :=
  ⟨rfl, rfl, fun _ => id, fun _ _ => .inl, .inl, fun _ => id⟩

theorem sub_toInt_eq_zero {x y : BitVec w} (zero : (x - y).toInt = 0) : x = y := by
  have zero : x - y = 0#w := BitVec.toInt_inj.1 (by simpa using zero)
  rw [← BitVec.sub_add_cancel x y, zero, BitVec.zero_add]

theorem quiet_loadSequence (bytes : ℕ) (position : BitVec w) :
    Quiet size inner (.loadSequence bytes position)
      (Producing.next size inner false (.loadSequence bytes position)).2 := by
  unfold next
  dsimp only
  split_ifs with zero less
  · exact ⟨rfl, rfl, fun _ => id, fun _ _ same => .inr (by cases same; exact ⟨rfl, sub_toInt_eq_zero zero⟩),
      nofun, fun _ => id⟩
  · exact ⟨rfl, rfl, nofun, nofun, nofun, fun _ => id⟩
  · exact ⟨rfl, rfl, nofun, nofun, nofun, fun _ => id⟩

theorem next_move (stage : Producing w T) (spurious : Bool) :
    Move size inner stage (stage.next size inner spurious).1 (stage.next size inner spurious).2 := by
  cases stage with
  | idle | refused | holding => exact .quiet (.refl _)
  | loadClosed bytes =>
    refine .quiet ?_
    unfold next
    cases inner.closed <;> exact ⟨rfl, rfl, nofun, nofun, nofun, fun _ => id⟩
  | charge bytes =>
    by_cases fits : inner.bytesUsed + bytes < 2 ^ w ∧ inner.bytesUsed + bytes ≤ size.bytes
    · rw [next, if_pos fits]
      exact .charge fits.2
    · rw [next, if_neg fits]
      exact .quiet ⟨rfl, rfl, nofun, nofun, nofun, fun _ => id⟩
  | loadEnqueue bytes => exact .load bytes
  | loadSequence bytes position => exact .quiet (quiet_loadSequence bytes position)
  | exchange bytes position =>
    by_cases same : inner.enqueue = position ∧ spurious = false
    · rw [next, if_pos same]
      exact .claim same.1
    · rw [next, if_neg same]
      exact .quiet ⟨rfl, rfl, nofun, nofun, nofun, fun _ => id⟩
  | giveBack bytes => exact .giveBack rfl rfl rfl rfl rfl rfl fun _ => id
  | recheck bytes position =>
    refine .quiet ?_
    cases closed : inner.closed with
    | true =>
      simp only [next, closed, ↓reduceIte]
      exact ⟨rfl, rfl, nofun, nofun, nofun, fun _ => id⟩
    | false =>
      simp only [next, closed, Bool.false_eq_true, ↓reduceIte]
      exact ⟨rfl, rfl, nofun, nofun, fun _ => .inr closed, fun _ => id⟩
  | publishValue | publishBytes | publishCancelled =>
    exact .write rfl rfl rfl rfl rfl nofun fun slot wrote => by simp_all [next, Wrote, Slot.store]
  | publishSequence bytes position value =>
    refine .settle rfl rfl rfl rfl rfl (fun _ => rfl) (fun slot wrote => ?_) fun _ => trivial
    exact ⟨wrote.2.1, wrote.2.2, fun v is => Option.mem_some_iff.1 is ▸ wrote.1⟩
  | dropBytes | dropCancelled =>
    refine .write rfl rfl rfl rfl rfl (fun _ => ?_) fun slot wrote => by
      simp_all [next, Wrote, Slot.store]
    first
      | exact .inl rfl
      | exact .inr rfl
  | dropGiveBack bytes position closed => exact .giveBack rfl rfl rfl rfl rfl rfl fun _ => id
  | dropSequence position closed =>
    refine .settle rfl ?_ ?_ ?_ ?_ nofun (fun slot wrote => ⟨wrote.1, wrote.2, nofun⟩) ?_ <;>
      cases closed <;> first | rfl | exact fun _ => trivial

theorem quiet_reserve (bytes : ℕ) (stage : Producing w T) :
    Quiet size inner stage (stage.reserve size bytes) := by
  cases stage with
  | idle | refused =>
    unfold reserve
    split_ifs
    · exact ⟨rfl, rfl, nofun, nofun, nofun, fun _ => id⟩
    · exact ⟨rfl, rfl, nofun, nofun, nofun, fun _ => id⟩
  | _ => exact .refl _

theorem quiet_publish (value : T) (stage : Producing w T) :
    Quiet size inner stage (stage.publish value) := by
  cases stage with
  | holding => exact ⟨rfl, rfl, nofun, nofun, fun _ => .inl rfl, fun _ => id⟩
  | _ => exact .refl _

theorem quiet_drop (stage : Producing w T) : Quiet size inner stage stage.drop := by
  cases stage with
  | holding => exact ⟨rfl, rfl, nofun, nofun, nofun, fun _ => id⟩
  | _ => exact .refl _

end Producing

/-! ### The consumer -/

/-- The sequence of the slot was stored by a producer last: it stands for another cell. -/
def Inner.Fresh (inner : Inner w T) (i : ℕ) : Prop :=
  (inner.ring i).sequence.toNat % size.slots ≠ i

instance (inner : Inner w T) (i : ℕ) : Decidable (inner.Fresh size i) :=
  inferInstanceAs (Decidable (_ ≠ _))

namespace Consuming

/-- What the consumer knows of the memory where it is. -/
def Knows (inner : Inner w T) : Consuming w T → Prop
  | .loadSequence position => position = inner.dequeue
  | .storeDequeue position => position = inner.dequeue ∧ inner.Fresh size (size.index position)
  | .loadCancelled position | .loadBytes position _ | .readValue position _ _
  | .storeSequence position _ _ =>
    position + 1 = inner.dequeue ∧ inner.Fresh size (size.index position)
  | .drainedDequeue => inner.closed = true
  | .drainedEnqueue dequeue => dequeue = inner.dequeue ∧ inner.closed = true
  | _ => True

/-- What the consumer has read of the slot that it is popping. -/
def Reads (inner : Inner w T) : Consuming w T → Prop
  | .storeDequeue position | .loadCancelled position =>
    (inner.slot size position).sequence = position + 1
  | .loadBytes position cancelled | .readValue position _ cancelled =>
    (inner.slot size position).sequence = position + 1 ∧
      cancelled = (inner.slot size position).cancelled
  | .storeSequence position _ value =>
    (inner.slot size position).sequence = position + 1 ∧
      value = if (inner.slot size position).cancelled then none
        else some (inner.slot size position).value
  | _ => True

/-- What a step of the consumer can do. -/
inductive Move (inner : Inner w T) : Consuming w T → Operation w T → Consuming w T → Prop
  | quiet {stage stage' : Consuming w T} (taken : stage'.taken = stage.taken)
      (charged : stage'.charged size inner = stage.charged size inner)
      (knows : stage.Knows size inner → stage'.Knows size inner)
      (reads : stage.Reads size inner → stage'.Reads size inner)
      (closed : stage' = .idle (some .closed) → stage = .idle (some .closed) ∨
        ∃ dequeue, stage = .drainedEnqueue dequeue ∧ dequeue = inner.enqueue) :
      Move inner stage .quiet stage'
  | advance (position : BitVec w) :
      Move inner (.storeDequeue position) (.advance position) (.loadCancelled position)
  | release {stage' : Consuming w T} {position : BitVec w} {bytes : ℕ} {value : Option (Option T)}
      (taken' : stage'.taken = none) (charged' : ∀ inner, stage'.charged size inner = bytes)
      (knows' : ∀ inner, stage'.Knows size inner) (reads' : ∀ inner, stage'.Reads size inner)
      (closed' : stage' ≠ .idle (some .closed)) :
      Move inner (.storeSequence position bytes value) (.release position value) stage'
  | giveBack {stage stage' : Consuming w T} {bytes : ℕ} (gives : stage.givesBack = some bytes)
      (taken : stage.taken = none) (taken' : stage'.taken = none)
      (charged : ∀ inner, stage.charged size inner = bytes)
      (charged' : ∀ inner, stage'.charged size inner = 0)
      (knows' : ∀ inner, stage'.Knows size inner) (reads' : ∀ inner, stage'.Reads size inner)
      (closed' : stage' ≠ .idle (some .closed)) :
      Move inner stage (.subBytes bytes) stage'

variable {size} {inner : Inner w T}

theorem fresh_of_sequence {position : BitVec w}
    (sequence : (inner.slot size position).sequence = position + 1) :
    inner.Fresh size (size.index position) := by
  unfold Inner.Fresh
  rw [show (inner.ring (size.index position)).sequence = position + 1 from sequence, size.index_eq]
  exact Wrapping.succ_mod_ne size.dvd size.two_le position

theorem next_move (stage : Consuming w T) :
    Move size inner stage (stage.next size inner).1 (stage.next size inner).2 := by
  cases stage with
  | idle returned => exact .quiet rfl rfl id id .inl
  | loadDequeue => exact .quiet rfl rfl (fun _ => rfl) id nofun
  | loadSequence position =>
    unfold next
    dsimp only
    split_ifs with zero less
    · have sequence := Producing.sub_toInt_eq_zero zero
      exact .quiet rfl rfl (fun same => ⟨same, fresh_of_sequence sequence⟩) (fun _ => sequence) nofun
    · exact .quiet rfl rfl (fun _ => trivial) id nofun
    · exact .quiet rfl rfl (fun _ => trivial) id nofun
  | storeDequeue position => exact .advance position
  | loadCancelled position => exact .quiet rfl rfl id (fun sequence => ⟨sequence, rfl⟩) nofun
  | loadBytes position cancelled => exact .quiet rfl rfl id id nofun
  | readValue position bytes cancelled =>
    exact .quiet rfl rfl id (fun ⟨sequence, same⟩ => ⟨sequence, by rw [same]⟩) nofun
  | storeSequence position bytes value =>
    by_cases zero : bytes = 0
    · subst zero
      cases value <;>
        exact .release rfl (fun _ => rfl) (fun _ => trivial) (fun _ => trivial) nofun
    · rw [next, if_pos zero]
      exact .release rfl (fun _ => rfl) (fun _ => trivial) (fun _ => trivial) nofun
  | giveBack bytes value =>
    cases value <;>
      exact .giveBack rfl rfl rfl (fun _ => rfl) (fun _ => rfl) (fun _ => trivial) (fun _ => trivial)
        nofun
  | loadClosed =>
    unfold next
    cases closed : inner.closed with
    | true => exact .quiet rfl rfl (fun _ => closed) id nofun
    | false => exact .quiet rfl rfl id id nofun
  | drainedDequeue => exact .quiet rfl rfl (fun closed => ⟨rfl, closed⟩) id nofun
  | drainedEnqueue dequeue =>
    by_cases same : dequeue = inner.enqueue
    · rw [next, if_pos same]
      exact .quiet rfl rfl (fun _ => trivial) id fun _ => .inr ⟨dequeue, rfl, same⟩
    · rw [next, if_neg same]
      exact .quiet rfl rfl (fun _ => trivial) id nofun

theorem pop_move (stage : Consuming w T) : Move size inner stage .quiet stage.pop := by
  cases stage with
  | idle => exact .quiet rfl rfl id id nofun
  | _ => exact .quiet rfl rfl id id .inl

end Consuming

end BoundedQueue

/-! ### Actions -/

namespace TrackedQueue

open BoundedQueue

variable {w : ℕ} {T : Type*} {ι : Type*} [DecidableEq ι] (size : QueueSize w)

/-- The producer `p` makes an access. -/
def produced (t : TrackedQueue w T ι) (p : ι) (operation : Operation w T) (stage : Producing w T) :
    TrackedQueue w T ι where
  queue :=
    { t.queue with
      inner := t.queue.inner.apply size operation
      producers := update t.queue.producers p stage }
  history := t.history.produced p operation

/-- The consumer makes an access. -/
def consumed (t : TrackedQueue w T ι) (operation : Operation w T) (stage : Consuming w T) :
    TrackedQueue w T ι where
  queue := { t.queue with inner := t.queue.inner.apply size operation, consumer := stage }
  history := t.history.consumed operation

def close (t : TrackedQueue w T ι) : TrackedQueue w T ι :=
  { t with queue := { t.queue with inner := { t.queue.inner with closed := true } } }

/-- What an action is: a move of a producer or of the consumer, or the end of the queue. -/
inductive Step (t : TrackedQueue w T ι) : TrackedQueue w T ι → Prop
  | produced {p : ι} {operation : Operation w T} {stage : Producing w T}
      (move : Producing.Move size t.queue.inner (t.queue.producers p) operation stage) :
      Step t (t.produced size p operation stage)
  | consumed {operation : Operation w T} {stage : Consuming w T}
      (move : Consuming.Move size t.queue.inner t.queue.consumer operation stage) :
      Step t (t.consumed size operation stage)
  | close : Step t t.close

variable {size}

theorem step_act (t : TrackedQueue w T ι) (action : QueueAction T ι) : Step size t (t.act size action) := by
  cases action with
  | reserve p bytes => exact .produced (.quiet (Producing.quiet_reserve bytes _))
  | produce p spurious => exact .produced (Producing.next_move _ spurious)
  | publish p value => exact .produced (.quiet (Producing.quiet_publish value _))
  | drop p => exact .produced (.quiet (Producing.quiet_drop _))
  | pop => exact .consumed (Consuming.pop_move _)
  | consume => exact .consumed (Consuming.next_move _)
  | close => exact .close

/-- What holds at the start and is kept by every step holds in every run. -/
theorem invariant_run {P : TrackedQueue w T ι → Prop} (step : ∀ t t', P t → Step size t t' → P t')
    {t : TrackedQueue w T ι} (start : P t) (actions : List (QueueAction T ι)) :
    P (t.run size actions) := by
  induction actions generalizing t with
  | nil => exact start
  | cons action rest ih => exact ih (step _ _ start (step_act t action))

theorem sum_update [Fintype ι] {α : Type*} (f : α → ℕ) (g : ι → α) (p : ι) (x : α) :
    ∑ q, f (update g p x q) + f (g p) = ∑ q, f (g q) + f x := by
  have after := add_sum_erase Finset.univ (fun q => f (update g p x q))
    (mem_univ p)
  have before := add_sum_erase Finset.univ (fun q => f (g q)) (mem_univ p)
  have rest : ∑ q ∈ Finset.univ.erase p, f (update g p x q)
      = ∑ q ∈ Finset.univ.erase p, f (g q) :=
    sum_congr rfl fun q mem => by rw [update_of_ne (ne_of_mem_erase mem)]
  simp only [update_self] at after
  omega

end TrackedQueue

/-! ### The words and their numbers -/

namespace BoundedQueue

variable {w : ℕ} {T : Type*} {ι : Type*} {size : QueueSize w} {inner inner' : Inner w T}

/-- What a producer leaves of the memory to the consumer. -/
structure Inner.Keeps (size : QueueSize w) (inner inner' : Inner w T) : Prop where
  dequeue : inner'.dequeue = inner.dequeue
  closed : inner'.closed = inner.closed
  sequence : ∀ i, (inner'.ring i).sequence = (inner.ring i).sequence ∨ inner'.Fresh size i

theorem Inner.Keeps.fresh (keeps : Inner.Keeps size inner inner') {i : ℕ} (fresh : inner.Fresh size i) :
    inner'.Fresh size i := by
  rcases keeps.sequence i with same | fresh'
  · unfold Inner.Fresh at fresh ⊢
    rwa [same]
  · exact fresh'

section

variable (inner : Inner w T) (position : BitVec w)

theorem Inner.sequence_setSlot (slot : Slot w T) (i : ℕ) :
    ((inner.setSlot size position slot).ring i).sequence =
      if i = size.index position then slot.sequence else (inner.ring i).sequence := by
  unfold Inner.setSlot
  dsimp only
  split_ifs with here
  · rw [here, update_self]
  · rw [update_of_ne here]

theorem Inner.slot_write (store : Store T) (i : ℕ) :
    (inner.apply size (.write position store)).ring i =
      if i = size.index position then (inner.ring i).store store else inner.ring i := by
  refine (update_apply ..).trans ?_
  split_ifs with here
  · rw [here]
    rfl
  · rfl

theorem Inner.sequence_write (store : Store T) (i : ℕ) :
    ((inner.apply size (.write position store)).ring i).sequence = (inner.ring i).sequence := by
  rw [inner.slot_write]
  split_ifs
  · exact Slot.store_sequence _ _
  · rfl

theorem Inner.sequence_settle (value : Option T) (i : ℕ) :
    ((inner.apply size (.settle position value)).ring i).sequence =
      if i = size.index position then position + 1 else (inner.ring i).sequence :=
  inner.sequence_setSlot position _ i

theorem Inner.sequence_release (value : Option (Option T)) (i : ℕ) :
    ((inner.apply size (.release position value)).ring i).sequence =
      if i = size.index position then position + BitVec.ofNat w size.slots
      else (inner.ring i).sequence :=
  inner.sequence_setSlot position _ i

theorem Inner.fresh_settle_iff (value : Option T) (i : ℕ) :
    (inner.apply size (.settle position value)).Fresh size i ↔
      i = size.index position ∨ inner.Fresh size i := by
  rw [Inner.Fresh, Inner.sequence_settle]
  split_ifs with here
  · rw [here, size.index_eq]
    exact iff_of_true (Wrapping.succ_mod_ne size.dvd size.two_le position) (.inl rfl)
  · exact (or_iff_right here).symm

theorem Inner.fresh_release_iff (value : Option (Option T)) (i : ℕ) :
    (inner.apply size (.release position value)).Fresh size i ↔
      i ≠ size.index position ∧ inner.Fresh size i := by
  rw [Inner.Fresh, Inner.sequence_release]
  split_ifs with here
  · rw [here, size.index_eq, Wrapping.add_length_mod size.dvd]
    exact iff_of_false (fun ne => ne rfl) fun both => both.1 rfl
  · exact (and_iff_right here).symm

end

theorem Producing.Move.keeps {stage stage' : Producing w T} {operation : Operation w T}
    (move : Producing.Move size inner stage operation stage') :
    inner.Keeps size (inner.apply size operation) := by
  cases move with
  | quiet | load | charge | giveBack | claim => exact ⟨rfl, rfl, fun _ => .inl rfl⟩
  | @write _ _ position store =>
    exact ⟨rfl, rfl, fun i => .inl (inner.sequence_write position store i)⟩
  | @settle _ _ position value =>
    refine ⟨rfl, rfl, fun i => ?_⟩
    by_cases here : i = size.index position
    · exact .inr ((inner.fresh_settle_iff position value i).2 (.inl here))
    · exact .inl ((inner.sequence_settle position value i).trans (if_neg here))

theorem Producing.Move.enqueue {stage stage' : Producing w T} {operation : Operation w T}
    (move : Producing.Move size inner stage operation stage') {position : BitVec w}
    (claims : operation = .claim position) :
    inner.enqueue = position ∧ ∃ bytes, stage = .exchange bytes position := by
  cases move with
  | claim same =>
    cases claims
    exact ⟨same, _, rfl⟩
  | _ => cases claims

theorem Consuming.Knows.mono {stage : Consuming w T} (knows : stage.Knows size inner)
    (keeps : inner.Keeps size inner') : stage.Knows size inner' := by
  obtain ⟨dequeue, closed, -⟩ := id keeps
  cases stage <;> simp only [Consuming.Knows, dequeue, closed] at knows ⊢ <;>
    first
      | exact knows
      | exact ⟨knows.1, keeps.fresh knows.2⟩

end BoundedQueue

namespace TrackedQueue

open BoundedQueue

section Linked

variable {w : ℕ} {T : Type*} {ι : Type*} {size : QueueSize w} {t : TrackedQueue w T ι}

variable (size) in
/-- What a producer knows of the positions it has loaded or claimed. -/
structure StageLinked (h : QueueHistory T ι) (p : ι) (stage : Producing w T) : Prop where
  since_le : h.since p ≤ h.claims
  loaded : ∀ position, stage.loaded = some position →
    position = BitVec.ofNat w (h.loadedAt p) ∧ h.since p ≤ h.loadedAt p ∧ h.loadedAt p ≤ h.claims
  /-- Whoever is about to exchange saw the slot of its position free. -/
  exchange : ∀ bytes position, stage = .exchange bytes position →
    h.loadedAt p < h.releases + size.slots
  claimed : ∀ position, stage.claimed = some position →
    0 < h.since p ∧ position = BitVec.ofNat w (h.number p)

theorem StageLinked.mono {h h' : QueueHistory T ι} {p : ι} {stage : Producing w T}
    (linked : StageLinked size h p stage) (claims : h.claims ≤ h'.claims)
    (releases : h.releases ≤ h'.releases) (since : h'.since p = h.since p)
    (loadedAt : h'.loadedAt p = h.loadedAt p) : StageLinked size h' p stage where
  since_le := since ▸ linked.since_le.trans claims
  loaded position is := by
    obtain ⟨same, le, le'⟩ := linked.loaded position is
    rw [since, loadedAt]
    exact ⟨same, le, le'.trans claims⟩
  exchange bytes position is := by
    rw [loadedAt]
    exact (linked.exchange bytes position is).trans_le (Nat.add_le_add_right releases _)
  claimed position is := by
    unfold QueueHistory.number
    rw [since]
    exact linked.claimed position is

variable (size) in
/-- What the words of the memory stand for. -/
structure Linked (t : TrackedQueue w T ι) : Prop where
  enqueue : t.queue.inner.enqueue = BitVec.ofNat w t.history.claims
  dequeue : t.queue.inner.dequeue = BitVec.ofNat w t.history.advances
  advances : t.history.advances =
    t.history.releases + if t.queue.consumer.taken.isSome then 1 else 0
  knows : t.queue.consumer.Knows size t.queue.inner
  /-- A slot that no producer has settled since shows the position it is free for. -/
  free : ∀ n, t.history.releases ≤ n → n < t.history.releases + size.slots →
    ¬t.queue.inner.Fresh size (n % size.slots) →
      (t.queue.inner.ring (n % size.slots)).sequence = BitVec.ofNat w n
  stages : ∀ p, StageLinked size t.history p (t.queue.producers p)

theorem linked_new : Linked size (new w T ι) where
  enqueue := rfl
  dequeue := rfl
  advances := rfl
  knows := trivial
  free n _ below _ := by
    rw [Nat.mod_eq_of_lt (by simpa [new, QueueHistory.new] using below)]
    rfl
  stages _ := ⟨le_rfl, nofun, nofun, nofun⟩

/-- A producer that sees its slot free has loaded a position that is near. -/
theorem Linked.near (h : Linked size t) (within : t.history.claims < t.history.releases + 2 ^ w)
    {p : ι} {position : BitVec w} (loaded : (t.queue.producers p).loaded = some position)
    (sequence : (t.queue.inner.slot size position).sequence = position) :
    t.history.loadedAt p < t.history.releases + size.slots := by
  obtain ⟨rfl, -, le⟩ := (h.stages p).loaded position loaded
  obtain ⟨n, lower, upper, cell⟩ := Wrapping.exists_window t.history.releases
    (t.history.loadedAt p % size.slots) (Nat.mod_lt _ size.slots_pos)
  have sequence : (t.queue.inner.ring (n % size.slots)).sequence
      = BitVec.ofNat w (t.history.loadedAt p) := by
    rw [cell, ← size.index_ofNat]
    exact sequence
  have stale : ¬t.queue.inner.Fresh size (n % size.slots) := by
    unfold Inner.Fresh
    rw [not_not, sequence, Wrapping.toNat_mod size.dvd, cell]
  have same := (h.free n lower upper stale).symm.trans sequence
  by_contra far
  rcases Wrapping.eq_or_far (by omega) same with eq | more
  · omega
  · omega

theorem Linked.taken_eq (h : Linked size t) {position : BitVec w}
    (taken : t.queue.consumer.taken = some position) :
    position = BitVec.ofNat w t.history.releases ∧
      t.history.advances = t.history.releases + 1 ∧
      t.queue.inner.Fresh size (size.index position) := by
  have advances := h.advances
  rw [taken, Option.isSome_some, if_pos rfl] at advances
  obtain ⟨next, fresh⟩ : position + 1 = t.queue.inner.dequeue ∧
      t.queue.inner.Fresh size (size.index position) := by
    have knows := h.knows
    cases is : t.queue.consumer <;> rw [is] at taken knows <;> cases taken <;> exact knows
  rw [h.dequeue, advances, BitVec.ofNat_add] at next
  exact ⟨(BitVec.add_left_inj _).1 next, advances, fresh⟩

theorem Linked.consumed (h : Linked size t) {operation : Operation w T} {stage : Consuming w T}
    (move : Consuming.Move size t.queue.inner t.queue.consumer operation stage) :
    Linked size (t.consumed size operation stage) := by
  have advances := h.advances
  have knows := h.knows
  have taken_eq := @h.taken_eq
  generalize before : t.queue.consumer = stage₀ at move advances knows taken_eq
  cases move with
  | quiet taken _ knows' =>
    exact ⟨h.enqueue, h.dequeue, advances.trans (by rw [← taken]; rfl), knows' knows, h.free, h.stages⟩
  | advance position =>
    obtain ⟨same, fresh⟩ := knows
    refine ⟨h.enqueue, ?_, ?_, ⟨rfl, fresh⟩, h.free,
      fun p => (h.stages p).mono le_rfl le_rfl rfl rfl⟩
    · rw [show (t.consumed size (.advance position) _).queue.inner.dequeue = position + 1 from rfl,
        same, h.dequeue]
      exact (BitVec.ofNat_add _ _).symm
    · exact congrArg (· + 1) advances
  | @release _ position bytes value taken' _ knows' =>
    obtain ⟨rfl, eq, -⟩ := taken_eq rfl
    refine ⟨h.enqueue, h.dequeue, ?_, knows' _, fun n lower upper stale => ?_, fun p => ?_⟩
    · refine eq.trans ?_
      rw [show (t.consumed size _ stage).queue.consumer.taken = none from taken']
      rfl
    · have lower : t.history.releases + 1 ≤ n := lower
      have upper : n < t.history.releases + 1 + size.slots := upper
      refine (t.queue.inner.sequence_release _ value _).trans ?_
      rw [size.index_ofNat]
      by_cases last : n = t.history.releases + size.slots
      · rw [if_pos (by rw [last, Nat.add_mod_right]), last, BitVec.ofNat_add]
      · have other : n % size.slots ≠ t.history.releases % size.slots := fun same =>
          absurd (Wrapping.window_inj (by omega) (by omega) le_rfl
            (by have := size.slots_pos; omega) same) (by omega)
        rw [if_neg other]
        refine h.free n (by omega) (by omega) fun fresh => stale ?_
        exact (t.queue.inner.fresh_release_iff _ value _).2 ⟨by rwa [size.index_ofNat], fresh⟩
    · exact (h.stages p).mono le_rfl (Nat.le_succ _) rfl rfl
  | giveBack _ taken taken' _ _ knows' =>
    refine ⟨h.enqueue, h.dequeue, advances.trans ?_, knows' _, h.free, h.stages⟩
    rw [taken, show (t.consumed size _ stage).queue.consumer.taken = none from taken']
    rfl

theorem Linked.close (h : Linked size t) : Linked size t.close := by
  refine ⟨h.enqueue, h.dequeue, h.advances, ?_, h.free, h.stages⟩
  have knows := h.knows
  unfold TrackedQueue.close
  cases is : t.queue.consumer <;> rw [is] at knows <;>
    first
      | exact knows
      | exact ⟨knows.1, rfl⟩
      | rfl

end Linked

variable {w : ℕ} {T : Type*} {ι : Type*} [DecidableEq ι] {size : QueueSize w}
  {t : TrackedQueue w T ι}

theorem produced_eq (h : QueueHistory T ι) (p : ι) (operation : Operation w T) :
    (h.produced p operation).advances = h.advances ∧
      (h.produced p operation).releases = h.releases ∧
      h.claims ≤ (h.produced p operation).claims ∧
      ∀ q, q ≠ p → (h.produced p operation).since q = h.since q ∧
        (h.produced p operation).loadedAt q = h.loadedAt q := by
  cases operation with
  | loadEnqueue =>
    exact ⟨rfl, rfl, le_rfl, fun q other => ⟨rfl, update_of_ne other ..⟩⟩
  | claim =>
    exact ⟨rfl, rfl, Nat.le_succ _, fun q other => ⟨update_of_ne other .., rfl⟩⟩
  | _ => exact ⟨rfl, rfl, le_rfl, fun q _ => ⟨rfl, rfl⟩⟩

theorem Linked.stage (h : Linked size t) (within : t.history.claims < t.history.releases + 2 ^ w)
    {p : ι} {operation : Operation w T} {stage : Producing w T}
    (move : Producing.Move size t.queue.inner (t.queue.producers p) operation stage) :
    StageLinked size (t.history.produced p operation) p stage := by
  have linked := h.stages p
  generalize before : t.queue.producers p = stage₀ at move linked
  cases move with
  | quiet quiet =>
    refine ⟨linked.since_le, fun position is => linked.loaded position (quiet.loaded position is),
      fun bytes position is => ?_, fun position is => linked.claimed position (quiet.claimed ▸ is)⟩
    rcases quiet.exchange bytes position is with same | ⟨same, sequence⟩
    · exact linked.exchange bytes position same
    · exact h.near within (by rw [before, same]; rfl) sequence
  | load bytes =>
    refine ⟨linked.since_le, fun position is => ?_, nofun, nofun⟩
    cases is
    simp only [QueueHistory.produced, update_self]
    exact ⟨h.enqueue, linked.since_le, le_rfl⟩
  | charge => exact ⟨linked.since_le, nofun, nofun, nofun⟩
  | giveBack _ _ _ claimed loaded =>
    refine ⟨linked.since_le, fun position is => ?_, fun bytes position is => ?_,
      fun position is => linked.claimed position (claimed ▸ is)⟩
    · rw [loaded] at is
      cases is
    · rw [is] at loaded
      cases loaded
  | @claim bytes position same =>
    refine ⟨?_, nofun, nofun, fun position is => ?_⟩
    · simp [QueueHistory.produced]
    · cases is
      simp only [QueueHistory.produced, QueueHistory.number, update_self]
      exact ⟨Nat.succ_pos _, same.symm.trans h.enqueue⟩
  | write claimed claimed' _ loaded =>
    refine ⟨linked.since_le, fun position is => ?_, fun bytes position is => ?_,
      fun position is => linked.claimed position (claimed.trans (claimed'.symm.trans is))⟩
    · rw [loaded] at is
      cases is
    · rw [is] at loaded
      cases loaded
  | settle _ claimed' _ loaded =>
    refine ⟨linked.since_le, fun position is => ?_, fun bytes position is => ?_,
      fun position is => ?_⟩
    · rw [loaded] at is
      cases is
    · rw [is] at loaded
      cases loaded
    · rw [claimed'] at is
      cases is

theorem Linked.produced (h : Linked size t) (within : t.history.claims < t.history.releases + 2 ^ w)
    {p : ι} {operation : Operation w T} {stage : Producing w T}
    (move : Producing.Move size t.queue.inner (t.queue.producers p) operation stage) :
    Linked size (t.produced size p operation stage) := by
  have keeps := move.keeps
  have enqueue := @move.enqueue
  obtain ⟨advances, releases, claims, others⟩ := produced_eq t.history p operation
  constructor
  · cases operation with
    | claim position =>
      rw [show (t.produced size p (.claim position) stage).queue.inner.enqueue = position + 1 from rfl,
        ← (enqueue rfl).1, h.enqueue]
      exact (BitVec.ofNat_add _ _).symm
    | _ => exact h.enqueue
  · exact keeps.dequeue.trans (h.dequeue.trans (congrArg _ advances.symm))
  · exact (advances.trans h.advances).trans (by rw [← releases]; rfl)
  · exact h.knows.mono keeps
  · intro n lower upper stale
    rcases keeps.sequence (n % size.slots) with same | fresh
    · refine same.trans (h.free n (releases ▸ lower) (releases ▸ upper) fun fresh => ?_)
      exact stale (keeps.fresh fresh)
    · exact absurd fresh stale
  · intro q
    by_cases other : q = p
    · subst other
      rw [show (t.produced size q operation stage).queue.producers q = stage from
        update_self ..]
      exact h.stage within move
    · rw [show (t.produced size p operation stage).queue.producers q = t.queue.producers q from
        update_of_ne other ..]
      exact (h.stages q).mono claims releases.ge (others q other).1 (others q other).2

end TrackedQueue

end Eventd
