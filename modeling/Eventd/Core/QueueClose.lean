import Eventd.Core.QueueSteps

/-!
# The end of the queue

Once `pop` has returned `Closed`, no permit is left and none is handed out any more, and no value
remains in the ring.  This needs no care about positions that wrap around while a producer stands
still: every position that is claimed is settled once, and the consumer passes no more slots than
were settled, so when it has passed as many positions as were claimed nobody has one.

* `TrackedQueue.Counted`: claims, settled positions and released ones;
* `Counted.within`: fewer than `2 ^ w` positions are claimed and not released;
* `BoundedQueue.Ended`: what holds from the moment `pop` returns `Closed`;
* `close_is_final`.
-/

namespace Eventd

open Finset Function BoundedQueue

/-! ### Counting -/

namespace TrackedQueue

variable {w : ℕ} {T : Type*} {ι : Type*} {size : QueueSize w} {t t' : TrackedQueue w T ι}

variable (size) in
/-- How many slots were settled and not released. -/
def freshSlots (inner : Inner w T) : Finset ℕ :=
  (Finset.range size.slots).filter fun i => inner.Fresh size i

/-- One for a producer that has a position to settle. -/
def outstanding (stage : Producing w T) : ℕ := if stage.claimed.isSome then 1 else 0

variable [Fintype ι]

variable (size) in
structure Counted (t : TrackedQueue w T ι) : Prop where
  linked : Linked size t
  /-- A position that was claimed although its slot was not free was the last claim of somebody. -/
  beyond : ∀ n, t.history.releases + size.slots ≤ n → n < t.history.claims →
    ∃ p, t.history.since p = n + 1
  fresh : t.history.releases + (freshSlots size t.queue.inner).card ≤ t.history.settles
  settles : t.history.settles + ∑ p, outstanding (t.queue.producers p) = t.history.claims

theorem counted_new : Counted size (new w T ι) where
  linked := linked_new
  beyond _ _ less := absurd less (Nat.not_lt_zero _)
  fresh := by
    have none : freshSlots size (new w T ι).queue.inner = ∅ := by
      refine filter_eq_empty_iff.2 fun i mem fresh => fresh ?_
      have below := mem_range.1 mem
      exact (Wrapping.toNat_mod size.dvd i).trans (Nat.mod_eq_of_lt below)
    rw [none]
    rfl
  settles := by
    have none : ∑ p, outstanding ((new w T ι).queue.producers p) = 0 :=
      sum_eq_zero fun _ _ => rfl
    rw [none]
    rfl

/-- Every claim beyond the slots belongs to a producer of its own. -/
theorem Counted.claims_le (h : Counted size t) :
    t.history.claims ≤ t.history.releases + size.slots + Fintype.card ι := by
  have covered : Finset.Ico (t.history.releases + size.slots) t.history.claims ⊆
      Finset.univ.image fun p => t.history.number p := by
    intro n mem
    obtain ⟨lower, upper⟩ := mem_Ico.1 mem
    obtain ⟨p, is⟩ := h.beyond n lower upper
    refine mem_image.2 ⟨p, mem_univ p, ?_⟩
    rw [QueueHistory.number, is, Nat.add_sub_cancel]
  have card := (card_le_card covered).trans card_image_le
  rw [Nat.card_Ico, card_univ] at card
  omega

theorem Counted.within (h : Counted size t) (few : size.slots + Fintype.card ι < 2 ^ w) :
    t.history.claims < t.history.releases + 2 ^ w := by
  have := h.claims_le
  omega

omit [Fintype ι] in
theorem freshSlots_congr {inner inner' : Inner w T}
    (same : ∀ i, (inner'.ring i).sequence = (inner.ring i).sequence) :
    freshSlots size inner' = freshSlots size inner :=
  filter_congr fun i _ => by rw [Inner.Fresh, Inner.Fresh, same i]

theorem Counted.consumed (h : Counted size t) {operation : Operation w T} {stage : Consuming w T}
    (move : Consuming.Move size t.queue.inner t.queue.consumer operation stage) :
    Counted size (t.consumed size operation stage) := by
  have linked := h.linked.consumed move
  have taken := @Linked.taken_eq _ _ _ _ _ h.linked
  generalize t.queue.consumer = stage₀ at move taken
  cases move with
  | quiet | advance | giveBack => exact ⟨linked, h.beyond, h.fresh, h.settles⟩
  | @release _ position bytes value =>
    obtain ⟨-, -, fresh⟩ := taken rfl
    refine ⟨linked, fun n lower => h.beyond n (by have : _ + 1 + _ ≤ n := lower; omega), ?_, h.settles⟩
    have mem : size.index position ∈ freshSlots size t.queue.inner :=
      mem_filter.2 ⟨mem_range.2 (size.index_lt position), fresh⟩
    have covered : freshSlots size (t.queue.inner.apply size (.release position value)) ⊆
        (freshSlots size t.queue.inner).erase (size.index position) := by
      intro i mem
      obtain ⟨below, fresh⟩ := mem_filter.1 mem
      obtain ⟨other, old⟩ := (t.queue.inner.fresh_release_iff position value i).1 fresh
      exact mem_erase.2 ⟨other, mem_filter.2 ⟨below, old⟩⟩
    have card := card_le_card covered
    rw [card_erase_of_mem mem] at card
    have pos := card_pos.2 ⟨_, mem⟩
    have old := h.fresh
    show t.history.releases + 1 + (freshSlots size (t.queue.inner.apply size (.release position value))).card
      ≤ t.history.settles
    omega

/-- As many positions passed as claimed: nobody has one, and every slot is free. -/
theorem Counted.drained (h : Counted size t) (few : size.slots + Fintype.card ι < 2 ^ w)
    (idle : t.queue.consumer.taken = none) (same : t.queue.inner.dequeue = t.queue.inner.enqueue) :
    (∀ p, (t.queue.producers p).claimed = none) ∧
      ∀ i < size.slots, ¬t.queue.inner.Fresh size i := by
  have advances := h.linked.advances
  rw [idle, Option.isSome_none, if_neg Bool.false_ne_true, Nat.add_zero] at advances
  rw [h.linked.dequeue, h.linked.enqueue, advances] at same
  have fresh := h.fresh
  have settles := h.settles
  have eq := Wrapping.eq_of_ofNat_eq (by omega) (h.within few) same
  have nobody : ∑ p, outstanding (t.queue.producers p) = 0 := by omega
  have none : (freshSlots size t.queue.inner).card = 0 := by omega
  refine ⟨fun p => ?_, fun i below => ?_⟩
  · have zero := sum_eq_zero_iff.1 nobody p (mem_univ p)
    cases is : (t.queue.producers p).claimed with
    | none => rfl
    | some position => simp [outstanding, is] at zero
  · exact filter_eq_empty_iff.1 (card_eq_zero.1 none) (mem_range.2 below)

variable [DecidableEq ι]

variable {p : ι} {operation : Operation w T} {stage : Producing w T}

/-- A producer settles at most the slot that it accounts for. -/
theorem Counted.fresh_produced (h : Counted size t)
    (move : Producing.Move size t.queue.inner (t.queue.producers p) operation stage) :
    t.history.releases + (freshSlots size (t.queue.inner.apply size operation)).card ≤
      (t.history.produced p operation).settles := by
  have fresh := h.fresh
  cases operation with
  | settle position value =>
    have covered : freshSlots size (t.queue.inner.apply size (.settle position value)) ⊆
        insert (size.index position) (freshSlots size t.queue.inner) := by
      intro i mem
      obtain ⟨below, fresh⟩ := mem_filter.1 mem
      exact mem_insert.2 (((t.queue.inner.fresh_settle_iff position value i).1 fresh).imp_right
        fun old => mem_filter.2 ⟨below, old⟩)
    have card := (card_le_card covered).trans (card_insert_le _ _)
    calc t.history.releases + _ ≤ t.history.releases + ((freshSlots size t.queue.inner).card + 1) :=
          Nat.add_le_add_left card _
      _ ≤ t.history.settles + 1 := by omega
  | write position store =>
    rw [freshSlots_congr (t.queue.inner.sequence_write position store)]
    exact fresh
  | advance | release =>
    generalize t.queue.producers p = stage₀ at move
    nomatch move
  | _ => exact fresh

/-- Whoever claims a position has to settle it, and nobody else. -/
theorem Counted.settles_produced (h : Counted size t)
    (move : Producing.Move size t.queue.inner (t.queue.producers p) operation stage) :
    (t.history.produced p operation).settles +
        ∑ q, outstanding (update t.queue.producers p stage q) =
      (t.history.produced p operation).claims := by
  have settles := h.settles
  have sum := sum_update outstanding t.queue.producers p stage
  generalize t.queue.producers p = stage₀ at move sum
  cases move with
  | quiet quiet =>
    rw [show outstanding stage = outstanding stage₀ by rw [outstanding, quiet.claimed]; rfl] at sum
    simp only [QueueHistory.produced]
    omega
  | load | charge =>
    simp only [QueueHistory.produced]
    exact (congrArg _ (Nat.add_right_cancel sum)).trans settles
  | giveBack _ _ _ claimed =>
    rw [show outstanding stage = outstanding stage₀ by rw [outstanding, claimed]; rfl] at sum
    simp only [QueueHistory.produced]
    omega
  | claim =>
    rw [show outstanding (.recheck _ _ : Producing w T) = 1 from rfl,
      show outstanding (.exchange _ _ : Producing w T) = 0 from rfl] at sum
    simp only [QueueHistory.produced]
    omega
  | write claimed claimed' =>
    rw [show outstanding stage = outstanding stage₀ by rw [outstanding, outstanding, claimed, claimed']]
      at sum
    simp only [QueueHistory.produced]
    omega
  | settle claimed claimed' =>
    rw [show outstanding stage = 0 by rw [outstanding, claimed']; rfl,
      show outstanding stage₀ = 1 by rw [outstanding, claimed]; rfl] at sum
    simp only [QueueHistory.produced]
    omega

section

variable (h : Counted size t) (few : size.slots + Fintype.card ι < 2 ^ w)
include h few

/-- A claim beyond the slots takes `2 ^ w` claims since the load, so that its producer had no other
claim among those. -/
theorem Counted.beyond_produced
    (move : Producing.Move size t.queue.inner (t.queue.producers p) operation stage) (n : ℕ)
    (lower : t.history.releases + size.slots ≤ n)
    (upper : n < (t.history.produced p operation).claims) :
    ∃ q, (t.history.produced p operation).since q = n + 1 := by
  have within := h.within few
  have linked := h.linked.stages p
  generalize t.queue.producers p = stage₀ at move linked
  cases move with
  | @claim bytes position same =>
    have near := linked.exchange bytes position rfl
    obtain ⟨word, since, le⟩ := linked.loaded position rfl
    simp only [QueueHistory.produced] at upper ⊢
    have words := word.symm.trans (same.symm.trans h.linked.enqueue)
    rcases Nat.lt_succ_iff_lt_or_eq.1 upper with old | rfl
    · obtain ⟨q, is⟩ := h.beyond n lower old
      refine ⟨q, ?_⟩
      by_cases own : q = p
      · subst own
        rcases Wrapping.eq_or_far le words with eq | far <;> omega
      · rw [update_of_ne own, is]
    · exact ⟨p, update_self ..⟩
  | _ => exact h.beyond n lower upper

theorem Counted.produced
    (move : Producing.Move size t.queue.inner (t.queue.producers p) operation stage) :
    Counted size (t.produced size p operation stage) := by
  have releases := (produced_eq t.history p operation).2.1
  constructor
  · exact h.linked.produced (h.within few) move
  · intro n lower upper
    exact h.beyond_produced few move n (releases ▸ lower) upper
  · exact releases ▸ h.fresh_produced move
  · exact h.settles_produced move

theorem Counted.step (step : Step size t t') : Counted size t' := by
  cases step with
  | produced move => exact h.produced few move
  | consumed move => exact h.consumed move
  | close => exact ⟨h.linked.close, h.beyond, h.fresh, h.settles⟩

end

end TrackedQueue

/-! ### After the end -/

namespace BoundedQueue

variable {w : ℕ} {T : Type*} {ι : Type*} {size : QueueSize w}

variable (size) in
/-- The queue is closed, and whoever still works on a slot cancels it. -/
structure Ended (q : BoundedQueue w T ι) : Prop where
  closed : q.inner.closed = true
  permits : ∀ p, (q.producers p).hasPermit = false
  wrote : ∀ p position, (q.producers p).claimed = some position →
    (q.producers p).Wrote (q.inner.slot size position)
  cancelled : ∀ i < size.slots, q.inner.Fresh size i → (q.inner.ring i).cancelled = true

/-- Those who cancel agree about what they store. -/
theorem Producing.Wrote.store {stage : Producing w T} {slot : Slot w T} {store : Store T}
    (wrote : stage.Wrote slot) (permit : stage.hasPermit = false)
    (cancels : store = .bytes 0 ∨ store = .cancelled true) : stage.Wrote (slot.store store) := by
  rcases cancels with rfl | rfl <;> cases stage <;> cases permit <;>
    simp_all [Producing.Wrote, Slot.store]

end BoundedQueue

namespace TrackedQueue

variable {w : ℕ} {T : Type*} {ι : Type*} [DecidableEq ι] {size : QueueSize w}
  {t t' : TrackedQueue w T ι}

/-- What the producers know of their slots, when one of them goes on. -/
theorem ended_produced (ended : t.queue.Ended size) {p : ι} {operation : Operation w T}
    {stage : Producing w T} (permit : stage.hasPermit = false)
    (closed : (t.queue.inner.apply size operation).closed = t.queue.inner.closed)
    (own : ∀ position, stage.claimed = some position →
      stage.Wrote ((t.queue.inner.apply size operation).slot size position))
    (others : ∀ q i, (t.queue.producers q).Wrote (t.queue.inner.ring i) →
      (t.queue.producers q).Wrote ((t.queue.inner.apply size operation).ring i))
    (cancelled : ∀ i < size.slots, (t.queue.inner.apply size operation).Fresh size i →
      ((t.queue.inner.apply size operation).ring i).cancelled = true) :
    (t.produced size p operation stage).queue.Ended size := by
  have at_p : (t.produced size p operation stage).queue.producers p = stage :=
    update_self ..
  have at_other {q : ι} (other : q ≠ p) :
      (t.produced size p operation stage).queue.producers q = t.queue.producers q :=
    update_of_ne other ..
  refine ⟨closed.trans ended.closed, fun q => ?_, fun q position is => ?_, cancelled⟩
  · by_cases other : q = p
    · rw [other, at_p]
      exact permit
    · rw [at_other other]
      exact ended.permits q
  · by_cases other : q = p
    · rw [other, at_p] at is ⊢
      exact own position is
    · rw [at_other other] at is ⊢
      exact others q _ (ended.wrote q position is)

theorem ended_step (ended : t.queue.Ended size) (step : Step size t t') : t'.queue.Ended size := by
  cases step with
  | close => exact ⟨rfl, ended.permits, ended.wrote, ended.cancelled⟩
  | @consumed operation stage move =>
    generalize t.queue.consumer = stage₀ at move
    cases move with
    | quiet | advance | giveBack =>
      exact ⟨ended.closed, ended.permits, ended.wrote, ended.cancelled⟩
    | @release _ position bytes value =>
      refine ⟨ended.closed, ended.permits, fun q position' is => ?_, fun i below fresh => ?_⟩
      · have wrote := ended.wrote q position' is
        unfold Inner.slot at wrote ⊢
        rw [show (t.consumed size (.release position value) stage).queue.inner.ring _ = _ from
          update_apply ..]
        split_ifs with here
        · rw [here] at wrote
          exact (Producing.wrote_sequence _ _ _).2 wrote
        · exact wrote
      · obtain ⟨other, fresh⟩ := (t.queue.inner.fresh_release_iff position value i).1 fresh
        rw [show (t.consumed size (.release position value) stage).queue.inner.ring i = _ from
          update_of_ne other ..]
        exact ended.cancelled i below fresh
  | @produced p operation stage move =>
    have permit₀ := ended.permits p
    have wrote₀ := ended.wrote p
    generalize t.queue.producers p = stage₀ at move permit₀ wrote₀
    cases move with
    | quiet quiet =>
      refine ended_produced ended ?_ rfl (fun position is =>
        quiet.wrote _ (wrote₀ position (quiet.claimed ▸ is))) (fun _ _ => id) ended.cancelled
      by_contra permit
      rcases quiet.permit (by simpa using permit) with before | closed
      · rw [permit₀] at before
        cases before
      · rw [ended.closed] at closed
        cases closed
    | load | charge | claim =>
      exact ended_produced ended rfl rfl (fun _ _ => trivial) (fun _ _ => id) ended.cancelled
    | giveBack _ _ _ claimed _ permit wrote =>
      exact ended_produced ended permit rfl (fun position is =>
        wrote _ (wrote₀ position (claimed ▸ is))) (fun _ _ => id) ended.cancelled
    | @write _ _ position store claimed claimed' _ _ permit cancels wrote =>
      have cancels := cancels permit₀
      refine ended_produced ended (permit.trans permit₀) rfl (fun position' is => ?_)
        (fun q i old => ?_) fun i below fresh => ?_
      · obtain rfl : position = position' := Option.some.inj (claimed'.symm.trans is)
        unfold Inner.slot
        rw [t.queue.inner.slot_write, if_pos rfl]
        exact wrote _ (wrote₀ position claimed)
      · rw [t.queue.inner.slot_write]
        split_ifs
        · exact old.store (ended.permits q) cancels
        · exact old
      · have old : t.queue.inner.Fresh size i := by
          unfold Inner.Fresh at fresh ⊢
          rwa [t.queue.inner.sequence_write] at fresh
        have old := ended.cancelled i below old
        rw [t.queue.inner.slot_write]
        split_ifs
        · rcases cancels with rfl | rfl
          · exact old
          · rfl
        · exact old
    | @settle _ _ position value claimed claimed' _ _ permit publishes wrote =>
      have none : value.isNone = true := by
        cases value with
        | none => rfl
        | some => cases permit₀.symm.trans (publishes rfl)
      refine ended_produced ended permit rfl (fun position' is => ?_) (fun q i old => ?_)
        fun i below fresh => ?_
      · rw [claimed'] at is
        cases is
      · rw [show (t.queue.inner.apply size (.settle position value)).ring i = _ from
          update_apply ..]
        split_ifs with here
        · rw [here] at old
          exact (Producing.wrote_sequence _ _ _).2 old
        · exact old
      · by_cases here : i = size.index position
        · rw [here, show (t.queue.inner.apply size (.settle position value)).ring (size.index position)
            = _ from update_self ..]
          exact (wrote _ (wrote₀ position claimed)).2.1.trans none
        · rw [show (t.queue.inner.apply size (.settle position value)).ring i = _ from
            update_of_ne here ..]
          exact ended.cancelled i below
            (((t.queue.inner.fresh_settle_iff position value i).1 fresh).resolve_left here)

variable [Fintype ι]

variable (size) in
/-- What every run keeps: when `pop` has returned `Closed`, the queue has ended. -/
structure Closes (t : TrackedQueue w T ι) : Prop where
  counted : Counted size t
  ended : t.queue.consumer = .idle (some .closed) → t.queue.Ended size

theorem closes_step (few : size.slots + Fintype.card ι < 2 ^ w) (h : Closes size t)
    (step : Step size t t') : Closes size t' := by
  refine ⟨h.counted.step few step, fun closed => ?_⟩
  by_cases before : t.queue.consumer = .idle (some .closed)
  · exact ended_step (h.ended before) step
  · cases step with
    | produced | close => exact absurd closed before
    | consumed move =>
      have knows := h.counted.linked.knows
      have drained := h.counted.drained few
      generalize is : t.queue.consumer = stage₀ at move knows drained before
      cases move with
      | quiet _ _ _ _ last =>
        rcases last closed with same | ⟨dequeue, rfl, same⟩
        · exact absurd same before
        · obtain ⟨dequeue_eq, isClosed⟩ := knows
          obtain ⟨nobody, free⟩ := drained rfl (dequeue_eq.symm.trans same)
          refine ⟨isClosed, fun p => ?_, fun p position is => ?_, fun i below fresh =>
            absurd fresh (free i below)⟩
          · have none := nobody p
            show (t.queue.producers p).hasPermit = false
            cases stage : t.queue.producers p <;> rw [stage] at none <;> first | rfl | cases none
          · cases (nobody p).symm.trans is
      | advance => cases closed
      | release _ _ _ _ closed' | giveBack _ _ _ _ _ _ _ closed' => exact absurd closed closed'

end TrackedQueue

variable {w : ℕ} {T : Type*} {ι : Type*} [DecidableEq ι] [Fintype ι]

/-- **Close is final.**  From the moment `pop` has returned `Closed`, whatever happens before and
after, no producer has a permit, and what the ring holds is cancelled.  The slots and the producers
lie in one address space. -/
theorem close_is_final (size : QueueSize w) (few : size.slots + Fintype.card ι < 2 ^ w)
    (before after : List (QueueAction T ι))
    (closed : ((BoundedQueue.new w T ι).run size before).consumer = .idle (some .closed)) :
    let q := (BoundedQueue.new w T ι).run size (before ++ after)
    (∀ p, (q.producers p).hasPermit = false) ∧ ∀ slot ∈ q.unpopped size, slot.cancelled = true := by
  intro q
  have start : ((TrackedQueue.new w T ι).run size before).queue.Ended size := by
    refine (TrackedQueue.invariant_run (fun _ _ => TrackedQueue.closes_step few)
      ⟨TrackedQueue.counted_new, nofun⟩ before).ended ?_
    rw [TrackedQueue.queue_run]
    exact closed
  have ended : q.Ended size := by
    have later := TrackedQueue.invariant_run
      (fun _ _ => @TrackedQueue.ended_step w T ι _ size _ _) start after
    rw [TrackedQueue.queue_run, TrackedQueue.queue_run] at later
    rwa [show q = ((BoundedQueue.new w T ι).run size before).run size after from List.foldl_append]
  refine ⟨ended.permits, fun slot mem => ?_⟩
  obtain ⟨position, shows, rfl⟩ := List.mem_map.1 mem
  have sequence : (q.inner.slot size position).sequence = position + 1 := by
    simpa using (List.mem_filter.1 shows).2
  exact ended.cancelled _ (size.index_lt position) (Consuming.fresh_of_sequence sequence)

/-- A producer looks at `closed`, then the queue is closed and `pop` returns `Closed`. -/
def closedInBetween (producer : Fin 2) : List (QueueAction ℕ (Fin 2)) :=
  [.reserve producer 1, .produce producer false, .close, .pop] ++ List.replicate 5 .consume

theorem close_is_final_inBetween :
    let q := (BoundedQueue.new 64 ℕ (Fin 2)).run twoSlots
      (closedInBetween 0 ++ List.replicate 5 (.produce 0 false))
    (∀ p, (q.producers p).hasPermit = false) ∧
      ∀ slot ∈ q.unpopped twoSlots, slot.cancelled = true :=
  close_is_final twoSlots (by decide) (closedInBetween 0) _ rfl

end Eventd
