import Eventd.Core.QueueRuns

/-!
# Delivery by the queue

In runs with timely exchanges every position is settled once, and the consumer gets what was settled
position by position, in the order in which the positions were claimed.

* `BoundedQueue.returns`: the values that calls of `pop` return;
* `TrackedQueue.Recorded`: each position has at most one outcome;
* `TrackedQueue.Recorded.progress`: a settled position is popped, whatever the producers do;
* `delivered_once_in_order`;
* `delivered_twice`: what happens when a position comes round.
-/

namespace Eventd

open Function List BoundedQueue

/-! ### What calls of `pop` return -/

namespace BoundedQueue

variable {w : ℕ} {T : Type*} {ι : Type*}

namespace Consuming

/-- The value that the last call has returned. -/
def item : Consuming w T → Option (Option T)
  | .idle (some (.item value)) => some value
  | _ => none

/-- The value that the call under way returns after its next step. -/
def pending : Consuming w T → Option (Option T)
  | .giveBack _ value => value
  | _ => none

/-- The steps of a call up to the release of a slot that is settled. -/
def ahead : Consuming w T → Option ℕ
  | .loadDequeue => some 7
  | .loadSequence _ => some 6
  | .storeDequeue _ => some 5
  | .loadCancelled _ => some 4
  | .loadBytes _ _ => some 3
  | .readValue _ _ _ => some 2
  | .storeSequence _ _ _ => some 1
  | _ => none

end Consuming

/-- The value of the slot that an access releases. -/
def Operation.popped : Operation w T → Option (Option T)
  | .release _ value => value
  | _ => none

theorem Consuming.next_returns {size : QueueSize w} {inner : Inner w T} (stage : Consuming w T) :
    stage.pending.toList ++ (stage.next size inner).1.popped.toList =
      (if stage.item.isNone then (stage.next size inner).2.item else none).toList ++
        (stage.next size inner).2.pending.toList := by
  cases stage with
  | idle last => cases last with
    | none => rfl
    | some last => cases last <;> rfl
  | loadSequence position =>
    simp only [next]
    split_ifs <;> rfl
  | storeSequence position bytes value =>
    -- without bytes to give back the value is returned at once
    by_cases carried : bytes = 0 <;> cases value <;>
      simp [next, finish, item, pending, Operation.popped, carried]
  | giveBack bytes value => cases value <;> rfl
  | loadClosed | drainedEnqueue dequeue =>
    simp only [next]
    split_ifs <;> rfl
  | _ => rfl

variable [DecidableEq ι] (size : QueueSize w)

/-- The value that a call of `pop` returns with a step. -/
def returned (q : BoundedQueue w T ι) (action : QueueAction T ι) : Option (Option T) :=
  if q.consumer.item.isNone then (q.act size action).consumer.item else none

/-- The values that calls of `pop` return in a run. -/
def returns (q : BoundedQueue w T ι) : List (QueueAction T ι) → List (Option T)
  | [] => []
  | action :: rest => (q.returned size action).toList ++ returns (q.act size action) rest

variable {size} {q : BoundedQueue w T ι}

theorem returns_append (q : BoundedQueue w T ι) (first second : List (QueueAction T ι)) :
    q.returns size (first ++ second) = q.returns size first ++ (q.run size first).returns size second := by
  induction first generalizing q with
  | nil => rfl
  | cons action rest ih =>
    rw [cons_append, returns, returns, ih, append_assoc]
    rfl

theorem returned_same {action : QueueAction T ι}
    (same : (q.act size action).consumer = q.consumer) : q.returned size action = none := by
  rw [returned, same]
  cases q.consumer.item <;> rfl

end BoundedQueue

/-- The step is one of the consumer. -/
def QueueAction.isConsume {T ι : Type*} : QueueAction T ι → Bool
  | .consume => true
  | _ => false

namespace TrackedQueue

variable {w : ℕ} {T : Type*} {ι : Type*} {size : QueueSize w} {t : TrackedQueue w T ι}

variable (size) in
/-- What the record says of the positions. -/
structure Recorded (t : TrackedQueue w T ι) : Prop where
  exact : Exact size t
  /-- A position with an outcome was claimed, and its owner has let it go. -/
  once : ∀ n, t.history.outcome n ≠ none → n < t.history.claims ∧
    ∀ p, (t.queue.producers p).claimed ≠ none → t.history.number p ≠ n
  done : ∀ n < t.history.releases, t.history.outcome n ≠ none

theorem recorded_new : Recorded size (new w T ι) where
  exact := exact_new
  once _ some := absurd rfl some
  done _ less := absurd less (Nat.not_lt_zero _)

namespace Recorded

theorem stays (h : Recorded size t) {t' : TrackedQueue w T ι} (exact : Exact size t')
    (claimed : ∀ p, (t'.queue.producers p).claimed = (t.queue.producers p).claimed)
    (history : ∃ advances loadedAt,
      t'.history = { t.history with advances := advances, loadedAt := loadedAt }) :
    Recorded size t' := by
  obtain ⟨queue, history'⟩ := t'
  obtain ⟨advances, loadedAt, is⟩ := history
  subst is
  exact ⟨exact, fun n some => ⟨(h.once n some).1, fun p hp => (h.once n some).2 p (claimed p ▸ hp)⟩,
    h.done⟩

section Produced

variable [DecidableEq ι] {p : ι} {operation : Operation w T} {stage : Producing w T}

theorem claimed_produced (claimed : stage.claimed = (t.queue.producers p).claimed) (q : ι) :
    ((t.produced size p operation stage).queue.producers q).claimed =
      (t.queue.producers q).claimed := by
  by_cases other : q = p
  · rw [other, Exact.producers_self, claimed]
  · rw [Exact.producers_other other]

theorem produced (h : Recorded size t)
    (timely : ∀ position, operation = .claim position →
      t.history.claims < t.history.loadedAt p + 2 ^ w)
    (move : Producing.Move size t.queue.inner (t.queue.producers p) operation stage) :
    Recorded size (t.produced size p operation stage) := by
  have exact := h.exact.produced timely move
  generalize before : t.queue.producers p = stage₀ at move
  cases move with
  | quiet quiet =>
    exact h.stays exact (claimed_produced (quiet.claimed.trans (by rw [before])))
      ⟨_, _, rfl⟩
  | load | charge =>
    exact h.stays exact (claimed_produced (by rw [before]; rfl)) ⟨_, _, rfl⟩
  | giveBack _ _ _ claimed =>
    exact h.stays exact (claimed_produced (claimed.trans (by rw [before]))) ⟨_, _, rfl⟩
  | write claimed claimed' =>
    exact h.stays exact (claimed_produced (claimed'.trans (by rw [before, claimed])))
      ⟨_, _, rfl⟩
  | @claim bytes position =>
    refine ⟨exact, fun n some => ?_, h.done⟩
    obtain ⟨below, others⟩ := h.once n some
    refine ⟨below.trans (Nat.lt_succ_self _), fun q hq => ?_⟩
    unfold QueueHistory.number
    by_cases other : q = p
    · rw [other, show (t.produced size p (.claim position) (.recheck bytes position)).history.since p
        = _ from update_self ..]
      exact below.ne'
    · rw [show (t.produced size p (.claim position) (.recheck bytes position)).history.since q
        = _ from update_of_ne other ..]
      rw [Exact.producers_other other] at hq
      exact others q hq
  | @settle _ _ position value claimed claimed' =>
    have hp : (t.queue.producers p).claimed ≠ none := by rw [before, claimed]; nofun
    have outcome : (t.produced size p (.settle position value) stage).history.outcome =
        update t.history.outcome (t.history.number p) (some value) := rfl
    refine ⟨exact, fun n some => ?_, fun n below => ?_⟩
    · by_cases this : n = t.history.number p
      · rw [this]
        refine ⟨h.exact.number_lt hp, fun q hq => ?_⟩
        obtain ⟨other, hq⟩ := Exact.owner_produced claimed' hq
        exact (h.exact.number_inj hp hq other).symm
      · rw [outcome, update_of_ne this] at some
        obtain ⟨below, others⟩ := h.once n some
        exact ⟨below, fun q hq => others q (Exact.owner_produced claimed' hq).2⟩
    · rw [outcome]
      by_cases this : n = t.history.number p
      · rw [this, update_self]
        nofun
      · rw [update_of_ne this]
        exact h.done n below

end Produced

section

variable (h : Recorded size t)
include h

theorem consumed {operation : Operation w T} {stage : Consuming w T}
    (move : Consuming.Move size t.queue.inner t.queue.consumer operation stage) :
    Recorded size (t.consumed size operation stage) := by
  have exact := h.exact.consumed move
  generalize before : t.queue.consumer = stage₀ at move
  cases move with
  | quiet | advance | giveBack => exact h.stays exact (fun _ => rfl) ⟨_, _, rfl⟩
  | @release _ position bytes value =>
    have taken : t.queue.consumer.taken = some position := by rw [before]; rfl
    have fresh := (h.exact.fresh_popping (.inr taken)).2
    have advances := (h.exact.linked.taken_eq taken).2.1
    have advances_le := h.exact.advances_le
    refine ⟨exact, h.once, fun n below => ?_⟩
    rcases Nat.lt_succ_iff_lt_or_eq.1 below with old | rfl
    · exact h.done n old
    · obtain ⟨-, outcome, is, -⟩ := h.exact.settled t.history.releases le_rfl (by omega)
        fun p hp => h.exact.number_ne hp fresh
      show t.history.outcome t.history.releases ≠ none
      rw [is]
      nofun

theorem act [DecidableEq ι] {action : QueueAction T ι} (timely : t.Timely action) :
    Recorded size (t.act size action) :=
  timely.act h.produced h.consumed (h.stays h.exact.close (fun _ => rfl) ⟨_, _, rfl⟩)

theorem run [DecidableEq ι] {actions : List (QueueAction T ι)} (timely : t.AllTimely size actions) :
    Recorded size (t.run size actions) := by
  induction actions generalizing t with
  | nil => exact h
  | cons action rest ih => exact ih (h.act timely.1) timely.2

theorem outcome_act [DecidableEq ι] (action : QueueAction T ι) {n : ℕ}
    (settled : t.history.outcome n ≠ none) :
    (t.act size action).history.outcome n = t.history.outcome n := by
  cases action with
  | produce p spurious =>
    have move : Producing.Move size t.queue.inner (t.queue.producers p) _ _ :=
      Producing.next_move _ spurious
    show (t.history.produced p ((t.queue.producers p).next size t.queue.inner spurious).1).outcome n = _
    generalize ((t.queue.producers p).next size t.queue.inner spurious).1 = operation at move
    generalize ((t.queue.producers p).next size t.queue.inner spurious).2 = stage at move
    generalize before : t.queue.producers p = stage₀ at move
    cases move with
    | settle claimed =>
      have hp : (t.queue.producers p).claimed ≠ none := by rw [before, claimed]; nofun
      exact update_of_ne ((h.once n settled).2 p hp).symm ..
    | _ => rfl
  | consume =>
    show (t.history.consumed (t.queue.consumer.next size t.queue.inner).1).outcome n = _
    cases (t.queue.consumer.next size t.queue.inner).1 <;> rfl
  | _ => rfl

theorem outcome_run [DecidableEq ι] {actions : List (QueueAction T ι)}
    (timely : t.AllTimely size actions) {n : ℕ} (settled : t.history.outcome n ≠ none) :
    (t.run size actions).history.outcome n = t.history.outcome n := by
  induction actions generalizing t with
  | nil => rfl
  | cons action rest ih =>
    have same := h.outcome_act action settled
    exact (ih (h.act timely.1) timely.2 (same ▸ settled)).trans same

/-- A settled position that was not popped stands in its slot. -/
theorem shows {n : ℕ} (settled : t.history.outcome n ≠ none) (unpopped : t.history.releases ≤ n) :
    Shows t.queue.inner size n (t.history.outcome n) :=
  h.exact.settled n unpopped (h.once n settled).1 (h.once n settled).2

/-- What was popped is what was published, with cancelled positions left out. -/
theorem values_popped :
    t.history.popped.filterMap id =
      ((List.range t.history.releases).filterMap fun n => (t.history.outcome n).join).map some := by
  rw [h.exact.delivered, filterMap_map, map_filterMap]
  refine filterMap_congr fun n _ => ?_
  show ((t.history.outcome n).getD none).map some = _
  cases t.history.outcome n <;> rfl

end

end Recorded

/-! ### Runs of the consumer -/

section Runs

variable [DecidableEq ι]

omit [DecidableEq ι] in
theorem popped_consumed (history : QueueHistory T ι) (operation : Operation w T) :
    (history.consumed operation).popped.filterMap id =
      history.popped.filterMap id ++ operation.popped.toList := by
  cases operation with
  | release position value =>
    show (history.popped ++ [value]).filterMap id = _
    rw [filterMap_append]
    cases value <;> rfl
  | _ => exact (append_nil _).symm

/-- What is popped in a step is returned with it or with the next one of the consumer. -/
theorem popped_act (t : TrackedQueue w T ι) (action : QueueAction T ι) {before : List (Option T)}
    (is : t.history.popped.filterMap id = before ++ t.queue.consumer.pending.toList) :
    (t.act size action).history.popped.filterMap id =
      before ++ (t.queue.returned size action).toList ++
        (t.act size action).queue.consumer.pending.toList := by
  have others (same : (t.queue.act size action).consumer = t.queue.consumer)
      (popped : (t.act size action).history.popped = t.history.popped) :
      (t.act size action).history.popped.filterMap id =
        before ++ (t.queue.returned size action).toList ++
          (t.act size action).queue.consumer.pending.toList := by
    rw [popped, is, returned_same same, Option.toList_none, append_nil]
    exact congrArg (before ++ ·.pending.toList) same.symm
  cases action with
  | produce p spurious =>
    refine others rfl ?_
    show (t.history.produced p ((t.queue.producers p).next size t.queue.inner spurious).1).popped = _
    cases ((t.queue.producers p).next size t.queue.inner spurious).1 <;> rfl
  | reserve | publish | drop | close => exact others rfl rfl
  | pop =>
    obtain ⟨⟨inner, producers, consumer⟩, history⟩ := t
    cases consumer with
    | idle last =>
      have none : (BoundedQueue.returned size ⟨inner, producers, .idle last⟩ .pop :
          Option (Option T)) = none := by
        unfold returned
        split_ifs <;> rfl
      rw [none, Option.toList_none, append_nil]
      exact is
    | _ => exact others rfl rfl
  | consume =>
    show (t.history.consumed (t.queue.consumer.next size t.queue.inner).1).popped.filterMap id = _
    rw [popped_consumed, is, append_assoc, Consuming.next_returns, append_assoc]
    rfl

theorem popped_run (t : TrackedQueue w T ι) (actions : List (QueueAction T ι))
    {before : List (Option T)}
    (is : t.history.popped.filterMap id = before ++ t.queue.consumer.pending.toList) :
    (t.run size actions).history.popped.filterMap id =
      before ++ t.queue.returns size actions ++
        (t.run size actions).queue.consumer.pending.toList := by
  induction actions generalizing t before with
  | nil => rw [returns, append_nil]; exact is
  | cons action rest ih =>
    rw [returns, ← append_assoc]
    exact ih (t.act size action) (popped_act t action is)

theorem releases_act (t : TrackedQueue w T ι) (action : QueueAction T ι) :
    t.history.releases ≤ (t.act size action).history.releases := by
  cases action with
  | produce p spurious =>
    show _ ≤ (t.history.produced p ((t.queue.producers p).next size t.queue.inner spurious).1).releases
    cases ((t.queue.producers p).next size t.queue.inner spurious).1 <;> exact le_rfl
  | consume =>
    show _ ≤ (t.history.consumed (t.queue.consumer.next size t.queue.inner).1).releases
    cases (t.queue.consumer.next size t.queue.inner).1 <;>
      first | exact le_rfl | exact Nat.le_succ _
  | _ => exact le_rfl

theorem releases_run (t : TrackedQueue w T ι) (actions : List (QueueAction T ι)) :
    t.history.releases ≤ (t.run size actions).history.releases := by
  induction actions generalizing t with
  | nil => exact le_rfl
  | cons action rest ih => exact (releases_act t action).trans (ih (t.act size action))

omit [DecidableEq ι] in
/-- The consumer finds the slot of the next position settled. -/
theorem Recorded.loadSequence (h : Recorded size t)
    (settled : t.history.outcome t.history.releases ≠ none) {position : BitVec w}
    (is : t.queue.consumer = .loadSequence position) :
    (t.queue.inner.slot size position).sequence = position + 1 := by
  have knows := h.exact.linked.knows
  have advances := h.exact.linked.advances
  rw [is] at knows advances
  have same : position = BitVec.ofNat w t.history.releases := by
    rw [show position = _ from knows, h.exact.linked.dequeue]
    exact congrArg (BitVec.ofNat w) advances
  rw [same, Inner.slot, size.index_ofNat, (h.shows settled le_rfl).1]
  exact BitVec.ofNat_add _ _

theorem Recorded.consume_ahead (h : Recorded size t)
    (settled : t.history.outcome t.history.releases ≠ none) {k : ℕ}
    (ahead : t.queue.consumer.ahead = some (k + 1)) :
    t.history.releases < (t.act size .consume).history.releases ∨
      (t.act size .consume).history.releases = t.history.releases ∧
        (t.act size .consume).queue.consumer.ahead = some k := by
  have found (position : BitVec w) (is : t.queue.consumer = .loadSequence position) :=
    h.loadSequence settled is
  obtain ⟨⟨inner, producers, consumer⟩, history⟩ := t
  cases consumer with
  | storeSequence position bytes value => exact .inl (Nat.lt_succ_self _)
  | loadSequence position =>
    cases ahead
    have zero : ((inner.slot size position).sequence - (position + 1)).toInt = 0 := by
      rw [show (inner.slot size position).sequence = _ from found position rfl, BitVec.sub_self]
      exact BitVec.toInt_zero
    refine .inr ⟨rfl, ?_⟩
    show (Consuming.next size inner (.loadSequence position)).2.ahead = some 5
    simp only [Consuming.next, zero]
    rfl
  | loadDequeue | storeDequeue | loadCancelled | loadBytes | readValue =>
    cases ahead
    exact .inr ⟨rfl, rfl⟩
  | _ => cases ahead

theorem consumer_act {action : QueueAction T ι} (other : action.isConsume = false)
    (ahead : t.queue.consumer.ahead ≠ none) :
    (t.act size action).queue.consumer = t.queue.consumer ∧
      (t.act size action).history.releases = t.history.releases := by
  cases action with
  | consume => cases other
  | produce p spurious =>
    refine ⟨rfl, ?_⟩
    show (t.history.produced p ((t.queue.producers p).next size t.queue.inner spurious).1).releases = _
    cases ((t.queue.producers p).next size t.queue.inner spurious).1 <;> rfl
  | pop =>
    obtain ⟨⟨inner, producers, consumer⟩, history⟩ := t
    cases consumer with
    | idle => exact absurd rfl ahead
    | _ => exact ⟨rfl, rfl⟩
  | _ => exact ⟨rfl, rfl⟩

/-- A call of `pop` releases a settled position, whatever the producers do meanwhile. -/
theorem Recorded.progress (h : Recorded size t) {actions : List (QueueAction T ι)}
    (timely : t.AllTimely size actions)
    (settled : t.history.outcome t.history.releases ≠ none) {k : ℕ}
    (ahead : t.queue.consumer.ahead = some (k + 1))
    (enough : k + 1 ≤ actions.countP QueueAction.isConsume) :
    t.history.releases < (t.run size actions).history.releases := by
  induction actions generalizing t k with
  | nil => cases enough
  | cons action rest ih =>
    have settled' := h.outcome_act action settled
    cases consumes : action.isConsume with
    | false =>
      obtain ⟨consumer, releases⟩ := @consumer_act _ _ _ size t _ _ consumes (by rw [ahead]; nofun)
      rw [countP_cons_of_neg (by rw [consumes]; nofun)] at enough
      have more := ih (h.act timely.1) timely.2 (by rw [releases, settled']; exact settled)
        (by rw [consumer, ahead]) enough
      rwa [releases] at more
    | true =>
      rw [countP_cons_of_pos consumes] at enough
      cases action with
      | consume =>
        rcases h.consume_ahead settled ahead with released | ⟨releases, ahead'⟩
        · exact released.trans_le (releases_run _ rest)
        · cases k with
          | zero =>
            generalize (t.act size .consume).queue.consumer = stage at ahead'
            cases stage <;> cases ahead'
          | succ k =>
            have more := ih (h.act timely.1) timely.2 (by rw [releases, settled']; exact settled)
              ahead' (by omega)
            rwa [releases] at more
      | _ => cases consumes

end Runs

end TrackedQueue

/-! ### Delivery -/

section Delivery

variable {w : ℕ} {T : Type*} {ι : Type*} [DecidableEq ι]

/-- **Delivery once and in order.**  In every run with timely exchanges the values that `pop` has
returned, with the one that it is about to return, are those that were published for the first
positions claimed, in the order of the claims; cancelled positions are left out.  Every one of these
positions was settled, what was settled for any other stands in its slot, and no outcome ever
changes.  A producer that has a position has it alone, nothing was settled for it, and the position
that had the slot before was popped.  A call of `pop` that meets a settled position releases it
with its next seven steps, whatever the producers do meanwhile. -/
theorem delivered_once_in_order (size : QueueSize w) (actions : List (QueueAction T ι))
    (timely : (TrackedQueue.new w T ι).AllTimely size actions) :
    let t := (TrackedQueue.new w T ι).run size actions
    (BoundedQueue.new w T ι).returns size actions ++ t.queue.consumer.pending.toList =
        ((List.range t.history.releases).filterMap fun n => (t.history.outcome n).join).map some ∧
      (∀ n < t.history.releases, t.history.outcome n ≠ none) ∧
      (∀ n, t.history.outcome n ≠ none → t.history.releases ≤ n →
        TrackedQueue.Shows t.queue.inner size n (t.history.outcome n)) ∧
      (∀ p, (t.queue.producers p).claimed ≠ none →
        t.history.releases ≤ t.history.number p ∧
        t.history.number p < t.history.releases + size.slots ∧
        t.history.outcome (t.history.number p) = none ∧
        ∀ q, (t.queue.producers q).claimed ≠ none →
          t.history.number q % size.slots = t.history.number p % size.slots → q = p) ∧
      ∀ more, t.AllTimely size more →
        (∀ n, t.history.outcome n ≠ none →
          (t.run size more).history.outcome n = t.history.outcome n) ∧
        (t.queue.consumer = .loadDequeue → t.history.outcome t.history.releases ≠ none →
          7 ≤ more.countP QueueAction.isConsume →
            t.history.releases < (t.run size more).history.releases) := by
  intro t
  have h : TrackedQueue.Recorded size t := TrackedQueue.recorded_new.run timely
  refine ⟨?_, h.done, fun n settled unpopped => h.shows settled unpopped, fun p hp => ?_,
    fun more timely' => ⟨fun n settled => h.outcome_run timely' settled, fun call settled enough => ?_⟩⟩
  · have popped : t.history.popped.filterMap id =
        [] ++ (BoundedQueue.new w T ι).returns size actions ++ t.queue.consumer.pending.toList :=
      TrackedQueue.popped_run (TrackedQueue.new w T ι) actions rfl
    exact popped.symm.trans h.values_popped
  · obtain ⟨position, is⟩ := Option.ne_none_iff_exists'.1 hp
    have lower := (h.exact.owned p position is).1
    have upper := (h.exact.number_lt hp).trans_le h.exact.claims_le
    refine ⟨lower, upper, ?_, fun q hq same => ?_⟩
    · by_contra settled
      exact (h.once _ settled).2 p hp rfl
    · obtain ⟨position', is'⟩ := Option.ne_none_iff_exists'.1 hq
      have lower' := (h.exact.owned q position' is').1
      have upper' := (h.exact.number_lt hq).trans_le h.exact.claims_le
      by_contra other
      exact h.exact.number_inj hp hq other
        (Wrapping.window_inj lower upper lower' upper' same.symm)
  · exact h.progress timely' settled (by rw [call]; rfl) enough

end Delivery

namespace BoundedQueue

theorem delivered_once_in_order_published :
    let actions : List (QueueAction ℕ (Fin 2)) := publishing 1 3 7 ++ [.pop]
    let t := (TrackedQueue.new 64 ℕ (Fin 2)).run twoSlots actions
    (t.queue.consumer = .loadDequeue ∧ t.history.outcome 0 = some (some 7)) ∧
      t.history.releases < (t.run twoSlots (List.replicate 7 .consume)).history.releases := by
  refine ⟨⟨rfl, rfl⟩, ?_⟩
  have delivered := delivered_once_in_order twoSlots (publishing (1 : Fin 2) 3 7 ++ [.pop])
    (TrackedQueue.allTimely_of_short (by decide))
  obtain ⟨-, -, -, -, later⟩ := delivered
  exact (later (List.replicate 7 .consume) (TrackedQueue.allTimely_of_short (by decide))).2 rfl nofun
    (by decide)

section Round

variable {w : ℕ} {T : Type*} {ι : Type*} [DecidableEq ι] {size : QueueSize w}
  {q : BoundedQueue w T ι}

/-- Without steps of the consumer nothing is returned. -/
theorem returns_others {actions : List (QueueAction T ι)}
    (others : ∀ action ∈ actions, action.isConsume = false) : q.returns size actions = [] := by
  induction actions generalizing q with
  | nil => rfl
  | cons action rest ih =>
    rw [returns, ih fun action mem => others action (mem_cons_of_mem _ mem), append_nil]
    have other := others action mem_cons_self
    cases action with
    | consume => cases other
    | pop =>
      obtain ⟨inner, producers, consumer⟩ := q
      cases consumer with
      | idle last =>
        unfold returned
        split_ifs <;> rfl
      | _ => rfl
    | _ => rw [returned_same rfl]; rfl

theorem returns_popping {bytes : ℕ} {last : Option (Pop T)} {written : Option T}
    (idle : q.consumer = .idle last)
    (full : q.inner.slot size q.inner.dequeue = ⟨q.inner.dequeue + 1, bytes, false, written⟩)
    (some : bytes ≠ 0) : q.returns size popping = [written] := by
  unfold Inner.slot at full
  simp [returns, returned, popping, List.replicate, act, Consuming.pop, Consuming.next,
    Consuming.finish, Consuming.item, idle, Inner.slot, full, some, Inner.apply, Inner.setSlot]

theorem between_returns {ring : ℕ → Slot 64 ℕ} {enqueue dequeue : BitVec 64} {bytesUsed bytes : ℕ}
    {first : Producing 64 ℕ} {last : Option (Pop ℕ)} {written : Option ℕ}
    (full : ring (twoSlots.index dequeue) = ⟨dequeue + 1, bytes, false, written⟩) (some : bytes ≠ 0) :
    (between ring enqueue dequeue bytesUsed first last).returns twoSlots popping = [written] :=
  returns_popping rfl full some

theorem returns_republish {ring : ℕ → Slot 64 ℕ} {last : Option (Pop ℕ)}
    (this : ring 0 = ⟨BitVec.ofNat 64 (2 ^ 64 - 2) + 1, 1, false, some 7⟩)
    (next : ring 1 = ⟨0, 1, false, some 8⟩) :
    (between ring 1 (BitVec.ofNat 64 (2 ^ 64 - 2)) 4 (.holding 2 0) last).returns twoSlots republish =
      [some 9, some 8, some 9] := by
  have come := last_but_one
  generalize is : BitVec.ofNat 64 (2 ^ 64 - 2) = position at come this
  have cell : twoSlots.index position = 0 := by rw [← is]; decide
  have cell' : twoSlots.index (position + 1) = 1 := by rw [← is]; decide
  have cell₀ : twoSlots.index 0 = 0 := by decide
  have come' : position + 2 = 0 := by rw [← is]; decide
  unfold republish
  rw [returns_append, returns_append, returns_append, returns_append,
    returns_others (by decide : ∀ action ∈ fill (0 : Fin 2) 9, action.isConsume = false),
    returns_others (by decide : ∀ action ∈ [QueueAction.produce (0 : Fin 2) false], _)]
  simp only [run_append]
  rw [between_fill, cell₀,
    @between_returns _ _ _ _ 2 _ _ (some 9) (by rw [cell]; simp [this]) (by decide),
    @between_popping _ _ _ _ _ _ 2 (some 9) (by rw [cell]; simp [this]) (by decide), cell, come',
    between_settle, cell₀,
    @between_returns _ _ _ _ 1 _ _ (some 8) (by rw [cell', come]; simp [next]) (by decide),
    @between_popping _ _ _ _ _ _ 1 (some 8) (by rw [cell', come]; simp [next]) (by decide), cell',
    come,
    @between_returns _ _ _ _ 2 _ _ (some 9) (by rw [cell₀]; simp) (by decide)]
  rfl

end Round

end BoundedQueue

/-- A run in which a position comes round under a producer that stands still.  Everything was popped
before; then 7 and 8 are published, and the producer gets the slot of 7, which was not popped.  It
publishes 9, and `pop` returns 9, 8 and 9 again.  Everything was popped then, and 7 never. -/
theorem delivered_twice :
    ∃ before : List (QueueAction ℕ (Fin 2)),
      let q := (BoundedQueue.new 64 ℕ (Fin 2)).run twoSlots before
      let q' := q.run twoSlots (publishing 1 1 7 ++ publishing 1 1 8 ++ claim 0)
      let q'' := q'.run twoSlots republish
      q.inner.dequeue = q.inner.enqueue ∧
        q'.producers 0 = .holding 2 0 ∧ q'.inner.dequeue = q.inner.dequeue ∧
        q'.inner.slot twoSlots 0 = ⟨q'.inner.dequeue + 1, 1, false, some 7⟩ ∧
        q'.returns twoSlots republish = [some 9, some 8, some 9] ∧
        q''.inner.dequeue = q''.inner.enqueue := by
  obtain ⟨before, waiting⟩ := waiting_round
  refine ⟨before, ?_⟩
  generalize (BoundedQueue.new 64 ℕ (Fin 2)).run twoSlots before = q at waiting
  obtain ⟨ring', last, claimed, this, next⟩ := waiting.claimed
  obtain ⟨ring'', popped⟩ := waiting.overtake
  rw [overtake_eq, run_append] at popped
  obtain ⟨ring, returned, rfl, -, -⟩ := waiting
  dsimp only
  rw [popped, claimed]
  exact ⟨rfl, rfl, rfl, this, returns_republish this next, rfl⟩

end Eventd
