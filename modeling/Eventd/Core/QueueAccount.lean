import Eventd.Core.QueueSteps

/-!
# Slots and bytes of the queue

What every run of the queue keeps in which no producer stands still, between its load of `enqueue`
and its exchange, while `2 ^ w` positions are claimed.  Then a slot belongs to one producer, holds a
value that was settled, or is free, and `bytesUsed` is what has been charged and not given back.

* `TrackedQueue.Timely`: the condition on a step;
* `TrackedQueue.Exact`: who has which slot, and what the slots hold;
* `TrackedQueue.Accounted`: the bytes;
* `bytes_accounted`.
-/

namespace Eventd

open Finset Option Function BoundedQueue

namespace TrackedQueue

variable {w : ℕ} {T : Type*} {ι : Type*} {size : QueueSize w} {t t' : TrackedQueue w T ι}

/-- An exchange comes before `2 ^ w` positions were claimed since the load. -/
def Timely (t : TrackedQueue w T ι) (action : QueueAction T ι) : Prop :=
  ∀ p spurious bytes position, action = .produce p spurious →
    t.queue.producers p = .exchange bytes position →
      t.history.claims < t.history.loadedAt p + 2 ^ w

/-- What moves in time and closing keep is kept by every action in time. -/
theorem Timely.act [DecidableEq ι] {P : TrackedQueue w T ι → Prop} {action : QueueAction T ι}
    (timely : t.Timely action)
    (produced : ∀ {p operation stage}, (∀ position, operation = .claim position →
      t.history.claims < t.history.loadedAt p + 2 ^ w) →
        Producing.Move size t.queue.inner (t.queue.producers p) operation stage →
          P (t.produced size p operation stage))
    (consumed : ∀ {operation stage},
      Consuming.Move size t.queue.inner t.queue.consumer operation stage →
        P (t.consumed size operation stage))
    (close : P t.close) : P (t.act size action) := by
  have quiet {p : ι} {stage : Producing w T}
      (quiet : Producing.Quiet size t.queue.inner (t.queue.producers p) stage) :
      P (t.produced size p .quiet stage) := produced nofun (.quiet quiet)
  cases action with
  | reserve p bytes => exact quiet (Producing.quiet_reserve bytes _)
  | produce p spurious =>
    have move : Producing.Move size t.queue.inner (t.queue.producers p) _ _ :=
      Producing.next_move _ spurious
    refine produced (fun position claims => ?_) move
    obtain ⟨-, bytes, is⟩ := move.enqueue claims
    exact timely p spurious bytes position rfl is
  | publish p value => exact quiet (Producing.quiet_publish value _)
  | drop p => exact quiet (Producing.quiet_drop _)
  | pop => exact consumed (Consuming.pop_move _)
  | consume => exact consumed (Consuming.next_move _)
  | close => exact close

/-- A slot shows what was settled for a position. -/
def Shows (inner : Inner w T) (size : QueueSize w) (n : ℕ) (outcome : Option (Option T)) : Prop :=
  (inner.ring (n % size.slots)).sequence = BitVec.ofNat w (n + 1) ∧
    ∃ value, outcome = some value ∧ (inner.ring (n % size.slots)).cancelled = value.isNone ∧
      ∀ v ∈ value, (inner.ring (n % size.slots)).value = some v

variable (size) in
/-- Who has which slot, and what the slots hold. -/
structure Exact (t : TrackedQueue w T ι) : Prop where
  linked : Linked size t
  advances_le : t.history.advances ≤ t.history.claims
  claims_le : t.history.claims ≤ t.history.releases + size.slots
  owned : ∀ p position, (t.queue.producers p).claimed = some position →
    t.history.releases ≤ t.history.number p ∧
      ¬t.queue.inner.Fresh size (t.history.number p % size.slots) ∧
      (t.queue.producers p).Wrote (t.queue.inner.ring (t.history.number p % size.slots))
  distinct : ∀ p q, (t.queue.producers p).claimed ≠ none → (t.queue.producers q).claimed ≠ none →
    t.history.since p = t.history.since q → p = q
  vacant : ∀ n, t.history.claims ≤ n → n < t.history.releases + size.slots →
    ¬t.queue.inner.Fresh size (n % size.slots)
  settled : ∀ n, t.history.releases ≤ n → n < t.history.claims →
    (∀ p, (t.queue.producers p).claimed ≠ none → t.history.number p ≠ n) →
      Shows t.queue.inner size n (t.history.outcome n)
  reads : t.queue.consumer.Reads size t.queue.inner
  delivered : t.history.popped = (List.range t.history.releases).map fun n =>
    ((t.history.outcome n).getD none).map some

theorem exact_new : Exact size (new w T ι) where
  linked := linked_new
  advances_le := le_rfl
  claims_le := Nat.zero_le _
  owned _ _ none := nomatch none
  distinct _ _ none := absurd rfl none
  vacant n _ below := by
    have below : n < size.slots := by simpa [new, QueueHistory.new] using below
    rw [Nat.mod_eq_of_lt below]
    refine fun fresh => fresh ?_
    exact (Wrapping.toNat_mod size.dvd n).trans (Nat.mod_eq_of_lt below)
  settled _ _ less := absurd less (Nat.not_lt_zero _)
  reads := trivial
  delivered := rfl

namespace Exact

section

variable (h : Exact size t)
include h

theorem within : t.history.claims < t.history.releases + 2 ^ w := by
  have := h.claims_le
  have := size.slots_lt
  omega

/-- A slot that is being popped or settled has no owner. -/
theorem number_ne {p : ι} (claimed : (t.queue.producers p).claimed ≠ none) {n : ℕ}
    (fresh : t.queue.inner.Fresh size (n % size.slots)) : t.history.number p ≠ n := by
  obtain ⟨position, is⟩ := ne_none_iff_exists'.1 claimed
  rintro rfl
  exact (h.owned p position is).2.1 fresh

theorem number_lt {p : ι} (claimed : (t.queue.producers p).claimed ≠ none) :
    t.history.number p < t.history.claims := by
  obtain ⟨position, is⟩ := ne_none_iff_exists'.1 claimed
  have pos := ((h.linked.stages p).claimed position is).1
  have le := (h.linked.stages p).since_le
  unfold QueueHistory.number
  omega

theorem index_eq {p : ι} {position : BitVec w}
    (claimed : (t.queue.producers p).claimed = some position) :
    size.index position = t.history.number p % size.slots := by
  rw [((h.linked.stages p).claimed position claimed).2, size.index_ofNat]

/-- Nobody else has the position of `p`. -/
theorem number_inj {p q : ι} (hp : (t.queue.producers p).claimed ≠ none)
    (hq : (t.queue.producers q).claimed ≠ none) (other : q ≠ p) :
    t.history.number p ≠ t.history.number q := by
  intro same
  obtain ⟨position, is⟩ := ne_none_iff_exists'.1 hp
  obtain ⟨position', is'⟩ := ne_none_iff_exists'.1 hq
  have pos := ((h.linked.stages p).claimed position is).1
  have pos' := ((h.linked.stages q).claimed position' is').1
  unfold QueueHistory.number at same
  exact other (h.distinct q p hq hp (by omega))

/-- A slot in use lies in another cell than the slot of an owner. -/
theorem cell_ne {p : ι} (claimed : (t.queue.producers p).claimed ≠ none) {n : ℕ}
    (lower : t.history.releases ≤ n) (upper : n < t.history.releases + size.slots)
    (ne : t.history.number p ≠ n) : n % size.slots ≠ t.history.number p % size.slots := by
  obtain ⟨position, is⟩ := ne_none_iff_exists'.1 claimed
  have lower' := (h.owned p position is).1
  have upper' := (h.number_lt claimed).trans_le h.claims_le
  exact fun same => ne (Wrapping.window_inj lower upper lower' upper' same).symm

theorem stays (linked : Linked size t') (advances_le : t'.history.advances ≤ t'.history.claims)
    (ring : t'.queue.inner.ring = t.queue.inner.ring)
    (stages : ∀ p, (t'.queue.producers p).claimed = (t.queue.producers p).claimed ∧
      ∀ slot, (t.queue.producers p).Wrote slot → (t'.queue.producers p).Wrote slot)
    (reads : t'.queue.consumer.Reads size t'.queue.inner) (history : ∃ advances loadedAt,
      t'.history = { t.history with advances := advances, loadedAt := loadedAt }) :
    Exact size t' := by
  obtain ⟨⟨⟨ring', enqueue, dequeue, bytesUsed, closed⟩, producers, consumer⟩, history'⟩ := t'
  obtain ⟨advances, loadedAt, is⟩ := history
  subst ring is
  refine ⟨linked, advances_le, h.claims_le, fun p position is => ?_, fun p q hp hq => ?_, h.vacant,
    fun n lower upper nobody => ?_, reads, h.delivered⟩
  · obtain ⟨lower, stale, wrote⟩ := h.owned p position ((stages p).1 ▸ is)
    exact ⟨lower, stale, (stages p).2 _ wrote⟩
  · exact h.distinct p q ((stages p).1 ▸ hp) ((stages q).1 ▸ hq)
  · exact h.settled n lower upper fun p hp => nobody p ((stages p).1 ▸ hp)

end

theorem reads_congr {inner inner' : Inner w T} {stage : Consuming w T}
    (same : ∀ position, (stage = .storeDequeue position ∨ stage.taken = some position) →
      inner'.slot size position = inner.slot size position)
    (reads : stage.Reads size inner) : stage.Reads size inner' := by
  cases stage <;> simp only [Consuming.Reads, Consuming.taken, reduceCtorEq, or_false, false_or,
    Option.some.injEq, Consuming.storeDequeue.injEq, forall_eq'] at same reads ⊢ <;>
    first
      | trivial
      | rwa [same]

theorem fresh_popping (h : Exact size t) {position : BitVec w}
    (popping : t.queue.consumer = .storeDequeue position ∨
      t.queue.consumer.taken = some position) :
    position = BitVec.ofNat w t.history.releases ∧
      t.queue.inner.Fresh size (t.history.releases % size.slots) := by
  rcases popping with is | is
  · have knows := h.linked.knows
    have advances := h.linked.advances
    rw [is] at knows advances
    obtain ⟨same, fresh⟩ := knows
    rw [h.linked.dequeue, show t.history.advances = t.history.releases from advances] at same
    rw [same, size.index_ofNat] at fresh
    exact ⟨same, fresh⟩
  · obtain ⟨same, -, fresh⟩ := h.linked.taken_eq is
    rw [same, size.index_ofNat] at fresh
    exact ⟨same, fresh⟩

theorem reads_of_others (h : Exact size t) {p : ι} {position : BitVec w}
    (claimed : (t.queue.producers p).claimed = some position) {inner : Inner w T}
    (others : ∀ i ≠ t.history.number p % size.slots, inner.ring i = t.queue.inner.ring i) :
    t.queue.consumer.Reads size inner := by
  refine reads_congr (fun position' popping => ?_) h.reads
  obtain ⟨rfl, popped⟩ := h.fresh_popping popping
  unfold Inner.slot
  rw [size.index_ofNat]
  exact others _ fun same => (h.owned p position claimed).2.1 (same ▸ popped)

theorem cell_ne_owner (h : Exact size t) {p q : ι} (hp : (t.queue.producers p).claimed ≠ none)
    (hq : (t.queue.producers q).claimed ≠ none) (other : q ≠ p) :
    t.history.number q % size.slots ≠ t.history.number p % size.slots := by
  obtain ⟨position, is⟩ := ne_none_iff_exists'.1 hq
  exact h.cell_ne hp (h.owned q position is).1 ((h.number_lt hq).trans_le h.claims_le)
    (h.number_inj hp hq other)

section Produced

variable [DecidableEq ι] {p : ι} {operation : Operation w T} {stage : Producing w T}

theorem producers_self : (t.produced size p operation stage).queue.producers p = stage :=
  update_self ..

theorem producers_other {q : ι} (other : q ≠ p) :
    (t.produced size p operation stage).queue.producers q = t.queue.producers q :=
  update_of_ne other ..

theorem stages_produced (claimed : stage.claimed = (t.queue.producers p).claimed)
    (wrote : ∀ slot, (t.queue.producers p).Wrote slot → stage.Wrote slot) (q : ι) :
    ((t.produced size p operation stage).queue.producers q).claimed = (t.queue.producers q).claimed ∧
      ∀ slot, (t.queue.producers q).Wrote slot →
        ((t.produced size p operation stage).queue.producers q).Wrote slot := by
  by_cases other : q = p
  · subst other
    rw [producers_self]
    exact ⟨claimed, wrote⟩
  · rw [producers_other other]
    exact ⟨rfl, fun _ => id⟩

theorem claim (h : Exact size t) {bytes : ℕ} {position : BitVec w}
    (before : t.queue.producers p = .exchange bytes position)
    (same : t.queue.inner.enqueue = position)
    (timely : t.history.claims < t.history.loadedAt p + 2 ^ w)
    (linked : Linked size (t.produced size p (.claim position) (.recheck bytes position))) :
    Exact size (t.produced size p (.claim position) (.recheck bytes position)) := by
  obtain ⟨word, -, le⟩ := (h.linked.stages p).loaded position (by rw [before]; rfl)
  have near := (h.linked.stages p).exchange bytes position before
  -- the position has not come round since it was loaded
  have loadedAt := Wrapping.eq_of_ofNat_eq le timely
    (word.symm.trans (same.symm.trans h.linked.enqueue))
  have advances_le := h.advances_le
  have advances := h.linked.advances
  have none : (t.queue.producers p).claimed = none := by rw [before]; rfl
  have since (q : ι) (other : q ≠ p) :
      (t.produced size p (.claim position) (.recheck bytes position)).history.since q
        = t.history.since q := update_of_ne other ..
  have since_p : (t.produced size p (.claim position) (.recheck bytes position)).history.since p
      = t.history.claims + 1 := update_self ..
  refine ⟨linked, advances_le.trans (Nat.le_succ _), (loadedAt ▸ near : _ + 1 ≤ _),
    fun q position' is => ?_, fun q r hq hr eq => ?_, fun n lower => h.vacant n (Nat.le_of_lt lower),
    fun n lower upper nobody => ?_, h.reads, h.delivered⟩
  · unfold QueueHistory.number
    by_cases other : q = p
    · subst other
      rw [producers_self, since_p]
      exact ⟨show t.history.releases ≤ t.history.claims by omega,
        h.vacant _ le_rfl (loadedAt ▸ near), trivial⟩
    · rw [producers_other other] at is ⊢
      rw [since q other]
      exact h.owned q position' is
  · have unique (r : ι) (other : r ≠ p) :
        t.history.since r ≠ t.history.claims + 1 := by
      have := (h.linked.stages r).since_le
      omega
    by_cases hqp : q = p
    · by_cases hrp : r = p
      · exact hqp.trans hrp.symm
      · rw [hqp, since_p, since r hrp] at eq
        exact absurd eq.symm (unique r hrp)
    · by_cases hrp : r = p
      · rw [hrp, since_p, since q hqp] at eq
        exact absurd eq (unique q hqp)
      · rw [producers_other hqp] at hq
        rw [producers_other hrp] at hr
        rw [since q hqp, since r hrp] at eq
        exact h.distinct q r hq hr eq
  · rcases Nat.lt_succ_iff_lt_or_eq.1 upper with old | rfl
    · refine h.settled n lower old fun q hq => ?_
      have other : q ≠ p := by
        rintro rfl
        exact hq none
      have ne := nobody q (by rwa [producers_other other])
      unfold QueueHistory.number at ne ⊢
      rwa [since q other] at ne
    · refine absurd ?_ (nobody p (by rw [producers_self]; nofun))
      unfold QueueHistory.number
      rw [since_p]
      rfl

theorem write (h : Exact size t) {position : BitVec w} {store : Store T}
    (claimed : (t.queue.producers p).claimed = some position)
    (claimed' : stage.claimed = some position)
    (wrote : ∀ slot, (t.queue.producers p).Wrote slot → stage.Wrote (slot.store store))
    (linked : Linked size (t.produced size p (.write position store) stage)) :
    Exact size (t.produced size p (.write position store) stage) := by
  have hp : (t.queue.producers p).claimed ≠ none := by rw [claimed]; nofun
  have cell := h.index_eq claimed
  have others : ∀ i ≠ t.history.number p % size.slots,
      (t.queue.inner.apply size (.write position store)).ring i = t.queue.inner.ring i := by
    intro i ne
    rw [t.queue.inner.slot_write, if_neg (cell ▸ ne)]
  have fresh (i : ℕ) : (t.queue.inner.apply size (.write position store)).Fresh size i ↔
      t.queue.inner.Fresh size i := by
    rw [Inner.Fresh, Inner.Fresh, t.queue.inner.sequence_write]
  have claims (q : ι) : ((t.produced size p (.write position store) stage).queue.producers q).claimed
      = (t.queue.producers q).claimed := by
    by_cases other : q = p
    · rw [other, producers_self, claimed, claimed']
    · rw [producers_other other]
  refine ⟨linked, h.advances_le, h.claims_le, fun q position' is => ?_, fun q r hq hr => ?_,
    fun n lower upper now => h.vacant n lower upper ((fresh _).1 now),
    fun n lower upper nobody => ?_, ?_, h.delivered⟩
  · rw [claims] at is
    obtain ⟨lower, stale, old⟩ := h.owned q position' is
    refine ⟨lower, fun now => stale ((fresh _).1 now), ?_⟩
    by_cases other : q = p
    · subst other
      rw [producers_self]
      show stage.Wrote ((t.queue.inner.apply size (.write position store)).ring
        (t.history.number q % size.slots))
      rw [t.queue.inner.slot_write, if_pos cell.symm]
      exact wrote _ old
    · have hq : (t.queue.producers q).claimed ≠ none := by rw [is]; nofun
      rw [producers_other other]
      show (t.queue.producers q).Wrote ((t.queue.inner.apply size (.write position store)).ring
        (t.history.number q % size.slots))
      rw [others _ (h.cell_ne_owner hp hq other)]
      exact old
  · exact h.distinct q r (claims q ▸ hq) (claims r ▸ hr)
  · have ne := nobody p (by rw [claims]; exact hp)
    have old := h.settled n lower upper fun q hq => nobody q (by rw [claims]; exact hq)
    unfold Shows at old ⊢
    rwa [show (t.produced size p (.write position store) stage).queue.inner.ring (n % size.slots) = _
      from others _ (h.cell_ne hp lower (upper.trans_le h.claims_le) ne)]
  · exact h.reads_of_others claimed others

/-- Who still has a position when a producer has left its own. -/
theorem owner_produced (claimed' : stage.claimed = none) {q : ι}
    (hq : ((t.produced size p operation stage).queue.producers q).claimed ≠ none) :
    q ≠ p ∧ (t.queue.producers q).claimed ≠ none := by
  by_cases other : q = p
  · rw [other, producers_self] at hq
    exact absurd claimed' hq
  · rw [producers_other other] at hq
    exact ⟨other, hq⟩

theorem settle (h : Exact size t) {position : BitVec w} {value : Option T}
    (claimed : (t.queue.producers p).claimed = some position) (claimed' : stage.claimed = none)
    (wrote : ∀ slot, (t.queue.producers p).Wrote slot →
      slot.cancelled = value.isNone ∧ ∀ v ∈ value, slot.value = some v)
    (linked : Linked size (t.produced size p (.settle position value) stage)) :
    Exact size (t.produced size p (.settle position value) stage) := by
  have hp : (t.queue.producers p).claimed ≠ none := by rw [claimed]; nofun
  obtain ⟨lower_p, -, wrote_p⟩ := h.owned p position claimed
  have word := ((h.linked.stages p).claimed position claimed).2
  have cell := h.index_eq claimed
  have others : ∀ i ≠ t.history.number p % size.slots,
      (t.queue.inner.apply size (.settle position value)).ring i = t.queue.inner.ring i :=
    fun i ne => update_of_ne (cell ▸ ne) ..
  have own : (t.queue.inner.apply size (.settle position value)).ring
      (t.history.number p % size.slots) =
        { t.queue.inner.ring (t.history.number p % size.slots) with sequence := position + 1 } := by
    rw [← cell]
    exact update_self ..
  have stale {i : ℕ} (ne : i ≠ t.history.number p % size.slots) (old : ¬t.queue.inner.Fresh size i) :
      ¬(t.queue.inner.apply size (.settle position value)).Fresh size i := fun now =>
    ((t.queue.inner.fresh_settle_iff position value i).1 now).elim (cell ▸ ne) old
  refine ⟨linked, h.advances_le, h.claims_le, fun q position' is => ?_, fun q r hq hr =>
      h.distinct q r (owner_produced claimed' hq).2 (owner_produced claimed' hr).2, fun n lower upper => ?_,
    fun n lower upper nobody => ?_, ?_, ?_⟩
  · obtain ⟨other, hq⟩ := owner_produced claimed' (q := q) (by rw [is]; nofun)
    rw [producers_other other] at is ⊢
    obtain ⟨lower, old, wrote⟩ := h.owned q position' is
    have ne := h.cell_ne_owner hp hq other
    refine ⟨lower, stale ne old, ?_⟩
    show (t.queue.producers q).Wrote ((t.queue.inner.apply size (.settle position value)).ring
      (t.history.number q % size.slots))
    rw [others _ ne]
    exact wrote
  · have lt := h.number_lt hp
    have le : t.history.claims ≤ n := lower
    exact stale (h.cell_ne hp (by omega) upper (by omega)) (h.vacant n lower upper)
  · by_cases this : t.history.number p = n
    · subst this
      unfold Shows
      rw [show (t.produced size p (.settle position value) stage).queue.inner.ring
        (t.history.number p % size.slots) = _ from own]
      refine ⟨?_, value, update_self .., wrote _ wrote_p⟩
      rw [word]
      exact (BitVec.ofNat_add _ _).symm
    · have old := h.settled n lower upper fun q hq => by
        by_cases other : q = p
        · exact other ▸ this
        · exact nobody q (by rwa [producers_other other])
      unfold Shows at old ⊢
      rw [show (t.produced size p (.settle position value) stage).queue.inner.ring (n % size.slots) = _
        from others _ (h.cell_ne hp lower (upper.trans_le h.claims_le) this),
        show (t.produced size p (.settle position value) stage).history.outcome n = _ from
          update_of_ne (Ne.symm this) ..]
      exact old
  · exact h.reads_of_others claimed others
  · refine h.delivered.trans (List.map_congr_left fun n mem => ?_)
    have below := List.mem_range.1 mem
    rw [show (t.produced size p (.settle position value) stage).history.outcome n = _ from
      update_of_ne (by omega) ..]

theorem produced (h : Exact size t)
    (timely : ∀ position, operation = .claim position →
      t.history.claims < t.history.loadedAt p + 2 ^ w)
    (move : Producing.Move size t.queue.inner (t.queue.producers p) operation stage) :
    Exact size (t.produced size p operation stage) := by
  have linked := h.linked.produced h.within move
  generalize before : t.queue.producers p = stage₀ at move
  cases move with
  | quiet quiet =>
    exact h.stays linked h.advances_le rfl
      (stages_produced (quiet.claimed.trans (by rw [before])) (before ▸ quiet.wrote)) h.reads
      ⟨_, _, rfl⟩
  | load | charge =>
    exact h.stays linked h.advances_le rfl
      (stages_produced (by rw [before]; rfl) fun _ _ => trivial) h.reads ⟨_, _, rfl⟩
  | giveBack _ _ _ claimed _ _ wrote =>
    exact h.stays linked h.advances_le rfl
      (stages_produced (claimed.trans (by rw [before])) (before ▸ wrote)) h.reads ⟨_, _, rfl⟩
  | claim same => exact h.claim before same (timely _ rfl) linked
  | write claimed claimed' _ _ _ _ wrote =>
    exact h.write (before ▸ claimed) claimed' (before ▸ wrote) linked
  | settle claimed claimed' _ _ _ _ wrote =>
    exact h.settle (before ▸ claimed) claimed' (fun slot old => (wrote slot (before ▸ old)).2) linked

end Produced

theorem release (h : Exact size t) {stage : Consuming w T} {position : BitVec w} {bytes : ℕ}
    {value : Option (Option T)} (before : t.queue.consumer = .storeSequence position bytes value)
    (reads : ∀ inner, stage.Reads size inner)
    (linked : Linked size (t.consumed size (.release position value) stage)) :
    Exact size (t.consumed size (.release position value) stage) := by
  have taken : t.queue.consumer.taken = some position := by rw [before]; rfl
  obtain ⟨rfl, popped⟩ := h.fresh_popping (.inr taken)
  have advances := (h.linked.taken_eq taken).2.1
  have advances_le := h.advances_le
  have cell := size.index_ofNat t.history.releases
  have others {i : ℕ} (ne : i ≠ t.history.releases % size.slots) :
      (t.queue.inner.apply size (.release (BitVec.ofNat w t.history.releases) value)).ring i
        = t.queue.inner.ring i := update_of_ne (cell ▸ ne) ..
  have stale {i : ℕ} (old : i = t.history.releases % size.slots ∨ ¬t.queue.inner.Fresh size i) :
      ¬(t.queue.inner.apply size (.release (BitVec.ofNat w t.history.releases) value)).Fresh size i := by
    intro now
    obtain ⟨ne, fresh⟩ := (t.queue.inner.fresh_release_iff _ value i).1 now
    exact old.elim (cell ▸ ne) (not_not_intro fresh)
  refine ⟨linked, advances_le, h.claims_le.trans (Nat.add_le_add_right (Nat.le_succ _) _),
    fun p position' is => ?_, h.distinct, fun n lower upper => ?_, fun n lower upper nobody => ?_,
    reads _, ?_⟩
  · obtain ⟨lower, old, wrote⟩ := h.owned p position' is
    have hp : (t.queue.producers p).claimed ≠ none := fun no => nomatch no.symm.trans is
    have ne := h.number_ne hp popped
    refine ⟨show t.history.releases + 1 ≤ t.history.number p by omega, stale (.inr old), ?_⟩
    have apart : t.history.number p % size.slots ≠ t.history.releases % size.slots :=
      fun same => old (same ▸ popped)
    show (t.queue.producers p).Wrote ((t.queue.inner.apply size (.release _ value)).ring
      (t.history.number p % size.slots))
    rw [others apart]
    exact wrote
  · have upper : n < t.history.releases + 1 + size.slots := upper
    refine stale ?_
    by_cases last : n = t.history.releases + size.slots
    · exact .inl (by rw [last, Nat.add_mod_right])
    · exact .inr (h.vacant n lower (by omega))
  · have lower : t.history.releases + 1 ≤ n := lower
    have bound := upper.trans_le h.claims_le
    have old := h.settled n (by omega) upper nobody
    have ne : n % size.slots ≠ t.history.releases % size.slots := fun same => by
      have := Wrapping.window_inj (by omega) bound le_rfl
        (Nat.lt_add_of_pos_right size.slots_pos) same
      omega
    unfold Shows at old ⊢
    rwa [show (t.consumed size (.release _ value) stage).queue.inner.ring (n % size.slots) = _ from
      others ne]
  · obtain ⟨-, outcome, is, cancelled, written⟩ := h.settled t.history.releases le_rfl (by omega)
      fun p hp => h.number_ne hp popped
    have reads := h.reads
    rw [before] at reads
    obtain ⟨-, same⟩ := reads
    unfold Inner.slot at same
    rw [cell, cancelled] at same
    have value_eq : value = outcome.map some := by
      cases outcome with
      | none => exact same
      | some v => exact same.trans (congrArg some (written v rfl))
    show t.history.popped ++ [value] = (List.range (t.history.releases + 1)).map fun n =>
      ((t.history.outcome n).getD none).map some
    rw [List.range_succ, List.map_append, List.map_singleton, ← h.delivered, is, value_eq]
    rfl

theorem consumed (h : Exact size t) {operation : Operation w T} {stage : Consuming w T}
    (move : Consuming.Move size t.queue.inner t.queue.consumer operation stage) :
    Exact size (t.consumed size operation stage) := by
  have linked := h.linked.consumed move
  have reads := h.reads
  generalize before : t.queue.consumer = stage₀ at move reads
  cases move with
  | quiet _ _ _ reads' =>
    exact h.stays linked h.advances_le rfl (fun _ => ⟨rfl, fun _ => id⟩) (reads' reads) ⟨_, _, rfl⟩
  | advance position =>
    have fresh := (h.fresh_popping (.inl before)).2
    have advances := h.linked.advances
    rw [before] at advances
    have less : t.history.advances < t.history.claims := by
      by_contra le
      refine h.vacant t.history.releases ?_ (Nat.lt_add_of_pos_right size.slots_pos) fresh
      exact (not_lt.1 le).trans_eq advances
    exact h.stays linked less rfl (fun _ => ⟨rfl, fun _ => id⟩) reads ⟨_, _, rfl⟩
  | release _ _ _ reads' => exact h.release before reads' linked
  | giveBack _ _ _ _ _ _ reads' =>
    exact h.stays linked h.advances_le rfl (fun _ => ⟨rfl, fun _ => id⟩) (reads' _) ⟨_, _, rfl⟩

theorem close (h : Exact size t) : Exact size t.close :=
  h.stays h.linked.close h.advances_le rfl (fun _ => ⟨rfl, fun _ => id⟩)
    (reads_congr (fun _ _ => rfl) h.reads) ⟨_, _, rfl⟩

end Exact

/-! ### Bytes -/

variable (size) in
/-- The bytes that a slot carries for a position. -/
def held (inner : Inner w T) (n : ℕ) : ℕ :=
  if inner.Fresh size (n % size.slots) then (inner.ring (n % size.slots)).bytes else 0

theorem held_congr {inner inner' : Inner w T} {n : ℕ}
    (same : inner'.ring (n % size.slots) = inner.ring (n % size.slots)) :
    held size inner' n = held size inner n := by
  have fresh : inner'.Fresh size (n % size.slots) ↔ inner.Fresh size (n % size.slots) := by
    rw [Inner.Fresh, Inner.Fresh, same]
  exact if_congr fresh (by rw [same]) rfl

theorem charged_congr {inner inner' : Inner w T} {stage : Consuming w T}
    (same : ∀ position, stage.taken = some position →
      inner'.slot size position = inner.slot size position) :
    stage.charged size inner' = stage.charged size inner := by
  cases stage with
  | loadCancelled position | loadBytes position =>
    exact congrArg Slot.bytes (same position rfl)
  | _ => rfl

variable [Fintype ι]

variable (size) in
/-- The bytes that are charged and not given back are those of reservations and permits, of slots
that were not popped, and of the slot that is being popped. -/
structure Accounted (t : TrackedQueue w T ι) : Prop where
  exact : Exact size t
  bytes : t.queue.inner.bytesUsed = ∑ p, (t.queue.producers p).charged +
    ∑ n ∈ Finset.Ico t.history.advances t.history.claims, held size t.queue.inner n +
      t.queue.consumer.charged size t.queue.inner
  bytes_le : t.queue.inner.bytesUsed ≤ size.bytes

theorem accounted_new : Accounted size (new w T ι) where
  exact := exact_new
  bytes := by
    have none : ∑ p, ((new w T ι).queue.producers p).charged = 0 :=
      sum_eq_zero fun _ _ => rfl
    rw [none]
    rfl
  bytes_le := Nat.zero_le _

theorem sub_bytes {used bytes : ℕ} (less : used < 2 ^ w) (le : bytes ≤ used) :
    (used + 2 ^ w - bytes) % 2 ^ w = used - bytes := by
  rw [show used + 2 ^ w - bytes = used - bytes + 2 ^ w by omega, Nat.add_mod_right,
    Nat.mod_eq_of_lt (by omega)]

namespace Accounted

theorem bytesUsed_lt (h : Accounted size t) : t.queue.inner.bytesUsed < 2 ^ w :=
  h.bytes_le.trans_lt size.bytes_lt

theorem charged_le (h : Accounted size t) (p : ι) :
    (t.queue.producers p).charged ≤ t.queue.inner.bytesUsed := by
  have single := single_le_sum (fun q _ => Nat.zero_le (t.queue.producers q).charged)
    (mem_univ p)
  have bytes := h.bytes
  omega

theorem held_write (h : Accounted size t) {p : ι} {position : BitVec w} {store : Store T}
    (claimed : (t.queue.producers p).claimed = some position) (n : ℕ) :
    held size (t.queue.inner.apply size (.write position store)) n = held size t.queue.inner n := by
  obtain ⟨-, stale, -⟩ := h.exact.owned p position claimed
  have cell := h.exact.index_eq claimed
  by_cases here : n % size.slots = t.history.number p % size.slots
  · rw [held, held, here, if_neg stale, if_neg]
    rwa [Inner.Fresh, t.queue.inner.sequence_write]
  · exact held_congr (by rw [t.queue.inner.slot_write, if_neg (cell ▸ here)])

/-- The slot that a producer settles carries the bytes of the producer from then on. -/
theorem held_settle (h : Accounted size t) {p : ι} {position : BitVec w} {value : Option T}
    (claimed : (t.queue.producers p).claimed = some position)
    (bytes : ∀ slot, (t.queue.producers p).Wrote slot → slot.bytes = (t.queue.producers p).charged) :
    ∑ n ∈ Finset.Ico t.history.advances t.history.claims,
        held size (t.queue.inner.apply size (.settle position value)) n =
      ∑ n ∈ Finset.Ico t.history.advances t.history.claims, held size t.queue.inner n +
        (t.queue.producers p).charged := by
  have hp : (t.queue.producers p).claimed ≠ none := by rw [claimed]; nofun
  obtain ⟨lower, stale, wrote⟩ := h.exact.owned p position claimed
  have cell := h.exact.index_eq claimed
  have advances := h.exact.linked.advances
  have mem : t.history.number p ∈ Finset.Ico t.history.advances t.history.claims := by
    refine mem_Ico.2 ⟨?_, h.exact.number_lt hp⟩
    cases taken : t.queue.consumer.taken with
    | none =>
      rw [taken] at advances
      exact advances.trans_le lower
    | some popped =>
      have ne := h.exact.number_ne hp (h.exact.fresh_popping (.inr taken)).2
      rw [taken, isSome_some, if_pos rfl] at advances
      omega
  have each : ∀ n ∈ Finset.Ico t.history.advances t.history.claims,
      held size (t.queue.inner.apply size (.settle position value)) n =
        held size t.queue.inner n +
          if n = t.history.number p then (t.queue.producers p).charged else 0 := by
    intro n inside
    obtain ⟨above, below⟩ := mem_Ico.1 inside
    split_ifs with here
    · have own : ((t.queue.inner.apply size (.settle position value)).ring
          (t.history.number p % size.slots)).bytes =
            (t.queue.inner.ring (t.history.number p % size.slots)).bytes := by
        rw [← cell, show (t.queue.inner.apply size (.settle position value)).ring
          (size.index position) = _ from update_self ..]
        rfl
      rw [here, held, held, if_neg stale, if_pos, Nat.zero_add, own, bytes _ wrote]
      exact (t.queue.inner.fresh_settle_iff position value _).2 (.inl cell.symm)
    · have apart := h.exact.cell_ne hp (show t.history.releases ≤ n by omega)
        (below.trans_le h.exact.claims_le) (Ne.symm here)
      exact held_congr (update_of_ne (cell ▸ apart) ..)
  rw [sum_congr rfl each, sum_add_distrib, sum_ite_eq', if_pos mem]

/-- Nothing that a producer writes is in the slot that is being popped. -/
theorem consumer_charged (h : Accounted size t) {p : ι} {operation : Operation w T}
    {stage : Producing w T}
    (move : Producing.Move size t.queue.inner (t.queue.producers p) operation stage) :
    t.queue.consumer.charged size (t.queue.inner.apply size operation) =
      t.queue.consumer.charged size t.queue.inner := by
  refine charged_congr fun position' taken => ?_
  obtain ⟨rfl, fresh⟩ := h.exact.fresh_popping (.inr taken)
  unfold Inner.slot
  rw [size.index_ofNat]
  have apart {position : BitVec w} (claimed : (t.queue.producers p).claimed = some position) :
      t.history.releases % size.slots ≠ size.index position := by
    rw [h.exact.index_eq claimed]
    exact fun same => (h.exact.owned p position claimed).2.1 (same ▸ fresh)
  generalize t.queue.producers p = stage₀ at move apart
  cases move with
  | write claimed | settle claimed => exact update_of_ne (apart claimed) ..
  | _ => rfl

section Produced

variable [DecidableEq ι] {p : ι} {operation : Operation w T} {stage : Producing w T}

/-- What a producer gives up is given back or stands in a slot. -/
theorem balance (h : Accounted size t) (exact : Exact size (t.produced size p operation stage))
    (consumer : t.queue.consumer.charged size (t.queue.inner.apply size operation) =
      t.queue.consumer.charged size t.queue.inner) (more : ℕ)
    (held : ∑ n ∈ Finset.Ico t.history.advances (t.history.produced p operation).claims,
        held size (t.queue.inner.apply size operation) n =
      ∑ n ∈ Finset.Ico t.history.advances t.history.claims, held size t.queue.inner n + more)
    (used : (t.queue.inner.apply size operation).bytesUsed + (t.queue.producers p).charged =
      t.queue.inner.bytesUsed + stage.charged + more)
    (le : (t.queue.inner.apply size operation).bytesUsed ≤ size.bytes) :
    Accounted size (t.produced size p operation stage) := by
  refine ⟨exact, ?_, le⟩
  have sum := sum_update Producing.charged t.queue.producers p stage
  have bytes := h.bytes
  unfold TrackedQueue.produced
  dsimp only
  rw [consumer, (produced_eq t.history p operation).1, held]
  omega

theorem produced (h : Accounted size t)
    (timely : ∀ position, operation = .claim position →
      t.history.claims < t.history.loadedAt p + 2 ^ w)
    (move : Producing.Move size t.queue.inner (t.queue.producers p) operation stage) :
    Accounted size (t.produced size p operation stage) := by
  have exact := h.exact.produced timely move
  have consumer := h.consumer_charged move
  have le := h.charged_le p
  have bytes_le := h.bytes_le
  have less := h.bytesUsed_lt
  generalize before : t.queue.producers p = stage₀ at move le
  cases move with
  | quiet quiet => exact h.balance exact consumer 0 rfl (by rw [before, quiet.charged]; rfl) bytes_le
  | load => exact h.balance exact consumer 0 rfl (by rw [before]; rfl) bytes_le
  | charge fits =>
    have small := Nat.mod_eq_of_lt (fits.trans_lt size.bytes_lt)
    refine h.balance exact consumer 0 rfl (by rw [before]; exact small) ?_
    exact small.trans_le fits
  | giveBack _ charged charged' =>
    have small := sub_bytes less (charged ▸ le)
    refine h.balance exact consumer 0 rfl ?_ (small.trans_le ((Nat.sub_le _ _).trans bytes_le))
    rw [before, charged, charged', show (t.queue.inner.apply size (.subBytes _)).bytesUsed = _ from small]
    omega
  | claim =>
    have vacant := h.exact.vacant t.history.claims le_rfl exact.claims_le
    have zero : held size t.queue.inner t.history.claims = 0 := if_neg vacant
    have top := sum_Ico_succ_top h.exact.advances_le (held size t.queue.inner)
    exact h.balance exact consumer 0 (top.trans (by rw [zero])) (by rw [before]; rfl) bytes_le
  | write claimed _ charged =>
    exact h.balance exact consumer 0
      (sum_congr rfl fun n _ => h.held_write (before ▸ claimed) n)
      (by rw [before, charged]; rfl) bytes_le
  | settle claimed _ charged' _ _ _ wrote =>
    refine h.balance exact consumer _
      (h.held_settle (before ▸ claimed) fun slot old => before ▸ (wrote slot (before ▸ old)).1) ?_
      bytes_le
    rw [charged']
    rfl

end Produced

theorem consumed (h : Accounted size t) {operation : Operation w T} {stage : Consuming w T}
    (move : Consuming.Move size t.queue.inner t.queue.consumer operation stage) :
    Accounted size (t.consumed size operation stage) := by
  have exact := h.exact.consumed move
  have bytes := h.bytes
  have bytes_le := h.bytes_le
  have less := h.bytesUsed_lt
  have linked := h.exact.linked
  have popping := @Exact.fresh_popping _ _ _ _ _ h.exact
  have advances := linked.advances
  generalize before : t.queue.consumer = stage₀ at move bytes popping advances
  cases move with
  | quiet _ charged => exact ⟨exact, bytes.trans (congrArg _ charged.symm), bytes_le⟩
  | advance position =>
    obtain ⟨rfl, fresh⟩ := popping (.inl rfl)
    have advances : t.history.advances = t.history.releases := advances
    have split := sum_eq_sum_Ico_succ_bot
      (show t.history.advances < t.history.claims from exact.advances_le) (held size t.queue.inner)
    have first : held size t.queue.inner t.history.advances =
        (t.queue.inner.slot size (BitVec.ofNat w t.history.releases)).bytes := by
      rw [advances, held, if_pos fresh, Inner.slot, size.index_ofNat]
    have none : Consuming.charged size t.queue.inner
        (.storeDequeue (BitVec.ofNat w t.history.releases)) = 0 := rfl
    refine ⟨exact, ?_, bytes_le⟩
    show t.queue.inner.bytesUsed = ∑ p, (t.queue.producers p).charged +
      ∑ n ∈ Finset.Ico (t.history.advances + 1) t.history.claims, held size t.queue.inner n +
        (t.queue.inner.slot size (BitVec.ofNat w t.history.releases)).bytes
    omega
  | @release _ position bytes' value taken' charged' =>
    obtain ⟨rfl, -⟩ := popping (.inr rfl)
    have advances : t.history.advances = t.history.releases + 1 := advances
    refine ⟨exact, bytes.trans ?_, bytes_le⟩
    have others : ∀ n ∈ Finset.Ico t.history.advances t.history.claims,
        held size (t.queue.inner.apply size (.release (BitVec.ofNat w t.history.releases) value)) n =
          held size t.queue.inner n := by
      intro n inside
      obtain ⟨above, below⟩ := mem_Ico.1 inside
      refine held_congr (update_of_ne (fun same => ?_) ..)
      rw [size.index_ofNat] at same
      have := Wrapping.window_inj (by omega) (below.trans_le h.exact.claims_le) le_rfl
        (Nat.lt_add_of_pos_right size.slots_pos) same
      omega
    rw [← sum_congr rfl others]
    exact congrArg _ (charged' _).symm
  | @giveBack _ _ bytes' _ _ _ charged charged' =>
    rw [charged] at bytes
    have small := sub_bytes less (show bytes' ≤ t.queue.inner.bytesUsed by omega)
    refine ⟨exact, small.trans ?_, small.trans_le ((Nat.sub_le _ _).trans bytes_le)⟩
    rw [show (t.consumed size _ stage).queue.consumer.charged size _ = 0 from charged' _, Nat.add_zero]
    exact Nat.sub_eq_of_eq_add bytes

theorem close (h : Accounted size t) : Accounted size t.close :=
  ⟨h.exact.close, h.bytes.trans (congrArg _ (charged_congr fun _ _ => rfl)), h.bytes_le⟩

theorem act [DecidableEq ι] (h : Accounted size t) {action : QueueAction T ι} (timely : t.Timely action) :
    Accounted size (t.act size action) := timely.act h.produced h.consumed h.close

end Accounted

end TrackedQueue

end Eventd
