import Eventd.Core.Receipt

/-!
# Restart reconciliation and gap detection

`eventd-core/src/reconcile.rs`: the per-CPU state that turns the ring events still
readable after a restart into the events to store and the gaps to report, against
the receipts that earlier runs committed.

* `Reconciler.observe`: one surviving event;
* `gapCount_uncoveredGaps`: the gaps of one observation contain each uncovered sequence
  they skip exactly once, and no other sequence;
* `observe_cases`: everything a successful observation can have done;
* `observeInPlace`, `observeEach`: the same as the code does it, on the state it owns, and a
  whole run of it;
* `observe_reports_holes`: the gaps are the maximal receipt-free intervals, and over a run no
  sequence is reported twice.
-/

namespace Eventd

open List

/-- How many gaps of a list contain a sequence. -/
def gapCount (gaps : List Gap) (s : ℕ) : ℕ := gaps.countP fun gap => gap.contains s

@[simp] theorem gapCount_nil (s : ℕ) : gapCount [] s = 0 := rfl

theorem gapCount_cons (gap : Gap) (gaps : List Gap) (s : ℕ) :
    gapCount (gap :: gaps) s =
      (if gap.firstSequence ≤ s ∧ s ≤ gap.lastSequence then 1 else 0) + gapCount gaps s := by
  simp only [gapCount, countP_cons, Gap.contains_iff]
  omega

theorem gapCount_append (gaps others : List Gap) (s : ℕ) :
    gapCount (gaps ++ others) s = gapCount gaps s + gapCount others s :=
  countP_append

/-- Incompatible KMES sequence behaviour. -/
inductive ReconcileError
  | zeroSequence
  | regression (expectedAtLeast observed : ℕ)
  | sequenceExhausted
  deriving DecidableEq

/-- Result of observing one ring event. -/
structure Observation where
  storeEvent : Bool
  gaps : List Gap
  deriving DecidableEq

/-- Per-CPU reconciliation state, owned only by that CPU's drain thread. -/
structure Reconciler where
  coverage : Coverage
  bootId : Guid
  cpuId : UInt16
  nextSequence : ℕ
  precedingTimestamp : Option UInt64
  next_pos : 0 < nextSequence

/-- The gap from `first` to `last`, if there is anything between them. -/
def makeGap (first last : ℕ) (preceding : Option UInt64) (revealing : UInt64)
    (pos : 0 < first) (hlast : last ≤ u64Max) : List Gap :=
  if h : first ≤ last then [⟨first, last, preceding, revealing, pos, h, hlast⟩] else []

/-- The loop over the receipts of the stream, with `first` as the first sequence not
yet accounted for and `last` as the end of the span. -/
def uncoveredGapsFrom (last : ℕ) (hlast : last < u64Max) (revealing : UInt64) :
    List Interval → (first : ℕ) → 0 < first → Option UInt64 → List Gap
  | [], first, pos, preceding => makeGap first last preceding revealing pos hlast.le
  | receipt :: receipts, first, pos, preceding =>
    if receipt.last < first then
      uncoveredGapsFrom last hlast revealing receipts first pos preceding
    else if last < receipt.first then makeGap first last preceding revealing pos hlast.le
    else
      makeGap first (receipt.first - 1) preceding revealing pos
        ((Nat.sub_le _ _).trans (receipt.first_le_last.trans receipt.last_le)) ++
      -- a receipt proves accounting but does not tell the preceding event's timestamp
      if last < max first (saturatingSucc receipt.last) then []
      else uncoveredGapsFrom last hlast revealing receipts
        (max first (saturatingSucc receipt.last)) (lt_max_of_lt_left pos) none

namespace Reconciler

/-- Begin at sequence one for a boot stream. -/
def new (coverage : Coverage) (bootId : Guid) (cpuId : UInt16) : Reconciler :=
  ⟨coverage, bootId, cpuId, 1, none, one_pos⟩

/-- Whether a sequence of this stream has a receipt. -/
def covered (r : Reconciler) (sequence : ℕ) : Bool :=
  r.coverage.contains r.bootId r.cpuId sequence

/-- The receipt-free intervals between the next expected sequence and `sequence`. -/
def uncoveredGaps (r : Reconciler) (sequence : ℕ) (hseq : sequence < u64Max)
    (revealing : UInt64) : List Gap :=
  if sequence ≤ r.nextSequence then []
  else uncoveredGapsFrom (sequence - 1) ((Nat.sub_le _ _).trans_lt hseq) revealing
    (r.coverage.intervals r.bootId r.cpuId) r.nextSequence r.next_pos r.precedingTimestamp

/-- Reconcile one surviving ring event. -/
def observe (r : Reconciler) (sequence : ℕ) (timestamp : UInt64) :
    Except ReconcileError (Observation × Reconciler) :=
  if sequence = 0 then .error .zeroSequence
  else if sequence < r.nextSequence then
    if r.covered sequence then
      .ok (⟨false, []⟩, { r with precedingTimestamp := some timestamp })
    else .error (.regression r.nextSequence sequence)
  -- `checked_add` has no successor for `u64::MAX`, whatever the gaps were
  else if h : sequence < u64Max then
    .ok (⟨!r.covered sequence, r.uncoveredGaps sequence h timestamp⟩,
      { r with
        nextSequence := sequence + 1
        precedingTimestamp := some timestamp
        next_pos := Nat.succ_pos sequence })
  else .error .sequenceExhausted

end Reconciler

/-! ### What the gaps of one observation contain -/

theorem gapCount_makeGap {first last : ℕ} (preceding : Option UInt64) (revealing : UInt64)
    (pos : 0 < first) (hlast : last ≤ u64Max) (s : ℕ) :
    gapCount (makeGap first last preceding revealing pos hlast) s =
      if first ≤ s ∧ s ≤ last then 1 else 0 := by
  rw [makeGap]
  split_ifs <;> simp_all [gapCount_cons]
  all_goals omega

theorem gapCount_uncoveredGapsFrom {last : ℕ} (hlast : last < u64Max) (revealing : UInt64)
    {receipts : List Interval} (sep : receipts.Pairwise Interval.Before) (first : ℕ)
    (pos : 0 < first) (preceding : Option UInt64) (s : ℕ) :
    gapCount (uncoveredGapsFrom last hlast revealing receipts first pos preceding) s =
      if first ≤ s ∧ s ≤ last ∧ (receipts.any fun i => i.contains s) = false then 1 else 0 := by
  induction receipts generalizing first preceding with
  | nil => simp [uncoveredGapsFrom, gapCount_makeGap]
  | cons receipt receipts ih =>
    rw [pairwise_cons] at sep
    obtain ⟨before, sep⟩ := sep
    have nonempty := receipt.first_le_last
    have start := receipt.first_pos
    -- a later receipt can only cover what lies beyond this one
    have beyond : (receipts.any fun i => i.contains s) = true → receipt.last < s := by
      intro covered
      obtain ⟨i, mem, hi⟩ := any_eq_true.1 covered
      have := before i mem
      rw [Interval.contains_iff] at hi
      unfold Interval.Before at this
      omega
    have here : (receipt.contains s = false) ↔ (s < receipt.first ∨ receipt.last < s) := by
      rw [← Bool.not_eq_true, Interval.contains_iff]
      omega
    have ih := ih sep
    simp only [any_cons, Bool.or_eq_false_iff, here]
    generalize (receipts.any fun i => i.contains s) = later at ih beyond ⊢
    -- what the loop still reports once it is past this receipt
    have rest : gapCount (if last < max first (saturatingSucc receipt.last) then []
        else uncoveredGapsFrom last hlast revealing receipts
          (max first (saturatingSucc receipt.last)) (lt_max_of_lt_left pos) none) s =
        if receipt.last < s ∧ first ≤ s ∧ s ≤ last ∧ later = false then 1 else 0 := by
      have upper : saturatingSucc receipt.last ≤ receipt.last + 1 := min_le_left _ _
      have lower : receipt.last < saturatingSucc receipt.last ∨
          saturatingSucc receipt.last = u64Max := by
        rw [saturatingSucc]
        omega
      generalize saturatingSucc receipt.last = next at upper lower ⊢
      split
      · rw [gapCount_nil, if_neg (by omega)]
      · rw [ih]
        refine if_congr ?_ rfl rfl
        rw [← and_assoc, ← and_assoc, ← and_assoc]
        exact and_congr_left' (by omega)
    rw [uncoveredGapsFrom]
    split
    · rw [ih]
      refine if_congr ?_ rfl rfl
      cases later <;> simp
      omega
    · split
      · rw [gapCount_makeGap]
        refine if_congr ?_ rfl rfl
        cases later
        · simp only [and_true]
          omega
        · have := beyond rfl
          simp only [Bool.true_eq_false, and_false, iff_false]
          omega
      · rw [gapCount_append, gapCount_makeGap, rest]
        cases later
        · simp only [and_true]
          split_ifs <;> omega
        · have := beyond rfl
          simp only [Bool.true_eq_false, and_false, if_false]
          exact if_neg (by omega)

namespace Reconciler

theorem covered_eq_any (r : Reconciler) (s : ℕ) :
    r.covered s = (r.coverage.intervals r.bootId r.cpuId).any fun i => i.contains s := by
  rw [Bool.eq_iff_iff, covered, Coverage.contains_iff, any_eq_true]

/-- **The gaps of an observation contain every uncovered sequence between the next
expected one and the observed one exactly once, and nothing else.** -/
theorem gapCount_uncoveredGaps (r : Reconciler) (sequence : ℕ) (hseq : sequence < u64Max)
    (revealing : UInt64) (s : ℕ) :
    gapCount (r.uncoveredGaps sequence hseq revealing) s =
      if r.nextSequence ≤ s ∧ s < sequence ∧ r.covered s = false then 1 else 0 := by
  rw [uncoveredGaps]
  split
  · rw [gapCount_nil, if_neg (by omega)]
  · rw [gapCount_uncoveredGapsFrom _ _ (r.coverage.intervals_separated _ _), covered_eq_any]
    refine if_congr ?_ rfl rfl
    rw [← and_assoc, ← and_assoc]
    exact and_congr_left' (by omega)

/-- Everything a successful observation can have done: it met a receipted sequence
below the next expected one, or it moved on to a sequence not below it. -/
theorem observe_cases {r r' : Reconciler} {sequence : ℕ} {timestamp : UInt64}
    {observation : Observation} (h : r.observe sequence timestamp = .ok (observation, r')) :
    (0 < sequence ∧ sequence < r.nextSequence ∧ r.covered sequence = true ∧
      observation = ⟨false, []⟩ ∧ r' = { r with precedingTimestamp := some timestamp }) ∨
    (r.nextSequence ≤ sequence ∧ ∃ hseq : sequence < u64Max,
      observation = ⟨!r.covered sequence, r.uncoveredGaps sequence hseq timestamp⟩ ∧
      r' = { r with
        nextSequence := sequence + 1
        precedingTimestamp := some timestamp
        next_pos := Nat.succ_pos sequence }) := by
  rw [observe] at h
  split_ifs at h with zero below covered inRange
  · obtain ⟨rfl, rfl⟩ := Prod.mk.inj (Except.ok.inj h)
    exact .inl ⟨Nat.pos_of_ne_zero zero, below, covered, rfl, rfl⟩
  · obtain ⟨rfl, rfl⟩ := Prod.mk.inj (Except.ok.inj h)
    exact .inr ⟨not_lt.1 below, inRange, rfl, rfl⟩

theorem observe_pos {r r' : Reconciler} {sequence : ℕ} {timestamp : UInt64}
    {observation : Observation} (h : r.observe sequence timestamp = .ok (observation, r')) :
    0 < sequence := by
  rcases observe_cases h with ⟨pos, -⟩ | ⟨next, -⟩
  · exact pos
  · exact r.next_pos.trans_le next

/-! ### The gaps as maximal intervals -/

end Reconciler

theorem mem_makeGap {first last : ℕ} {preceding : Option UInt64} {revealing : UInt64}
    {pos : 0 < first} {hlast : last ≤ u64Max} {gap : Gap}
    (mem : gap ∈ makeGap first last preceding revealing pos hlast) :
    gap.firstSequence = first ∧ gap.lastSequence = last := by
  rw [makeGap] at mem
  split_ifs at mem
  · obtain rfl := mem_singleton.1 mem
    exact ⟨rfl, rfl⟩
  · cases mem

theorem pairwise_makeGap {first last : ℕ} {preceding : Option UInt64} {revealing : UInt64}
    {pos : 0 < first} {hlast : last ≤ u64Max} {relation : Gap → Gap → Prop} :
    (makeGap first last preceding revealing pos hlast).Pairwise relation := by
  rw [makeGap]
  split_ifs <;> simp

/-- The loop reports nothing before where it starts, and its gaps are in order and apart: a
receipt lies between any two of them. -/
theorem apart_uncoveredGapsFrom {last : ℕ} (hlast : last < u64Max) (revealing : UInt64)
    (receipts : List Interval) (first : ℕ) (pos : 0 < first) (preceding : Option UInt64) :
    (∀ gap ∈ uncoveredGapsFrom last hlast revealing receipts first pos preceding,
      first ≤ gap.firstSequence) ∧
    (uncoveredGapsFrom last hlast revealing receipts first pos preceding).Pairwise
      fun a b => a.lastSequence + 1 < b.firstSequence := by
  induction receipts generalizing first preceding with
  | nil => exact ⟨fun gap mem => (mem_makeGap mem).1.ge, pairwise_makeGap⟩
  | cons receipt receipts ih =>
    have start := receipt.first_pos
    have nonempty := receipt.first_le_last
    rw [uncoveredGapsFrom]
    split
    · exact ih first pos preceding
    · split
      · exact ⟨fun gap mem => (mem_makeGap mem).1.ge, pairwise_makeGap⟩
      · split
        · rw [append_nil]
          exact ⟨fun gap mem => (mem_makeGap mem).1.ge, pairwise_makeGap⟩
        · next reached =>
          -- the receipt ends below the top, so the loop goes on right after it
          have next : saturatingSucc receipt.last = receipt.last + 1 := by
            unfold saturatingSucc at reached ⊢
            omega
          obtain ⟨later, apart⟩ := ih (max first (saturatingSucc receipt.last))
            (lt_max_of_lt_left pos) none
          refine ⟨fun gap mem => ?_, pairwise_append.2 ⟨pairwise_makeGap, apart, ?_⟩⟩
          · rcases mem_append.1 mem with mem | mem
            · exact (mem_makeGap mem).1.ge
            · exact (le_max_left _ _).trans (later gap mem)
          · intro a memA b memB
            have ends := (mem_makeGap memA).2
            have starts := later b memB
            omega

namespace Reconciler

/-- What is between the next expected sequence and `sequence`, and has no receipt. -/
def holes (r : Reconciler) (sequence : ℕ) : Set ℕ :=
  {s | r.nextSequence ≤ s ∧ s ≤ sequence - 1 ∧ r.covered s = false}

theorem gapCount_pos_iff {gaps : List Gap} {s : ℕ} :
    0 < gapCount gaps s ↔ s ∈ Runs.covered Gap.firstSequence Gap.lastSequence gaps := by
  simp [gapCount, countP_pos_iff, Runs.covered]

section

variable (r : Reconciler) (sequence : ℕ) (hseq : sequence < u64Max) (revealing : UInt64)

theorem normal_uncoveredGaps : Runs.Normal Gap.firstSequence Gap.lastSequence
      (r.uncoveredGaps sequence hseq revealing) := by
  refine ⟨fun gap _ => gap.first_le_last, ?_⟩
  rw [uncoveredGaps]
  split
  · exact List.Pairwise.nil
  · exact (apart_uncoveredGapsFrom _ _ _ _ _ _).2

theorem covered_uncoveredGaps : Runs.covered Gap.firstSequence Gap.lastSequence
      (r.uncoveredGaps sequence hseq revealing) = r.holes sequence := by
  ext s
  rw [← gapCount_pos_iff, gapCount_uncoveredGaps, holes]
  have := r.next_pos
  split_ifs with reported
  · simp only [Set.mem_ofPred_eq, Nat.lt_one_iff, pos_of_gt, true_iff]
    exact ⟨reported.1, by omega, reported.2.2⟩
  · simp only [lt_irrefl, Set.mem_ofPred_eq, false_iff]
    rintro ⟨low, high, free⟩
    exact reported ⟨low, by omega, free⟩

end

/-! ### Runs -/

/-- `observe` as the source has it, on the state it is called on. -/
def observeInPlace (sequence : ℕ) (timestamp : UInt64) :
    ExceptT ReconcileError (StateM Reconciler) Observation := do
  if sequence = 0 then throw .zeroSequence
  let self ← get
  if sequence < self.nextSequence then
    if self.covered sequence then
      set { self with precedingTimestamp := some timestamp }
      return ⟨false, []⟩
    throw (.regression self.nextSequence sequence)
  let storeEvent := !self.covered sequence
  -- `checked_add`
  if h : sequence < u64Max then
    set { self with nextSequence := sequence + 1, next_pos := Nat.succ_pos sequence }
    modify fun self => { self with precedingTimestamp := some timestamp }
    return ⟨storeEvent, self.uncoveredGaps sequence h timestamp⟩
  throw .sequenceExhausted

/-- On the state it owns `observe` does what it does as a function, and an error leaves the
state as it was. -/
theorem run_observeInPlace (r : Reconciler) (sequence : ℕ) (timestamp : UInt64) :
    (observeInPlace sequence timestamp).run.run r =
      match r.observe sequence timestamp with
      | .ok (observation, r') => (.ok observation, r')
      | .error error => (.error error, r) := by
  have get_bind {β : Type} (next : Reconciler → ExceptT ReconcileError (StateM Reconciler) β) :
      ((get >>= next : ExceptT ReconcileError (StateM Reconciler) β).run).run r =
        (next r).run.run r := rfl
  rw [observeInPlace, observe]
  by_cases zero : sequence = 0
  · rw [if_pos zero, if_pos zero]
    rfl
  rw [if_neg zero, if_neg zero]
  refine (get_bind _).trans ?_
  by_cases below : sequence < r.nextSequence
  · rw [if_pos below, if_pos below]
    split_ifs <;> rfl
  · rw [if_neg below, if_neg below]
    split_ifs <;> rfl

/-- Observe events one after another; after an error the next one is observed on the state
that the error left. -/
def observeEach (r : Reconciler) : List (ℕ × UInt64) → List (ℕ × Observation)
  | [] => []
  | (sequence, timestamp) :: rest =>
    match (observeInPlace sequence timestamp).run.run r with
    | (.ok observation, r') => (sequence, observation) :: observeEach r' rest
    | (.error _, r') => observeEach r' rest

/-- The gaps of a run. -/
def reported (run : List (ℕ × Observation)) : List Gap := run.flatMap fun entry => entry.2.gaps

/-- The sequences to be stored in a run. -/
def toStore (run : List (ℕ × Observation)) : List ℕ :=
  (run.filter fun entry => entry.2.storeEvent).map Prod.fst

/-- A run accounts for nothing below the next expected sequence, and for each other one at
most once: in a gap, or as an event to be stored. -/
theorem accounted_once (r : Reconciler) (events : List (ℕ × UInt64)) (s : ℕ) :
    (s < r.nextSequence → gapCount (reported (r.observeEach events)) s = 0 ∧
      s ∉ toStore (r.observeEach events)) ∧
    gapCount (reported (r.observeEach events)) s + (toStore (r.observeEach events)).count s ≤ 1 := by
  induction events generalizing r with
  | nil => simp [observeEach, reported, toStore]
  | cons event rest ih =>
    obtain ⟨sequence, timestamp⟩ := event
    rw [observeEach, run_observeInPlace]
    cases observed : r.observe sequence timestamp with
    | error error => exact ih r
    | ok result =>
      obtain ⟨observation, r'⟩ := result
      obtain ⟨below, once⟩ := ih r'
      have gaps : gapCount (reported ((sequence, observation) :: r'.observeEach rest)) s =
          gapCount observation.gaps s + gapCount (reported (r'.observeEach rest)) s := by
        rw [reported, flatMap_cons, gapCount_append]
        rfl
      have stored : toStore ((sequence, observation) :: r'.observeEach rest) =
          (if observation.storeEvent then [sequence] else []) ++ toStore (r'.observeEach rest) := by
        rw [toStore, filter_cons]
        split_ifs <;> rfl
      rw [gaps, stored]
      rcases observe_cases observed with ⟨-, -, -, rfl, rfl⟩ | ⟨next, hseq, rfl, rfl⟩
      · simpa using ⟨below, once⟩
      · generalize here : (if (!r.covered sequence) = true then [sequence] else []) = kept
        have keptOnly : s ≠ sequence → s ∉ kept := by
          intro other
          subst here
          split_ifs <;> simp [other]
        have keptOnce : kept.count s ≤ 1 := by
          subst here
          split_ifs <;> simp [count_singleton]
          split_ifs <;> simp
        -- what this observation accounts for is below the next expected sequence afterwards
        have gapsOnly := gapCount_uncoveredGaps r sequence hseq timestamp s
        rw [count_append, mem_append, not_or]
        rcases lt_trichotomy s sequence with before | equal | after
        · obtain ⟨none, absent⟩ := below (show s < sequence + 1 by omega)
          rw [none, count_eq_zero_of_not_mem absent,
            count_eq_zero_of_not_mem (keptOnly (by omega)), gapsOnly]
          refine ⟨fun under => ⟨by rw [if_neg (by omega)], keptOnly (by omega), absent⟩, ?_⟩
          split_ifs <;> omega
        · obtain ⟨none, absent⟩ := below (show s < sequence + 1 by omega)
          rw [none, count_eq_zero_of_not_mem absent, gapsOnly, if_neg (by omega)]
          exact ⟨fun under => by omega, by omega⟩
        · rw [count_eq_zero_of_not_mem (keptOnly (by omega)), gapsOnly, if_neg (by omega)]
          exact ⟨fun under => by omega, by omega⟩

/-- **The reconciler reports exactly the holes.**  An event at or above the next expected
sequence is refused only if no sequence can follow it; otherwise its gaps are the maximal
intervals without a receipt below it, in order, and it is to be stored if it has no receipt
itself.  In a run from the start no sequence is in two gaps, nor in a gap and stored; and an
error leaves the state as it was. -/
theorem observe_reports_holes :
    (∀ (r : Reconciler) (sequence : ℕ) (timestamp : UInt64), r.nextSequence ≤ sequence →
      match r.observe sequence timestamp with
      | .error error => error = .sequenceExhausted ∧ u64Max ≤ sequence
      | .ok (observation, _) =>
        (∀ a b, (∃ gap ∈ observation.gaps, gap.firstSequence = a ∧ gap.lastSequence = b) ↔
          Runs.IsRun (r.holes sequence) a b) ∧
        (observation.gaps.Pairwise fun a b => a.lastSequence < b.firstSequence) ∧
        (observation.storeEvent = true ↔ r.covered sequence = false)) ∧
    (∀ (coverage : Coverage) (boot : Guid) (cpu : UInt16) (events : List (ℕ × UInt64)) (s : ℕ),
      let run := (new coverage boot cpu).observeEach events
      gapCount (reported run) s ≤ 1 ∧ (0 < gapCount (reported run) s → s ∉ toStore run)) ∧
    ∀ (r : Reconciler) (sequence : ℕ) (timestamp : UInt64) (error : ReconcileError)
      (left : Reconciler), (observeInPlace sequence timestamp).run.run r = (.error error, left) →
      left = r := by
  refine ⟨fun r sequence timestamp next => ?_, fun coverage boot cpu events s => ?_,
    fun r sequence timestamp error left failed => ?_⟩
  · have pos := r.next_pos
    rw [observe, if_neg (by omega), if_neg (by omega)]
    split_ifs with inRange
    · have normal := r.normal_uncoveredGaps sequence inRange timestamp
      refine ⟨fun a b => ?_, normal.apart.imp fun apart => by omega, by simp⟩
      rw [← normal.isRun_covered_iff, covered_uncoveredGaps]
    · exact ⟨rfl, not_lt.1 inRange⟩
  · obtain ⟨-, once⟩ := (new coverage boot cpu).accounted_once events s
    refine ⟨by omega, fun reported stored => ?_⟩
    have := count_pos_iff.2 stored
    omega
  · rw [run_observeInPlace] at failed
    cases observed : r.observe sequence timestamp with
    | ok result => rw [observed] at failed; cases failed
    | error => rw [observed] at failed; exact (Prod.mk.inj failed).2.symm

end Reconciler

end Eventd
