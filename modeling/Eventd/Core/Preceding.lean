import Eventd.Core.Reconcile

/-!
# What a gap says about the event before it

A `Reconciler` remembers the timestamp of the last event it accepted and puts it into
the first gap of a later observation, as the timestamp of the event before the gap.
The memory is right while the last accepted event is the one before the next expected
sequence.  Observing a receipted sequence again, below that one, replaces the
timestamp and leaves the next expected sequence where it was.

* `Reconciler.afterAll`: the reconciler after a run of observations;
* `Remembers`: the invariant that ties the remembered timestamp to its event;
* `Forward`: the runs in which no older receipted sequence is observed again;
* `gaps_name_preceding_event`: the gaps of an observation after such a run.
-/

namespace Eventd

open List

/-- What a list of gaps says when it is right: a gap was revealed at `revealing`, and a
timestamp it gives for the event before it is one that event was observed with. -/
def Truthful (seen : List (ℕ × UInt64)) (revealing : UInt64) (gaps : List Gap) : Prop :=
  ∀ gap ∈ gaps, gap.revealingTimestamp = revealing ∧
    ∀ t, gap.precedingTimestamp = some t → (gap.firstSequence - 1, t) ∈ seen

section Gaps

variable {seen : List (ℕ × UInt64)} {first last : ℕ} {preceding : Option UInt64}
  (revealing : UInt64) (pos : 0 < first)
  (known : ∀ t, preceding = some t → (first - 1, t) ∈ seen)

include known

theorem truthful_makeGap (hlast : last ≤ u64Max) :
    Truthful seen revealing (makeGap first last preceding revealing pos hlast) := by
  intro gap mem
  rw [makeGap] at mem
  split_ifs at mem with h
  · cases mem_singleton.1 mem
    exact ⟨rfl, known⟩
  · cases mem

/-- Only a gap that starts at the first sequence of the span can name the event before it. -/
theorem truthful_uncoveredGapsFrom (hlast : last < u64Max) (receipts : List Interval) :
    Truthful seen revealing
      (uncoveredGapsFrom last hlast revealing receipts first pos preceding) := by
  induction receipts generalizing first preceding with
  | nil => exact truthful_makeGap revealing pos known hlast.le
  | cons receipt receipts ih =>
    rw [uncoveredGapsFrom]
    split
    · exact ih pos known
    · split
      · exact truthful_makeGap revealing pos known hlast.le
      · intro gap mem
        rcases mem_append.1 mem with mem | mem
        · exact truthful_makeGap revealing pos known _ gap mem
        · split at mem
          · cases mem
          · exact ih (lt_max_of_lt_left pos) (fun t eq => by cases eq) gap mem

end Gaps

namespace Reconciler

/-- The reconciler after an observation: one that is refused leaves it as it was. -/
def after (r : Reconciler) (observed : ℕ × UInt64) : Reconciler :=
  match r.observe observed.1 observed.2 with
  | .ok (_, r') => r'
  | .error _ => r

/-- The reconciler after a run of observations. -/
def afterAll (r : Reconciler) (seen : List (ℕ × UInt64)) : Reconciler := seen.foldl after r

/-- The observations of a run that are not refused. -/
def accepted (r : Reconciler) : List (ℕ × UInt64) → List (ℕ × UInt64)
  | [] => []
  | observed :: seen =>
    (match r.observe observed.1 observed.2 with
      | .ok _ => [observed]
      | .error _ => []) ++ (r.after observed).accepted seen

/-- The remembered timestamp is one that the event before the next expected sequence was
observed with. -/
def Remembers (r : Reconciler) (seen : List (ℕ × UInt64)) : Prop :=
  ∀ t, r.precedingTimestamp = some t → (r.nextSequence - 1, t) ∈ seen

/-- An observation that does not go back: a receipted sequence that is observed again is the
one before the next expected sequence. -/
def Onward (r : Reconciler) (sequence : ℕ) : Prop :=
  r.covered sequence = true → r.nextSequence ≤ sequence + 1

/-- No observation of a run goes back. -/
def Forward (r : Reconciler) : List (ℕ × UInt64) → Prop
  | [] => True
  | observed :: seen => r.Onward observed.1 ∧ (r.after observed).Forward seen

variable {r : Reconciler} {seen : List (ℕ × UInt64)}

/-- The gaps of one observation are truthful if the reconciler remembers the right event. -/
theorem truthful_observe {r' : Reconciler} (remembers : r.Remembers seen) {sequence : ℕ}
    {timestamp : UInt64} {observation : Observation}
    (h : r.observe sequence timestamp = .ok (observation, r')) :
    Truthful seen timestamp observation.gaps := by
  rcases observe_cases h with ⟨-, -, -, rfl, -⟩ | ⟨-, hseq, rfl, -⟩
  · intro gap mem
    cases mem
  · change Truthful seen timestamp (r.uncoveredGaps sequence hseq timestamp)
    rw [uncoveredGaps]
    split
    · intro gap mem
      cases mem
    · exact truthful_uncoveredGapsFrom timestamp r.next_pos remembers _ _

/-- One accepted observation that does not go back keeps the memory right. -/
theorem remembers_observe {r' : Reconciler} {observed : ℕ × UInt64} {observation : Observation}
    (onward : r.Onward observed.1) (h : r.observe observed.1 observed.2 = .ok (observation, r')) :
    r'.Remembers [observed] := by
  intro t remembered
  rw [mem_singleton]
  rcases observe_cases h with ⟨-, below, covered, -, rfl⟩ | ⟨-, -, -, rfl⟩
  · -- the same event again: the one before the next expected sequence
    have last : r.nextSequence - 1 = observed.1 := by
      have := onward covered
      omega
    exact Prod.ext last (Option.some.inj remembered).symm
  · exact Prod.ext rfl (Option.some.inj remembered).symm

theorem Remembers.mono {seen' : List (ℕ × UInt64)} (remembers : r.Remembers seen)
    (subset : seen ⊆ seen') : r.Remembers seen' :=
  fun t remembered => subset (remembers t remembered)

/-- A run that never goes back keeps the memory right. -/
theorem remembers_afterAll {before : List (ℕ × UInt64)} (remembers : r.Remembers before)
    (forward : r.Forward seen) :
    (r.afterAll seen).Remembers (before ++ r.accepted seen) := by
  induction seen generalizing r before with
  | nil => exact remembers.mono (subset_append_left _ _)
  | cons observed seen ih =>
    obtain ⟨onward, forward⟩ := forward
    rw [accepted, ← append_assoc]
    refine ih ?_ forward
    rw [after]
    cases h : r.observe observed.1 observed.2 with
    | error e => exact remembers.mono (subset_append_left _ _)
    | ok result => exact (remembers_observe onward h).mono (subset_append_right _ _)

theorem remembers_new (coverage : Coverage) (boot : Guid) (cpu : UInt16) :
    (new coverage boot cpu).Remembers [] := by
  intro t remembered
  cases remembered

end Reconciler

open Reconciler

/-- **After every run that never observes an older receipted sequence again, the gaps of the
next observation name the timestamp of that observation and, where they name one, a timestamp
with which the event before the gap was observed.** -/
theorem gaps_name_preceding_event (coverage : Coverage) (boot : Guid) (cpu : UInt16)
    (seen : List (ℕ × UInt64)) (forward : (new coverage boot cpu).Forward seen) (sequence : ℕ)
    (timestamp : UInt64) (observation : Observation) (r' : Reconciler)
    (h : ((new coverage boot cpu).afterAll seen).observe sequence timestamp =
      .ok (observation, r')) :
    Truthful ((new coverage boot cpu).accepted seen) timestamp observation.gaps :=
  truthful_observe (remembers_afterAll (remembers_new coverage boot cpu) forward) h

/-- A stream whose first three events have receipts. -/
def firstThree : Coverage where
  ranges _ _ := [⟨1, 3, Nat.one_pos, by decide, by decide⟩]
  separated _ _ := pairwise_singleton _ _

/-- The third event is read, and then the sixth: the gap names the time of the third. -/
theorem gaps_name_third_event :
    (new firstThree (Vector.replicate 16 0) 0).Forward [(3, 30)] ∧
      (((new firstThree (Vector.replicate 16 0) 0).afterAll [(3, 30)]).observe 6 60).map Prod.fst =
        .ok ⟨true, [⟨4, 5, some 30, 60, by decide, by decide, by decide⟩]⟩ ∧
      Truthful [(3, 30)] 60 [⟨4, 5, some 30, 60, by decide, by decide, by decide⟩] := by
  have forward : (new firstThree (Vector.replicate 16 0) 0).Forward [(3, 30)] :=
    ⟨fun _ => by decide, trivial⟩
  exact ⟨forward, rfl, gaps_name_preceding_event _ _ _ [(3, 30)] forward 6 60 _ _ rfl⟩

/-- The first event is read again after the third, both with receipts: the gap from the fourth
event on names the time of the first as that of the third. -/
theorem gap_names_older_event :
    ∃ observation r', ((new firstThree (Vector.replicate 16 0) 0).afterAll
        [(3, 30), (1, 10)]).observe 6 60 = .ok (observation, r') ∧
      observation.gaps = [⟨4, 5, some 10, 60, by decide, by decide, by decide⟩] ∧
      ¬ Truthful ((new firstThree (Vector.replicate 16 0) 0).accepted [(3, 30), (1, 10)]) 60
        observation.gaps := by
  refine ⟨_, _, rfl, rfl, fun truthful => ?_⟩
  exact absurd ((truthful _ mem_cons_self).2 10 rfl) (by decide)

end Eventd
