import Eventd.Lib.RingReader
import Eventd.Daemon.DrainLoop

/-!
# The drain loop and the replacement of its ring

KMES replaces the ring of a CPU when its capacity changes, and says so by changing the generation
in the old ring.  `drain` looks at the generation after each cycle, attaches to the replacement,
looks there for the first event after the last one it handled, and goes on with that ring.

What the loop is shown in a step is tied here to rings that KMES writes and overwrites meanwhile:
each value is what the ring held at the moment it was read, and the ring may have grown between
two reads.  A replacement may hold anything, as long as its sequences increase.

* `KernelRing`, `KernelRing.Later`: a ring, and what becomes of it;
* `DrainWorld`, `DrainWorld.Step`: the loop between its rings;
* `Keeps`: an event has been handled, or is ahead, or was overwritten;
* `Smooth`: what a step of a run without skips meets when it goes over to a replacement;
* `invariant_step`, `replacement_neither_skips_nor_repeats`: such runs.
-/

namespace Eventd

open Option List RingReader

/-! ### Rings -/

/-- The ring of a CPU, as KMES keeps it. -/
structure KernelRing where
  ring : Ring RingEvent.sequence
  generation : ℕ
  replaced : Bool

namespace KernelRing

/-- The ring later on.  The CPU's last sequence was `c` and is `c'` now; what was added came in
between.  A replacement changes the generation, once. -/
structure Later (c c' : ℕ) (r r' : KernelRing) : Prop where
  grows : Grows c c' r.ring r'.ring
  stays : r.replaced = true → r'.replaced = true ∧ r'.generation = r.generation
  same : r'.replaced = false → r'.generation = r.generation
  changes : r.replaced = false → r'.replaced = true → r'.generation ≠ r.generation

namespace Later

variable {c c' c'' : ℕ} {r r' r'' : KernelRing}

theorem refl (r : KernelRing) : Later c c r r :=
  ⟨.refl _, fun replaced => ⟨replaced, rfl⟩, fun _ => rfl, fun no yes => by simp [no] at yes⟩

theorem not_replaced (h : Later c c' r r') (no : r'.replaced = false) : r.replaced = false := by
  by_contra yes
  rw [(h.stays (by simpa using yes)).1] at no
  cases no

theorem trans (h : Later c c' r r') (h' : Later c' c'' r' r'') : Later c c'' r r'' where
  grows := h.grows.trans h'.grows
  stays replaced := by
    obtain ⟨replaced', same⟩ := h.stays replaced
    obtain ⟨replaced'', same'⟩ := h'.stays replaced'
    exact ⟨replaced'', same'.trans same⟩
  same no := (h'.same no).trans (h.same (h'.not_replaced no))
  changes no yes := by
    by_cases between : r'.replaced = true
    · rw [(h'.stays between).2]
      exact h.changes no between
    · have between : r'.replaced = false := by simpa using between
      rw [← h.same between]
      exact h'.changes between yes

end Later

/-- What a read of the next event shows.  The tail, the write position, the event and the tail again,
twice, are read one after another; an event whose position was not overwritten by then is the
one that was written there. -/
def Sees (c c' : ℕ) (r r' : KernelRing) (position : ℕ) (shown : Shown) : Prop :=
  ∃ c₁ c₂ c₃ c₄ r₁ r₂ r₃ r₄, Later c c₁ r r₁ ∧ Later c₁ c₂ r₁ r₂ ∧ Later c₂ c₃ r₂ r₃ ∧
    Later c₃ c₄ r₃ r₄ ∧ Later c₄ c' r₄ r' ∧
    shown.tail = r₁.ring.tail ∧ shown.write = r₂.ring.write ∧
    shown.recheck = r₃.ring.tail ∧ shown.again = r₄.ring.tail ∧
    ∀ e ∈ r₂.ring.entries, e.position = max position shown.tail →
      shown.recheck ≤ e.position → shown.event = some (e.value, e.size)

end KernelRing

open KernelRing

/-! ### The loop between its rings -/

/-- The event that a step handles: it was read whole, and was handed to a writer or needs no
writer. -/
def DrainLoop.handles (messageSize gapSize : ℕ) (loop : DrainLoop) (shown : Shown) :
    Option RingEvent :=
  match loop.phase with
  | .read finalWrite _ =>
    if finalWrite.getD shown.write ≤ max loop.readPosition shown.tail then none
    else
      match shown.event with
      | none => none
      | some (event, _) =>
        match drainEvent loop.reconciler event with
        | .error _ => none
        | .ok (item, _) =>
          if (item.any fun item =>
                (shown.reserve (DrainLoop.chargedBytes messageSize gapSize item event)).isSome) ∨
              max loop.readPosition shown.tail < shown.recheck then none
          else some event
  | _ => none

/-- The loop with the ring it reads, the replacement it is going over to, the last sequence that
KMES gave on the CPU, the events handled so far, and what that sequence was when the last cycle
began. -/
structure DrainWorld where
  loop : DrainLoop
  ring : KernelRing
  next : KernelRing
  counter : ℕ
  handled : List RingEvent
  stop : Option ℕ

namespace DrainWorld

variable (messageSize gapSize : ℕ)

/-- One step of the loop, while KMES goes on with the rings. -/
inductive Step : DrainWorld → DrainWorld → Prop
  | top {s : DrainWorld} {shown : Shown} {c c' : ℕ} {r ring : KernelRing}
      (phase : s.loop.phase = .top) (first : Later s.counter c s.ring r)
      (write : shown.write = r.ring.write) (later : Later c c' r ring) :
      Step s
        { s with
          loop := s.loop.step messageSize gapSize shown
          ring := ring
          counter := c'
          stop := if shown.stopping && !s.loop.finalCycleComplete then some c else s.stop }
  | read {s : DrainWorld} {shown : Shown} {c' : ℕ} {ring : KernelRing} {finalWrite : Option ℕ}
      {progressed : Bool} (phase : s.loop.phase = .read finalWrite progressed)
      (sees : Sees s.counter c' s.ring ring s.loop.readPosition shown) :
      Step s
        { s with
          loop := s.loop.step messageSize gapSize shown
          ring := ring
          counter := c'
          handled := s.handled ++ (s.loop.handles messageSize gapSize shown).toList }
  /-- The replacement may have any events of before. -/
  | settle {s : DrainWorld} {shown : Shown} {c c₁ c' : ℕ} {r ring n next : KernelRing}
      {progressed : Bool} (phase : s.loop.phase = .settle progressed)
      (first : Later s.counter c s.ring r) (generation : shown.generation = r.generation)
      (later : Later c c' r ring) (old : ∀ e ∈ n.ring.entries, e.value.sequence ≤ c₁)
      (tail : shown.tail = n.ring.tail) (nextLater : Later c₁ c' n next) :
      Step s
        { s with
          loop := s.loop.step messageSize gapSize shown
          ring := ring
          next := next
          counter := c' }
  | scan {s : DrainWorld} {shown : Shown} {c' position : ℕ} {ring next : KernelRing}
      (phase : s.loop.phase = .scan position)
      (sees : Sees s.counter c' s.next next position shown)
      (later : Later s.counter c' s.ring ring) :
      Step s
        { s with
          loop := s.loop.step messageSize gapSize shown
          ring := ring
          next := next
          counter := c' }
  | adopt {s : DrainWorld} {shown : Shown} {c c₁ c' position : ℕ} {n n₁ next : KernelRing}
      (phase : s.loop.phase = .adopt position) (first : Later s.counter c s.next n)
      (generation : shown.generation = n.generation) (second : Later c c₁ n n₁)
      (write : shown.write = n₁.ring.write) (later : Later c₁ c' n₁ next) :
      Step s
        { s with
          loop := s.loop.step messageSize gapSize shown
          ring := next
          counter := c' }

/-- The drain begins: the tail, the generation and the write position are read one after
another. -/
def Starts (s : DrainWorld) : Prop :=
  ∃ c c₁ c₂ r r₁ r₂, (∀ e ∈ r.ring.entries, e.value.sequence ≤ c) ∧ Later c c₁ r r₁ ∧
    Later c₁ c₂ r₁ r₂ ∧ Later c₂ s.counter r₂ s.ring ∧
    s.loop.phase = .top ∧ s.loop.readPosition = r.ring.tail ∧
    s.loop.generation = r₁.generation ∧ s.loop.recoveryBoundary = r₂.ring.write ∧
    s.loop.finalCycleComplete = false ∧ s.loop.lastSequence = none ∧ s.loop.handed = [] ∧
    s.handled = [] ∧ s.stop = none

/-- An event has been handled, or the ring has it: ahead, or overwritten.  When the drain has
ended, only what came after the stop may be ahead. -/
def Keeps (s : DrainWorld) (event : RingEvent) : Prop :=
  event ∈ s.handled ∨ ∃ e ∈ s.ring.ring.entries, e.value = event ∧
    (e.position < s.ring.ring.tail ∨ s.loop.readPosition ≤ e.position ∧
      (s.loop.phase = .ended none → ∀ stop ∈ s.stop, stop < event.sequence))

/-- A step keeps every event of the ring that survives and comes after the last one handled. -/
def KeepsAll (s s' : DrainWorld) : Prop :=
  ∀ e ∈ s.ring.ring.entries, s.ring.ring.tail ≤ e.position →
    (∀ last ∈ s.loop.lastSequence, last < e.value.sequence) → s'.Keeps e.value

/-- What a step must meet when it goes over to a replacement: the replacement has the events of
the old ring that were not read, it has not been replaced itself when its generation is read, and
the loop is not in its last cycle. -/
structure Smooth (s s' : DrainWorld) : Prop where
  carried : ∀ position, s.loop.phase = .adopt position → ∀ e ∈ s.ring.ring.entries,
    s.ring.ring.tail ≤ e.position → s.loop.readPosition ≤ e.position →
      ∃ e' ∈ s'.ring.ring.entries, e'.value = e.value
  current : ∀ position, s.loop.phase = .adopt position → s'.ring.replaced = false
  goesOn : ∀ position, s.loop.phase = .adopt position → s.loop.finalCycleComplete = false

/-- A run of steps that all meet `p`. -/
inductive Run (p : DrainWorld → DrainWorld → Prop) : DrainWorld → DrainWorld → Prop
  | refl (s : DrainWorld) : Run p s s
  | tail {s s' s'' : DrainWorld} (run : Run p s s') (step : Step messageSize gapSize s' s'')
      (meets : p s' s'') : Run p s s''

end DrainWorld

/-! ### What a step of the loop can do -/

namespace DrainLoop

variable {loop : DrainLoop}

theorem pass_cases (loop : DrainLoop) (finalWrite : Option ℕ) (event : RingEvent) (size : ℕ)
    (candidate : Reconciler) :
    loop.pass finalWrite event size candidate =
        { loop with
          phase := .read finalWrite true
          readPosition := loop.readPosition + size
          lastSequence := some event.sequence
          reconciler := candidate } ∨
      loop.pass finalWrite event size candidate = loop.fail .positionOverflow := by
  unfold pass advancePosition
  split_ifs
  · exact .inl rfl
  · exact .inr rfl

/-- What an item and its event have to do with what is handed over. -/
def handing (loop : DrainLoop) (item : Option IngestItem) : List (ℕ × IngestItem) :=
  item.toList.map fun item => (loop.router.currentShard, item)

/-- What the loop is after it handled an event: past it, or ended. -/
structure Passed (loop loop' : DrainLoop) (position : ℕ) (finalWrite : Option ℕ)
    (event : RingEvent) (size : ℕ) : Prop where
  generation : loop'.generation = loop.generation
  finalCycleComplete : loop'.finalCycleComplete = loop.finalCycleComplete
  outcome : loop'.phase = .read finalWrite true ∧ loop'.readPosition = position + size ∧
      loop'.lastSequence = some event.sequence ∨
    (∃ error, loop'.phase = .ended (some error)) ∧ loop'.readPosition = position ∧
      loop'.lastSequence = loop.lastSequence
  handed : ∃ item candidate, drainEvent loop.reconciler event = .ok (item, candidate) ∧
    loop'.handed = loop.handed ++ loop.handing item

/-- Everything a turn of the inner loop can do: end the cycle, fail, go on at the tail, or handle
the event at its position. -/
theorem readTurn_cases (messageSize gapSize : ℕ) (shown : Shown) {finalWrite : Option ℕ}
    {progressed : Bool} (phase : loop.phase = .read finalWrite progressed) :
    let position := max loop.readPosition shown.tail
    let loop' := loop.step messageSize gapSize shown
    let handles := loop.handles messageSize gapSize shown
    (finalWrite.getD shown.write ≤ position ∧ handles = none ∧
      loop' = { loop with readPosition := position, phase := .settle progressed }) ∨
    (handles = none ∧ ∃ error,
      loop' = { loop with readPosition := position, phase := .ended (some error) }) ∨
    (position < shown.recheck ∧ handles = none ∧ loop' = { loop with readPosition := shown.again }) ∨
    position < finalWrite.getD shown.write ∧ shown.recheck ≤ position ∧
      ∃ event size, shown.event = some (event, size) ∧ handles = some event ∧
        Passed loop loop' position finalWrite event size := by
  intro position loop' handles
  have step_eq : loop' = loop.readTurn messageSize gapSize finalWrite progressed shown := by
    rw [show loop' = loop.step messageSize gapSize shown from rfl, step, phase]
  have handles_eq : handles = loop.handles messageSize gapSize shown := rfl
  unfold DrainLoop.handles at handles_eq
  rw [phase] at handles_eq
  dsimp only at handles_eq
  unfold readTurn at step_eq
  by_cases enough : finalWrite.getD shown.write ≤ position
  · rw [if_pos enough] at step_eq handles_eq
    exact .inl ⟨enough, handles_eq, step_eq⟩
  rw [if_neg enough] at step_eq handles_eq
  unfold readEvent fail at step_eq
  cases is_event : shown.event with
  | none =>
    rw [is_event] at step_eq handles_eq
    exact .inr (.inl ⟨handles_eq, _, step_eq⟩)
  | some pair =>
    obtain ⟨event, size⟩ := pair
    rw [is_event] at step_eq handles_eq
    dsimp only at step_eq handles_eq
    cases drained : drainEvent loop.reconciler event with
    | error error =>
      rw [drained] at step_eq handles_eq
      exact .inr (.inl ⟨handles_eq, _, step_eq⟩)
    | ok result =>
      obtain ⟨item, candidate⟩ := result
      rw [drained] at step_eq handles_eq
      dsimp only at step_eq handles_eq
      -- past the event, whether or not it was handed over
      have passed {before : DrainLoop} (eq : loop' = before.pass finalWrite event size candidate)
          (same : before.readPosition = position)
          (generation : before.generation = loop.generation)
          (final : before.finalCycleComplete = loop.finalCycleComplete)
          (last : before.lastSequence = loop.lastSequence)
          (handed : before.handed = loop.handed ++ loop.handing item) :
          Passed loop loop' position finalWrite event size := by
        rcases pass_cases before finalWrite event size candidate with is | is
        · rw [eq, is]
          exact ⟨generation, final, .inl ⟨rfl, same ▸ rfl, rfl⟩, item, candidate, drained, handed⟩
        · rw [eq, is]
          exact ⟨generation, final, .inr ⟨⟨_, rfl⟩, same, last⟩, item, candidate, drained, handed⟩
      by_cases lapped : position < shown.recheck
      · rw [if_pos (.inr lapped)] at handles_eq
        cases item with
        | none =>
          dsimp only at step_eq
          rw [if_pos lapped] at step_eq
          exact .inr (.inr (.inl ⟨lapped, handles_eq, step_eq⟩))
        | some item =>
          dsimp only at step_eq
          split at step_eq
          · exact .inr (.inl ⟨handles_eq, _, step_eq⟩)
          · rw [if_pos lapped] at step_eq
            exact .inr (.inr (.inl ⟨lapped, handles_eq, step_eq⟩))
      · refine .inr ?_
        cases item with
        | none =>
          dsimp only at step_eq
          rw [if_neg lapped] at step_eq
          rw [if_neg (by rintro (refused | is) <;> [cases refused; exact lapped is])] at handles_eq
          exact .inr (.inr ⟨not_le.1 enough, not_lt.1 lapped, event, size, rfl, handles_eq,
            passed step_eq rfl rfl rfl rfl (append_nil _).symm⟩)
        | some item =>
          dsimp only at step_eq
          split at step_eq
          · next refused =>
            rw [if_pos (.inl (by simp [refused]))] at handles_eq
            exact .inl ⟨handles_eq, _, step_eq⟩
          · next taken =>
            rw [if_neg lapped] at step_eq
            rw [if_neg (by
              rintro (refused | is)
              · simp [taken] at refused
              · exact lapped is)] at handles_eq
            exact .inr (.inr ⟨not_le.1 enough, not_lt.1 lapped, event, size, rfl, handles_eq,
              passed step_eq rfl rfl rfl rfl rfl⟩)

/-- Everything a turn of the scan can do: stop at the end of the ring or at an event that was not
seen, fail, go on at the tail, or go past an event that was seen. -/
theorem scanTurn_cases (messageSize gapSize : ℕ) (shown : Shown) {start : ℕ}
    (phase : loop.phase = .scan start) :
    let position := max start shown.tail
    let loop' := loop.step messageSize gapSize shown
    (shown.write ≤ position ∧ loop' = { loop with phase := .adopt position }) ∨
    (∃ error, loop' = { loop with phase := .ended (some error) }) ∨
    (position < shown.recheck ∧ loop' = { loop with phase := .scan shown.again }) ∨
    position < shown.write ∧ shown.recheck ≤ position ∧
      ∃ event size, shown.event = some (event, size) ∧
        ((∃ last ∈ loop.lastSequence, last < event.sequence) ∧
            loop' = { loop with phase := .adopt position } ∨
          (∀ last ∈ loop.lastSequence, event.sequence ≤ last) ∧
            loop' = { loop with phase := .scan (position + size) }) := by
  intro position loop'
  have step_eq : loop' = loop.scanTurn start shown := by
    rw [show loop' = loop.step messageSize gapSize shown from rfl, step, phase]
  unfold scanTurn fail at step_eq
  by_cases enough : shown.write ≤ position
  · rw [if_pos enough] at step_eq
    exact .inl ⟨enough, step_eq⟩
  rw [if_neg enough] at step_eq
  cases is_event : shown.event with
  | none =>
    rw [is_event] at step_eq
    exact .inr (.inl ⟨_, step_eq⟩)
  | some pair =>
    obtain ⟨event, size⟩ := pair
    rw [is_event] at step_eq
    dsimp only at step_eq
    by_cases lapped : position < shown.recheck
    · rw [if_pos lapped] at step_eq
      exact .inr (.inr (.inl ⟨lapped, step_eq⟩))
    rw [if_neg lapped] at step_eq
    have here : position < shown.write ∧ shown.recheck ≤ position :=
      ⟨not_le.1 enough, not_lt.1 lapped⟩
    by_cases fresh : (loop.lastSequence.any fun last => decide (last < event.sequence)) = true
    · rw [if_pos fresh] at step_eq
      refine .inr (.inr (.inr ⟨here.1, here.2, event, size, rfl, .inl ⟨?_, step_eq⟩⟩))
      obtain ⟨last, is, less⟩ := (any_eq_true _ _).1 fresh
      exact ⟨last, is, of_decide_eq_true less⟩
    · rw [if_neg fresh] at step_eq
      unfold advancePosition at step_eq
      split_ifs at step_eq
      · refine .inr (.inr (.inr ⟨here.1, here.2, event, size, rfl, .inr ⟨fun last is => ?_, step_eq⟩⟩))
        by_contra less
        exact fresh (by rw [mem_def.1 is]; simpa using less)
      · exact .inr (.inl ⟨_, step_eq⟩)

/-- What a step leaves as it is when it handles nothing and stays with its ring. -/
structure Quiet (loop loop' : DrainLoop) : Prop where
  generation : loop'.generation = loop.generation
  lastSequence : loop'.lastSequence = loop.lastSequence
  handed : loop'.handed = loop.handed

/-- And when it reads no event. -/
structure SamePlace (loop loop' : DrainLoop) : Prop extends Quiet loop loop' where
  readPosition : loop'.readPosition = loop.readPosition
  finalCycleComplete : loop'.finalCycleComplete = loop.finalCycleComplete

/-- Everything that can follow a cycle: an error, a replacement, or the end of the loop or of the
turn. -/
theorem settle_cases (messageSize gapSize : ℕ) (shown : Shown) {progressed : Bool}
    (phase : loop.phase = .settle progressed) :
    let loop' := loop.step messageSize gapSize shown
    SamePlace loop loop' ∧
      ((∃ error, loop'.phase = .ended (some error)) ∨
        shown.generation ≠ loop.generation ∧ loop'.phase =
          (if loop.lastSequence.isSome then .scan shown.tail else .adopt shown.tail) ∨
        shown.generation = loop.generation ∧
          loop'.phase = if loop.finalCycleComplete then .ended none else .top) := by
  intro loop'
  have step_eq : loop' = loop.settle progressed shown := by
    rw [show loop' = loop.step messageSize gapSize shown from rfl, step, phase]
  rw [step_eq]
  unfold settle fail
  by_cases changed : shown.generation ≠ loop.generation
  · rw [if_pos changed]
    by_cases attaches : shown.attaches = true
    · rw [if_pos attaches]
      exact ⟨⟨⟨rfl, rfl, rfl⟩, rfl, rfl⟩, .inr (.inl ⟨changed, rfl⟩)⟩
    · rw [if_neg attaches]
      exact ⟨⟨⟨rfl, rfl, rfl⟩, rfl, rfl⟩, .inl ⟨_, rfl⟩⟩
  · rw [if_neg changed]
    have same : shown.generation = loop.generation := not_not.1 changed
    cases final : loop.finalCycleComplete <;> simp only [Bool.false_eq_true, ↓reduceIte]
    · split
      · exact ⟨⟨⟨rfl, rfl, rfl⟩, rfl, final.symm⟩, .inl ⟨_, rfl⟩⟩
      · split
        · exact ⟨⟨⟨rfl, rfl, rfl⟩, rfl, final.symm⟩, .inl ⟨_, rfl⟩⟩
        · exact ⟨⟨⟨rfl, rfl, rfl⟩, rfl, final.symm⟩, .inr (.inr ⟨same, rfl⟩)⟩
    · split
      · exact ⟨⟨⟨rfl, rfl, rfl⟩, rfl, final.symm⟩, .inl ⟨_, rfl⟩⟩
      · exact ⟨⟨⟨rfl, rfl, rfl⟩, rfl, final.symm⟩, .inr (.inr ⟨same, rfl⟩)⟩

end DrainLoop

/-! ### What every smooth run preserves -/

namespace DrainWorld

variable {messageSize gapSize : ℕ} {s s' : DrainWorld}

/-- Every sequence of the ring from a position on came after the stop. -/
def AfterStop (s : DrainWorld) (position : ℕ) : Prop :=
  ∃ stop ∈ s.stop, ∀ e ∈ s.ring.ring.entries, position ≤ e.position → stop < e.value.sequence

/-- What holds in each phase of the loop. -/
abbrev InPhase (s : DrainWorld) : DrainPhase → Prop
  | .top => s.loop.finalCycleComplete = false
  | .read finalWrite _ =>
    finalWrite = none ∧ s.loop.finalCycleComplete = false ∨
      ∃ write, finalWrite = some write ∧ write ≤ s.ring.ring.write ∧ s.AfterStop write
  | .settle _ => s.loop.finalCycleComplete = true → s.AfterStop s.loop.readPosition
  | .scan position =>
    s.loop.lastSequence.isSome = true ∧ Behind s.next.ring position s.loop.lastSequence ∧
      ∀ e ∈ s.next.ring.entries, e.value.sequence ≤ s.counter
  | .adopt position =>
    Located s.next.ring position s.loop.lastSequence ∧
      ∀ e ∈ s.next.ring.entries, e.value.sequence ≤ s.counter
  | .ended _ => True

structure Invariant (s : DrainWorld) : Prop where
  bounded : ∀ e ∈ s.ring.ring.entries, e.value.sequence ≤ s.counter
  last_le : ∀ last ∈ s.loop.lastSequence, last ≤ s.counter
  stop_le : ∀ stop ∈ s.stop, stop ≤ s.counter
  located : Located s.ring.ring s.loop.readPosition s.loop.lastSequence
  noticed : s.ring.replaced = false ∧ s.ring.generation = s.loop.generation ∨
    s.ring.replaced = true ∧ s.ring.generation ≠ s.loop.generation
  inOrder : s.handled.Pairwise fun a b => a.sequence < b.sequence
  upTo : (∀ result, s.loop.phase ≠ .ended result) →
    ∀ event ∈ s.handled, ∃ last ∈ s.loop.lastSequence, event.sequence ≤ last
  handed : (s.loop.handed.map fun entry => entry.2.event.sequence).Sublist
    (s.handled.map RingEvent.sequence)
  inPhase : s.InPhase s.loop.phase

/-- What a step must do. -/
def Preserved (s s' : DrainWorld) : Prop := Invariant s' ∧ KeepsAll s s'

variable {c' c position : ℕ} {ring r next : KernelRing} {shown : Shown} {progressed : Bool}
  {finalWrite : Option ℕ}

/-- A replacement is noticed later on, if it would have been noticed before. -/
theorem noticed_later {generation : ℕ} {r' : KernelRing} (later : Later c c' r r')
    (h : r.replaced = false ∧ r.generation = generation ∨
      r.replaced = true ∧ r.generation ≠ generation) :
    r'.replaced = false ∧ r'.generation = generation ∨
      r'.replaced = true ∧ r'.generation ≠ generation := by
  rcases h with ⟨no, rfl⟩ | ⟨yes, other⟩
  · cases now : r'.replaced
    · exact .inl ⟨rfl, later.same now⟩
    · exact .inr ⟨rfl, later.changes no now⟩
  · obtain ⟨replaced, same⟩ := later.stays yes
    exact .inr ⟨replaced, same ▸ other⟩

theorem AfterStop.grow (h : s.AfterStop position) (low : ∀ stop ∈ s.stop, stop ≤ s.counter)
    (g : Grows s.counter c' s.ring.ring ring.ring) :
    ∃ stop ∈ s.stop, ∀ e ∈ ring.ring.entries, position ≤ e.position → stop < e.value.sequence := by
  obtain ⟨stop, is, after⟩ := h
  refine ⟨stop, is, fun e mem later => ?_⟩
  rcases g.mem_cases mem with old | ⟨-, above, -⟩
  · exact after e old later
  · exact (low stop is).trans_lt above

/-- Nothing is lost at a place that is after the last event handled. -/
theorem keepsAll_of_located (sub : s.ring.ring.entries ⊆ s'.ring.ring.entries)
    (last : s'.loop.lastSequence = s.loop.lastSequence)
    (located : Located s'.ring.ring s'.loop.readPosition s'.loop.lastSequence)
    (after : s'.loop.phase = .ended none → s'.AfterStop s'.loop.readPosition) : KeepsAll s s' := by
  intro e mem _ fresh
  refine .inr ⟨e, sub mem, rfl, (lt_or_ge e.position s'.ring.ring.tail).imp_right fun surviving => ?_⟩
  have ahead := located.le_of_fresh (sub mem) surviving (last ▸ fresh)
  refine ⟨ahead, fun ended stop is => ?_⟩
  obtain ⟨same, is', later⟩ := after ended
  obtain rfl := mem_unique is is'
  exact later e (sub mem) ahead

theorem Invariant.inPhase_of {phase : DrainPhase} (h : Invariant s) (is : s.loop.phase = phase) :
    s.InPhase phase := is ▸ h.inPhase

theorem Invariant.upTo_of {phase : DrainPhase} (h : Invariant s) (is : s.loop.phase = phase)
    (going : ∀ result, phase ≠ .ended result) :
    ∀ event ∈ s.handled, ∃ last ∈ s.loop.lastSequence, event.sequence ≤ last :=
  h.upTo fun result => is ▸ going result

/-- What was not above the counter is not when the counter has grown. -/
theorem le_later {number : Option ℕ} (le : ∀ n ∈ number, n ≤ c) (later : Later c c' r ring) :
    ∀ n ∈ number, n ≤ c' :=
  fun n is => (le n is).trans later.grows.floor_le

/-- A step that handles nothing and stays with its ring. -/
theorem Invariant.quiet {phase : DrainPhase} (h : Invariant s) (is : s.loop.phase = phase)
    (going : ∀ result, phase ≠ .ended result)
    (later : Later s.counter s'.counter s.ring s'.ring) (same : s.loop.Quiet s'.loop)
    (handled : s'.handled = s.handled) (stop_le : ∀ stop ∈ s'.stop, stop ≤ s'.counter)
    (located : Located s'.ring.ring s'.loop.readPosition s.loop.lastSequence)
    (after : s'.loop.phase = .ended none → s'.AfterStop s'.loop.readPosition)
    (inPhase : s'.InPhase s'.loop.phase) : Preserved s s' := by
  rw [← same.lastSequence] at located
  refine ⟨?_, keepsAll_of_located later.grows.subset same.lastSequence located after⟩
  constructor
  · exact later.grows.bounded h.bounded
  · rw [same.lastSequence]
    exact le_later h.last_le later
  · exact stop_le
  · exact located
  · rw [same.generation]
    exact noticed_later later h.noticed
  · exact handled ▸ h.inOrder
  · rw [handled, same.lastSequence]
    exact fun _ => h.upTo_of is going
  · rw [handled, same.handed]
    exact h.handed
  · exact inPhase

/-- The phase of the inner loop, as the ring grows. -/
theorem inPhase_read (h : Invariant s) (phase : s.loop.phase = .read finalWrite progressed)
    (later : Later s.counter c' s.ring ring) :
    finalWrite = none ∧ s.loop.finalCycleComplete = false ∨
      ∃ write, finalWrite = some write ∧ write ≤ s.ring.ring.write ∧
        ∃ stop ∈ s.stop, ∀ e ∈ ring.ring.entries, write ≤ e.position → stop < e.value.sequence := by
  rcases h.inPhase_of phase with running | ⟨write, is, le, after⟩
  · exact .inl running
  · exact .inr ⟨write, is, le, after.grow h.stop_le later.grows⟩

/-- The beginning of a cycle that is not the last. -/
theorem step_top {loop : DrainLoop} (phase : loop.phase = .top)
    (running : loop.finalCycleComplete = false) :
    loop.step messageSize gapSize shown =
      { loop with
        phase := .read (if shown.stopping then some shown.write else none) false
        finalCycleComplete := shown.stopping } := by
  rw [DrainLoop.step, phase]
  rw [running]
  cases shown.stopping <;> rfl

theorem invariant_top (h : Invariant s) (phase : s.loop.phase = .top)
    (first : Later s.counter c s.ring r) (write : shown.write = r.ring.write)
    (later : Later c c' r ring) :
    Preserved s
      { s with
        loop := s.loop.step messageSize gapSize shown
        ring := ring
        counter := c'
        stop := if shown.stopping && !s.loop.finalCycleComplete then some c else s.stop } := by
  have running : s.loop.finalCycleComplete = false := h.inPhase_of phase
  have all := first.trans later
  rw [step_top phase running, running, Bool.not_false, Bool.and_true]
  refine h.quiet phase nofun all ⟨rfl, rfl, rfl⟩ rfl ?_ (h.located.grow all.grows h.last_le) nofun ?_
  · intro stop is
    dsimp only at is
    split_ifs at is
    · exact mem_some_iff.1 is ▸ later.grows.floor_le
    · exact le_later h.stop_le all stop is
  · cases stopping : shown.stopping
    · exact .inl ⟨rfl, rfl⟩
    · refine .inr ⟨shown.write, rfl, write ▸ later.grows.write_le, c, rfl, fun e mem beyond => ?_⟩
      -- what the ring held when its write position was read lies before it
      rcases later.grows.mem_cases mem with old | ⟨-, above, -⟩
      · have := r.ring.le_write e old
        have := r.ring.size_pos e old
        omega
      · exact above

/-! #### The inner loop -/

/-- The item of an event carries its sequence. -/
theorem handing_sublist {loop : DrainLoop} {event : RingEvent} {item : Option IngestItem}
    {candidate : Reconciler} (drained : drainEvent loop.reconciler event = .ok (item, candidate)) :
    ((loop.handing item).map fun entry => entry.2.event.sequence).Sublist [event.sequence] := by
  cases item with
  | none => exact nil_sublist _
  | some item =>
    have same : item.event.sequence = event.sequence := by
      rcases drainEvent_cases drained with ⟨-, none, -⟩ | ⟨-, -, -, -, -, pos, hseq, outcome⟩
      · cases none
      · rcases outcome with ⟨none, -⟩ | is
        · cases none
        · rw [Option.some.inj is]
          rfl
    simp [DrainLoop.handing, same]

/-- The loop handles the event at its place. -/
theorem invariant_passed (h : Invariant s) {finalWrite : Option ℕ} {progressed : Bool}
    (phase : s.loop.phase = .read finalWrite progressed) {c₂ c' position : ℕ}
    {r₂ ring : KernelRing} (until₂ : Later s.counter c₂ s.ring r₂) (after₂ : Later c₂ c' r₂ ring)
    (at₂ : Located r₂.ring position s.loop.lastSequence) {e : Entry RingEvent}
    (mem : e ∈ r₂.ring.entries) (here : e.position = position) {loop' : DrainLoop}
    (passed : DrainLoop.Passed s.loop loop' position finalWrite e.value e.size) :
    Preserved s
      { s with loop := loop', ring := ring, counter := c', handled := s.handled ++ [e.value] } := by
  have all : Later s.counter c' s.ring ring := until₂.trans after₂
  have upTo := h.upTo_of phase nofun
  have at' : Located ring.ring position s.loop.lastSequence :=
    at₂.grow after₂.grows (le_later h.last_le until₂)
  have fresh := at₂.ahead e mem here.ge
  have low := until₂.grows.bounded h.bounded e mem
  have stop_le := le_later h.stop_le all
  have order : (s.handled ++ [e.value]).Pairwise fun a b => a.sequence < b.sequence := by
    refine pairwise_append.2
      ⟨h.inOrder, pairwise_singleton _ _, fun old memOld new is => ?_⟩
    obtain rfl := mem_singleton.1 is
    obtain ⟨l, isLast, le⟩ := upTo old memOld
    exact le.trans_lt (fresh l isLast)
  have handed : (loop'.handed.map fun entry => entry.2.event.sequence).Sublist
      ((s.handled ++ [e.value]).map RingEvent.sequence) := by
    obtain ⟨item, candidate, drained, eq⟩ := passed.handed
    rw [eq, map_append, map_append]
    exact h.handed.append (handing_sublist drained)
  have noticed := noticed_later all h.noticed
  rw [← passed.generation] at noticed
  rcases passed.outcome with ⟨phase', position', last'⟩ | ⟨⟨error, phase'⟩, position', last'⟩
  · have located : Located ring.ring loop'.readPosition loop'.lastSequence := by
      rw [position', last', ← here]
      refine (r₂.ring.located_after mem).grow after₂.grows fun l isLast => ?_
      exact mem_some_iff.1 isLast ▸ low
    constructor
    · refine ⟨all.grows.bounded h.bounded, ?_, stop_le, located, noticed, order, ?_, handed, ?_⟩
      · show ∀ l ∈ loop'.lastSequence, l ≤ c'
        rw [last']
        exact fun l is => mem_some_iff.1 is ▸ low.trans after₂.grows.floor_le
      · show _ → ∀ event ∈ s.handled ++ [e.value], ∃ l ∈ loop'.lastSequence, event.sequence ≤ l
        rw [last']
        intro _ event is
        rcases mem_append.1 is with old | new
        · obtain ⟨l, isLast, le⟩ := upTo event old
          exact ⟨_, rfl, le.trans (fresh l isLast).le⟩
        · exact ⟨_, rfl, (mem_singleton.1 new ▸ le_rfl)⟩
      · show InPhase _ loop'.phase
        rw [phase']
        refine (inPhase_read h phase all).imp (fun ⟨unbounded, running⟩ =>
          ⟨unbounded, passed.finalCycleComplete.trans running⟩) ?_
        rintro ⟨last, rfl, le, after⟩
        exact ⟨last, rfl, le.trans all.grows.write_le, after⟩
    · intro x memX surviving new
      have memX' := all.grows.subset memX
      by_cases overwritten : x.position < ring.ring.tail
      · exact .inr ⟨x, memX', rfl, .inl overwritten⟩
      by_cases ahead : position + e.size ≤ x.position
      · refine .inr ⟨x, memX', rfl, .inr ⟨position'.trans_le ahead, fun ended => ?_⟩⟩
        cases phase'.symm.trans ended
      · -- it is not before the event that was read, so it is that event
        rcases r₂.ring.lt_or_eq mem (until₂.grows.subset memX) (here ▸ not_le.1 ahead) with
          ⟨before, -⟩ | rfl
        · have := at'.le_of_fresh memX' (not_lt.1 overwritten) new
          omega
        · exact .inl (mem_append_right _ mem_cons_self)
  · have located : Located ring.ring loop'.readPosition loop'.lastSequence := by
      rw [position', last']
      exact at'
    constructor
    · refine ⟨all.grows.bounded h.bounded, ?_, stop_le, located, noticed, order, ?_, handed, ?_⟩
      · show ∀ l ∈ loop'.lastSequence, l ≤ c'
        rw [last']
        exact le_later h.last_le all
      · exact fun running => absurd phase' (running _)
      · show InPhase _ loop'.phase
        rw [phase']
        trivial
    · exact keepsAll_of_located all.grows.subset last' located fun ended => by
        cases phase'.symm.trans ended

theorem invariant_read (h : Invariant s) (phase : s.loop.phase = .read finalWrite progressed)
    (sees : Sees s.counter c' s.ring ring s.loop.readPosition shown) :
    Preserved s
      { s with
        loop := s.loop.step messageSize gapSize shown
        ring := ring
        counter := c'
        handled := s.handled ++ (s.loop.handles messageSize gapSize shown).toList } := by
  obtain ⟨c₁, c₂, c₃, c₄, r₁, r₂, r₃, r₄, to₁, to₂, to₃, to₄, to', tail, write, recheck, again,
    event⟩ := sees
  have until₂ := to₁.trans to₂
  have until₄ := until₂.trans (to₃.trans to₄)
  have all := until₄.trans to'
  -- the place at the tail, as the ring grows
  have at₁ : Located r₁.ring (max s.loop.readPosition shown.tail) s.loop.lastSequence := by
    rw [tail]
    exact (h.located.grow to₁.grows h.last_le).max_tail
  have at₂ := at₁.grow to₂.grows (le_later h.last_le to₁)
  have at₄ := at₂.grow (to₃.trans to₄).grows (le_later h.last_le until₂)
  have at' := at₄.grow to'.grows (le_later h.last_le until₄)
  have inPhase := inPhase_read h phase all
  -- when nothing is handled
  have quiet {s' : DrainWorld} := @Invariant.quiet s s' _ h phase nofun
  rcases DrainLoop.readTurn_cases messageSize gapSize shown phase with
    ⟨enough, nothing, eq⟩ | ⟨nothing, error, eq⟩ | ⟨lapped, nothing, eq⟩ |
      ⟨below, whole, value, size, is, handles, passed⟩
  · rw [eq, nothing]
    refine quiet all ⟨rfl, rfl, rfl⟩ (append_nil _) (le_later h.stop_le all) at' nofun fun final => ?_
    rcases inPhase with ⟨-, running⟩ | ⟨last, rfl, -, stop, stopped, after⟩
    · exact absurd (running.symm.trans final) nofun
    · exact ⟨stop, stopped, fun e mem beyond => after e mem (le_trans enough beyond)⟩
  · rw [eq, nothing]
    exact quiet all ⟨rfl, rfl, rfl⟩ (append_nil _) (le_later h.stop_le all) at' nofun trivial
  · have lapped : max s.loop.readPosition shown.tail ≤ r₄.ring.tail :=
      (recheck ▸ lapped.le).trans to₄.grows.tail_le
    have located := (at₄.toTail lapped).grow to'.grows (le_later h.last_le until₄)
    rw [eq, nothing]
    refine quiet all ⟨rfl, rfl, rfl⟩ (append_nil _) (le_later h.stop_le all) (again ▸ located)
      (fun ended => absurd (phase.symm.trans ended) nofun) ?_
    show InPhase _ s.loop.phase
    rw [phase]
    refine inPhase.imp id ?_
    rintro ⟨last, rfl, le, after⟩
    exact ⟨last, rfl, le.trans all.grows.write_le, after⟩
  · -- the event at this place is the one that was written there
    have inside : max s.loop.readPosition shown.tail < r₂.ring.write := by
      rcases inPhase with ⟨rfl, -⟩ | ⟨last, rfl, le, -⟩
      · exact write ▸ below
      · exact below.trans_le (le.trans until₂.grows.write_le)
    obtain ⟨e, mem, here⟩ := r₂.ring.exists_entry at₂.boundary inside
    obtain ⟨rfl, rfl⟩ := Prod.mk.inj
      (Option.some.inj (is.symm.trans (event e mem here (here ▸ whole))))
    rw [handles]
    exact invariant_passed h phase until₂ ((to₃.trans to₄).trans to') at₂ mem here passed

/-! #### Replacements -/

theorem invariant_settle (h : Invariant s) {c₁ : ℕ} {n : KernelRing}
    (phase : s.loop.phase = .settle progressed) (first : Later s.counter c s.ring r)
    (later : Later c c' r ring) (old : ∀ e ∈ n.ring.entries, e.value.sequence ≤ c₁)
    (tail : shown.tail = n.ring.tail) (nextLater : Later c₁ c' n next) :
    Preserved s
      { s with
        loop := s.loop.step messageSize gapSize shown
        ring := ring
        next := next
        counter := c' } := by
  have all := first.trans later
  obtain ⟨same, outcome⟩ := DrainLoop.settle_cases messageSize gapSize shown phase
  generalize s.loop.step messageSize gapSize shown = loop' at same outcome
  have located : Located ring.ring loop'.readPosition s.loop.lastSequence :=
    same.readPosition ▸ h.located.grow all.grows h.last_le
  refine h.quiet phase nofun all same.toQuiet rfl (le_later h.stop_le all) located
    (fun ended => ?_) ?_
  · have final : s.loop.finalCycleComplete = true := by
      rcases outcome with ⟨error, is⟩ | ⟨-, is⟩ | ⟨-, is⟩ <;> have is := is.symm.trans ended
      · cases is
      · split_ifs at is
      · split_ifs at is with final
        exact final
    rw [AfterStop, same.readPosition]
    exact (h.inPhase_of phase final).grow h.stop_le all.grows
  · show InPhase _ loop'.phase
    rcases outcome with ⟨error, is⟩ | ⟨-, is⟩ | ⟨-, is⟩ <;> rw [is]
    · trivial
    · have bounded := nextLater.grows.bounded old
      cases began : s.loop.lastSequence with
      | none =>
        simp only [isSome_none, Bool.false_eq_true, ↓reduceIte, InPhase, same.lastSequence, began, tail]
        exact ⟨⟨(behind_tail n.ring none).grow nextLater.grows, nofun⟩, bounded⟩
      | some l =>
        simp only [isSome_some, ↓reduceIte, InPhase, same.lastSequence, began, tail]
        exact ⟨trivial, (behind_tail n.ring (some l)).grow nextLater.grows, bounded⟩
    · cases final : s.loop.finalCycleComplete
      · exact same.finalCycleComplete.trans final
      · trivial

theorem invariant_scan (h : Invariant s) {start : ℕ} (phase : s.loop.phase = .scan start)
    (sees : Sees s.counter c' s.next next start shown) (later : Later s.counter c' s.ring ring) :
    Preserved s
      { s with
        loop := s.loop.step messageSize gapSize shown
        ring := ring
        next := next
        counter := c' } := by
  obtain ⟨c₁, c₂, c₃, c₄, r₁, r₂, r₃, r₄, to₁, to₂, to₃, to₄, to', tail, write, recheck, again,
    event⟩ := sees
  have until₂ := to₁.trans to₂
  have after₂ := (to₃.trans to₄).trans to'
  obtain ⟨began, behind, bounded⟩ := h.inPhase_of phase
  have bounded' := (until₂.trans after₂).grows.bounded bounded
  have low := le_later h.last_le until₂
  have at₂ : Behind r₂.ring (max start shown.tail) s.loop.lastSequence := by
    rw [tail]
    exact (behind.grow to₁.grows).max_tail.grow to₂.grows
  -- only the phase changes
  have quiet {phase' : DrainPhase} (ending : phase' ≠ .ended none) :=
    @Invariant.quiet s
      { s with loop := { s.loop with phase := phase' }, ring := ring, next := next, counter := c' }
      _ h phase nofun later ⟨rfl, rfl, rfl⟩ rfl (le_later h.stop_le later)
      (h.located.grow later.grows h.last_le) fun ended => absurd ended ending
  rcases DrainLoop.scanTurn_cases messageSize gapSize shown phase with
    ⟨enough, eq⟩ | ⟨error, eq⟩ | ⟨lapped, eq⟩ | ⟨below, whole, value, size, is, outcome⟩
  · rw [eq]
    exact quiet nofun ⟨(at₂.atEnd (write ▸ enough)).grow after₂.grows low, bounded'⟩
  · rw [eq]
    exact quiet nofun trivial
  · rw [eq, again]
    exact quiet nofun ⟨began, (behind_tail r₄.ring _).grow to'.grows, bounded'⟩
  · obtain ⟨e, mem, here⟩ := r₂.ring.exists_entry at₂.boundary (write ▸ below)
    obtain ⟨rfl, rfl⟩ := Prod.mk.inj
      (Option.some.inj (is.symm.trans (event e mem here (here ▸ whole))))
    rcases outcome with ⟨⟨l, isLast, less⟩, eq⟩ | ⟨seen, eq⟩ <;> rw [eq]
    · refine quiet nofun ⟨(at₂.stop mem here fun l' is' => ?_).grow after₂.grows low, bounded'⟩
      exact mem_unique isLast is' ▸ less
    · obtain ⟨l, isLast⟩ := isSome_iff_exists.1 began
      exact quiet nofun
        ⟨began, (at₂.step mem here ⟨l, isLast, seen l isLast⟩).grow after₂.grows, bounded'⟩

theorem invariant_adopt (h : Invariant s) {n : KernelRing} (phase : s.loop.phase = .adopt position)
    (first : Later s.counter c s.next n) (generation : shown.generation = n.generation)
    (later : Later c c' n next) (smooth : Smooth s
      { s with loop := s.loop.step messageSize gapSize shown, ring := next, counter := c' }) :
    Preserved s
      { s with loop := s.loop.step messageSize gapSize shown, ring := next, counter := c' } := by
  have all := first.trans later
  obtain ⟨located, bounded⟩ := h.inPhase_of phase
  have located := located.grow all.grows h.last_le
  obtain ⟨carried, current, goesOn⟩ := smooth
  have current := current position phase
  rw [DrainLoop.step, phase]
  constructor
  · exact ⟨all.grows.bounded bounded, le_later h.last_le all, le_later h.stop_le all, located,
      .inl ⟨current, (later.same current).trans generation.symm⟩, h.inOrder,
      fun _ => h.upTo_of phase (by rintro _ ⟨⟩), h.handed, goesOn position phase⟩
  · intro e mem surviving fresh
    have unread := h.located.le_of_fresh mem surviving fresh
    obtain ⟨e', mem', same⟩ := carried position phase e mem surviving unread
    refine .inr ⟨e', mem', same, (lt_or_ge e'.position next.ring.tail).imp_right fun surviving => ?_⟩
    exact ⟨located.le_of_fresh mem' surviving (same ▸ fresh), by rintro ⟨⟩⟩

/-! #### Runs -/

theorem invariant_step (h : Invariant s) (step : Step messageSize gapSize s s')
    (smooth : Smooth s s') : Preserved s s' := by
  cases step with
  | top phase first write later => exact invariant_top h phase first write later
  | read phase sees => exact invariant_read h phase sees
  | settle phase first generation later old tail nextLater =>
    exact invariant_settle h phase first later old tail nextLater
  | scan phase sees later => exact invariant_scan h phase sees later
  | adopt phase first generation second write later =>
    exact invariant_adopt h phase first generation (second.trans later) smooth

theorem invariant_start (starts : s.Starts) (current : s.ring.replaced = false) : Invariant s := by
  obtain ⟨c, c₁, c₂, r, r₁, r₂, bounded, to₁, to₂, to', phase, position, generation, -, running,
    began, handed, handled, stop⟩ := starts
  have all := (to₁.trans to₂).trans to'
  constructor
  · exact all.grows.bounded bounded
  · rw [began]
    nofun
  · rw [stop]
    nofun
  · rw [position, began]
    exact ⟨(behind_tail r.ring none).grow all.grows, nofun⟩
  · exact .inl ⟨current, ((to₂.trans to').same current).trans generation.symm⟩
  · rw [handled]
    exact .nil
  · rw [handled]
    nofun
  · rw [handed]
    exact nil_sublist _
  · rw [phase]
    exact running

theorem invariant_run {s₀ : DrainWorld} (h : Invariant s₀)
    (run : Run messageSize gapSize Smooth s₀ s) : Invariant s := by
  induction run with
  | refl => exact h
  | tail _ step smooth ih => exact (invariant_step ih step smooth).1

/-- What a step handles is handed to a writer if it is to be stored or reveals a gap. -/
theorem handed_of_handled (step : Step messageSize gapSize s s') {event : RingEvent}
    (handled : s'.handled = s.handled ++ [event]) :
    ∃ item candidate, drainEvent s.loop.reconciler event = .ok (item, candidate) ∧
      s'.loop.handed = s.loop.handed ++ s.loop.handing item := by
  have more {other : List RingEvent} (same : other = other ++ [event]) : False := by
    simpa using congrArg List.length same
  cases step with
  | top | settle | scan | adopt => exact (more handled).elim
  | @read shown _ _ _ _ phase sees =>
    have is := append_cancel_left handled
    rcases DrainLoop.readTurn_cases messageSize gapSize shown phase with
      ⟨-, nothing, -⟩ | ⟨nothing, -⟩ | ⟨-, nothing, -⟩ | ⟨-, -, value, size, -, handles, passed⟩
    · simp [nothing] at is
    · simp [nothing] at is
    · simp [nothing] at is
    · obtain rfl : value = event := by simpa [handles] using is
      exact passed.handed

/-- **Neither skipped nor repeated.**  In a run whose steps are smooth the events are handled in
strictly increasing order, and handed to the writers in that order; a replacement of the ring is
always noticed; and no step leaves behind an event that survives and comes after the last one
handled. -/
theorem replacement_neither_skips_nor_repeats {s₀ s : DrainWorld} (starts : s₀.Starts)
    (current : s₀.ring.replaced = false) (run : Run messageSize gapSize Smooth s₀ s) :
    (s.handled.Pairwise fun a b => a.sequence < b.sequence) ∧
    ((s.loop.handed.map fun entry => entry.2.event.sequence).Sublist
      (s.handled.map RingEvent.sequence)) ∧
    (s.ring.replaced = true → s.ring.generation ≠ s.loop.generation) ∧
    ∀ s', Step messageSize gapSize s s' → Smooth s s' → KeepsAll s s' ∧
      ∀ event, s'.handled = s.handled ++ [event] →
        ∃ item candidate, drainEvent s.loop.reconciler event = .ok (item, candidate) ∧
          s'.loop.handed = s.loop.handed ++ s.loop.handing item := by
  have h := invariant_run (invariant_start starts current) run
  refine ⟨h.inOrder, h.handed, fun replaced => ?_, fun s' step smooth =>
    ⟨(invariant_step h step smooth).2, fun event => handed_of_handled step⟩⟩
  rcases h.noticed with ⟨no, -⟩ | ⟨-, other⟩
  · rw [no] at replaced
    cases replaced
  · exact other

end DrainWorld

/-! ### A replacement -/

def emptyRing : Ring RingEvent.sequence :=
  ⟨[], 0, 0, nofun, nofun, .nil, nofun, .inl rfl⟩

/-- A ring with one event at its beginning. -/
def ringOf (event : RingEvent) : Ring RingEvent.sequence where
  entries := [⟨0, 64, event⟩]
  tail := 0
  write := 64
  size_pos := by simp
  le_write := by simp
  ordered := pairwise_singleton _ _
  next := by simp [IsBoundary]
  tail_boundary := .inr ⟨_, mem_singleton.2 rfl, rfl⟩

theorem grows_ringOf {event : RingEvent} (first : event.sequence = 1) :
    Grows 0 1 emptyRing (ringOf event) where
  floor_le := Nat.zero_le 1
  tail_le := le_rfl
  write_le := Nat.zero_le 64
  entries := ⟨[⟨0, 64, event⟩], rfl, by simp [emptyRing, first]⟩
  write_boundary := .inr ⟨_, mem_singleton.2 rfl, rfl⟩

/-- A loop that finds nothing to read in a ring of this generation. -/
def idle (generation : ℕ) : Shown where
  stopping := false
  tail := 0
  write := 0
  event := none
  reserve := fun _ => none
  recheck := 0
  again := 0
  generation := generation
  attaches := true
  markersCommit := true
  waits := true

/-- The drain of an empty ring begins. -/
def drainStart : DrainWorld where
  loop := { readingLoop with phase := .top }
  ring := ⟨emptyRing, 1, false⟩
  next := ⟨emptyRing, 1, false⟩
  counter := 0
  handled := []
  stop := none

/-- An event was written after the last read, and the ring was replaced then. -/
def goingOver (next : KernelRing) : DrainWorld where
  loop := { readingLoop with phase := .adopt 0 }
  ring := ⟨ringOf (plainEvent 0 1), 2, true⟩
  next := next
  counter := 1
  handled := []
  stop := none

/-- The loop goes on with the replacement. -/
def goneOver (next : KernelRing) : DrainWorld :=
  { goingOver next with
    loop := { readingLoop with phase := .top, generation := 2 }
    ring := next }

theorem starts_drainStart : drainStart.Starts :=
  ⟨0, 0, 0, drainStart.ring, drainStart.ring, drainStart.ring, nofun, .refl _, .refl _, .refl _,
    rfl, rfl, rfl, rfl, rfl, rfl, rfl, rfl, rfl⟩

section Replacing

variable {next : KernelRing} {p : DrainWorld → DrainWorld → Prop}

/-- The loop comes to its replacement, whatever that holds. -/
theorem run_goingOver (tail : next.ring.tail = 0)
    (bounded : ∀ e ∈ next.ring.entries, e.value.sequence ≤ 1)
    (meets : ∀ s s' : DrainWorld, (∀ position, s.loop.phase ≠ .adopt position) → p s s') :
    DrainWorld.Run 0 0 p drainStart (goingOver next) := by
  have replaced : Later 0 1 ⟨emptyRing, 1, false⟩ ⟨ringOf (plainEvent 0 1), 2, true⟩ :=
    ⟨grows_ringOf rfl, nofun, nofun, fun _ _ => by decide⟩
  have sees : Sees 0 0 drainStart.ring drainStart.ring 0 (idle 1) :=
    ⟨0, 0, 0, 0, drainStart.ring, drainStart.ring, drainStart.ring, drainStart.ring, .refl _,
      .refl _, .refl _, .refl _, .refl _, rfl, rfl, rfl, rfl, nofun⟩
  have top : DrainWorld.Step 0 0 drainStart { drainStart with loop := readingLoop } :=
    @DrainWorld.Step.top 0 0 drainStart (idle 1) 0 0 _ _ rfl (.refl _) rfl (.refl _)
  have read : DrainWorld.Step 0 0 { drainStart with loop := readingLoop }
      { drainStart with loop := { readingLoop with phase := .settle false } } :=
    @DrainWorld.Step.read 0 0 { drainStart with loop := readingLoop } (idle 1) 0 _ none false rfl
      sees
  have settle : DrainWorld.Step 0 0
      { drainStart with loop := { readingLoop with phase := .settle false } } (goingOver next) :=
    @DrainWorld.Step.settle 0 0
      { drainStart with loop := { readingLoop with phase := .settle false } } (idle 2) 1 1 1 _ _
      next next false rfl replaced rfl (.refl _) bounded tail.symm (.refl _)
  exact .tail (.tail (.tail (.refl _) top (meets _ _ nofun)) read (meets _ _ nofun)) settle
    (meets _ _ nofun)

theorem step_goneOver (generation : next.generation = 2) :
    DrainWorld.Step 0 0 (goingOver next) (goneOver next) :=
  @DrainWorld.Step.adopt 0 0 (goingOver next) { idle 2 with write := next.ring.write } 1 1 1 0 _ _ _
    rfl (.refl _) generation.symm (.refl _) rfl (.refl _)

end Replacing

/-- A replacement that has the event. -/
def carryingRing : KernelRing := ⟨ringOf (plainEvent 0 1), 2, false⟩

theorem replacement_neither_skips_nor_repeats_carried :
    (goingOver carryingRing).KeepsAll (goneOver carryingRing) :=
  ((DrainWorld.replacement_neither_skips_nor_repeats starts_drainStart rfl
    (@run_goingOver carryingRing _ rfl (by simp [carryingRing, ringOf, plainEvent]) fun s s' going =>
      ⟨fun position is => absurd is (going position), fun position is => absurd is (going position),
        fun position is => absurd is (going position)⟩)).2.2.2 _ (step_goneOver rfl)
    ⟨fun _ _ e mem _ _ => ⟨e, mem, rfl⟩, fun _ _ => rfl, fun _ _ => rfl⟩).1

/-- A replacement that does not have what was written to the old ring after the last read of it: the
event is never handled.  And a ring that is replaced before its generation is read: the loop never
notices. -/
theorem replacement_skips :
    (∃ s s', drainStart.Starts ∧ DrainWorld.Run 0 0 (fun _ _ => True) drainStart s ∧
      DrainWorld.Step 0 0 s s' ∧ ¬s.KeepsAll s') ∧
    ∃ s : DrainWorld, s.Starts ∧ s.ring.replaced = true ∧ s.ring.generation = s.loop.generation := by
  refine ⟨⟨goingOver ⟨emptyRing, 2, false⟩, _, starts_drainStart, run_goingOver rfl (by simp [emptyRing]) fun _ _ _ => trivial,
    @step_goneOver ⟨emptyRing, 2, false⟩ rfl, fun keeps => ?_⟩, ?_⟩
  · rcases keeps _ (mem_singleton.2 rfl) le_rfl nofun with handled | ⟨e, mem, -⟩
    · cases handled
    · cases mem
  · have replaced : Later 0 0 ⟨emptyRing, 0, false⟩ ⟨emptyRing, 1, true⟩ :=
      ⟨.refl _, nofun, nofun, fun _ _ => by decide⟩
    exact ⟨{ drainStart with ring := ⟨emptyRing, 1, true⟩ },
      ⟨0, 0, 0, _, _, _, by simp [emptyRing], replaced, .refl _, .refl _, rfl, rfl, rfl, rfl, rfl, rfl, rfl, rfl,
        rfl⟩, rfl, rfl⟩

end Eventd
