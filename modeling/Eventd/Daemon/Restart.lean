import Mathlib.Algebra.BigOperators.Fin
import Eventd.Daemon.Drain

/-!
# Accounting across restarts

The daemon as far as the sequences of one boot are concerned: a drain thread for
each CPU, queues into shards that commit independently of each other, and restarts
that keep only what the shards have committed.  A restart may happen at any point,
and the next run reads the union of all receipts first.

* `Daemon`, `Action`, `step`, `run`: the system and its transitions;
* `Accounted`: the invariant.  A sequence that the current run has moved past, or
  that the run knows a receipt for, is accounted for exactly once among the rows of
  the shards, the items under way, the items of failed batches and the events dropped
  for their type; the receipts of the shards cover exactly what their rows account for;
* `accounted_run`: the invariant holds in every state of every run;
* `restart_accounting`: no sequence is stored twice, both stored and reported lost, or
  reported lost twice, and none is forgotten by a run whose items were all committed;
* `reserved_receipted_iff`: a batch receipts every sequence handed over in it exactly
  if no event in it was dropped for its type;
* `receipted_never_handed_over`: receipts outlive the rows that retention deletes.
-/

namespace Eventd

open Function List

/-- The daemon with `n` shards, from the point of view of one boot.  `failed` and
`dropped` only record what happened in the current run. -/
structure Daemon (n : ℕ) where
  boot : Guid
  shards : Fin n → Shard
  queues : Fin n → List IngestItem
  streams : UInt16 → Reconciler
  lastSequence : UInt16 → Option ℕ
  /-- Items of batches whose transaction failed. -/
  failed : List IngestItem
  /-- Sequences of events dropped because eventd writes their type itself. -/
  dropped : List (UInt16 × ℕ)

/-- What can happen next. -/
inductive Action (n : ℕ)
  | restart
  | drain (cpu : UInt16) (event : RingEvent) (shard : Fin n)
  | commit (shard : Fin n) (count : ℕ) (io : StorageIo)

namespace Daemon

variable {n : ℕ}

/-- The coverage a run starts from: the union of the receipts of all shards. -/
def loadCoverage (shards : Fin n → Shard) : Coverage :=
  Coverage.fromReceipts ((List.finRange n).flatMap fun i => (shards i).receipts)

/-- A run that has just started on the given shards. -/
def start (boot : Guid) (shards : Fin n → Shard) : Daemon n where
  boot := boot
  shards i := (shards i).reopen
  queues _ := []
  streams cpu := Reconciler.new (loadCoverage shards) boot cpu
  lastSequence _ := none
  failed := []
  dropped := []

/-- After a turn of a CPU's drain thread: what it handed over is queued, and the thread
goes on from the reconciler's new state. -/
def handOff (d : Daemon n) (cpu : UInt16) (event : RingEvent) (shard : Fin n)
    (item : Option IngestItem) (candidate : Reconciler) : Daemon n :=
  { d with
    streams := update d.streams cpu candidate
    lastSequence := update d.lastSequence cpu (some event.sequence)
    queues := update d.queues shard (d.queues shard ++ item.toList)
    dropped :=
      if dropsReserved (d.streams cpu) event then (cpu, event.sequence) :: d.dropped
      else d.dropped }

/-- After a shard's writer has committed, or failed to commit, the first items of its queue. -/
def commitBatch (d : Daemon n) (shard : Fin n) (count : ℕ) (io : StorageIo) : Daemon n :=
  let batch := (d.queues shard).take count
  { d with
    shards := update d.shards shard ((d.shards shard).commit batch io).1
    queues := update d.queues shard ((d.queues shard).drop count)
    failed := if (d.shards shard).commits batch io then d.failed else d.failed ++ batch }

/-- One step.  A ring event that the drain refuses ends that thread; the model lets it
go on with another event, which allows strictly more runs. -/
def step (d : Daemon n) : Action n → Daemon n
  | .restart => start d.boot d.shards
  | .drain cpu event shard =>
    match drainEvent (d.streams cpu) event with
    | .error _ => d
    | .ok (item, candidate) => d.handOff cpu event shard item candidate
  | .commit shard count io => d.commitBatch shard count io

/-- A run of actions. -/
def run (d : Daemon n) (actions : List (Action n)) : Daemon n := actions.foldl step d

/-! ### Counting -/

/-- How many event rows of all shards carry a sequence. -/
def storedRows (d : Daemon n) (cpu : UInt16) (s : ℕ) : ℕ :=
  ∑ i, stored (d.shards i).eventRows d.boot cpu s

/-- How many gap rows of all shards contain a sequence. -/
def lostRows (d : Daemon n) (cpu : UInt16) (s : ℕ) : ℕ :=
  ∑ i, lost (d.shards i).eventRows d.boot cpu s

/-- How often the rows of all shards account for a sequence. -/
def inShards (d : Daemon n) (cpu : UInt16) (s : ℕ) : ℕ :=
  ∑ i, (d.shards i).accounts d.boot cpu s

/-- How often the current run has a sequence under way, or has let go of it. -/
def inFlight (d : Daemon n) (cpu : UInt16) (s : ℕ) : ℕ :=
  ∑ i, accountsOf (d.queues i) d.boot cpu s + accountsOf d.failed d.boot cpu s +
    d.dropped.count (cpu, s)

theorem inShards_eq (d : Daemon n) (cpu : UInt16) (s : ℕ) :
    d.inShards cpu s = d.storedRows cpu s + d.lostRows cpu s :=
  Finset.sum_add_distrib

/-- Replacing one entry of a family moves the sum over it by the difference. -/
theorem sum_update {α : Type*} (f : Fin n → α) (j : Fin n) (value : α) (count : α → ℕ) :
    ∑ i, count (update f j value i) + count (f j) = ∑ i, count (f i) + count value := by
  rw [← Finset.add_sum_erase _ _ (Finset.mem_univ j), update_self,
    ← Finset.add_sum_erase Finset.univ (fun i => count (f i)) (Finset.mem_univ j)]
  have rest : ∑ i ∈ Finset.univ.erase j, count (update f j value i) =
      ∑ i ∈ Finset.univ.erase j, count (f i) :=
    Finset.sum_congr rfl fun i hi => by rw [update_of_ne (Finset.ne_of_mem_erase hi)]
  omega

/-! ### The invariant -/

/-- The accounting invariant. -/
structure Accounted (d : Daemon n) : Prop where
  /-- Each stream is reconciled for its own CPU of this boot. -/
  stream : ∀ cpu, (d.streams cpu).bootId = d.boot ∧ (d.streams cpu).cpuId = cpu
  /-- What the run has moved past, or knows a receipt for, is somewhere once. -/
  total : ∀ cpu s, 0 < s → d.inShards cpu s + d.inFlight cpu s =
    if s < (d.streams cpu).nextSequence ∨ (d.streams cpu).covered s = true then 1 else 0
  /-- The receipts of the shards cover what their rows account for. -/
  receipts : ∀ cpu s, (∃ i, (d.shards i).Covers d.boot cpu s) ↔ 0 < d.inShards cpu s
  last : ∀ cpu s, d.lastSequence cpu = some s → s < (d.streams cpu).nextSequence

/-- A shard that holds nothing of a boot yet. -/
def Fresh (boot : Guid) (shard : Shard) : Prop :=
  (∀ row ∈ shard.eventRows, row.bootId ≠ boot) ∧ ∀ receipt ∈ shard.receipts, receipt.1 ≠ boot

theorem covered_start (boot : Guid) (shards : Fin n → Shard) (cpu : UInt16) (s : ℕ) :
    ((start boot shards).streams cpu).covered s = true ↔ ∃ i, (shards i).Covers boot cpu s := by
  refine (Coverage.contains_fromReceipts _ boot cpu s).trans ?_
  simp only [mem_flatMap, mem_finRange, true_and]
  exact ⟨fun ⟨i, ⟨j, mem⟩, hs⟩ => ⟨j, i, mem, hs⟩, fun ⟨j, i, mem, hs⟩ => ⟨i, ⟨j, mem⟩, hs⟩⟩

@[simp] theorem inFlight_start (boot : Guid) (shards : Fin n → Shard) (cpu : UInt16) (s : ℕ) :
    (start boot shards).inFlight cpu s = 0 := by
  simp [inFlight, start, accountsOf]

variable {d : Daemon n} {boot : Guid} {cpu : UInt16} {shards : Fin n → Shard} {s : ℕ}

/-- A run starts accounted for on any shards whose receipts match their rows. -/
theorem accounted_start (once : ∀ cpu s, 0 < s → ∑ i, (shards i).accounts boot cpu s ≤ 1)
    (receipts : ∀ cpu s, (∃ i, (shards i).Covers boot cpu s) ↔
      0 < ∑ i, (shards i).accounts boot cpu s) :
    (start boot shards).Accounted where
  stream _ := ⟨rfl, rfl⟩
  total cpu s pos := by
    have covered := (covered_start boot shards cpu s).trans (receipts cpu s)
    have once := once cpu s pos
    have shards_eq : (start boot shards).inShards cpu s =
        ∑ i, (shards i).accounts boot cpu s := rfl
    rw [inFlight_start, shards_eq, add_zero]
    by_cases h : 0 < ∑ i, (shards i).accounts boot cpu s
    · rw [if_pos (.inr (covered.2 h))]
      omega
    · rw [if_neg]
      · omega
      · rintro (below | hcovered)
        · exact absurd below (by simp [start, Reconciler.new]; omega)
        · exact h (covered.1 hcovered)
  receipts := receipts
  last _ _ h := nomatch h

theorem accounts_fresh {shard : Shard} (fresh : Fresh boot shard) (cpu : UInt16) (s : ℕ) :
    shard.accounts boot cpu s = 0 := by
  have other : ∀ row ∈ shard.eventRows, (row.bootId == boot) = false := fun row mem =>
    beq_eq_false_iff_ne.2 (fresh.1 row mem)
  have stored : stored shard.eventRows boot cpu s = 0 := countP_eq_zero.2 fun row mem => by
    simp [EventRow.isEventOf, other row mem]
  have lost : lost shard.eventRows boot cpu s = 0 := countP_eq_zero.2 fun row mem => by
    simp [EventRow.isGapOver, other row mem]
  rw [Shard.accounts, stored, lost]

theorem accounted_of_fresh (fresh : ∀ i, Fresh boot (shards i)) :
    (start boot shards).Accounted := by
  have none : ∀ cpu s, ∑ i, (shards i).accounts boot cpu s = 0 := fun cpu s =>
    Finset.sum_eq_zero fun i _ => accounts_fresh (fresh i) cpu s
  refine accounted_start (fun cpu s _ => (none cpu s).trans_le zero_le_one) fun cpu s => ?_
  rw [none]
  exact iff_of_false (fun ⟨i, interval, mem, _⟩ => (fresh i).2 _ mem rfl) (lt_irrefl 0)

/-- Nothing is in the shards more than once. -/
theorem Accounted.inShards_le_one (h : d.Accounted) (cpu : UInt16) {s : ℕ} (pos : 0 < s) :
    d.inShards cpu s ≤ 1 := by
  have total := h.total cpu s pos
  split at total <;> omega

/-! ### One step keeps the invariant -/

theorem accounted_restart (h : d.Accounted) : (d.step .restart).Accounted :=
  accounted_start (fun cpu _ pos => h.inShards_le_one cpu pos) h.receipts

/-- What a turn hands over accounts for nothing of another CPU. -/
theorem accountsOf_drain_other {r r' : Reconciler} {event : RingEvent}
    {item : Option IngestItem} (turn : drainEvent r event = .ok (item, r')) (boot : Guid)
    {cpu : UInt16} (other : cpu ≠ r.cpuId) (s : ℕ) :
    accountsOf item.toList boot cpu s = 0 := by
  cases item with
  | none => rfl
  | some item =>
    have stream := (drainEvent_item turn).1
    rw [Option.toList_some, accountsOf, map_singleton, sum_singleton,
      IngestItem.accounts, if_neg]
    rw [stream]
    exact fun same => other (congrArg Prod.snd same).symm

theorem count_dropped (drops : Bool) (cpu c : UInt16) (sequence s : ℕ)
    (dropped : List (UInt16 × ℕ)) :
    (if drops then (cpu, sequence) :: dropped else dropped).count (c, s) =
      dropped.count (c, s) + if cpu = c ∧ drops = true ∧ sequence = s then 1 else 0 := by
  cases drops
  · simp
  · simp only [if_true, count_cons, beq_iff_eq, Prod.mk.injEq, true_and]

theorem inShards_handOff (d : Daemon n) (cpu : UInt16) (event : RingEvent) (shard : Fin n)
    (item : Option IngestItem) (candidate : Reconciler) (c : UInt16) (s : ℕ) :
    (d.handOff cpu event shard item candidate).inShards c s = d.inShards c s := rfl

theorem inFlight_handOff (d : Daemon n) (cpu : UInt16) (event : RingEvent) (shard : Fin n)
    (item : Option IngestItem) (candidate : Reconciler) (c : UInt16) (s : ℕ) :
    (d.handOff cpu event shard item candidate).inFlight c s =
      d.inFlight c s + accountsOf item.toList d.boot c s +
        if cpu = c ∧ dropsReserved (d.streams cpu) event = true ∧ event.sequence = s then 1
        else 0 := by
  have queued := sum_update d.queues shard (d.queues shard ++ item.toList)
    fun items => accountsOf items d.boot c s
  rw [accountsOf_append] at queued
  simp only [inFlight, handOff, count_dropped]
  omega

theorem accounted_drain (h : d.Accounted) (cpu : UInt16) (event : RingEvent) (shard : Fin n) :
    (d.step (.drain cpu event shard)).Accounted := by
  rw [step]
  cases turn : drainEvent (d.streams cpu) event with
  | error _ => exact h
  | ok result =>
    obtain ⟨item, candidate⟩ := result
    obtain ⟨coverage, boot, cpuId, advanced, below⟩ := drainEvent_stream turn
    obtain ⟨streamBoot, streamCpu⟩ := h.stream cpu
    have covered (s : ℕ) : candidate.covered s = (d.streams cpu).covered s := by
      rw [Reconciler.covered, Reconciler.covered, coverage, boot, cpuId]
    have own : (d.handOff cpu event shard item candidate).streams cpu = candidate :=
      update_self ..
    have others {c : UInt16} (other : c ≠ cpu) :
        (d.handOff cpu event shard item candidate).streams c = d.streams c :=
      update_of_ne other ..
    refine ⟨fun c => ?_, fun c s pos => ?_, h.receipts, fun c s hlast => ?_⟩
    · by_cases same : c = cpu
      · subst same
        rw [own]
        exact ⟨boot.trans streamBoot, cpuId.trans streamCpu⟩
      · rw [others same]
        exact h.stream c
    · have total := h.total c s pos
      rw [inShards_handOff, inFlight_handOff]
      by_cases same : c = cpu
      · subst same
        have added := accounts_of_drain turn s
        rw [streamBoot, streamCpu] at added
        simp only [own, covered, true_and]
        cases hcovered : (d.streams c).covered s <;>
          simp only [hcovered, or_true, or_false, and_true, and_false, if_true, if_false,
            Bool.false_eq_true, Bool.true_eq_false] at added total ⊢ <;>
          split_ifs at added total ⊢ <;> omega
      · have none := accountsOf_drain_other turn d.boot (streamCpu.symm ▸ same) s
        simp only [others same]
        rw [if_neg fun h => same h.1.symm, none]
        exact total
    · change update d.lastSequence cpu (some event.sequence) c = some s at hlast
      by_cases same : c = cpu
      · subst same
        rw [update_self] at hlast
        rw [own]
        exact Option.some.inj hlast ▸ below
      · rw [update_of_ne same] at hlast
        rw [others same]
        exact h.last c s hlast

section

variable (d : Daemon n) (shard : Fin n) (count : ℕ) (io : StorageIo) (cpu : UInt16) (s : ℕ)

/-- Moving a batch from a queue into its shard, or into the failed items, moves what it
accounts for along with it. -/
theorem accounts_commitBatch :
    (d.commitBatch shard count io).inShards cpu s = d.inShards cpu s +
        (if (d.shards shard).commits ((d.queues shard).take count) io then
          accountsOf ((d.queues shard).take count) d.boot cpu s else 0) ∧
      (d.commitBatch shard count io).inShards cpu s +
        (d.commitBatch shard count io).inFlight cpu s =
      d.inShards cpu s + d.inFlight cpu s := by
  have rows := sum_update d.shards shard
    ((d.shards shard).commit ((d.queues shard).take count) io).1
    fun shard => shard.accounts d.boot cpu s
  have items := sum_update d.queues shard ((d.queues shard).drop count)
    fun items => accountsOf items d.boot cpu s
  have split : accountsOf (d.queues shard) d.boot cpu s =
      accountsOf ((d.queues shard).take count) d.boot cpu s +
        accountsOf ((d.queues shard).drop count) d.boot cpu s := by
    rw [← accountsOf_append, take_append_drop]
  rw [Shard.accounts_commit] at rows
  simp only [inShards, inFlight, commitBatch]
  cases written : (d.shards shard).commits ((d.queues shard).take count) io
  · simp only [written, Bool.false_eq_true, if_false, accountsOf_append] at rows ⊢
    omega
  · simp only [written, if_true] at rows ⊢
    omega

theorem covers_commitBatch :
    (∃ i, ((d.commitBatch shard count io).shards i).Covers d.boot cpu s) ↔
      (∃ i, (d.shards i).Covers d.boot cpu s) ∨
        0 < if (d.shards shard).commits ((d.queues shard).take count) io then
          accountsOf ((d.queues shard).take count) d.boot cpu s else 0 := by
  have own := (d.shards shard).covers_commit ((d.queues shard).take count) io d.boot cpu s
  have at_shard : (d.commitBatch shard count io).shards shard =
      ((d.shards shard).commit ((d.queues shard).take count) io).1 := update_self ..
  have elsewhere {i : Fin n} (other : i ≠ shard) :
      (d.commitBatch shard count io).shards i = d.shards i := update_of_ne other ..
  constructor
  · rintro ⟨i, covers⟩
    by_cases same : i = shard
    · subst same
      rw [at_shard, own] at covers
      exact covers.imp_left fun h => ⟨i, h⟩
    · exact .inl ⟨i, elsewhere same ▸ covers⟩
  · rintro (⟨i, covers⟩ | added)
    · by_cases same : i = shard
      · subst same
        exact ⟨i, at_shard ▸ own.2 (.inl covers)⟩
      · exact ⟨i, (elsewhere same).symm ▸ covers⟩
    · exact ⟨shard, at_shard ▸ own.2 (.inr added)⟩

end

theorem accounted_commit (h : d.Accounted) (shard : Fin n) (count : ℕ) (io : StorageIo) :
    (d.step (.commit shard count io)).Accounted := by
  refine ⟨h.stream, fun cpu s pos => ?_, fun cpu s => ?_, h.last⟩
  · exact (accounts_commitBatch d shard count io cpu s).2.trans (h.total cpu s pos)
  · have added := (accounts_commitBatch d shard count io cpu s).1
    refine (covers_commitBatch d shard count io cpu s).trans ?_
    rw [h.receipts cpu s, step, added]
    exact Nat.add_pos_iff_pos_or_pos.symm

theorem accounted_step (h : d.Accounted) (action : Action n) :
    (d.step action).Accounted := by
  cases action with
  | restart => exact accounted_restart h
  | drain cpu event shard => exact accounted_drain h cpu event shard
  | commit shard count io => exact accounted_commit h shard count io

/-- **Every state of every run is accounted for.** -/
theorem accounted_run (h : d.Accounted) (actions : List (Action n)) :
    (d.run actions).Accounted :=
  List.foldlRecOn actions step h fun _ h action _ => accounted_step h action

/-! ### Runs that meet no reserved type -/

/-- The action drains no event that claims a type eventd writes itself. -/
def Ordinary : Action n → Prop
  | .drain _ event _ => isReserved event.eventType = false
  | _ => True

theorem dropped_step (none : d.dropped = []) {action : Action n} (ordinary : Ordinary action) :
    (d.step action).dropped = [] := by
  cases action with
  | restart => rfl
  | commit shard count io => exact none
  | drain cpu event shard =>
    have kept : dropsReserved (d.streams cpu) event = false := by
      rw [dropsReserved, show isReserved event.eventType = false from ordinary, Bool.and_false]
    rw [step]
    split
    · exact none
    · rw [handOff, kept]
      exact none

theorem dropped_run (none : d.dropped = []) {actions : List (Action n)}
    (ordinary : ∀ action ∈ actions, Ordinary action) : (d.run actions).dropped = [] :=
  List.foldlRecOn (motive := fun d => d.dropped = []) actions step none
    fun _ none action mem => dropped_step none (ordinary action mem)

/-- **Restart accounting.**  Start on shards that hold nothing of a boot, and let the
drain threads, the shards' commits and restarts interleave in any way, draining no
event of a reserved type.  Then in every state no sequence is an event row twice, or an
event row and inside a gap, or inside two gaps; and if everything the current run handed
over is committed, every sequence up to the last one observed is one or the other. -/
theorem restart_accounting {boot : Guid} {shards : Fin n → Shard}
    (fresh : ∀ i, Fresh boot (shards i)) {actions : List (Action n)}
    (ordinary : ∀ action ∈ actions, Ordinary action) (cpu : UInt16) (s : ℕ) (pos : 0 < s) :
    let d := (start boot shards).run actions
    d.storedRows cpu s ≤ 1 ∧ (d.storedRows cpu s = 0 ∨ d.lostRows cpu s = 0) ∧
      d.lostRows cpu s ≤ 1 ∧
      ((∀ i, d.queues i = []) → d.failed = [] →
        ∀ last, d.lastSequence cpu = some last → s ≤ last →
          0 < d.storedRows cpu s ∨ 0 < d.lostRows cpu s) := by
  intro d
  have h : d.Accounted := accounted_run (accounted_of_fresh fresh) actions
  have once := h.inShards_le_one cpu pos
  rw [inShards_eq] at once
  refine ⟨by omega, by omega, by omega, fun queues failed last hlast hs => ?_⟩
  -- nothing is under way, so what the run has moved past is in the shards
  have flight : d.inFlight cpu s = 0 := by
    have dropped : d.dropped = [] := dropped_run rfl ordinary
    simp [inFlight, queues, failed, dropped, accountsOf]
  have total := h.total cpu s pos
  rw [flight, inShards_eq, if_pos (.inl (hs.trans_lt (h.last cpu last hlast)))] at total
  omega

/-- A ring event of the given sequence and type, with nothing else of interest. -/
def plainEvent (sequence : Fin 1000) (eventType : String) : RingEvent where
  cpuId := 0
  sequence := sequence
  timestamp := 0
  originClass := .userspace
  effectiveTokenGuid := Vector.replicate 16 0
  trueTokenGuid := Vector.replicate 16 0
  processGuid := Vector.replicate 16 0
  eventType := eventType
  payload := []
  sequence_le := sequence.isLt.le.trans (by decide)

theorem fresh_new (boot : Guid) : Fresh boot Shard.new := ⟨nofun, nofun⟩

/-- Two runs on two shards: the first loses its second shard's queue to a restart, and
sequence two is then reported lost. -/
theorem restart_accounting_two_runs :
    let d := (start (Vector.replicate 16 1) fun _ : Fin 2 => Shard.new).run
      [.drain 0 (plainEvent 1 "a") 0, .drain 0 (plainEvent 2 "a") 1, .commit 0 1 .fine, .restart,
        .drain 0 (plainEvent 4 "a") 1, .commit 1 1 .fine]
    0 < d.storedRows 0 2 ∨ 0 < d.lostRows 0 2 :=
  (restart_accounting (fun _ => fresh_new _) (by simp [Ordinary]; decide) 0 2 (by decide)).2.2.2
    (by decide) (by decide) 4 (by decide) (by decide)

/-! ### Events dropped for their type -/

/-- The item was handed over for an event that claims a type eventd writes itself and
that the run knows no receipt for: the event is dropped. -/
def DroppedReserved (d : Daemon n) (item : IngestItem) : Prop :=
  isReserved item.event.eventType = true ∧
    (d.streams item.event.cpuId).covered item.event.sequence = false

/-- The shard has a receipt for the item's event, and no later run, whatever is still in
the rings by then, reports its sequence lost. -/
def ReceiptedForGood (d : Daemon n) (shard : Fin n) (item : IngestItem) : Prop :=
  (d.shards shard).Covers d.boot item.event.cpuId item.event.sequence ∧
  ∀ (later : List (Action n)) (event : RingEvent) (next : IngestItem) (r : Reconciler),
    drainEvent (((d.step .restart).run later).streams item.event.cpuId) event =
      .ok (some next, r) → gapCount next.gaps item.event.sequence = 0

/-- What is known of queued items: they belong to this boot, and a reserved type among
them is either receipted or recorded as dropped. -/
def Queued (d : Daemon n) : Prop :=
  ∀ i, ∀ item ∈ d.queues i, item.event.bootId = d.boot ∧
    (isReserved item.event.eventType = true →
      (d.streams item.event.cpuId).covered item.event.sequence = true ∨
        (item.event.cpuId, item.event.sequence) ∈ d.dropped)

theorem queued_start (boot : Guid) (shards : Fin n → Shard) : (start boot shards).Queued :=
  fun _ _ mem => nomatch mem

theorem covered_handOff {event : RingEvent} {item : Option IngestItem} {candidate : Reconciler}
    (turn : drainEvent (d.streams cpu) event = .ok (item, candidate)) (shard : Fin n) (c : UInt16)
    (s : ℕ) :
    ((d.handOff cpu event shard item candidate).streams c).covered s =
      (d.streams c).covered s := by
  obtain ⟨coverage, boot, cpuId, -⟩ := drainEvent_stream turn
  by_cases same : c = cpu
  · subst same
    have own : (d.handOff c event shard item candidate).streams c = candidate :=
      update_self ..
    rw [own, Reconciler.covered, Reconciler.covered, coverage, boot, cpuId]
  · have other : (d.handOff cpu event shard item candidate).streams c = d.streams c :=
      update_of_ne same ..
    rw [other]

theorem queued_step (h : d.Accounted) (queued : d.Queued) (action : Action n) :
    (d.step action).Queued := by
  cases action with
  | restart => exact queued_start d.boot d.shards
  | commit shard count io =>
    intro i item mem
    refine queued i item ?_
    change item ∈ update d.queues shard ((d.queues shard).drop count) i at mem
    by_cases same : i = shard
    · subst same
      rw [update_self] at mem
      exact mem_of_mem_drop mem
    · rwa [update_of_ne same] at mem
  | drain cpu event shard =>
    rw [step]
    cases turn : drainEvent (d.streams cpu) event with
    | error _ => exact queued
    | ok result =>
      obtain ⟨handed, candidate⟩ := result
      intro i item mem
      have old : item ∈ d.queues i → item.event.bootId = d.boot ∧
          (isReserved item.event.eventType = true →
            (d.streams item.event.cpuId).covered item.event.sequence = true ∨
              (item.event.cpuId, item.event.sequence) ∈
                (d.handOff cpu event shard handed candidate).dropped) := by
        intro mem
        refine ⟨(queued i item mem).1, fun reserved => ?_⟩
        refine ((queued i item mem).2 reserved).imp_right fun dropped => ?_
        rw [handOff]
        split
        · exact mem_cons_of_mem _ dropped
        · exact dropped
      rw [covered_handOff turn]
      change item ∈ update d.queues shard (d.queues shard ++ handed.toList) i at mem
      by_cases same : i = shard
      · subst same
        rw [update_self, mem_append, Option.mem_toList] at mem
        rcases mem with mem | rfl
        · exact old mem
        · obtain ⟨stream, sequence, eventType, next, -⟩ := drainEvent_item turn
          obtain ⟨streamBoot, streamCpu⟩ := h.stream cpu
          have boot : item.event.bootId = d.boot :=
            (congrArg Prod.fst stream).trans streamBoot
          have cpuId : item.event.cpuId = cpu := (congrArg Prod.snd stream).trans streamCpu
          refine ⟨boot, fun reserved => ?_⟩
          rw [cpuId, sequence]
          cases hcovered : (d.streams cpu).covered event.sequence with
          | true => exact .inl rfl
          | false =>
            have drops : dropsReserved (d.streams cpu) event = true := by
              simp [dropsReserved, next, hcovered, ← eventType, reserved]
            have recorded : (d.handOff cpu event i (some item) candidate).dropped =
                (cpu, event.sequence) :: d.dropped := if_pos drops
            rw [recorded]
            exact .inr mem_cons_self
      · rw [update_of_ne same] at mem
        exact old mem

theorem queued_run (fresh : ∀ i, Fresh boot (shards i)) (actions : List (Action n)) :
    ((start boot shards).run actions).Queued :=
  (List.foldlRecOn (motive := fun d => d.Accounted ∧ d.Queued) actions step
    ⟨accounted_of_fresh fresh, queued_start boot shards⟩
    fun _ h action _ => ⟨accounted_step h.1 action, queued_step h.1 h.2 action⟩).2

/-- A sequence that is receipted in a shard and known to the run to be. -/
def Settled (d : Daemon n) (cpu : UInt16) (s : ℕ) : Prop :=
  (∃ i, (d.shards i).Covers d.boot cpu s) ∧ (d.streams cpu).covered s = true

theorem settled_restart (covers : ∃ i, (d.shards i).Covers d.boot cpu s) :
    (d.step .restart).Settled cpu s :=
  ⟨covers, (covered_start d.boot d.shards cpu s).2 covers⟩

theorem settled_step (h : d.Settled cpu s) (action : Action n) : (d.step action).Settled cpu s := by
  cases action with
  | restart => exact settled_restart h.1
  | commit shard count io => exact ⟨(covers_commitBatch d shard count io cpu s).2 (.inl h.1), h.2⟩
  | drain c event shard =>
    rw [step]
    cases turn : drainEvent (d.streams c) event with
    | error _ => exact h
    | ok result => exact ⟨h.1, (covered_handOff turn shard cpu s).trans h.2⟩

/-- Once a sequence is receipted, no later run reports it lost. -/
theorem no_gap_of_covers (covers : ∃ i, (d.shards i).Covers d.boot cpu s) (later : List (Action n))
    {event : RingEvent} {next : IngestItem} {r : Reconciler}
    (turn : drainEvent (((d.step .restart).run later).streams cpu) event = .ok (some next, r)) :
    gapCount next.gaps s = 0 := by
  have settled : ((d.step .restart).run later).Settled cpu s :=
    List.foldlRecOn (motive := fun d => d.Settled cpu s) later step (settled_restart covers)
      fun _ h action _ => settled_step h action
  rcases drainEvent_cases turn with ⟨-, none, -⟩ | ⟨-, -, -, -, -, _, hseq, ⟨none, -⟩ | some⟩
  · cases none
  · cases none
  · obtain rfl := Option.some.inj some
    rw [Reconciler.gapCount_uncoveredGaps, settled.2]
    simp

theorem commits_of_ok {shard : Shard} {items : List IngestItem} {io : StorageIo}
    {stats : CommitStats} (ok : (shard.commit items io).2 = .ok stats) (nonempty : items ≠ []) :
    shard.commits items io = true := by
  rcases Shard.commit_cases (Prod.mk.eta (p := shard.commit items io)).symm with
    ⟨empty, -⟩ | ⟨-, -, error, failed⟩ | ⟨-, written, fine, -⟩
  · exact absurd empty nonempty
  · rw [failed] at ok
    cases ok
  · simp [Shard.commits, fine, written, Except.isOk, Except.toBool]

/-- **When a batch receipts what was handed over in it.**  In every reachable state, a
commit that succeeds receipts for good each stored event and each event dropped for its
type exactly if the batch has none of the latter: the receipt of an item follows from
whether its event is stored. -/
theorem reserved_receipted_iff {boot : Guid} {shards : Fin n → Shard}
    (fresh : ∀ i, Fresh boot (shards i)) (actions : List (Action n)) (shard : Fin n)
    (count : ℕ) (io : StorageIo) (stats : CommitStats)
    (ok : ((((start boot shards).run actions).shards shard).commit
      ((((start boot shards).run actions).queues shard).take count) io).2 = .ok stats) :
    let d := (start boot shards).run actions
    (∀ item ∈ (d.queues shard).take count, item.storeEvent = true ∨ d.DroppedReserved item →
        (d.step (.commit shard count io)).ReceiptedForGood shard item) ↔
      ∀ item ∈ (d.queues shard).take count, ¬ d.DroppedReserved item := by
  intro d
  have accounted : d.Accounted := accounted_run (accounted_of_fresh fresh) actions
  have queued : d.Queued := queued_run fresh actions
  constructor
  · intro receipted item mem reserved
    obtain ⟨covers, -⟩ := receipted item mem (.inr reserved)
    have after := accounted_commit accounted shard count io
    -- the event is on record as dropped, so no row can account for it
    have dropped := ((queued shard item (mem_of_mem_take mem)).2 reserved.1).resolve_left
      (by simp [reserved.2])
    have pos := (after.receipts item.event.cpuId item.event.sequence).1 ⟨shard, covers⟩
    have total := after.total item.event.cpuId item.event.sequence item.event.sequence_pos
    have counted : 0 < d.dropped.count (item.event.cpuId, item.event.sequence) :=
      count_pos_iff.2 dropped
    have flight : d.dropped.count (item.event.cpuId, item.event.sequence) ≤
        (d.step (.commit shard count io)).inFlight item.event.cpuId item.event.sequence :=
      Nat.le_add_left _ _
    split at total <;> omega
  · intro none item mem handed
    have stored := handed.resolve_right (none item mem)
    have nonempty : (d.queues shard).take count ≠ [] := ne_nil_of_mem mem
    have stream : item.stream = (d.boot, item.event.cpuId) := by
      rw [IngestItem.stream, (queued shard item (mem_of_mem_take mem)).1]
    have covers : ((d.step (.commit shard count io)).shards shard).Covers d.boot
        item.event.cpuId item.event.sequence := by
      have at_shard : (d.step (.commit shard count io)).shards shard =
          ((d.shards shard).commit ((d.queues shard).take count) io).1 :=
        update_self ..
      rw [at_shard, Shard.covers_commit, commits_of_ok ok nonempty, if_pos rfl,
        accountsOf_pos_iff]
      refine .inr ⟨item, mem, stream, item.event.interval, ?_, ?_⟩
      · rw [IngestItem.receipts, if_pos stored]
        exact mem_append_right _ mem_cons_self
      · rw [RealEvent.contains_interval]
    exact ⟨covers, fun later event next r turn => no_gap_of_covers ⟨shard, covers⟩ later turn⟩

/-- An ordinary event and the batch made of it meet the condition, and the event is
receipted for good. -/
theorem ordinary_receipted :
    let d := (start (Vector.replicate 16 1) fun _ : Fin 1 => Shard.new).run
      [.drain 0 (plainEvent 1 "a") 0]
    ∀ item ∈ (d.queues 0).take 1, item.storeEvent = true ∨ d.DroppedReserved item →
      (d.step (.commit 0 1 .fine)).ReceiptedForGood 0 item :=
  (reserved_receipted_iff (fun _ => fresh_new _) [.drain 0 (plainEvent 1 "a") 0] 0 1 .fine
    ⟨1, 1, 1⟩ rfl).2 fun item mem reserved => by
      obtain rfl := mem_singleton.1 mem
      exact absurd reserved.1 (by decide)

/-- An emitter claims the type of a stop record: the batch commits and leaves no receipt
for the sequence handed over in it. -/
theorem reserved_not_receipted :
    let d := (start (Vector.replicate 16 1) fun _ : Fin 1 => Shard.new).run
      [.drain 0 (plainEvent 1 daemonStopped) 0]
    (∃ stats, ((d.shards 0).commit ((d.queues 0).take 1) .fine).2 = .ok stats) ∧
    ¬ ∀ item ∈ (d.queues 0).take 1, item.storeEvent = true ∨ d.DroppedReserved item →
      (d.step (.commit 0 1 .fine)).ReceiptedForGood 0 item := by
  refine ⟨⟨⟨1, 0, 0⟩, rfl⟩, fun receipted => ?_⟩
  obtain ⟨interval, mem, -⟩ := (receipted
    { gaps := []
      storeEvent := false
      event := (plainEvent 1 daemonStopped).toReal (Vector.replicate 16 1) 0 (by decide) }
    (by decide) (.inr ⟨by decide, by decide⟩)).1
  exact not_mem_nil mem

/-- **Receipts and rows tell the same** until retention deletes rows: a sequence has a receipt
exactly if one row accounts for it, as an event or inside a gap. -/
theorem receipted_iff_one_row (fresh : ∀ i, Fresh boot (shards i)) (actions : List (Action n))
    (cpu : UInt16) {s : ℕ} (pos : 0 < s) :
    let d := (start boot shards).run actions
    (∃ i, (d.shards i).Covers d.boot cpu s) ↔ d.storedRows cpu s + d.lostRows cpu s = 1 := by
  intro d
  have h : d.Accounted := accounted_run (accounted_of_fresh fresh) actions
  have once := h.inShards_le_one cpu pos
  rw [h.receipts cpu s, ← inShards_eq]
  omega

theorem receipted_iff_one_row_two :
    let d := (start (Vector.replicate 16 1) fun _ : Fin 1 => Shard.new).run
      [.drain 0 (plainEvent 2 "a") 0, .commit 0 1 .fine]
    (∃ i, (d.shards i).Covers d.boot 0 1) ↔ d.storedRows 0 1 + d.lostRows 0 1 = 1 :=
  receipted_iff_one_row (fun _ => fresh_new _) _ 0 Nat.one_pos

/-! ### Retention -/

/-- A step, or a bounded delete of retention. -/
inductive Upkeep (n : ℕ)
  | act (action : Action n)
  | retain (shard : Fin n) (condition : EventRow → Bool) (limit : ℕ) (io : StorageIo)

def upkeep (d : Daemon n) : Upkeep n → Daemon n
  | .act action => d.step action
  | .retain shard condition limit io =>
    { d with
      shards := update d.shards shard ((d.shards shard).deleteEvents condition limit io).1 }

theorem receipts_deleteEvents (shard : Shard) (condition : EventRow → Bool) (limit : ℕ)
    (io : StorageIo) : (shard.deleteEvents condition limit io).1.receipts = shard.receipts := by
  unfold Shard.deleteEvents
  split
  · rfl
  · split <;> rfl

theorem settled_upkeep (h : d.Settled cpu s) (next : Upkeep n) : (d.upkeep next).Settled cpu s := by
  cases next with
  | act action => exact settled_step h action
  | retain shard condition limit io =>
    obtain ⟨⟨i, covers⟩, known⟩ := h
    refine ⟨⟨i, ?_⟩, known⟩
    unfold upkeep Shard.Covers
    dsimp only
    rw [apply_update fun _ => Shard.receipts, receipts_deleteEvents, update_eq_self]
    exact covers

/-- **What has a receipt is never handed over again** after a restart, neither as an event to
store nor inside a gap, in any order of drains, commits, restarts and deletes of retention. -/
theorem receipted_never_handed_over (covers : ∃ i, (d.shards i).Covers d.boot cpu s)
    (later : List (Upkeep n)) {event : RingEvent} {item : IngestItem} {r : Reconciler}
    (turn : drainEvent ((later.foldl upkeep (d.step .restart)).streams cpu) event =
      .ok (some item, r)) :
    gapCount item.gaps s = 0 ∧ (item.storeEvent = true → item.event.sequence ≠ s) := by
  have settled : (later.foldl upkeep (d.step .restart)).Settled cpu s :=
    List.foldlRecOn (motive := fun d => d.Settled cpu s) later upkeep (settled_restart covers)
      fun _ h next _ => settled_upkeep h next
  obtain ⟨stream, -⟩ := drainEvent_item turn
  have accounts := accounts_of_drain turn s
  rw [settled.2] at accounts
  simp [accountsOf, IngestItem.accounts, stream] at accounts
  exact ⟨accounts.1.2, accounts.1.1⟩

/-- The row of an event is deleted, and the sequence after it is missing. -/
theorem receipted_never_handed_over_deleted :
    let d := (start (Vector.replicate 16 1) fun _ : Fin 1 => Shard.new).run
      [.drain 0 (plainEvent 1 "a") 0, .commit 0 1 .fine]
    ∃ item r, drainEvent (((d.step .restart).upkeep (.retain 0 (fun _ => true) 9 .fine)).streams 0)
      (plainEvent 3 "a") = .ok (some item, r) ∧ gapCount item.gaps 1 = 0 := by
  intro d
  have covers : ∃ i, (d.shards i).Covers d.boot 0 1 :=
    ⟨0, ⟨1, 1, Nat.one_pos, le_rfl, by decide⟩, by decide, by decide⟩
  refine ⟨_, _, rfl, ?_⟩
  exact (receipted_never_handed_over covers [.retain 0 (fun _ => true) 9 .fine]
    (show drainEvent _ (plainEvent 3 "a") = _ from rfl)).1

end Daemon

end Eventd
