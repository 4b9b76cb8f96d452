import Mathlib.Tactic

/-!
# Routing

`eventd-core/src/routing.rs`: which shards a CPU writes to, and how its events are spread over them in
stripes.

* `assignedShards`: the shards of a CPU;
* `StripeRouter`: the next shard, event by event;
* `shards_assigned_and_striped`.
-/

namespace Eventd

open List

/-! ### Assignment -/

/-- `(first..bound).step_by(step)` -/
def stepBy (first bound step : ℕ) : List ℕ :=
  List.range' first ((bound - first + step - 1) / step) step

/-- The shards of a CPU.  There is none if the counts or the ordinal are refused. -/
def assignedShards (ordinal cpuCount shardCount : ℕ) : Option (List ℕ) :=
  if cpuCount > 0 ∧ ordinal < cpuCount ∧ shardCount > 0 then
    let shards := stepBy ordinal shardCount cpuCount
    some (if shards.isEmpty then shards ++ [ordinal % shardCount] else shards)
  else none

section StepBy

variable {first bound step shard : ℕ}

theorem lt_steps_iff (pos : 0 < step) (i : ℕ) :
    i < (bound - first + step - 1) / step ↔ first + step * i < bound := by
  rw [← Nat.succ_le_iff, Nat.le_div_iff_mul_le pos, Nat.succ_mul, Nat.mul_comm i]
  omega

theorem mem_stepBy (pos : 0 < step) :
    shard ∈ stepBy first bound step ↔ first ≤ shard ∧ shard < bound ∧ shard % step = first % step := by
  rw [stepBy, mem_range']
  constructor
  · rintro ⟨i, below, rfl⟩
    exact ⟨Nat.le_add_right _ _, (lt_steps_iff pos i).1 below, Nat.add_mul_mod_self_left _ _ _⟩
  · rintro ⟨le, below, same⟩
    obtain ⟨i, is⟩ := (Nat.modEq_iff_dvd' le).1 (Nat.ModEq.symm same)
    have sum : first + step * i = shard := by omega
    exact ⟨i, (lt_steps_iff pos i).2 (by omega), sum.symm⟩

theorem nodup_stepBy (pos : 0 < step) : (stepBy first bound step).Nodup := nodup_range' step pos

theorem length_stepBy : (stepBy first bound step).length = (bound - first + step - 1) / step :=
  length_range'

theorem stepBy_eq_nil_iff (pos : 0 < step) : stepBy first bound step = [] ↔ bound ≤ first := by
  rw [← length_eq_zero_iff, length_stepBy, Nat.div_eq_zero_iff]
  omega

end StepBy

section Assigned

variable {ordinal cpuCount shardCount shard : ℕ}

theorem assignedShards_eq (ordinal_lt : ordinal < cpuCount) (pos : 0 < shardCount) :
    assignedShards ordinal cpuCount shardCount =
      some (if shardCount ≤ ordinal then [ordinal % shardCount]
        else stepBy ordinal shardCount cpuCount) := by
  have cpus : 0 < cpuCount := Nat.zero_lt_of_lt ordinal_lt
  rw [assignedShards, if_pos ⟨cpus, ordinal_lt, pos⟩, Option.some_inj]
  by_cases few : shardCount ≤ ordinal
  · have nil := (stepBy_eq_nil_iff cpus).2 few
    rw [if_pos few, nil]
    rfl
  · have some : stepBy ordinal shardCount cpuCount ≠ [] := fun nil => few ((stepBy_eq_nil_iff cpus).1 nil)
    rw [if_neg few, if_neg (by simpa using some)]

/-- With enough shards a CPU has those that its ordinal is the remainder of. -/
theorem mem_stepBy_iff (ordinal_lt : ordinal < cpuCount) :
    shard ∈ stepBy ordinal shardCount cpuCount ↔ shard < shardCount ∧ shard % cpuCount = ordinal := by
  rw [mem_stepBy (Nat.zero_lt_of_lt ordinal_lt), Nat.mod_eq_of_lt ordinal_lt]
  constructor
  · rintro ⟨-, below, same⟩
    exact ⟨below, same⟩
  · rintro ⟨below, same⟩
    exact ⟨same ▸ Nat.mod_le _ _, below, same⟩

/-- Every CPU with enough shards has as many as there are to each, or one more. -/
theorem length_stepBy_bounds (ordinal_lt : ordinal < cpuCount) (enough : cpuCount ≤ shardCount) :
    shardCount / cpuCount ≤ (stepBy ordinal shardCount cpuCount).length ∧
      (stepBy ordinal shardCount cpuCount).length ≤ shardCount / cpuCount + 1 := by
  have pos : 0 < cpuCount := Nat.zero_lt_of_lt ordinal_lt
  rw [length_stepBy, ← Nat.add_div_right shardCount pos]
  exact ⟨Nat.div_le_div_right (by omega), Nat.div_le_div_right (by omega)⟩

end Assigned

/-! ### Stripes -/

/-- Routes stripes of events across the shards of a CPU. -/
structure StripeRouter where
  shards : List ℕ
  stripeLength : ℕ
  shardIndex : ℕ
  sentInStripe : ℕ

namespace StripeRouter

/-- There is no router for an empty list or an empty stripe. -/
def new (shards : List ℕ) (stripeLength : ℕ) : Option StripeRouter :=
  if shards ≠ [] ∧ stripeLength > 0 then some ⟨shards, stripeLength, 0, 0⟩ else none

def currentShard (router : StripeRouter) : ℕ := router.shards.getD router.shardIndex 0

def advance (router : StripeRouter) : StripeRouter :=
  if router.sentInStripe + 1 = router.stripeLength then
    { router with
      sentInStripe := 0
      shardIndex := (router.shardIndex + 1) % router.shards.length }
  else { router with sentInStripe := router.sentInStripe + 1 }

def nextShard (router : StripeRouter) : ℕ × StripeRouter := (router.currentShard, router.advance)

/-- The shard that the call after `n` others selects. -/
def routed (router : StripeRouter) (n : ℕ) : ℕ :=
  ((fun router => router.nextShard.2)^[n] router).nextShard.1

theorem iterate_advance {shards : List ℕ} {stripeLength : ℕ} (pos : 0 < stripeLength) (n : ℕ) :
    advance^[n] ⟨shards, stripeLength, 0, 0⟩ =
      ⟨shards, stripeLength, n / stripeLength % shards.length, n % stripeLength⟩ := by
  induction n with
  | zero => simp
  | succ n ih =>
    rw [Function.iterate_succ_apply', ih, advance]
    have split := Nat.div_add_mod n stripeLength
    by_cases full : n % stripeLength + 1 = stripeLength
    · -- the stripe ends with this event
      obtain ⟨quotient, remainder⟩ :
          (n + 1) / stripeLength = n / stripeLength + 1 ∧ (n + 1) % stripeLength = 0 := by
        rw [Nat.div_mod_unique pos, Nat.mul_succ]
        omega
      rw [if_pos full, quotient, remainder, Nat.mod_add_mod]
    · obtain ⟨quotient, remainder⟩ :
          (n + 1) / stripeLength = n / stripeLength ∧
            (n + 1) % stripeLength = n % stripeLength + 1 := by
        have := Nat.mod_lt n pos
        rw [Nat.div_mod_unique pos]
        omega
      rw [if_neg full, quotient, remainder]

theorem routed_eq {shards : List ℕ} {stripeLength : ℕ} (pos : 0 < stripeLength) (n : ℕ) :
    routed ⟨shards, stripeLength, 0, 0⟩ n = shards.getD (n / stripeLength % shards.length) 0 := by
  show (advance^[n] _).currentShard = _
  rw [iterate_advance pos, currentShard]

end StripeRouter

/-- **Assignment and striping.**  Every CPU has shards, each once and all in range, and every shard is
some CPU's.  With at least as many shards as CPUs each shard is one CPU's, and two CPUs' numbers of
shards differ by one at most.  A router sends the event after `n` others to the shard at
`n / stripeLength`, counted round the list. -/
theorem shards_assigned_and_striped {cpuCount shardCount : ℕ} (cpus : 0 < cpuCount)
    (shards : 0 < shardCount) :
    (∃ lists : ℕ → List ℕ,
      (∀ ordinal < cpuCount, assignedShards ordinal cpuCount shardCount = some (lists ordinal)) ∧
      (∀ ordinal < cpuCount, lists ordinal ≠ [] ∧ (lists ordinal).Nodup ∧
        ∀ shard ∈ lists ordinal, shard < shardCount) ∧
      (∀ shard < shardCount, ∃ ordinal < cpuCount, shard ∈ lists ordinal) ∧
      (cpuCount ≤ shardCount →
        (∀ shard < shardCount, ∃! ordinal, ordinal < cpuCount ∧ shard ∈ lists ordinal) ∧
        ∀ ordinal < cpuCount, ∀ other < cpuCount,
          (lists ordinal).length ≤ (lists other).length + 1)) ∧
    ∀ list : List ℕ, list ≠ [] → ∀ stripeLength > 0, ∃ router,
      StripeRouter.new list stripeLength = some router ∧
        ∀ n, list[n / stripeLength % list.length]? = some (router.routed n) := by
  constructor
  · refine ⟨fun ordinal => if shardCount ≤ ordinal then [ordinal % shardCount]
      else stepBy ordinal shardCount cpuCount, fun ordinal below => assignedShards_eq below shards,
      fun ordinal below => ?_, fun shard below => ?_, fun enough => ⟨fun shard below => ?_,
      fun ordinal below other below' => ?_⟩⟩
    · dsimp only
      split_ifs with few
      · refine ⟨cons_ne_nil _ _, nodup_singleton _, fun shard mem => ?_⟩
        rw [mem_singleton.1 mem]
        exact Nat.mod_lt _ shards
      · exact ⟨fun nil => few ((stepBy_eq_nil_iff cpus).1 nil), nodup_stepBy cpus,
          fun shard mem => ((mem_stepBy_iff below).1 mem).1⟩
    · have ordinal_lt := Nat.mod_lt shard cpus
      refine ⟨shard % cpuCount, ordinal_lt, ?_⟩
      dsimp only
      rw [if_neg (by have := Nat.mod_le shard cpuCount; omega)]
      exact (mem_stepBy_iff ordinal_lt).2 ⟨below, rfl⟩
    · have mem {ordinal : ℕ} (ordinal_lt : ordinal < cpuCount) :
          shard ∈ (if shardCount ≤ ordinal then [ordinal % shardCount]
            else stepBy ordinal shardCount cpuCount) ↔ shard % cpuCount = ordinal := by
        rw [if_neg (by omega), mem_stepBy_iff ordinal_lt]
        exact and_iff_right below
      refine ⟨shard % cpuCount, ⟨Nat.mod_lt _ cpus, (mem (Nat.mod_lt _ cpus)).2 rfl⟩, ?_⟩
      rintro ordinal ⟨ordinal_lt, has⟩
      exact ((mem ordinal_lt).1 has).symm
    · dsimp only
      rw [if_neg (by omega), if_neg (by omega)]
      exact (length_stepBy_bounds below enough).2.trans
        (Nat.succ_le_succ (length_stepBy_bounds below' enough).1)
  · intro list some stripeLength pos
    refine ⟨_, if_pos ⟨some, pos⟩, fun n => ?_⟩
    have below : n / stripeLength % list.length < list.length :=
      Nat.mod_lt _ (length_pos_iff.2 some)
    rw [StripeRouter.routed_eq pos, getD_eq_getElem?_getD, List.getElem?_eq_getElem below]
    rfl

theorem shards_assigned_and_striped_three :
    assignedShards 1 3 8 = some [1, 4, 7] ∧
      ∃ router, StripeRouter.new [1, 4, 7] 2 = some router ∧
        ∀ n, [1, 4, 7][n / 2 % 3]? = some (router.routed n) :=
  ⟨by decide, (shards_assigned_and_striped (by decide : 0 < 3) (by decide : 0 < 8)).2 [1, 4, 7]
    (by decide) 2 (by decide)⟩

end Eventd
