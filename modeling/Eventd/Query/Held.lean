import Mathlib.Tactic

/-!
# What running queries hold

`Held` and `HeldBudget` of `eventd/src/query/executor.rs`: every running query reserves what it
holds in a counter that all of them share.  A reservation is made in granules, with `fetch_update`
(a load, and compare-and-exchange until one succeeds or there is no room), and is given back with
`fetch_sub`.  Queries run at the same time, so that any of these accesses may come between two of
another query's.

* `Held`, `HeldStage`: a query's reservation, and the access it makes next;
* `HeldWorld`, `HeldAction`, `run`: the counter and the queries;
* `owed`, `Accounted`: the counter is the sum of what each query has taken from it;
* `budget_accounted`: what follows for every interleaving.

Sizes are `usize`s of `w` bits.
-/

namespace Eventd

open List

variable {w : ℕ}

def heldGranule : ℕ := 64 * 1024

/-- A number of bytes rounded up to granules, or the largest number there is. -/
def granules (w bytes : ℕ) : ℕ :=
  min ((bytes + heldGranule - 1) / heldGranule * heldGranule) (2 ^ w - 1)

/-- Where a query is in a call. -/
inductive HeldStage
  /-- between two calls -/
  | idle
  /-- about to load the counter, to reserve more -/
  | loading (wanted : ℕ)
  /-- about to exchange the value it has seen -/
  | exchanging (wanted previous : ℕ)
  /-- about to give back a part -/
  | lowering (wanted : ℕ)
  /-- about to note what it has reserved -/
  | noting (wanted : ℕ)
  | dropping
  | dropped
  deriving DecidableEq

/-- What one query holds.  `failed` is whether its last call to `set` failed; nothing depends on
it. -/
structure Held where
  limit : ℕ
  reserved : ℕ
  holding : ℕ
  stage : HeldStage
  failed : Bool
  deriving DecidableEq

namespace Held

def new (limit : ℕ) : Held := ⟨limit, 0, 0, .idle, false⟩

/-- Hold some bytes, with `wanted` reserved for them. -/
def aim (held : Held) (bytes wanted : ℕ) : Held :=
  { held with
    holding := bytes
    stage :=
      if held.reserved < wanted then .loading wanted
      else if wanted < held.reserved then .lowering wanted
      else .noting wanted }

/-- `set`, up to its first access to the counter. -/
def set (w : ℕ) (held : Held) (bytes : ℕ) : Held := held.aim bytes (granules w bytes)

def add (w : ℕ) (held : Held) (bytes : ℕ) : Held :=
  held.set w (min (held.holding + bytes) (2 ^ w - 1))

def release (w : ℕ) (held : Held) (bytes : ℕ) : Held := held.set w (held.holding - bytes)

/-- The function that `fetch_update` is given: the counter with more reserved, if there is room. -/
def raised (w : ℕ) (held : Held) (wanted used : ℕ) : Option ℕ :=
  let total := used + (wanted - held.reserved)
  if total < 2 ^ w ∧ total ≤ held.limit then some total else none

/-- Having seen a value of the counter: an exchange to make, or the end of a call that fails. -/
def seen (w : ℕ) (held : Held) (wanted used : ℕ) : Held :=
  if (held.raised w wanted used).isSome then { held with stage := .exchanging wanted used }
  else { held with stage := .idle, failed := true }

/-- What the next access takes from the counter, if it does. -/
def subtracts (held : Held) : Option ℕ :=
  match held.stage with
  | .lowering wanted => some (held.reserved - wanted)
  | .dropping => some held.reserved
  | _ => none

end Held

/-- The counter, and the queries that there have been. -/
structure HeldWorld where
  used : ℕ
  helds : List Held
  deriving DecidableEq

/-- What happens next: a query begins, makes a call, makes the next access of its call, or ends.
A load, and an exchange that fails, may return a value that the counter had before: any `value`.
An exchange may fail for no reason (`weak`). -/
inductive HeldAction (w : ℕ)
  | create (limit : Fin (2 ^ w))
  | set (index : ℕ) (bytes : Fin (2 ^ w))
  | add (index : ℕ) (bytes : Fin (2 ^ w))
  | release (index : ℕ) (bytes : Fin (2 ^ w))
  | drop (index : ℕ)
  | act (index value : ℕ) (weak : Bool)

namespace HeldWorld

/-- No query yet. -/
def fresh : HeldWorld := ⟨0, []⟩

/-- Subtraction of `usize`s, which wraps around. -/
def wrappingSub (w used amount : ℕ) : ℕ := (used + (2 ^ w - amount)) % 2 ^ w

def replace (world : HeldWorld) (index : ℕ) (held : Held) : HeldWorld :=
  { world with helds := world.helds.set index held }

/-- A call to a query between two calls. -/
def call (world : HeldWorld) (index : ℕ) (f : Held → Held) : HeldWorld :=
  match world.helds[index]? with
  | none => world
  | some held => if held.stage = .idle then world.replace index (f held) else world

/-- The next access of a query that is in a call. -/
def act (w : ℕ) (world : HeldWorld) (index value : ℕ) (weak : Bool) : HeldWorld :=
  match world.helds[index]? with
  | none => world
  | some held =>
    match held.stage with
    | .idle | .dropped => world
    | .loading wanted => world.replace index (held.seen w wanted value)
    | .exchanging wanted previous =>
      if world.used = previous ∧ weak = false then
        { world.replace index { held with stage := .noting wanted } with
          used := previous + (wanted - held.reserved) }
      else world.replace index (held.seen w wanted value)
    | .lowering wanted =>
      { world.replace index { held with stage := .noting wanted } with
        used := wrappingSub w world.used (held.reserved - wanted) }
    | .noting wanted =>
      world.replace index { held with reserved := wanted, stage := .idle, failed := false }
    | .dropping =>
      { world.replace index { held with stage := .dropped } with
        used := wrappingSub w world.used held.reserved }

def step (world : HeldWorld) : HeldAction w → HeldWorld
  | .create limit => { world with helds := world.helds ++ [Held.new limit] }
  | .set index bytes => world.call index fun held => held.set w bytes
  | .add index bytes => world.call index fun held => held.add w bytes
  | .release index bytes => world.call index fun held => held.release w bytes
  | .drop index => world.call index fun held => { held with stage := .dropping }
  | .act index value weak => world.act w index value weak

def run (world : HeldWorld) (actions : List (HeldAction w)) : HeldWorld :=
  actions.foldl step world

end HeldWorld

/-! ### One query -/

theorem le_granules {bytes : ℕ} (small : bytes < 2 ^ w) : bytes ≤ granules w bytes := by
  unfold granules heldGranule
  omega

namespace Held

/-- What a query has taken from the counter and not given back. -/
def owed (held : Held) : ℕ :=
  match held.stage with
  | .noting wanted => wanted
  | .dropped => 0
  | _ => held.reserved

/-- What a query knows at each access of a call. -/
def Fits (held : Held) : Prop :=
  match held.stage with
  | .idle => held.failed = false → held.holding ≤ held.reserved
  | .loading wanted => held.reserved < wanted ∧ held.holding ≤ wanted
  | .exchanging wanted previous =>
    held.reserved < wanted ∧ held.holding ≤ wanted ∧
      previous + (wanted - held.reserved) ≤ held.limit
  | .lowering wanted => wanted < held.reserved ∧ held.holding ≤ wanted
  | .noting wanted => held.holding ≤ wanted
  | .dropping | .dropped => True

theorem owed_aim {held : Held} (idle : held.stage = .idle) (bytes wanted : ℕ) :
    (held.aim bytes wanted).owed = held.owed := by
  unfold owed aim
  rw [idle]
  split_ifs with more fewer
  · rfl
  · rfl
  · exact le_antisymm (not_lt.1 more) (not_lt.1 fewer)

theorem fits_aim (held : Held) {bytes wanted : ℕ} (enough : bytes ≤ wanted) :
    (held.aim bytes wanted).Fits := by
  unfold Fits aim
  split_ifs with more fewer
  · exact ⟨more, enough⟩
  · exact ⟨fewer, enough⟩
  · exact enough

theorem fits_seen {held : Held} {wanted : ℕ} (more : held.reserved < wanted)
    (enough : held.holding ≤ wanted) (used : ℕ) :
    (held.seen w wanted used).Fits ∧ (held.seen w wanted used).owed = held.reserved := by
  unfold seen
  split_ifs with room
  · refine ⟨⟨more, enough, ?_⟩, rfl⟩
    unfold raised at room
    dsimp only at room
    split_ifs at room with fits
    · exact fits.2
    · cases room
  · exact ⟨nofun, rfl⟩

@[simp] theorem limit_seen (held : Held) (wanted used : ℕ) :
    (held.seen w wanted used).limit = held.limit := by
  unfold seen
  split_ifs <;> rfl

@[simp] theorem holding_seen (held : Held) (wanted used : ℕ) :
    (held.seen w wanted used).holding = held.holding := by
  unfold seen
  split_ifs <;> rfl

end Held

/-! ### All queries -/

/-- Changing one entry of a list changes the sum by what the entry changes. -/
theorem sum_map_set {α : Type} (f : α → ℕ) {l : List α} {index : ℕ} {a : α} (b : α)
    (found : l[index]? = some a) : ((l.set index b).map f).sum + f a = (l.map f).sum + f b := by
  induction l generalizing index with
  | nil => cases found
  | cons head tail ih =>
    cases index with
    | zero =>
      cases found
      simp only [set_cons_zero, map_cons, sum_cons]
      omega
    | succ index =>
      have := ih found
      simp only [set_cons_succ, map_cons, sum_cons]
      omega

/-- The counter is what the queries have taken from it, and within every limit that there is. -/
structure HeldWorld.Accounted (w limit : ℕ) (world : HeldWorld) : Prop where
  total : world.used = (world.helds.map Held.owed).sum
  within : world.used ≤ limit
  limits : ∀ held ∈ world.helds, held.limit ≤ limit
  sizes : ∀ held ∈ world.helds, held.holding < 2 ^ w
  fits : ∀ held ∈ world.helds, held.Fits

/-- An action gives no query more than a limit. -/
def HeldAction.Within (limit : ℕ) : HeldAction w → Prop
  | .create given => given ≤ limit
  | _ => True

namespace HeldWorld.Accounted

variable {limit : ℕ} {world : HeldWorld} {index : ℕ} {held : Held}

section

variable (accounted : world.Accounted w limit)
include accounted

theorem owed_le (mem : held ∈ world.helds) :
    held.owed ≤ world.used := by
  rw [accounted.total]
  exact le_sum_of_mem (mem_map_of_mem mem)

/-- One query moves on, and the counter by as much as it has taken. -/
theorem replace (found : world.helds[index]? = some held) (held' : Held)
    (same : held'.limit = held.limit) (size : held'.holding < 2 ^ w) (fits : held'.Fits) {used : ℕ}
    (moved : used + held.owed = world.used + held'.owed) (within : used ≤ limit) :
    ({ world.replace index held' with used := used } : HeldWorld).Accounted w limit := by
  have sum := sum_map_set Held.owed held' found
  -- what holds of every query and of the new state of this one holds of every query after
  have every {P : Held → Prop} (all : ∀ other ∈ world.helds, P other) (here : P held') :
      ∀ other ∈ world.helds.set index held', P other := by
    intro other listed
    rcases mem_or_eq_of_mem_set listed with listed | rfl
    · exact all other listed
    · exact here
  refine ⟨?_, within, every accounted.limits ?_, every accounted.sizes size,
    every accounted.fits fits⟩
  · have total := accounted.total
    show used = ((world.helds.set index held').map Held.owed).sum
    omega
  · exact same ▸ accounted.limits held (mem_of_getElem? found)

/-- The same when the counter stays. -/
theorem stay (found : world.helds[index]? = some held) (held' : Held)
    (same : held'.limit = held.limit) (size : held'.holding < 2 ^ w) (fits : held'.Fits)
    (owed : held'.owed = held.owed) :
    (world.replace index held').Accounted w limit :=
  accounted.replace found held' same size fits (owed ▸ rfl) accounted.within

/-- A call of `set`, whatever it makes of what is held. -/
theorem set (index : ℕ) {f : ℕ → ℕ} (small : ∀ holding < 2 ^ w, f holding < 2 ^ w) :
    (world.call index fun held => held.set w (f held.holding)).Accounted w limit := by
  unfold HeldWorld.call
  cases found : world.helds[index]? with
  | none => exact accounted
  | some held =>
    have size := small held.holding (accounted.sizes held (mem_of_getElem? found))
    dsimp only
    split_ifs with idle
    · exact accounted.stay found _ rfl size (held.fits_aim (le_granules size)) (held.owed_aim idle _ _)
    · exact accounted

theorem drop (index : ℕ) :
    (world.call index fun held => { held with stage := .dropping }).Accounted w limit := by
  unfold HeldWorld.call
  cases found : world.helds[index]? with
  | none => exact accounted
  | some held =>
    dsimp only
    split_ifs with idle
    · exact accounted.stay found _ rfl (accounted.sizes held (mem_of_getElem? found)) trivial
        (by simp only [Held.owed, idle])
    · exact accounted

end

theorem wrappingSub_eq {used amount : ℕ} (le : amount ≤ used) (small : used < 2 ^ w) :
    wrappingSub w used amount = used - amount := by
  have : used + (2 ^ w - amount) = used - amount + 2 ^ w := by omega
  rw [wrappingSub, this, Nat.add_mod_right, Nat.mod_eq_of_lt (by omega)]

section

variable (accounted : world.Accounted w limit)
include accounted

theorem act (small : limit < 2 ^ w) (index value : ℕ) (weak : Bool) :
    (world.act w index value weak).Accounted w limit := by
  unfold HeldWorld.act
  cases found : world.helds[index]? with
  | none => exact accounted
  | some held =>
    have mem := mem_of_getElem? found
    have size := accounted.sizes held mem
    have fits := accounted.fits held mem
    have owed := accounted.owed_le mem
    have within := accounted.within
    dsimp only
    cases stage : held.stage with
    | idle | dropped => exact accounted
    | loading wanted =>
      simp only [Held.Fits, stage] at fits
      have mine : held.owed = held.reserved := by simp only [Held.owed, stage]
      obtain ⟨seen, same⟩ := held.fits_seen fits.1 fits.2 value
      exact accounted.stay found _ (by simp) (by simpa using size) seen (same.trans mine.symm)
    | exchanging wanted previous =>
      simp only [Held.Fits, stage] at fits
      have mine : held.owed = held.reserved := by simp only [Held.owed, stage]
      dsimp only
      split_ifs with exchanged
      · -- the value that was checked is the value that is there
        refine accounted.replace found { held with stage := .noting wanted } rfl size fits.2.1 ?_
          (fits.2.2.trans (accounted.limits held mem))
        have taken : ({ held with stage := .noting wanted } : Held).owed = wanted := rfl
        omega
      · obtain ⟨seen, same⟩ := held.fits_seen fits.1 fits.2.1 value
        exact accounted.stay found _ (by simp) (by simpa using size) seen (same.trans mine.symm)
    | lowering wanted =>
      simp only [Held.Fits, stage] at fits
      have mine : held.owed = held.reserved := by simp only [Held.owed, stage]
      dsimp only
      rw [wrappingSub_eq (by omega) (by omega)]
      refine accounted.replace found { held with stage := .noting wanted } rfl size fits.2 ?_ (by omega)
      have left : ({ held with stage := .noting wanted } : Held).owed = wanted := rfl
      omega
    | noting wanted =>
      simp only [Held.Fits, stage] at fits
      exact accounted.stay found _ rfl size (fun _ => fits) (by simp only [Held.owed, stage])
    | dropping =>
      have mine : held.owed = held.reserved := by simp only [Held.owed, stage]
      rw [wrappingSub_eq (by omega) (by omega)]
      refine accounted.replace found { held with stage := .dropped } rfl size trivial ?_ (by omega)
      have left : ({ held with stage := .dropped } : Held).owed = 0 := rfl
      omega

theorem create {given : ℕ} (limited : given ≤ limit) :
    ({ world with helds := world.helds ++ [Held.new given] } : HeldWorld).Accounted w limit := by
  have every {P : Held → Prop} (all : ∀ other ∈ world.helds, P other) (here : P (Held.new given)) :
      ∀ other ∈ world.helds ++ [Held.new given], P other := by
    intro other mem
    rcases mem_append.1 mem with mem | mem
    · exact all other mem
    · rw [mem_singleton.1 mem]
      exact here
  refine ⟨?_, accounted.within, every accounted.limits limited, every accounted.sizes ?_,
    every accounted.fits fun _ => le_rfl⟩
  · simpa [Held.new, Held.owed] using accounted.total
  · exact Nat.two_pow_pos w

theorem step (small : limit < 2 ^ w) {action : HeldAction w} (limited : action.Within limit) :
    (world.step action).Accounted w limit := by
  cases action with
  | create given => exact accounted.create limited
  | set index bytes => exact accounted.set index fun _ _ => bytes.isLt
  | add index bytes =>
    exact accounted.set index (f := fun holding => min (holding + bytes) (2 ^ w - 1)) fun _ _ => by
      have := Nat.two_pow_pos w
      omega
  | release index bytes =>
    exact accounted.set index (f := fun holding => holding - bytes) fun _ _ => by omega
  | drop index => exact accounted.drop index
  | act index value weak => exact accounted.act small index value weak

theorem run (small : limit < 2 ^ w) {actions : List (HeldAction w)}
    (limited : ∀ action ∈ actions, action.Within limit) :
    (world.run actions).Accounted w limit := by
  induction actions generalizing world with
  | nil => exact accounted
  | cons action actions ih =>
    exact ih (accounted.step small (limited action mem_cons_self))
      fun other mem => limited other (mem_cons_of_mem _ mem)

end

end HeldWorld.Accounted

/-! ### Every interleaving -/

def Held.live (held : Held) : Bool := held.stage != .dropped

/-- No query is in a call. -/
def HeldWorld.Quiet (world : HeldWorld) : Prop :=
  ∀ held ∈ world.helds, held.stage = .idle ∨ held.stage = .dropped

theorem accounted_fresh (w limit : ℕ) : HeldWorld.fresh.Accounted w limit :=
  ⟨rfl, Nat.zero_le limit, nofun, nofun, nofun⟩

theorem subtracts_le_owed {held : Held} {amount : ℕ} (next : held.subtracts = some amount) :
    amount ≤ held.owed := by
  unfold Held.subtracts at next
  unfold Held.owed
  cases stage : held.stage with
  | lowering wanted =>
    rw [stage] at next
    cases next
    exact Nat.sub_le _ _
  | dropping =>
    rw [stage] at next
    cases next
    exact le_rfl
  | _ =>
    rw [stage] at next
    cases next

/-- Between calls, what the queries have taken is what those that live have reserved. -/
theorem HeldWorld.Quiet.sum_owed {world : HeldWorld} (quiet : world.Quiet) :
    (world.helds.map Held.owed).sum = ((world.helds.filter Held.live).map Held.reserved).sum := by
  obtain ⟨used, helds⟩ := world
  induction helds with
  | nil => rfl
  | cons held rest ih =>
    have later := ih fun other mem => quiet other (mem_cons_of_mem _ mem)
    rcases quiet held mem_cons_self with idle | dropped
    · have live : held.live = true := by simp [Held.live, idle]
      have mine : held.owed = held.reserved := by simp only [Held.owed, idle]
      rw [map_cons, sum_cons, filter_cons_of_pos live, map_cons, sum_cons,
        mine, later]
    · have gone : ¬ held.live = true := by simp [Held.live, dropped]
      have none : held.owed = 0 := by simp only [Held.owed, dropped]
      rw [map_cons, sum_cons, filter_cons_of_neg gone, none, Nat.zero_add, later]

/-- **The shared budget is accounted for** in every interleaving of queries that are given no more
than a limit: the counter keeps to it and never falls below zero, between calls it is the sum of
what the queries have reserved, who has not failed has reserved what it holds, and in the end
everything is given back. -/
theorem budget_accounted (limit : Fin (2 ^ w)) (actions : List (HeldAction w))
    (limited : ∀ action ∈ actions, action.Within limit) :
    (HeldWorld.fresh.run actions).used ≤ limit ∧
    (∀ held ∈ (HeldWorld.fresh.run actions).helds, ∀ amount ∈ held.subtracts,
      amount ≤ (HeldWorld.fresh.run actions).used) ∧
    ((HeldWorld.fresh.run actions).Quiet → (HeldWorld.fresh.run actions).used =
      (((HeldWorld.fresh.run actions).helds.filter Held.live).map Held.reserved).sum) ∧
    (∀ held ∈ (HeldWorld.fresh.run actions).helds, held.stage = .idle → held.failed = false →
      held.holding ≤ held.reserved) ∧
    ((∀ held ∈ (HeldWorld.fresh.run actions).helds, held.stage = .dropped) →
      (HeldWorld.fresh.run actions).used = 0) := by
  have accounted := (accounted_fresh w limit).run limit.isLt limited
  generalize HeldWorld.fresh.run actions = world at accounted
  refine ⟨accounted.within, ?_, fun quiet => accounted.total.trans quiet.sum_owed, ?_, ?_⟩
  · intro held mem amount next
    exact (subtracts_le_owed next).trans (accounted.owed_le mem)
  · intro held mem idle
    have fits := accounted.fits held mem
    simpa only [Held.Fits, idle] using fits
  · intro gone
    have quiet : world.Quiet := fun held mem => .inr (gone held mem)
    have none : world.helds.filter Held.live = [] := by
      rw [filter_eq_nil_iff]
      intro held mem
      simp [Held.live, gone held mem]
    rw [accounted.total, quiet.sum_owed, none]
    rfl

/-- Two queries, of which one has asked for all there is. -/
def asked : List (HeldAction 64) := [.create 131072, .create 131072, .add 0 70000]

/-- It gets it, so that the other fails. -/
def scarce : List (HeldAction 64) :=
  asked ++ [.act 0 0 false, .act 0 0 false, .act 0 0 false, .add 1 1, .act 1 131072 false]

theorem budget_accounted_scarce : (HeldWorld.fresh.run scarce).used = 131072 ∧
    (HeldWorld.fresh.run scarce).used =
      (((HeldWorld.fresh.run scarce).helds.filter Held.live).map Held.reserved).sum := by
  have limited : ∀ action ∈ scarce, action.Within (131072 : Fin (2 ^ 64)) := by
    simp [scarce, asked, HeldAction.Within]
  -- evaluated in two parts: the kernel does not share what it has computed
  have before : HeldWorld.fresh.run asked =
      ⟨0, [⟨131072, 0, 70000, .loading 131072, false⟩, ⟨131072, 0, 0, .idle, false⟩]⟩ := by
    decide +kernel
  have after : HeldWorld.run
      ⟨0, [⟨131072, 0, 70000, .loading 131072, false⟩, ⟨131072, 0, 0, .idle, false⟩]⟩
      (scarce.drop 3) =
      ⟨131072, [⟨131072, 131072, 70000, .idle, false⟩, ⟨131072, 0, 1, .idle, true⟩]⟩ := by
    decide +kernel
  have outcome : HeldWorld.fresh.run scarce =
      ⟨131072, [⟨131072, 131072, 70000, .idle, false⟩, ⟨131072, 0, 1, .idle, true⟩]⟩ := by
    rw [← after, ← before]
    exact foldl_append
  have quiet : (HeldWorld.fresh.run scarce).Quiet := by
    rw [outcome]
    unfold HeldWorld.Quiet
    decide
  exact ⟨by rw [outcome], (budget_accounted 131072 scarce limited).2.2.1 quiet⟩

end Eventd
