import Eventd.Access.Authorizer

/-!
# The descriptor cache and the verdicts of a query

`DescriptorCache` of `eventd/src/query/security.rs` and `AuthorizationCache` of
`eventd/src/query/executor.rs`, used by any number of threads.  A call looks its key up
under the read lock, reads the registry without a lock, and writes back under the write
lock; between these steps other threads take theirs, the registry changes, and the watch
invalidates the cache or fails.

Beside what the program holds, the model counts the calls of `invalidate` and
`fail_watch` (`epoch`), and notes the count at which a lookup was made, a load began and a
query's cache was last refreshed.  The generation of the program is that count modulo
`2 ^ 64`.

* `DescriptorCache.lookup`, `writeBack`, `invalidate`, `failWatch`;
* `AuthorizationCache.refresh`;
* `World`, `Action`, `step`, `run`: the threads, the registry and the watch;
* `Coherent`: what the caches promise, and `Timely`: fewer than `2 ^ 64` invalidations
  between the moments at which one thread compares generations;
* `coherent_run`: the promise holds in every timely run.
-/

namespace Eventd.Descriptors

open Function

/-- What a cached descriptor is for: an identifier (`resolved`) or `admin`. -/
inductive DescriptorKey
  | identifier (space : Namespace) (identifier : String)
  | admin
  deriving DecidableEq

/-- What a load gave (a key may have no descriptor) and the epoch in which it began. -/
structure Loaded (D : Type) where
  descriptor : Option D
  began : ℕ
  deriving DecidableEq

/-- The cache of the daemon.  `admin` is kept with the other keys: `Unresolved` is an absent
entry, `Missing` one without a descriptor. -/
structure DescriptorCache (D : Type) where
  generation : UInt64
  healthy : Bool
  resolved : DescriptorKey → Option (Loaded D)
  epoch : ℕ

namespace DescriptorCache

variable {D : Type}

def new : DescriptorCache D := ⟨0, true, fun _ => none, 0⟩

/-- What a lookup under the read lock finds. -/
inductive Lookup (D : Type)
  | found (loaded : Loaded D)
  | failed
  | absent (generation : UInt64)
  deriving DecidableEq

def lookup (cache : DescriptorCache D) (key : DescriptorKey) : Lookup D :=
  match cache.resolved key with
  | some loaded => .found loaded
  | none => if cache.healthy then .absent cache.generation else .failed

/-- The end of a load under the write lock; nothing if the call has to start over. -/
def writeBack (cache : DescriptorCache D) (key : DescriptorKey) (generation : UInt64)
    (loaded : Loaded D) : Option (DescriptorCache D) :=
  if cache.generation ≠ generation || !cache.healthy then none
  else some { cache with resolved := update cache.resolved key (some loaded) }

/-- Forget everything.  The counter is raised inside the write lock, and a thread that
reads it before the entries are gone has to wait for the lock to see any. -/
def reset (cache : DescriptorCache D) (healthy : Bool) : DescriptorCache D :=
  ⟨cache.generation + 1, healthy, fun _ => none, cache.epoch + 1⟩

def invalidate (cache : DescriptorCache D) : DescriptorCache D := cache.reset true

def failWatch (cache : DescriptorCache D) : DescriptorCache D := cache.reset false

end DescriptorCache

/-- What a query asks its cache: `entries` is for `check` and `identifiers` for `may_read`,
both by the identifier and the fields. -/
inductive Asked
  | check (identifier : String) (fields : List String)
  | mayRead (identifier : String) (fields : List String)
  deriving DecidableEq

/-- The identifier asked about. -/
def Asked.identifier : Asked → String
  | .check identifier _ => identifier
  | .mayRead identifier _ => identifier

/-- A verdict and the epoch of the descriptor it was reached by. -/
structure Verdict (V : Type) where
  value : V
  stamp : ℕ
  deriving DecidableEq

/-- The verdicts a query keeps; `since` is the epoch of the last refresh that read a
generation into it. -/
structure AuthorizationCache (V : Type) where
  generation : UInt64
  verdicts : Asked → Option (Verdict V)
  since : ℕ

namespace AuthorizationCache

variable {D V : Type}

def new (descriptors : DescriptorCache D) : AuthorizationCache V :=
  ⟨descriptors.generation, fun _ => none, descriptors.epoch⟩

def refresh (cache : AuthorizationCache V) (descriptors : DescriptorCache D) :
    AuthorizationCache V :=
  if cache.generation ≠ descriptors.generation then new descriptors else cache

def insert (cache : AuthorizationCache V) (asked : Asked) (verdict : Verdict V) :
    AuthorizationCache V :=
  { cache with verdicts := update cache.verdicts asked (some verdict) }

end AuthorizationCache

/-- What a thread is inside: a call of `resolve` or `admin`, or one of `check` or `may_read`
of a query's cache, which was refreshed in the given epoch. -/
inductive Call
  | resolve (key : DescriptorKey)
  | ask (space : Namespace) (asked : Asked) (refreshed : ℕ)

/-- The descriptor a call needs. -/
def Call.key : Call → DescriptorKey
  | .resolve key => key
  | .ask space asked _ => .identifier space asked.identifier

/-- Where a call stands: before its lookup, before its load, in its load, or before its
write-back; with the generation its lookup read and the epoch of that lookup. -/
inductive Stage (D : Type)
  | lookup
  | load (generation : UInt64) (looked : ℕ)
  | loading (generation : UInt64) (looked began : ℕ)
  | write (generation : UInt64) (looked : ℕ) (loaded : Loaded D)

/-- A thread: the call it is in, and the cache of its query. -/
structure Thread (D V : Type) where
  running : Option (Call × Stage D)
  query : AuthorizationCache V

/-- What a thread was told: the descriptor for a key, and whether the watch was failed at
that moment; or a verdict, and the epoch of the refresh before it. -/
inductive Answer (D V : Type)
  | descriptor (descriptor : Option D) (failed : Bool)
  | verdict (verdict : Verdict V) (refreshed : ℕ)

variable {ι D V : Type}

/-- The cache, the registry, the threads, and everything the threads were told. -/
structure World (ι D V : Type) where
  cache : DescriptorCache D
  registry : DescriptorKey → Option D
  threads : ι → Thread D V
  answers : List (Answer D V)

/-- What can happen next.  `advance` lets a thread take the next step of its call; a load
that ends may fail. -/
inductive Action (ι D : Type)
  | change (registry : DescriptorKey → Option D)
  | invalidate
  | failWatch
  | newQuery (thread : ι)
  | resolve (thread : ι) (key : DescriptorKey)
  | ask (thread : ι) (space : Namespace) (asked : Asked)
  | advance (thread : ι) (fails : Bool)

/-- Every thread at rest with the cache of a query that starts now. -/
def World.start (registry : DescriptorKey → Option D) : World ι D V :=
  ⟨.new, registry, fun _ => ⟨none, .new (.new : DescriptorCache D)⟩, []⟩

namespace World

variable [DecidableEq ι]

/-- Replace the state of a thread. -/
def setThread (world : World ι D V) (thread : ι) (state : Thread D V) : World ι D V :=
  { world with threads := update world.threads thread state }

/-- Tell a thread something. -/
def tell (world : World ι D V) (answer : Answer D V) : World ι D V :=
  { world with answers := answer :: world.answers }

/-- The next stage of a call. -/
def proceed (world : World ι D V) (thread : ι) (call : Call) (stage : Stage D) : World ι D V :=
  world.setThread thread { world.threads thread with running := some (call, stage) }

/-- The end of a call that says nothing. -/
def leave (world : World ι D V) (thread : ι) : World ι D V :=
  world.setThread thread { world.threads thread with running := none }

variable (judge : Namespace → Asked → Option D → Option V)

/-- The end of a call with what was found for its key.  The verdict of a query is reached by
the descriptor and kept, unless the access check fails. -/
def finish (world : World ι D V) (thread : ι) (call : Call) (found : Loaded D) : World ι D V :=
  let told := world.tell (.descriptor found.descriptor !world.cache.healthy)
  match call with
  | .resolve _ => told.leave thread
  | .ask space asked refreshed =>
    match judge space asked found.descriptor with
    | none => told.leave thread
    | some value =>
      (told.tell (.verdict ⟨value, found.began⟩ refreshed)).setThread thread
        ⟨none, (world.threads thread).query.insert asked ⟨value, found.began⟩⟩

/-- The next step of a call. -/
def advance (world : World ι D V) (thread : ι) (fails : Bool) (call : Call) : Stage D → World ι D V
  | .lookup =>
    match world.cache.lookup call.key with
    | .found loaded => world.finish judge thread call loaded
    | .failed => world.finish judge thread call ⟨none, world.cache.epoch⟩
    | .absent generation => world.proceed thread call (.load generation world.cache.epoch)
  | .load generation looked =>
    world.proceed thread call (.loading generation looked world.cache.epoch)
  | .loading generation looked began =>
    if fails then world.leave thread
    else world.proceed thread call
      (.write generation looked ⟨world.registry call.key, began⟩)
  | .write generation _ loaded =>
    match world.cache.writeBack call.key generation loaded with
    | none => world.proceed thread call .lookup
    | some cache => finish judge { world with cache := cache } thread call loaded

/-- `check` and `may_read` of a query's cache, up to the lookup of a descriptor. -/
def ask (world : World ι D V) (thread : ι) (space : Namespace) (asked : Asked) : World ι D V :=
  let query := (world.threads thread).query.refresh world.cache
  match query.verdicts asked with
  | some verdict =>
    (world.tell (.verdict verdict world.cache.epoch)).setThread thread ⟨none, query⟩
  | none =>
    world.setThread thread ⟨some (.ask space asked world.cache.epoch, .lookup), query⟩

/-- A thread that is inside a call takes no other. -/
def whenIdle (world : World ι D V) (thread : ι) (next : World ι D V) : World ι D V :=
  match (world.threads thread).running with
  | none => next
  | some _ => world

def step (world : World ι D V) :
    Action ι D → World ι D V
  | .change registry => { world with registry := registry }
  | .invalidate => { world with cache := world.cache.invalidate }
  | .failWatch => { world with cache := world.cache.failWatch }
  | .newQuery thread => world.whenIdle thread (world.setThread thread ⟨none, .new world.cache⟩)
  | .resolve thread key => world.whenIdle thread (world.proceed thread (.resolve key) .lookup)
  | .ask thread space asked => world.whenIdle thread (world.ask thread space asked)
  | .advance thread fails =>
    match (world.threads thread).running with
    | none => world
    | some (call, stage) => world.advance judge thread fails call stage

def run (world : World ι D V) (actions : List (Action ι D)) : World ι D V :=
  actions.foldl (step judge) world

theorem run_append (world : World ι D V) (before after : List (Action ι D)) :
    world.run judge (before ++ after) = (world.run judge before).run judge after :=
  List.foldl_append

end World

/-! ## What the caches promise -/

/-- A descriptor given while the watch is failed is none, and a verdict is not reached by a
descriptor older than the refresh before it. -/
def AnswerSound : Answer D V → Prop
  | .descriptor descriptor failed => failed = true → descriptor = none
  | .verdict verdict refreshed => refreshed ≤ verdict.stamp

/-- Every entry comes from a load that began in the current epoch, which is to say after the
last `invalidate` and `fail_watch`; while the watch is failed there is no entry and a lookup
denies; and all the answers so far were sound. -/
structure Coherent (world : World ι D V) : Prop where
  current : ∀ key loaded, world.cache.resolved key = some loaded →
    loaded.began = world.cache.epoch
  empty : world.cache.healthy = false → ∀ key, world.cache.resolved key = none
  denies : world.cache.healthy = false → ∀ key, world.cache.lookup key = .failed
  answers : ∀ answer ∈ world.answers, AnswerSound answer

/-- A comparison of generations that is made before the counter has come around: at a
write-back since the lookup, and at a refresh since the one before. -/
def Timely (world : World ι D V) : Action ι D → Prop
  | .ask thread _ _ => world.cache.epoch < (world.threads thread).query.since + 2 ^ 64
  | .advance thread _ => ∀ call generation looked loaded,
      (world.threads thread).running = some (call, .write generation looked loaded) →
        world.cache.epoch < looked + 2 ^ 64
  | _ => True

/-- Every step of a run is timely. -/
def TimelyRun [DecidableEq ι] (judge : Namespace → Asked → Option D → Option V)
    (world : World ι D V) :
    List (Action ι D) → Prop
  | [] => True
  | action :: actions =>
    Timely world action ∧ TimelyRun judge (world.step judge action) actions

/-! ## The invariant -/

theorem ofNat_eq_of_lt {earlier later : ℕ} (le : earlier ≤ later)
    (lt : later < earlier + 2 ^ 64) (same : UInt64.ofNat later = UInt64.ofNat earlier) :
    later = earlier := by
  have values := congrArg UInt64.toNat same
  simp only [UInt64.toNat_ofNat'] at values
  omega

/-- The invariant of the cache: the generation is the epoch, every entry is of this epoch,
and a failed watch leaves no entry. -/
structure CacheSound (cache : DescriptorCache D) : Prop where
  generation : cache.generation = UInt64.ofNat cache.epoch
  current : ∀ key loaded, cache.resolved key = some loaded → loaded.began = cache.epoch
  empty : cache.healthy = false → ∀ key, cache.resolved key = none

namespace CacheSound

variable {cache : DescriptorCache D}

theorem new : CacheSound (.new : DescriptorCache D) :=
  ⟨rfl, (fun _ _ found => nomatch found), fun _ _ => rfl⟩

theorem reset (sound : CacheSound cache) (healthy : Bool) : CacheSound (cache.reset healthy) where
  generation := by simp [DescriptorCache.reset, sound.generation]
  current _ _ found := nomatch found
  empty _ _ := rfl

/-- A write-back that goes through is one whose load began in this epoch. -/
theorem writeBack {cache' : DescriptorCache D} (sound : CacheSound cache) {key : DescriptorKey}
    {looked : ℕ} {loaded : Loaded D} (began : looked ≤ loaded.began)
    (le : loaded.began ≤ cache.epoch) (timely : cache.epoch < looked + 2 ^ 64)
    (written : cache.writeBack key (UInt64.ofNat looked) loaded = some cache') :
    CacheSound cache' ∧ cache'.epoch = cache.epoch ∧ loaded.began = cache.epoch ∧
      cache'.healthy = true := by
  rw [DescriptorCache.writeBack] at written
  split_ifs at written with refused
  simp only [sound.generation, Bool.or_eq_true, decide_eq_true_eq, not_or, not_not,
    Bool.not_eq_true', Bool.not_eq_false] at refused
  have same : cache.epoch = looked := ofNat_eq_of_lt (by omega) timely refused.1
  have current : loaded.began = cache.epoch := by omega
  obtain rfl := Option.some.inj written
  refine ⟨⟨sound.generation, fun other found here => ?_, fun failed => ?_⟩, rfl, current,
    refused.2⟩
  · by_cases equal : other = key
    · subst equal
      simp only [update_self, Option.some.injEq] at here
      exact here ▸ current
    · simp only [update_of_ne equal] at here
      exact sound.current other found here
  · exact absurd refused.2 (by simp [show cache.healthy = false from failed])

/-- What a lookup finds is of this epoch, and nothing is found while the watch is failed. -/
theorem lookup_found (sound : CacheSound cache) {key : DescriptorKey} {loaded : Loaded D}
    (found : cache.lookup key = .found loaded) :
    loaded.began = cache.epoch ∧ cache.healthy = true := by
  rw [DescriptorCache.lookup] at found
  cases entry : cache.resolved key with
  | none => simp only [entry] at found; split_ifs at found
  | some cached =>
    simp only [entry, DescriptorCache.Lookup.found.injEq] at found
    subst found
    refine ⟨sound.current key cached entry, ?_⟩
    by_contra failed
    rw [sound.empty (Bool.not_eq_true _ ▸ failed) key] at entry
    cases entry

theorem lookup_absent (sound : CacheSound cache) {key : DescriptorKey} {generation : UInt64}
    (absent : cache.lookup key = .absent generation) :
    generation = UInt64.ofNat cache.epoch := by
  rw [DescriptorCache.lookup] at absent
  cases entry : cache.resolved key with
  | some cached => simp only [entry] at absent; cases absent
  | none =>
    simp only [entry] at absent
    split_ifs at absent
    exact (DescriptorCache.Lookup.absent.inj absent).symm.trans sound.generation

end CacheSound

/-- The invariant of a query's cache in an epoch. -/
structure QuerySound (epoch : ℕ) (query : AuthorizationCache V) : Prop where
  generation : query.generation = UInt64.ofNat query.since
  since_le : query.since ≤ epoch
  stamps : ∀ asked verdict, query.verdicts asked = some verdict → query.since ≤ verdict.stamp

namespace QuerySound

variable {epoch : ℕ} {query : AuthorizationCache V} {cache : DescriptorCache D}

theorem new (sound : CacheSound cache) : QuerySound cache.epoch (.new cache : AuthorizationCache V) :=
  ⟨sound.generation, le_rfl, fun _ _ found => nomatch found⟩

/-- A timely refresh leaves only verdicts of the current epoch. -/
theorem refresh (valid : QuerySound cache.epoch query) (sound : CacheSound cache)
    (timely : cache.epoch < query.since + 2 ^ 64) :
    QuerySound cache.epoch (query.refresh cache) ∧ (query.refresh cache).since = cache.epoch := by
  rw [AuthorizationCache.refresh]
  split_ifs with differs
  · exact ⟨new sound, rfl⟩
  · rw [not_not, valid.generation, sound.generation] at differs
    exact ⟨valid, (ofNat_eq_of_lt valid.since_le timely differs.symm).symm⟩

theorem insert (valid : QuerySound epoch query) (asked : Asked) {verdict : Verdict V}
    (fresh : query.since ≤ verdict.stamp) : QuerySound epoch (query.insert asked verdict) where
  generation := valid.generation
  since_le := valid.since_le
  stamps other found here := by
    by_cases equal : other = asked
    · subst equal
      simp only [AuthorizationCache.insert, update_self, Option.some.injEq] at here
      exact here ▸ fresh
    · simp only [AuthorizationCache.insert, update_of_ne equal] at here
      exact valid.stamps other found here

theorem mono (valid : QuerySound epoch query) {later : ℕ} (le : epoch ≤ later) :
    QuerySound later query := ⟨valid.generation, valid.since_le.trans le, valid.stamps⟩

end QuerySound

/-- What a call knows at a stage: the generation it read is that of its lookup, and its load
began no earlier. -/
def StageSound (epoch : ℕ) : Stage D → Prop
  | .lookup => True
  | .load generation looked => generation = UInt64.ofNat looked ∧ looked ≤ epoch
  | .loading generation looked began =>
    generation = UInt64.ofNat looked ∧ looked ≤ began ∧ began ≤ epoch
  | .write generation looked loaded =>
    generation = UInt64.ofNat looked ∧ looked ≤ loaded.began ∧ loaded.began ≤ epoch

theorem StageSound.mono {epoch later : ℕ} (le : epoch ≤ later) {stage : Stage D}
    (valid : StageSound epoch stage) : StageSound later stage := by
  cases stage with
  | lookup => trivial
  | load => exact ⟨valid.1, valid.2.trans le⟩
  | loading | write => exact ⟨valid.1, valid.2.1, valid.2.2.trans le⟩

/-- A call for a query was refreshed when the query's cache was. -/
def CallSound (query : AuthorizationCache V) : Call → Prop
  | .resolve _ => True
  | .ask _ _ refreshed => refreshed = query.since

/-- The invariant of a thread in an epoch. -/
structure ThreadSound (epoch : ℕ) (thread : Thread D V) : Prop where
  query : QuerySound epoch thread.query
  running : ∀ call stage, thread.running = some (call, stage) →
    CallSound thread.query call ∧ StageSound epoch stage

theorem ThreadSound.mono {epoch later : ℕ} (le : epoch ≤ later) {thread : Thread D V}
    (valid : ThreadSound epoch thread) : ThreadSound later thread :=
  ⟨valid.query.mono le, fun call stage here =>
    (valid.running call stage here).imp id (StageSound.mono le)⟩

theorem ThreadSound.idle {epoch : ℕ} {query : AuthorizationCache V}
    (valid : QuerySound epoch query) : ThreadSound epoch (⟨none, query⟩ : Thread D V) :=
  ⟨valid, fun _ _ here => nomatch here⟩

theorem ThreadSound.busy {epoch : ℕ} {query : AuthorizationCache V} {call : Call}
    {stage : Stage D} (valid : QuerySound epoch query) (ofCall : CallSound query call)
    (ofStage : StageSound epoch stage) :
    ThreadSound epoch (⟨some (call, stage), query⟩ : Thread D V) := by
  refine ⟨valid, fun call' stage' here => ?_⟩
  obtain ⟨rfl, rfl⟩ := Prod.mk.inj (Option.some.inj here)
  exact ⟨ofCall, ofStage⟩

/-- The invariant of the whole. -/
structure Sound (world : World ι D V) : Prop where
  cache : CacheSound world.cache
  threads : ∀ thread, ThreadSound world.cache.epoch (world.threads thread)
  answers : ∀ answer ∈ world.answers, AnswerSound answer

namespace Sound

variable {world : World ι D V} {thread : ι}

theorem start (registry : DescriptorKey → Option D) :
    Sound (World.start registry : World ι D V) :=
  ⟨.new, fun _ => .idle (.new .new), fun _ told => nomatch told⟩

theorem coherent (sound : Sound world) : Coherent world where
  current := sound.cache.current
  empty := sound.cache.empty
  denies failed key := by simp [DescriptorCache.lookup, sound.cache.empty failed key, failed]
  answers := sound.answers

/-- A cache of a later epoch does no harm to the threads. -/
theorem setCache (sound : Sound world) {cache : DescriptorCache D} (valid : CacheSound cache)
    (le : world.cache.epoch ≤ cache.epoch) : Sound { world with cache := cache } :=
  ⟨valid, fun thread => (sound.threads thread).mono le, sound.answers⟩

theorem tell (sound : Sound world) {answer : Answer D V} (valid : AnswerSound answer) :
    Sound (world.tell answer) where
  cache := sound.cache
  threads := sound.threads
  answers := by
    rintro told (_ | ⟨_, earlier⟩)
    · exact valid
    · exact sound.answers told earlier

theorem whenIdle (sound : Sound world) {next : World ι D V} (after : Sound next) :
    Sound (world.whenIdle thread next) := by
  rw [World.whenIdle]
  split
  · exact after
  · exact sound

variable [DecidableEq ι]

theorem setThread (sound : Sound world) {state : Thread D V}
    (valid : ThreadSound world.cache.epoch state) : Sound (world.setThread thread state) where
  cache := sound.cache
  threads other := by
    by_cases equal : other = thread
    · subst equal
      simpa only [World.setThread, update_self] using valid
    · simpa only [World.setThread, update_of_ne equal] using sound.threads other
  answers := sound.answers

theorem proceed (sound : Sound world) {call : Call} {stage : Stage D}
    (ofCall : CallSound (world.threads thread).query call)
    (ofStage : StageSound world.cache.epoch stage) :
    Sound (world.proceed thread call stage) :=
  sound.setThread (.busy (sound.threads thread).query ofCall ofStage)

theorem leave (sound : Sound world) : Sound (world.leave thread) :=
  sound.setThread (.idle (sound.threads thread).query)

variable (judge : Namespace → Asked → Option D → Option V)

/-- A call may end with what is of this epoch, and with nothing if the watch is failed. -/
theorem finish (sound : Sound world) {call : Call}
    (ofCall : CallSound (world.threads thread).query call) {found : Loaded D}
    (current : found.began = world.cache.epoch)
    (denied : world.cache.healthy = false → found.descriptor = none) :
    Sound (world.finish judge thread call found) := by
  have told : Sound (world.tell (.descriptor found.descriptor !world.cache.healthy)) :=
    sound.tell fun failed => denied (by simpa using failed)
  cases call with
  | resolve key => exact told.leave
  | ask space asked refreshed =>
    have query := (sound.threads thread).query
    have fresh : (world.threads thread).query.since ≤ found.began := current ▸ query.since_le
    simp only [World.finish]
    cases judge space asked found.descriptor with
    | none => exact told.leave
    | some value =>
      have newer : AnswerSound (.verdict ⟨value, found.began⟩ refreshed : Answer D V) :=
        (Eq.le ofCall).trans fresh
      exact (told.tell newer).setThread (.idle (query.insert asked fresh))

/-- The step of a call, stage by stage. -/
theorem advance (sound : Sound world) {fails : Bool} {call : Call} {stage : Stage D}
    (running : (world.threads thread).running = some (call, stage))
    (timely : ∀ generation looked loaded, stage = .write generation looked loaded →
      world.cache.epoch < looked + 2 ^ 64) :
    Sound (world.advance judge thread fails call stage) := by
  obtain ⟨ofCall, ofStage⟩ := (sound.threads thread).running call stage running
  cases stage with
  | lookup =>
    simp only [World.advance]
    cases seen : world.cache.lookup call.key with
    | found loaded =>
      obtain ⟨current, healthy⟩ := sound.cache.lookup_found seen
      exact sound.finish judge ofCall current fun failed => by simp [healthy] at failed
    | failed => exact sound.finish judge ofCall rfl fun _ => rfl
    | absent generation => exact sound.proceed ofCall ⟨sound.cache.lookup_absent seen, le_rfl⟩
  | load generation looked => exact sound.proceed ofCall ⟨ofStage.1, ofStage.2, le_rfl⟩
  | loading generation looked began =>
    simp only [World.advance]
    split_ifs
    · exact sound.leave
    · exact sound.proceed ofCall ofStage
  | write generation looked loaded =>
    obtain ⟨rfl, began, le⟩ := ofStage
    simp only [World.advance]
    cases written : world.cache.writeBack call.key (UInt64.ofNat looked) loaded with
    | none => exact sound.proceed ofCall trivial
    | some cache =>
      obtain ⟨valid, same, current, healthy⟩ :=
        sound.cache.writeBack began le (timely _ _ _ rfl) written
      exact (sound.setCache valid same.ge).finish judge ofCall (current.trans same.symm)
        fun failed => by simp [healthy] at failed

theorem ask (sound : Sound world) (space : Namespace) (asked : Asked)
    (timely : world.cache.epoch < (world.threads thread).query.since + 2 ^ 64) :
    Sound (world.ask thread space asked) := by
  obtain ⟨valid, since⟩ := (sound.threads thread).query.refresh sound.cache timely
  simp only [World.ask]
  cases kept : ((world.threads thread).query.refresh world.cache).verdicts asked with
  | none => exact sound.setThread (.busy valid since.symm trivial)
  | some verdict =>
    have newer : AnswerSound (.verdict verdict world.cache.epoch : Answer D V) :=
      since.ge.trans (valid.stamps asked verdict kept)
    exact (sound.tell newer).setThread (.idle valid)

theorem step (sound : Sound world) {action : Action ι D} (timely : Timely world action) :
    Sound (world.step judge action) := by
  cases action with
  | change registry => exact ⟨sound.cache, sound.threads, sound.answers⟩
  | invalidate => exact sound.setCache (sound.cache.reset true) (Nat.le_succ _)
  | failWatch => exact sound.setCache (sound.cache.reset false) (Nat.le_succ _)
  | newQuery thread => exact sound.whenIdle (sound.setThread (.idle (.new sound.cache)))
  | resolve thread key => exact sound.whenIdle (sound.proceed trivial trivial)
  | ask thread space asked => exact sound.whenIdle (sound.ask space asked timely)
  | advance thread fails =>
    simp only [World.step]
    cases running : (world.threads thread).running with
    | none => exact sound
    | some inside =>
      exact sound.advance judge running fun generation looked loaded here =>
        timely inside.1 generation looked loaded (here ▸ running)

theorem run {actions : List (Action ι D)} (sound : Sound world)
    (timely : TimelyRun judge world actions) :
    Sound (world.run judge actions) := by
  induction actions generalizing world with
  | nil => exact sound
  | cons action actions ih => exact ih (sound.step judge timely.1) timely.2

end Sound

section Runs

variable [DecidableEq ι] (judge : Namespace → Asked → Option D → Option V)

/-- In every run in which no thread compares generations `2 ^ 64` invalidations apart, the
caches are coherent. -/
theorem coherent_run (registry : DescriptorKey → Option D) (actions : List (Action ι D))
    (timely : TimelyRun judge (World.start registry) actions) :
    Coherent ((World.start registry : World ι D V).run judge actions) :=
  ((Sound.start registry).run judge timely).coherent

/-- A thread that loads a descriptor while the watch fails: its write-back is refused, and
its second lookup denies. -/
def racedByFailure : List (Action Unit Bool) :=
  [.resolve () .admin, .advance () false, .advance () false, .advance () false, .failWatch,
    .advance () false, .advance () false]

theorem coherent_run_racedByFailure :
    let judge : Namespace → Asked → Option Bool → Option Bool := fun _ _ found => found
    let world : World Unit Bool Bool := World.start fun _ => some true
    TimelyRun judge world racedByFailure ∧
      Coherent (world.run judge racedByFailure) := by
  have timely : TimelyRun (fun _ _ found => found)
      (World.start fun _ => some true : World Unit Bool Bool) racedByFailure := by
    refine ⟨trivial, ?_, ?_, ?_, trivial, ?_, ?_, trivial⟩ <;> rintro - - - - ⟨⟩
    decide
  exact ⟨timely, coherent_run _ _ _ timely⟩

/-- After any number of invalidations in a row only the counters have changed. -/
theorem run_invalidate (world : World ι D V) (count : ℕ) :
    world.run judge (List.replicate (count + 1) .invalidate) =
      { world with cache := ⟨world.cache.generation + UInt64.ofNat (count + 1), true,
        fun _ => none, world.cache.epoch + (count + 1)⟩ } := by
  induction count generalizing world with
  | zero => rfl
  | succ count ih =>
    rw [List.replicate_succ, World.run, List.foldl_cons]
    refine (ih _).trans ?_
    simp only [World.step, DescriptorCache.invalidate, DescriptorCache.reset]
    congr 2
    · rw [UInt64.ofNat_add (count + 1) 1, UInt64.add_assoc, UInt64.add_comm 1]
      rfl
    · omega

/-- A thread that has loaded the descriptor of `admin` but not written it back. -/
def beforeWriteBack : List (Action Unit Bool) :=
  [.resolve () .admin, .advance () false, .advance () false, .advance () false]

/-- If the counter comes around before the write-back, what the thread loaded is kept. -/
theorem kept_of_wrap {count : ℕ} (wraps : UInt64.ofNat (count + 1) = 0) :
    let world := (World.start fun _ => some true : World Unit Bool Bool).run
      (fun _ _ found => found)
      (beforeWriteBack ++ List.replicate (count + 1) .invalidate ++ [.advance () false])
    world.cache.resolved .admin = some ⟨some true, 0⟩ ∧ world.cache.epoch = count + 1 := by
  simp only [World.run_append]
  rw [run_invalidate, wraps]
  exact ⟨rfl, Nat.zero_add _⟩

/-- With `2 ^ 64` invalidations between a lookup and its write-back, the cache keeps a
descriptor that was loaded before all of them. -/
theorem stale_entry_after_wrap :
    ¬ Coherent ((World.start fun _ => some true : World Unit Bool Bool).run
      (fun _ _ found => found)
      (beforeWriteBack ++ List.replicate (2 ^ 64) .invalidate ++ [.advance () false])) := by
  obtain ⟨count, wrap⟩ : ∃ count, 2 ^ 64 = count + 1 := ⟨2 ^ 64 - 1, by norm_num⟩
  rw [wrap]
  intro coherent
  obtain ⟨kept, epoch⟩ := kept_of_wrap (wrap ▸ rfl : UInt64.ofNat (count + 1) = 0)
  have began := coherent.current .admin _ kept
  rw [epoch] at began
  cases began

end Runs

end Eventd.Descriptors
