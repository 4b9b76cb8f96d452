import Eventd.Lib.Binary64
import Eventd.Lib.MessageObject

/-!
# A streaming MessagePack reader

A reader is at some bytes, and its operations are a parameter.  What is assumed of them stands in
`LawfulReader`: each reads what is at the front of the bytes if it is of the type that the
operation reads, and fails where the reader is if not.  A computation that fails leaves the reader
where it had got to, and the caller may go on from there.

* `Read`, `attempt`, `iterate`: computations on a reader;
* `Reader`, `LawfulReader`: the operations, and what is assumed of them;
* `At`: the reader is before some objects, and nothing follows them;
* `Takes`, `Short`, `Pops`: a computation takes some objects exactly, stops before their end, or
  takes no more than some number of them, with the rules for composing computations;
* `formatReader`: a reader that meets the assumptions.
-/

namespace MessagePack

open List

/-- What a computation gives, if it does not fail, and the bytes that are left. -/
def Read (α : Type) := List UInt8 → Option α × List UInt8

namespace Read

variable {α β σ : Type}

instance : Monad Read where
  pure a bytes := (some a, bytes)
  bind x f bytes :=
    match x bytes with
    | (none, rest) => (none, rest)
    | (some a, rest) => f a rest

/-- Fail where the reader is. -/
def fail : Read α := fun bytes => (none, bytes)

def ensure (condition : Bool) : Read Unit := if condition then pure () else fail

/-- Give what there is, or fail. -/
def ofOption : Option α → Read α
  | some a => pure a
  | none => fail

/-- Go on whether or not a computation fails. -/
def attempt (x : Read α) : Read (Option α) := fun bytes => (some (x bytes).1, (x bytes).2)

/-- Repeat a step. -/
def iterate (step : σ → Read σ) : ℕ → σ → Read σ
  | 0, s => pure s
  | count + 1, s => do
      let s ← step s
      iterate step count s

end Read

/-! ### Operations -/

/-- The operations of a reader.  It stays where it is when it is asked for the type of the next
object. -/
class Reader where
  peek : List UInt8 → Option Kind
  readMap : Read ℕ
  readArray : Read ℕ
  readNil : Read Unit
  readBool : Read Bool
  readInt : Read ℤ
  readUint : Read ℕ
  readFloat : Read Binary64
  readStr : Read String
  readBin : Read (List UInt8)
  readExt : Read (UInt8 × List UInt8)
  skip : Read Unit

/-! What each operation reads. -/

namespace Head

def map? : Head → Option ℕ
  | .map count => some count
  | _ => none

def array? : Head → Option ℕ
  | .array count => some count
  | _ => none

def nil? : Head → Option Unit
  | .scalar .nil => some ()
  | _ => none

def bool? : Head → Option Bool
  | .scalar (.bool value) => some value
  | _ => none

/-- An integer that `i64` holds. -/
def int? : Head → Option ℤ
  | .scalar (.int value) => if -2 ^ 63 ≤ value ∧ value < 2 ^ 63 then some value else none
  | _ => none

/-- An integer that `u64` holds. -/
def uint? : Head → Option ℕ
  | .scalar (.int value) => if 0 ≤ value ∧ value < 2 ^ 64 then some value.toNat else none
  | _ => none

/-- A float of either width. -/
def float? : Head → Option Binary64
  | .scalar (.single bits) => some (.ofSingle bits)
  | .scalar (.double bits) => some ⟨.ofNat bits⟩
  | _ => none

/-- A string that is UTF-8. -/
def str? : Head → Option String
  | .scalar (.str bytes) => String.fromUTF8? ⟨bytes.toArray⟩
  | _ => none

def bin? : Head → Option (List UInt8)
  | .scalar (.bin bytes) => some bytes
  | _ => none

def ext? : Head → Option (UInt8 × List UInt8)
  | .scalar (.ext kind bytes) => some (kind, bytes)
  | _ => none

end Head

section Laws

variable {α : Type}

/-- The operation reads what is wanted of the head at the front of the bytes, and nothing else. -/
def Read.ReadsHead (x : Read α) (wanted : Head → Option α) : Prop :=
  ∀ bytes a rest, x bytes = (some a, rest) ↔
    ∃ head, readHead bytes = some (head, rest) ∧ wanted head = some a

/-- If the operation fails, it leaves the reader where it is. -/
def Read.Stays (x : Read α) : Prop := ∀ bytes rest, x bytes = (none, rest) → rest = bytes

def Read.Follows (x : Read α) (wanted : Head → Option α) : Prop := x.ReadsHead wanted ∧ x.Stays

/-- What is assumed of a reader. -/
class LawfulReader [Reader] : Prop where
  peek_head : ∀ {bytes head rest}, readHead bytes = some (head, rest) →
    Reader.peek bytes = some head.kind
  follows_map : Read.Follows Reader.readMap Head.map?
  follows_array : Read.Follows Reader.readArray Head.array?
  follows_nil : Read.Follows Reader.readNil Head.nil?
  follows_bool : Read.Follows Reader.readBool Head.bool?
  follows_int : Read.Follows Reader.readInt Head.int?
  follows_uint : Read.Follows Reader.readUint Head.uint?
  follows_float : Read.Follows Reader.readFloat Head.float?
  follows_bin : Read.Follows Reader.readBin Head.bin?
  follows_ext : Read.Follows Reader.readExt Head.ext?
  str_reads : Read.ReadsHead Reader.readStr Head.str?
  /-- Before a string that is not UTF-8, too. -/
  str_stays : Read.Stays Reader.readStr
  skip_object : ∀ {bytes object rest}, Reads bytes object rest → Reader.skip bytes = (some (), rest)
  skip_nil : (Reader.skip []).2 = []

end Laws

namespace Read

export Reader (readMap readArray readNil readBool readInt readUint readFloat readStr readBin
  readExt skip)

export LawfulReader (follows_map follows_array follows_nil follows_bool follows_int follows_uint
  follows_float follows_bin follows_ext)

/-- The type of the next object. -/
def peek [Reader] : Read (Option Kind) := fun bytes => (some (Reader.peek bytes), bytes)

theorem follows_str [Reader] [LawfulReader] : Follows readStr Head.str? :=
  ⟨LawfulReader.str_reads, LawfulReader.str_stays⟩

end Read

/-- What a reader is before once it has read the head of an object. -/
def Object.inside : Object → List Object
  | .scalar _ => []
  | .array items => items
  | .map entries => members entries

/-- How many objects follow a head before its object is complete. -/
def Head.inside : Head → ℕ
  | .scalar _ => 0
  | .array count => count
  | .map count => count * 2

theorem Object.length_inside (object : Object) : object.inside.length = object.head.inside := by
  cases object with
  | scalar | array => rfl
  | map entries => exact length_members entries

theorem ReadsAll.append {bytes mid rest : List UInt8} {objects objects' : List Object}
    (first : ReadsAll bytes objects mid) (others : ReadsAll mid objects' rest) :
    ReadsAll bytes (objects ++ objects') rest := by
  induction objects generalizing bytes with
  | nil =>
    cases first
    exact others
  | cons object objects ih =>
    obtain ⟨after, reads, first⟩ := first.uncons
    exact reads.cons (ih first)

/-- The head of the first object, and what the reader is before then. -/
theorem ReadsAll.head_inside {bytes rest : List UInt8} {object : Object} {objects : List Object}
    (reads : ReadsAll bytes (object :: objects) rest) :
    ∃ inside, readHead bytes = some (object.head, inside) ∧
      ReadsAll inside (object.inside ++ objects) rest := by
  cases reads with
  | scalar head others => exact ⟨_, head, others⟩
  | array head within others | map head within others => exact ⟨_, head, within.append others⟩

/-- The reader is before these objects, and nothing follows them. -/
def At (bytes : List UInt8) (objects : List Object) : Prop := ReadsAll bytes objects []

theorem at_nil_iff {bytes : List UInt8} : At bytes [] ↔ bytes = [] := by
  constructor
  · intro reads
    cases reads
    rfl
  · rintro rfl
    exact .done

theorem eq_nil_of_at {objects : List Object} (here : At [] objects) : objects = [] := by
  cases here with
  | done => rfl
  | scalar head | array head | map head => cases head

namespace Read

variable {α β σ : Type}

variable {bytes rest : List UInt8} {objects : List Object} {object : Object} {x : Read α}
  {f : α → Read β} {wanted : Head → Option α}

theorem bind_none (fails : x bytes = (none, rest)) : (x >>= f) bytes = (none, rest) := by
  change (match x bytes with
    | (none, rest) => (none, rest)
    | (some a, rest) => f a rest) = _
  rw [fails]

theorem bind_some {a : α} (gives : x bytes = (some a, rest)) : (x >>= f) bytes = f a rest := by
  change (match x bytes with
    | (none, rest) => (none, rest)
    | (some a, rest) => f a rest) = _
  rw [gives]

section Operations

variable [Reader] [LawfulReader]

theorem peek_at (here : At bytes (object :: objects)) :
    peek bytes = (some (some object.head.kind), bytes) := by
  obtain ⟨inside, head, -⟩ := ReadsAll.head_inside here
  rw [peek, LawfulReader.peek_head head]

theorem skip_at (here : At bytes (object :: objects)) :
    ∃ rest, skip bytes = (some (), rest) ∧ At rest objects := by
  obtain ⟨rest, reads, others⟩ := ReadsAll.uncons here
  exact ⟨rest, LawfulReader.skip_object reads, others⟩

end Operations

theorem Follows.reads (follows : Follows x wanted) (here : At bytes (object :: objects)) {a : α}
    (eq : wanted object.head = some a) :
    ∃ inside, x bytes = (some a, inside) ∧ At inside (object.inside ++ objects) := by
  obtain ⟨inside, head, within⟩ := ReadsAll.head_inside here
  exact ⟨inside, (follows.1 _ _ _).2 ⟨_, head, eq⟩, within⟩

theorem Follows.refuses (follows : Follows x wanted) (here : At bytes (object :: objects))
    (eq : wanted object.head = none) : x bytes = (none, bytes) := by
  obtain ⟨inside, head, -⟩ := ReadsAll.head_inside here
  rcases run : x bytes with ⟨_ | a, rest⟩
  · rw [follows.2 _ _ run]
  · obtain ⟨head', read, wants⟩ := (follows.1 _ _ _).1 run
    obtain ⟨rfl, -⟩ := Prod.mk.inj (Option.some.inj (head.symm.trans read))
    cases eq.symm.trans wants

theorem Follows.run_nil (follows : Follows x wanted) : x [] = (none, []) := by
  rcases run : x [] with ⟨_ | a, rest⟩
  · rw [follows.2 _ _ run]
  · obtain ⟨head, read, -⟩ := (follows.1 _ _ _).1 run
    cases read

/-! ### What a computation takes -/

/-- The computation takes these objects exactly, and gives this. -/
def Takes (x : Read α) (objects : List Object) (result : Option α) : Prop :=
  ∀ bytes after, At bytes (objects ++ after) → ∃ rest, x bytes = (result, rest) ∧ At rest after

/-- The computation stops before the end of these objects. -/
def Short (x : Read α) (objects : List Object) : Prop :=
  ∀ bytes after, At bytes (objects ++ after) → ∃ left, At (x bytes).2 left ∧ after.length < left.length

/-- Before these objects the computation goes on as another one, before others. -/
def Steps (x : Read α) (objects : List Object) (y : Read α) (objects' : List Object) : Prop :=
  ∀ bytes after, At bytes (objects ++ after) → ∃ mid, x bytes = y mid ∧ At mid (objects' ++ after)

/-- The computation takes no more than so many objects. -/
def Pops (count : ℕ) (x : Read α) : Prop :=
  ∀ bytes objects, At bytes objects → ∃ left, At (x bytes).2 left ∧ objects.length ≤ left.length + count

section Rules

variable {x : Read α} {f : α → Read β} {objects objects' : List Object} {result : Option β}
  {object : Object} {wanted : Head → Option α}

theorem takes_pure (a : α) : Takes (pure a) [] (some a) := fun bytes _ here => ⟨bytes, rfl, here⟩

theorem takes_fail : Takes (fail : Read α) [] none := fun bytes _ here => ⟨bytes, rfl, here⟩

theorem takes_ofOption (a : Option α) : Takes (ofOption a) [] a := by
  cases a
  · exact takes_fail
  · exact takes_pure _

theorem Takes.bind {a : α} (first : Takes x objects (some a)) (next : Takes (f a) objects' result) :
    Takes (x >>= f) (objects ++ objects') result := by
  intro bytes after here
  rw [append_assoc] at here
  obtain ⟨mid, eq, here⟩ := first bytes _ here
  obtain ⟨rest, eq', here⟩ := next mid after here
  exact ⟨rest, (bind_some eq).trans eq', here⟩

theorem Takes.bind_none (first : Takes x objects none) : Takes (x >>= f) objects none := by
  intro bytes after here
  obtain ⟨rest, eq, here⟩ := first bytes _ here
  exact ⟨rest, Read.bind_none eq, here⟩

theorem Takes.attempt {result : Option α} (first : Takes x objects result) :
    Takes (attempt x) objects (some result) := by
  intro bytes after here
  obtain ⟨rest, eq, here⟩ := first bytes _ here
  exact ⟨rest, by rw [Read.attempt, eq], here⟩

theorem Steps.takes {y : Read β} {x : Read β} (steps : Steps x objects y objects')
    (next : Takes y objects' result) : Takes x objects result := by
  intro bytes after here
  obtain ⟨mid, eq, here⟩ := steps bytes after here
  rw [eq]
  exact next mid after here

theorem Steps.short {y : Read α} (steps : Steps x objects y objects') (next : Short y objects') :
    Short x objects := by
  intro bytes after here
  obtain ⟨mid, eq, here⟩ := steps bytes after here
  rw [eq]
  exact next mid after here

theorem steps_peek [Reader] [LawfulReader] {f : Option Kind → Read β} :
    Steps (peek >>= f) (object :: objects) (f (some object.head.kind)) (object :: objects) :=
  fun bytes _ here => ⟨bytes, bind_some (peek_at here), here⟩

/-- The head of an object is read. -/
theorem steps_read (follows : Follows x wanted) {a : α} (eq : wanted object.head = some a) :
    Steps (x >>= f) (object :: objects) (f a) (object.inside ++ objects) := by
  intro bytes after here
  obtain ⟨inside, run, here⟩ := follows.reads here eq
  exact ⟨inside, bind_some run, by rwa [append_assoc]⟩

theorem takes_skip [Reader] [LawfulReader] (object : Object) : Takes skip [object] (some ()) := by
  intro bytes after here
  exact skip_at here

/-- What a computation leaves, and what the next one leaves of it. -/
theorem Pops.left_bind {count : ℕ} (next : ∀ a, Pops count (f a)) {left : List Object}
    (here : At (x bytes).2 left) :
    ∃ left', At ((x >>= f) bytes).2 left' ∧ left.length ≤ left'.length + count := by
  rcases eq : x bytes with ⟨_ | a, mid⟩ <;> rw [eq] at here
  · rw [Read.bind_none eq]
    exact ⟨left, here, Nat.le_add_right ..⟩
  · rw [bind_some eq]
    exact next a mid left here

theorem Short.bind (first : Short x objects) (next : ∀ a, Pops objects'.length (f a)) :
    Short (x >>= f) (objects ++ objects') := by
  intro bytes after here
  rw [append_assoc] at here
  obtain ⟨left, leftAt, lt⟩ := first bytes _ here
  obtain ⟨left', leftAt', le⟩ := Pops.left_bind next leftAt
  rw [length_append] at lt
  exact ⟨left', leftAt', by omega⟩

theorem Short.bind_done (first : Short x objects) (next : ∀ a, Pops 0 (f a)) :
    Short (x >>= f) objects := by
  have both : Short (x >>= f) (objects ++ []) := first.bind next
  rwa [append_nil] at both

theorem Takes.bind_done {a : α} (first : Takes x objects (some a)) (next : Takes (f a) [] result) :
    Takes (x >>= f) objects result := by
  have both := first.bind next
  rwa [append_nil] at both

theorem Takes.bind_short {a : α} (first : Takes x objects (some a)) (next : Short (f a) objects') :
    Short (x >>= f) (objects ++ objects') := by
  intro bytes after here
  rw [append_assoc] at here
  obtain ⟨mid, eq, here⟩ := first bytes _ here
  rw [bind_some eq]
  exact next mid after here

theorem Short.attempt (first : Short x objects) : Short (attempt x) objects := first

/-- A computation that takes only the first of some objects stops before their end. -/
theorem Takes.short {result : Option α} (takes : Takes x objects result) (nonempty : objects' ≠ []) :
    Short x (objects ++ objects') := by
  intro bytes after here
  rw [append_assoc] at here
  obtain ⟨rest, eq, here⟩ := takes bytes _ here
  rw [eq]
  refine ⟨_, here, ?_⟩
  have := length_pos_iff.2 nonempty
  rw [length_append]
  omega

theorem short_fail (nonempty : objects ≠ []) : Short (fail : Read α) objects :=
  takes_fail.short nonempty

/-- A read that fails stops before the object it would have read. -/
theorem short_read (follows : Follows x wanted) (eq : wanted object.head = none) :
    Short (x >>= f) (object :: objects) := by
  intro bytes after here
  rw [Read.bind_none (follows.refuses here eq)]
  exact short_fail (α := β) (cons_ne_nil object objects) bytes after here

theorem pops_pure (a : α) : Pops 0 (pure a : Read α) := fun _ objects here => ⟨objects, here, le_rfl⟩

theorem pops_fail : Pops 0 (fail : Read α) := fun _ objects here => ⟨objects, here, le_rfl⟩

theorem Pops.mono {count count' : ℕ} (pops : Pops count x) (le : count ≤ count') : Pops count' x := by
  intro bytes objects here
  obtain ⟨left, leftAt, le'⟩ := pops bytes objects here
  exact ⟨left, leftAt, by omega⟩

theorem Pops.bind {count count' : ℕ} (first : Pops count x) (next : ∀ a, Pops count' (f a)) :
    Pops (count + count') (x >>= f) := by
  intro bytes objects here
  obtain ⟨left, leftAt, le⟩ := first bytes objects here
  obtain ⟨left', leftAt', le'⟩ := Pops.left_bind next leftAt
  exact ⟨left', leftAt', by omega⟩

theorem Pops.attempt {count : ℕ} (first : Pops count x) : Pops count (attempt x) := first

theorem pops_peek_bind [Reader] {count : ℕ} {f : Option Kind → Read β}
    (next : ∀ kind, Pops count (f kind)) : Pops count (peek >>= f) :=
  fun bytes objects here => next _ bytes objects here

theorem pops_skip [Reader] [LawfulReader] : Pops 1 skip := by
  intro bytes objects here
  cases objects with
  | nil =>
    obtain rfl := at_nil_iff.1 here
    rw [LawfulReader.skip_nil]
    exact ⟨[], here, Nat.zero_le _⟩
  | cons object objects =>
    obtain ⟨rest, eq, here⟩ := skip_at here
    rw [eq]
    exact ⟨objects, here, le_rfl⟩

/-- A read, and what follows if it fails and if it does not. -/
theorem Follows.pops_of (follows : Follows x wanted) {y absent : Read β} {found : α → Read β}
    (refused : ∀ {bytes}, x bytes = (none, bytes) → y bytes = absent bytes)
    (gives : ∀ {bytes a rest}, x bytes = (some a, rest) → y bytes = found a rest)
    (less : Pops 1 absent)
    (next : ∀ object a, wanted (Object.head object) = some a →
      Pops object.inside.length (found a)) : Pops 1 y := by
  intro bytes objects here
  cases objects with
  | nil =>
    obtain rfl := at_nil_iff.1 here
    rw [refused follows.run_nil]
    exact less [] [] here
  | cons object objects =>
    cases eq : wanted object.head with
    | none =>
      rw [refused (follows.refuses here eq)]
      exact less bytes _ here
    | some a =>
      obtain ⟨inside, run, here⟩ := follows.reads here eq
      obtain ⟨left, leftAt, le⟩ := next object a eq inside _ here
      rw [gives run]
      rw [length_append] at le
      exact ⟨left, leftAt, by rw [length_cons]; omega⟩

/-- A header and a computation that takes no more than what is inside are one object. -/
theorem Follows.pops_bind (follows : Follows x wanted)
    (next : ∀ object a, wanted (Object.head object) = some a → Pops object.inside.length (f a)) :
    Pops 1 (x >>= f) :=
  follows.pops_of Read.bind_none bind_some (pops_fail.mono (Nat.zero_le 1)) next

theorem Follows.pops (follows : Follows x wanted) : Pops 1 x :=
  follows.pops_of id id (pops_fail.mono (Nat.zero_le 1))
    fun _ a _ => (pops_pure a).mono (Nat.zero_le _)

section Alternative

variable {f : Option α → Read β}

theorem steps_attempt_some (follows : Follows x wanted) {a : α} (eq : wanted object.head = some a) :
    Steps (Read.attempt x >>= f) (object :: objects) (f (some a)) (object.inside ++ objects) := by
  intro bytes after here
  obtain ⟨inside, run, here⟩ := follows.reads here eq
  refine ⟨inside, bind_some ?_, by rwa [append_assoc]⟩
  rw [Read.attempt, run]

/-- A read that is attempted and fails leaves the object to what follows. -/
theorem steps_attempt_none (follows : Follows x wanted) (eq : wanted object.head = none) :
    Steps (Read.attempt x >>= f) (object :: objects) (f none) (object :: objects) := by
  intro bytes after here
  refine ⟨bytes, bind_some ?_, here⟩
  rw [Read.attempt, follows.refuses here eq]

theorem Follows.pops_attempt (follows : Follows x wanted) (found : ∀ a, Pops 0 (f (some a)))
    (absent : Pops 1 (f none)) : Pops 1 (Read.attempt x >>= f) :=
  follows.pops_of (fun run => bind_some (by rw [Read.attempt, run]))
    (fun run => bind_some (by rw [Read.attempt, run])) absent
    fun _ a _ => (found a).mono (Nat.zero_le _)

end Alternative

theorem pops_ofOption (a : Option α) : Pops 0 (ofOption a) := by
  cases a
  · exact pops_fail
  · exact pops_pure _

theorem pops_ensure (condition : Bool) : Pops 0 (ensure condition) := by
  cases condition
  · exact pops_fail
  · exact pops_pure ()

end Rules

/-! ### Where a computation ends -/

/-- The computation ends with these objects if the condition holds, and before their end if not. -/
def Ends (aligned : Prop) (x : Read α) (objects : List Object) : Prop :=
  (aligned → ∃ result, Takes x objects result) ∧ (¬ aligned → Short x objects)

/-- The computation also gives something if the condition holds. -/
def Gives (aligned : Prop) (x : Read α) (objects : List Object) : Prop :=
  (aligned → ∃ a, Takes x objects (some a)) ∧ (¬ aligned → Short x objects)

section Ends

variable {aligned aligned' : Prop} {x : Read α} {f : α → Read β} {objects : List Object}
  {object : Object} {wanted : Head → Option α}

theorem Ends.congr (ends : Ends aligned x objects) (iff : aligned ↔ aligned') :
    Ends aligned' x objects := by
  rwa [propext iff] at ends

theorem Gives.congr (gives : Gives aligned x objects) (iff : aligned ↔ aligned') :
    Gives aligned' x objects := by
  rwa [propext iff] at gives

theorem Takes.ends {result : Option α} (takes : Takes x objects result) : Ends True x objects :=
  ⟨fun _ => ⟨result, takes⟩, fun absent => absurd trivial absent⟩

theorem Takes.gives {a : α} (takes : Takes x objects (some a)) : Gives True x objects :=
  ⟨fun _ => ⟨a, takes⟩, fun absent => absurd trivial absent⟩

theorem Short.ends (short : Short x objects) : Ends False x objects :=
  ⟨False.elim, fun _ => short⟩

theorem Short.gives (short : Short x objects) : Gives False x objects :=
  ⟨False.elim, fun _ => short⟩

theorem Ends.attempt (ends : Ends aligned x objects) : Gives aligned (attempt x) objects := by
  refine ⟨fun holds => ?_, fun fails => (ends.2 fails).attempt⟩
  obtain ⟨result, takes⟩ := ends.1 holds
  exact ⟨result, takes.attempt⟩

/-- What follows a computation and reads nothing does not change where it ends. -/
theorem Gives.bind (gives : Gives aligned x objects) (pops : ∀ a, Pops 0 (f a))
    (next : ∀ a, ∃ result, Takes (f a) [] result) : Ends aligned (x >>= f) objects := by
  refine ⟨fun holds => ?_, fun fails => (gives.2 fails).bind_done pops⟩
  obtain ⟨a, first⟩ := gives.1 holds
  obtain ⟨result, second⟩ := next a
  exact ⟨result, first.bind_done second⟩

theorem Gives.map (gives : Gives aligned x objects) (g : α → β) :
    Gives aligned (x >>= fun a => pure (g a)) objects := by
  refine ⟨fun holds => ?_, fun fails => (gives.2 fails).bind_done fun a => pops_pure (g a)⟩
  obtain ⟨a, first⟩ := gives.1 holds
  exact ⟨g a, first.bind_done (takes_pure (g a))⟩

theorem Ends.map (ends : Ends aligned x objects) (g : α → β) :
    Ends aligned (x >>= fun a => pure (g a)) objects := by
  refine ⟨fun holds => ?_, fun fails => (ends.2 fails).bind_done fun a => pops_pure (g a)⟩
  obtain ⟨_ | a, takes⟩ := ends.1 holds
  · exact ⟨none, takes.bind_none⟩
  · exact ⟨some (g a), takes.bind_done (takes_pure (g a))⟩

theorem Steps.ends {y : Read α} {objects' : List Object} (steps : Steps x objects y objects')
    (next : Ends aligned y objects') : Ends aligned x objects :=
  ⟨fun holds => (next.1 holds).imp fun _ takes => steps.takes takes,
    fun fails => steps.short (next.2 fails)⟩

theorem Steps.gives {y : Read α} {objects' : List Object} (steps : Steps x objects y objects')
    (next : Gives aligned y objects') : Gives aligned x objects :=
  ⟨fun holds => (next.1 holds).imp fun _ takes => steps.takes takes,
    fun fails => steps.short (next.2 fails)⟩

theorem gives_skip [Reader] [LawfulReader] : Gives True skip [object] := (takes_skip object).gives

theorem at_int_bounds {value : ℤ} {bytes : List UInt8}
    (here : At bytes (.scalar (.int value) :: objects)) : -2 ^ 63 ≤ value ∧ value < 2 ^ 64 := by
  obtain ⟨inside, head, -⟩ := ReadsAll.head_inside here
  exact readHead_bounded head

/-- An integer that is read is one that the format can hold. -/
theorem takes_int {value : ℤ} {result : Option α}
    (takes : -2 ^ 63 ≤ value → value < 2 ^ 64 → Takes x (.scalar (.int value) :: objects) result) :
    Takes x (.scalar (.int value) :: objects) result := fun bytes after here =>
  takes (at_int_bounds here).1 (at_int_bounds here).2 bytes after here

end Ends

/-! ### Loops -/

section Loops

variable {ε : Type} {step : σ → Read σ} {objectsOf : ε → List Object} {width : ℕ}

theorem pops_iterate (pops : ∀ s, Pops width (step s)) (count : ℕ) (s : σ) :
    Pops (count * width) (iterate step count s) := by
  induction count generalizing s with
  | zero => exact (pops_pure s).mono (Nat.zero_le _)
  | succ count ih => exact ((pops s).bind fun s => ih s).mono (by rw [Nat.succ_mul]; omega)

/-- A loop over things each of which its step takes folds over them. -/
theorem takes_iterate {add : σ → ε → σ} {things : List ε}
    (takes : ∀ thing ∈ things, ∀ s, Takes (step s) (objectsOf thing) (some (add s thing))) (s : σ) :
    Takes (iterate step things.length s) (things.flatMap objectsOf) (some (things.foldl add s)) := by
  induction things generalizing s with
  | nil => exact takes_pure s
  | cons thing things ih =>
    exact (takes thing mem_cons_self s).bind
      (ih (fun thing mem => takes thing (mem_cons_of_mem _ mem)) (add s thing))

/-- A loop ends with the things it reads if its step ends with each of them, and before their end
if not: what the step leaves of one thing is never made up for later. -/
theorem gives_iterate (length : ∀ thing, (objectsOf thing).length = width)
    (pops : ∀ s, Pops width (step s)) {good : ε → Prop}
    (gives : ∀ thing s, Gives (good thing) (step s) (objectsOf thing)) (things : List ε) (s : σ) :
    Gives (∀ thing ∈ things, good thing) (iterate step things.length s)
      (things.flatMap objectsOf) := by
  induction things generalizing s with
  | nil => exact ((takes_pure s).gives).congr (by simp)
  | cons thing things ih =>
    rw [flatMap_cons]
    by_cases first : good thing
    · obtain ⟨mid, taken⟩ := (gives thing s).1 first
      constructor
      · intro holds
        obtain ⟨s', rest⟩ := (ih mid).1 fun thing mem => holds thing (mem_cons_of_mem _ mem)
        exact ⟨s', taken.bind rest⟩
      · intro fails
        exact taken.bind_short ((ih mid).2 fun rest => fails (forall_mem_cons.2 ⟨first, rest⟩))
    · refine ⟨fun holds => absurd (holds thing mem_cons_self) first, fun _ => ?_⟩
      refine ((gives thing s).2 first).bind fun s => (pops_iterate pops things.length s).mono ?_
      rw [length_flatMap, map_congr_left fun thing _ => length thing, map_const',
        sum_replicate, smul_eq_mul]

end Loops

/-! ### Arrays and members -/

/-- The computation reads one object if it is of a type that it reads, and stops before it if not.
`itemOf` says what it then gives. -/
structure ReadsItem (item : Read α) (itemOf : Object → Option (Option α)) : Prop where
  takes : ∀ {object result}, itemOf object = some result → Takes item [object] result
  stops : ∀ {object}, itemOf object = none → Short item [object]
  pops : Pops 1 item

/-- Every item but the last is accepted, and the last is of a type that is read. -/
def ItemsAligned (itemOf : Object → Option (Option α)) (items : List Object) : Prop :=
  (∀ item ∈ items.dropLast, ∃ a, itemOf item = some (some a)) ∧
    ∀ item ∈ items.getLast?, ∃ result, itemOf item = some result

/-- The condition on a string that is UTF-8; another string does not meet it, and an object that
is not a string does. -/
def TextAligned (aligned : String → Prop) : Object → Prop
  | .scalar (.str bytes) => ∃ text ∈ String.fromUTF8? ⟨bytes.toArray⟩, aligned text
  | _ => True

section Members

variable {item : Read α} {itemOf : Object → Option (Option α)} {object : Object}

theorem itemsAligned_cons {items : List Object} (nonempty : items ≠ []) :
    ItemsAligned itemOf (object :: items) ↔
      (∃ a, itemOf object = some (some a)) ∧ ItemsAligned itemOf items := by
  rw [ItemsAligned, dropLast_cons_of_ne_nil nonempty, forall_mem_cons, and_assoc,
    List.getLast?_cons_of_ne_nil nonempty]
  rfl

theorem itemsAligned_singleton :
    ItemsAligned itemOf [object] ↔ ∃ result, itemOf object = some result := by
  simp [ItemsAligned]

/-- The loop over the items of an array.  It stops at an item that it cannot read, and after one
that it refuses. -/
theorem ReadsItem.ends_iterate (reads : ReadsItem item itemOf) (items : List Object)
    (values : List α) :
    Ends (ItemsAligned itemOf items)
      (iterate (fun values => item >>= fun value => pure (values ++ [value])) items.length values)
      items := by
  have pops : ∀ values : List α, Pops 1 (item >>= fun value => pure (values ++ [value])) :=
    fun values => reads.pops.bind fun value => pops_pure _
  induction items generalizing values with
  | nil => exact (takes_pure values).ends.congr (by simp [ItemsAligned])
  | cons object items ih =>
    rw [length_cons, iterate]
    cases eq : itemOf object with
    | none =>
      have short : Short _ ([object] ++ items) :=
        ((reads.stops eq).bind_done fun value => pops_pure (values ++ [value])).bind
          fun values => (pops_iterate pops items.length values).mono (Nat.mul_one _).le
      refine short.ends.congr (iff_of_false id fun holds => ?_)
      cases items with
      | nil => simp [itemsAligned_singleton, eq] at holds
      | cons => simp [itemsAligned_cons, eq] at holds
    | some result =>
      cases result with
      | some a =>
        have step : Takes (item >>= fun value => pure (values ++ [value])) [object]
            (some (values ++ [a])) := (reads.takes eq).bind_done (takes_pure _)
        have rest := ih (values ++ [a])
        have all : Ends (ItemsAligned itemOf items) _ (object :: items) :=
          ⟨fun holds => (rest.1 holds).imp fun result taken => step.bind taken,
            fun fails => step.bind_short (rest.2 fails)⟩
        refine all.congr ?_
        cases items with
        | nil => simp [ItemsAligned, eq]
        | cons => simp [itemsAligned_cons, eq]
      | none =>
        have step : Takes (item >>= fun value => pure (values ++ [value])) [object] none :=
          (reads.takes eq).bind_none
        cases items with
        | nil => exact step.bind_none.ends.congr (by simp [ItemsAligned, eq])
        | cons next items =>
          refine (Takes.short step.bind_none (cons_ne_nil next items)).ends.congr ?_
          simp [itemsAligned_cons, eq]

theorem exists_array_of_kind (kind : object.head.kind = .array) : ∃ items, object = .array items := by
  cases object with
  | array items => exact ⟨items, rfl⟩
  | map => cases kind
  | scalar scalar => cases scalar <;> cases kind

theorem exists_map_of_kind (kind : object.head.kind = .map) : ∃ entries, object = .map entries := by
  cases object with
  | map entries => exact ⟨entries, rfl⟩
  | array => cases kind
  | scalar scalar => cases scalar <;> cases kind

theorem exists_int_of_kind (kind : object.head.kind = .int) :
    ∃ value, object = .scalar (.int value) := by
  cases object with
  | array | map => cases kind
  | scalar scalar =>
    cases scalar with
    | int value => exact ⟨value, rfl⟩
    | nil | bool | single | double | str | bin | ext => cases kind

theorem textAligned_of_kind {aligned : String → Prop}
    (other : object.head.kind ≠ .str) : TextAligned aligned object := by
  cases object with
  | array | map => trivial
  | scalar scalar =>
    cases scalar with
    | str => exact absurd rfl other
    | nil | bool | int | single | double | bin | ext => trivial

variable [Reader]

/-- Read the items of an array until one is refused. -/
def readItems (item : Read α) : Read (List α) := do
  let count ← readArray
  iterate (fun values => do
    let value ← item
    return values ++ [value]) count []

/-- Read a member of a map whose key is a string.  A member with another key is skipped. -/
def readMember (refused : α) (value : String → Read α) : Read α := do
  if (← peek) = some .str then
    let key ← readStr
    value key
  else
    skip
    skip
    return refused

/-- Read a map member by member. -/
def readMembers (refuse : σ → σ) (member : σ → String → Read σ) (start : σ) : Read σ := do
  let count ← readMap
  iterate (fun s => readMember (refuse s) (member s)) count start

variable [LawfulReader]

theorem pops_readItems (pops : Pops 1 item) : Pops 1 (readItems item) := by
  refine follows_array.pops_bind fun object count eq => ?_
  cases object with
  | scalar | map => cases eq
  | array items =>
    cases eq
    exact (pops_iterate (fun values => pops.bind fun value => pops_pure _) _ _).mono
      (Nat.mul_one _).le

theorem ReadsItem.ends_readItems (reads : ReadsItem item itemOf) (items : List Object) :
    Ends (ItemsAligned itemOf items) (readItems item) [.array items] := by
  refine Steps.ends (steps_read (a := items.length) follows_array rfl) ?_
  rw [append_nil]
  exact reads.ends_iterate items []

variable {value : String → Read α} {refused : α}

theorem pops_readMember (pops : ∀ key, Pops 1 (value key)) : Pops 2 (readMember refused value) := by
  refine pops_peek_bind fun next => ?_
  split_ifs
  · exact follows_str.pops.bind pops
  · exact pops_skip.bind fun _ => pops_skip.bind fun _ => pops_pure refused

/-- Where the reading of a string and of what follows it ends. -/
theorem gives_readStr_bind {objects : List Object} {aligned : String → Prop}
    (is_str : object.head.kind = .str) (gives : ∀ text, Gives (aligned text) (value text) objects) :
    Gives (TextAligned aligned object) (readStr >>= value) (object :: objects) := by
  cases object with
  | array | map => cases is_str
  | scalar scalar =>
    cases scalar with
    | nil | bool | int | single | double | bin | ext => cases is_str
    | str bytes =>
      cases eq : String.fromUTF8? ⟨bytes.toArray⟩ with
      | none =>
        refine (short_read follows_str ?_).gives.congr (iff_of_false id ?_)
        · exact eq
        · rintro ⟨_, mem, -⟩
          rw [eq] at mem
          cases mem
      | some text =>
        have step : Steps (readStr >>= value) (.scalar (.str bytes) :: objects) (value text) objects :=
          steps_read follows_str eq
        refine (step.gives (gives text)).congr ?_
        simp [TextAligned, eq]

/-- Where the reading of a member ends. -/
theorem gives_readMember {member : Object} {aligned : String → Prop}
    (gives : ∀ key, Gives (aligned key) (value key) [member]) :
    Gives (TextAligned aligned object) (readMember refused value) [object, member] := by
  refine steps_peek.gives ?_
  split_ifs with is_str
  · exact gives_readStr_bind (Option.some.inj is_str) gives
  · have skipped : Takes (skip >>= fun _ => skip >>= fun _ => (pure refused : Read α))
        [object, member] (some refused) :=
      (takes_skip object).bind ((takes_skip member).bind (takes_pure refused))
    refine skipped.gives.congr (iff_of_true trivial (textAligned_of_kind fun eq => is_str ?_))
    rw [eq]

variable {refuse : σ → σ} {member : σ → String → Read σ} {start : σ}

theorem pops_readMembers (pops : ∀ s key, Pops 1 (member s key)) :
    Pops 1 (readMembers refuse member start) := by
  refine follows_map.pops_bind fun object count eq => ?_
  cases object with
  | scalar | array => cases eq
  | map entries =>
    cases eq
    refine (pops_iterate (fun s => pops_readMember (pops s)) _ start).mono ?_
    rw [Object.inside, length_members]

/-- Where the reading of a map ends. -/
theorem gives_readMembers (aligned : String → Object → Prop) (pops : ∀ s key, Pops 1 (member s key))
    (gives : ∀ s key object, Gives (aligned key object) (member s key) [object])
    (entries : List (Object × Object)) :
    Gives (∀ entry ∈ entries, TextAligned (fun key => aligned key entry.2) entry.1)
      (readMembers refuse member start) [.map entries] := by
  refine Steps.gives (steps_read (a := entries.length) follows_map rfl) ?_
  rw [append_nil]
  have width : ∀ entry : Object × Object, [entry.1, entry.2].length = 2 := fun _ => rfl
  exact gives_iterate width (fun s => pops_readMember (pops s))
    (fun entry s => gives_readMember fun key => gives s key entry.2) entries start

end Members

/-! ### What a computation gives -/

/-- Everything that the computation can give meets the condition. -/
def Yields (P : α → Prop) (x : Read α) : Prop := ∀ bytes a rest, x bytes = (some a, rest) → P a

section Yields

variable {x : Read α} {f : α → Read β} {P : α → Prop} {Q : β → Prop} {wanted : Head → Option α}

theorem yields_pure {a : α} (holds : P a) : Yields P (pure a) := by
  rintro bytes _ rest ⟨⟩
  exact holds

theorem yields_fail : Yields P fail := by
  rintro bytes a rest ⟨⟩

theorem yields_ofOption {a : Option α} (holds : ∀ value ∈ a, P value) : Yields P (ofOption a) := by
  cases a with
  | none => exact yields_fail
  | some a => exact yields_pure (holds a rfl)

theorem Yields.bind (first : Yields P x) (next : ∀ a, P a → Yields Q (f a)) :
    Yields Q (x >>= f) := by
  intro bytes b rest eq
  rcases gives : x bytes with ⟨_ | a, mid⟩
  · rw [Read.bind_none gives] at eq
    cases eq
  · rw [bind_some gives] at eq
    exact next a (first bytes a mid gives) mid b rest eq

theorem yields_any : Yields (fun _ => True) x := fun _ _ _ _ => trivial

theorem Yields.attempt (first : Yields P x) : Yields (fun a => ∀ value ∈ a, P value) (attempt x) := by
  rintro bytes a rest eq value mem
  cases eq
  exact first bytes value (x bytes).2 (Prod.ext mem rfl)

theorem Follows.yields (follows : Follows x wanted)
    (holds : ∀ head a, head.Bounded → wanted head = some a → P a) : Yields P x := by
  intro bytes a rest run
  obtain ⟨head, read, wants⟩ := (follows.1 _ _ _).1 run
  exact holds head a (readHead_bounded read) wants

theorem yields_ensure_pure {a : α} {condition : Bool} (holds : condition = true → P a) :
    Yields P (ensure condition >>= fun _ => pure a) := by
  cases condition with
  | false =>
    have never : Yields (fun _ => False) (ensure false) := yields_fail
    exact never.bind fun _ => False.elim
  | true => exact yields_any.bind fun _ _ => yields_pure (holds rfl)

theorem yields_iterate {inv : σ → Prop} {step : σ → Read σ} (keeps : ∀ s, inv s → Yields inv (step s))
    (count : ℕ) {s : σ} (start : inv s) : Yields inv (iterate step count s) := by
  induction count generalizing s with
  | zero => exact yields_pure start
  | succ count ih => exact (keeps s start).bind fun s holds => ih holds

theorem yields_iterate_items (item : Yields P x) (count : ℕ) {before : List α}
    (holds : ∀ value ∈ before, P value) :
    Yields (fun values => values.length = before.length + count ∧ ∀ value ∈ values, P value)
      (iterate (fun values => x >>= fun value => pure (values ++ [value])) count before) := by
  induction count generalizing before with
  | zero => exact yields_pure ⟨rfl, holds⟩
  | succ count ih =>
    have step : Yields (fun values => values.length = before.length + 1 ∧ ∀ value ∈ values, P value)
        (x >>= fun value => pure (before ++ [value])) :=
      item.bind fun value eq => yields_pure ⟨by simp, by
        simpa [or_imp, forall_and] using ⟨holds, eq⟩⟩
    refine step.bind fun values ⟨length, holds⟩ => ?_
    have rest := ih holds
    rw [length, Nat.add_assoc, Nat.add_comm 1 count] at rest
    exact rest

theorem yields_readItems [Reader] [LawfulReader] (item : Yields P x) :
    Yields (fun values : List α => values.length < 2 ^ 32 ∧ ∀ value ∈ values, P value)
      (readItems x) := by
  have short : Yields (fun count => count < 2 ^ 32) readArray := by
    refine follows_array.yields fun head count bounded eq => ?_
    cases head with
    | scalar | map => cases eq
    | array =>
      cases eq
      exact bounded
  refine short.bind fun count lt bytes values rest eq => ?_
  obtain ⟨length, holds⟩ :=
    yields_iterate_items item count (fun _ mem => absurd mem not_mem_nil) bytes values rest eq
  exact ⟨by rw [length, length_nil, Nat.zero_add]; exact lt, holds⟩

theorem yields_readMembers [Reader] {inv : σ → Prop} {refuse : σ → σ} {member : σ → String → Read σ}
    (refuses : ∀ s, inv s → inv (refuse s)) (keeps : ∀ s key, inv s → Yields inv (member s key))
    {s : σ} (start : inv s) : Yields inv (readMembers refuse member s) := by
  refine yields_any.bind fun count _ => yields_iterate (fun s holds => ?_) count start
  refine yields_any.bind fun next _ => ?_
  split_ifs
  · exact yields_any.bind fun key _ => keeps s key holds
  · exact yields_any.bind fun _ _ => yields_any.bind fun _ _ => yields_pure (refuses s holds)

end Yields

/-! ### A reader of the format -/

/-- Read a scalar or a header of the wanted type. -/
def readWanted (wanted : Head → Option α) : Read α := fun bytes =>
  match readHead bytes with
  | none => (none, bytes)
  | some (head, rest) =>
    match wanted head with
    | none => (none, bytes)
    | some a => (some a, rest)

theorem follows_readWanted (wanted : Head → Option α) : Follows (readWanted wanted) wanted := by
  constructor
  · intro bytes a rest
    unfold readWanted
    cases read : readHead bytes with
    | none => simp
    | some found =>
      obtain ⟨head, after⟩ := found
      cases wants : wanted head <;> aesop
  · intro bytes rest run
    unfold readWanted at run
    split at run
    · cases run
      rfl
    · split at run <;> cases run
      rfl

/-- Skip objects.  Every object takes a byte, so that as much fuel as there are bytes is enough. -/
def skipObjects : ℕ → ℕ → List UInt8 → Option (List UInt8)
  | _, 0, bytes => some bytes
  | 0, _ + 1, _ => none
  | fuel + 1, count + 1, bytes =>
    match readHead bytes with
    | none => none
    | some (head, rest) => skipObjects fuel (head.inside + count) rest

def skipObject : Read Unit := fun bytes =>
  match skipObjects bytes.length 1 bytes with
  | none => (none, bytes)
  | some rest => (some (), rest)

theorem skipObjects_reads (reads : ReadsAll bytes objects rest) :
    ∃ used, used + rest.length ≤ bytes.length ∧ ∀ fuel count,
      skipObjects (used + fuel) (objects.length + count) bytes = skipObjects fuel count rest := by
  induction size : bytes.length using Nat.strong_induction_on generalizing bytes objects with
  | _ _ ih =>
  cases objects with
  | nil =>
    cases reads
    exact ⟨0, by omega, fun fuel count => by rw [Nat.zero_add, length_nil, Nat.zero_add]⟩
  | cons object objects =>
    obtain ⟨inside, head, reads⟩ := reads.head_inside
    have shorter := length_readHead head
    obtain ⟨used, le, skips⟩ := ih inside.length (by omega) reads rfl
    refine ⟨used + 1, by omega, fun fuel count => ?_⟩
    rw [length_cons, show used + 1 + fuel = used + fuel + 1 by omega,
      show objects.length + 1 + count = objects.length + count + 1 by omega, skipObjects, head]
    dsimp only
    rw [← object.length_inside, ← Nat.add_assoc, ← length_append]
    exact skips fuel count

theorem skipObject_reads (reads : Reads bytes object rest) : skipObject bytes = (some (), rest) := by
  obtain ⟨used, le, skips⟩ := skipObjects_reads reads
  have skipped := skips (bytes.length - used) 0
  rw [Nat.add_sub_cancel' (by omega), length_singleton, Nat.add_zero, skipObjects] at skipped
  rw [skipObject, skipped]

end Read

/-- A reader of the format that stays where it is when it fails. -/
@[reducible] def formatReader : Reader where
  peek bytes := (readHead bytes).map fun found => found.1.kind
  readMap := Read.readWanted Head.map?
  readArray := Read.readWanted Head.array?
  readNil := Read.readWanted Head.nil?
  readBool := Read.readWanted Head.bool?
  readInt := Read.readWanted Head.int?
  readUint := Read.readWanted Head.uint?
  readFloat := Read.readWanted Head.float?
  readStr := Read.readWanted Head.str?
  readBin := Read.readWanted Head.bin?
  readExt := Read.readWanted Head.ext?
  skip := Read.skipObject

theorem lawful_formatReader : @LawfulReader formatReader :=
  @LawfulReader.mk formatReader
    (congrArg (Option.map fun found : Head × List UInt8 => found.1.kind))
    (Read.follows_readWanted _) (Read.follows_readWanted _) (Read.follows_readWanted _)
    (Read.follows_readWanted _) (Read.follows_readWanted _) (Read.follows_readWanted _)
    (Read.follows_readWanted _) (Read.follows_readWanted _) (Read.follows_readWanted _)
    (Read.follows_readWanted _).1 (Read.follows_readWanted _).2 Read.skipObject_reads rfl

end MessagePack
