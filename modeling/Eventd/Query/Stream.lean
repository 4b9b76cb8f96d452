import Eventd.Lib.RowTable
import Eventd.Query.Time
import Eventd.Access.Authorizer

/-!
# Streaming queries

`start_stream`, `stream_next`, `capture_cursor` and `execute_at` of
`eventd/src/query/executor.rs`, for queries over records without aggregate or cross-type
filters.  A pass over the stores is a sequence of reads, each of one table and each seeing
the table as it stands at that moment; writers and retention go on between them.

* `RecordQuery`, `scanTable`: what a query asks, and the rows it finds in one table;
* `Reader`, `Stage`, `Reader.advance`: a stream and the read it makes next;
* `World`, `StreamAction`, `step`, `run`: the stores, their writers and a stream.

The logs are one table; the events have one for each shard.
-/

namespace Eventd

open Function

variable {V : Type} {n : ℕ}

/-- A record in a store: its time, and the row it is read as.  `serial` numbers the records
in the order of their commits; no query reads it. -/
structure Stored (V : Type) where
  serial : ℕ
  time : ℤ
  row : Row V
  deriving DecidableEq

/-- A row that a query has found. -/
structure Found (n : ℕ) (V : Type) where
  shard : Fin n
  id : ℕ
  serial : ℕ
  time : ℤ
  row : Row V
  deriving DecidableEq

/-- What a query over events or logs asks.  Identifiers are selected by a pattern or by
origins; logs may be asked for errors or for a text.  `pushed` is what SQLite is told to
narrow the rows by, given the indexes that exist: a range of times, and a constraint on a
header or an indexed field. -/
structure RecordQuery (n : ℕ) (V : Type) where
  source : Namespace
  since : Option TimeExpr
  until_ : Option TimeExpr
  selects : String → Bool
  asks : Row V → Bool
  predicates : List (String × V) → Bool
  referenced : List String
  pushed : List String → Stored V → Bool
  order : Found n V → Found n V → Bool
  skip : ℕ
  take : Option ℕ
  select : List String

namespace RecordQuery

variable (query : RecordQuery n V)

/-- The identifiers that a table adds to those found: the catalogue has those of its rows. -/
def discover (table : RowTable (Stored V)) : List String :=
  (table.rows.map fun row => row.2.row.identifier).filter query.selects

/-- The order and pages of a finished result; a watch batch is in the order of commits. -/
def arrange (watch : Bool) (rows : List (Found n V)) : List (Found n V) :=
  if watch then rows
  else
    let rows := (rows.insertionSort fun a b => query.order a b = true).drop query.skip
    query.take.elim rows fun take => rows.take take

/-- A result record narrowed to the selected fields. -/
def project (found : Found n V) : Found n V :=
  if query.select = [] then found
  else { found with row := found.row.retain (· ∈ query.select) }

end RecordQuery

/-- The bounds of one pass over the stores: times, and identifiers that may be read. -/
structure Bounds where
  since : ℤ
  until_ : ℤ
  allowed : List String
  deriving DecidableEq

section Scan

variable {τ : Type} (query : RecordQuery n V) (authorizer : Authorizer τ)

/-- Whether SQLite hands a row of a table over, between two cursors. -/
def handsOver (bounds : Bounds) (lower upper : ℕ) (material : List String)
    (row : ℕ × Stored V) : Bool :=
  decide (bounds.since ≤ row.2.time) && decide (row.2.time < bounds.until_) &&
    decide (lower < row.1) && decide (row.1 ≤ upper) && query.pushed material row.2

/-- What becomes of a row that is handed over. -/
def visit (bounds : Bounds) (shard : Fin n) (row : ℕ × Stored V) :
    Except SecurityError (List (Found n V)) := do
  if row.2.row.identifier ∉ bounds.allowed then return []
  if !query.asks row.2.row then return []
  match ← authorizeRow authorizer query.source row.2.row query.referenced with
  | none => return []
  | some kept =>
    if !query.predicates kept.record then return []
    return [⟨shard, row.1, row.2.serial, row.2.time, kept⟩]

/-- The rows found in a table between two cursors. -/
def scanTable (bounds : Bounds) (lower upper : ℕ) (material : List String) (shard : Fin n)
    (table : RowTable (Stored V)) : Except SecurityError (List (Found n V)) :=
  (table.rows.filter (handsOver query bounds lower upper material)).foldlM
    (fun rows row => do return rows ++ (← visit query authorizer bounds shard row)) []

end Scan

/-! ### A stream -/

/-- How far a pass over the stores has got: which table it reads next, and what it knows. -/
inductive Stage (n : ℕ) (V : Type)
  | rest
  | capturing (upper : Fin n → ℕ) (next : ℕ)
  | discovering (upper : Fin n → ℕ) (since until_ : ℤ) (found : List String) (next : ℕ)
  | scanning (upper : Fin n → ℕ) (bounds : Bounds) (rows : List (Found n V)) (next : ℕ)
  | failed
  deriving DecidableEq

/-- A stream: the state that `start_stream` returns and `stream_next` updates, the pass that
is under way, and the rows handed over.  `begun` and `completed` count the passes, and
`marks` is, for each table, how many records had been committed when `start_stream`
captured its cursor; nothing depends on these three. -/
structure Reader (n : ℕ) (V : Type) where
  evaluation : ℤ
  watch : Bool
  cursor : Fin n → ℕ
  stage : Stage n V
  emitted : List (Found n V)
  marks : Fin n → ℕ
  begun : ℕ
  completed : ℕ

namespace Reader

variable {τ : Type} (query : RecordQuery n V) (authorizer : Authorizer τ)

/-- No stream yet. -/
def fresh : Reader n V := ⟨0, false, fun _ => 0, .rest, [], fun _ => 0, 0, 0⟩

/-- Begin a pass by capturing the largest id of each table. -/
def begin (reader : Reader n V) : Reader n V :=
  { reader with stage := .capturing (fun _ => 0) 0, begun := reader.begun + 1 }

/-- `start_stream`, up to its first read of a store. -/
def start (reader : Reader n V) (now : ℤ) : Reader n V :=
  if reader.begun = 0 then { reader.begin with evaluation := now } else reader

/-- `stream_next`, up to its first read of a store. -/
def poll (reader : Reader n V) : Reader n V :=
  match reader.stage with
  | .rest => if reader.watch then reader.begin else reader
  | _ => reader

/-- End a pass: hand its result over and move the cursor. -/
def finish (reader : Reader n V) (upper : Fin n → ℕ) (rows : List (Found n V)) : Reader n V :=
  { reader with
    watch := true
    cursor := upper
    stage := .rest
    emitted := reader.emitted ++ (query.arrange reader.watch rows).map query.project
    completed := reader.completed + 1 }

def fail (reader : Reader n V) : Reader n V := { reader with stage := .failed }

/-- Once the cursors are captured: nothing to do, or a range of times to look at. -/
def captured (reader : Reader n V) (upper : Fin n → ℕ) : Reader n V :=
  if reader.watch ∧ upper = reader.cursor then
    { reader with stage := .rest, completed := reader.completed + 1 }
  else
    match timeRange query.since query.until_ reader.evaluation with
    | none => reader.fail
    | some (since, until_) =>
      let until_ := if reader.watch then (i64Max : ℤ) else until_
      if until_ ≤ since then reader.finish query upper []
      else { reader with stage := .discovering upper since until_ [] 0 }

/-- Once the identifiers are known: those that may be read. -/
def discovered (reader : Reader n V) (upper : Fin n → ℕ) (since until_ : ℤ)
    (found : List String) : Reader n V :=
  match authorizer.authorizeIdentifiers query.source
      (found.insertionSort (· ≤ ·)).dedup query.referenced with
  | .error _ => reader.fail
  | .ok allowed => { reader with stage := .scanning upper ⟨since, until_, allowed⟩ [] 0 }

/-- Capture the cursor of a table. -/
def capture (reader : Reader n V) (table : RowTable (Stored V)) (committed : ℕ)
    (upper : Fin n → ℕ) (shard : Fin n) : Reader n V :=
  { reader with
    stage := .capturing (update upper shard table.maxId) (shard + 1)
    marks := if reader.watch then reader.marks else update reader.marks shard committed }

/-- Read the rows of a table between the cursors. -/
def scan (reader : Reader n V) (table : RowTable (Stored V)) (material : List String)
    (upper : Fin n → ℕ) (bounds : Bounds) (rows : List (Found n V)) (shard : Fin n) :
    Reader n V :=
  match scanTable query authorizer bounds (reader.cursor shard) (upper shard) material shard
      table with
  | .error _ => reader.fail
  | .ok more => { reader with stage := .scanning upper bounds (rows ++ more) (shard + 1) }

/-- The next read of the pass under way, or the end of its part.  The indexes that exist
then are given by their names. -/
def advance (reader : Reader n V) (tables : Fin n → RowTable (Stored V)) (committed : ℕ)
    (material : List String) : Reader n V :=
  match reader.stage with
  | .rest => reader
  | .failed => reader
  | .capturing upper next =>
    if h : next < n then reader.capture (tables ⟨next, h⟩) committed upper ⟨next, h⟩
    else reader.captured query upper
  | .discovering upper since until_ found next =>
    if h : next < n then
      { reader with
        stage := .discovering upper since until_ (found ++ query.discover (tables ⟨next, h⟩))
          (next + 1) }
    else reader.discovered query authorizer upper since until_ found
  | .scanning upper bounds rows next =>
    if h : next < n then
      reader.scan query authorizer (tables ⟨next, h⟩) material upper bounds rows ⟨next, h⟩
    else reader.finish query upper rows

end Reader

/-! ### The stores and a stream -/

/-- The tables of a store, with the number of records ever committed, and a stream. -/
structure World (n : ℕ) (V : Type) where
  tables : Fin n → RowTable (Stored V)
  committed : ℕ
  reader : Reader n V

/-- What can happen next.  A pass may fail at any time, for its deadline or its memory. -/
inductive StreamAction (n : ℕ) (V : Type)
  | commit (shard : Fin n) (records : List (ℤ × Row V))
  | delete (shard : Fin n) (condition : ℕ × Stored V → Bool)
  | start (now : ℤ)
  | poll
  | advance (material : List String)
  | fail

namespace World

variable {τ : Type} (query : RecordQuery n V) (authorizer : Authorizer τ)

/-- Store one record. -/
def store (world : World n V) (shard : Fin n) (record : ℤ × Row V) : World n V :=
  { world with
    tables := update world.tables shard
      ((world.tables shard).insert ⟨world.committed, record.1, record.2⟩)
    committed := world.committed + 1 }

/-- A transaction of a writer. -/
def commit (world : World n V) (shard : Fin n) (records : List (ℤ × Row V)) : World n V :=
  records.foldl (fun world record => world.store shard record) world

/-- A transaction of retention. -/
def delete (world : World n V) (shard : Fin n) (condition : ℕ × Stored V → Bool) : World n V :=
  { world with
    tables := update world.tables shard ((world.tables shard).delete condition) }

def step (world : World n V) : StreamAction n V → World n V
  | .commit shard records => world.commit shard records
  | .delete shard condition => world.delete shard condition
  | .start now => { world with reader := world.reader.start now }
  | .poll => { world with reader := world.reader.poll }
  | .advance material =>
    { world with
      reader := world.reader.advance query authorizer world.tables world.committed material }
  | .fail => { world with reader := world.reader.fail }

def run (world : World n V) (actions : List (StreamAction n V)) : World n V :=
  actions.foldl (step query authorizer) world

end World

end Eventd
