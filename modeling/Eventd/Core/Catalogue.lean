import Eventd.Core.Shard

/-!
# The catalogue of event types

A shard keeps the types of its events in a table of their own, which queries read to find out
what there is, and its writer keeps a set of the types it knows to be there, so as not to insert
them again.  Types are inserted with the first event that needs them, and removed again once
retention has deleted their last event and a check has confirmed it.

* `Catalogued`: every row's type is in the catalogue, and so is every type the writer knows;
* `ShardHandle`, `ShardOp`: a shard as its owner holds it, and everything that is done with it;
* `catalogue_complete`: the catalogue misses no type of a row in any run of these operations, and
  none that the writer knows unless the shard has lost its connection.
-/

namespace Eventd

open List Fallible

namespace Shard

/-- The catalogue has the types of all rows, and those the writer knows. -/
structure Catalogued (shard : Shard) : Prop where
  rows : ∀ row ∈ shard.eventRows, row.eventType ∈ shard.eventTypes
  known : ∀ eventType ∈ shard.knownTypes, eventType ∈ shard.eventTypes

theorem catalogued_new : new.Catalogued := ⟨nofun, nofun⟩

/-! ### Writing -/

variable {shard shard' : Shard}

theorem Catalogued.internType (complete : shard.Catalogued) (eventType : String) :
    (shard.internType eventType).Catalogued ∧
      eventType ∈ (shard.internType eventType).eventTypes := by
  rw [Shard.internType]
  split_ifs with known
  · exact ⟨complete, complete.known eventType known⟩
  · refine ⟨⟨fun row mem => ?_, fun other mem => ?_⟩, mem_insert_self⟩
    · exact mem_insert_of_mem (complete.rows row mem)
    · rcases mem_cons.1 mem with rfl | mem
      · exact mem_insert_self
      · exact mem_insert_of_mem (complete.known other mem)

theorem Catalogued.insertRow (complete : shard.Catalogued) {row : EventRow}
    (typed : row.eventType ∈ shard.eventTypes) : (shard.insertRow row).Catalogued := by
  refine ⟨fun other mem => ?_, complete.known⟩
  rw [eventRows_insertRow] at mem
  rcases mem_append.1 mem with mem | mem
  · exact complete.rows other mem
  · exact mem_singleton.1 mem ▸ typed

theorem Catalogued.insertTyped (complete : shard.Catalogued) (row : EventRow) :
    ((shard.internType row.eventType).insertRow row).Catalogued :=
  (complete.internType row.eventType).1.insertRow (complete.internType row.eventType).2

theorem catalogued_foldlM {α : Type} {turn : Shard → α → Except ShardError Shard}
    (keeps : ∀ a shard shard', shard.Catalogued → turn shard a = .ok shard' → shard'.Catalogued)
    {l : List α} {shard shard' : Shard} (complete : shard.Catalogued)
    (done : l.foldlM turn shard = .ok shard') : shard'.Catalogued :=
  foldlM_invariant (fun _ shard => shard.Catalogued)
    (fun _ a shard shard' before turned => keeps a shard shard' before turned) complete done

section

variable (complete : shard.Catalogued)
include complete

theorem Catalogued.insertGap {bootId : Guid} {cpuId : UInt16} {gap : Gap}
    (done : insertGap bootId cpuId shard gap = .ok shard') :
    shard'.Catalogued := by
  obtain ⟨_, -, done⟩ := bind_eq_ok.1 done
  obtain rfl := Except.ok.inj done
  exact complete.insertTyped (gapRow bootId cpuId gap)

theorem Catalogued.insertItem {item : IngestItem} (done : shard.insertItem item = .ok shard') :
    shard'.Catalogued := by
  obtain ⟨mid, gaps, event⟩ := bind_eq_ok.1 done
  have complete := catalogued_foldlM (fun _ _ _ before => before.insertGap) complete gaps
  split_ifs at event
  · obtain ⟨_, -, event⟩ := bind_eq_ok.1 event
    obtain ⟨_, -, event⟩ := bind_eq_ok.1 event
    obtain rfl := Except.ok.inj event
    exact complete.insertTyped (eventRow item.event)
  · obtain rfl := Except.ok.inj event
    exact complete

theorem Catalogued.insertReceipts {receipts : List ((Guid × UInt16) × List Interval)}
    (done : shard.insertReceipts receipts = .ok shard') :
    shard'.Catalogued := by
  refine catalogued_foldlM (fun entry shard shard' complete done => ?_) complete done
  refine catalogued_foldlM (fun interval shard shard' complete done => ?_) complete done
  obtain ⟨_, -, done⟩ := bind_eq_ok.1 done
  obtain ⟨_, -, done⟩ := bind_eq_ok.1 done
  obtain rfl := Except.ok.inj done
  exact ⟨complete.rows, complete.known⟩

theorem Catalogued.transact {α : Type} {io : StorageIo} {write : Shard → Except ShardError Shard}
    {afterwards : Except ShardError α}
    (keeps : ∀ shard', write shard = .ok shard' → shard'.Catalogued) :
    (shard.transact io write afterwards).1.Catalogued := by
  rcases transact_cases shard io write afterwards with ⟨error, eq⟩ | ⟨committed, -, written, eq⟩
  · rw [eq]
    exact complete
  · rw [eq]
    exact keeps committed written

theorem Catalogued.commit (items : List IngestItem) (io : StorageIo) :
    (shard.commit items io).1.Catalogued := by
  rw [Shard.commit]
  split_ifs
  · exact complete
  · refine complete.transact fun shard' written => ?_
    obtain ⟨mid, inserted, receipts⟩ := bind_eq_ok.1 written
    exact (catalogued_foldlM (fun _ _ _ before => before.insertItem) complete
      inserted).insertReceipts receipts

theorem Catalogued.commitGaps (bootId : Guid) (gaps : List (UInt16 × Gap)) (io : StorageIo) :
    (shard.commitGaps bootId gaps io).1.Catalogued := by
  rw [Shard.commitGaps]
  split_ifs
  · exact complete
  · refine complete.transact fun shard' written => ?_
    obtain ⟨mid, inserted, receipts⟩ := bind_eq_ok.1 written
    exact (catalogued_foldlM (fun _ _ _ before => before.insertGap) complete
      inserted).insertReceipts receipts

theorem Catalogued.commitSynthetic (event : SyntheticEvent) (io : StorageIo) :
    (shard.commitSynthetic event io).1.Catalogued := by
  rw [Shard.commitSynthetic]
  split_ifs
  · refine complete.transact fun shard' written => ?_
    obtain ⟨_, -, written⟩ := bind_eq_ok.1 written
    obtain rfl := Except.ok.inj written
    exact complete.insertTyped (syntheticRow event)
  · exact complete

end

/-! ### Deleting -/

theorem Catalogued.deleteEvents (complete : shard.Catalogued) (condition : EventRow → Bool)
    (limit : ℕ) (io : StorageIo) :
    (shard.deleteEvents condition limit io).1.Catalogued := by
  rw [Shard.deleteEvents]
  cases sqliteLimit limit with
  | error error => exact complete
  | ok limit =>
    cases io.transaction with
    | some code => exact complete
    | none =>
      refine ⟨fun row mem => ?_, complete.known⟩
      obtain ⟨entry, stays, rfl⟩ := mem_map.1 mem
      exact complete.rows _ (mem_map_of_mem (mem_of_mem_filter stays))

theorem eqNocase_self (eventType : String) : eqNocase eventType eventType = true :=
  decide_eq_true rfl

/-- Only types without a row are removed, from the catalogue and from what the writer knows. -/
theorem Catalogued.removeOrphanTypes (complete : shard.Catalogued) (allowed : Bool) (io : StorageIo) :
    (shard.removeOrphanTypes allowed io).1.Catalogued := by
  rw [Shard.removeOrphanTypes]
  split_ifs
  · exact complete
  cases io.transaction with
  | some code => exact complete
  | none =>
    refine ⟨fun row mem => ?_, fun eventType mem => ?_⟩
    · refine mem_filter.2 ⟨complete.rows row mem, ?_⟩
      obtain ⟨entry, stored, rfl⟩ := mem_map.1 mem
      simp only [mem_filter, decide_eq_true_eq, not_and]
      rintro - - unused
      rw [any_eq_false] at unused
      exact unused entry stored (eqNocase_self _)
    · obtain ⟨known, kept⟩ := mem_filter.1 mem
      exact mem_filter.2 ⟨complete.known eventType known, kept⟩

end Shard

/-! ### A shard in use -/

/-- How far a replacement of a corrupt shard gets.  It gives up its connection for one to an
empty database in memory before it moves the file away, and if it fails after that, the file may
be there or gone. -/
inductive Replacement
  | notStarted
  | failed (gone : Bool)
  | done
  deriving DecidableEq

/-- A shard as its owner holds it, and whether its connection is to the database file.  Without
that connection no operation finds the tables. -/
structure ShardHandle where
  shard : Shard
  attached : Bool

/-- What can be done with a shard, and what the storage answers. -/
inductive ShardOp
  | commit (items : List IngestItem) (io : StorageIo)
  | commitGaps (bootId : Guid) (gaps : List (UInt16 × Gap)) (io : StorageIo)
  | commitSynthetic (event : SyntheticEvent) (io : StorageIo)
  | retainBefore (cutoff : ℤ) (limit : ℕ) (io : StorageIo)
  | retainBoot (bootId : Guid) (limit : ℕ) (io : StorageIo)
  /-- Finished, or skipped or interrupted (not allowed), or failed. -/
  | removeOrphanTypes (allowed : Bool) (io : StorageIo)
  | replaceCorrupt (outcome : Replacement)
  | reopen

namespace ShardHandle

/-- A new shard. -/
def create : ShardHandle := ⟨Shard.new, true⟩

/-- An operation on the tables. -/
def onTables (handle : ShardHandle) (operation : Shard → Shard) : ShardHandle :=
  if handle.attached then { handle with shard := operation handle.shard } else handle

def replaceCorrupt (handle : ShardHandle) : Replacement → ShardHandle
  | .notStarted => handle
  | .failed false => { handle with attached := false }
  | .failed true =>
    ⟨{ Shard.new with
        knownTypes := handle.shard.knownTypes
        orphanCandidates := handle.shard.orphanCandidates }, false⟩
  | .done => create

/-- The types in the database of the connection; the one in memory has none. -/
def connectedTypes (handle : ShardHandle) : List String :=
  if handle.attached then handle.shard.eventTypes else []

def step (handle : ShardHandle) : ShardOp → ShardHandle
  | .commit items io => handle.onTables fun shard => (shard.commit items io).1
  | .commitGaps bootId gaps io => handle.onTables fun shard => (shard.commitGaps bootId gaps io).1
  | .commitSynthetic event io => handle.onTables fun shard => (shard.commitSynthetic event io).1
  | .retainBefore cutoff limit io =>
    handle.onTables fun shard => (shard.retainBefore cutoff limit io).1
  | .retainBoot bootId limit io =>
    handle.onTables fun shard => (shard.retainBoot bootId limit io).1
  | .removeOrphanTypes allowed io =>
    handle.onTables fun shard => (shard.removeOrphanTypes allowed io).1
  | .replaceCorrupt outcome => handle.replaceCorrupt outcome
  | .reopen => ⟨handle.shard.reopen, true⟩

def run (handle : ShardHandle) (ops : List ShardOp) : ShardHandle := ops.foldl step handle

/-- The catalogue is complete; of what the writer knows this is said while it is connected. -/
structure Complete (handle : ShardHandle) : Prop where
  rows : ∀ row ∈ handle.shard.eventRows, row.eventType ∈ handle.shard.eventTypes
  attached : handle.attached = true → handle.shard.Catalogued

variable {handle : ShardHandle}

theorem complete_onTables (complete : handle.Complete) {operation : Shard → Shard}
    (keeps : ∀ shard, shard.Catalogued → (operation shard).Catalogued) :
    (handle.onTables operation).Complete := by
  rw [onTables]
  split_ifs with attached
  · have after := keeps _ (complete.attached attached)
    exact ⟨after.rows, fun _ => after⟩
  · exact complete

theorem Complete.step (complete : handle.Complete) (op : ShardOp) :
    (handle.step op).Complete := by
  cases op with
  | commit items io => exact complete_onTables complete fun _ before => before.commit items io
  | commitGaps bootId gaps io =>
    exact complete_onTables complete fun _ before => before.commitGaps bootId gaps io
  | commitSynthetic event io =>
    exact complete_onTables complete fun _ before => before.commitSynthetic event io
  | retainBefore cutoff limit io | retainBoot bootId limit io =>
    exact complete_onTables complete fun _ before => before.deleteEvents _ limit io
  | removeOrphanTypes allowed io =>
    exact complete_onTables complete fun _ before => before.removeOrphanTypes allowed io
  | replaceCorrupt outcome =>
    match outcome with
    | .notStarted => exact complete
    | .failed false => exact ⟨complete.rows, nofun⟩
    | .failed true => exact ⟨nofun, nofun⟩
    | .done => exact ⟨nofun, fun _ => Shard.catalogued_new⟩
  | reopen => exact ⟨complete.rows, fun _ => ⟨complete.rows, fun _ known => known⟩⟩

/-- Only a replacement that fails halfway loses the connection. -/
theorem attached_step (attached : handle.attached = true) {op : ShardOp}
    (whole : ∀ gone, op ≠ .replaceCorrupt (.failed gone)) : (handle.step op).attached = true := by
  have onTables (operation : Shard → Shard) : (handle.onTables operation).attached = true := by
    rw [ShardHandle.onTables, if_pos attached]
    exact attached
  cases op with
  | replaceCorrupt outcome =>
    match outcome with
    | .notStarted => exact attached
    | .failed gone => exact absurd rfl (whole gone)
    | .done => rfl
  | reopen => rfl
  | _ => exact onTables _

theorem Complete.run (complete : handle.Complete) (ops : List ShardOp) :
    (handle.run ops).Complete := by
  induction ops generalizing handle with
  | nil => exact complete
  | cons op ops ih => exact ih (complete.step op)

theorem attached_run (attached : handle.attached = true) {ops : List ShardOp}
    (whole : ∀ gone, .replaceCorrupt (.failed gone) ∉ ops) :
    (handle.run ops).attached = true := by
  induction ops generalizing handle with
  | nil => exact attached
  | cons op ops ih =>
    have step := attached_step attached fun gone same => whole gone (same ▸ mem_cons_self)
    exact ih step fun gone mem => whole gone (mem_cons_of_mem _ mem)

/-- **The catalogue is complete.**  In every run, whatever fails, the type of every row is in the
catalogue.  The types the writer knows are in that of its connection exactly if there are none or
the shard is connected to its file, which a replacement that fails halfway ends until the shard is
opened again. -/
theorem catalogue_complete (ops : List ShardOp) :
    (∀ row ∈ (create.run ops).shard.eventRows,
      row.eventType ∈ (create.run ops).shard.eventTypes) ∧
    ((∀ eventType ∈ (create.run ops).shard.knownTypes,
        eventType ∈ (create.run ops).connectedTypes) ↔
      (create.run ops).attached = true ∨ (create.run ops).shard.knownTypes = []) ∧
    ((∀ gone, .replaceCorrupt (.failed gone) ∉ ops) → (create.run ops).attached = true) := by
  have start : create.Complete := ⟨nofun, fun _ => Shard.catalogued_new⟩
  have after := start.run ops
  refine ⟨after.rows, ?_, attached_run rfl⟩
  unfold connectedTypes
  by_cases attached : (create.run ops).attached = true
  · rw [if_pos attached]
    exact iff_of_true (after.attached attached).known (.inl attached)
  · rw [if_neg attached, or_iff_right attached]
    simp only [not_mem_nil, imp_false]
    exact eq_nil_iff_forall_not_mem.symm

/-- An event is committed, and a replacement moves the file away and then fails. -/
theorem known_type_without_catalogue :
    let handle := create.run [.commitSynthetic ⟨.replicate 16 0, 7, daemonStarted, []⟩ .fine,
      .replaceCorrupt (.failed true)]
    handle.shard.knownTypes = [daemonStarted] ∧ handle.connectedTypes = [] ∧
      handle.shard.eventTypes = [] := by
  decide +kernel

end ShardHandle

end Eventd
