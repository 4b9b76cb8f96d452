import Eventd.Query.Watch

/-!
# What reaches a stream

Streams over stores that writers fill and retention empties, from the first commit on.

* `follows_run`: a record that stays stored, from its commit to the end of a run;
* `lost_run`: a record that the cursor was past when it was committed;
* `streamed_once_iff`: without deletions, every record is handed over once, unless it was
  stored before the first cursor with a time after the first clock reading;
* `watch_delivers`: with deletions, every record committed at an id beyond the cursors is;
* `streamed_only_readable`: nothing is handed over that the caller may not read.
-/

namespace Eventd

open List

variable {V τ : Type} {n : ℕ} {query : RecordQuery n V} {authorizer : Authorizer τ}

namespace World

/-- Empty stores and no stream. -/
def empty : World n V := ⟨fun _ => .empty, 0, .fresh⟩

/-- What holds in every run. -/
structure Good (query : RecordQuery n V) (world : World n V) : Prop where
  sound : world.Sound
  regular : world.reader.Regular query

theorem good_empty : (empty : World n V).Good query := by
  refine ⟨⟨⟨?_, ?_⟩, ⟨nofun, nodup_nil, nofun, ?_, fun _ => le_rfl⟩⟩, regular_fresh⟩
  · exact fun s row mem => absurd mem not_mem_nil
  · exact fun s row mem => absurd mem not_mem_nil
  · exact fun s row mem => absurd mem not_mem_nil

variable {world : World n V}

@[simp] theorem reader_commit (shard : Fin n) (records : List (ℤ × Row V)) :
    (world.commit shard records).reader = world.reader := by
  refine List.foldlRecOn (motive := fun w : World n V => w.reader = world.reader) records _ rfl ?_
  exact fun w same record _ => same

theorem Good.step (h : world.Good query) (action : StreamAction n V) :
    (world.step query authorizer action).Good query := by
  refine ⟨h.sound.step action, ?_⟩
  cases action with
  | commit shard records =>
    unfold World.step
    rw [reader_commit]
    exact h.regular
  | delete shard condition => exact h.regular
  | start now => exact h.regular.start now
  | poll => exact h.regular.poll
  | advance material => exact h.regular.advance (advanced _ _ _ _)
  | fail => exact h.regular.fail

theorem Good.run (h : world.Good query) (actions : List (StreamAction n V)) :
    (world.run query authorizer actions).Good query := by
  refine List.foldlRecOn actions _ h ?_
  intro world h action _
  exact h.step action

end World

/-! ### A record that stays stored -/

section Stays

variable {t : Tracked n V} {reader : Reader n V} {world : World n V}

theorem Tracked.Follows.begin (h : t.Follows reader query) : t.Follows reader.begin query :=
  h.of_stage (fun u eq => by simp [Stage.upperAt] at eq) nofun nofun

theorem Tracked.Follows.start (h : t.Follows reader query) (regular : reader.Regular query)
    (now : ℤ) : t.Follows (reader.start now) query := by
  unfold Reader.start
  split_ifs with zero
  · have behind : ¬ t.id ≤ reader.cursor t.shard := (h.unread (regular.unbegun zero)).not_ge
    have h' := h.begin
    refine ⟨?_, fun watch => ?_, h.unread, h.completed, ?_, nofun, nofun, nofun⟩
    · constructor
      · exact fun inside => absurd (h.emitted.1 inside).1 behind
      · exact fun inside => absurd inside.1 behind
    · have : reader.watch = true := watch
      rw [regular.unbegun zero] at this
      cases this
    · intro u eq
      simp [Reader.begin, Stage.upperAt] at eq
  · exact h

theorem Tracked.Follows.poll (h : t.Follows reader query) : t.Follows reader.poll query := by
  unfold Reader.poll
  split
  · split_ifs
    · exact h.begin
    · exact h
  · exact h

/-- Whether the first result is all there is: no end, no pages. -/
def RecordQuery.Plain (query : RecordQuery n V) : Prop :=
  query.until_ = none ∧ query.skip = 0 ∧ query.take = none

theorem watch_advance {tables : Fin n → RowTable (Stored V)} {committed : ℕ}
    {material : List String} {after : Reader n V} (watch : reader.watch = true)
    (advanced : Advanced query authorizer tables committed material reader after) :
    after.watch = true ∧ after.marks = reader.marks := by
  cases advanced with
  | capture => exact ⟨watch, if_pos watch⟩
  | nothing | finish => exact ⟨rfl, rfl⟩
  | _ => exact ⟨watch, rfl⟩

theorem watch_step (watch : world.reader.watch = true) (action : StreamAction n V) :
    (world.step query authorizer action).reader.watch = true ∧
      (world.step query authorizer action).reader.marks = world.reader.marks := by
  cases action with
  | commit shard records =>
    unfold World.step
    rw [World.reader_commit]
    exact ⟨watch, rfl⟩
  | delete shard condition => exact ⟨watch, rfl⟩
  | start now =>
    unfold World.step Reader.start
    split_ifs <;> exact ⟨watch, rfl⟩
  | poll =>
    unfold World.step Reader.poll
    dsimp only
    split
    · split_ifs
      exact ⟨watch, rfl⟩
    · exact ⟨watch, rfl⟩
  | advance material => exact watch_advance watch (advanced _ _ _ _)
  | fail => exact ⟨watch, rfl⟩

theorem marks_run (watch : world.reader.watch = true) (actions : List (StreamAction n V)) :
    (world.run query authorizer actions).reader.marks = world.reader.marks := by
  induction actions generalizing world with
  | nil => rfl
  | cons action actions ih =>
    obtain ⟨watch', same⟩ : (world.step query authorizer action).reader.watch = true ∧
      (world.step query authorizer action).reader.marks = world.reader.marks :=
        watch_step watch action
    exact (ih watch').trans same

/-- **Whatever happens next, the record stands with the stream as it should.** -/
theorem Tracked.Follows.step (h : t.Follows world.reader query)
    (wanted : Wanted query authorizer t.record) (good : world.Good query)
    (plain : world.reader.watch = true ∨ query.Plain)
    (mem : (t.id, t.record) ∈ (world.tables t.shard).rows) (action : StreamAction n V) :
    t.Follows (world.step query authorizer action).reader query := by
  cases action with
  | commit shard records =>
    unfold World.step
    rw [World.reader_commit]
    exact h
  | delete shard condition => exact h
  | start now => exact h.start good.regular now
  | poll => exact h.poll
  | advance material =>
    refine h.advance wanted (fun unread => plain.resolve_left ?_) good.regular
      good.sound.numbered mem (advanced _ _ _ _)
    simp [unread]
  | fail => exact h.of_stage nofun nofun nofun

/-- The record is stored at every moment of a run. -/
def Tracked.Stays (query : RecordQuery n V) (authorizer : Authorizer τ) (t : Tracked n V)
    (world : World n V) (actions : List (StreamAction n V)) : Prop :=
  ∀ part, part <+: actions →
    (t.id, t.record) ∈ ((world.run query authorizer part).tables t.shard).rows

/-- **A record that stays stored stands with the stream as it should, to the end of a run.** -/
theorem follows_run (h : t.Follows world.reader query)
    (wanted : Wanted query authorizer t.record) (good : world.Good query)
    (plain : world.reader.watch = true ∨ query.Plain) {actions : List (StreamAction n V)}
    (stays : t.Stays query authorizer world actions) :
    t.Follows (world.run query authorizer actions).reader query := by
  induction actions generalizing world with
  | nil => exact h
  | cons action actions ih =>
    have now : (t.id, t.record) ∈ (world.tables t.shard).rows := stays [] nil_prefix
    refine ih (h.step wanted good plain now action) (good.step action) ?_ ?_
    · exact plain.imp_left fun watch => (watch_step watch action).1
    · exact fun part initial => stays (action :: part) (cons_prefix_cons.2 ⟨rfl, initial⟩)

/-- A record committed at an id beyond the cursors has not been handed over. -/
theorem follows_new (good : world.Good query) (new : world.committed ≤ t.record.serial)
    (begun : t.begun = world.reader.begun) (ahead : world.reader.cursor t.shard < t.id)
    (missed : ∀ upper, world.reader.stage.upperAt t.shard = some upper → upper < t.id) :
    t.Follows world.reader query := by
  have unhanded : t.record.serial ∉ world.reader.handed :=
    fun mem => absurd (good.sound.reader.lt _ mem) new.not_gt
  unfold Reader.handed at unhanded
  rw [map_append, mem_append, not_or] at unhanded
  have unmarked : ¬ t.record.serial < world.reader.marks t.shard :=
    ((good.sound.reader.marks t.shard).trans new).not_gt
  refine ⟨?_, fun _ _ late => unmarked late.1, fun _ => ahead, fun after => ?_, fun u eq => ?_,
    fun eq le => ?_, fun eq le => ?_, fun eq => ?_⟩
  · exact iff_of_false unhanded.1 fun inside => absurd inside.1 ahead.not_ge
  · have := good.regular.completed_le
    omega
  · refine ⟨fun after => ?_, fun done => absurd done ahead.not_ge, fun _ => ?_⟩
    · omega
    · exact iff_of_false (missed u eq).not_ge unmarked
  · exact absurd (missed _ (by rw [eq]; rfl)) le.not_gt
  · exact absurd (missed _ (by rw [eq]; rfl)) le.not_gt
  · refine iff_of_false ?_ fun inside => absurd (missed _ (by rw [eq]; rfl)) inside.2.1.not_gt
    have rows := congrArg Stage.gathered eq
    simp only [Stage.gathered] at rows
    rw [← rows]
    exact unhanded.2

end Stays

/-! ### Stores that only grow -/

section Grow

variable {world : World n V}

/-- What a transaction of a writer does to the tables. -/
structure Committed (world after : World n V) (shard : Fin n) : Prop where
  kept : ∀ s, ∀ row ∈ (world.tables s).rows, row ∈ (after.tables s).rows
  new : ∀ s, ∀ row ∈ (after.tables s).rows, row ∈ (world.tables s).rows ∨
    s = shard ∧ (world.tables shard).maxId < row.1 ∧ world.committed ≤ row.2.serial
  committed : world.committed ≤ after.committed
  maxId : ∀ s, (world.tables s).maxId ≤ (after.tables s).maxId

theorem maxId_store (shard s : Fin n) (record : ℤ × Row V) :
    (world.tables s).maxId ≤ ((world.store shard record).tables s).maxId := by
  unfold World.store
  rcases eq_or_ne s shard with rfl | ne
  · simp
  · simp [ne]

theorem committed_commit (shard : Fin n) (records : List (ℤ × Row V)) :
    Committed world (world.commit shard records) shard := by
  refine List.foldlRecOn (motive := fun after => Committed world after shard) records _
    ⟨fun _ _ mem => mem, fun _ _ mem => .inl mem, le_rfl, fun _ => le_rfl⟩ ?_
  intro after h record _
  refine ⟨fun s row mem => mem_store.2 (.inl (h.kept s row mem)), fun s row mem => ?_,
    h.committed.trans (Nat.le_succ _), fun s => (h.maxId s).trans (maxId_store shard s record)⟩
  rcases mem_store.1 mem with old | ⟨rfl, rfl⟩
  · exact h.new s row old
  · exact .inr ⟨rfl, Nat.lt_succ_of_le (h.maxId s), h.committed⟩

/-- An action that deletes nothing. -/
def StreamAction.Grows : StreamAction n V → Prop
  | .delete _ _ => False
  | _ => True

theorem mem_step (action : StreamAction n V) (grows : action.Grows) {s : Fin n} {row : ℕ × Stored V}
    (mem : row ∈ (world.tables s).rows) :
    row ∈ ((world.step query authorizer action).tables s).rows := by
  cases action with
  | commit shard records => exact (committed_commit shard records).kept s row mem
  | delete shard condition => exact absurd grows id
  | start now => exact mem
  | poll => exact mem
  | advance material => exact mem
  | fail => exact mem

theorem mem_run {actions : List (StreamAction n V)} (grows : ∀ action ∈ actions, action.Grows)
    {s : Fin n} {row : ℕ × Stored V} (mem : row ∈ (world.tables s).rows) :
    row ∈ ((world.run query authorizer actions).tables s).rows := by
  refine List.foldlRecOn (motive := fun w : World n V => row ∈ (w.tables s).rows) actions _ mem ?_
  intro w inside action here
  exact mem_step action (grows action here) inside

/-- The cursors of a table, the stream's and the one captured by the pass under way, are not
beyond its largest id. -/
def World.AbreastAt (world : World n V) (s : Fin n) : Prop :=
  world.reader.cursor s ≤ (world.tables s).maxId ∧
    ∀ upper, world.reader.stage.upperAt s = some upper → upper ≤ (world.tables s).maxId

/-- No cursor is beyond the ids of its table. -/
def World.Abreast (world : World n V) : Prop := ∀ s, world.AbreastAt s

theorem abreast_advance {tables : Fin n → RowTable (Stored V)} {committed : ℕ}
    {material : List String} {reader after : Reader n V}
    (h : ∀ s, reader.cursor s ≤ (tables s).maxId ∧
      ∀ upper, reader.stage.upperAt s = some upper → upper ≤ (tables s).maxId)
    (advanced : Advanced query authorizer tables committed material reader after) (s : Fin n) :
    after.cursor s ≤ (tables s).maxId ∧
      ∀ upper, after.stage.upperAt s = some upper → upper ≤ (tables s).maxId := by
  cases advanced with
  | idle => exact h s
  | @capture upper shard phase =>
    refine ⟨(h s).1, fun u eq => ?_⟩
    simp only [Reader.capture, Stage.upperAt] at eq
    split_ifs at eq with before
    obtain rfl := Option.some.inj eq
    rcases eq_or_ne s shard with rfl | ne
    · rw [Function.update_self]
    · rw [Function.update_of_ne ne]
      refine (h s).2 _ ?_
      rw [phase]
      exact if_pos (lt_of_le_of_ne (Nat.lt_succ_iff.1 before) (Fin.val_ne_of_ne ne))
  | unchanged => exact ⟨(h s).1, fun _ eq => by cases eq⟩
  | look phase all => exact ⟨(h s).1, fun u eq => (h s).2 u ((upperAt_capturing phase all s).trans eq)⟩
  | nothing phase all => exact ⟨(h s).2 _ (upperAt_capturing phase all s), fun _ eq => by cases eq⟩
  | discover phase | allow phase | scan phase => exact ⟨(h s).1, fun u eq => (h s).2 u (by rwa [phase])⟩
  | finish phase => exact ⟨(h s).2 _ (by rw [phase]; rfl), fun _ eq => by cases eq⟩
  | fail => exact ⟨(h s).1, fun _ eq => by cases eq⟩

theorem World.Abreast.step (h : world.Abreast) (action : StreamAction n V) (grows : action.Grows) :
    (world.step query authorizer action).Abreast := by
  cases action with
  | commit shard records =>
    intro s
    have le : (world.tables s).maxId ≤ ((world.commit shard records).tables s).maxId :=
      (committed_commit shard records).maxId s
    unfold World.step World.AbreastAt
    rw [World.reader_commit]
    exact ⟨(h s).1.trans le, fun u eq => ((h s).2 u eq).trans le⟩
  | delete shard condition => exact absurd grows id
  | start now =>
    intro s
    unfold World.step Reader.start World.AbreastAt
    split_ifs
    · exact ⟨(h s).1, fun u eq => by simp [Reader.begin, Stage.upperAt] at eq⟩
    · exact h s
  | poll =>
    intro s
    unfold World.step Reader.poll World.AbreastAt
    dsimp only
    split
    · split_ifs
      · exact ⟨(h s).1, fun u eq => by simp [Reader.begin, Stage.upperAt] at eq⟩
      · exact h s
    · exact h s
  | advance material => exact abreast_advance h (advanced _ _ _ _)
  | fail => exact fun s => ⟨(h s).1, fun _ eq => by cases eq⟩

theorem World.Abreast.run (h : world.Abreast) {actions : List (StreamAction n V)}
    (grows : ∀ action ∈ actions, action.Grows) : (world.run query authorizer actions).Abreast := by
  refine List.foldlRecOn actions _ h ?_
  intro w h action here
  exact h.step action (grows action here)

theorem abreast_empty : (World.empty : World n V).Abreast := fun _ => ⟨le_rfl, nofun⟩

end Grow

/-! ### A record that is never handed over -/

section Lost

variable {world : World n V} {serial : ℕ}

/-- A record that is behind the cursors, if it is stored, and has not been handed over. -/
structure World.Lost (world : World n V) (serial : ℕ) : Prop where
  lt : serial < world.committed
  unhanded : serial ∉ world.reader.handed
  behind : world.reader.Behind world.tables serial

theorem World.Lost.of_tables (h : world.Lost serial) {tables : Fin n → RowTable (Stored V)}
    {committed : ℕ} (le : world.committed ≤ committed)
    (rows : ∀ s, ∀ row ∈ (tables s).rows,
      row ∈ (world.tables s).rows ∨ world.committed ≤ row.2.serial) :
    World.Lost ⟨tables, committed, world.reader⟩ serial := by
  refine ⟨h.lt.trans_le le, h.unhanded, fun s row mem same => ?_⟩
  rcases rows s row mem with old | new
  · exact h.behind s row old same
  · rw [same] at new
    exact absurd h.lt new.not_gt

theorem World.Lost.of_reader (h : world.Lost serial) {reader : Reader n V}
    (handed : reader.handed ⊆ world.reader.handed) (behind : reader.Behind world.tables serial) :
    World.Lost { world with reader := reader } serial :=
  ⟨h.lt, fun mem => h.unhanded (handed mem), behind⟩

theorem handed_begin_subset (reader : Reader n V) : reader.begin.handed ⊆ reader.handed := by
  exact map_subset _ (append_subset.2
    ⟨subset_append_left _ _, nil_subset _⟩)

/-- A read hands over no record that is behind the cursors. -/
theorem lost_advance (h : world.Lost serial) {material : List String} {after : Reader n V}
    (advanced : Advanced query authorizer world.tables world.committed material world.reader after) :
    serial ∉ after.handed := by
  have emitted : serial ∉ world.reader.emitted.map Found.serial := fun mem => h.unhanded (by
    rw [Reader.handed, map_append]
    exact mem_append_left _ mem)
  have gathered : serial ∉ world.reader.stage.gathered.map Found.serial := fun mem => h.unhanded (by
    rw [Reader.handed, map_append]
    exact mem_append_right _ mem)
  have finished (upper : Fin n → ℕ) (rows : List (Found n V))
      (rest : serial ∉ rows.map Found.serial) :
      serial ∉ (world.reader.finish query upper rows).handed := by
    have handed : (world.reader.finish query upper rows).handed = world.reader.emitted.map Found.serial ++
        (query.arrange world.reader.watch rows).map Found.serial := by
      unfold Reader.handed Reader.finish
      simp only [Stage.gathered, append_nil, map_append, serials_project]
    rw [handed, mem_append, not_or]
    exact ⟨emitted, fun mem => rest ((arrange_subperm _ rows).subset mem)⟩
  unfold Reader.handed
  cases advanced with
  | idle => exact h.unhanded
  | nothing => exact finished _ _ not_mem_nil
  | finish phase =>
    refine finished _ _ fun mem => gathered ?_
    rw [phase]
    exact mem
  | scan phase ok =>
    simp only [Stage.gathered]
    rw [phase] at gathered
    rw [← append_assoc, map_append, map_append, mem_append, mem_append]
    rintro ((before | now) | more)
    · exact emitted before
    · exact gathered now
    · obtain ⟨row, inside, same⟩ := mem_map.1 ((scanTable_sublist ok).subset more)
      obtain ⟨mem, hands⟩ := mem_filter.1 inside
      obtain ⟨-, -, above, -⟩ := handsOver_iff.1 hands
      exact absurd (h.behind _ row mem same).1 above.not_ge
  | _ =>
    simp only [Reader.capture, Reader.fail, Stage.gathered, append_nil]
    exact emitted

theorem World.Lost.step (h : world.Lost serial) (action : StreamAction n V) :
    (world.step query authorizer action).Lost serial := by
  cases action with
  | commit shard records =>
    have committed : Committed world (world.commit shard records) shard :=
      committed_commit shard records
    have := h.of_tables committed.committed fun s row mem =>
      (committed.new s row mem).imp_right fun new => new.2.2
    rwa [← World.reader_commit shard records] at this
  | delete shard condition => exact h.of_tables le_rfl fun s row mem => .inl (mem_delete mem)
  | start now =>
    unfold World.step Reader.start
    split_ifs
    · exact h.of_reader (handed_begin_subset world.reader) h.behind.begin
    · exact h
  | poll =>
    unfold World.step Reader.poll
    dsimp only
    split
    · split_ifs
      · exact h.of_reader (handed_begin_subset world.reader) h.behind.begin
      · exact h
    · exact h
  | advance material =>
    exact ⟨h.lt, lost_advance h (advanced _ _ _ _), h.behind.advance (advanced _ _ _ _)⟩
  | fail =>
    refine h.of_reader ?_ (h.behind.of_stage rfl nofun)
    exact map_subset _ (append_subset.2
      ⟨subset_append_left _ _, nil_subset _⟩)

theorem lost_of_rest (rest : world.reader.stage = .rest) (lt : serial < world.committed)
    (unhanded : serial ∉ world.reader.emitted.map Found.serial)
    (behind : ∀ s, ∀ row ∈ (world.tables s).rows, row.2.serial = serial →
      row.1 ≤ world.reader.cursor s) : world.Lost serial := by
  refine ⟨lt, ?_, fun s row mem same => ⟨behind s row mem same, ?_⟩⟩
  · have none : world.reader.stage.gathered = [] := by rw [rest]; rfl
    rwa [Reader.handed, none, append_nil]
  · rw [rest]
    intro upper eq
    cases eq

/-- **A record that is behind the cursors is never handed over.** -/
theorem lost_run (h : world.Lost serial) (actions : List (StreamAction n V)) :
    serial ∉ (world.run query authorizer actions).reader.emitted.map Found.serial := by
  have lost : (world.run query authorizer actions).Lost serial := by
    refine List.foldlRecOn (motive := fun w : World n V => w.Lost serial) actions _ h ?_
    intro w h action _
    exact h.step action
  intro mem
  refine lost.unhanded ?_
  rw [Reader.handed, map_append]
  exact mem_append_left _ mem

end Lost

/-! ### Every record once -/

section Once

variable {world final : World n V} {before after : List (StreamAction n V)} {shard : Fin n}
  {records : List (ℤ × Row V)} {id : ℕ} {record : Stored V}

/-- A record is stored by a transaction. -/
def World.Stores (world : World n V) (shard : Fin n) (records : List (ℤ × Row V)) (id : ℕ)
    (record : Stored V) : Prop :=
  (id, record) ∈ ((world.commit shard records).tables shard).rows ∧
    world.committed ≤ record.serial

/-- The record, and the passes begun when it was committed. -/
def World.track (world : World n V) (shard : Fin n) (id : ℕ) (record : Stored V) : Tracked n V :=
  ⟨shard, id, record, world.reader.begun⟩

/-- A record stored while the cursors are not beyond its table is beyond them. -/
theorem follows_stored (good : world.Good query) (abreast : world.AbreastAt shard)
    (stored : world.Stores shard records id record) :
    (world.track shard id record).Follows (world.commit shard records).reader query := by
  have beyond : (world.tables shard).maxId < id := by
    rcases (committed_commit shard records).new shard _ stored.1 with old | ⟨-, beyond, -⟩
    · exact absurd (good.sound.numbered.lt shard _ old) stored.2.not_gt
    · exact beyond
  rw [World.reader_commit]
  exact follows_new good stored.2 rfl (abreast.1.trans_lt beyond)
    fun upper eq => (abreast.2 upper eq).trans_lt beyond

theorem good_commit (good : world.Good query) : (world.commit shard records).Good query := by
  refine ⟨good.sound.commit shard records, ?_⟩
  rw [World.reader_commit]
  exact good.regular

theorem nodup_emitted (good : final.Good query) :
    (final.reader.emitted.map Found.serial).Nodup := by
  have nodup := good.sound.reader.nodup
  rw [Reader.handed, map_append] at nodup
  exact nodup.sublist (sublist_append_left _ _)

/-- **Without deletions a stream loses nothing but what is stored before it captures its
first cursor, with a time not before the clock it read first.** -/
theorem streamed_once_iff (plain : query.Plain) (grows : ∀ action ∈ before ++ after, action.Grows)
    (start : world = World.empty.run query authorizer before)
    (stored : world.Stores shard records id record)
    (eq : final = (world.commit shard records).run query authorizer after)
    (wanted : Wanted query authorizer record)
    (since : (world.track shard id record).InRange final.reader query)
    (polled : world.reader.begun < final.reader.completed) :
    (final.reader.emitted.map Found.serial).count record.serial = 1 ↔
      ¬ (record.serial < final.reader.marks shard ∧ final.reader.evaluation ≤ record.time) := by
  have good : world.Good query := start ▸ World.good_empty.run before
  have abreast : world.Abreast := by
    rw [start]
    exact abreast_empty.run fun action mem => grows action (mem_append_left _ mem)
  have grows' : ∀ action ∈ after, action.Grows :=
    fun action mem => grows action (mem_append_right _ mem)
  have follows : (world.track shard id record).Follows final.reader query := by
    rw [eq]
    refine follows_run (follows_stored good (abreast shard) stored) wanted (good_commit good)
      (.inr plain) fun part initial => ?_
    exact mem_run (fun action mem => grows' action (initial.subset mem)) stored.1
  have handed : record.serial ∈ final.reader.emitted.map Found.serial ↔
      ¬ (record.serial < final.reader.marks shard ∧ final.reader.evaluation ≤ record.time) := by
    refine follows.emitted.trans ⟨fun h => h.2.2, fun h => ⟨follows.completed polled, since, h⟩⟩
  have good' : final.Good query := eq ▸ (good_commit good).run after
  rw [← handed]
  constructor
  · intro once
    exact count_pos_iff.1 (by omega)
  · exact count_eq_one_of_mem (nodup_emitted good')

/-- **With deletions nothing is handed over twice, and nothing is lost that is committed while
the cursors are not beyond the ids of its table.** -/
theorem watch_delivers (start : world = World.empty.run query authorizer before)
    (eq : final = (world.commit shard records).run query authorizer after) :
    (final.reader.emitted.map Found.serial).Nodup ∧
      (world.reader.watch = true → world.AbreastAt shard →
        world.Stores shard records id record → Wanted query authorizer record →
        (world.track shard id record).Stays query authorizer (world.commit shard records) after →
        (world.track shard id record).InRange final.reader query →
        world.reader.begun < final.reader.completed →
          record.serial ∈ final.reader.emitted.map Found.serial) := by
  have good : world.Good query := start ▸ World.good_empty.run before
  have good' : final.Good query := eq ▸ (good_commit good).run after
  refine ⟨nodup_emitted good', fun watch abreast stored wanted stays since polled => ?_⟩
  have follows : (world.track shard id record).Follows final.reader query := by
    rw [eq]
    refine follows_run (follows_stored good abreast stored) wanted (good_commit good) (.inl ?_) stays
    rwa [World.reader_commit]
  -- a record committed after the first result was not stored before the first cursor
  have marks : final.reader.marks = world.reader.marks := by
    rw [eq, marks_run (by rwa [World.reader_commit]), World.reader_commit]
  refine follows.emitted.2 ⟨follows.completed polled, since, fun late => ?_⟩
  have before : record.serial < final.reader.marks shard := late.1
  rw [marks] at before
  exact absurd (before.trans_le ((good.sound.reader.marks shard).trans stored.2)) (lt_irrefl _)

end Once

/-! ### What a stream shows -/

section Readable

open Fallible

variable {reader after : Reader n V} {rows : List (Found n V)} {found : Found n V}

/-- The caller may read the fields of a row and those that the query refers to. -/
def Readable (query : RecordQuery n V) (authorizer : Authorizer τ) (found : Found n V) : Prop :=
  ∃ dacl, authorizer.descriptors query.source found.row.identifier = some dacl ∧
    ∀ field ∈ found.row.keys ++ query.referenced,
      FirstAllows (rules dacl authorizer.caller) query.source.rootGuid field

theorem Readable.project (h : Readable query authorizer found) :
    Readable query authorizer (query.project found) := by
  obtain ⟨dacl, descriptor, allows⟩ := h
  unfold RecordQuery.project
  split_ifs
  · exact ⟨dacl, descriptor, allows⟩
  · refine ⟨dacl, descriptor, fun field mem => allows field ?_⟩
    exact ((filter_sublist.map Prod.fst).append_right _).subset mem

theorem readable_visit {bounds : Bounds} {shard : Fin n} {row : ℕ × Stored V}
    (h : visit query authorizer bounds shard row = .ok rows) (mem : found ∈ rows) :
    Readable query authorizer found := by
  have shown : authorizeRow authorizer query.source row.2.row query.referenced =
      .ok (some found.row) := by
    simp only [visit, bind, Except.bind, pure, Except.pure] at h
    grind
  cases descriptor : authorizer.descriptors query.source row.2.row.identifier with
  | none => exact absurd shown (authorizeRow_of_no_descriptor descriptor)
  | some dacl =>
    obtain ⟨-, -, referenced, is⟩ := (authorizeRow_eq_ok descriptor).1 shown
    rw [Readable, is]
    refine ⟨dacl, descriptor, fun field mem => readable_iff_firstAllows.1 ?_⟩
    rcases mem_append.1 mem with own | asked
    · obtain ⟨entry, inside, rfl⟩ := mem_map.1 own
      exact (mem_filter.1 inside).2
    · exact referenced field asked

theorem readable_scanTable {bounds : Bounds} {lower upper : ℕ} {material : List String}
    {shard : Fin n} {table : RowTable (Stored V)}
    (h : scanTable query authorizer bounds lower upper material shard table = .ok rows) :
    ∀ found ∈ rows, Readable query authorizer found := by
  refine foldlM_invariant (fun _ rows => ∀ found ∈ rows, Readable query authorizer found)
    (fun _ row rows rows' ih turn => ?_) (forall_mem_nil _) h
  obtain ⟨more, visited, turn⟩ := bind_eq_ok.1 turn
  obtain rfl := Except.ok.inj turn
  exact forall_mem_append.2 ⟨ih, fun _ => readable_visit visited⟩

theorem arrange_subset (watch : Bool) (rows : List (Found n V)) :
    query.arrange watch rows ⊆ rows := by
  unfold RecordQuery.arrange
  split_ifs
  · exact Subset.refl _
  · have sorted := (perm_insertionSort (fun a b => query.order a b = true) rows).subset
    cases query.take with
    | none => exact fun _ mem => sorted (drop_subset _ _ mem)
    | some take => exact fun _ mem => sorted (drop_subset _ _ (take_subset _ _ mem))

/-- Every row that is handed over or about to be is readable. -/
def Reader.Readable (query : RecordQuery n V) (authorizer : Authorizer τ) (reader : Reader n V) :
    Prop := ∀ found ∈ reader.emitted ++ reader.stage.gathered, Eventd.Readable query authorizer found

theorem Reader.Readable.of_stage (h : reader.Readable query authorizer)
    (same : after.emitted = reader.emitted) (none : after.stage.gathered = []) :
    after.Readable query authorizer := by
  rw [Reader.Readable, same, none, append_nil]
  exact (forall_mem_append.1 h).1

theorem Reader.Readable.advance {tables : Fin n → RowTable (Stored V)} {committed : ℕ}
    {material : List String} (h : reader.Readable query authorizer)
    (advanced : Advanced query authorizer tables committed material reader after) :
    after.Readable query authorizer := by
  obtain ⟨emitted, gathered⟩ := forall_mem_append.1 h
  have finished (upper : Fin n → ℕ) {rows : List (Found n V)}
      (rest : ∀ found ∈ rows, Eventd.Readable query authorizer found) :
      (reader.finish query upper rows).Readable query authorizer := by
    unfold Reader.Readable Reader.finish
    simp only [Stage.gathered, append_nil, forall_mem_append, forall_mem_map]
    exact ⟨emitted, fun found mem => (rest found (arrange_subset _ _ mem)).project⟩
  cases advanced with
  | idle => exact h
  | nothing => exact finished _ (forall_mem_nil _)
  | finish phase =>
    rw [phase] at gathered
    exact finished _ gathered
  | scan phase ok =>
    rw [phase] at gathered
    exact forall_mem_append.2 ⟨emitted, forall_mem_append.2 ⟨gathered, readable_scanTable ok⟩⟩
  | _ => exact h.of_stage rfl rfl

theorem readable_step {world : World n V} (h : world.reader.Readable query authorizer)
    (action : StreamAction n V) :
    (world.step query authorizer action).reader.Readable query authorizer := by
  cases action with
  | commit => rwa [World.step, World.reader_commit]
  | delete => exact h
  | start now =>
    unfold World.step Reader.start
    split_ifs
    · exact h.of_stage rfl rfl
    · exact h
  | poll =>
    unfold World.step Reader.poll
    dsimp only
    split
    · split_ifs
      · exact h.of_stage rfl rfl
      · exact h
    · exact h
  | advance => exact h.advance (advanced _ _ _ _)
  | fail => exact h.of_stage rfl rfl

/-- **A stream shows only what its caller may read**, whatever is committed and deleted meanwhile:
of every row that is handed over, or found by the pass under way, the caller may read each field
that is shown and each that the query refers to, by the first entry of the descriptor that speaks
of the field. -/
theorem streamed_only_readable (actions : List (StreamAction n V)) :
    let reader := (World.empty.run query authorizer actions).reader
    ∀ found ∈ reader.emitted ++ reader.stage.gathered, Readable query authorizer found :=
  List.foldlRecOn (motive := fun world => world.reader.Readable query authorizer) actions
    (World.step query authorizer) (forall_mem_nil _) fun _ h action _ => readable_step h action

end Readable

/-! ### Two streams over the logs -/

/-- A caller who may read every log. -/
def allLogs : Authorizer Bool := ⟨id, fun _ _ => some [allowing true]⟩

/-- The query for every log. -/
def everyLog : RecordQuery 1 ℕ where
  source := .logs
  since := none
  until_ := none
  selects _ := true
  asks _ := true
  predicates _ := true
  referenced := []
  pushed _ _ := true
  order a b := decide (b.time ≤ a.time)
  skip := 0
  take := none
  select := []

/-- A log. -/
def appLog : Row ℕ := ⟨"app", [("message", 7)]⟩

/-- The reads of a pass that finds something to look at. -/
def wholePass : List (StreamAction 1 ℕ) := List.replicate 6 (.advance [])

theorem wanted_appLog (serial : ℕ) {time : ℤ} (before : time < i64Max) :
    Wanted everyLog allLogs ⟨serial, time, appLog⟩ where
  selected := rfl
  granted := by
    show allLogs.mayRead .logs "app" [] = .ok true
    decide +kernel
  asked := rfl
  shown := by
    refine ⟨appLog, ?_, rfl⟩
    show authorizeRow allLogs .logs appLog [] = .ok (some appLog)
    decide +kernel
  pushed _ := rfl
  before := before

theorem inRange_everyLog {serial begun id : ℕ} {time : ℤ} {reader : Reader 1 ℕ} (epoch : 0 ≤ time) :
    (⟨0, id, ⟨serial, time, appLog⟩, begun⟩ : Tracked 1 ℕ).InRange reader everyLog := by
  intro since given range
  have zero : (0 : ℤ) = since := congrArg Prod.fst (Option.some.inj range)
  rwa [← zero]

theorem grows_wholePass : ∀ action ∈ wholePass, action.Grows := by
  intro action mem
  rw [eq_of_mem_replicate mem]
  trivial

/-- A log stored before the stream begins, and the first result. -/
def oldLog : World 1 ℕ :=
  (World.empty.commit 0 [(50, appLog)]).run everyLog allLogs (.start 100 :: wholePass)

/-- It is handed over once. -/
theorem streamed_once_oldLog :
    (oldLog.reader.emitted.map Found.serial).count 0 = 1 :=
  (@streamed_once_iff ℕ Bool 1 everyLog allLogs World.empty oldLog [] (.start 100 :: wholePass) 0
    [(50, appLog)] 1 ⟨0, 50, appLog⟩ ⟨rfl, rfl, rfl⟩
    (forall_mem_cons.2 ⟨trivial, grows_wholePass⟩) rfl ⟨by decide +kernel, le_rfl⟩ rfl
    (wanted_appLog 0 (by decide)) (inRange_everyLog (by decide)) (by decide +kernel)).2
    (by decide +kernel)

/-- A log stored after `start_stream` has read the clock and before it captures the cursor;
the first result, and a poll. -/
def lateLog : World 1 ℕ :=
  World.empty.run everyLog allLogs
    (.start 100 :: .commit 0 [(150, appLog)] :: wholePass ++ [.poll, .advance [], .advance []])

/-- It is stored and wanted, and no poll will ever hand it over. -/
theorem late_log_never_streamed :
    Wanted everyLog allLogs ⟨0, 150, appLog⟩ ∧ (1, ⟨0, 150, appLog⟩) ∈ (lateLog.tables 0).rows ∧
      lateLog.reader.completed = 2 ∧
        ∀ actions, 0 ∉ (lateLog.run everyLog allLogs actions).reader.emitted.map Found.serial :=
  ⟨wanted_appLog 0 (by decide), by decide +kernel, by decide +kernel,
    lost_run (lost_of_rest (by decide +kernel) (by decide +kernel) (by decide +kernel)
      (by decide +kernel))⟩

/-- A stream over an empty store, after its first result. -/
def watching : World 1 ℕ := World.empty.run everyLog allLogs (.start 100 :: wholePass)

/-- A log committed then is handed over by the next poll. -/
theorem watch_delivers_next_log :
    let final := (watching.commit 0 [(150, appLog)]).run everyLog allLogs (.poll :: wholePass)
    final.reader.completed = 2 ∧ 0 ∈ final.reader.emitted.map Found.serial := by
  refine ⟨by decide +kernel, ?_⟩
  refine (@watch_delivers ℕ Bool 1 everyLog allLogs watching _ (.start 100 :: wholePass)
    (.poll :: wholePass) 0 [(150, appLog)] 1 ⟨0, 150, appLog⟩ rfl rfl).2 (by decide +kernel)
    ⟨by decide +kernel, ?_⟩ ⟨by decide +kernel, by decide +kernel⟩ (wanted_appLog 0 (by decide)) ?_
    (inRange_everyLog (by decide)) (by decide +kernel)
  · have rest : watching.reader.stage = .rest := by decide +kernel
    rw [rest]
    exact nofun
  · intro part initial
    refine mem_run (fun action mem => ?_) (by decide +kernel)
    exact forall_mem_cons.2 ⟨trivial, grows_wholePass⟩ action (initial.subset mem)

/-- Two logs and the first result; then retention deletes the second, a writer stores a third
in its place, and a poll follows. -/
def reusedId : World 1 ℕ :=
  World.empty.run everyLog allLogs
    (.commit 0 [(50, appLog), (60, appLog)] :: .start 100 :: wholePass ++
      [.delete 0 fun row => row.1 == 2, .commit 0 [(150, appLog)], .poll, .advance [], .advance []])

/-- The third log is stored and wanted, and no poll will ever hand it over. -/
theorem reused_id_never_streamed :
    Wanted everyLog allLogs ⟨2, 150, appLog⟩ ∧ (2, ⟨2, 150, appLog⟩) ∈ (reusedId.tables 0).rows ∧
      reusedId.reader.completed = 2 ∧
        ∀ actions, 2 ∉ (reusedId.run everyLog allLogs actions).reader.emitted.map Found.serial :=
  ⟨wanted_appLog 2 (by decide), by decide +kernel, by decide +kernel,
    lost_run (lost_of_rest (by decide +kernel) (by decide +kernel) (by decide +kernel)
      (by decide +kernel))⟩

end Eventd
