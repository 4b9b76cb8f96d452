import Eventd.Daemon.LostBatches

/-!
# Replies of a shard writer

Data and control share the queue of a shard writer.  A barrier, a daemon-generated event and a
maintenance command each carry the sender of a channel, on which the writer replies when it meets
the message: while it waits, in the middle of a batch, after a commit that failed or, without a
reply, in the drain of `WriterExit`.  The sender lives in its slot of the queue until the writer
takes the message, and is dropped with it.

The queue is taken at its interface: slots in the order in which they were claimed, which their
producers publish or cancel at any time, and which the consumer takes in order; a claim that meets
a closed queue is given up.

* `IngestItem.Settled`: an item has been committed or has entered the list of lost ranges;
* `settled_finishBatch`: the items of a batch are settled before a control message is handled;
* `WriterLoop`, `WriterLoop.step`: the loop with its queue;
* `WriterLoop.Invariant`, `WriterLoop.invariant_run`: what every run preserves;
* `WriterLoop.replies_in_order`: no reply before the items ahead of it are settled, none twice,
  and no channel left open.
-/

namespace Eventd

open List

/-! ### Settled items -/

/-- An item has been committed, or its ranges have entered the list of lost ones. -/
def IngestItem.Settled (item : IngestItem) (log : List Effect) : Prop :=
  (∀ row ∈ item.rows, .wrote row ∈ log) ∨
    ∀ range ∈ lostRanges [item], .lost range.1 range.2 ∈ log

theorem IngestItem.Settled.mono {item : IngestItem} {log log' : List Effect}
    (settled : item.Settled log) (sub : log <+: log') : item.Settled log' :=
  settled.imp (fun wrote row mem => sub.subset (wrote row mem))
    fun lost range mem => sub.subset (lost range mem)

namespace Writer

theorem log_le_took (w : Writer) (left : Shard) : w.log <+: (w.took left).log :=
  prefix_append _ _

theorem log_rule (ctx : WriterContext) (w : Writer) :
    ControlRule ctx (fun w' => w.log <+: w'.log) fun w' => w.log <+: w'.log :=
  .of_shard (fun h _ => h) fun h _ => h.trans (log_le_took _ _)

theorem log_handleControl (ctx : WriterContext) (w : Writer) (message : Control) :
    w.log <+: (w.handleControl ctx message).1.log :=
  ((log_rule ctx w).handleControl prefix_rfl message).kept

/-- The log grows while a batch is dealt with, and has settled its items then. -/
def Settling (w : Writer) : Bool → Writer → Prop
  | false, w' => w.log <+: w'.log ∧ w'.batch = w.batch
  | true, w' => w.log <+: w'.log ∧ ∀ item ∈ w.batch, item.Settled w'.log

theorem settled_refused (w : Writer) : ∀ item ∈ w.batch, item.Settled w.refused.log := by
  intro item mem
  refine .inr fun range own => mem_append_right _ (mem_map.2 ⟨range, ?_, rfl⟩)
  obtain ⟨same, here, inside⟩ := mem_flatMap.1 own
  obtain rfl := mem_singleton.1 here
  exact mem_flatMap.2 ⟨same, mem, inside⟩

theorem settled_took {w : Writer} {left : Shard}
    (rows : left.eventRows = w.shard.eventRows ++ w.batch.flatMap IngestItem.rows) :
    ∀ item ∈ w.batch, item.Settled (w.took left).log := by
  intro item mem
  refine .inl fun row own => ?_
  rw [log_took rows]
  exact mem_append_right _ (mem_map_of_mem (mem_flatMap.2 ⟨item, mem, own⟩))

theorem settling_rule (ctx : WriterContext) (w : Writer) :
    BatchRule ctx w.Settling w.Settling where
  control
    | false => (log_rule ctx w).and (.of_shard (fun h _ => h) fun h _ => h)
    | true => (log_rule ctx w).and
        (.of_shard (fun h _ => h) fun h _ item mem => (h item mem).mono (log_le_took _ _))
  empty h none := ⟨h.1, by rw [← h.2, none]; nofun⟩
  record h _ :=
    have grown := h.1.trans (log_le_took _ _)
    ⟨⟨grown, h.2⟩, grown, h.2⟩
  store h _ rows :=
    have grown := h.1.trans (log_le_took _ _)
    ⟨⟨grown, h.2 ▸ settled_took rows⟩, grown, h.2⟩
  refuse h := ⟨h.1.trans (prefix_append _ _), h.2 ▸ settled_refused _⟩
  refuseKept h := ⟨h.1.trans (prefix_append _ _), h.2 ▸ settled_refused _⟩

variable {ctx : WriterContext} {w : Writer}

theorem log_prefix_finishBatch (ctx : WriterContext) (w : Writer) (io : BatchIo) :
    w.log <+: (w.finishBatch ctx io).log := by
  obtain ⟨moved, settling⟩ := ((settling_rule ctx w).commitBatch ⟨prefix_rfl, rfl⟩ io).kept
  have grown : w.log <+: (w.commitBatch ctx io).1.log := by
    cases moved <;> exact settling.1
  unfold finishBatch
  split <;> next eq => rw [eq] at grown; exact grown

/-- A batch that was dealt with is committed or on the list. -/
theorem settled_finishBatch {io : BatchIo} (running : (w.finishBatch ctx io).returned = none) :
    (w.finishBatch ctx io).batch = [] ∧
      ∀ item ∈ w.batch, item.Settled (w.finishBatch ctx io).log := by
  have settled := ((settling_rule ctx w).commitBatch ⟨prefix_rfl, rfl⟩ io).live ()
  unfold finishBatch at running ⊢
  split at running
  · next eq =>
    rw [eq] at settled
    exact ⟨rfl, (settled rfl).2⟩
  · cases running

theorem log_orReturn (outcome : Writer × Except ShardError Unit) :
    (orReturn outcome).log = outcome.1.log := by
  obtain ⟨w, ⟨⟩ | ⟨⟩⟩ := outcome <;> rfl

theorem log_prefix_step (ctx : WriterContext) (w : Writer) (input : Input) :
    w.log <+: (w.step ctx input).log := by
  unfold step
  split_ifs
  · exact prefix_rfl
  have is := turned ctx w input
  generalize w.turn ctx input = w' at is ⊢
  cases is with
  | pushed | filling => exact prefix_rfl
  | filled item size _ io => exact log_prefix_finishBatch ctx (w.push item size) io
  | stopped _ io | emptied io => exact log_prefix_finishBatch ctx w io
  | handled message io =>
    rw [log_orReturn]
    exact (log_prefix_finishBatch ctx w io).trans (log_handleControl ctx _ message)
  | converged io =>
    rw [log_orReturn]
    exact ((log_rule ctx w).convergeOnce prefix_rfl io).kept

theorem log_prefix_close (ctx : WriterContext) (w : Writer) (io : BatchIo) :
    w.log <+: (w.close ctx io).log := by
  have first := log_prefix_finishBatch ctx w io
  unfold close
  dsimp only
  split_ifs
  · exact prefix_rfl
  · exact first
  · exact first

end Writer

/-- The item of an input. -/
def Input.item? : Input → Option IngestItem
  | .item taken _ _ _ => some taken
  | _ => none

namespace Writer

variable {ctx : WriterContext} {w : Writer}

/-- While the loop goes on, an item taken is in the batch or settled. -/
theorem settled_step {input : Input} (running : (w.step ctx input).returned = none) :
    ∀ item, item ∈ w.batch ∨ input.item? = some item →
      item ∈ (w.step ctx input).batch ∨ item.Settled (w.step ctx input).log := by
  unfold step at running ⊢
  split_ifs at running ⊢ with ended
  · rw [running] at ended
    cases ended
  have is := turned ctx w input
  generalize w.turn ctx input = w' at is running ⊢
  have pushed {item other : IngestItem} {size : ℕ} (mem : other ∈ w.batch ∨ some item = some other) :
      other ∈ (w.push item size).batch :=
    mem.elim (mem_append_left _) fun same =>
      mem_append_right _ (mem_singleton.2 (Option.some.inj same).symm)
  cases is with
  | pushed => exact fun other mem => .inl (pushed mem)
  | filled => exact fun other mem => .inr ((settled_finishBatch running).2 other (pushed mem))
  | stopped message io failed =>
    rw [running] at failed
    cases failed
  | handled message io going =>
    rintro other (mem | none)
    · refine .inr (((settled_finishBatch going).2 other mem).mono ?_)
      rw [log_orReturn]
      exact log_handleControl ctx _ message
    · cases none
  | emptied =>
    rintro other (mem | none)
    · exact .inr ((settled_finishBatch running).2 other mem)
    · cases none
  | converged io empty =>
    rintro other (mem | none)
    · rw [empty] at mem
      cases mem
    · cases none
  | filling =>
    rintro other (mem | none)
    · exact .inl mem
    · cases none

theorem returned_close (ctx : WriterContext) (w : Writer) (io : BatchIo) :
    (w.close ctx io).returned.isSome = true := by
  unfold close
  dsimp only
  split_ifs with ended failed
  · exact ended
  · exact failed
  · rfl

theorem returned_step_of_isSome (input : Input) (ended : w.returned.isSome = true) :
    (w.step ctx input).returned.isSome = true := by
  rw [step, if_pos ended]
  exact ended

end Writer

/-! ### The loop with its queue -/

/-- What is asked of the writer with a channel for the reply. -/
inductive Request
  | barrier
  | synthetic (event : SyntheticEvent)
  | maintenance (command : EventMaintenance)

/-- The messages of the queue.  The sender of a request's reply is the one in its slot. -/
inductive WriterMessage
  | event (item : IngestItem)
  | request (request : Request)
  | indexPolicy

/-- A slot that a producer has claimed. -/
inductive QueueSlot
  /-- The producer still holds its permit. -/
  | held
  | cancelled
  | published (message : WriterMessage)

/-- What one turn is answered: the configured batch size, whether the time of the batch is over,
whether an index policy is to be tried again, and what the storage says. -/
structure Answers where
  maxBatchSize : ℕ
  elapsed : Bool
  retry : Bool
  batch : BatchIo
  synthetic : SyntheticIo
  maintenance : MaintenanceIo
  converge : List ConvergeIo

/-- A reply: the slot of the request, how much the log held when the batch before the request had
been dealt with, and the result. -/
structure Reply where
  position : ℕ
  logged : ℕ
  result : Except ShardError Unit

def Request.control (answers : Answers) : Request → Control
  | .barrier => .barrier
  | .synthetic event => .synthetic event answers.synthetic
  | .maintenance command => .maintenance command answers.maintenance

/-- What a message is to the loop. -/
def WriterMessage.input (answers : Answers) : WriterMessage → Input
  | .event item => .item item answers.maxBatchSize answers.elapsed answers.batch
  | .request asked => .control (asked.control answers) answers.batch
  | .indexPolicy => .control (.indexPolicy answers.converge) answers.batch

/-- What the sender of a request is sent, if anything: by `fail_control` when the batch before it
could not be committed, and by its handler otherwise. -/
def Request.reply (ctx : WriterContext) (answers : Answers) (w : Writer) (request : Request) :
    Option (Except ShardError Unit) :=
  let w := w.finishBatch ctx answers.batch
  match w.returned with
  | some result => some result
  | none =>
    match request with
    | .barrier => some (.ok ())
    | .synthetic event => (w.handleSynthetic ctx event answers.synthetic).reply
    | .maintenance command =>
      (w.handleMaintenance ctx command answers.maintenance).reply.map
        fun result => result.map fun _ => ()

structure WriterLoop where
  /-- Every slot that was claimed, in order. -/
  slots : List QueueSlot
  /-- How many of them the writer has taken. -/
  taken : ℕ
  closed : Bool
  writer : Writer
  replies : List Reply
  /-- Whether `WriterExit` has drained the queue. -/
  exited : Bool

/-- What can happen next: a producer claims a slot, publishes or cancels it, the queue is closed,
or the writer takes a turn. -/
inductive LoopAction
  | reserve
  | publish (position : ℕ) (message : WriterMessage)
  | cancel (position : ℕ)
  | close
  | turn (answers : Answers)
  | quiet (io : ConvergeIo)

namespace WriterLoop

variable (ctx : WriterContext)

def start (shard : Shard) : WriterLoop := ⟨[], 0, false, .start shard, [], false⟩

/-- Release the slot of a permit. -/
def release (s : WriterLoop) (position : ℕ) (slot : QueueSlot) : WriterLoop :=
  match s.slots[position]? with
  | some .held => { s with slots := s.slots.set position slot }
  | _ => s

/-- Take over what the writer's turn left.  A writer that returns closes the queue. -/
def became (s : WriterLoop) (w : Writer) : WriterLoop :=
  { s with writer := w, closed := s.closed || w.returned.isSome }

/-- The writer puts an index policy back behind the work that was waiting. -/
def putBack (s : WriterLoop) (answers : Answers) : WriterMessage → List QueueSlot
  | .indexPolicy => if answers.retry && !s.closed then [.published .indexPolicy] else []
  | _ => []

/-- The reply to a message, as it is recorded. -/
def replyTo (s : WriterLoop) (answers : Answers) : WriterMessage → List Reply
  | .request request =>
    (request.reply ctx answers s.writer).toList.map fun result =>
      ⟨s.taken, (s.writer.finishBatch ctx answers.batch).log.length, result⟩
  | _ => []

/-- The writer takes a message and handles it. -/
def handle (s : WriterLoop) (answers : Answers) (message : WriterMessage) : WriterLoop :=
  let s' := s.became (s.writer.step ctx (message.input answers))
  { s' with
    taken := s.taken + 1
    slots := s.slots ++ s'.putBack answers message
    replies := s.replies ++ s.replyTo ctx answers message }

/-- One turn of the writer, or of its exit once it has returned. -/
def turn (s : WriterLoop) (answers : Answers) : WriterLoop :=
  match s.slots[s.taken]?, s.writer.returned with
  | some .held, some _ => s
  | some .held, none => s.became (s.writer.step ctx (.empty answers.batch))
  | some .cancelled, _ => { s with taken := s.taken + 1 }
  -- the exit drops what it takes
  | some (.published _), some _ => { s with taken := s.taken + 1 }
  | some (.published message), none => s.handle ctx answers message
  | none, some _ => { s with exited := true }
  | none, none =>
    if s.closed then s.became (s.writer.close ctx answers.batch)
    else s.became (s.writer.step ctx (.empty answers.batch))

def step (s : WriterLoop) : LoopAction → WriterLoop
  | .reserve => if s.closed then s else { s with slots := s.slots ++ [.held] }
  | .publish position message => s.release position (.published message)
  | .cancel position => s.release position .cancelled
  | .close => { s with closed := true }
  | .turn answers => s.turn ctx answers
  | .quiet io => if s.taken = s.slots.length then s.became (s.writer.step ctx (.quiet io)) else s

def run (s : WriterLoop) (actions : List LoopAction) : WriterLoop := actions.foldl (step ctx) s

/-- Whether the sender of the request in a slot is still alive. -/
def Open (s : WriterLoop) (position : ℕ) : Prop :=
  s.taken ≤ position ∧ ∃ request, s.slots[position]? = some (.published (.request request))

/-! ### What every run preserves -/

/-- The items in the first slots. -/
def EventAt (s : WriterLoop) (position : ℕ) (item : IngestItem) : Prop :=
  s.slots[position]? = some (.published (.event item))

/-- What is known of a reply. -/
structure Replied (s : WriterLoop) (reply : Reply) : Prop where
  taken : reply.position < s.taken
  request : ∃ request, s.slots[reply.position]? = some (.published (.request request))
  logged : reply.logged ≤ s.writer.log.length
  settled : reply.result = .ok () → ∀ position < reply.position, ∀ item,
    s.EventAt position item → item.Settled (s.writer.log.take reply.logged)

structure Invariant (ctx : WriterContext) (s : WriterLoop) : Prop where
  taken_le : s.taken ≤ s.slots.length
  released : ∀ position < s.taken, s.slots[position]? ≠ some .held
  closed : s.writer.returned.isSome = true → s.closed = true
  exited : s.exited = true → s.taken = s.slots.length ∧ s.writer.returned.isSome = true
  sound : Writer.Sound ctx.bootId s.writer
  settled : s.writer.returned = none → ∀ position < s.taken, ∀ item, s.EventAt position item →
    item ∈ s.writer.batch ∨ item.Settled s.writer.log
  inOrder : s.replies.Pairwise fun a b => a.position < b.position
  replied : ∀ reply ∈ s.replies, s.Replied reply

variable {ctx} {s s' : WriterLoop}

theorem invariant_start (shard : Shard) : Invariant ctx (start shard) where
  taken_le := le_rfl
  released := nofun
  closed := nofun
  exited := nofun
  sound := Writer.sound_start _ _
  settled := nofun
  inOrder := .nil
  replied := nofun

/-- What was replied stays true while the log grows and taken slots stay as they are. -/
theorem Replied.mono {reply : Reply} (h : s.Replied reply) (taken : s.taken ≤ s'.taken)
    (slots : ∀ position < s.taken, s'.slots[position]? = s.slots[position]?)
    (log : s.writer.log <+: s'.writer.log) : s'.Replied reply where
  taken := h.taken.trans_le taken
  request := by
    rw [slots _ h.taken]
    exact h.request
  logged := h.logged.trans log.length_le
  settled ok position below item event := by
    rw [EventAt, slots _ (below.trans h.taken)] at event
    obtain ⟨later, eq⟩ := log
    rw [← eq, take_append_of_le_length h.logged]
    exact h.settled ok position below item event

/-- Producers change no slot that was taken. -/
theorem Invariant.slots (h : Invariant ctx s) {slots : List QueueSlot}
    (same : ∀ position < s.taken, slots[position]? = s.slots[position]?)
    (long : s.slots.length ≤ slots.length)
    (exited : s.exited = true → slots.length = s.slots.length) :
    Invariant ctx { s with slots := slots } where
  taken_le := h.taken_le.trans long
  released position below := by
    show slots[position]? ≠ _
    rw [same position below]
    exact h.released position below
  closed := h.closed
  exited out := ⟨(h.exited out).1.trans (exited out).symm, (h.exited out).2⟩
  sound := h.sound
  settled running position below item event := by
    rw [EventAt] at event
    rw [same position below] at event
    exact h.settled running position below item event
  inOrder := h.inOrder
  replied reply mem := (h.replied reply mem).mono le_rfl same prefix_rfl

theorem invariant_release (h : Invariant ctx s) (position : ℕ) (slot : QueueSlot) :
    Invariant ctx (s.release position slot) := by
  unfold release
  split
  · next held =>
    refine h.slots (fun other below => ?_) (by simp) (by simp)
    refine List.getElem?_set_ne ?_
    rintro rfl
    exact h.released _ below held
  · exact h

theorem invariant_reserve (h : Invariant ctx s) : Invariant ctx (s.step ctx .reserve) := by
  unfold step
  dsimp only
  split_ifs with closed
  · exact h
  · refine h.slots (fun position below => ?_) (by simp) fun out => ?_
    · exact List.getElem?_append_left (below.trans_le h.taken_le)
    · exact absurd (h.closed (h.exited out).2) closed

/-- The writer does something that takes no message. -/
theorem Invariant.became (h : Invariant ctx s) {w : Writer} (sound : Writer.Sound ctx.bootId w)
    (log : s.writer.log <+: w.log)
    (ended : s.writer.returned.isSome = true → w.returned.isSome = true)
    (settled : w.returned = none → s.writer.returned = none →
      ∀ item ∈ s.writer.batch, item ∈ w.batch ∨ item.Settled w.log) :
    Invariant ctx (s.became w) where
  taken_le := h.taken_le
  released := h.released
  closed returned := by
    show (s.closed || w.returned.isSome) = true
    rw [show w.returned.isSome = true from returned, Bool.or_true]
  exited out := ⟨(h.exited out).1, ended (h.exited out).2⟩
  sound := sound
  settled running position below item event := by
    have before : s.writer.returned = none := by
      rw [← Option.not_isSome_iff_eq_none]
      intro some
      rw [show w.returned = none from running] at ended
      cases ended some
    rcases h.settled before position below item event with inBatch | done
    · exact settled running before item inBatch
    · exact .inr (done.mono log)
  inOrder := h.inOrder
  replied reply mem := (h.replied reply mem).mono le_rfl (fun _ _ => rfl) log

theorem invariant_became_step (h : Invariant ctx s) {input : Input} :
    Invariant ctx (s.became (s.writer.step ctx input)) :=
  h.became (Writer.goes_step h.sound input).sound (Writer.log_prefix_step ctx s.writer input)
    (Writer.returned_step_of_isSome input)
    fun running _ item mem => Writer.settled_step running item (.inl mem)

theorem lt_length_of_slot {slot : QueueSlot} (here : s.slots[s.taken]? = some slot) :
    s.taken < s.slots.length := (List.getElem?_eq_some_iff.1 here).1

/-- The writer skips a slot, or its exit drops a message. -/
theorem invariant_skip (h : Invariant ctx s) {slot : QueueSlot}
    (here : s.slots[s.taken]? = some slot) (free : slot ≠ .held)
    (noItem : (∃ item, slot = .published (.event item)) → s.writer.returned.isSome = true) :
    Invariant ctx { s with taken := s.taken + 1 } where
  taken_le := lt_length_of_slot here
  released position below := by
    rcases Nat.lt_succ_iff_lt_or_eq.1 below with before | rfl
    · exact h.released position before
    · show s.slots[s.taken]? ≠ _
      rw [here]
      exact fun held => free (Option.some.inj held)
  closed := h.closed
  exited out := absurd (h.exited out).1 (lt_length_of_slot here).ne
  sound := h.sound
  settled running position below item event := by
    rcases Nat.lt_succ_iff_lt_or_eq.1 below with before | rfl
    · exact h.settled running position before item event
    · have ended := noItem ⟨item, Option.some.inj (here.symm.trans event)⟩
      rw [show s.writer.returned = none from running] at ended
      cases ended
  inOrder := h.inOrder
  replied reply mem := (h.replied reply mem).mono (Nat.le_succ _) (fun _ _ => rfl) prefix_rfl

/-- There is at most one reply to a message. -/
theorem pairwise_replyTo (s : WriterLoop) (answers : Answers) (message : WriterMessage) :
    (s.replyTo ctx answers message).Pairwise fun a b => a.position < b.position := by
  cases message with
  | event item => exact .nil
  | indexPolicy => exact .nil
  | request request =>
    unfold replyTo
    dsimp only
    cases request.reply ctx answers s.writer with
    | none => exact .nil
    | some result => exact pairwise_singleton _ _

/-- A request is sent success only if the batch before it has been dealt with. -/
theorem returned_of_reply {w : Writer} (sound : Writer.Sound ctx.bootId w)
    (running : w.returned = none) {answers : Answers} {request : Request}
    (ok : request.reply ctx answers w = some (.ok ())) :
    (w.finishBatch ctx answers.batch).returned = none := by
  rcases (Writer.goes_finishBatch sound answers.batch).returned with same | ⟨error, failed⟩
  · rw [same, running]
  · unfold Request.reply at ok
    dsimp only at ok
    rw [failed] at ok
    cases ok

/-- What is recorded of the reply to a message. -/
theorem replied_handle (h : Invariant ctx s) (running : s.writer.returned = none)
    {answers : Answers} {message : WriterMessage}
    (here : s.slots[s.taken]? = some (.published message)) {reply : Reply}
    (mem : reply ∈ s.replyTo ctx answers message) :
    reply.position = s.taken ∧ (s.handle ctx answers message).Replied reply := by
  cases message with
  | event item => cases mem
  | indexPolicy => cases mem
  | request request =>
    obtain ⟨result, sent, rfl⟩ := mem_map.1 mem
    have sent : request.reply ctx answers s.writer = some result := Option.mem_toList.1 sent
    have kept {position : ℕ} (below : position < s.slots.length) :
        (s.handle ctx answers (.request request)).slots[position]? = s.slots[position]? :=
      List.getElem?_append_left below
    have log : (s.writer.finishBatch ctx answers.batch).log <+:
        (s.handle ctx answers (.request request)).writer.log := by
      show _ <+: (s.writer.step ctx (.control _ _)).log
      rw [Writer.step, if_neg (by simp [running]), Writer.turn]
      split_ifs
      · exact prefix_rfl
      · rw [Writer.log_orReturn]
        exact Writer.log_handleControl ctx _ _
    refine ⟨rfl, Nat.lt_succ_self _, ⟨request, ?_⟩, log.length_le, ?_⟩
    · rw [kept (lt_length_of_slot here)]
      exact here
    · rintro rfl position below item event
      have finished := returned_of_reply h.sound running sent
      obtain ⟨-, settled⟩ := Writer.settled_finishBatch finished
      rw [EventAt, kept (below.trans (lt_length_of_slot here))] at event
      obtain ⟨later, eq⟩ := log
      rw [← eq, take_left]
      rcases h.settled running position below item event with inBatch | done
      · exact settled item inBatch
      · exact done.mono (Writer.log_prefix_finishBatch ctx _ _)

theorem invariant_handle (h : Invariant ctx s) (running : s.writer.returned = none)
    {answers : Answers} {message : WriterMessage}
    (here : s.slots[s.taken]? = some (.published message)) :
    Invariant ctx (s.handle ctx answers message) := by
  have kept {position : ℕ} (below : position < s.slots.length) :
      (s.handle ctx answers message).slots[position]? = s.slots[position]? :=
    List.getElem?_append_left below
  have log : s.writer.log <+: (s.handle ctx answers message).writer.log :=
    Writer.log_prefix_step ctx s.writer _
  constructor
  · show s.taken + 1 ≤ (s.slots ++ _).length
    rw [length_append]
    exact (lt_length_of_slot here).trans_le (Nat.le_add_right _ _)
  · intro position below
    have below : position < s.taken + 1 := below
    rw [kept (by have := lt_length_of_slot here; omega)]
    rcases Nat.lt_succ_iff_lt_or_eq.1 below with before | rfl
    · exact h.released position before
    · rw [here]
      nofun
  · exact (invariant_became_step h).closed
  · exact fun out => absurd (h.exited out).1 (lt_length_of_slot here).ne
  · exact (invariant_became_step h).sound
  · intro goesOn position below item event
    have below : position < s.taken + 1 := below
    rw [EventAt, kept (by have := lt_length_of_slot here; omega)] at event
    rcases Nat.lt_succ_iff_lt_or_eq.1 below with before | rfl
    · rcases h.settled running position before item event with inBatch | done
      · exact Writer.settled_step goesOn item (.inl inBatch)
      · exact .inr (done.mono log)
    · obtain rfl : message = .event item := by
        have same := here.symm.trans event
        rwa [Option.some.injEq, QueueSlot.published.injEq] at same
      exact Writer.settled_step goesOn item (.inr rfl)
  · refine pairwise_append.2 ⟨h.inOrder, ?_, fun old memOld new memNew => ?_⟩
    · exact pairwise_replyTo s answers message
    · rw [(replied_handle h running here memNew).1]
      exact (h.replied old memOld).taken
  · intro reply mem
    rcases mem_append.1 mem with old | new
    · refine (h.replied reply old).mono (Nat.le_succ _) (fun position below => ?_) log
      exact kept (below.trans (lt_length_of_slot here))
    · exact (replied_handle h running here new).2

theorem invariant_turn (h : Invariant ctx s) (answers : Answers) :
    Invariant ctx (s.turn ctx answers) := by
  unfold turn
  split
  · exact h
  · exact invariant_became_step h
  · next here => exact invariant_skip h here nofun (by simp)
  · next here ended => exact invariant_skip h here nofun fun _ => by simp [ended]
  · next here running => exact invariant_handle h running here
  · next none ended =>
    exact { h with
      exited := fun _ => ⟨h.taken_le.antisymm (List.getElem?_eq_none_iff.1 none), by simp [ended]⟩
      replied := fun reply mem =>
        (h.replied reply mem).mono le_rfl (fun _ _ => rfl) prefix_rfl }
  · next running =>
    split_ifs
    · refine h.became (Writer.sound_close h.sound _) (Writer.log_prefix_close ctx _ _) ?_ ?_
      · exact fun _ => Writer.returned_close ctx _ _
      · intro goesOn
        have ended := Writer.returned_close ctx s.writer answers.batch
        rw [goesOn] at ended
        cases ended
    · exact invariant_became_step h

theorem invariant_step (h : Invariant ctx s) (action : LoopAction) :
    Invariant ctx (s.step ctx action) := by
  cases action with
  | reserve => exact invariant_reserve h
  | publish position message | cancel position => exact invariant_release h position _
  | close =>
    exact { h with
      closed := fun _ => rfl
      replied := fun reply mem =>
        (h.replied reply mem).mono le_rfl (fun _ _ => rfl) prefix_rfl }
  | turn answers => exact invariant_turn h answers
  | quiet io =>
    unfold step
    dsimp only
    split_ifs
    · exact invariant_became_step h
    · exact h

theorem invariant_run (h : Invariant ctx s) (actions : List LoopAction) :
    Invariant ctx (s.run ctx actions) := by
  induction actions generalizing s with
  | nil => exact h
  | cons action actions ih => exact ih (invariant_step h action)

/-! ### The exit, and progress -/

/-- Once the exit has drained the queue nothing changes in it. -/
theorem slots_step_of_exited (h : Invariant ctx s) (out : s.exited = true) (action : LoopAction) :
    (s.step ctx action).exited = true ∧ (s.step ctx action).slots = s.slots ∧
      (s.step ctx action).taken = s.taken := by
  obtain ⟨all, ended⟩ := h.exited out
  have none : s.slots[s.taken]? = none := List.getElem?_eq_none_iff.2 all.ge
  have released {position : ℕ} {slot : QueueSlot} : s.release position slot = s := by
    unfold release
    split
    · next held =>
      have below := (List.getElem?_eq_some_iff.1 held).1
      exact absurd held (h.released position (all ▸ below))
    · rfl
  cases action with
  | reserve =>
    unfold step
    rw [if_pos (h.closed ended)]
    exact ⟨out, rfl, rfl⟩
  | publish position message | cancel position =>
    rw [step, released]
    exact ⟨out, rfl, rfl⟩
  | close => exact ⟨out, rfl, rfl⟩
  | turn answers =>
    obtain ⟨result, returned⟩ := Option.isSome_iff_exists.1 ended
    unfold step turn
    rw [none, returned]
    exact ⟨rfl, rfl, rfl⟩
  | quiet io =>
    unfold step
    dsimp only
    rw [if_pos all]
    exact ⟨out, rfl, rfl⟩

theorem slots_run_of_exited (h : Invariant ctx s) (out : s.exited = true)
    (actions : List LoopAction) :
    (s.run ctx actions).slots = s.slots ∧ (s.run ctx actions).taken = s.taken := by
  induction actions generalizing s with
  | nil => exact ⟨rfl, rfl⟩
  | cons action actions ih =>
    obtain ⟨out', slots, taken⟩ := slots_step_of_exited h out action
    obtain ⟨slots', taken'⟩ := ih (invariant_step h action) out'
    exact ⟨slots'.trans slots, taken'.trans taken⟩

theorem taken_turn (ctx : WriterContext) (answers : Answers) {n : ℕ} (long : n ≤ s.slots.length)
    (free : ∀ position < n, s.slots[position]? ≠ some .held) :
    (s.taken < n → (s.turn ctx answers).taken = s.taken + 1) ∧
      s.taken ≤ (s.turn ctx answers).taken ∧ n ≤ (s.turn ctx answers).slots.length ∧
      ∀ position < n, (s.turn ctx answers).slots[position]? ≠ some .held := by
  unfold turn
  split
  · next held _ => exact ⟨fun below => absurd held (free _ below), le_rfl, long, free⟩
  · next held _ => exact ⟨fun below => absurd held (free _ below), le_rfl, long, free⟩
  · exact ⟨fun _ => rfl, Nat.le_succ _, long, free⟩
  · exact ⟨fun _ => rfl, Nat.le_succ _, long, free⟩
  · refine ⟨fun _ => rfl, Nat.le_succ _, ?_, fun position below => ?_⟩
    · show n ≤ (s.slots ++ _).length
      rw [length_append]
      exact long.trans (Nat.le_add_right _ _)
    · show (s.slots ++ _)[position]? ≠ _
      rw [List.getElem?_append_left (below.trans_le long)]
      exact free position below
  · next none _ =>
    have all := List.getElem?_eq_none_iff.1 none
    exact ⟨fun below => absurd (below.trans_le long) all.not_gt, le_rfl, long, free⟩
  · next none _ =>
    have all := List.getElem?_eq_none_iff.1 none
    split_ifs
    · exact ⟨fun below => absurd (below.trans_le long) all.not_gt, le_rfl, long, free⟩
    · exact ⟨fun below => absurd (below.trans_le long) all.not_gt, le_rfl, long, free⟩

/-- Turns take every slot whose permit has been released. -/
theorem taken_turns (ctx : WriterContext) (answers : List Answers) {n : ℕ} (long : n ≤ s.slots.length)
    (free : ∀ position < n, s.slots[position]? ≠ some .held)
    (enough : n ≤ s.taken + answers.length) :
    n ≤ (s.run ctx (answers.map .turn)).taken := by
  induction answers generalizing s with
  | nil => exact enough
  | cons answer answers ih =>
    obtain ⟨takes, grows, long', free'⟩ := taken_turn ctx answer long free
    refine ih long' free' ?_
    by_cases below : s.taken < n
    · rw [step, takes below]
      simp only [length_cons] at enough
      omega
    · exact (not_lt.1 below).trans (grows.trans (Nat.le_add_right _ _))

/-- **Replies come in order, once, and no channel stays open.**  In every run: no request is sent
two replies; a reply is to a request that the writer has taken, and when it is a success every
item in a slot ahead of it was committed or had entered the list of lost ranges before.  Once the
writer has ended, with whatever permits were held when it stopped, no channel is open and none
will be.  And turns of the writer take every request whose turn can come: after as many turns as
there are slots before a position, all of them released, none of the channels before it is
open. -/
theorem replies_in_order (ctx : WriterContext) (shard : Shard) (actions : List LoopAction) :
    let s := (start shard).run ctx actions
    (s.replies.map Reply.position).Nodup ∧
    (∀ reply ∈ s.replies, reply.position < s.taken ∧
      (∃ request, s.slots[reply.position]? = some (.published (.request request))) ∧
      (reply.result = .ok () → ∀ position < reply.position, ∀ item,
        s.slots[position]? = some (.published (.event item)) →
          item.Settled (s.writer.log.take reply.logged))) ∧
    (s.exited = true → ∀ later position, ¬ (s.run ctx later).Open position) ∧
    ∀ n ≤ s.slots.length, (∀ position < n, s.slots[position]? ≠ some .held) →
      ∀ answers : List Answers, n ≤ s.taken + answers.length →
        ∀ position < n, ¬ (s.run ctx (answers.map .turn)).Open position := by
  intro s
  have h : Invariant ctx s := invariant_run (invariant_start shard) actions
  refine ⟨?_, fun reply mem => ?_, fun out later position => ?_, ?_⟩
  · exact pairwise_map.2 (h.inOrder.imp ne_of_lt)
  · obtain ⟨taken, request, -, settled⟩ := h.replied reply mem
    exact ⟨taken, request, settled⟩
  · rintro ⟨untaken, request, here⟩
    obtain ⟨slots, taken⟩ := slots_run_of_exited h out later
    rw [slots] at here
    rw [taken, (h.exited out).1] at untaken
    exact absurd (List.getElem?_eq_some_iff.1 here).1 untaken.not_gt
  · rintro n long free answers enough position below ⟨untaken, -⟩
    have taken := taken_turns ctx answers long free enough
    omega

end WriterLoop

end Eventd
