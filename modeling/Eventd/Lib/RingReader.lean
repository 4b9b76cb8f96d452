import Mathlib.Tactic

/-!
# Reading a ring that is written and overwritten

A producer appends entries of various sizes at the write position of a ring and overwrites the
oldest, up to the tail, to make room.  A reader follows from entry to entry.  It keeps a position
and the key of the last entry it read; the keys of a ring increase.

* `Ring`: what has been written, with the positions at which an entry begins;
* `Grows`: what a producer may do between two looks at the ring;
* `Behind`, `Located`: where a reader stands that has left no surviving entry unread, and that has
  none ahead that it read;
* `Behind.grow`, `Located.grow`: the producer does not disturb it;
* `Located.max_tail`, `Behind.step`, `Ring.located_after`, `Behind.stop`: the reader jumps to the
  tail, goes past an entry, reads one, or stops before one.
-/

namespace RingReader

/-- A value written at a position. -/
structure Entry (α : Type*) where
  position : ℕ
  size : ℕ
  value : α

variable {α : Type*} {key : α → ℕ}

/-- Where an entry begins or the next one will. -/
def IsBoundary (entries : List (Entry α)) (write position : ℕ) : Prop :=
  position = write ∨ ∃ e ∈ entries, e.position = position

/-- Everything ever written to a ring, and the position up to which it was overwritten. -/
structure Ring (key : α → ℕ) where
  entries : List (Entry α)
  tail : ℕ
  write : ℕ
  size_pos : ∀ e ∈ entries, 0 < e.size
  le_write : ∀ e ∈ entries, e.position + e.size ≤ write
  ordered : entries.Pairwise fun a b =>
    a.position + a.size ≤ b.position ∧ key a.value < key b.value
  next : ∀ e ∈ entries, IsBoundary entries write (e.position + e.size)
  tail_boundary : IsBoundary entries write tail

namespace Ring

variable (r : Ring key)

theorem le_write_of_boundary {position : ℕ} (h : IsBoundary r.entries r.write position) :
    position ≤ r.write := by
  rcases h with rfl | ⟨e, mem, rfl⟩
  · exact le_rfl
  · exact (Nat.le_add_right _ _).trans (r.le_write e mem)

theorem exists_entry {position : ℕ} (h : IsBoundary r.entries r.write position)
    (below : position < r.write) : ∃ e ∈ r.entries, e.position = position :=
  h.resolve_left below.ne

theorem eq_or_ordered {a b : Entry α} (ha : a ∈ r.entries) (hb : b ∈ r.entries) :
    a = b ∨ (a.position + a.size ≤ b.position ∧ key a.value < key b.value) ∨
      (b.position + b.size ≤ a.position ∧ key b.value < key a.value) := by
  by_cases same : a = b
  · exact .inl same
  · have symm : Std.Symm fun a b : Entry α =>
        (a.position + a.size ≤ b.position ∧ key a.value < key b.value) ∨
          (b.position + b.size ≤ a.position ∧ key b.value < key a.value) :=
      ⟨fun _ _ => Or.symm⟩
    have either : r.entries.Pairwise fun a b =>
        (a.position + a.size ≤ b.position ∧ key a.value < key b.value) ∨
          (b.position + b.size ≤ a.position ∧ key b.value < key a.value) :=
      r.ordered.imp Or.inl
    exact .inr (either.forall ha hb same)

end Ring

/-! ### What a producer does -/

/-- The ring later on: it has been overwritten further, and entries were added at the end, whose
keys are above `floor` and at most `ceiling`. -/
structure Grows (floor ceiling : ℕ) (r r' : Ring key) : Prop where
  floor_le : floor ≤ ceiling
  tail_le : r.tail ≤ r'.tail
  write_le : r.write ≤ r'.write
  entries : ∃ more, r'.entries = r.entries ++ more ∧
    ∀ e ∈ more, r.write ≤ e.position ∧ floor < key e.value ∧ key e.value ≤ ceiling
  /-- What is added begins at the old write position. -/
  write_boundary : IsBoundary r'.entries r'.write r.write

namespace Grows

variable {a b c : ℕ} {r r' r'' : Ring key}

theorem refl (r : Ring key) : Grows a a r r :=
  ⟨le_rfl, le_rfl, le_rfl, ⟨[], (List.append_nil _).symm, nofun⟩, .inl rfl⟩

theorem subset (h : Grows a b r r') : r.entries ⊆ r'.entries := by
  obtain ⟨more, eq, -⟩ := h.entries
  rw [eq]
  exact List.subset_append_left _ _

theorem boundary (h : Grows a b r r') {position : ℕ}
    (begins : IsBoundary r.entries r.write position) :
    IsBoundary r'.entries r'.write position := by
  rcases begins with rfl | ⟨e, mem, same⟩
  · exact h.write_boundary
  · exact .inr ⟨e, h.subset mem, same⟩

theorem trans (h : Grows a b r r') (h' : Grows b c r' r'') : Grows a c r r'' := by
  obtain ⟨more, eq, added⟩ := h.entries
  obtain ⟨more', eq', added'⟩ := h'.entries
  refine ⟨h.floor_le.trans h'.floor_le, h.tail_le.trans h'.tail_le, h.write_le.trans h'.write_le,
    ⟨more ++ more', by rw [eq', eq, List.append_assoc], fun e mem => ?_⟩,
    h'.boundary h.write_boundary⟩
  rcases List.mem_append.1 mem with old | new
  · obtain ⟨beyond, above, below⟩ := added e old
    exact ⟨beyond, above, below.trans h'.floor_le⟩
  · obtain ⟨beyond, above, below⟩ := added' e new
    exact ⟨h.write_le.trans beyond, h.floor_le.trans_lt above, below⟩

/-- An entry of the later ring was there before, or was added beyond the write position. -/
theorem mem_cases (h : Grows a b r r') {e : Entry α} (mem : e ∈ r'.entries) :
    e ∈ r.entries ∨ r.write ≤ e.position ∧ a < key e.value ∧ key e.value ≤ b := by
  obtain ⟨more, eq, added⟩ := h.entries
  rw [eq] at mem
  exact (List.mem_append.1 mem).imp_right (added e)

theorem bounded (h : Grows a b r r') (before : ∀ e ∈ r.entries, key e.value ≤ a) :
    ∀ e ∈ r'.entries, key e.value ≤ b := by
  intro e mem
  rcases h.mem_cases mem with old | ⟨-, -, below⟩
  · exact (before e old).trans h.floor_le
  · exact below

end Grows

/-! ### Where a reader stands -/

/-- The reader stands at a boundary, and every surviving entry before it has a key that is at most
that of the last entry it read. -/
structure Behind (r : Ring key) (position : ℕ) (last : Option ℕ) : Prop where
  boundary : IsBoundary r.entries r.write position
  behind : ∀ e ∈ r.entries, r.tail ≤ e.position → e.position < position →
    ∃ l ∈ last, key e.value ≤ l

/-- And no entry at its position or after it has such a key. -/
structure Located (r : Ring key) (position : ℕ) (last : Option ℕ) : Prop
    extends Behind r position last where
  ahead : ∀ e ∈ r.entries, position ≤ e.position → ∀ l ∈ last, l < key e.value

section Reader

variable {a b position : ℕ} {r r' : Ring key} {last : Option ℕ}

/-- A surviving entry with a later key is ahead. -/
theorem Behind.le_of_fresh (h : Behind r position last) {e : Entry α} (mem : e ∈ r.entries)
    (surviving : r.tail ≤ e.position) (fresh : ∀ l ∈ last, l < key e.value) :
    position ≤ e.position := by
  by_contra before
  obtain ⟨l, is, le⟩ := h.behind e mem surviving (not_le.1 before)
  exact absurd (fresh l is) le.not_gt

theorem Behind.grow (h : Behind r position last) (g : Grows a b r r') :
    Behind r' position last where
  boundary := g.boundary h.boundary
  behind e mem surviving before := by
    rcases g.mem_cases mem with old | ⟨beyond, -⟩
    · exact h.behind e old (g.tail_le.trans surviving) before
    · exact absurd (before.trans_le (r.le_write_of_boundary h.boundary)) beyond.not_gt

theorem Located.grow (h : Located r position last) (g : Grows a b r r')
    (low : ∀ l ∈ last, l ≤ a) : Located r' position last where
  toBehind := h.toBehind.grow g
  ahead e mem after l is := by
    rcases g.mem_cases mem with old | ⟨-, above, -⟩
    · exact h.ahead e old after l is
    · exact (low l is).trans_lt above

/-- A reader that was overtaken goes on at the tail. -/
theorem behind_tail (r : Ring key) (last : Option ℕ) : Behind r r.tail last :=
  ⟨r.tail_boundary, fun _ _ surviving before => absurd surviving before.not_ge⟩

theorem Behind.max_tail (h : Behind r position last) : Behind r (max position r.tail) last := by
  rcases le_total position r.tail with le | le
  · rw [max_eq_right le]
    exact behind_tail r last
  · rwa [max_eq_left le]

theorem Located.toTail (h : Located r position last) (le : position ≤ r.tail) :
    Located r r.tail last :=
  ⟨behind_tail r last, fun e mem after => h.ahead e mem (le.trans after)⟩

theorem Located.max_tail (h : Located r position last) :
    Located r (max position r.tail) last :=
  ⟨h.toBehind.max_tail, fun e mem after => h.ahead e mem (le_of_max_le_left after)⟩

theorem Ring.lt_or_eq (r : Ring key) {e x : Entry α} (he : e ∈ r.entries) (hx : x ∈ r.entries)
    (before : x.position < e.position + e.size) :
    x.position < e.position ∧ key x.value < key e.value ∨ x = e := by
  have := r.size_pos e he
  have := r.size_pos x hx
  rcases r.eq_or_ordered hx he with same | ⟨first, less⟩ | ⟨first, -⟩
  · exact .inr same
  · exact .inl ⟨by omega, less⟩
  · omega

/-- Go past an entry with a key that was seen. -/
theorem Behind.step (h : Behind r position last) {e : Entry α} (mem : e ∈ r.entries)
    (here : e.position = position) (seen : ∃ l ∈ last, key e.value ≤ l) :
    Behind r (position + e.size) last where
  boundary := here ▸ r.next e mem
  behind x hx surviving before := by
    rcases r.lt_or_eq mem hx (here ▸ before) with ⟨less, -⟩ | rfl
    · exact h.behind x hx surviving (here ▸ less)
    · exact seen

theorem Ring.located_after (r : Ring key) {e : Entry α} (mem : e ∈ r.entries) :
    Located r (e.position + e.size) (some (key e.value)) where
  boundary := r.next e mem
  behind x hx surviving before := by
    rcases r.lt_or_eq mem hx before with ⟨-, less⟩ | rfl
    · exact ⟨_, rfl, less.le⟩
    · exact ⟨_, rfl, le_rfl⟩
  ahead x hx after l is := by
    obtain rfl := Option.mem_some_iff.1 is
    have := r.size_pos x hx
    have := r.size_pos e mem
    rcases r.eq_or_ordered mem hx with rfl | ⟨-, less⟩ | ⟨first, -⟩
    · omega
    · exact less
    · omega

/-- Stop at the first entry with a key that was not seen. -/
theorem Behind.stop (h : Behind r position last) {e : Entry α} (mem : e ∈ r.entries)
    (here : e.position = position) (fresh : ∀ l ∈ last, l < key e.value) :
    Located r position last where
  toBehind := h
  ahead x hx after l is := by
    have := r.size_pos x hx
    rcases r.eq_or_ordered mem hx with rfl | ⟨-, less⟩ | ⟨first, -⟩
    · exact fresh l is
    · exact (fresh l is).trans less
    · omega

theorem Behind.atEnd (h : Behind r position last) (all : r.write ≤ position) :
    Located r position last where
  toBehind := h
  ahead x hx after := by
    have := r.size_pos x hx
    have := r.le_write x hx
    omega

end Reader

end RingReader
