import Eventd.Core.Field

/-!
# Field paths

The names of fields in `eventd-core/src/field.rs`.  A payload field is named by the segments on
the way to it, joined with dots; the paths of the event header are reserved.

* `segments`, `validFieldPath`, `headerColumn`, `legacyHeaderPath`, `underHeaderPath`;
* `LeadsTo`: a path is a field or one on the way to it.
-/

namespace Eventd

open List

/-- `field.split('.')`. -/
def segments (field : String) : List String := (field.toList.splitOn '.').map String.ofList

def isAsciiAlphabetic (byte : UInt8) : Bool :=
  decide (0x41 ≤ byte ∧ byte ≤ 0x5a) || decide (0x61 ≤ byte ∧ byte ≤ 0x7a)

def isAsciiDigit (byte : UInt8) : Bool := decide (0x30 ≤ byte ∧ byte ≤ 0x39)

def validSegment (segment : String) : Bool :=
  match strBytes segment with
  | [] => false
  | first :: rest =>
    (isAsciiAlphabetic first || first == 0x5f) &&
      rest.all fun byte =>
        isAsciiAlphabetic byte || isAsciiDigit byte || byte == 0x5f || byte == 0x2d

/-- Whether a name can be produced by flattening an event payload. -/
def validFieldPath (field : String) : Bool := field != "" && (segments field).all validSegment

/-- The header's fields, each path with the column that holds it. -/
def headerFields : List (String × String) :=
  [("event.time", "timestamp"),
    ("event.sequence", "sequence"),
    ("event.cpu", "cpu_id"),
    ("event.type", "event_type"),
    ("event.boot.guid", "boot_id"),
    ("emitter.class", "origin_class"),
    ("emitter.token.guid", "effective_token_guid"),
    ("emitter.true-token.guid", "true_token_guid"),
    ("emitter.process.guid", "process_guid")]

/-- The column that holds a header field. -/
def headerColumn (field : String) : Option String :=
  (headerFields.find? fun entry => entry.1 = field).map Prod.snd

/-- The header field a column held before the header was named by path. -/
def legacyHeaderPath (column : String) : Option String :=
  (headerFields.find? fun entry => entry.2 = column).map Prod.fst

/-- Whether a field is a header path or lies beneath one. -/
def underHeaderPath (field : String) : Bool :=
  headerFields.any fun entry =>
    entry.1.toList.isPrefixOf field.toList &&
      match field.toList.drop entry.1.toList.length with
      | [] => true
      | next :: _ => next == '.'

/-! ### Paths on the way to a field -/

/-- A path is a field, or the field goes on from it with a dot. -/
def LeadsTo (path field : String) : Prop :=
  field = path ∨ ∃ rest, field.toList = path.toList ++ '.' :: rest

theorem LeadsTo.trans {first second third : String} (h : LeadsTo first second)
    (h' : LeadsTo second third) : LeadsTo first third := by
  rcases h with rfl | ⟨rest, eq⟩
  · exact h'
  · rcases h' with rfl | ⟨rest', eq'⟩
    · exact .inr ⟨rest, eq⟩
    · refine .inr ⟨rest ++ '.' :: rest', ?_⟩
      rw [eq', eq, append_assoc, cons_append]

variable {path segment field : String}

theorem LeadsTo.length_le (h : LeadsTo path field) :
    path.toList.length ≤ field.toList.length := by
  rcases h with rfl | ⟨rest, eq⟩
  · rfl
  · simp [eq]

theorem dotless_of_validSegment (valid : validSegment segment = true) :
    '.' ∉ segment.toList := by
  intro dot
  have byte : (0x2e : UInt8) ∈ strBytes segment := by
    refine mem_flatMap.2 ⟨'.', dot, ?_⟩
    decide
  unfold validSegment at valid
  cases bytes : strBytes segment with
  | nil =>
    rw [bytes] at byte
    cases byte
  | cons first rest =>
    rw [bytes] at valid byte
    simp only [Bool.and_eq_true] at valid
    rcases mem_cons.1 byte with rfl | mem
    · exact absurd valid.1 (by decide)
    · exact absurd (all_eq_true.1 valid.2 _ mem) (by decide)

/-- What leads to a segment that has no dot is that segment. -/
theorem leadsTo_segment_iff (dotless : '.' ∉ segment.toList) :
    LeadsTo path segment ↔ path = segment := by
  constructor
  · rintro (rfl | ⟨rest, eq⟩)
    · rfl
    · simp [eq] at dotless
  · rintro rfl
    exact .inl rfl

/-- What leads to a path with one segment more leads to the path, or is the whole. -/
theorem leadsTo_append_iff {under : String} (dotless : '.' ∉ segment.toList) :
    LeadsTo path (under ++ "." ++ segment) ↔
      path = under ++ "." ++ segment ∨ LeadsTo path under := by
  have toList : (under ++ "." ++ segment).toList = under.toList ++ '.' :: segment.toList := by simp
  constructor
  · rintro (eq | ⟨rest, eq⟩)
    · exact .inl eq.symm
    · rw [toList, append_eq_append_iff] at eq
      obtain ⟨more, path_eq, segment_eq⟩ | ⟨more, under_eq, rest_eq⟩ := eq
      · cases more with
        | nil => exact .inr (.inl (String.toList_inj.1 (by simpa using path_eq.symm)))
        | cons dot more =>
          -- the path would end within the segment
          rw [(List.cons.inj segment_eq).2] at dotless
          simp at dotless
      · cases more with
        | nil => exact .inr (.inl (String.toList_inj.1 (by simpa using under_eq)))
        | cons dot more =>
          rw [← (List.cons.inj rest_eq).1] at under_eq
          exact .inr (.inr ⟨more, under_eq⟩)
  · rintro (rfl | leads)
    · exact .inl rfl
    · exact leads.trans (.inr ⟨segment.toList, toList⟩)

theorem segments_append {under : String} (dotless : '.' ∉ segment.toList) :
    segments (under ++ "." ++ segment) = segments under ++ [segment] := by
  have toList : (under ++ "." ++ segment).toList = under.toList ++ '.' :: segment.toList := by simp
  have split : (under.toList ++ '.' :: segment.toList).splitOn '.' =
      under.toList.splitOn '.' ++ segment.toList.splitOn '.' :=
    splitOnP_append_cons _ _ (beq_self_eq_true '.')
  unfold segments
  rw [toList, split, splitOn_eq_singleton dotless, map_append, map_singleton,
    String.ofList_toList]

/-! ### The header -/

theorem isSome_headerColumn_iff :
    (headerColumn field).isSome ↔ ∃ entry ∈ headerFields, entry.1 = field := by
  simp [headerColumn]

theorem underHeaderPath_iff :
    underHeaderPath field = true ↔ ∃ entry ∈ headerFields, LeadsTo entry.1 field := by
  unfold underHeaderPath
  simp only [any_eq_true, Bool.and_eq_true, isPrefixOf_iff_prefix]
  refine exists_congr fun entry => and_congr_right fun _ => ?_
  constructor
  · rintro ⟨⟨rest, eq⟩, next⟩
    rw [← eq, drop_left] at next
    cases rest with
    | nil => exact .inl (String.toList_inj.1 (by simpa using eq.symm))
    | cons char rest =>
      obtain rfl : char = '.' := by simpa using next
      exact .inr ⟨rest, eq.symm⟩
  · rintro (eq | ⟨rest, eq⟩)
    · rw [eq]
      simp
    · rw [eq]
      simp

/-- What a column is renamed to is not the name of a column. -/
theorem legacyHeaderPath_of_some {column : String} (eq : legacyHeaderPath column = some path) :
    legacyHeaderPath path = none := by
  have paths : ∀ entry ∈ headerFields, legacyHeaderPath entry.1 = none := by decide +kernel
  obtain ⟨entry, found, rfl⟩ := Option.map_eq_some_iff.1 eq
  exact paths entry (mem_of_find?_eq_some found)

end Eventd
