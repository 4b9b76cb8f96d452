import Eventd.Metric.Ingest

/-!
# One bad record in a metric datagram

Where `parseRecord` leaves the reader.  An array of boundaries or counts is left at the first item
that is refused, and a text that is not UTF-8 is not read at all; in both cases the reader is then
before the end of the record, and never catches up: no step takes more objects than it is for.

* `numberOf`, `countOf`: what the readers of items accept;
* `LabelsAligned`, `HistogramAligned`, `RecordAligned`: the records whose end the reader reaches;
* `ends_parseRecord`: it reaches the end of these and no others;
* `parseDatagram_elements`, `parseDatagram_misaligned`: the whole datagram.
-/

namespace Eventd.MetricIngest

open List MessagePack MessagePack.Read

/-! ### The records that are read to their ends -/

/-- The number that an object is, if it is one, and if it is finite. -/
def numberOf : Object → Option (Option Binary64)
  | .scalar (.single bits) => some ((some (.ofSingle bits)).filter Binary64.isFinite)
  | .scalar (.double bits) => some ((some ⟨.ofNat bits⟩).filter Binary64.isFinite)
  | .scalar (.int value) => some ((some (.ofInt value)).filter Binary64.isFinite)
  | _ => none

/-- The integer that an object is, if it is one, and if it is not negative. -/
def countOf : Object → Option (Option ℕ)
  | .scalar (.int value) => some (if 0 ≤ value then some value.toNat else none)
  | _ => none

/-- Strings are UTF-8. -/
abbrev IsUtf8 : Object → Prop := TextAligned fun _ => True

/-- Every key that is a string is UTF-8, and so is its value. -/
def LabelsAligned (entries : List (Object × Object)) : Prop :=
  ∀ entry ∈ entries, TextAligned (fun _ => IsUtf8 entry.2) entry.1

/-- The arrays whose end the reader reaches. -/
def HistogramValueAligned (key : String) : Object → Prop
  | .array items =>
    (key = "boundaries" → ItemsAligned numberOf items) ∧
      (key = "counts" → ItemsAligned countOf items)
  | _ => True

/-- Every key that is a string is UTF-8, and the reader reaches the end of its value. -/
def HistogramAligned (entries : List (Object × Object)) : Prop :=
  ∀ entry ∈ entries, TextAligned (fun key => HistogramValueAligned key entry.2) entry.1

/-- The values whose end the reader reaches. -/
def RecordValueAligned (key : String) : Object → Prop
  | .map entries =>
    (key = "labels" → LabelsAligned entries) ∧ (key = "value" → HistogramAligned entries)
  | object => key = "name" ∨ key = "type" → IsUtf8 object

/-- Every key that is a string is UTF-8, and the reader reaches the end of its value. -/
def RecordAligned (entries : List (Object × Object)) : Prop :=
  ∀ entry ∈ entries, TextAligned (fun key => RecordValueAligned key entry.2) entry.1

section Aligned

variable {key : String} {object : Object}

/-- A value with another key than those that are read is skipped. -/
theorem recordValueAligned_of_ne (value : key ≠ "value")
    (text : key = "name" ∨ key = "type" → object.head.kind ≠ .str)
    (labels : key = "labels" → object.head.kind ≠ .map) : RecordValueAligned key object := by
  cases object with
  | map => exact ⟨fun eq => absurd rfl (labels eq), fun eq => absurd eq value⟩
  | array | scalar => exact fun eq => textAligned_of_kind (text eq)

theorem recordValueAligned_str (text : key = "name" ∨ key = "type")
    (is_str : object.head.kind = .str) : RecordValueAligned key object ↔ IsUtf8 object := by
  cases object with
  | array | map => cases is_str
  | scalar => exact ⟨fun aligned => aligned text, fun utf8 _ => utf8⟩

end Aligned

/-! ### Elements -/

/-- A map by itself. -/
structure MapElement where
  bytes : List UInt8
  entries : List (Object × Object)
  reads : Reads bytes (.map entries) []

/-- The bytes of a datagram are an array of these elements. -/
def IsArrayOf (bytes : List UInt8) (elements : List MapElement) : Prop :=
  readHead bytes = some (.array elements.length, elements.flatMap MapElement.bytes)

section Elements

variable {bytes : List UInt8} {elements : List MapElement}

theorem exists_elements {maps : List (List (Object × Object))}
    (reads : ReadsAll bytes (maps.map .map) []) :
    ∃ elements : List MapElement,
      elements.map MapElement.entries = maps ∧ elements.flatMap MapElement.bytes = bytes := by
  induction maps generalizing bytes with
  | nil =>
    cases reads
    exact ⟨[], rfl, rfl⟩
  | cons entries maps ih =>
    obtain ⟨mid, first, others⟩ := ReadsAll.uncons reads
    obtain ⟨taken, rfl, again⟩ := first.split_bytes
    obtain ⟨elements, rfl, rfl⟩ := ih others
    have alone := again []
    rw [append_nil] at alone
    exact ⟨⟨taken, entries, alone⟩ :: elements, rfl, rfl⟩

/-- A valid array of maps has elements. -/
theorem exists_isArrayOf {maps : List (List (Object × Object))}
    (reads : Reads bytes (.array (maps.map .map)) []) :
    ∃ elements : List MapElement, elements.map MapElement.entries = maps ∧ IsArrayOf bytes elements := by
  cases reads with
  | array head within done =>
    cases done
    obtain ⟨elements, rfl, rfl⟩ := exists_elements within
    rw [length_map, length_map] at head
    exact ⟨elements, rfl, head⟩

theorem MapElement.at_cons (element : MapElement) {rest : List UInt8} {objects : List Object}
    (here : At rest objects) : At (element.bytes ++ rest) (.map element.entries :: objects) := by
  obtain ⟨taken, eq, again⟩ := element.reads.split_bytes
  rw [append_nil] at eq
  rw [eq]
  exact (again rest).cons here

theorem at_elements (elements : List MapElement) :
    At (elements.flatMap MapElement.bytes)
      (elements.flatMap fun element => [.map element.entries]) := by
  induction elements with
  | nil => exact .done
  | cons element elements ih => exact element.at_cons ih

theorem IsArrayOf.at_array (array : IsArrayOf bytes elements) :
    At bytes [.array (elements.flatMap fun element => [.map element.entries])] := by
  refine .array ?_ (at_elements elements) .done
  rw [array, length_flatMap]
  simp

end Elements

/-! ### Elements alone, and what is counted -/

section Alone

variable [Reader] (bootId : Guid) (receiptTimestamp : ℤ)

/-- The records that are accepted when each element is presented alone. -/
def acceptedAlone (elements : List MapElement) : List MetricRecord :=
  elements.filterMap fun element => (parseRecord bootId receiptTimestamp element.bytes).1

theorem foldl_elements (elements : List MapElement) (records : List MetricRecord) :
    elements.foldl (fun records element =>
        records ++ (parseRecord bootId receiptTimestamp element.bytes).1.toList) records
      = records ++ acceptedAlone bootId receiptTimestamp elements := by
  induction elements generalizing records with
  | nil => simp [acceptedAlone]
  | cons element elements ih =>
    rw [foldl_cons, ih, append_assoc]
    congr 1
    rw [acceptedAlone, acceptedAlone, filterMap_cons]
    cases (parseRecord bootId receiptTimestamp element.bytes).1 <;> rfl

/-- All that is counted. -/
def MetricDiagnostics.total (diagnostics : MetricDiagnostics) : ℕ :=
  diagnostics.missingIdentity + diagnostics.truncated + diagnostics.unauthorizedRecords +
    diagnostics.authorizationErrors

/-- No counter counts the records that are left out of a datagram. -/
theorem total_receiveMetrics {validate : List UInt8 → Bool} {Token : Type} {bytes : List UInt8}
    (token : Token) (diagnostics : MetricDiagnostics) :
    (receiveMetrics validate (fun _ records => some (records, 0)) bootId receiptTimestamp
      diagnostics (.datagram bytes (some token))).2.total = diagnostics.total := by
  rw [receiveMetrics]
  cases parseDatagram validate bootId receiptTimestamp bytes <;> rfl

end Alone

/-! ### Numbers -/

section Checks

variable {α β : Type} {x : Read α}

theorem takes_ensure_finite (value : Binary64) :
    Takes (ensure value.isFinite >>= fun _ => (pure value : Read Binary64)) []
      ((some value).filter Binary64.isFinite) := by
  cases finite : value.isFinite
  · rw [Option.filter_some_neg (by simp [finite])]
    exact Takes.bind_none takes_fail
  · rw [Option.filter_some_pos finite]
    exact Takes.bind (takes_pure ()) (takes_pure value)

theorem pops_ensure_pure (condition : Bool) (a : α) :
    Pops 0 (ensure condition >>= fun _ => (pure a : Read α)) :=
  (pops_ensure condition).bind fun _ => pops_pure a

theorem takes_ensure_pure (condition : Bool) (a : α) :
    ∃ result, Takes (ensure condition >>= fun _ => (pure a : Read α)) [] result := by
  cases condition
  · exact ⟨none, Takes.bind_none takes_fail⟩
  · exact ⟨some a, Takes.bind (takes_pure ()) (takes_pure a)⟩

theorem pops_map {count : ℕ} (pops : Pops count x) (g : α → β) :
    Pops count (x >>= fun a => pure (g a)) := pops.bind fun a => pops_pure (g a)

end Checks

section Parser

variable [Reader] [LawfulReader]

theorem pops_readNumber : Pops 1 readNumber := by
  refine pops_peek_bind fun next => ?_
  split
  · exact follows_float.pops.bind fun value => pops_ensure_pure _ value
  · exact follows_int.pops_attempt (fun _ => pops_ensure_pure _ _)
      (follows_uint.pops.bind fun _ => pops_ensure_pure _ _)
  · exact pops_fail.mono (Nat.zero_le _)

theorem pops_readNonnegativeInteger : Pops 1 readNonnegativeInteger :=
  follows_uint.pops_attempt (fun value => pops_pure value)
    (follows_int.pops.bind fun _ => pops_ensure_pure _ _)

theorem pops_readTimestamp : Pops 1 readTimestamp :=
  follows_int.pops_attempt (fun _ => pops_ensure_pure _ _)
    (follows_uint.pops.bind fun _ => pops_ensure_pure _ _)

theorem takes_readNumber_int (value : ℤ) :
    Takes readNumber [.scalar (.int value)] ((some (.ofInt value)).filter Binary64.isFinite) := by
  refine takes_int fun low high => steps_peek.takes ?_
  by_cases small : value < 2 ^ 63
  · exact Steps.takes (steps_attempt_some follows_int (if_pos ⟨low, small⟩)) (takes_ensure_finite _)
  · refine Steps.takes (steps_attempt_none follows_int (if_neg fun range => small range.2)) ?_
    refine Steps.takes (steps_read follows_uint (if_pos ⟨by omega, high⟩)) ?_
    rw [Int.toNat_of_nonneg (by omega)]
    exact takes_ensure_finite _

theorem readsItem_readNumber : ReadsItem readNumber numberOf where
  pops := pops_readNumber
  takes {object result} eq := by
    cases object with
    | array | map => cases eq
    | scalar scalar =>
      cases scalar with
      | single bits | double bits =>
        cases eq
        exact steps_peek.takes (Steps.takes (steps_read follows_float rfl) (takes_ensure_finite _))
      | int value =>
        cases eq
        exact takes_readNumber_int value
      | nil | bool | str | bin | ext => cases eq
  stops {object} eq := by
    refine steps_peek.short ?_
    cases object with
    | array | map => exact short_fail (cons_ne_nil _ _)
    | scalar scalar =>
      cases scalar with
      | single | double | int => cases eq
      | nil | bool | str | bin | ext => exact short_fail (cons_ne_nil _ _)

theorem takes_readNonnegativeInteger (value : ℤ) :
    Takes readNonnegativeInteger [.scalar (.int value)]
      (if 0 ≤ value then some value.toNat else none) := by
  refine takes_int fun low high => ?_
  split_ifs with nonnegative
  · exact Steps.takes (steps_attempt_some follows_uint (if_pos ⟨nonnegative, high⟩)) (takes_pure _)
  · refine Steps.takes (steps_attempt_none follows_uint (if_neg fun range => nonnegative range.1)) ?_
    refine Steps.takes (steps_read follows_int (if_pos ⟨low, by omega⟩)) ?_
    rw [decide_eq_false nonnegative]
    exact Takes.bind_none takes_fail

theorem readsItem_readNonnegativeInteger : ReadsItem readNonnegativeInteger countOf where
  pops := pops_readNonnegativeInteger
  takes {object result} eq := by
    cases object with
    | array | map => cases eq
    | scalar scalar =>
      cases scalar with
      | int value =>
        cases eq
        exact takes_readNonnegativeInteger value
      | nil | bool | single | double | str | bin | ext => cases eq
  stops {object} eq := by
    cases object with
    | array | map =>
      exact Steps.short (steps_attempt_none follows_uint rfl) (short_read follows_int rfl)
    | scalar scalar =>
      cases scalar with
      | int => cases eq
      | nil | bool | single | double | str | bin | ext =>
        exact Steps.short (steps_attempt_none follows_uint rfl) (short_read follows_int rfl)

/-- A timestamp is read whatever integer it is. -/
theorem takes_readTimestamp (value : ℤ) :
    ∃ result, Takes readTimestamp [.scalar (.int value)] result := by
  by_cases range : -2 ^ 63 ≤ value ∧ value < 2 ^ 63
  · obtain ⟨result, takes⟩ := takes_ensure_pure (decide (0 ≤ value)) value
    exact ⟨result, Steps.takes (steps_attempt_some follows_int (if_pos range)) takes⟩
  · obtain ⟨result, takes⟩ :=
      takes_ensure_pure (decide (value.toNat ≤ i64Max)) (value.toNat : ℤ)
    refine ⟨result, takes_int fun low high =>
      Steps.takes (steps_attempt_none follows_int (if_neg range)) ?_⟩
    exact Steps.takes (steps_read follows_uint (if_pos ⟨by omega, high⟩)) takes

/-! ### Labels -/

section Fields

variable {α : Type} {object : Object}

theorem gives_skip_pure (a : α) :
    Gives True (skip >>= fun _ => (pure a : Read α)) [object] := gives_skip.map fun _ => a

theorem pops_skip_pure (a : α) : Pops 1 (skip >>= fun _ => (pure a : Read α)) :=
  pops_skip.bind fun _ => pops_pure a

theorem gives_readStr (g : String → α) (is_str : some object.head.kind = some Kind.str) :
    Gives (IsUtf8 object) (readStr >>= fun text => pure (g text)) [object] :=
  gives_readStr_bind (Option.some.inj is_str) fun text => (takes_pure (g text)).gives

end Fields

theorem pops_labelValue (fields : LabelFields) (key : String) : Pops 1 (labelValue fields key) := by
  refine pops_peek_bind fun next => ?_
  split_ifs
  · exact pops_map follows_str.pops _
  · exact pops_skip_pure _

theorem gives_labelValue (fields : LabelFields) (key : String) (object : Object) :
    Gives (IsUtf8 object) (labelValue fields key) [object] := by
  refine steps_peek.gives ?_
  split_ifs with is_str
  · exact gives_readStr _ is_str
  · refine (gives_skip_pure _).congr (iff_of_true trivial (textAligned_of_kind fun eq => ?_))
    exact is_str (congrArg some eq)

theorem pops_parseLabels : Pops 1 parseLabels :=
  (pops_readMembers pops_labelValue).bind fun _ => pops_ensure_pure _ _

theorem ends_parseLabels (entries : List (Object × Object)) :
    Ends (LabelsAligned entries) parseLabels [.map entries] :=
  (gives_readMembers (fun _ => IsUtf8) pops_labelValue gives_labelValue entries).bind
    (fun _ => pops_ensure_pure _ _) (fun _ => takes_ensure_pure _ _)

/-! ### Histograms -/

theorem pops_histogramValue (fields : HistogramFields) (key : String) :
    Pops 1 (histogramValue fields key) := by
  refine pops_peek_bind fun next => ?_
  split_ifs
  · exact pops_map (pops_readItems pops_readNumber).attempt _
  · exact pops_map (pops_readItems pops_readNonnegativeInteger).attempt _
  · exact pops_map pops_readNonnegativeInteger.attempt _
  · exact pops_map pops_readNumber.attempt _
  · exact pops_skip_pure _

theorem ends_readNumber (object : Object)
    (number : some object.head.kind = some Kind.int ∨ some object.head.kind = some Kind.float) :
    Ends True readNumber [object] := by
  cases object with
  | array | map => rcases number with eq | eq <;> cases eq
  | scalar scalar =>
    cases scalar with
    | int | single | double => exact (readsItem_readNumber.takes rfl).ends
    | nil | bool | str | bin | ext => rcases number with eq | eq <;> cases eq

theorem gives_histogramValue (fields : HistogramFields) (key : String) (object : Object) :
    Gives (HistogramValueAligned key object) (histogramValue fields key) [object] := by
  refine steps_peek.gives ?_
  split_ifs with boundaries counts total sum
  · obtain ⟨rfl, eq⟩ := boundaries
    obtain ⟨items, rfl⟩ := exists_array_of_kind (Option.some.inj eq)
    refine ((readsItem_readNumber.ends_readItems items).attempt.map _).congr ?_
    simp [HistogramValueAligned]
  · obtain ⟨rfl, eq⟩ := counts
    obtain ⟨items, rfl⟩ := exists_array_of_kind (Option.some.inj eq)
    refine ((readsItem_readNonnegativeInteger.ends_readItems items).attempt.map _).congr ?_
    simp [HistogramValueAligned]
  · obtain ⟨rfl, eq⟩ := total
    obtain ⟨value, rfl⟩ := exists_int_of_kind (Option.some.inj eq)
    exact (takes_readNonnegativeInteger value).ends.attempt.map _
  · refine ((ends_readNumber object sum.2).attempt.map _).congr (iff_of_true trivial ?_)
    cases object with
    | scalar | map => trivial
    | array => rcases sum.2 with eq | eq <;> cases eq
  · refine (gives_skip_pure _).congr (iff_of_true trivial ?_)
    cases object with
    | scalar | map => trivial
    | array =>
      exact ⟨fun eq => absurd ⟨eq, rfl⟩ boundaries, fun eq => absurd ⟨eq, rfl⟩ counts⟩

theorem pops_parseHistogram : Pops 1 parseHistogram :=
  (pops_readMembers pops_histogramValue).bind fun fields => pops_ofOption fields.histogram

theorem ends_parseHistogram (entries : List (Object × Object)) :
    Ends (HistogramAligned entries) parseHistogram [.map entries] :=
  (gives_readMembers HistogramValueAligned pops_histogramValue gives_histogramValue entries).bind
    (fun fields => pops_ofOption fields.histogram) fun fields => ⟨_, takes_ofOption fields.histogram⟩

/-! ### Records -/

theorem pops_parseWireValue : Pops 1 parseWireValue := by
  refine pops_peek_bind fun next => ?_
  split
  · exact pops_fail.mono (Nat.zero_le _)
  · exact pops_map pops_readNumber _
  · exact pops_map pops_readNumber _
  · exact pops_map pops_parseHistogram _
  · exact pops_skip.bind fun _ => pops_fail

/-- A value is read to its end unless it is a histogram that is not. -/
theorem ends_parseWireValue (object : Object) :
    Ends (RecordValueAligned "value" object) parseWireValue [object] := by
  refine steps_peek.ends ?_
  have other : Takes (skip >>= fun _ => (fail : Read WireValue)) [object] none :=
    (takes_skip object).bind takes_fail
  cases object with
  | array => exact other.ends.congr (by simp [RecordValueAligned])
  | map entries =>
    exact ((ends_parseHistogram entries).map WireValue.histogram).congr (by simp [RecordValueAligned])
  | scalar scalar =>
    have aligned : RecordValueAligned "value" (.scalar scalar) := by simp [RecordValueAligned]
    cases scalar with
    | int | single | double =>
      refine ((ends_readNumber _ ?_).map WireValue.number).congr (iff_of_true trivial aligned)
      first
        | exact .inl rfl
        | exact .inr rfl
    | nil | bool | str | bin | ext => exact other.ends.congr (iff_of_true trivial aligned)

theorem pops_recordValue (fields : RecordFields) (key : String) :
    Pops 1 (recordValue fields key) := by
  refine pops_peek_bind fun next => ?_
  split_ifs
  · exact pops_map follows_str.pops _
  · exact pops_map pops_parseLabels.attempt _
  · exact pops_map follows_str.pops _
  · exact pops_map pops_readTimestamp.attempt _
  · exact pops_skip_pure _
  · exact pops_map pops_parseWireValue.attempt _
  · exact pops_skip_pure _

theorem gives_recordValue (fields : RecordFields) (key : String) (object : Object) :
    Gives (RecordValueAligned key object) (recordValue fields key) [object] := by
  refine steps_peek.gives ?_
  split_ifs with name labels type timestamp timestamp' value
  · refine (gives_readStr _ name.2).congr ?_
    exact (recordValueAligned_str (.inl name.1) (Option.some.inj name.2)).symm
  · obtain ⟨rfl, eq⟩ := labels
    obtain ⟨entries, rfl⟩ := exists_map_of_kind (Option.some.inj eq)
    refine ((ends_parseLabels entries).attempt.map _).congr ?_
    simp [RecordValueAligned]
  · refine (gives_readStr _ type.2).congr ?_
    exact (recordValueAligned_str (.inr type.1) (Option.some.inj type.2)).symm
  · obtain ⟨rfl, eq⟩ := timestamp
    obtain ⟨number, rfl⟩ := exists_int_of_kind (Option.some.inj eq)
    obtain ⟨result, takes⟩ := takes_readTimestamp number
    exact (takes.ends.attempt.map _).congr (by simp [RecordValueAligned])
  · subst timestamp'
    refine (gives_skip_pure _).congr (iff_of_true trivial ?_)
    exact recordValueAligned_of_ne (by decide) (fun eq => absurd eq (by decide))
      fun eq => absurd eq (by decide)
  · subst value
    exact (ends_parseWireValue object).attempt.map _
  · refine (gives_skip_pure _).congr (iff_of_true trivial ?_)
    refine recordValueAligned_of_ne value ?_ fun eq kind => labels ⟨eq, congrArg some kind⟩
    rintro (eq | eq) kind
    · exact name ⟨eq, congrArg some kind⟩
    · exact type ⟨eq, congrArg some kind⟩

variable (bootId : Guid) (receiptTimestamp : ℤ)

theorem pops_parseRecord : Pops 1 (parseRecord bootId receiptTimestamp) :=
  (pops_readMembers pops_recordValue).bind fun _ => pops_ofOption _

theorem ends_parseRecord (entries : List (Object × Object)) :
    Ends (RecordAligned entries) (parseRecord bootId receiptTimestamp) [.map entries] :=
  (gives_readMembers RecordValueAligned pops_recordValue gives_recordValue entries).bind
    (fun _ => pops_ofOption _) fun _ => ⟨_, takes_ofOption _⟩

/-! ### Datagrams -/

theorem pops_parseElement (records : List MetricRecord) :
    Pops 1 (parseElement bootId receiptTimestamp records) := by
  refine pops_peek_bind fun next => ?_
  split_ifs
  · exact pops_map (pops_parseRecord bootId receiptTimestamp).attempt _
  · exact pops_fail.mono (Nat.zero_le _)

theorem gives_parseElement (entries : List (Object × Object)) (records : List MetricRecord) :
    Gives (RecordAligned entries) (parseElement bootId receiptTimestamp records) [.map entries] :=
  steps_peek.gives ((ends_parseRecord bootId receiptTimestamp entries).attempt.map _)

variable {bytes : List UInt8} {elements : List MapElement}

/-- What an element whose end is reached gives in a datagram is what it gives alone. -/
theorem MapElement.takes (element : MapElement) (aligned : RecordAligned element.entries) :
    Takes (parseRecord bootId receiptTimestamp) [.map element.entries]
      (parseRecord bootId receiptTimestamp element.bytes).1 := by
  obtain ⟨result, takes⟩ := (ends_parseRecord bootId receiptTimestamp element.entries).1 aligned
  obtain ⟨rest, eq, -⟩ := takes element.bytes [] element.reads
  rw [eq]
  exact takes

theorem takes_parseElement (element : MapElement) (aligned : RecordAligned element.entries)
    (records : List MetricRecord) :
    Takes (parseElement bootId receiptTimestamp records) [.map element.entries]
      (some (records ++ (parseRecord bootId receiptTimestamp element.bytes).1.toList)) :=
  steps_peek.takes ((element.takes bootId receiptTimestamp aligned).attempt.bind_done (takes_pure _))

theorem takes_parseRecords (aligned : ∀ element ∈ elements, RecordAligned element.entries) :
    Takes (parseRecords bootId receiptTimestamp)
      [.array (elements.flatMap fun element => [.map element.entries])]
      (some (acceptedAlone bootId receiptTimestamp elements)) := by
  refine steps_peek.takes (Steps.takes (steps_read (a := elements.length) follows_array ?_) ?_)
  · simp [Object.head, Head.array?]
  · rw [append_nil]
    have loop := takes_iterate (fun element mem records =>
      takes_parseElement bootId receiptTimestamp element (aligned element mem) records) []
    rw [foldl_elements] at loop
    exact loop

theorem short_parseRecords (misaligned : ¬ ∀ element ∈ elements, RecordAligned element.entries) :
    Short (parseRecords bootId receiptTimestamp)
      [.array (elements.flatMap fun element => [.map element.entries])] := by
  refine steps_peek.short (Steps.short (steps_read (a := elements.length) follows_array ?_) ?_)
  · simp [Object.head, Head.array?]
  · rw [append_nil]
    have width : ∀ element : MapElement, [Object.map element.entries].length = 1 := fun _ => rfl
    exact (gives_iterate width (pops_parseElement bootId receiptTimestamp)
      (fun element => gives_parseElement bootId receiptTimestamp element.entries) elements []).2
      misaligned

section Whole

variable {bootId receiptTimestamp} {validate : List UInt8 → Bool}

/-- A datagram whose elements are all read to their ends gives what each gives alone. -/
theorem parseDatagram_elements (valid : validate bytes = true) (array : IsArrayOf bytes elements)
    (aligned : ∀ element ∈ elements, RecordAligned element.entries) :
    parseDatagram validate bootId receiptTimestamp bytes
      = some (acceptedAlone bootId receiptTimestamp elements) := by
  obtain ⟨rest, eq, here⟩ := takes_parseRecords bootId receiptTimestamp aligned bytes [] array.at_array
  obtain rfl := at_nil_iff.1 here
  rw [parseDatagram, if_pos valid, eq]

/-- A datagram with an element whose end is not reached is dropped. -/
theorem parseDatagram_misaligned (array : IsArrayOf bytes elements)
    (misaligned : ¬ ∀ element ∈ elements, RecordAligned element.entries) :
    parseDatagram validate bootId receiptTimestamp bytes = none := by
  obtain ⟨left, leftAt, lt⟩ :=
    short_parseRecords bootId receiptTimestamp misaligned bytes [] array.at_array
  rw [parseDatagram]
  split_ifs
  · rcases eq : parseRecords bootId receiptTimestamp bytes with ⟨_ | records, _ | ⟨byte, rest⟩⟩
    · rfl
    · rfl
    · rw [eq] at leftAt
      rw [eq_nil_of_at leftAt] at lt
      exact absurd lt (Nat.lt_irrefl 0)
    · rfl
  · rfl

variable (validate bootId receiptTimestamp)

/-- One bad record in an array of maps.  The records of a datagram are those that its elements give
alone if and only if the reader reaches the end of every element, or no element is accepted alone
anyway; and an element that is not accepted is never counted. -/
theorem bad_record_spoils_iff {Token : Type} {maps : List (List (Object × Object))}
    (valid : validate bytes = true) (reads : Reads bytes (.array (maps.map .map)) [])
    (token : Token) (diagnostics : MetricDiagnostics) :
    ∃ elements : List MapElement,
      elements.map MapElement.entries = maps ∧ IsArrayOf bytes elements ∧
      ((parseDatagram validate bootId receiptTimestamp bytes).getD []
          = acceptedAlone bootId receiptTimestamp elements ↔
        (∀ element ∈ elements, RecordAligned element.entries) ∨
          acceptedAlone bootId receiptTimestamp elements = []) ∧
      ((parseDatagram validate bootId receiptTimestamp bytes).getD []
          = acceptedAlone bootId receiptTimestamp elements ∧
        (receiveMetrics validate (fun _ records => some (records, 0)) bootId receiptTimestamp
            diagnostics (.datagram bytes (some token))).2.total
          = diagnostics.total +
            (elements.length - (acceptedAlone bootId receiptTimestamp elements).length) ↔
        ∀ element ∈ elements, RecordAligned element.entries ∧
          (parseRecord bootId receiptTimestamp element.bytes).1.isSome) := by
  obtain ⟨elements, rfl, array⟩ := exists_isArrayOf reads
  refine ⟨elements, rfl, array, ?_⟩
  have parsed : (parseDatagram validate bootId receiptTimestamp bytes).getD []
      = acceptedAlone bootId receiptTimestamp elements ↔
        (∀ element ∈ elements, RecordAligned element.entries) ∨
          acceptedAlone bootId receiptTimestamp elements = [] := by
    by_cases aligned : ∀ element ∈ elements, RecordAligned element.entries
    · rw [parseDatagram_elements valid array aligned, Option.getD_some]
      exact iff_of_true rfl (.inl aligned)
    · rw [parseDatagram_misaligned array aligned, Option.getD_none, eq_comm, or_iff_right aligned]
  refine ⟨parsed, ?_⟩
  rw [parsed, total_receiveMetrics, forall₂_and, left_eq_add, Nat.sub_eq_zero_iff_le]
  constructor
  · rintro ⟨whole, enough⟩
    have all := filterMap_length_eq_length.1 ((length_filterMap_le _ _).antisymm enough)
    refine ⟨?_, all⟩
    rcases whole with aligned | empty
    · exact aligned
    · rw [empty, length_nil, Nat.le_zero, length_eq_zero_iff] at enough
      simp [enough]
  · rintro ⟨aligned, all⟩
    exact ⟨.inl aligned, (filterMap_length_eq_length.2 all).ge⟩

end Whole

end Parser

/-- A short string. -/
def fixstr (text : String) : List UInt8 := .ofNat (0xa0 + (bytesOf text).length) :: bytesOf text

/-- A gauge named `b`. -/
def gaugeRecord : List UInt8 :=
  0x83 :: fixstr "name" ++ fixstr "b" ++ fixstr "type" ++ fixstr "gauge" ++ fixstr "value" ++ [1]

/-- A histogram named `a` with a boundary that is a text. -/
def textBoundaryRecord : List UInt8 :=
  0x83 :: fixstr "name" ++ fixstr "a" ++ fixstr "type" ++ fixstr "histogram" ++ fixstr "value" ++
    0x84 :: fixstr "boundaries" ++ 0x91 :: fixstr "x" ++ fixstr "counts" ++ [0x91, 1] ++
    fixstr "total_count" ++ [1] ++ fixstr "sum" ++ [1]

/-- An element with the one field `x`, and the gauge. -/
def fieldAndGauge : List UInt8 := [0x92, 0x81, 0xa1, 0x78, 0x01] ++ gaugeRecord

section Example

attribute [local instance] formatReader lawful_formatReader

/-- The first is not accepted, and the second is. -/
theorem bad_record_spoils_neighbour :
    parseDatagram (fun _ => true) (.replicate 16 0) 7 fieldAndGauge
        = some [⟨.replicate 16 0, 7, "b", "", .gauge, .number (.ofInt 1)⟩] ∧
    ∃ elements : List MapElement, IsArrayOf fieldAndGauge elements ∧
      ((parseDatagram (fun _ => true) (.replicate 16 0) 7 fieldAndGauge).getD []
          = acceptedAlone (.replicate 16 0) 7 elements ↔
        (∀ element ∈ elements, RecordAligned element.entries) ∨
          acceptedAlone (.replicate 16 0) 7 elements = []) := by
  have reads : Reads fieldAndGauge
      (.array ([[(.scalar (.str [0x78]), .scalar (.int 1))],
        [(.scalar (.str (bytesOf "name")), .scalar (.str (bytesOf "b"))),
          (.scalar (.str (bytesOf "type")), .scalar (.str (bytesOf "gauge"))),
          (.scalar (.str (bytesOf "value")), .scalar (.int 1))]].map .map)) [] := by
    have text (text : String) (short : (bytesOf text).length ≤ 31) (rest : List UInt8) :
        readHead (fixstr text ++ rest) = some (.scalar (.str (bytesOf text)), rest) :=
      readHead_fixstr short rest
    simp only [fieldAndGauge, gaugeRecord, cons_append, append_assoc]
    refine .array rfl (.map rfl (.scalar (text "x" (by decide) _) (.scalar rfl .done))
      (.map rfl ?_ .done)) .done
    refine .scalar (text _ (by decide) _) (.scalar (text _ (by decide) _) ?_)
    refine .scalar (text _ (by decide) _) (.scalar (text _ (by decide) _) ?_)
    exact .scalar (text _ (by decide) _) (.scalar rfl .done)
  obtain ⟨elements, -, array, parsed, -⟩ :=
    bad_record_spoils_iff (.replicate 16 0) 7 (fun _ => true) rfl reads () ⟨0, 0, 0, 0⟩
  exact ⟨by decide +kernel, elements, array, parsed⟩

/-- A gauge is lost because the record before it has a text for a boundary, and neither record is
counted. -/
theorem text_boundary_spoils_gauge :
    (parseRecord (.replicate 16 0) 7 gaugeRecord).1.isSome = true ∧
      parseDatagram (fun _ => true) (.replicate 16 0) 7
        (0x92 :: textBoundaryRecord ++ gaugeRecord) = none ∧
      (receiveMetrics (fun _ => true) (fun () records => some (records, 0)) (.replicate 16 0) 7
        ⟨0, 0, 0, 0⟩ (.datagram (0x92 :: textBoundaryRecord ++ gaugeRecord) (some ()))).2
          = ⟨0, 0, 0, 0⟩ := by
  decide +kernel

end Example

end Eventd.MetricIngest
