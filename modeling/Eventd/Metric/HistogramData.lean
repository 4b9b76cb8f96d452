import Mathlib.Algebra.Order.Floor.Div
import Eventd.Query.Payload
import Eventd.Metric.Ingest
import Eventd.Metric.Window

/-!
# Percentiles of stored histograms

`encode_histogram` of `eventd-core/src/metric_store.rs`, which writes a histogram sample, and
`histogram_percentile` of `eventd/src/query/executor.rs`, which reads it again.

* `encodeHistogram`: the map that is stored;
* `percentileOfBytes`: the percentile of a stored map;
* `Accepted`: what a histogram that was ingested is known to be;
* `IsPercentile`: what a percentile is;
* `percentile_of_stored_iff`: when the one is the other.
-/

namespace Eventd.HistogramData

open List MessagePack

/-! ### Writing -/

/-- Write a key as fixstr. -/
def packStr (value : String) : List UInt8 :=
  (0xa0 ||| UInt8.ofNat (bytesOf value).length) :: bytesOf value

/-- Write the header of an array, of no more than `u32::MAX` items. -/
def packArray (length : ℕ) : List UInt8 :=
  if length ≤ 15 then [0x90 ||| UInt8.ofNat length]
  else if length ≤ 0xffff then 0xdc :: beBytes 2 length
  else 0xdd :: beBytes 4 length

def packFloat (value : Binary64) : List UInt8 := 0xcb :: beBytes 8 value.bits.toNat

def packUint (value : ℕ) : List UInt8 := packU64 value

/-- The map that is stored for a histogram. -/
def encodeHistogram (histogram : Histogram) : List UInt8 :=
  [0x84] ++ packStr "sum" ++ packFloat histogram.sum ++
    packStr "counts" ++ packArray histogram.counts.length ++ histogram.counts.flatMap packUint ++
    packStr "boundaries" ++ packArray histogram.boundaries.length ++
    histogram.boundaries.flatMap packFloat ++
    packStr "total_count" ++ packUint histogram.totalCount

/-! ### Reading -/

/-- Why there is no percentile. -/
inductive PercentileError
  | peios
  | invalidHistogram
  deriving DecidableEq

/-- The value of the first entry with this name. -/
def get (entries : List (Value × Value)) (name : String) : Option Value :=
  entries.findSome? fun
    | (.string key, value) => if key = name then some value else none
    | _ => none

def unsignedOf : Value → Except PercentileError ℕ
  | .unsigned value => .ok value.toNat
  | .signed value => if 0 ≤ value.toInt then .ok value.toInt.toNat else .error .invalidHistogram
  | _ => .error .invalidHistogram

/-- The first boundary whose count reaches the rank. -/
def firstReaching (rank : ℕ) : List (Value × Value) → Except PercentileError PercentileValue
  | [] => .ok .overflow
  | (boundary, count) :: buckets => do
      let count ← unsignedOf count
      if rank ≤ count then
        match boundary with
        | .float value => return .finite value
        | _ => .error .invalidHistogram
      else firstReaching rank buckets

/-- The percentile of a map's entries. -/
def percentileOfEntries (entries : List (Value × Value)) (percentile : ℕ) :
    Except PercentileError PercentileValue := do
  let total ← match get entries "total_count" with
    | some value => unsignedOf value
    | none => .error .invalidHistogram
  if total = 0 then return .empty
  if u64Max < total * percentile ∨ u64Max < total * percentile + 99 then
    .error .invalidHistogram
  else
    let rank := (total * percentile + 99) / 100
    match get entries "boundaries", get entries "counts" with
    | some (.array boundaries), some (.array counts) => firstReaching rank (boundaries.zip counts)
    | _, _ => .error .invalidHistogram

/-- The percentile of a stored histogram. -/
def percentileOfBytes [Reader] (bytes : List UInt8) (percentile : ℕ) :
    Except PercentileError PercentileValue :=
  match decode bytes with
  | none => .error .peios
  | some (.map entries) => percentileOfEntries entries percentile
  | some _ => .error .invalidHistogram

/-! ### What is written is read back -/

section Heads

theorem readHead_packFloat (value : Binary64) (rest : List UInt8) :
    readHead (packFloat value ++ rest) = some (.scalar (.double value.bits.toNat), rest) := by
  have fits : value.bits.toNat < 256 ^ 8 := value.bits.toNat_lt
  have format : Format.of 0xcb = .fixed 8 fun bytes => .double (beNat bytes) := by
    simp [Format.of, Format.ofNat]
  rw [packFloat, readHead_fixed format (length_beBytes 8 _), beNat_beBytes fits]

theorem readHead_be {first : UInt8} {width value : ℕ}
    (format : Format.of first = .fixed width fun bytes => .int (beNat bytes))
    (fits : value < 256 ^ width) (rest : List UInt8) :
    readHead (first :: beBytes width value ++ rest) = some (.scalar (.int value), rest) := by
  rw [readHead_fixed format (length_beBytes width _), beNat_beBytes fits]

theorem readHead_packUint {value : ℕ} (fits : value < 2 ^ 64) (rest : List UInt8) :
    readHead (packUint value ++ rest) = some (.scalar (.int value), rest) := by
  rw [packUint, packU64]
  split_ifs with one two three four
  · have small : (UInt8.ofNat value).toNat = value := by
      rw [UInt8.toNat_ofNat']
      omega
    rw [singleton_append, readHead, Format.of, small, Format.ofNat, if_pos one]
    rfl
  all_goals exact readHead_be (by simp [Format.of, Format.ofNat]) (by omega) rest

theorem fixarray_head : ∀ length ≤ 15,
    (0x90 ||| UInt8.ofNat length : UInt8).toNat = 0x90 + length := by
  decide

theorem readHead_packArray {length : ℕ} (fits : length < 2 ^ 32) (rest : List UInt8) :
    readHead (packArray length ++ rest) = some (.array length, rest) := by
  rw [packArray]
  split_ifs with short wide
  · rw [singleton_append, readHead, Format.of, fixarray_head length short,
      Format.ofNat_fixarray (by omega) (by omega), Nat.add_sub_cancel_left]
    rfl
  · exact readHead_arraySized (by simp [Format.of, Format.ofNat]) (by omega) rest
  · exact readHead_arraySized (by simp [Format.of, Format.ofNat]) (by omega) rest

theorem readHead_packStr {text : String} (short : (bytesOf text).length ≤ 31) (rest : List UInt8) :
    readHead (packStr text ++ rest) = some (.scalar (.str (bytesOf text)), rest) := by
  rw [packStr, fixstr_head _ short]
  exact readHead_fixstr short rest

end Heads

/-- The object that is stored for a histogram. -/
def histogramObject (histogram : Histogram) : Object :=
  .map
    [(.scalar (.str (bytesOf "sum")), .scalar (.double histogram.sum.bits.toNat)),
      (.scalar (.str (bytesOf "counts")),
        .array (histogram.counts.map fun count : ℕ => .scalar (.int count))),
      (.scalar (.str (bytesOf "boundaries")),
        .array (histogram.boundaries.map fun boundary => .scalar (.double boundary.bits.toNat))),
      (.scalar (.str (bytesOf "total_count")), .scalar (.int histogram.totalCount))]

/-- A count as a value. -/
def countValue (count : ℕ) : Value :=
  if count < 2 ^ 63 then .signed (.ofInt count) else .unsigned (.ofNat count)

/-- The entries of a stored histogram. -/
def histogramEntries (histogram : Histogram) : List (Value × Value) :=
  [(.string "sum", .float histogram.sum),
    (.string "counts", .array (histogram.counts.map countValue)),
    (.string "boundaries", .array (histogram.boundaries.map .float)),
    (.string "total_count", countValue histogram.totalCount)]

section RoundTrip

variable {histogram : Histogram}

theorem reads_counts {counts : List ℕ} (fits : ∀ count ∈ counts, count < 2 ^ 64) (rest : List UInt8) :
    ReadsAll (counts.flatMap packUint ++ rest) (counts.map fun count : ℕ => .scalar (.int count)) rest := by
  induction counts with
  | nil => exact .done
  | cons count counts ih =>
    rw [flatMap_cons, append_assoc]
    exact .scalar (readHead_packUint (fits count mem_cons_self) _)
      (ih fun count mem => fits count (mem_cons_of_mem _ mem))

theorem reads_boundaries (boundaries : List Binary64) (rest : List UInt8) :
    ReadsAll (boundaries.flatMap packFloat ++ rest)
      (boundaries.map fun boundary => .scalar (.double boundary.bits.toNat)) rest := by
  induction boundaries with
  | nil => exact .done
  | cons boundary boundaries ih =>
    rw [flatMap_cons, append_assoc]
    exact .scalar (readHead_packFloat boundary _) ih

/-- What a histogram must be for its map to be written without a loss. -/
structure Encodable (histogram : Histogram) : Prop where
  boundaries_short : histogram.boundaries.length < 2 ^ 32
  counts_short : histogram.counts.length < 2 ^ 32
  counts_fit : ∀ count ∈ histogram.counts, count < 2 ^ 64
  total_fits : histogram.totalCount < 2 ^ 64

theorem reads_encodeHistogram (encodable : Encodable histogram) :
    Reads (encodeHistogram histogram) (histogramObject histogram) [] := by
  have map : ∀ rest, readHead ([0x84] ++ rest) = some (.map 4, rest) := fun rest => by
    simp [readHead, Format.of, Format.ofNat, Format.read]
  have short : ∀ text ∈ ["sum", "counts", "boundaries", "total_count"],
      (bytesOf text).length ≤ 31 := by
    decide +kernel
  simp only [forall_mem_cons] at short
  obtain ⟨sum, counts, boundaries, total, -⟩ := short
  have length (items : List Object) (l : ℕ) (eq : items.length = l) (fits : l < 2 ^ 32)
      (rest : List UInt8) :
      readHead (packArray l ++ rest) = some (.array items.length, rest) := by
    rw [eq]
    exact readHead_packArray fits rest
  unfold encodeHistogram
  simp only [append_assoc]
  refine .map (map _) (.scalar (readHead_packStr sum _) (.scalar (readHead_packFloat _ _)
    (.scalar (readHead_packStr counts _) (.array (length _ _ (length_map _)
      encodable.counts_short _) (reads_counts encodable.counts_fit _) ?_)))) .done
  refine .scalar (readHead_packStr boundaries _) (.array (length _ _ (length_map _)
    encodable.boundaries_short _) (reads_boundaries _ _) ?_)
  refine .scalar (readHead_packStr total _) (.scalar ?_ .done)
  have last := readHead_packUint encodable.total_fits []
  rwa [append_nil] at last

theorem objectValue_text (text : String) :
    objectValue (.scalar (.str (bytesOf text))) = some (.string text) := by
  have utf8 : String.fromUTF8? ⟨(bytesOf text).toArray⟩ = some text := dif_pos text.isValidUTF8
  rw [objectValue, scalarValue, utf8]
  rfl

theorem objectValue_count (count : ℕ) :
    objectValue (.scalar (.int count)) = some (countValue count) := by
  rw [objectValue, scalarValue, countValue, Int.toNat_natCast]
  have iff : ((count : ℤ) < 2 ^ 63) ↔ count < 2 ^ 63 := by omega
  rw [if_congr iff rfl rfl]

theorem objectValue_float (value : Binary64) :
    objectValue (.scalar (.double value.bits.toNat)) = some (.float value) := by
  rw [objectValue, scalarValue, UInt64.ofNat_toNat]

theorem objectValue_array {α : Type} {object : α → Object} {value : α → Value}
    (each : ∀ a, objectValue (object a) = some (value a)) (items : List α) :
    objectValue (.array (items.map object)) = some (.array (items.map value)) := by
  have values : objectValues (items.map object) = some (items.map value) := by
    induction items with
    | nil => rfl
    | cons item items ih =>
      rw [map_cons, objectValues, each, ih]
      rfl
  rw [objectValue, values]
  rfl

theorem objectEntries_cons {key value : Object} {keyValue valueValue : Value}
    {entries : List (Object × Object)} {values : List (Value × Value)}
    (is_key : objectValue key = some keyValue) (is_value : objectValue value = some valueValue)
    (others : objectEntries entries = some values) :
    objectEntries ((key, value) :: entries) = some ((keyValue, valueValue) :: values) := by
  rw [objectEntries, is_key, is_value, others]
  rfl

theorem objectValue_histogramObject (histogram : Histogram) :
    objectValue (histogramObject histogram) = some (.map (histogramEntries histogram)) := by
  have entries : objectEntries _ = some (histogramEntries histogram) :=
    objectEntries_cons (objectValue_text "sum") (objectValue_float histogram.sum)
      (objectEntries_cons (objectValue_text "counts")
        (objectValue_array objectValue_count histogram.counts)
        (objectEntries_cons (objectValue_text "boundaries")
          (objectValue_array objectValue_float histogram.boundaries)
          (objectEntries_cons (objectValue_text "total_count")
            (objectValue_count histogram.totalCount) (show objectEntries [] = some [] from rfl))))
  rw [histogramObject, objectValue, entries]
  rfl

theorem decode_encodeHistogram [Reader] [LawfulReader] (encodable : Encodable histogram) :
    decode (encodeHistogram histogram) = some (.map (histogramEntries histogram)) :=
  decode_reads (reads_encodeHistogram encodable) (objectValue_histogramObject histogram)

theorem unsignedOf_countValue {count : ℕ} (fits : count < 2 ^ 64) :
    unsignedOf (countValue count) = .ok count := by
  unfold countValue
  split_ifs with small
  · have int : (Int64.ofInt count).toInt = count :=
      Int64.toInt_ofInt_of_le (by omega) (by omega)
    rw [unsignedOf, int, if_pos (Int.natCast_nonneg count), Int.toNat_natCast]
  · rw [unsignedOf, UInt64.toNat_ofNat', Nat.mod_eq_of_lt fits]

theorem firstReaching_eq (rank : ℕ) {boundaries : List Binary64} {counts : List ℕ}
    (fits : ∀ count ∈ counts, count < 2 ^ 64) :
    firstReaching rank ((boundaries.map Value.float).zip (counts.map countValue))
      = .ok (match (boundaries.zip counts).find? fun bucket => decide (rank ≤ bucket.2) with
        | some bucket => .finite bucket.1
        | none => .overflow) := by
  induction boundaries generalizing counts with
  | nil => rfl
  | cons boundary boundaries ih =>
    cases counts with
    | nil => rfl
    | cons count counts =>
      rw [map_cons, map_cons, zip_cons_cons, firstReaching,
        unsignedOf_countValue (fits count mem_cons_self), zip_cons_cons,
        List.find?_cons]
      by_cases reached : rank ≤ count
      · simp [reached, bind, Except.bind, pure, Except.pure]
      · simp only [reached, decide_false, bind, Except.bind, if_false]
        exact ih fun count mem => fits count (mem_cons_of_mem _ mem)

/-- The percentile of a stored histogram is that of the histogram. -/
theorem percentileOfBytes_encodeHistogram [Reader] [LawfulReader]
    (encodable : Encodable histogram) (percentile : Percentile) :
    percentileOfBytes (encodeHistogram histogram) percentile.value
      = (histogramPercentile histogram percentile).mapError fun _ => .invalidHistogram := by
  have total : get (histogramEntries histogram) "total_count"
      = some (countValue histogram.totalCount) := by
    simp [get, histogramEntries]
  have boundaries : get (histogramEntries histogram) "boundaries"
      = some (.array (histogram.boundaries.map .float)) := by
    simp [get, histogramEntries]
  have counts : get (histogramEntries histogram) "counts"
      = some (.array (histogram.counts.map countValue)) := by
    simp [get, histogramEntries]
  rw [percentileOfBytes, decode_encodeHistogram encodable]
  simp only [percentileOfEntries, total, boundaries, counts,
    unsignedOf_countValue encodable.total_fits, firstReaching_eq _ encodable.counts_fit]
  rw [histogramPercentile]
  dsimp only [bind, Except.bind]
  by_cases zero : histogram.totalCount = 0
  · rw [if_pos zero, if_pos zero]
    rfl
  rw [if_neg zero, if_neg zero]
  by_cases large : u64Max < histogram.totalCount * percentile.value + 99
  · rw [if_pos (.inr large), if_pos large]
    rfl
  · rw [if_neg (by omega), if_neg large]
    cases List.find? _ (histogram.boundaries.zip histogram.counts) <;> rfl

end RoundTrip

/-! ### What is ingested -/

/-- What a histogram that was ingested is known to be. -/
structure Accepted (histogram : Histogram) : Prop where
  same_length : histogram.boundaries.length = histogram.counts.length
  short : histogram.boundaries.length < 2 ^ 32
  finite : ∀ boundary ∈ histogram.boundaries, boundary.isFinite = true
  increasing : histogram.boundaries.Pairwise fun x y => x.scaled < y.scaled
  cumulative : histogram.counts.Pairwise (· ≤ ·)
  counts_le : ∀ count ∈ histogram.counts, count ≤ histogram.totalCount
  total_fits : histogram.totalCount < 2 ^ 64

section Ingested

open MessagePack.Read MetricIngest

theorem pairwiseNext_iff {α : Type} {related : α → α → Bool} (l : List α) :
    pairwiseNext related l = true ↔ l.IsChain fun x y => related x y = true := by
  induction l with
  | nil => simp [pairwiseNext]
  | cons x l ih =>
    cases l with
    | nil => simp [pairwiseNext]
    | cons y l =>
      rw [isChain_cons_cons, ← ih]
      simp [pairwiseNext]

theorem scaled_lt_of_lt {x y : Binary64} (lt : x.lt y = true) : x.scaled < y.scaled := by
  unfold Binary64.lt Binary64.partialCmp at lt
  split_ifs at lt
  · cases lt
  · simpa [compare_lt_iff_lt] using lt

theorem accepted_of_validHistogram {histogram : Histogram} (valid : validHistogram histogram = true)
    (short : histogram.boundaries.length < 2 ^ 32)
    (finite : ∀ boundary ∈ histogram.boundaries, boundary.isFinite = true)
    (total_fits : histogram.totalCount < 2 ^ 64) : Accepted histogram := by
  simp only [validHistogram, Bool.and_eq_true, beq_iff_eq, all_eq_true, decide_eq_true_eq,
    pairwiseNext_iff] at valid
  obtain ⟨⟨⟨⟨⟨-, same_length⟩, increasing⟩, cumulative⟩, counts_le⟩, -⟩ := valid
  exact {
    same_length, short, finite, total_fits, counts_le
    increasing := isChain_iff_pairwise.1 (increasing.imp fun _ _ => scaled_lt_of_lt)
    cumulative := isChain_iff_pairwise.1 cumulative }

/-- What the fields of a histogram that were read are known to be. -/
def FieldsKnown (fields : HistogramFields) : Prop :=
  (∀ boundaries ∈ fields.boundaries, boundaries.length < 2 ^ 32 ∧
    ∀ boundary ∈ boundaries, boundary.isFinite = true) ∧
  ∀ total ∈ fields.totalCount, total < 2 ^ 64

theorem accepted_of_fields {fields : HistogramFields} (known : FieldsKnown fields) :
    ∀ histogram ∈ fields.histogram, Accepted histogram := by
  intro histogram eq
  obtain ⟨boundaries, is_boundaries, eq⟩ := Option.bind_eq_some_iff.1 eq
  obtain ⟨counts, -, eq⟩ := Option.bind_eq_some_iff.1 eq
  obtain ⟨total, is_total, eq⟩ := Option.bind_eq_some_iff.1 eq
  obtain ⟨sum, -, eq⟩ := Option.bind_eq_some_iff.1 eq
  dsimp only at eq
  split_ifs at eq with valid
  cases eq
  obtain ⟨short, finite⟩ := known.1 boundaries is_boundaries
  exact accepted_of_validHistogram (Bool.and_eq_true_iff.1 valid).2 short finite
    (known.2 total is_total)

/-- A value that is a histogram was accepted. -/
def ValueKnown (fields : RecordFields) : Prop :=
  ∀ histogram, fields.value = some (.histogram histogram) → Accepted histogram

/-- A histogram of a record that is accepted was accepted. -/
theorem accepted_of_record {fields : RecordFields} (known : ValueKnown fields) (bootId : Guid)
    (receiptTimestamp : ℤ) : ∀ record ∈ fields.record bootId receiptTimestamp,
      ∀ histogram, record.value = .histogram histogram → Accepted histogram := by
  intro record eq histogram is_histogram
  obtain ⟨name, -, eq⟩ := Option.bind_eq_some_iff.1 eq
  obtain ⟨metricType, -, eq⟩ := Option.bind_eq_some_iff.1 eq
  obtain ⟨wire, is_wire, eq⟩ := Option.bind_eq_some_iff.1 eq
  obtain ⟨value, is_value, eq⟩ := Option.bind_eq_some_iff.1 eq
  split at eq
  swap
  · cases eq
  cases eq
  subst is_histogram
  refine known histogram ?_
  rw [is_wire]
  cases metricType <;> cases wire <;> simp_all [metricValueOf]

variable [Reader]

theorem yields_readNumber : Yields (fun value => value.isFinite = true) readNumber := by
  refine yields_any.bind fun next _ => ?_
  split
  · exact yields_any.bind fun value _ => yields_ensure_pure id
  · refine yields_any.bind fun found _ => ?_
    split
    · exact yields_ensure_pure id
    · exact yields_any.bind fun value _ => yields_ensure_pure id
  · exact yields_fail

variable [LawfulReader]

theorem yields_readUint : Yields (fun value => value < 2 ^ 64) Read.readUint := by
  refine follows_uint.yields fun head value _ eq => ?_
  unfold Head.uint? at eq
  split at eq
  · split_ifs at eq with range
    cases eq
    omega
  · cases eq

theorem yields_readNonnegativeInteger : Yields (fun value => value < 2 ^ 64) readNonnegativeInteger := by
  have small : Yields (fun value => value < 2 ^ 63) readInt := by
    refine follows_int.yields fun head value _ eq => ?_
    unfold Head.int? at eq
    split at eq
    · split_ifs at eq with range
      cases eq
      exact range.2
    · cases eq
  refine yields_readUint.attempt.bind fun found fits => ?_
  split
  · exact yields_pure (fits _ rfl)
  · exact small.bind fun value lt => yields_ensure_pure fun _ => by omega

theorem yields_histogramValue (fields : HistogramFields) (key : String)
    (known : FieldsKnown fields) : Yields FieldsKnown (histogramValue fields key) := by
  refine yields_any.bind fun next _ => ?_
  split_ifs
  · exact (yields_readItems yields_readNumber).attempt.bind fun _ read => yields_pure ⟨read, known.2⟩
  · exact yields_any.bind fun _ _ => yields_pure known
  · exact yields_readNonnegativeInteger.attempt.bind fun _ read => yields_pure ⟨known.1, read⟩
  · exact yields_any.bind fun _ _ => yields_pure known
  · exact yields_any.bind fun _ _ => yields_pure known

theorem yields_parseHistogram : Yields Accepted parseHistogram := by
  have start : FieldsKnown ⟨[], none, none, none, none, true⟩ := by
    constructor
    · intro boundaries absent
      cases absent
    · intro total absent
      cases absent
  have refuses : ∀ fields, FieldsKnown fields → FieldsKnown { fields with valid := false } :=
    fun _ known => known
  exact (yields_readMembers refuses yields_histogramValue start).bind
    fun fields known => yields_ofOption (accepted_of_fields known)

theorem yields_parseWireValue :
    Yields (fun value => ∀ histogram, value = .histogram histogram → Accepted histogram)
      parseWireValue := by
  refine yields_any.bind fun next _ => ?_
  split
  · exact yields_fail
  · exact yields_any.bind fun _ _ => yields_pure fun _ absent => by cases absent
  · exact yields_any.bind fun _ _ => yields_pure fun _ absent => by cases absent
  · refine yields_parseHistogram.bind fun read accepted => yields_pure fun histogram eq => ?_
    cases eq
    exact accepted
  · exact yields_any.bind fun _ _ => yields_fail

theorem yields_recordValue (fields : RecordFields) (key : String) (known : ValueKnown fields) :
    Yields ValueKnown (recordValue fields key) := by
  refine yields_any.bind fun next _ => ?_
  split_ifs
  -- only one branch sets the value
  all_goals first
    | exact yields_any.bind fun _ _ => yields_pure known
    | exact yields_parseWireValue.attempt.bind fun found read =>
        yields_pure fun histogram eq => read _ eq histogram rfl

theorem accepted_of_parseRecord {bootId : Guid} {receiptTimestamp : ℤ} {bytes : List UInt8}
    {record : MetricRecord} (eq : (parseRecord bootId receiptTimestamp bytes).1 = some record)
    {histogram : Histogram} (is_histogram : record.value = .histogram histogram) :
    Accepted histogram := by
  have start : ValueKnown ⟨[], none, none, none, none, false, none, true⟩ :=
    fun _ absent => by cases absent
  have refuses : ∀ fields, ValueKnown fields → ValueKnown { fields with valid := false } :=
    fun _ known => known
  have all : Yields (fun record : MetricRecord =>
      ∀ histogram, record.value = .histogram histogram → Accepted histogram)
      (parseRecord bootId receiptTimestamp) :=
    (yields_readMembers refuses yields_recordValue start).bind
      fun fields known => yields_ofOption (accepted_of_record known bootId receiptTimestamp)
  exact all bytes record _ (Prod.ext eq rfl) histogram is_histogram

end Ingested

theorem Accepted.encodable {histogram : Histogram} (accepted : Accepted histogram) :
    Encodable histogram where
  boundaries_short := accepted.short
  counts_short := accepted.same_length ▸ accepted.short
  counts_fit count mem := (accepted.counts_le count mem).trans_lt accepted.total_fits
  total_fits := accepted.total_fits

/-! ### What a percentile is -/

/-- The least count that reaches a percentile: the share of the total, rounded up. -/
def rank (histogram : Histogram) (percentile : Percentile) : ℕ :=
  (histogram.totalCount * percentile.value) ⌈/⌉ 100

/-- A boundary whose cumulative count reaches a percentile. -/
def Reaches (histogram : Histogram) (percentile : Percentile) (boundary : Binary64) : Prop :=
  ∃ count, (boundary, count) ∈ histogram.boundaries.zip histogram.counts ∧
    rank histogram percentile ≤ count

/-- What the percentile of a histogram is: nothing, the least boundary that reaches it, or beyond
all boundaries. -/
def IsPercentile (histogram : Histogram) (percentile : Percentile) : PercentileValue → Prop
  | .empty => histogram.totalCount = 0
  | .finite boundary =>
    histogram.totalCount ≠ 0 ∧ Reaches histogram percentile boundary ∧
      ∀ other, Reaches histogram percentile other → boundary.scaled ≤ other.scaled
  | .overflow =>
    histogram.totalCount ≠ 0 ∧ ∀ boundary, ¬ Reaches histogram percentile boundary

section Percentile

variable {histogram : Histogram} {percentile : Percentile}

theorem rank_eq : rank histogram percentile = (histogram.totalCount * percentile.value + 99) / 100 :=
  Nat.ceilDiv_eq_add_pred_div _ _

/-- The first bucket that reaches the rank is that of the least boundary. -/
theorem Accepted.isPercentile_find (accepted : Accepted histogram) (nonzero : histogram.totalCount ≠ 0) :
    IsPercentile histogram percentile
      (match (histogram.boundaries.zip histogram.counts).find?
          fun bucket => decide (rank histogram percentile ≤ bucket.2) with
        | some bucket => .finite bucket.1
        | none => .overflow) := by
  cases found : (histogram.boundaries.zip histogram.counts).find? _ with
  | none =>
    refine ⟨nonzero, fun boundary ⟨count, mem, reached⟩ => ?_⟩
    have := List.find?_eq_none.1 found _ mem
    simp [reached] at this
  | some bucket =>
    obtain ⟨reached, before, after, eq, first⟩ := List.find?_eq_some_iff_append.1 found
    have mem : bucket ∈ histogram.boundaries.zip histogram.counts := by simp [eq]
    refine ⟨nonzero, ⟨bucket.2, mem, of_decide_eq_true reached⟩, fun other ⟨count, mem', reached'⟩ => ?_⟩
    -- a bucket that reaches the rank is not before the first one that does
    have increasing := accepted.increasing
    rw [← map_fst_zip accepted.same_length.le, pairwise_map, eq,
      pairwise_append, pairwise_cons] at increasing
    rw [eq, mem_append, mem_cons] at mem'
    rcases mem' with early | same | late
    · have := first _ early
      simp [reached'] at this
    · exact (congrArg (fun bucket => Binary64.scaled bucket.1) same).ge
    · exact (increasing.2.1.1 _ late).le

/-- The product that the rank is computed from is a `u64`, or not needed. -/
def RankFits (histogram : Histogram) (percentile : Percentile) : Prop :=
  histogram.totalCount = 0 ∨ histogram.totalCount * percentile.value + 99 < 2 ^ 64

variable [Reader] [LawfulReader]

theorem Accepted.percentile_of_fits (accepted : Accepted histogram)
    (fits : RankFits histogram percentile) :
    ∃ value, percentileOfBytes (encodeHistogram histogram) percentile.value = .ok value ∧
      IsPercentile histogram percentile value := by
  rw [percentileOfBytes_encodeHistogram accepted.encodable, histogramPercentile]
  by_cases zero : histogram.totalCount = 0
  · rw [if_pos zero]
    exact ⟨.empty, rfl, zero⟩
  have small : ¬ u64Max < histogram.totalCount * percentile.value + 99 := by
    have := fits.resolve_left zero
    unfold u64Max
    omega
  rw [if_neg zero, if_neg small, ← rank_eq]
  dsimp only
  refine ⟨_, ?_, accepted.isPercentile_find zero⟩
  cases List.find? _ (histogram.boundaries.zip histogram.counts) <;> rfl

theorem Accepted.percentile_of_not_fits (accepted : Accepted histogram)
    (overflows : ¬ RankFits histogram percentile) :
    percentileOfBytes (encodeHistogram histogram) percentile.value = .error .invalidHistogram := by
  rw [percentileOfBytes_encodeHistogram accepted.encodable, histogramPercentile]
  unfold RankFits at overflows
  have large : u64Max < histogram.totalCount * percentile.value + 99 := by
    unfold u64Max
    omega
  rw [if_neg fun zero => overflows (.inl zero), if_pos large]
  rfl

end Percentile

/-- Percentiles of stored histograms: for a histogram of a record that is accepted, stored and read
again, there is the percentile that the histogram has, unless the product that its rank is computed
from does not fit; then the histogram is called invalid. -/
theorem percentile_of_stored_iff [Reader] [LawfulReader] {bootId : Guid} {receiptTimestamp : ℤ} {bytes : List UInt8}
    {record : MetricRecord} {histogram : Histogram}
    (ingested : (MetricIngest.parseRecord bootId receiptTimestamp bytes).1 = some record)
    (is_histogram : record.value = .histogram histogram) (percentile : Percentile) :
    ((∃ value, percentileOfBytes (encodeHistogram histogram) percentile.value = .ok value ∧
        IsPercentile histogram percentile value) ↔
      histogram.totalCount = 0 ∨ histogram.totalCount * percentile.value + 99 < 2 ^ 64) ∧
    (percentileOfBytes (encodeHistogram histogram) percentile.value = .error .invalidHistogram ↔
      ¬ (histogram.totalCount = 0 ∨ histogram.totalCount * percentile.value + 99 < 2 ^ 64)) := by
  have accepted := accepted_of_parseRecord ingested is_histogram
  by_cases fits : RankFits histogram percentile
  · obtain ⟨value, eq, right⟩ := accepted.percentile_of_fits fits
    refine ⟨iff_of_true ⟨value, eq, right⟩ fits, iff_of_false (fun failed => ?_) (not_not_intro fits)⟩
    cases eq.symm.trans failed
  · have failed := accepted.percentile_of_not_fits fits
    refine ⟨iff_of_false ?_ fits, iff_of_true failed fits⟩
    rintro ⟨value, eq, -⟩
    cases eq.symm.trans failed

/-- A histogram record named `h` with the boundary 1, the count 1 and this total. -/
def histogramRecord (total : ℕ) : List UInt8 :=
  0x83 :: packStr "name" ++ packStr "h" ++ packStr "type" ++ packStr "histogram" ++
    packStr "value" ++ 0x84 :: packStr "boundaries" ++ [0x91, 1] ++ packStr "counts" ++ [0x91, 1] ++
    packStr "total_count" ++ packUint total ++ packStr "sum" ++ [1]

/-- The histogram of `histogramRecord`. -/
def oneBucket (total : ℕ) : Histogram := ⟨[.ofInt 1], [1], total, .ofInt 1⟩

section Example

attribute [local instance] formatReader lawful_formatReader

theorem percentile_of_stored_one :
    ∃ value, percentileOfBytes (encodeHistogram (oneBucket 1)) 50 = .ok value ∧
      IsPercentile (oneBucket 1) .p50 value := by
  have ingested : (MetricIngest.parseRecord (.replicate 16 0) 7 (histogramRecord 1)).1
      = some ⟨.replicate 16 0, 7, "h", "", .histogram, .histogram (oneBucket 1)⟩ := by
    decide +kernel
  exact (percentile_of_stored_iff ingested rfl .p50).1.2 (.inr (by decide))

/-- A histogram with the largest total is ingested, and its median is refused. -/
theorem percentile_of_stored_refused :
    (MetricIngest.parseRecord (.replicate 16 0) 7 (histogramRecord (2 ^ 64 - 1))).1
        = some ⟨.replicate 16 0, 7, "h", "", .histogram, .histogram (oneBucket (2 ^ 64 - 1))⟩ ∧
      percentileOfBytes (encodeHistogram (oneBucket (2 ^ 64 - 1))) 50
        = .error .invalidHistogram := by
  decide +kernel

end Example

end Eventd.HistogramData
