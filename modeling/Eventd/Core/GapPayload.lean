import Eventd.Lib.MessagePack
import Eventd.Core.Model

/-!
# The payload of a gap record

A gap is stored as an `eventd.events.lost` row whose only trace of the missing
sequences is its MessagePack payload, written by `encode_gap_payload` of
`eventd-core/src/shard.rs`:
`{buffer: {cpu}, loss: {sequence, sequence-last, count, preceding-time?}}`.

* `packStr`, `packU64`, `encodeGapPayload`: the writer;
* `decodeGapPayload`: what a reader of the format finds in a payload;
* `decodeGapPayload_encodeGapPayload`: the reader finds what was written, so a
  stored gap row determines its sequences;
* `encodeGapPayload_eq_iff`: what two equal payloads have in common.
-/

namespace Eventd

open List MessagePack

/-- The UTF-8 bytes of a string. -/
def strBytes (text : String) : List UInt8 := text.toList.flatMap String.utf8EncodeChar

/-- Write a string as fixstr, or as str 8 from 32 bytes on. -/
def packStr (text : List UInt8) : List UInt8 :=
  if text.length ≤ 31 then (0xa0 ||| UInt8.ofNat text.length) :: text
  else 0xd9 :: UInt8.ofNat text.length :: text

/-- Write an unsigned integer in its shortest form. -/
def packU64 (value : ℕ) : List UInt8 :=
  if value ≤ 0x7f then [UInt8.ofNat value]
  else if value ≤ 0xff then 0xcc :: beBytes 1 value
  else if value ≤ 0xffff then 0xcd :: beBytes 2 value
  else if value ≤ 0xffff_ffff then 0xce :: beBytes 4 value
  else 0xcf :: beBytes 8 value

/-- The entries of `loss`; `preceding-time` is left out when nothing preceded the gap. -/
def lossEntries (gap : Gap) : List (List UInt8 × ℕ) :=
  [(strBytes "sequence", gap.firstSequence), (strBytes "sequence-last", gap.lastSequence),
    (strBytes "count", gap.count)] ++
  gap.precedingTimestamp.toList.map fun timestamp =>
    (strBytes "preceding-time", timestamp.toNat)

/-- The `eventd.events.lost` payload. -/
def encodeGapPayload (cpuId : UInt16) (gap : Gap) : List UInt8 :=
  [0x82] ++ packStr (strBytes "buffer") ++ [0x81] ++ packStr (strBytes "cpu") ++
  packU64 cpuId.toNat ++ packStr (strBytes "loss") ++
  [if gap.precedingTimestamp.isSome then 0x84 else 0x83] ++
  (lossEntries gap).flatMap fun entry => packStr entry.1 ++ packU64 entry.2

/-- The fields of a gap payload. -/
structure GapPayload where
  cpu : ℕ
  sequence : ℕ
  sequenceLast : ℕ
  count : ℕ
  precedingTime : Option ℕ
  deriving DecidableEq

/-- Read a gap payload by the MessagePack format; `none` if it is not one. -/
def decodeGapPayload (payload : List UInt8) : Option GapPayload := do
  let (_, bytes) ← readMapHeader payload
  let (outer, bytes) ← readStr bytes
  guard (outer = strBytes "buffer")
  let (buffer, bytes) ← readUintMap bytes
  let (outer, bytes) ← readStr bytes
  guard (outer = strBytes "loss")
  let (loss, _) ← readUintMap bytes
  return {
    cpu := ← buffer.lookup (strBytes "cpu")
    sequence := ← loss.lookup (strBytes "sequence")
    sequenceLast := ← loss.lookup (strBytes "sequence-last")
    count := ← loss.lookup (strBytes "count")
    precedingTime := loss.lookup (strBytes "preceding-time") }

/-! ### What is written is read back -/

theorem fixstr_head : ∀ length ≤ 31,
    (0xa0 ||| UInt8.ofNat length : UInt8) = UInt8.ofNat (0xa0 + length) := by
  decide

theorem readStr_packStr {text : List UInt8} (short : text.length ≤ 255) (rest : List UInt8) :
    readStr (packStr text ++ rest) = some (text, rest) := by
  rw [packStr]
  split
  · next fix => rw [fixstr_head _ fix, cons_append, readStr_fixstr fix]
  · rw [cons_append, cons_append, readStr_str8 short]

theorem readUint_packU64 {value : ℕ} (fits : value ≤ u64Max) (rest : List UInt8) :
    readUint (packU64 value ++ rest) = some (value, rest) := by
  have fits : value < 2 ^ 64 := by
    unfold u64Max at fits
    omega
  rw [packU64]
  split_ifs
  · rw [singleton_append, readUint_fixint (by omega)]
  all_goals
    rw [cons_append, readUint_be (by decide) (by omega)]

theorem lossEntries_le (gap : Gap) : ∀ entry ∈ lossEntries gap, entry.2 ≤ u64Max := by
  have := gap.first_pos
  have := gap.first_le_last
  have := gap.last_le
  intro entry mem
  simp only [lossEntries, mem_append, mem_cons, not_mem_nil, or_false,
    mem_map] at mem
  rcases mem with (rfl | rfl | rfl) | ⟨timestamp, -, rfl⟩
  · exact gap.first_le_last.trans gap.last_le
  · exact gap.last_le
  · simp only [Gap.count]
    omega
  · exact Nat.le_sub_one_of_lt timestamp.toNat_lt

theorem lossEntries_short (gap : Gap) : ∀ entry ∈ lossEntries gap, entry.1.length ≤ 255 := by
  intro entry mem
  simp only [lossEntries, mem_append, mem_cons, not_mem_nil, or_false,
    mem_map] at mem
  rcases mem with (rfl | rfl | rfl) | ⟨timestamp, -, rfl⟩ <;> dsimp only <;> decide

/-- A map header and entries written with the packers are read back. -/
theorem readUintMap_pack {entries : List (List UInt8 × ℕ)} (few : entries.length ≤ 15)
    (short : ∀ entry ∈ entries, entry.1.length ≤ 255)
    (fits : ∀ entry ∈ entries, entry.2 ≤ u64Max) (rest : List UInt8) :
    readUintMap (UInt8.ofNat (0x80 + entries.length) ::
        ((entries.flatMap fun entry => packStr entry.1 ++ packU64 entry.2) ++ rest)) =
      some (entries, rest) := by
  rw [readUintMap, readMapHeader_fixmap few]
  exact readUintEntries_flatMap (fun entry mem => readStr_packStr (short entry mem))
    (fun entry mem => readUint_packU64 (fits entry mem)) rest

theorem lossHeader (gap : Gap) :
    (if gap.precedingTimestamp.isSome then 0x84 else 0x83 : UInt8) =
      UInt8.ofNat (0x80 + (lossEntries gap).length) := by
  cases h : gap.precedingTimestamp <;> simp [lossEntries, h]

/-- **A stored gap payload reads back as the gap that was written.** -/
theorem decodeGapPayload_encodeGapPayload (cpuId : UInt16) (gap : Gap) :
    decodeGapPayload (encodeGapPayload cpuId gap) = some
      { cpu := cpuId.toNat
        sequence := gap.firstSequence
        sequenceLast := gap.lastSequence
        count := gap.count
        precedingTime := gap.precedingTimestamp.map UInt64.toNat } := by
  have buffer (rest : List UInt8) :
      readUintMap (0x81 :: (packStr (strBytes "cpu") ++ (packU64 cpuId.toNat ++ rest))) =
        some ([(strBytes "cpu", cpuId.toNat)], rest) := by
    have small : cpuId.toNat ≤ u64Max := by
      have := cpuId.toNat_lt
      unfold u64Max
      omega
    have := @readUintMap_pack [(strBytes "cpu", cpuId.toNat)] (by simp)
      (by simp; decide) (by simpa using small) rest
    simpa using this
  have loss : readUintMap ((if gap.precedingTimestamp.isSome then 0x84 else 0x83) ::
      (lossEntries gap).flatMap fun entry => packStr entry.1 ++ packU64 entry.2) =
        some (lossEntries gap, []) := by
    have few : (lossEntries gap).length ≤ 15 := by
      cases h : gap.precedingTimestamp <;> simp [lossEntries, h]
    have := readUintMap_pack few (lossEntries_short gap) (lossEntries_le gap) []
    rwa [← lossHeader, append_nil] at this
  have header (rest : List UInt8) : readMapHeader (0x82 :: rest) = some (2, rest) :=
    @readMapHeader_fixmap 2 (by decide) rest
  have outer (rest : List UInt8) : readStr (packStr (strBytes "buffer") ++ rest) =
      some (strBytes "buffer", rest) := readStr_packStr (by decide) rest
  have inner (rest : List UInt8) : readStr (packStr (strBytes "loss") ++ rest) =
      some (strBytes "loss", rest) := readStr_packStr (by decide) rest
  simp only [decodeGapPayload, encodeGapPayload, append_assoc, cons_append,
    nil_append, Option.bind_eq_bind, Option.pure_def, header, Option.bind_some]
  rw [outer]
  simp only [buffer, inner, loss, Option.bind_some, guard, if_true]
  have keys : (strBytes "sequence-last" == strBytes "sequence") = false ∧
      (strBytes "count" == strBytes "sequence") = false ∧
      (strBytes "count" == strBytes "sequence-last") = false ∧
      (strBytes "preceding-time" == strBytes "sequence") = false ∧
      (strBytes "preceding-time" == strBytes "sequence-last") = false ∧
      (strBytes "preceding-time" == strBytes "count") = false := by decide
  cases h : gap.precedingTimestamp <;> simp [lossEntries, List.lookup_cons, keys, h]

/-- **A gap record tells its gap**: two payloads are the same exactly if they are of one CPU, one
range of sequences and one preceding event. -/
theorem encodeGapPayload_eq_iff (cpuId cpuId' : UInt16) (gap gap' : Gap) :
    encodeGapPayload cpuId gap = encodeGapPayload cpuId' gap' ↔
      cpuId = cpuId' ∧ gap.firstSequence = gap'.firstSequence ∧
        gap.lastSequence = gap'.lastSequence ∧
          gap.precedingTimestamp = gap'.precedingTimestamp := by
  constructor
  · intro same
    have read := congrArg decodeGapPayload same
    simp only [decodeGapPayload_encodeGapPayload, Option.some.injEq, GapPayload.mk.injEq] at read
    obtain ⟨cpu, first, last, -, preceding⟩ := read
    exact ⟨UInt16.toNat_inj.1 cpu, first, last,
      Option.map_injective (fun _ _ => UInt64.toNat_inj.1) preceding⟩
  · rintro ⟨rfl, first, last, preceding⟩
    simp only [encodeGapPayload, lossEntries, Gap.count, first, last, preceding]

end Eventd
