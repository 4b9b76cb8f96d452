import Eventd.Core.GapPayload

/-!
# Field identities

`eventd-core/src/field.rs`: the GUID of a field is the UUID, version 5, of its path in
eventd's name space, in PCDS byte order.

* `Sha1`, `compress`: the hash it rests on;
* `fieldGuid`: the identity of a field path;
* `fieldGuid_version`: whatever the hash is, the version is 5.
-/

namespace Eventd

/-- The five working words of SHA-1. -/
structure Words where
  a : UInt32
  b : UInt32
  c : UInt32
  d : UInt32
  e : UInt32
  deriving DecidableEq

/-- SHA-1 on its way through a message. -/
structure Sha1 where
  state : Words
  bytes : UInt64
  /-- The bytes of the block being filled. -/
  block : List UInt8
  deriving DecidableEq

namespace Sha1

/-- `u32::rotate_left`. -/
def rotateLeft (word : UInt32) (count : UInt32) : UInt32 :=
  (word <<< count) ||| (word >>> (32 - count))

/-- The big-endian words of a block. -/
def blockWords : List UInt8 → List UInt32
  | w :: x :: y :: z :: rest =>
    (w.toUInt32 <<< 24 ||| x.toUInt32 <<< 16 ||| y.toUInt32 <<< 8 ||| z.toUInt32) ::
      blockWords rest
  | _ => []

/-- Extend the message schedule, which is kept with its last word first. -/
def schedule : ℕ → List UInt32 → List UInt32
  | 0, words => words
  | n + 1, words =>
    schedule n (rotateLeft (words.getD 2 0 ^^^ words.getD 7 0 ^^^ words.getD 13 0 ^^^
      words.getD 15 0) 1 :: words)

/-- One round. -/
def round (words : Words) (index : ℕ) (word : UInt32) : Words :=
  let ⟨a, b, c, d, e⟩ := words
  let (function, constant) : UInt32 × UInt32 :=
    if index ≤ 19 then ((b &&& c) ||| (~~~b &&& d), 0x5a827999)
    else if index ≤ 39 then (b ^^^ c ^^^ d, 0x6ed9eba1)
    else if index ≤ 59 then ((b &&& c) ||| (b &&& d) ||| (c &&& d), 0x8f1bbcdc)
    else (b ^^^ c ^^^ d, 0xca62c1d6)
  ⟨rotateLeft a 5 + function + e + constant + word, a, rotateLeft b 30, c, d⟩

/-- The rounds over a whole schedule. -/
def rounds (words : Words) : ℕ → List UInt32 → Words
  | _, [] => words
  | index, word :: rest => rounds (round words index word) (index + 1) rest

/-- Mix one block into the state. -/
def compress (state : Words) (block : List UInt8) : Words :=
  let mixed := rounds state 0 (schedule 64 (blockWords block).reverse).reverse
  ⟨state.a + mixed.a, state.b + mixed.b, state.c + mixed.c, state.d + mixed.d, state.e + mixed.e⟩

def new : Sha1 := ⟨⟨0x67452301, 0xefcdab89, 0x98badcfe, 0x10325476, 0xc3d2e1f0⟩, 0, []⟩

/-- Take in one byte; a full block is mixed in.  The source copies as many bytes at a time
as the block has room for. -/
def push (sha1 : Sha1) (byte : UInt8) : Sha1 :=
  if sha1.block.length + 1 = 64 then
    ⟨compress sha1.state (sha1.block ++ [byte]), sha1.bytes + 1, []⟩
  else ⟨sha1.state, sha1.bytes + 1, sha1.block ++ [byte]⟩

/-- Take in a string of bytes. -/
def update (sha1 : Sha1) (bytes : List UInt8) : Sha1 := bytes.foldl push sha1

/-- The bytes of a word, the highest first. -/
def wordBytes (word : UInt32) : List UInt8 :=
  [(word >>> 24).toUInt8, (word >>> 16).toUInt8, (word >>> 8).toUInt8, word.toUInt8]

/-- The bytes of a length, the highest first. -/
def lengthBytes (length : UInt64) : List UInt8 :=
  wordBytes (length >>> 32).toUInt32 ++ wordBytes length.toUInt32

/-- Pad the message and return its digest. -/
def finish (sha1 : Sha1) : List UInt8 :=
  let bitLength := sha1.bytes * 8
  let block := sha1.block ++ [0x80]
  let (state, block) :=
    if 56 < block.length then
      (compress sha1.state (block ++ List.replicate (64 - block.length) 0), List.replicate 56 0)
    else (sha1.state, block ++ List.replicate (56 - block.length) 0)
  let state := compress state (block ++ lengthBytes bitLength)
  wordBytes state.a ++ wordBytes state.b ++ wordBytes state.c ++ wordBytes state.d ++
    wordBytes state.e

end Sha1

/-- The name space of eventd's fields. -/
def eventdFieldNamespace : List UInt8 :=
  [0xe7, 0xd3, 0xa1, 0xb0, 0x5c, 0x2f, 0x4e, 0x8a, 0x9b, 0x1d, 0x0a, 0x6f, 0x3c, 0x8e, 0x2d, 0x4b]

/-- The UUID of a field path, in the byte order of RFC 4122. -/
def fieldUuidRfc (field : String) : Guid :=
  let digest := ((Sha1.new.update eventdFieldNamespace).update (strBytes field)).finish
  Vector.ofFn fun i =>
    if i.val = 6 then (digest.getD 6 0 &&& 0x0f) ||| 0x50
    else if i.val = 8 then (digest.getD 8 0 &&& 0x3f) ||| 0x80
    else digest.getD i 0

/-- The identity of a field path: its UUID with the first three groups reversed. -/
def fieldGuid (field : String) : Guid :=
  let rfc := fieldUuidRfc field
  #v[rfc[3], rfc[2], rfc[1], rfc[0], rfc[5], rfc[4], rfc[7], rfc[6],
    rfc[8], rfc[9], rfc[10], rfc[11], rfc[12], rfc[13], rfc[14], rfc[15]]

/-- Two lower-case hexadecimal digits. -/
def hexByte (byte : UInt8) : List Char :=
  [Nat.digitChar (byte.toNat / 16), Nat.digitChar (byte.toNat % 16)]

/-- A GUID in braces; its first three groups are stored with their bytes reversed. -/
def guidString (guid : Guid) : String :=
  let bytes := guid.toList
  let part (first count : ℕ) := ((bytes.drop first).take count)
  let groups := [(part 0 4).reverse, (part 4 2).reverse, (part 6 2).reverse, part 8 2, part 10 6]
  String.ofList ('\x7b' ::
    ['-'].intercalate (groups.map fun group => group.flatMap hexByte) ++ ['\x7d'])

/-- Whatever the hash is, the version nibble is 5. -/
theorem fieldGuid_version (field : String) : (fieldGuid field)[7] &&& 0xf0 = 0x50 := by
  have version : ∀ n : Fin 256, ((UInt8.ofFin n &&& 0x0f) ||| 0x50) &&& 0xf0 = 0x50 := by
    decide +kernel
  simp only [fieldGuid, fieldUuidRfc]
  simpa using version (UInt8.toFin _)

example : fieldGuid "timestamp" =
    #v[0x67, 0x22, 0x1d, 0x34, 0xdb, 0xb9, 0x6b, 0x53, 0xb3, 0x6c, 0x94, 0xab, 0x6c, 0xd4, 0x7e,
      0x4c] := by
  decide +kernel

end Eventd
