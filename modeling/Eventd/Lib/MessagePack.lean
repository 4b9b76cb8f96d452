import Mathlib.Tactic

/-!
# Reading MessagePack

The part of the MessagePack format that a map of strings and unsigned integers
needs: the unsigned integer family, the two short string forms and the short map
header.  A reader takes the value at the front of a byte list and returns it with
the bytes after it, or `none` if the bytes do not start with such a value.

* `beBytes`, `beNat`: fixed-width big-endian numbers, with `beNat_beBytes`;
* `readUint`, `readStr`, `readMapHeader`, `readUintMap`: the readers.
-/

namespace MessagePack

open List

/-- The low `width` bytes of `value`, most significant first. -/
def beBytes : ℕ → ℕ → List UInt8
  | 0, _ => []
  | width + 1, value => UInt8.ofNat (value / 256 ^ width) :: beBytes width value

/-- The number whose big-endian bytes are given. -/
def beNat (bytes : List UInt8) : ℕ :=
  bytes.foldl (fun total byte => total * 256 + byte.toNat) 0

@[simp] theorem length_beBytes (width value : ℕ) : (beBytes width value).length = width := by
  induction width with
  | zero => rfl
  | succ width ih => rw [beBytes, length_cons, ih]

theorem foldl_beBytes (width value total : ℕ) :
    (beBytes width value).foldl (fun total byte => total * 256 + byte.toNat) total
      = total * 256 ^ width + value % 256 ^ width := by
  induction width generalizing total with
  | zero => simp [beBytes, Nat.mod_one]
  | succ width ih =>
    rw [beBytes, foldl_cons, ih, UInt8.toNat_ofNat', show 2 ^ 8 = 256 from rfl]
    -- the leading digit and the rest of `value` add up to `value % 256 ^ (width + 1)`
    have split : value % 256 ^ (width + 1)
        = value / 256 ^ width % 256 * 256 ^ width + value % 256 ^ width := by
      rw [pow_succ, Nat.mod_mul, mul_comm (256 ^ width), add_comm]
    rw [split, pow_succ]
    ring

variable {width value : ℕ}

theorem beNat_beBytes (fits : value < 256 ^ width) :
    beNat (beBytes width value) = value := by
  rw [beNat, foldl_beBytes, zero_mul, zero_add, Nat.mod_eq_of_lt fits]

/-- The first `count` bytes and the rest. -/
def takeBytes (count : ℕ) (bytes : List UInt8) : Option (List UInt8 × List UInt8) :=
  if count ≤ bytes.length then some (bytes.take count, bytes.drop count) else none

theorem takeBytes_append {count : ℕ} {bytes : List UInt8} (length : bytes.length = count)
    (rest : List UInt8) : takeBytes count (bytes ++ rest) = some (bytes, rest) := by
  subst length
  simp [takeBytes]

/-- A big-endian number of `width` bytes. -/
def readBe (width : ℕ) (bytes : List UInt8) : Option (ℕ × List UInt8) :=
  (takeBytes width bytes).map fun (digits, rest) => (beNat digits, rest)

theorem readBe_append (fits : value < 256 ^ width) (rest : List UInt8) :
    readBe width (beBytes width value ++ rest) = some (value, rest) := by
  simp only [readBe, takeBytes_append (length_beBytes width value), Option.map_some,
    beNat_beBytes fits]

/-- An unsigned integer: positive fixint, uint 8, uint 16, uint 32 or uint 64. -/
def readUint : List UInt8 → Option (ℕ × List UInt8)
  | [] => none
  | head :: rest =>
    if head.toNat < 0x80 then some (head.toNat, rest)
    else if head = 0xcc then readBe 1 rest
    else if head = 0xcd then readBe 2 rest
    else if head = 0xce then readBe 4 rest
    else if head = 0xcf then readBe 8 rest
    else none

theorem readUint_fixint (small : value < 0x80) (rest : List UInt8) :
    readUint (UInt8.ofNat value :: rest) = some (value, rest) := by
  have byte : (UInt8.ofNat value).toNat = value := by
    rw [UInt8.toNat_ofNat', Nat.mod_eq_of_lt (by omega)]
  rw [readUint, byte, if_pos small]

/-- The tag bytes of the wide unsigned integers, with their widths in bytes. -/
def uintTags : List (UInt8 × ℕ) := [(0xcc, 1), (0xcd, 2), (0xce, 4), (0xcf, 8)]

theorem readUint_tag {tag : UInt8} (known : (tag, width) ∈ uintTags) :
    ∀ rest, readUint (tag :: rest) = readBe width rest := by
  intro rest
  simp only [uintTags, mem_cons, Prod.mk.injEq, not_mem_nil, or_false] at known
  rcases known with ⟨rfl, rfl⟩ | ⟨rfl, rfl⟩ | ⟨rfl, rfl⟩ | ⟨rfl, rfl⟩ <;> rfl

theorem readUint_be {tag : UInt8} (known : (tag, width) ∈ uintTags) (fits : value < 256 ^ width)
    (rest : List UInt8) :
    readUint (tag :: (beBytes width value ++ rest)) = some (value, rest) := by
  rw [readUint_tag known, readBe_append fits]

/-- A string: fixstr or str 8. -/
def readStr : List UInt8 → Option (List UInt8 × List UInt8)
  | [] => none
  | head :: rest =>
    if 0xa0 ≤ head.toNat ∧ head.toNat ≤ 0xbf then takeBytes (head.toNat - 0xa0) rest
    else if head = 0xd9 then
      match rest with
      | [] => none
      | length :: rest => takeBytes length.toNat rest
    else none

theorem readStr_fixstr {text : List UInt8} (short : text.length ≤ 31) (rest : List UInt8) :
    readStr (UInt8.ofNat (0xa0 + text.length) :: (text ++ rest)) = some (text, rest) := by
  have byte : (UInt8.ofNat (0xa0 + text.length)).toNat = 0xa0 + text.length := by
    rw [UInt8.toNat_ofNat', Nat.mod_eq_of_lt (by omega)]
  simp only [readStr, byte]
  rw [if_pos (by omega), takeBytes_append (by omega)]

theorem readStr_str8 {text : List UInt8} (short : text.length ≤ 255) (rest : List UInt8) :
    readStr (0xd9 :: UInt8.ofNat text.length :: (text ++ rest)) = some (text, rest) := by
  have byte : (UInt8.ofNat text.length).toNat = text.length := by
    rw [UInt8.toNat_ofNat', Nat.mod_eq_of_lt (by omega)]
  simp only [readStr, byte]
  rw [if_neg (by decide), if_pos trivial, takeBytes_append rfl]

/-- The header of a map of at most fifteen entries: the number of entries. -/
def readMapHeader : List UInt8 → Option (ℕ × List UInt8)
  | [] => none
  | head :: rest =>
    if 0x80 ≤ head.toNat ∧ head.toNat ≤ 0x8f then some (head.toNat - 0x80, rest) else none

theorem readMapHeader_fixmap {count : ℕ} (short : count ≤ 15) (rest : List UInt8) :
    readMapHeader (UInt8.ofNat (0x80 + count) :: rest) = some (count, rest) := by
  have byte : (UInt8.ofNat (0x80 + count)).toNat = 0x80 + count := by
    rw [UInt8.toNat_ofNat', Nat.mod_eq_of_lt (by omega)]
  rw [readMapHeader, byte, if_pos (by omega), Nat.add_sub_cancel_left]

/-- The entries of a map from strings to unsigned integers. -/
def readUintEntries : ℕ → List UInt8 → Option (List (List UInt8 × ℕ) × List UInt8)
  | 0, bytes => some ([], bytes)
  | count + 1, bytes => do
      let (key, bytes) ← readStr bytes
      let (value, bytes) ← readUint bytes
      let (entries, bytes) ← readUintEntries count bytes
      return ((key, value) :: entries, bytes)

/-- A map from strings to unsigned integers. -/
def readUintMap (bytes : List UInt8) : Option (List (List UInt8 × ℕ) × List UInt8) := do
  let (count, bytes) ← readMapHeader bytes
  readUintEntries count bytes

/-- Entries written by any packers that the readers undo are read back. -/
theorem readUintEntries_flatMap {packStr : List UInt8 → List UInt8} {packUint : ℕ → List UInt8}
    {entries : List (List UInt8 × ℕ)}
    (str : ∀ entry ∈ entries, ∀ rest, readStr (packStr entry.1 ++ rest) = some (entry.1, rest))
    (uint : ∀ entry ∈ entries, ∀ rest, readUint (packUint entry.2 ++ rest) = some (entry.2, rest))
    (rest : List UInt8) :
    readUintEntries entries.length
        ((entries.flatMap fun entry => packStr entry.1 ++ packUint entry.2) ++ rest) =
      some (entries, rest) := by
  induction entries with
  | nil => rfl
  | cons entry entries ih =>
    rw [forall_mem_cons] at str uint
    simp only [length_cons, readUintEntries, flatMap_cons, append_assoc, str.1,
      uint.1, ih str.2 uint.2, Option.bind_eq_bind, Option.bind_some, Option.pure_def]

end MessagePack
