import Mathlib.Tactic

/-!
# Slices of a UTF-8 text

A text as its bytes, cut at byte positions.  A cut inside a character is refused, as is one
beyond the end; the result of such a slice is `none`.

* `isBoundary`: whether a text may be cut at a position;
* `sliceTo`, `sliceFrom`, `slice`: the bytes before, after and between positions.
-/

namespace TextSlice

/-- Whether a byte continues a character. -/
def isContinuation (byte : UInt8) : Bool := 0x80 ≤ byte && byte < 0xc0

/-- Whether a character of a text starts at a position, or the text ends there. -/
def isBoundary (bytes : List UInt8) (position : ℕ) : Bool :=
  if position = 0 then true
  else
    match bytes[position]? with
    | none => position = bytes.length
    | some byte => !isContinuation byte

def sliceTo (bytes : List UInt8) (stop : ℕ) : Option (List UInt8) :=
  if isBoundary bytes stop then some (bytes.take stop) else none

def sliceFrom (bytes : List UInt8) (start : ℕ) : Option (List UInt8) :=
  if isBoundary bytes start then some (bytes.drop start) else none

def slice (bytes : List UInt8) (start stop : ℕ) : Option (List UInt8) :=
  if start ≤ stop ∧ isBoundary bytes start ∧ isBoundary bytes stop then
    some ((bytes.take stop).drop start)
  else none

theorem le_of_isBoundary {bytes : List UInt8} {position : ℕ}
    (boundary : isBoundary bytes position = true) : position ≤ bytes.length := by
  by_contra beyond
  rw [isBoundary, if_neg (by omega), List.getElem?_eq_none (by omega)] at boundary
  exact absurd (of_decide_eq_true boundary) (by omega)

theorem length_slice {bytes part : List UInt8} {start stop : ℕ}
    (eq : slice bytes start stop = some part) : part.length = stop - start := by
  rw [slice] at eq
  split_ifs at eq with cut
  cases eq
  rw [List.length_drop, List.length_take, min_eq_left (le_of_isBoundary cut.2.2)]

/-! ### Characters -/

theorem toUTF8_eq (text : String) :
    text.toUTF8.data.toList = text.toList.flatMap String.utf8EncodeChar := by
  rw [String.toUTF8, ← String.utf8Encode_toList, List.utf8Encode, List.data_toByteArray]

/-- Only an ASCII character has an ASCII byte. -/
theorem toNat_of_mem_utf8EncodeChar {c : Char} {byte : UInt8} (ascii : byte < 0x80)
    (mem : byte ∈ String.utf8EncodeChar c) : c.toNat = byte.toNat := by
  have low : byte.toNat < 128 := ascii
  rw [String.utf8EncodeChar] at mem
  split_ifs at mem with one two three <;>
    simp only [List.mem_cons, List.not_mem_nil, or_false, ← UInt8.toNat_inj, UInt8.toNat_ofNat'] at mem
  · change c.val.toNat = _
    omega
  all_goals omega

end TextSlice
