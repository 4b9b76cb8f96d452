import Eventd.Lib.MessagePack

/-!
# MessagePack objects

The whole MessagePack format.  The first byte of an object announces what follows it: nothing,
a number of bytes, a length and that many bytes, or the objects of an array or a map.

* `Scalar`, `Object`: what can be encoded;
* `Format`, `Format.of`: what a first byte announces;
* `readHead`: the scalar, or the header of the array or map, at the front of some bytes;
* `ReadsAll`: the objects at the front of some bytes, and what is left after them;
* `Object.height`: how deep an object is nested;
* `Head.Bounded`: the ranges of numbers and lengths that the format can hold.
-/

namespace MessagePack

open Option List

/-- An object without members.  Strings are byte strings, which need not be UTF-8. -/
inductive Scalar
  | nil
  | bool (value : Bool)
  | int (value : ℤ)
  | single (bits : ℕ)
  | double (bits : ℕ)
  | str (bytes : List UInt8)
  | bin (bytes : List UInt8)
  | ext (kind : UInt8) (bytes : List UInt8)
  deriving DecidableEq

inductive Object
  | scalar (value : Scalar)
  | array (items : List Object)
  | map (entries : List (Object × Object))

/-! ### The format -/

/-- What the first byte of an object announces. -/
inductive Format
  | value (scalar : Scalar)
  | fixed (length : ℕ) (make : List UInt8 → Scalar)
  | sized (width extra : ℕ) (make : List UInt8 → Scalar)
  | array (count : ℕ)
  | map (count : ℕ)
  | arraySized (width : ℕ)
  | mapSized (width : ℕ)
  | unused

/-- A two's complement number. -/
def beInt (bytes : List UInt8) : ℤ :=
  if 2 * beNat bytes < 256 ^ bytes.length then beNat bytes
  else beNat bytes - 256 ^ bytes.length

/-- An extension: its type, then its data. -/
def makeExt (bytes : List UInt8) : Scalar := .ext (bytes.headD 0) bytes.tail

/-- The format by its first byte. -/
def Format.ofNat (first : ℕ) : Format :=
  if first ≤ 0x7f then .value (.int first)
  else if first ≤ 0x8f then .map (first - 0x80)
  else if first ≤ 0x9f then .array (first - 0x90)
  else if first ≤ 0xbf then .fixed (first - 0xa0) .str
  else if first = 0xc0 then .value .nil
  else if first = 0xc1 then .unused
  else if first ≤ 0xc3 then .value (.bool (first = 0xc3))
  else if first ≤ 0xc6 then .sized (2 ^ (first - 0xc4)) 0 .bin
  else if first ≤ 0xc9 then .sized (2 ^ (first - 0xc7)) 1 makeExt
  else if first = 0xca then .fixed 4 fun bytes => .single (beNat bytes)
  else if first = 0xcb then .fixed 8 fun bytes => .double (beNat bytes)
  else if first ≤ 0xcf then .fixed (2 ^ (first - 0xcc)) fun bytes => .int (beNat bytes)
  else if first ≤ 0xd3 then .fixed (2 ^ (first - 0xd0)) fun bytes => .int (beInt bytes)
  else if first ≤ 0xd8 then .fixed (2 ^ (first - 0xd4) + 1) makeExt
  else if first ≤ 0xdb then .sized (2 ^ (first - 0xd9)) 0 .str
  else if first ≤ 0xdd then .arraySized (2 ^ (first - 0xdb))
  else if first ≤ 0xdf then .mapSized (2 ^ (first - 0xdd))
  else .value (.int (first - 256))

def Format.of (first : UInt8) : Format := .ofNat first.toNat

/-- A scalar, or the header of an array or a map. -/
inductive Head
  | scalar (value : Scalar)
  | array (count : ℕ)
  | map (count : ℕ)

/-- What follows the first byte. -/
def Format.read : Format → List UInt8 → Option (Head × List UInt8)
  | .value scalar, rest => some (.scalar scalar, rest)
  | .fixed length make, rest =>
    (takeBytes length rest).map fun (bytes, rest) => (.scalar (make bytes), rest)
  | .sized width extra make, rest => do
      let (length, rest) ← readBe width rest
      let (bytes, rest) ← takeBytes (length + extra) rest
      return (.scalar (make bytes), rest)
  | .array count, rest => some (.array count, rest)
  | .map count, rest => some (.map count, rest)
  | .arraySized width, rest => (readBe width rest).map fun (count, rest) => (.array count, rest)
  | .mapSized width, rest => (readBe width rest).map fun (count, rest) => (.map count, rest)
  | .unused, _ => none

/-- The types of objects. -/
inductive Kind
  | nil
  | bool
  | int
  | float
  | str
  | bin
  | array
  | map
  | ext
  deriving DecidableEq

def Scalar.kind : Scalar → Kind
  | .nil => .nil
  | .bool _ => .bool
  | .int _ => .int
  | .single _ | .double _ => .float
  | .str _ => .str
  | .bin _ => .bin
  | .ext _ _ => .ext

def Head.kind : Head → Kind
  | .scalar value => value.kind
  | .array _ => .array
  | .map _ => .map

/-- The scalar or header at the front of some bytes. -/
def readHead : List UInt8 → Option (Head × List UInt8)
  | [] => none
  | first :: rest => (Format.of first).read rest

section Ranges

variable {first : ℕ}

theorem Format.ofNat_fixmap (low : 0x80 ≤ first) (high : first ≤ 0x8f) :
    Format.ofNat first = .map (first - 0x80) := by
  unfold Format.ofNat
  rw [if_neg (by omega), if_pos high]

theorem Format.ofNat_fixarray (low : 0x90 ≤ first) (high : first ≤ 0x9f) :
    Format.ofNat first = .array (first - 0x90) := by
  unfold Format.ofNat
  rw [if_neg (by omega), if_neg (by omega), if_pos high]

theorem Format.ofNat_fixstr (low : 0xa0 ≤ first) (high : first ≤ 0xbf) :
    Format.ofNat first = .fixed (first - 0xa0) .str := by
  unfold Format.ofNat
  rw [if_neg (by omega), if_neg (by omega), if_neg (by omega), if_pos high]

end Ranges

/-! ### Objects -/

/-- Keys and values in the order in which they are encoded. -/
def members (entries : List (Object × Object)) : List Object :=
  entries.flatMap fun entry => [entry.1, entry.2]

@[simp] theorem members_cons (entry : Object × Object) (entries : List (Object × Object)) :
    members (entry :: entries) = entry.1 :: entry.2 :: members entries := rfl

@[simp] theorem length_members (entries : List (Object × Object)) :
    (members entries).length = entries.length * 2 := by
  induction entries with
  | nil => rfl
  | cons entry entries ih =>
    rw [members_cons, length_cons, length_cons, length_cons, ih, Nat.succ_mul]

/-- The objects at the front of some bytes, and the bytes after them. -/
inductive ReadsAll : List UInt8 → List Object → List UInt8 → Prop
  | done {bytes} : ReadsAll bytes [] bytes
  | scalar {bytes mid rest scalar objects} (head : readHead bytes = some (.scalar scalar, mid))
      (others : ReadsAll mid objects rest) : ReadsAll bytes (.scalar scalar :: objects) rest
  | array {bytes inside mid rest items objects}
      (head : readHead bytes = some (.array items.length, inside))
      (within : ReadsAll inside items mid) (others : ReadsAll mid objects rest) :
      ReadsAll bytes (.array items :: objects) rest
  | map {bytes inside mid rest entries objects}
      (head : readHead bytes = some (.map entries.length, inside))
      (within : ReadsAll inside (members entries) mid) (others : ReadsAll mid objects rest) :
      ReadsAll bytes (.map entries :: objects) rest

/-- The object at the front of some bytes. -/
abbrev Reads (bytes : List UInt8) (object : Object) (rest : List UInt8) : Prop :=
  ReadsAll bytes [object] rest

theorem ReadsAll.cons {bytes mid rest : List UInt8} {object : Object} {objects : List Object}
    (first : Reads bytes object mid) (others : ReadsAll mid objects rest) :
    ReadsAll bytes (object :: objects) rest := by
  cases first with
  | scalar head done => cases done; exact .scalar head others
  | array head within done => cases done; exact .array head within others
  | map head within done => cases done; exact .map head within others

theorem ReadsAll.uncons {bytes rest : List UInt8} {object : Object} {objects : List Object}
    (reads : ReadsAll bytes (object :: objects) rest) :
    ∃ mid, Reads bytes object mid ∧ ReadsAll mid objects rest := by
  cases reads with
  | scalar head others => exact ⟨_, .scalar head .done, others⟩
  | array head within others => exact ⟨_, .array head within .done, others⟩
  | map head within others => exact ⟨_, .map head within .done, others⟩

/-- The scalar or header that an object begins with. -/
def Object.head : Object → Head
  | .scalar value => .scalar value
  | .array items => .array items.length
  | .map entries => .map entries.length

/-! ### Nesting -/

mutual

/-- How many levels of members an object has. -/
def Object.height : Object → ℕ
  | .scalar _ => 0
  | .array items => heightItems items
  | .map entries => heightEntries entries

/-- How many levels objects make as members. -/
def heightItems : List Object → ℕ
  | [] => 0
  | item :: items => max (item.height + 1) (heightItems items)

def heightEntries : List (Object × Object) → ℕ
  | [] => 0
  | entry :: entries =>
    max (max (entry.1.height + 1) (entry.2.height + 1)) (heightEntries entries)

end

theorem heightEntries_eq (entries : List (Object × Object)) :
    heightEntries entries = heightItems (members entries) := by
  induction entries with
  | nil => rfl
  | cons entry entries ih => rw [heightEntries, members_cons, heightItems, heightItems, ih, max_assoc]

/-! ### The bytes of an object -/

variable {bytes rest : List UInt8} {head : Head}

theorem length_taken {count : ℕ} {taken : List UInt8}
    (eq : takeBytes count bytes = some (taken, rest)) : taken.length = count := by
  unfold takeBytes at eq
  split_ifs at eq with enough
  cases eq
  simpa using enough

theorem takeBytes_split {count : ℕ} {taken : List UInt8}
    (eq : takeBytes count bytes = some (taken, rest)) :
    bytes = taken ++ rest ∧ ∀ more, takeBytes count (taken ++ more) = some (taken, more) := by
  refine ⟨?_, takeBytes_append (length_taken eq)⟩
  unfold takeBytes at eq
  split_ifs at eq
  cases eq
  simp

theorem readBe_split {width value : ℕ} (eq : readBe width bytes = some (value, rest)) :
    ∃ taken, bytes = taken ++ rest ∧ ∀ more, readBe width (taken ++ more) = some (value, more) := by
  obtain ⟨⟨digits, after⟩, took, eq⟩ := map_eq_some_iff.1 eq
  cases eq
  obtain ⟨rfl, again⟩ := takeBytes_split took
  exact ⟨digits, rfl, fun more => by rw [readBe, again more]; rfl⟩

theorem Format.read_split {format : Format} (eq : format.read bytes = some (head, rest)) :
    ∃ taken, bytes = taken ++ rest ∧ ∀ more, format.read (taken ++ more) = some (head, more) := by
  cases format with
  | value | array | map => cases eq; exact ⟨[], rfl, fun _ => rfl⟩
  | unused => cases eq
  | fixed =>
    obtain ⟨⟨digits, after⟩, took, eq⟩ := map_eq_some_iff.1 eq
    cases eq
    obtain ⟨rfl, again⟩ := takeBytes_split took
    exact ⟨digits, rfl, fun more => by rw [Format.read, again more]; rfl⟩
  | arraySized | mapSized =>
    obtain ⟨⟨count, after⟩, took, eq⟩ := map_eq_some_iff.1 eq
    cases eq
    obtain ⟨taken, rfl, again⟩ := readBe_split took
    exact ⟨taken, rfl, fun more => by rw [Format.read, again more]; rfl⟩
  | sized =>
    obtain ⟨⟨length, mid⟩, sized, eq⟩ := bind_eq_some_iff.1 eq
    obtain ⟨⟨digits, after⟩, took, eq⟩ := bind_eq_some_iff.1 eq
    cases eq
    obtain ⟨first, rfl, again⟩ := readBe_split sized
    obtain ⟨rfl, again'⟩ := takeBytes_split took
    refine ⟨first ++ digits, (append_assoc _ _ _).symm, fun more => ?_⟩
    rw [Format.read, append_assoc, again]
    simp only [bind_eq_bind, bind_some, again' more]
    rfl

theorem readHead_split (eq : readHead bytes = some (head, rest)) :
    ∃ taken, bytes = taken ++ rest ∧ ∀ more, readHead (taken ++ more) = some (head, more) := by
  cases bytes with
  | nil => cases eq
  | cons first bytes =>
    obtain ⟨taken, rfl, again⟩ := Format.read_split eq
    exact ⟨first :: taken, rfl, again⟩

theorem length_readHead (eq : readHead bytes = some (head, rest)) : rest.length < bytes.length := by
  obtain ⟨taken, rfl, again⟩ := readHead_split eq
  have nonempty : taken ≠ [] := by
    rintro rfl
    cases again []
  have := length_pos_iff.2 nonempty
  rw [length_append]
  omega

/-- Every level takes a byte. -/
theorem ReadsAll.height_le {objects : List Object} (reads : ReadsAll bytes objects rest) :
    heightItems objects + rest.length ≤ bytes.length := by
  induction reads with
  | done => simp [heightItems]
  | scalar head others ih | array head within others inner ih =>
    have := length_readHead head
    rw [heightItems, Object.height]
    omega
  | map head within others inner ih =>
    have := length_readHead head
    rw [heightItems, Object.height, heightEntries_eq]
    omega

/-- Objects are read from some bytes, whatever follows them. -/
theorem ReadsAll.split_bytes {objects : List Object} (reads : ReadsAll bytes objects rest) :
    ∃ taken, bytes = taken ++ rest ∧ ∀ more, ReadsAll (taken ++ more) objects more := by
  induction reads with
  | done => exact ⟨[], rfl, fun _ => .done⟩
  | scalar head others ih =>
    obtain ⟨first, rfl, again⟩ := readHead_split head
    obtain ⟨taken, rfl, reads⟩ := ih
    refine ⟨first ++ taken, (append_assoc _ _ _).symm, fun more => ?_⟩
    rw [append_assoc]
    exact .scalar (again _) (reads more)
  | array head within others inner ih | map head within others inner ih =>
    obtain ⟨first, rfl, again⟩ := readHead_split head
    obtain ⟨middle, rfl, reads⟩ := inner
    obtain ⟨taken, rfl, reads'⟩ := ih
    refine ⟨first ++ middle ++ taken, by rw [append_assoc, append_assoc], fun more => ?_⟩
    rw [append_assoc, append_assoc]
    constructor
    · exact again _
    · exact reads _
    · exact reads' more

/-! ### Written heads -/

section Written

variable {first : UInt8} {width : ℕ} {bytes : List UInt8}

theorem readHead_fixed {make : List UInt8 → Scalar} (format : Format.of first = .fixed width make)
    (length : bytes.length = width) (rest : List UInt8) :
    readHead (first :: bytes ++ rest) = some (.scalar (make bytes), rest) := by
  rw [cons_append, readHead, format, Format.read, takeBytes_append length]
  rfl

theorem readHead_fixstr (short : bytes.length ≤ 31) (rest : List UInt8) :
    readHead (UInt8.ofNat (0xa0 + bytes.length) :: bytes ++ rest)
      = some (.scalar (.str bytes), rest) := by
  have head : (UInt8.ofNat (0xa0 + bytes.length)).toNat = 0xa0 + bytes.length := by
    rw [UInt8.toNat_ofNat']
    omega
  refine readHead_fixed ?_ rfl rest
  rw [Format.of, head, Format.ofNat_fixstr (by omega) (by omega), Nat.add_sub_cancel_left]

theorem readHead_arraySized {count : ℕ} (format : Format.of first = .arraySized width)
    (fits : count < 256 ^ width) (rest : List UInt8) :
    readHead (first :: beBytes width count ++ rest) = some (.array count, rest) := by
  rw [cons_append, readHead, format, Format.read, readBe_append fits]
  rfl

end Written

/-! ### Ranges of numbers and lengths -/

theorem beNat_lt (bytes : List UInt8) : beNat bytes < 256 ^ bytes.length := by
  have general : ∀ start, bytes.foldl (fun value byte => value * 256 + byte.toNat) start
      < (start + 1) * 256 ^ bytes.length := by
    induction bytes with
    | nil => intro start; simp
    | cons byte bytes ih =>
      intro start
      have lt : byte.toNat < 256 := byte.toNat_lt
      refine (ih (start * 256 + byte.toNat)).trans_le ?_
      rw [length_cons, pow_succ', ← mul_assoc]
      exact Nat.mul_le_mul_right _ (by omega)
  simpa [beNat] using general 0

theorem beInt_bounds (bytes : List UInt8) :
    -(256 ^ bytes.length : ℤ) ≤ 2 * beInt bytes ∧ 2 * beInt bytes < 256 ^ bytes.length := by
  have lt : (beNat bytes : ℤ) < 256 ^ bytes.length := by exact_mod_cast beNat_lt bytes
  unfold beInt
  split_ifs with small
  · have : (2 * beNat bytes : ℤ) < 256 ^ bytes.length := by exact_mod_cast small
    omega
  · have : (256 ^ bytes.length : ℤ) ≤ 2 * beNat bytes := by exact_mod_cast Nat.not_lt.1 small
    omega

/-- What the widths of the format allow. -/
def Head.Bounded : Head → Prop
  | .scalar (.int value) => -2 ^ 63 ≤ value ∧ value < 2 ^ 64
  | .scalar _ => True
  | .array count | .map count => count < 2 ^ 32

/-- A format of which everything that can be read is bounded. -/
def Format.Bounded : Format → Prop
  | .value scalar => (Head.scalar scalar).Bounded
  | .fixed length make => ∀ bytes, bytes.length = length → (Head.scalar (make bytes)).Bounded
  | .sized _ _ make => ∀ bytes, (Head.scalar (make bytes)).Bounded
  | .array count | .map count => count < 2 ^ 32
  | .arraySized width | .mapSized width => width ≤ 4
  | .unused => True

theorem readBe_lt {width value : ℕ} {bytes rest : List UInt8} (narrow : width ≤ 4)
    (eq : readBe width bytes = some (value, rest)) : value < 2 ^ 32 := by
  obtain ⟨⟨digits, after⟩, took, eq⟩ := map_eq_some_iff.1 eq
  cases eq
  calc beNat digits < 256 ^ digits.length := beNat_lt digits
    _ ≤ 256 ^ 4 := Nat.pow_le_pow_right (by decide) (by rw [length_taken took]; exact narrow)
    _ = 2 ^ 32 := by norm_num

theorem Format.Bounded.read {format : Format} (bounded : format.Bounded) {head : Head}
    {bytes rest : List UInt8} (eq : format.read bytes = some (head, rest)) : head.Bounded := by
  cases format with
  | value | array | map => cases eq; exact bounded
  | unused => cases eq
  | fixed =>
    obtain ⟨⟨digits, after⟩, took, eq⟩ := map_eq_some_iff.1 eq
    cases eq
    exact bounded digits (length_taken took)
  | arraySized | mapSized =>
    obtain ⟨⟨count, after⟩, took, eq⟩ := map_eq_some_iff.1 eq
    cases eq
    exact readBe_lt bounded took
  | sized =>
    obtain ⟨⟨length, mid⟩, sized, eq⟩ := bind_eq_some_iff.1 eq
    obtain ⟨⟨digits, after⟩, took, eq⟩ := bind_eq_some_iff.1 eq
    cases eq
    exact bounded digits

theorem bounded_beNat {width : ℕ} (narrow : width ≤ 8) :
    (Format.fixed width fun bytes => .int (beNat bytes)).Bounded := by
  intro bytes length
  have lt := beNat_lt bytes
  have le : 256 ^ bytes.length ≤ 256 ^ 8 := Nat.pow_le_pow_right (by decide) (by omega)
  constructor
  · exact (by norm_num : (-2 ^ 63 : ℤ) ≤ 0).trans (Int.natCast_nonneg _)
  · exact_mod_cast lt.trans_le (le.trans (by norm_num))

theorem bounded_beInt {width : ℕ} (narrow : width ≤ 8) :
    (Format.fixed width fun bytes => .int (beInt bytes)).Bounded := by
  intro bytes length
  obtain ⟨low, high⟩ := beInt_bounds bytes
  have le : (256 ^ bytes.length : ℤ) ≤ 256 ^ 8 :=
    pow_le_pow_right₀ (by decide) (by omega)
  norm_num at le
  constructor <;> omega

theorem Format.bounded_ofNat {first : ℕ} (byte : first < 256) : (Format.ofNat first).Bounded := by
  by_cases low : first ≤ 0x7f
  · rw [Format.ofNat, if_pos low]
    exact ⟨by omega, by omega⟩
  by_cases high : 0xe0 ≤ first
  · unfold Format.ofNat
    simp (disch := omega) only [if_neg]
    exact ⟨by omega, by omega⟩
  by_cases fixmap : first ≤ 0x8f
  · rw [Format.ofNat_fixmap (by omega) fixmap]
    exact (by omega : first - 0x80 < 2 ^ 32)
  by_cases fixarray : first ≤ 0x9f
  · rw [Format.ofNat_fixarray (by omega) fixarray]
    exact (by omega : first - 0x90 < 2 ^ 32)
  by_cases fixstr : first ≤ 0xbf
  · rw [Format.ofNat_fixstr (by omega) fixstr]
    exact fun _ _ => trivial
  -- the other formats have one first byte each
  have least : 0xc0 ≤ first := by omega
  have most : first ≤ 0xdf := by omega
  interval_cases first
  all_goals first
    | exact trivial
    | exact fun _ => trivial
    | exact fun _ _ => trivial
    | exact bounded_beNat (by decide)
    | exact bounded_beInt (by decide)
    | (change _ ≤ 4; decide)

theorem readHead_bounded {head : Head} {bytes rest : List UInt8}
    (eq : readHead bytes = some (head, rest)) : head.Bounded := by
  cases bytes with
  | nil => cases eq
  | cons first bytes => exact (Format.bounded_ofNat first.toNat_lt).read eq

end MessagePack
