import Mathlib.Data.List.Dedup
import Eventd.Lib.Fallible
import Eventd.Access.FieldTree

/-!
# Who may read which fields

The access check over an object type list that KACS makes for eventd, and `field_reads`
of `eventd-client/src/access.rs`, which asks it about a record's fields.  KACS is not
part of eventd: it is modelled by its documented rules.

* `Ace`, `rules`, `reads`: descriptors, and the check over a list;
* `fieldReads`, `fieldGrants`, `flatTree`: the lists eventd has checked;
* `readable`: the first entry to decide, of those that name one of some GUIDs or nothing;
* `fieldReads_ok`, `fieldReads_refused`: the verdicts on a record's fields, or a refusal.
-/

namespace Eventd

open List ListCheck
open Levels (Covers)

/-- An entry of a DACL.  Whom it is for, which rights it is about and under which condition
is left open in `terms`.  Only object entries have an object type. -/
structure Ace (τ : Type) where
  aceType : UInt8
  objectType : Option Guid
  terms : τ
  object : objectType.isSome = true → aceType ∈ ([0x05, 0x06, 0x0b, 0x0c] : List UInt8)

/-- Whether entries of a type allow or deny; other types do neither. -/
def aceVerdict (aceType : UInt8) : Option Bool :=
  if aceType ∈ ([0x00, 0x05, 0x09, 0x0b] : List UInt8) then some true
  else if aceType ∈ ([0x01, 0x06, 0x0a, 0x0c] : List UInt8) then some false
  else none

variable {τ : Type}

/-- The rules of a DACL for a caller: the entries that match the caller and include
`EVENTD_READ`, in order. -/
def rules (dacl : List (Ace τ)) (caller : τ → Bool) : List (Rule Guid) :=
  dacl.filterMap fun ace =>
    if caller ace.terms then (aceVerdict ace.aceType).map fun allow => ⟨allow, ace.objectType⟩
    else none

/-- Why a check fails. -/
inductive SecurityError
  | tooManyFields
  | refused
  deriving DecidableEq

/-- The most nodes KACS accepts in one object type list. -/
def maxObjectTypes : ℕ := 1024

/-- Whether the caller may read each node of an object type list.  A list that is too long
is not asked about, and KACS refuses one that names a node twice. -/
def reads (dacl : List (Ace τ)) (caller : τ → Bool) (tree : List (Entry Guid)) :
    Except SecurityError (List Bool) :=
  if maxObjectTypes < tree.length then .error .tooManyFields
  else if (tree.map Entry.name).Nodup then .ok (check tree (rules dacl caller))
  else .error .refused

/-- What an access check over a field tree decided. -/
structure FieldReads where
  record : Bool
  fields : List Bool
  deriving DecidableEq

/-- The verdict on one field: a field with nodes beneath it is checked again on its own. -/
def fieldRead {ε : Type} (root : Guid) (check : List (Entry Guid) → Except ε (List Bool))
    (tree : FieldTree) (results : List Bool) (asked : String × ℕ) : Except ε Bool :=
  if tree.hasChildren asked.2 then do
    let own := fieldTree root [asked.1]
    let results ← check own.entries
    return results.getD (own.fields.headD 0) false
  else return results.getD asked.2 false

/-- Whether the record and each of its fields may be read. -/
def fieldReads {ε : Type} (root : Guid) (fields : List String)
    (check : List (Entry Guid) → Except ε (List Bool)) : Except ε FieldReads := do
  let tree := fieldTree root fields
  let results ← check tree.entries
  let reads ← (fields.zip tree.fields).mapM (fieldRead root check tree results)
  return ⟨results.headD false, reads⟩

/-- The three kinds of data. -/
inductive Namespace
  | events
  | logs
  | metrics
  deriving DecidableEq

/-- The GUID of the records of a namespace. -/
def Namespace.rootGuid (namespace_ : Namespace) : Guid :=
  let last := match namespace_ with
    | .events => 1
    | .logs => 2
    | .metrics => 3
  #v[0xd4, 0xc3, 0xb2, 0xa1, 0x01, 0x00, 0x00, 0x40, 0x80, 0x00, 0x00, 0x00, 0x00, 0x00, 0x00,
    last]

/-- All three. -/
def Namespace.all : List Namespace := [.events, .logs, .metrics]

/-- The fields a descriptor grants by name: the object GUIDs of its allowing object entries,
once each.  The root of a namespace names no field. -/
def fieldGrants (dacl : List (Ace τ)) : List Guid :=
  let guids := (dacl.filter fun ace => ace.aceType ∈ ([0x05, 0x0b] : List UInt8)).filterMap
    Ace.objectType
  let named := guids.filter fun guid => !Namespace.all.any fun other => other.rootGuid == guid
  (named.insertionSort fun a b => a.toList ≤ b.toList).dedup

/-- The root at level 0 and each of the GUIDs at level 1 beneath it. -/
def flatTree (root : Guid) (guids : List Guid) : List (Entry Guid) :=
  ⟨0, root⟩ :: (guids.filter (· ≠ root)).map fun guid => ⟨1, guid⟩

/-! ### The documented rule -/

/-- Whether the first rule to decide, of those that name nothing or one of the GUIDs, allows. -/
def readable (rules : List (Rule Guid)) (guids : List Guid) : Bool :=
  (rules.find? fun rule => rule.target.all (· ∈ guids)).any Rule.allow

/-- The GUIDs that cover a field: the root's, and those of the field and its prefixes. -/
def fieldGuids (root : Guid) (field : String) : List Guid :=
  root :: (prefixes field).map fieldGuid

theorem mem_fieldGuids {root guid : Guid} {field : String} :
    guid ∈ fieldGuids root field ↔ guid = root ∨ ∃ path ∈ prefixes field, guid = fieldGuid path := by
  unfold fieldGuids
  rw [mem_cons, mem_map]
  exact or_congr_right (exists_congr fun path => and_congr_right fun _ => eq_comm)

theorem mem_nodePaths {fields : List String} {path : String} :
    path ∈ nodePaths fields ↔ ∃ field ∈ fields, path ∈ prefixes field :=
  mem_dedup.trans mem_flatMap

/-- KACS takes the list of some fields: it is short enough and their paths have distinct
GUIDs. -/
def Listable (root : Guid) (fields : List String) : Prop :=
  (nodePaths fields).length < maxObjectTypes ∧
    (root :: (nodePaths fields).map fieldGuid).Nodup

instance (root : Guid) (fields : List String) : Decidable (Listable root fields) :=
  inferInstanceAs (Decidable (_ ∧ _))

theorem readable_eq_of_leaf {tree : List (Entry Guid)} {i : ℕ} (lt : i < tree.length)
    (leaf : IsLeaf tree i) {guids : List Guid} {rules : List (Rule Guid)}
    (governs : ∀ rule, Governs tree i rule = true ↔ rule.target.all (· ∈ guids) = true) :
    (check tree rules).getD i false = readable rules guids := by
  have same : Governs tree i = fun rule => rule.target.all (· ∈ guids) :=
    funext fun rule => Bool.eq_iff_iff.2 (governs rule)
  rw [check_getD tree lt, decisions_leaf lt leaf, same, readable]
  cases rules.find? fun rule => rule.target.all (· ∈ guids) with
  | none => rfl
  | some rule =>
    obtain ⟨allow, target⟩ := rule
    cases allow <;> rfl

/-- The verdict on a list of nothing but the root. -/
theorem check_alone (root : Guid) (rules : List (Rule Guid)) :
    (check [⟨0, root⟩] rules).headD false = readable rules [root] := by
  have leaf : IsLeaf [(⟨0, root⟩ : Entry Guid)] 0 := fun j lt _ => Nat.lt_one_iff.1 lt
  have first : (check [⟨0, root⟩] rules).headD false = (check [⟨0, root⟩] rules).getD 0 false := by
    cases check [⟨0, root⟩] rules <;> rfl
  rw [first]
  refine readable_eq_of_leaf Nat.one_pos leaf fun rule => ?_
  have nodup : ([(⟨0, root⟩ : Entry Guid)].map Entry.name).Nodup := nodup_singleton root
  rw [governs_iff nodup (Levels.covers_refl _ 0)]
  cases rule.target with
  | none => simp
  | some guid =>
    rw [Option.all_some, decide_eq_true_eq, mem_singleton]
    simp only [Option.some.injEq, forall_eq']
    constructor
    · rintro ⟨n, above, same⟩
      obtain rfl := Nat.le_zero.1 above.1
      exact (Option.some.inj same).symm
    · rintro rfl
      exact ⟨0, Levels.covers_refl _ 0, rfl⟩

/-! ### The check over a field tree -/

section Tree

variable {root : Guid} {fields : List String}

theorem length_fieldTree : (fieldTree root fields).entries.length = (nodePaths fields).length + 1 := by
  have := (perm_names_fieldTree root fields).length_eq
  simpa using this

theorem nodup_fieldTree :
    ((fieldTree root fields).entries.map Entry.name).Nodup ↔
      (root :: (nodePaths fields).map fieldGuid).Nodup :=
  (perm_names_fieldTree root fields).nodup_iff

theorem reads_fieldTree (dacl : List (Ace τ)) (caller : τ → Bool) :
    reads dacl caller (fieldTree root fields).entries =
      if (nodePaths fields).length < maxObjectTypes then
        if (root :: (nodePaths fields).map fieldGuid).Nodup then
          .ok (check (fieldTree root fields).entries (rules dacl caller))
        else .error .refused
      else .error .tooManyFields := by
  unfold reads
  simp only [length_fieldTree, nodup_fieldTree]
  by_cases short : (nodePaths fields).length < maxObjectTypes
  · rw [if_neg (by omega), if_pos short]
  · rw [if_pos (by omega), if_neg short]

theorem reads_of_listable (h : Listable root fields) (dacl : List (Ace τ)) (caller : τ → Bool) :
    reads dacl caller (fieldTree root fields).entries =
      .ok (check (fieldTree root fields).entries (rules dacl caller)) := by
  rw [reads_fieldTree, if_pos h.1, if_pos h.2]

theorem Listable.short (h : Listable root fields) :
    (fieldTree root fields).entries.length ≤ 65536 := by
  have := h.1
  rw [length_fieldTree]
  unfold maxObjectTypes at this
  omega

/-- The list of some of the fields is taken if that of all of them is. -/
theorem Listable.subset (h : Listable root fields) {some : List String} (sub : some ⊆ fields) :
    Listable root some := by
  have paths : (nodePaths some).Subperm (nodePaths fields) := by
    refine (nodup_dedup _).subperm fun path mem => ?_
    obtain ⟨field, hfield, hpath⟩ := mem_nodePaths.1 mem
    exact mem_nodePaths.2 ⟨field, sub hfield, hpath⟩
  obtain ⟨count, nodup⟩ := h
  rw [nodup_cons] at nodup
  refine ⟨paths.length_le.trans_lt count, nodup_cons.2 ⟨fun mem => ?_, ?_⟩⟩
  · exact nodup.1 (map_subset fieldGuid paths.subset mem)
  · refine List.Nodup.map_on (fun a ha b hb eq => ?_) (nodup_dedup _)
    exact inj_on_of_nodup_map nodup.2 (paths.subset ha) (paths.subset hb) eq

/-- A position without children has nothing beneath it. -/
theorem isLeaf_of_not_hasChildren {tree : FieldTree} {i : ℕ} (none : tree.hasChildren i = false) :
    IsLeaf tree.entries i := by
  intro j lt covers
  by_contra ne
  have next : i + 1 ≤ j := Nat.succ_le_of_lt (lt_of_le_of_ne covers.1 (Ne.symm ne))
  have higher := covers.2 (i + 1) next (Nat.lt_succ_self i)
  simp [FieldTree.hasChildren, higher] at none
  omega

/-- **The verdict on a field with nothing beneath it is the documented one.** -/
theorem check_field (h : Listable root fields) {field : String} {pos : ℕ}
    (mem : (field, pos) ∈ fields.zip (fieldTree root fields).fields)
    (leaf : IsLeaf (fieldTree root fields).entries pos) (rules : List (Rule Guid)) :
    (check (fieldTree root fields).entries rules).getD pos false =
      readable rules (fieldGuids root field) := by
  obtain ⟨lt, above⟩ := covers_fieldTree h.short mem
  refine readable_eq_of_leaf lt leaf fun rule => ?_
  rw [governs_iff (nodup_fieldTree.2 h.2) ((root_fieldTree h.short).2 pos lt)]
  simp only [above]
  cases rule.target with
  | none => simp
  | some guid =>
    rw [Option.all_some, decide_eq_true_eq, mem_fieldGuids]
    simp only [Option.some.injEq, forall_eq']

/-- On its own, a field has nothing beneath it. -/
theorem isLeaf_own {field : String} (h : Listable root [field]) {pos : ℕ}
    (mem : (field, pos) ∈ [field].zip (fieldTree root [field]).fields) :
    IsLeaf (fieldTree root [field]).entries pos := by
  intro j lt covers
  rcases Nat.eq_zero_or_pos j with rfl | positive
  · exact (Nat.le_zero.1 covers.1).symm
  · obtain ⟨_, below, mem', covers'⟩ := exists_field_beneath h.short positive lt
    obtain ⟨only, eq⟩ := length_eq_one_iff.1 (@length_fields_fieldTree root [field])
    rw [eq] at mem mem'
    simp only [zip_cons_cons, zip_nil_left, mem_singleton, Prod.mk.injEq] at mem mem'
    have : j ≤ pos := by
      rw [mem.2, ← mem'.2]
      exact covers'.1
    exact le_antisymm this covers.1

/-- **Every field is read by the documented rule**, whatever else is asked about. -/
theorem fieldRead_eq (h : Listable root fields) {asked : String × ℕ}
    (mem : asked ∈ fields.zip (fieldTree root fields).fields) (dacl : List (Ace τ))
    (caller : τ → Bool) :
    fieldRead root (reads dacl caller) (fieldTree root fields)
        (check (fieldTree root fields).entries (rules dacl caller)) asked =
      .ok (readable (rules dacl caller) (fieldGuids root asked.1)) := by
  obtain ⟨field, pos⟩ := asked
  unfold fieldRead
  split_ifs with beneath
  · have own : Listable root [field] :=
      h.subset (cons_subset.2 ⟨(of_mem_zip mem).1, nil_subset _⟩)
    obtain ⟨only, eq⟩ := length_eq_one_iff.1
      (@length_fields_fieldTree root [field])
    have mem' : (field, only) ∈ [field].zip (fieldTree root [field]).fields := by simp [eq]
    simp only [reads_of_listable own, bind, Except.bind, pure, Except.pure]
    rw [eq, headD_cons, check_field own mem' (isLeaf_own own mem')]
  · rw [check_field h mem (isLeaf_of_not_hasChildren (by simpa using beneath))]
    rfl

/-- **What is decided about a record and its fields.** -/
theorem fieldReads_ok (h : Listable root fields) (dacl : List (Ace τ)) (caller : τ → Bool) :
    fieldReads root fields (reads dacl caller) =
      .ok ⟨(check (fieldTree root fields).entries (rules dacl caller)).headD false,
        fields.map fun field => readable (rules dacl caller) (fieldGuids root field)⟩ := by
  have verdicts : (fields.zip (fieldTree root fields).fields).mapM
      (fieldRead root (reads dacl caller) (fieldTree root fields)
        (check (fieldTree root fields).entries (rules dacl caller))) =
      .ok (fields.map fun field => readable (rules dacl caller) (fieldGuids root field)) := by
    rw [Fallible.mapM_eq_ok]
    have split : fields.map (fun field => readable (rules dacl caller) (fieldGuids root field)) =
        (fields.zip (fieldTree root fields).fields).map fun asked =>
          readable (rules dacl caller) (fieldGuids root asked.1) := by
      conv_lhs => rw [← map_fst_zip (@length_fields_fieldTree root fields).ge, map_map]
      rfl
    rw [split, forall₂_map_right_iff, forall₂_same]
    exact fun asked mem => fieldRead_eq h mem dacl caller
  unfold fieldReads
  simp only [reads_of_listable h, verdicts, bind, Except.bind, pure, Except.pure]

theorem fieldReads_refused (h : ¬ Listable root fields) (dacl : List (Ace τ)) (caller : τ → Bool) :
    ∃ error, fieldReads root fields (reads dacl caller) = .error error := by
  unfold fieldReads
  simp only [reads_fieldTree]
  split_ifs with short nodup
  · exact absurd ⟨short, nodup⟩ h
  · exact ⟨_, rfl⟩
  · exact ⟨_, rfl⟩

/-! ### The verdict on the record -/

theorem nodePaths_ne_nil (nonempty : fields ≠ []) : nodePaths fields ≠ [] := by
  obtain ⟨field, mem⟩ := exists_mem_of_ne_nil fields nonempty
  exact ne_nil_of_mem (mem_nodePaths.2 ⟨field, mem, mem_prefixes_self field⟩)

theorem headD_check {tree : List (Entry Guid)} (nonempty : 0 < tree.length)
    (rules : List (Rule Guid)) :
    (check tree rules).headD false = (decisions tree rules 0 == some true) := by
  rw [← check_getD tree nonempty]
  cases check tree rules <;> rfl

/-- **A record that may be read as a whole has a field that may be read.** -/
theorem exists_readable_of_record (h : Listable root fields) (nonempty : fields ≠ [])
    {rules : List (Rule Guid)}
    (record : (check (fieldTree root fields).entries rules).headD false = true) :
    ∃ field ∈ fields, readable rules (fieldGuids root field) = true := by
  have count := @length_fieldTree root fields
  have some := length_pos_iff.2 (nodePaths_ne_nil nonempty)
  rw [headD_check (by omega), beq_iff_eq] at record
  -- the last node has nothing beneath it, so it is a field, and it is granted with the root
  obtain ⟨field, below, mem, covers⟩ := exists_field_beneath h.short some (by omega)
  obtain ⟨lt, -⟩ := covers_fieldTree h.short mem
  obtain rfl : below = (nodePaths fields).length := le_antisymm (by omega) covers.1
  have leaf : IsLeaf (fieldTree root fields).entries (nodePaths fields).length :=
    fun j ltj coversj => le_antisymm (by omega) coversj.1
  refine ⟨field, (of_mem_zip mem).1, ?_⟩
  rw [← check_field h mem leaf, check_getD _ lt, beq_iff_eq]
  exact (coherent_decisions rules).granted 0 _ lt ((root_fieldTree h.short).2 _ lt) record

/-- A record without fields is read by what is said about everything. -/
theorem record_of_no_fields (rules : List (Rule Guid)) :
    (check (fieldTree root []).entries rules).headD false = readable rules [root] := by
  have alone : (fieldTree root []).entries = [⟨0, root⟩] := rfl
  rw [alone, check_alone]

end Tree

/-! ### The check over a flat list -/

theorem nodup_fieldGrants (dacl : List (Ace τ)) : (fieldGrants dacl).Nodup := nodup_dedup _

/-- The field grants of a descriptor are named by its allowing entries. -/
theorem mem_fieldGrants {dacl : List (Ace τ)} {guid : Guid} :
    guid ∈ fieldGrants dacl ↔
      (∃ ace ∈ dacl, ace.aceType ∈ ([0x05, 0x0b] : List UInt8) ∧ ace.objectType = some guid) ∧
        ∀ other : Namespace, guid ≠ other.rootGuid := by
  have roots : (!Namespace.all.any fun other => other.rootGuid == guid) = true ↔
      ∀ other : Namespace, guid ≠ other.rootGuid := by
    rw [Bool.not_eq_true', any_eq_false]
    simp only [beq_iff_eq]
    refine ⟨fun h other eq => h other ?_ eq.symm, fun h other _ eq => h other eq.symm⟩
    cases other <;> decide
  unfold fieldGrants
  simp only [mem_dedup, mem_insertionSort, mem_filter, roots, mem_filterMap,
    decide_eq_true_eq, and_assoc]

section Flat

variable {root : Guid} {guids : List Guid}

theorem flatTree_eq (rootless : root ∉ guids) :
    flatTree root guids = ⟨0, root⟩ :: guids.map fun guid => ⟨1, guid⟩ := by
  unfold flatTree
  rw [filter_eq_self.2 fun guid mem => ?_]
  exact decide_eq_true fun eq => rootless (eq ▸ mem)

theorem levelAt_flat {i : ℕ} (lt : i < guids.length) :
    levelAt (⟨0, root⟩ :: guids.map fun guid => ⟨1, guid⟩) (i + 1) = 1 := by
  simp [levelAt, Levels.ofList, lt]

theorem covers_root_flat {i : ℕ} (le : i ≤ guids.length) :
    Covers (levelAt (⟨0, root⟩ :: guids.map fun guid => ⟨1, guid⟩)) 0 i := by
  refine ⟨Nat.zero_le i, fun k lek lt => ?_⟩
  obtain ⟨k, rfl⟩ := Nat.exists_eq_succ_of_ne_zero lt.ne'
  rw [Nat.succ_eq_add_one, levelAt_flat (by omega)]
  exact Nat.one_pos

/-- The nodes beneath the root have nothing beneath them. -/
theorem covers_flat {i j : ℕ} (le : j ≤ guids.length)
    (covers : Covers (levelAt (⟨0, root⟩ :: guids.map fun guid => ⟨1, guid⟩)) (i + 1) j) :
    j = i + 1 := by
  by_contra ne
  have := covers.2 (i + 2) (by have := covers.1; omega) (by omega)
  have least := covers.1
  rw [levelAt_flat (by omega), levelAt_flat (by omega)] at this
  exact lt_irrefl _ this

section

variable (nodup : guids.Nodup) (rootless : root ∉ guids)
include nodup rootless

theorem nodup_flat :
    (((⟨0, root⟩ : Entry Guid) :: guids.map fun guid => ⟨1, guid⟩).map Entry.name).Nodup := by
  simpa [Function.comp_def] using ⟨rootless, nodup⟩

/-- The verdict on a GUID beneath the root of a flat list. -/
theorem check_flat {i : ℕ} (lt : i < guids.length) (rules : List (Rule Guid)) :
    (check (⟨0, root⟩ :: guids.map fun guid => ⟨1, guid⟩) rules).getD (i + 1) false =
      readable rules [root, guids[i]] := by
  refine readable_eq_of_leaf (by simpa using lt) (fun j ltj => covers_flat ?_) fun rule => ?_
  · simpa [Nat.lt_succ_iff] using ltj
  rw [governs_iff (nodup_flat nodup rootless) (covers_root_flat lt)]
  cases rule.target with
  | none => simp
  | some guid =>
    rw [Option.all_some, decide_eq_true_eq, mem_pair]
    simp only [Option.some.injEq, forall_eq']
    constructor
    · rintro ⟨n, above, same⟩
      cases n with
      | zero => exact .inl (Option.some.inj same).symm
      | succ n =>
        obtain rfl : i = n := Nat.succ_injective (covers_flat lt above)
        simp only [List.getElem?_cons_succ, List.getElem?_map, List.getElem?_eq_getElem lt,
          Option.map_some, Option.some.injEq] at same
        exact .inr same.symm
    · rintro (rfl | rfl)
      · exact ⟨0, covers_root_flat lt, rfl⟩
      · exact ⟨i + 1, Levels.covers_refl _ _, by simp [lt]⟩

/-- **Whether anything in a flat list may be read.** -/
theorem any_check_flatTree (rules : List (Rule Guid)) :
    (check (flatTree root guids) rules).any id = true ↔
      guids = [] ∧ readable rules [root] = true ∨
        ∃ guid ∈ guids, readable rules [root, guid] = true := by
  rw [flatTree_eq rootless]
  rcases eq_or_ne guids [] with rfl | nonempty
  · rw [← check_alone]
    simp [check]
  have some : 0 < guids.length := length_pos_iff.2 nonempty
  have beneath {i : ℕ} (lt : i < guids.length) :=
    check_getD (⟨0, root⟩ :: guids.map fun guid => ⟨1, guid⟩) (by simpa using lt) rules
      |>.symm.trans (check_flat nodup rootless lt rules)
  simp only [any_eq_true, check, mem_map, mem_range, id, length_cons,
    length_map]
  constructor
  · rintro ⟨_, ⟨i, lt, rfl⟩, granted⟩
    right
    cases i with
    | zero =>
      -- what may be read as a whole may be read in each of its parts
      rw [beq_iff_eq] at granted
      have first := (coherent_decisions rules).granted 0 1 (by simpa using some)
        (covers_root_flat some) granted
      refine ⟨guids[0], getElem_mem some, ?_⟩
      rw [← beneath some, first]
      rfl
    | succ i =>
      have lt : i < guids.length := Nat.succ_lt_succ_iff.1 lt
      exact ⟨guids[i], getElem_mem lt, by rw [← beneath lt, granted]⟩
  · rintro (⟨none, -⟩ | ⟨guid, mem, granted⟩)
    · exact absurd none nonempty
    · obtain ⟨i, lt, rfl⟩ := getElem_of_mem mem
      exact ⟨true, ⟨i + 1, Nat.succ_lt_succ lt, by rw [beneath lt, granted]⟩, rfl⟩

theorem reads_flatTree (short : guids.length < maxObjectTypes) (dacl : List (Ace τ))
    (caller : τ → Bool) :
    reads dacl caller (flatTree root guids) = .ok (check (flatTree root guids) (rules dacl caller)) := by
  unfold reads
  rw [flatTree_eq rootless, if_neg (by simp; omega), if_pos (nodup_flat nodup rootless)]

end

end Flat

end Eventd
