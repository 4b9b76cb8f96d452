import Eventd.Access.Reads

/-!
# What a query may show

`Authorizer` of `eventd/src/query/security.rs` and `authorize_row` of
`eventd/src/query/executor.rs`: which identifiers a query looks at, and what it shows of
each of their records.

* `Authorizer.check`, `authorizeRow`: the verdict on a record;
* `Authorizer.mayRead`: the verdict on an identifier before any record is read;
* `Visible`: what TRM §7.3 says a caller sees;
* `authorizeRow_eq_ok`, `mayRead_of_fields`: the two verdicts by the documented rule;
* `readable_field`: who reads a field reads everything, or a field granted by name;
* `FirstAllows`: the rule for one field in terms of the entries that speak of it.
-/

namespace Eventd

open Fallible List ListCheck

variable {τ : Type} {V : Type}

/-- A caller, by the entries that match it, and the descriptors of the identifiers. -/
structure Authorizer (τ : Type) where
  caller : τ → Bool
  descriptors : Namespace → String → Option (List (Ace τ))

/-- A record under an identifier, with its fields in order. -/
structure Row (V : Type) where
  identifier : String
  record : List (String × V)
  deriving DecidableEq

/-- The fields of a record. -/
def Row.keys (row : Row V) : List String := row.record.map Prod.fst

/-- The record with only the fields that are kept. -/
def Row.retain (row : Row V) (keep : String → Bool) : Row V :=
  { row with record := row.record.filter fun entry => keep entry.1 }

namespace Authorizer

/-- The fields, of those of a record, that the caller may read; nothing if the record is
not visible. -/
def check (authorizer : Authorizer τ) (namespace_ : Namespace) (identifier : String)
    (fields : List String) : Except SecurityError (Option (List String)) :=
  match authorizer.descriptors namespace_ identifier with
  | none => .ok none
  | some dacl => do
      let verdicts ← fieldReads namespace_.rootGuid fields (reads dacl authorizer.caller)
      let granted := ((fields.zip verdicts.fields).filter Prod.snd).map Prod.fst
      return if !verdicts.record && granted.isEmpty then none else some granted

/-- The list asked about when no field is named: the fields the descriptor grants by name. -/
def namedGrants (namespace_ : Namespace) (dacl : List (Ace τ)) : List (Entry Guid) :=
  flatTree namespace_.rootGuid (fieldGrants dacl)

/-- Whether records under an identifier may be visible with every one of the fields. -/
def mayRead (authorizer : Authorizer τ) (namespace_ : Namespace) (identifier : String)
    (fields : List String) : Except SecurityError Bool :=
  match authorizer.descriptors namespace_ identifier with
  | none => .ok false
  | some dacl =>
    if fields.isEmpty then do
      let verdicts ← reads dacl authorizer.caller (namedGrants namespace_ dacl)
      return verdicts.any id
    else do
      let verdicts ← fieldReads namespace_.rootGuid fields (reads dacl authorizer.caller)
      return verdicts.fields.all id

/-- The identifiers a query looks at. -/
def authorizeIdentifiers (authorizer : Authorizer τ) (namespace_ : Namespace)
    (identifiers fields : List String) : Except SecurityError (List String) :=
  identifiers.foldlM (fun allowed identifier => do
    if ← authorizer.mayRead namespace_ identifier fields then return allowed ++ [identifier]
    else return allowed) []

end Authorizer

/-- The entry that allows everything. -/
def allowing (terms : τ) : Ace τ := ⟨0x00, none, terms, nofun⟩

/-- Everybody may read everything. -/
def everybody : Authorizer Unit where
  caller := fun _ => true
  descriptors := fun _ _ => some [allowing ()]

/-- The fields asked about for a record: its own and those the query refers to. -/
def rowFields (row : Row V) (referenced : List String) : List String :=
  ((row.keys ++ referenced).insertionSort (· ≤ ·)).dedup

/-- What a query shows of a record, if anything. -/
def authorizeRow (authorizer : Authorizer τ) (namespace_ : Namespace) (row : Row V)
    (referenced : List String) : Except SecurityError (Option (Row V)) := do
  match ← authorizer.check namespace_ row.identifier (rowFields row referenced) with
  | none => return none
  | some allowed =>
    if referenced.any (· ∉ allowed) then return none
    else return some (row.retain (· ∈ allowed))

/-! ### The verdicts by the documented rule -/

/-- A record is visible if one of its fields may be read; without fields, if everything may. -/
def Visible (rules : List (Rule Guid)) (root : Guid) (fields : List String) : Prop :=
  fields = [] ∧ readable rules [root] = true ∨
    ∃ field ∈ fields, readable rules (fieldGuids root field) = true

theorem filter_zip_map (f : String → Bool) (fields : List String) :
    ((fields.zip (fields.map f)).filter Prod.snd).map Prod.fst = fields.filter f := by
  induction fields with
  | nil => rfl
  | cons field fields ih =>
    rw [map_cons, zip_cons_cons, filter_cons, filter_cons, ← ih]
    cases f field <;> rfl

theorem mem_rowFields {row : Row V} {referenced : List String} {field : String} :
    field ∈ rowFields row referenced ↔ field ∈ row.keys ∨ field ∈ referenced := by
  unfold rowFields
  rw [mem_dedup, mem_insertionSort, mem_append]

theorem rowFields_eq_nil {row : Row V} {referenced : List String} :
    rowFields row referenced = [] ↔ row.keys = [] ∧ referenced = [] := by
  simp only [eq_nil_iff_forall_not_mem, mem_rowFields, not_or, forall_and]

theorem retain_congr {row : Row V} {keep keep' : String → Bool}
    (same : ∀ field ∈ row.keys, keep field = keep' field) : row.retain keep = row.retain keep' := by
  unfold Row.retain
  rw [filter_congr fun entry mem => same entry.1 (mem_map_of_mem mem)]

/-- The list check over a record's fields grants something just if the record is visible. -/
theorem visible_iff {root : Guid} {fields : List String} (listable : Listable root fields)
    (rules : List (Rule Guid)) :
    Visible rules root fields ↔
      (ListCheck.check (fieldTree root fields).entries rules).headD false = true ∨
        fields.filter (fun field => readable rules (fieldGuids root field)) ≠ [] := by
  have granted : fields.filter (fun field => readable rules (fieldGuids root field)) ≠ [] ↔
      ∃ field ∈ fields, readable rules (fieldGuids root field) = true := by
    simp
  rw [granted]
  constructor
  · rintro (⟨rfl, whole⟩ | some)
    · exact .inl ((record_of_no_fields rules).trans whole)
    · exact .inr some
  · rintro (record | some)
    · rcases eq_or_ne fields [] with rfl | nonempty
      · exact .inl ⟨rfl, (record_of_no_fields rules).symm.trans record⟩
      · exact .inr (exists_readable_of_record listable nonempty record)
    · exact .inr some

section Verdicts

variable {authorizer : Authorizer τ} {namespace_ : Namespace} {identifier : String}
  {dacl : List (Ace τ)}

/-- What is granted of some fields. -/
theorem check_eq_some (descriptor : authorizer.descriptors namespace_ identifier = some dacl)
    {fields allowed : List String} :
    authorizer.check namespace_ identifier fields = .ok (some allowed) ↔
      Listable namespace_.rootGuid fields ∧
        Visible (rules dacl authorizer.caller) namespace_.rootGuid fields ∧
          allowed = fields.filter fun field =>
            readable (rules dacl authorizer.caller) (fieldGuids namespace_.rootGuid field) := by
  unfold Authorizer.check
  simp only [descriptor]
  by_cases listable : Listable namespace_.rootGuid fields
  · simp only [fieldReads_ok listable, bind, Except.bind, pure, Except.pure, filter_zip_map]
    rw [visible_iff listable, Except.ok.injEq, and_iff_right listable]
    split_ifs with hidden
    · rw [Bool.and_eq_true, Bool.not_eq_true', List.isEmpty_iff] at hidden
      simp only [hidden, Bool.false_eq_true, ne_eq, not_true_eq_false, or_self,
        false_and]
    · rw [Bool.and_eq_true, Bool.not_eq_true', List.isEmpty_iff, not_and_or, Bool.not_eq_false]
        at hidden
      rw [Option.some.injEq, and_iff_right hidden, eq_comm]
  · obtain ⟨error, refused⟩ := fieldReads_refused listable dacl authorizer.caller
    simp [refused, bind, Except.bind, listable]

/-- **A row is shown if it is visible and every field the query refers to may be read, and
then with those of its own fields that may be read.** -/
theorem authorizeRow_eq_ok {row kept : Row V} {referenced : List String}
    (descriptor : authorizer.descriptors namespace_ row.identifier = some dacl) :
    authorizeRow authorizer namespace_ row referenced = .ok (some kept) ↔
      Listable namespace_.rootGuid (rowFields row referenced) ∧
        Visible (rules dacl authorizer.caller) namespace_.rootGuid (rowFields row referenced) ∧
          (∀ field ∈ referenced, readable (rules dacl authorizer.caller)
            (fieldGuids namespace_.rootGuid field) = true) ∧
            kept = row.retain fun field =>
              readable (rules dacl authorizer.caller) (fieldGuids namespace_.rootGuid field) := by
  unfold authorizeRow
  constructor
  · intro shown
    obtain ⟨allowed, checked, shown⟩ := bind_eq_ok.1 shown
    cases allowed with
    | none => cases shown
    | some allowed =>
      obtain ⟨listable, visible, rfl⟩ := (check_eq_some descriptor).1 checked
      dsimp only at shown
      split_ifs at shown with hidden
      · cases shown
      obtain rfl := Option.some.inj (Except.ok.inj shown)
      refine ⟨listable, visible, fun field mem => ?_, ?_⟩
      · by_contra unreadable
        refine hidden (any_eq_true.2 ⟨field, mem, decide_eq_true fun allowed => ?_⟩)
        exact unreadable (mem_filter.1 allowed).2
      · exact retain_congr fun field mem => by simp [mem_rowFields, mem]
  · rintro ⟨listable, visible, every, rfl⟩
    have none_hidden : ¬ referenced.any (fun field => field ∉ (rowFields row referenced).filter
        fun field => readable (rules dacl authorizer.caller)
          (fieldGuids namespace_.rootGuid field)) = true := by
      simpa [mem_rowFields] using fun field mem => ⟨fun _ => mem, every field mem⟩
    rw [(check_eq_some descriptor).2 ⟨listable, visible, rfl⟩]
    simp only [bind, Except.bind, if_neg none_hidden, pure, Except.pure, Except.ok.injEq,
      Option.some.injEq]
    exact retain_congr fun field mem => by simp [mem_rowFields, mem]

theorem authorizeRow_of_no_descriptor {row kept : Row V} {referenced : List String}
    (none : authorizer.descriptors namespace_ row.identifier = none) :
    authorizeRow authorizer namespace_ row referenced ≠ .ok (some kept) := by
  unfold authorizeRow Authorizer.check
  simp only [none]
  exact nofun

/-- With fields named, an identifier is looked at if every one of them may be read. -/
theorem mayRead_of_fields (descriptor : authorizer.descriptors namespace_ identifier = some dacl)
    {fields : List String} (nonempty : fields ≠ []) (listable : Listable namespace_.rootGuid fields) :
    authorizer.mayRead namespace_ identifier fields = .ok true ↔
      ∀ field ∈ fields, readable (rules dacl authorizer.caller)
        (fieldGuids namespace_.rootGuid field) = true := by
  unfold Authorizer.mayRead
  simp only [descriptor, List.isEmpty_iff, if_neg nonempty, fieldReads_ok listable, bind,
    Except.bind, pure, Except.pure, Except.ok.injEq, List.all_eq_true, List.forall_mem_map, id]

/-- With none named, it is looked at if something in the flat list may be read. -/
theorem mayRead_of_no_fields (descriptor : authorizer.descriptors namespace_ identifier = some dacl)
    (short : (fieldGrants dacl).length < maxObjectTypes) :
    authorizer.mayRead namespace_ identifier [] = .ok true ↔
      fieldGrants dacl = [] ∧
          readable (rules dacl authorizer.caller) [namespace_.rootGuid] = true ∨
        ∃ guid ∈ fieldGrants dacl,
          readable (rules dacl authorizer.caller) [namespace_.rootGuid, guid] = true := by
  have nodup := nodup_fieldGrants dacl
  have rootless : namespace_.rootGuid ∉ fieldGrants dacl :=
    fun mem => (mem_fieldGrants.1 mem).2 namespace_ rfl
  rw [← any_check_flatTree nodup rootless]
  unfold Authorizer.mayRead Authorizer.namedGrants
  simp only [descriptor, isEmpty_nil, if_true, reads_flatTree nodup rootless short, bind,
    Except.bind, pure, Except.pure, Except.ok.injEq]

end Verdicts

/-! ### Named and general grants -/

/-- What a rule makes readable stays so with fewer GUIDs, as long as the rule still speaks
of them. -/
theorem exists_rule_of_readable {rules : List (Rule Guid)} {guids : List Guid}
    (h : readable rules guids = true) :
    ∃ rule ∈ rules, rule.allow = true ∧ rule.target.all (· ∈ guids) = true ∧
      ∀ fewer ⊆ guids, rule.target.all (· ∈ fewer) = true → readable rules fewer = true := by
  obtain ⟨rule, first, allow⟩ := (Option.any_eq_true _ _).1 h
  obtain ⟨speaks, before, after, eq, none⟩ := List.find?_eq_some_iff_append.1 first
  refine ⟨rule, mem_of_find?_eq_some first, allow, speaks, fun fewer sub still => ?_⟩
  have first' : rules.find? (fun rule => rule.target.all (· ∈ fewer)) = some rule := by
    refine List.find?_eq_some_iff_append.2 ⟨still, before, after, eq, fun other mem => ?_⟩
    -- an earlier rule that speaks of the fewer GUIDs would speak of all of them
    have silent := none other mem
    revert silent
    cases other.target with
    | none => exact id
    | some guid =>
      simp only [Option.all_some, Bool.not_eq_true', decide_eq_false_iff_not]
      exact fun absent mem => absent (sub mem)
  unfold readable
  rw [first', Option.any_some, allow]

/-- A rule that allows and names a GUID comes from a grant by name. -/
theorem named_of_mem_rules {dacl : List (Ace τ)} {caller : τ → Bool} {guid : Guid}
    (mem : ⟨true, some guid⟩ ∈ rules dacl caller) :
    ∃ ace ∈ dacl, ace.aceType ∈ ([0x05, 0x0b] : List UInt8) ∧ ace.objectType = some guid := by
  obtain ⟨ace, inDacl, eq⟩ := mem_filterMap.1 mem
  split_ifs at eq
  obtain ⟨allow, verdict, eq⟩ := Option.map_eq_some_iff.1 eq
  obtain ⟨rfl, named⟩ := Rule.mk.inj eq
  refine ⟨ace, inDacl, ?_, named⟩
  have object := ace.object (by rw [named]; rfl)
  simp only [mem_cons, not_mem_nil, or_false] at object ⊢
  rcases object with type | type | type | type <;> rw [type] at verdict ⊢ <;> revert verdict <;> decide

theorem fieldGuid_ne_rootGuid (path : String) (namespace_ : Namespace) :
    fieldGuid path ≠ namespace_.rootGuid := by
  intro eq
  have version := fieldGuid_version path
  rw [eq] at version
  cases namespace_ <;> revert version <;> decide

/-- **Who may read a field may read everything, or a field granted by name.** -/
theorem readable_field {dacl : List (Ace τ)} {caller : τ → Bool} {root : Guid} {field : String}
    (h : readable (rules dacl caller) (fieldGuids root field) = true) :
    readable (rules dacl caller) [root] = true ∨
      ∃ guid ∈ fieldGrants dacl, readable (rules dacl caller) [root, guid] = true := by
  obtain ⟨⟨allow, target⟩, mem, rfl, speaks, keeps⟩ := exists_rule_of_readable h
  have root_mem : root ∈ fieldGuids root field := mem_fieldGuids.2 (.inl rfl)
  cases target with
  | none =>
    left
    exact keeps [root] (cons_subset.2 ⟨root_mem, nil_subset _⟩) rfl
  | some guid =>
    have covers : guid ∈ fieldGuids root field := of_decide_eq_true speaks
    rcases mem_fieldGuids.1 covers with rfl | ⟨path, -, rfl⟩
    · left
      exact keeps [guid] (cons_subset.2 ⟨root_mem, nil_subset _⟩) (by simp)
    · right
      refine ⟨fieldGuid path, mem_fieldGrants.2 ⟨named_of_mem_rules mem, ?_⟩, keeps _ ?_ (by simp)⟩
      · exact fieldGuid_ne_rootGuid path
      · exact cons_subset.2 ⟨root_mem, cons_subset.2 ⟨covers, nil_subset _⟩⟩

/-! ### The first entry to decide -/

/-- Whether a rule speaks of a field: it names nothing, the root, or the GUID of the field or
of a dotted prefix of it. -/
def SpeaksOf (root : Guid) (field : String) (rule : Rule Guid) : Prop :=
  rule.target = none ∨ rule.target = some root ∨
    ∃ path ∈ prefixes field, rule.target = some (fieldGuid path)

theorem speaksOf_iff {root : Guid} {field : String} {rule : Rule Guid} :
    rule.target.all (· ∈ fieldGuids root field) = true ↔ SpeaksOf root field rule := by
  unfold SpeaksOf
  cases rule.target with
  | none => simp
  | some guid => simp [mem_fieldGuids]

/-- The first of the rules that speak of a field allows. -/
def FirstAllows (rules : List (Rule Guid)) (root : Guid) (field : String) : Prop :=
  ∃ before rule after, rules = before ++ rule :: after ∧ rule.allow = true ∧
    SpeaksOf root field rule ∧ ∀ earlier ∈ before, ¬ SpeaksOf root field earlier

theorem readable_iff_firstAllows {rules : List (Rule Guid)} {root : Guid} {field : String} :
    readable rules (fieldGuids root field) = true ↔ FirstAllows rules root field := by
  unfold readable FirstAllows
  rw [Option.any_eq_true]
  simp only [List.find?_eq_some_iff_append, Bool.not_eq_true', ← Bool.not_eq_true, speaksOf_iff]
  constructor
  · rintro ⟨rule, ⟨speaks, before, after, eq, silent⟩, allow⟩
    exact ⟨before, rule, after, eq, allow, speaks, silent⟩
  · rintro ⟨before, rule, after, eq, allow, speaks, silent⟩
    exact ⟨rule, ⟨speaks, before, after, eq, silent⟩, allow⟩

theorem eq_of_mem_zip_map {f : String → Bool} {fields : List String} {field : String}
    {verdict : Bool} (mem : (field, verdict) ∈ fields.zip (fields.map f)) : verdict = f field := by
  induction fields with
  | nil => cases mem
  | cons first fields ih =>
    rcases mem_cons.1 mem with eq | mem
    · obtain ⟨rfl, rfl⟩ := Prod.mk.inj eq
      rfl
    · exact ih mem

theorem listable_of_distinct {fields : List String} (namespace_ : Namespace)
    (short : (nodePaths fields).length < maxObjectTypes)
    (distinct : ((nodePaths fields).map fieldGuid).Nodup) :
    Listable namespace_.rootGuid fields := by
  refine ⟨short, nodup_cons.2 ⟨fun mem => ?_, distinct⟩⟩
  obtain ⟨path, -, eq⟩ := mem_map.1 mem
  exact fieldGuid_ne_rootGuid path namespace_ eq

/-- **A field may be read exactly if the first entry to speak of it allows**, whatever else
is asked about. -/
theorem fieldReads_firstAllows (namespace_ : Namespace) (dacl : List (Ace τ)) (caller : τ → Bool)
    {fields : List String} (short : (nodePaths fields).length < maxObjectTypes)
    (distinct : ((nodePaths fields).map fieldGuid).Nodup) :
    ∃ verdicts, fieldReads namespace_.rootGuid fields (reads dacl caller) = .ok verdicts ∧
      verdicts.fields.length = fields.length ∧
      ∀ field verdict, (field, verdict) ∈ fields.zip verdicts.fields →
        (verdict = true ↔ FirstAllows (rules dacl caller) namespace_.rootGuid field) ∧
        ∀ others, (nodePaths others).length < maxObjectTypes →
          ((nodePaths others).map fieldGuid).Nodup →
            ∃ verdicts', fieldReads namespace_.rootGuid others (reads dacl caller) = .ok verdicts' ∧
              ∀ verdict', (field, verdict') ∈ others.zip verdicts'.fields → verdict' = verdict := by
  have listable := listable_of_distinct namespace_ short distinct
  refine ⟨_, fieldReads_ok listable dacl caller, length_map _, fun field verdict mem => ?_⟩
  -- a verdict depends on the field alone
  obtain rfl := eq_of_mem_zip_map mem
  refine ⟨readable_iff_firstAllows, fun others short' distinct' => ?_⟩
  have listable' := listable_of_distinct namespace_ short' distinct'
  exact ⟨_, fieldReads_ok listable' dacl caller, fun verdict' mem' => eq_of_mem_zip_map mem'⟩

/-- A descriptor that denies the field `a.b` and then allows `a`. -/
def partDenied : List (Ace Bool) :=
  [⟨0x06, some (fieldGuid "a.b"), true, fun _ => by decide⟩,
    ⟨0x05, some (fieldGuid "a"), true, fun _ => by decide⟩]

/-- Asked about together or apart, `a` may be read and `a.b` may not. -/
theorem fieldReads_firstAllows_partDenied :
    fieldReads Namespace.logs.rootGuid ["a.b", "a", "a.b"] (reads partDenied id) =
        .ok ⟨false, [false, true, false]⟩ ∧
      (true = true ↔ FirstAllows (rules partDenied id) Namespace.logs.rootGuid "a") := by
  obtain ⟨verdicts, eq, -, each⟩ := @fieldReads_firstAllows Bool .logs partDenied id
    ["a.b", "a", "a.b"] (by decide +kernel) (by decide +kernel)
  have run : fieldReads Namespace.logs.rootGuid ["a.b", "a", "a.b"] (reads partDenied id) =
      .ok ⟨false, [false, true, false]⟩ := by decide +kernel
  obtain rfl := Except.ok.inj (eq.symm.trans run)
  exact ⟨run, (each "a" true (by decide)).1⟩

/-! ### The identifiers looked at -/

/-- Whether the pre-check of an identifier misses no record: a field is named, or the
descriptor grants none by name, or the caller may read one it grants by name. -/
def PreCheckFits (rules : List (Rule Guid)) (root : Guid) (named : List Guid)
    (referenced : List String) : Prop :=
  referenced ≠ [] ∨ named = [] ∨ ∃ guid ∈ named, readable rules [root, guid] = true

section PreCheck

variable {authorizer : Authorizer τ} {namespace_ : Namespace} {dacl : List (Ace τ)} {row : Row V}
  {referenced : List String}

theorem visible_rowFields_nil {rules : List (Rule Guid)} {root : Guid} :
    Visible rules root (rowFields row []) ↔ Visible rules root row.keys := by
  unfold Visible
  simp only [rowFields_eq_nil, mem_rowFields, not_mem_nil, or_false, and_true]

/-- Whatever the query refers to, a row that is shown may be read by the pre-check, if that
fits the descriptor. -/
theorem mayRead_of_shown (descriptor : authorizer.descriptors namespace_ row.identifier = some dacl)
    (short : (fieldGrants dacl).length < maxObjectTypes)
    (fits : PreCheckFits (rules dacl authorizer.caller) namespace_.rootGuid (fieldGrants dacl)
      referenced)
    {kept : Row V} (shown : authorizeRow authorizer namespace_ row referenced = .ok (some kept)) :
    authorizer.mayRead namespace_ row.identifier referenced = .ok true := by
  obtain ⟨listable, visible, every, -⟩ := (authorizeRow_eq_ok descriptor).1 shown
  rcases eq_or_ne referenced [] with rfl | nonempty
  · rw [mayRead_of_no_fields descriptor short]
    rcases fits with named | none | some
    · exact absurd rfl named
    · refine .inl ⟨none, ?_⟩
      rcases visible with ⟨-, whole⟩ | ⟨field, -, read⟩
      · exact whole
      · refine (readable_field read).resolve_right ?_
        rintro ⟨guid, mem, -⟩
        rw [none] at mem
        cases mem
    · exact .inr some
  · have sub : referenced ⊆ rowFields row referenced := fun field mem => mem_rowFields.2 (.inr mem)
    exact (mayRead_of_fields descriptor nonempty (listable.subset sub)).2 every

/-- **The identifier pre-check hides no visible record, unless** the query names no field,
the descriptor grants fields by name, and the caller may read none of those. -/
theorem mayRead_of_shown_iff
    (descriptor : authorizer.descriptors namespace_ row.identifier = some dacl)
    (short : (fieldGrants dacl).length < maxObjectTypes)
    (listable : Listable namespace_.rootGuid (rowFields row referenced)) :
    ((∃ kept, authorizeRow authorizer namespace_ row referenced = .ok (some kept)) →
        authorizer.mayRead namespace_ row.identifier referenced = .ok true) ↔
      PreCheckFits (rules dacl authorizer.caller) namespace_.rootGuid (fieldGrants dacl)
          referenced ∨
        ¬ Visible (rules dacl authorizer.caller) namespace_.rootGuid row.keys := by
  constructor
  · intro sound
    by_contra fails
    push Not at fails
    obtain ⟨unfit, visible⟩ := fails
    unfold PreCheckFits at unfit
    push Not at unfit
    obtain ⟨rfl, named, none⟩ := unfit
    have shown : authorizeRow authorizer namespace_ row [] = .ok (some (row.retain _)) :=
      (authorizeRow_eq_ok descriptor).2 ⟨listable, visible_rowFields_nil.2 visible, nofun, rfl⟩
    rcases (mayRead_of_no_fields descriptor short).1 (sound ⟨_, shown⟩)
      with ⟨empty, -⟩ | ⟨guid, mem, read⟩
    · exact named empty
    · exact none guid mem read
  · rintro (fits | hidden) ⟨kept, shown⟩
    · exact mayRead_of_shown descriptor short fits shown
    · rcases eq_or_ne referenced [] with rfl | nonempty
      · obtain ⟨-, visible, -⟩ := (authorizeRow_eq_ok descriptor).1 shown
        exact absurd (visible_rowFields_nil.1 visible) hidden
      · exact mayRead_of_shown descriptor short (.inl nonempty) shown

/-- A descriptor that lets the caller read everything but the field `secret`, which it
grants to somebody else. -/
def secretKept : List (Ace Bool) :=
  [⟨0x06, some (fieldGuid "secret"), true, fun _ => by decide⟩,
    ⟨0x05, some (fieldGuid "secret"), false, fun _ => by decide⟩,
    ⟨0x00, none, true, nofun⟩]

/-- With a field named, the caller's records are looked at. -/
theorem mayRead_of_shown_secretKept :
    ((∃ kept, authorizeRow ⟨id, fun _ _ => some secretKept⟩ .logs ⟨"app", [("message", 7)]⟩
        ["message"] = .ok (some kept)) →
      Authorizer.mayRead ⟨id, fun _ _ => some secretKept⟩ .logs "app" ["message"] = .ok true) ∧
    authorizeRow ⟨id, fun _ _ => some secretKept⟩ .logs ⟨"app", [("message", 7)]⟩ ["message"] =
      .ok (some ⟨"app", [("message", 7)]⟩) :=
  ⟨(@mayRead_of_shown_iff Bool ℕ ⟨id, fun _ _ => some secretKept⟩ .logs secretKept
      ⟨"app", [("message", 7)]⟩ ["message"] rfl (by decide +kernel) (by decide +kernel)).2
      (.inl (.inl (by decide))), by decide +kernel⟩

/-- Without one they are not, though each would be shown. -/
theorem shown_row_not_looked_at :
    authorizeRow ⟨id, fun _ _ => some secretKept⟩ .logs ⟨"app", [("message", 7)]⟩ [] =
        .ok (some ⟨"app", [("message", 7)]⟩) ∧
      Authorizer.mayRead ⟨id, fun _ _ => some secretKept⟩ .logs "app" [] = .ok false := by
  decide +kernel

/-- The identifiers looked at are those of the given ones that the pre-check passes. -/
theorem mem_authorizeIdentifiers {identifiers allowed : List String}
    (h : authorizer.authorizeIdentifiers namespace_ identifiers referenced = .ok allowed)
    {identifier : String} :
    identifier ∈ allowed ↔ identifier ∈ identifiers ∧
      authorizer.mayRead namespace_ identifier referenced = .ok true := by
  let passed (name : String) : List String :=
    if authorizer.mayRead namespace_ name referenced = .ok true then [name] else []
  have all : allowed = [] ++ identifiers.flatMap passed := by
    refine foldlM_append id passed (fun name before after turn => ?_) h
    obtain ⟨verdict, checked, turn⟩ := bind_eq_ok.1 turn
    simp only [passed, checked, id]
    cases verdict with
    | true => exact (Except.ok.inj turn).symm
    | false =>
      rw [if_neg (by simp), append_nil]
      exact (Except.ok.inj turn).symm
  rw [all, nil_append, mem_flatMap]
  constructor
  · rintro ⟨name, mem, inside⟩
    simp only [passed] at inside
    split_ifs at inside with read
    · obtain rfl := mem_singleton.1 inside
      exact ⟨mem, read⟩
    · cases inside
  · rintro ⟨mem, read⟩
    exact ⟨identifier, mem, by simp [passed, read]⟩

end PreCheck

/-! ### What remains of a row -/

section Kept

variable {authorizer : Authorizer τ} {namespace_ : Namespace} {row : Row V}

theorem retain_ne_nil {keep : String → Bool} :
    (row.retain keep).record ≠ [] ↔ ∃ field ∈ row.keys, keep field = true := by
  unfold Row.retain Row.keys
  simp [filter_eq_nil_iff]

/-- **A row with fields is shown with one of them, unless** the query refers to fields, all
readable, and none of the row's own is. -/
theorem shown_row_keeps_field_iff (nonempty : row.record ≠ []) (referenced : List String) :
    (∀ kept, authorizeRow authorizer namespace_ row referenced = .ok (some kept) →
        kept.record ≠ []) ↔
      ∀ dacl, authorizer.descriptors namespace_ row.identifier = some dacl →
        Listable namespace_.rootGuid (rowFields row referenced) →
          referenced = [] ∨
          (∃ field ∈ referenced, readable (rules dacl authorizer.caller)
            (fieldGuids namespace_.rootGuid field) = false) ∨
          ∃ field ∈ row.keys, readable (rules dacl authorizer.caller)
            (fieldGuids namespace_.rootGuid field) = true := by
  constructor
  · intro keeps dacl descriptor listable
    by_contra fails
    push Not at fails
    obtain ⟨named, every, none⟩ := fails
    have every' : ∀ field ∈ referenced, readable (rules dacl authorizer.caller)
        (fieldGuids namespace_.rootGuid field) = true := fun field mem => by
      simpa using every field mem
    obtain ⟨field, mem⟩ := exists_mem_of_ne_nil referenced named
    -- a field the row does not carry is what makes it visible
    have visible : Visible (rules dacl authorizer.caller) namespace_.rootGuid
        (rowFields row referenced) :=
      .inr ⟨field, mem_rowFields.2 (.inr mem), every' field mem⟩
    have shown := (authorizeRow_eq_ok descriptor).2 ⟨listable, visible, every', rfl⟩
    obtain ⟨own, mem, read⟩ := retain_ne_nil.1 (keeps _ shown)
    exact none own mem read
  · intro condition kept shown
    cases descriptor : authorizer.descriptors namespace_ row.identifier with
    | none => exact absurd shown (authorizeRow_of_no_descriptor descriptor)
    | some dacl =>
      obtain ⟨listable, visible, every, rfl⟩ := (authorizeRow_eq_ok descriptor).1 shown
      rw [retain_ne_nil]
      rcases condition dacl descriptor listable with rfl | ⟨field, mem, unread⟩ | own
      · have some : rowFields row [] ≠ [] := fun nil =>
          nonempty (map_eq_nil_iff.1 (rowFields_eq_nil.1 nil).1)
        obtain ⟨nil, -⟩ | ⟨field, mem, read⟩ := visible
        · exact absurd nil some
        · exact ⟨field, (mem_rowFields.1 mem).resolve_right not_mem_nil, read⟩
      · rw [every field mem] at unread
        cases unread
      · exact own

/-- A descriptor that lets the caller read the field `b` and no other. -/
def onlyB : List (Ace Bool) := [⟨0x05, some (fieldGuid "b"), true, fun _ => by decide⟩]

/-- A row with the field `b` is shown with it. -/
theorem shown_row_keeps_field_b :
    authorizeRow ⟨id, fun _ _ => some onlyB⟩ .logs ⟨"app", [("a", 7), ("b", 8)]⟩ ["b"] =
        .ok (some ⟨"app", [("b", 8)]⟩) ∧
      ∀ kept, authorizeRow ⟨id, fun _ _ => some onlyB⟩ .logs ⟨"app", [("a", 7), ("b", 8)]⟩ ["b"] =
        .ok (some kept) → kept.record ≠ [] :=
  ⟨by decide +kernel,
    (@shown_row_keeps_field_iff Bool ℕ ⟨id, fun _ _ => some onlyB⟩ .logs
      ⟨"app", [("a", 7), ("b", 8)]⟩ (by decide) ["b"]).2 fun dacl descriptor _ => by
        obtain rfl := Option.some.inj descriptor
        exact .inr (.inr ⟨"b", by decide, by decide +kernel⟩)⟩

/-- A row without it is shown too, and empty. -/
theorem shown_row_loses_every_field :
    authorizeRow ⟨id, fun _ _ => some onlyB⟩ .logs ⟨"app", [("a", 7)]⟩ ["b"] =
      .ok (some ⟨"app", []⟩) := by
  decide +kernel

end Kept

end Eventd
