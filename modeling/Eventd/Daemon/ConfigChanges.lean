import Eventd.Daemon.Config

/-!
# Records of configuration changes

What the records of `apply_reload` say, over whole histories of reloads.

* `Config.Inv`: what holds of every configuration that is reached;
* `Config.Truthful`: every record that is of its type holds the integer in force;
* `changes_tell_truth`: the records of a history;
* `Reloaded`: what every reload of a history makes of the values stored then.
-/

namespace Eventd

open List

/-! ### Names -/

theorem names_nodup :
    (Setting.all.map Setting.name ++ (PathKey.all.map PathKey.name ++ ["StorageShards"])).Nodup := by
  decide +kernel

theorem Setting.mem_all (setting : Setting) : setting ∈ Setting.all := by
  cases setting <;> decide

theorem PathKey.mem_all (key : PathKey) : key ∈ PathKey.all := by
  cases key <;> decide

theorem Setting.name_injective : Function.Injective Setting.name := fun a b same =>
  inj_on_of_nodup_map (nodup_append.1 names_nodup).1 a.mem_all b.mem_all same

theorem Setting.name_ne {setting : Setting} {name : String}
    (other : name ∈ PathKey.all.map PathKey.name ++ ["StorageShards"]) : setting.name ≠ name :=
  (nodup_append.1 names_nodup).2.2 _ (mem_map_of_mem setting.mem_all) _ other

theorem Setting.name_ne_path (setting : Setting) (key : PathKey) : key.name ≠ setting.name :=
  (setting.name_ne (mem_append_left _ (mem_map_of_mem key.mem_all))).symm

theorem Setting.forall_threshold {P : Setting → Prop} :
    (∀ setting : Setting, setting.isThreshold = true → P setting) ↔
      P .adaptiveIndexCreateThreshold ∧ P .adaptiveIndexDropThreshold := by
  refine ⟨fun all => ⟨all _ rfl, all _ rfl⟩, fun both setting threshold => ?_⟩
  cases setting with
  | adaptiveIndexCreateThreshold => exact both.1
  | adaptiveIndexDropThreshold => exact both.2
  | _ => cases threshold

/-! ### Tables -/

/-- What `reload` checks again is what `from_values` reads. -/
theorem Setting.reloadCheck_eq (setting : Setting) :
    setting.reloadCheck = setting.schema.toCheck := by
  cases setting <;> rfl

/-- Both are as documented. -/
theorem Setting.documentedKey_eq (setting : Setting) :
    documentedKey setting.name = some setting.schema.toKey := by
  cases setting <;> rfl

/-! ### Integers -/

/-- Every default is in its range, and every range fits. -/
theorem Setting.schema_range (setting : Setting) :
    setting.schema.minimum ≤ setting.schema.default ∧
      setting.schema.default ≤ setting.schema.maximum ∧ setting.schema.maximum ≤ u64Max := by
  cases setting <;> decide

theorem Setting.divisor_pos (setting : Setting) {divisor : ℕ}
    (eq : setting.schema.unit = .seconds divisor) : 0 < divisor := by
  cases setting <;> cases eq <;> decide

theorem Measure.integer_scale {unit : Measure} (pos : ∀ divisor, unit = .seconds divisor → 0 < divisor)
    {value : ℕ} (fits : value ≤ u64Max) : unit.integer (value * unit.scale) = value := by
  cases unit with
  | plain => rw [Measure.scale, mul_one, Measure.integer, min_eq_left fits]
  | milliseconds =>
    rw [Measure.scale, Measure.integer, Nat.mul_div_cancel _ (by decide), min_eq_left fits]
  | seconds divisor =>
    rw [Measure.scale, Measure.integer, ← mul_assoc, Nat.mul_div_cancel _ (by decide),
      Nat.mul_div_cancel _ (pos divisor rfl)]

theorem Setting.integer_scale (setting : Setting) {value : ℕ} (fits : value ≤ u64Max) :
    setting.schema.unit.integer (value * setting.schema.unit.scale) = value :=
  Measure.integer_scale (fun _ => setting.divisor_pos) fits

theorem Schema.value_range {schema : Schema}
    (default_range : schema.minimum ≤ schema.default ∧ schema.default ≤ schema.maximum)
    (values : Registry) :
    schema.minimum ≤ schema.value values ∧ schema.value values ≤ schema.maximum := by
  unfold Schema.value
  split
  · exact default_range
  · split_ifs with range
    · exact range
    · exact default_range

theorem Setting.value_range (setting : Setting) (values : Registry) :
    setting.schema.minimum ≤ setting.schema.value values ∧
      setting.schema.value values ≤ setting.schema.maximum :=
  Schema.value_range ⟨setting.schema_range.1, setting.schema_range.2.1⟩ values

theorem Setting.value_le (setting : Setting) (values : Registry) :
    setting.schema.value values ≤ u64Max :=
  (setting.value_range values).2.trans setting.schema_range.2.2

section Schemas

variable {schema : Schema} {values : Registry}

theorem Schema.value_of_valid (valid : schema.valid values = true) {record : ValueRecord}
    (stored : values schema.name = some record) :
    schema.type.read record = some (schema.value values) := by
  unfold Check.valid at valid
  rw [stored] at valid
  dsimp only at valid
  cases eq : schema.type.read record with
  | none => simp [eq] at valid
  | some value =>
    rw [eq] at valid
    rw [Schema.value, stored, Option.bind_some, eq]
    dsimp only
    rw [if_pos (of_decide_eq_true valid)]

theorem Schema.configured_of_valid (type : schema.type = .dword)
    (valid : schema.valid values = true) :
    configuredDword values schema.name schema.default = some (schema.value values) := by
  unfold configuredDword
  cases stored : values schema.name with
  | none => rw [Schema.value, stored, Option.bind_none]
  | some record => exact type ▸ Schema.value_of_valid valid stored

/-- What is stored, or the default if nothing is; nothing if what is stored is of another type or
out of range. -/
def Key.offered (key : Key) (values : Registry) : Option ℕ :=
  match values key.name with
  | none => some key.default
  | some record => (key.type.read record).filter fun value =>
      key.minimum ≤ value ∧ value ≤ key.maximum

theorem Schema.offered_eq (schema : Schema) (values : Registry) :
    schema.offered values = if schema.valid values then some (schema.value values) else none := by
  unfold Key.offered Check.valid Schema.value
  cases values schema.name with
  | none => rfl
  | some record =>
    rw [Option.bind_some]
    cases eq : schema.type.read record with
    | none => simp [eq]
    | some value =>
      by_cases range : schema.minimum ≤ value ∧ value ≤ schema.maximum
      · simp [eq, range]
      · simpa [eq, range] using not_and.1 range

theorem Schema.value_congr {values' : Registry} (same : values schema.name = values' schema.name) :
    schema.value values = schema.value values' := by
  rw [Schema.value, Schema.value, same]

end Schemas

/-! ### Paths -/

theorem pathOf_pathRecord {record : ValueRecord} {path : String} (eq : pathOf record = some path) :
    pathOf (pathRecord path) = some path := by
  unfold pathOf at eq
  split_ifs at eq
  obtain ⟨text, absolute⟩ := Option.filter_eq_some_iff.1 eq
  have bytes : bytesOf path = record.data.takeWhile (· ≠ 0) := by
    unfold String.fromUTF8? at text
    split_ifs at text
    cases text
    rfl
  have cut : (bytesOf path ++ [0]).takeWhile (· ≠ 0) = bytesOf path := by
    have nonzero : ∀ byte ∈ bytesOf path, decide (byte ≠ 0) = true := by
      intro byte mem
      rw [bytes] at mem
      exact all_eq_true.1 all_takeWhile byte mem
    rw [takeWhile_append_of_pos nonzero]
    simp
  have utf8 : String.fromUTF8? ⟨(bytesOf path).toArray⟩ = some path := dif_pos path.isValidUTF8
  rw [pathOf, pathRecord, if_pos rfl, cut, utf8]
  exact Option.filter_eq_some_iff.2 ⟨rfl, absolute⟩

theorem pathOf_of_requiredPath {values : Registry} {key : PathKey} {path : String}
    (eq : requiredPath values key = .ok path) : pathOf (pathRecord path) = some path := by
  unfold requiredPath at eq
  split at eq
  · cases eq
  · split at eq
    · cases eq
    · next found =>
      cases eq
      exact pathOf_pathRecord found

namespace Config

/-! ### Reading -/

/-- What holds of every configuration that is reached. -/
structure Inv (config : Config) : Prop where
  paths : ∀ key, pathOf (pathRecord (config.paths key)) = some (config.paths key)
  units : ∀ setting, ∃ value ≤ u64Max,
    config.field setting = value * setting.schema.unit.scale

section Read

variable {values : Registry} {config next : Config}

theorem fromValues_eq_ok (eq : fromValues values = .ok config) :
    (∀ key, requiredPath values key = .ok (config.paths key)) ∧ config.field = fieldOf values ∧
      config.rawValues = values ∧
        config.storageShards = (dword "StorageShards" 0 0 256 .plain).value values := by
  obtain ⟨_, eventStore, eq⟩ := Fallible.bind_eq_ok.1 eq
  obtain ⟨_, logStore, eq⟩ := Fallible.bind_eq_ok.1 eq
  obtain ⟨_, metricStore, eq⟩ := Fallible.bind_eq_ok.1 eq
  obtain ⟨_, querySocket, eq⟩ := Fallible.bind_eq_ok.1 eq
  obtain ⟨_, logSocket, eq⟩ := Fallible.bind_eq_ok.1 eq
  obtain ⟨_, metricSocket, eq⟩ := Fallible.bind_eq_ok.1 eq
  cases eq
  refine ⟨fun key => ?_, rfl, rfl, rfl⟩
  cases key <;> assumption

theorem exists_fromValues (paths : ∀ key, ∃ path, requiredPath values key = .ok path) :
    ∃ config, fromValues values = .ok config := by
  choose path eq using paths
  simp only [fromValues, eq]
  exact ⟨_, rfl⟩

variable {setting : Setting}

theorem fieldOf_of_not_threshold (threshold : setting.isThreshold ≠ true) :
    fieldOf values setting = setting.schema.value values * setting.schema.unit.scale := by
  cases setting with
  | adaptiveIndexCreateThreshold | adaptiveIndexDropThreshold => exact absurd rfl threshold
  | _ => rfl

/-- Every field is in its documented range, and the drop threshold below the create threshold. -/
structure Ranged (config : Config) : Prop where
  range : ∀ setting : Setting, ∃ key ∈ documentedKey setting.name, ∃ value, key.minimum ≤ value ∧
    value ≤ key.maximum ∧ config.field setting = value * setting.schema.unit.scale
  related : config.field .adaptiveIndexDropThreshold < config.field .adaptiveIndexCreateThreshold
  shards : ∃ key ∈ documentedKey "StorageShards",
    key.minimum ≤ config.storageShards ∧ config.storageShards ≤ key.maximum

/-- Both of a pair that is read at startup are in range, the second below the first. -/
theorem thresholds_range (values : Registry) :
    (10 ≤ (thresholds values).1 ∧ (thresholds values).1 ≤ 10000) ∧
      (1 ≤ (thresholds values).2 ∧ (thresholds values).2 ≤ 1000) ∧
        (thresholds values).2 < (thresholds values).1 := by
  have create := Setting.value_range .adaptiveIndexCreateThreshold values
  have drop := Setting.value_range .adaptiveIndexDropThreshold values
  unfold thresholds
  dsimp only
  split_ifs with crossed
  · decide
  · exact ⟨create, drop, Nat.not_le.1 crossed⟩

theorem fieldOf_range (values : Registry) (setting : Setting) :
    ∃ value, setting.schema.minimum ≤ value ∧ value ≤ setting.schema.maximum ∧
      fieldOf values setting = value * setting.schema.unit.scale := by
  obtain ⟨create, drop, -⟩ := thresholds_range values
  by_cases threshold : setting.isThreshold
  · cases setting with
    | adaptiveIndexCreateThreshold => exact ⟨_, create.1, create.2, (mul_one _).symm⟩
    | adaptiveIndexDropThreshold => exact ⟨_, drop.1, drop.2, (mul_one _).symm⟩
    | _ => cases threshold
  · obtain ⟨low, high⟩ := setting.value_range values
    exact ⟨_, low, high, fieldOf_of_not_threshold threshold⟩

theorem ranged_of_fromValues (eq : fromValues values = .ok config) : config.Ranged := by
  obtain ⟨-, field, -, shards⟩ := fromValues_eq_ok eq
  refine ⟨fun setting => ?_, ?_, ?_⟩
  · rw [field]
    exact ⟨_, setting.documentedKey_eq, fieldOf_range values setting⟩
  · rw [field]
    exact (thresholds_range values).2.2
  · rw [shards]
    exact ⟨_, rfl, @Schema.value_range (dword "StorageShards" 0 0 256 .plain) (by decide) values⟩

theorem inv_of_fromValues (eq : fromValues values = .ok config) : config.Inv := by
  obtain ⟨paths, field, -⟩ := fromValues_eq_ok eq
  refine ⟨fun key => pathOf_of_requiredPath (paths key), fun setting => ?_⟩
  obtain ⟨value, -, high, is_value⟩ := fieldOf_range values setting
  exact ⟨value, high.trans setting.schema_range.2.2, field ▸ is_value⟩

/-- Thresholds in relation are read as they are. -/
theorem fieldOf_eq (related : Setting.adaptiveIndexDropThreshold.schema.value values
    < Setting.adaptiveIndexCreateThreshold.schema.value values) (setting : Setting) :
    fieldOf values setting = setting.schema.value values * setting.schema.unit.scale := by
  have pair : thresholds values = (Setting.adaptiveIndexCreateThreshold.schema.value values,
      Setting.adaptiveIndexDropThreshold.schema.value values) := if_neg (Nat.not_le.2 related)
  cases setting with
  | adaptiveIndexCreateThreshold => exact (congrArg Prod.fst pair).trans (Nat.mul_one _).symm
  | adaptiveIndexDropThreshold => exact (congrArg Prod.snd pair).trans (Nat.mul_one _).symm
  | _ => rfl

/-! ### A reload -/

theorem retains_of_threshold (threshold : setting.isThreshold = true) :
    config.retains values setting = config.thresholdInvalid values := if_pos threshold

theorem retains_of_single (single : setting.isThreshold ≠ true) :
    config.retains values setting = !setting.schema.valid values := by
  rw [retains, if_neg single, setting.reloadCheck_eq]

/-- A pair of thresholds is read if both are valid and in relation. -/
theorem thresholdInvalid_eq_false : config.thresholdInvalid values = false ↔
    (∀ setting : Setting, setting.isThreshold = true → setting.schema.valid values = true) ∧
      Setting.adaptiveIndexDropThreshold.schema.value values
        < Setting.adaptiveIndexCreateThreshold.schema.value values := by
  simp only [thresholdInvalid, Setting.reloadCheck_eq, Bool.or_eq_false_iff, Bool.not_eq_false',
    decide_eq_false_iff_not, Nat.not_le]
  rw [Setting.forall_threshold]
  refine and_congr_right fun both => ?_
  have create := Schema.configured_of_valid rfl both.1
  have drop := Schema.configured_of_valid rfl both.2
  dsimp only [Setting.schema, dword] at create drop
  rw [create, drop]
  rfl

theorem mem_copied_iff (config : Config) (values : Registry) (setting : Setting) :
    setting.name ∈ config.copied values ↔ config.retains values setting = true := by
  have other : setting.name ∉ PathKey.all.map PathKey.name ++ ["StorageShards"] :=
    fun mem => setting.name_ne mem rfl
  simp only [copied, Setting.reloadCheck_eq]
  rw [append_assoc, mem_append, or_iff_left other, mem_map]
  constructor
  · rintro ⟨same, mem, eq⟩
    rw [← Setting.name_injective eq]
    exact (mem_filter.1 mem).2
  · exact fun retained => ⟨setting, mem_filter.2 ⟨setting.mem_all, retained⟩, rfl⟩

/-- What is adjusted is not the record of a value that is read. -/
theorem adjusted_name (fresh : config.retains values setting = false) :
    config.adjusted values setting.name = values setting.name := by
  have path : PathKey.all.find? (fun key => decide (key.name = setting.name)) = none :=
    List.find?_eq_none.2 fun key _ => by simp [setting.name_ne_path key]
  have kept {threshold : Setting} (eq : threshold.isThreshold = true)
      (invalid : config.thresholdInvalid values = true) : setting.name ≠ threshold.name := by
    intro same
    rw [retains, Setting.name_injective same, if_pos eq, invalid] at fresh
    cases fresh
  unfold adjusted
  rw [path]
  rw [if_neg fun both => @kept .adaptiveIndexCreateThreshold rfl both.1 both.2,
    if_neg fun both => @kept .adaptiveIndexDropThreshold rfl both.1 both.2]

/-- A reload succeeds: a path that cannot be used is replaced by the one in force. -/
theorem exists_reload (inv : config.Inv) (values : Registry) :
    ∃ next, config.reload values = .ok next := by
  have paths : ∀ key, ∃ path, requiredPath (config.adjusted values) key = .ok path := by
    intro key
    have found : PathKey.all.find? (fun other => decide (other.name = key.name)) = some key := by
      cases key <;> decide +kernel
    cases eq : requiredPath values key with
    | ok path =>
      refine ⟨path, ?_⟩
      have same : config.adjusted values key.name = values key.name := by
        unfold adjusted
        rw [found]
        dsimp only
        rw [eq]
      rw [← eq, requiredPath, requiredPath, same]
    | error error =>
      refine ⟨config.paths key, ?_⟩
      have replaced : config.adjusted values key.name = some (pathRecord (config.paths key)) := by
        unfold adjusted
        rw [found]
        dsimp only
        rw [eq]
      rw [requiredPath, replaced]
      dsimp only
      rw [inv.paths key]
  obtain ⟨read, eq⟩ := exists_fromValues paths
  exact ⟨_, by rw [reload, eq]; rfl⟩

/-- A value that is read is valid, and what is read is kept in its field. -/
theorem fieldOf_adjusted (fresh : config.retains values setting = false) :
    setting.schema.valid values = true ∧
      fieldOf (config.adjusted values) setting
        = setting.schema.value values * setting.schema.unit.scale := by
  have value {setting : Setting} (fresh : config.retains values setting = false) :
      setting.schema.value (config.adjusted values) = setting.schema.value values :=
    Schema.value_congr (adjusted_name fresh)
  by_cases threshold : setting.isThreshold = true
  · have pair := (retains_of_threshold threshold).symm.trans fresh
    obtain ⟨valid, related⟩ := thresholdInvalid_eq_false.1 pair
    refine ⟨valid setting threshold, ?_⟩
    rw [fieldOf_eq, value fresh]
    rwa [value ((retains_of_threshold rfl).trans pair), value ((retains_of_threshold rfl).trans pair)]
  · have valid := fresh
    rw [retains_of_single threshold, Bool.not_eq_false'] at valid
    exact ⟨valid, by rw [fieldOf_of_not_threshold threshold, value fresh]⟩

/-- What a reload does to a value. -/
theorem reload_eq_ok (eq : config.reload values = .ok next) :
    (next.paths = config.paths ∧ next.storageShards = config.storageShards) ∧
    (∀ setting, config.retains values setting = true →
      next.field setting = config.field setting ∧
        next.rawValues setting.name = config.rawValues setting.name) ∧
    ∀ setting, config.retains values setting = false →
      setting.schema.valid values = true ∧
      next.field setting = setting.schema.value values * setting.schema.unit.scale ∧
        next.rawValues setting.name = values setting.name := by
  obtain ⟨read, is_read, eq⟩ := Fallible.bind_eq_ok.1 eq
  obtain ⟨-, field, raw, -⟩ := fromValues_eq_ok is_read
  cases eq
  refine ⟨⟨rfl, rfl⟩, fun setting retained => ⟨if_pos retained, if_pos ?_⟩, fun setting fresh => ?_⟩
  · exact (mem_copied_iff config values setting).2 retained
  have copied : setting.name ∉ config.copied values := by
    rw [mem_copied_iff, fresh]
    decide
  obtain ⟨valid, value⟩ := fieldOf_adjusted fresh
  refine ⟨valid, ?_, ?_⟩
  · dsimp only
    rw [fresh, field, if_neg Bool.false_ne_true, value]
  · dsimp only
    rw [if_neg copied, raw, adjusted_name fresh]

theorem inv_reload (inv : config.Inv) (eq : config.reload values = .ok next) : next.Inv := by
  obtain ⟨⟨paths, -⟩, retained, fresh⟩ := reload_eq_ok eq
  refine ⟨fun key => by rw [paths]; exact inv.paths key, fun setting => ?_⟩
  cases retains : config.retains values setting with
  | true =>
    rw [(retained setting retains).1]
    exact inv.units setting
  | false => exact ⟨_, setting.value_le values, (fresh setting retains).2.1⟩

theorem ranged_reload (ranged : config.Ranged) (eq : config.reload values = .ok next) :
    next.Ranged := by
  obtain ⟨⟨-, shards⟩, retained, fresh⟩ := reload_eq_ok eq
  refine ⟨fun setting => ?_, ?_, shards ▸ ranged.shards⟩
  · cases retains : config.retains values setting with
    | true =>
      rw [(retained setting retains).1]
      exact ranged.range setting
    | false =>
      obtain ⟨low, high⟩ := setting.value_range values
      exact ⟨_, setting.documentedKey_eq, _, low, high, (fresh setting retains).2.1⟩
  · -- the thresholds are kept or read as a pair
    cases invalid : config.thresholdInvalid values with
    | true =>
      rw [(retained .adaptiveIndexDropThreshold ((retains_of_threshold rfl).trans invalid)).1,
        (retained .adaptiveIndexCreateThreshold ((retains_of_threshold rfl).trans invalid)).1]
      exact ranged.related
    | false =>
      rw [(fresh .adaptiveIndexDropThreshold ((retains_of_threshold rfl).trans invalid)).2.1,
        (fresh .adaptiveIndexCreateThreshold ((retains_of_threshold rfl).trans invalid)).2.1]
      exact (Nat.mul_lt_mul_right Nat.one_pos).2 (thresholdInvalid_eq_false.1 invalid).2

theorem inv_applyReload (inv : config.Inv) (values : Registry) : (applyReload config values).1.Inv := by
  obtain ⟨next, eq⟩ := exists_reload inv values
  rw [applyReload, eq]
  dsimp only
  split_ifs
  · exact inv
  · exact inv_reload inv eq

theorem field_eq_iff (inv : config.Inv) (inv' : next.Inv) (setting : Setting) :
    config.field setting = next.field setting ↔ config.integer setting = next.integer setting := by
  obtain ⟨value, fits, eq⟩ := inv.units setting
  obtain ⟨value', fits', eq'⟩ := inv'.units setting
  refine ⟨fun same => by rw [integer, integer, same], fun same => ?_⟩
  rw [integer, integer, eq, eq', setting.integer_scale fits, setting.integer_scale fits'] at same
  rw [eq, eq', same]

/-! ### What the records say -/

/-- Every record that is of its type holds the integer in force. -/
def Truthful (config : Config) : Prop :=
  ∀ setting : Setting, ∀ record ∈ config.rawValues setting.name,
    ∀ value ∈ setting.schema.type.read record, value = config.integer setting

theorem Truthful.appliedValue (truthful : config.Truthful) {setting : Setting} {side : AppliedValue}
    (eq : appliedValue (config.rawValues setting.name) setting.schema.type (config.integer setting)
      = some side) : side = ⟨setting.schema.type, config.integer setting⟩ := by
  obtain ⟨record, stored, rfl⟩ := Option.map_eq_some_iff.1 eq
  cases read : setting.schema.type.read record with
  | none => rfl
  | some value => rw [Option.getD_some, truthful setting record stored value read]

/-- What is stored of a value that is read is in force. -/
theorem integer_of_fresh (eq : config.reload values = .ok next) {setting : Setting}
    (fresh : config.retains values setting = false) :
    next.integer setting = setting.schema.value values := by
  obtain ⟨-, -, read⟩ := reload_eq_ok eq
  rw [integer, (read setting fresh).2.1, setting.integer_scale (setting.value_le values)]

theorem Truthful.reload (truthful : config.Truthful) (eq : config.reload values = .ok next) :
    next.Truthful := by
  obtain ⟨-, retained, fresh⟩ := reload_eq_ok eq
  intro setting record stored value read
  cases retains : config.retains values setting with
  | true =>
    obtain ⟨field, raw⟩ := retained setting retains
    rw [raw] at stored
    rw [truthful setting record stored value read, integer, integer, field]
  | false =>
    obtain ⟨valid, -, raw⟩ := fresh setting retains
    rw [raw] at stored
    rw [integer_of_fresh eq retains]
    exact Option.some.inj (read.symm.trans (Schema.value_of_valid valid stored))

theorem Truthful.applyReload (truthful : config.Truthful) (inv : config.Inv) (values : Registry) :
    (applyReload config values).1.Truthful := by
  obtain ⟨next, eq⟩ := exists_reload inv values
  rw [Eventd.applyReload, eq]
  dsimp only
  split_ifs
  · exact truthful
  · exact truthful.reload eq

/-- At startup, every stored integer of the right type is in range, and the drop threshold is below
the create threshold. -/
def Sound (values : Registry) : Prop :=
  (∀ setting : Setting, ∀ record ∈ values setting.name,
    ∀ value ∈ setting.schema.type.read record,
      setting.schema.minimum ≤ value ∧ value ≤ setting.schema.maximum) ∧
  Setting.adaptiveIndexDropThreshold.schema.value values
    < Setting.adaptiveIndexCreateThreshold.schema.value values

theorem Sound.truthful (sound : Sound values) (eq : fromValues values = .ok config) :
    config.Truthful := by
  obtain ⟨-, field, raw, -⟩ := fromValues_eq_ok eq
  intro setting record stored value read
  rw [raw] at stored
  have is_value : setting.schema.value values = value := by
    rw [Schema.value, ← Setting.name, stored, Option.bind_some, read]
    exact if_pos (sound.1 setting record stored value read)
  rw [integer, field, fieldOf_eq sound.2, is_value, setting.integer_scale]
  rw [← is_value]
  exact setting.value_le values

end Read

end Config

/-! ### Histories -/

section Histories

open Config

variable {startup values : Registry} {config : Config}

/-- The records of a reload are of what changed. -/
theorem changes_eq (inv : config.Inv) (values : Registry) :
    (applyReload config values).2 = config.appliedChanges (applyReload config values).1 := by
  obtain ⟨next, eq⟩ := exists_reload inv values
  rw [applyReload, eq]
  dsimp only
  split_ifs
  · simp [appliedChanges]
  · rfl

/-- The records tell the truth: each side that is present shows the integer in force, and there is
one for exactly the values in force that changed. -/
structure Told (before after : Config) (changes : List AppliedChange) : Prop where
  sides : ∀ change ∈ changes, ∃ setting : Setting, change.key = setting.name ∧
    (∀ side ∈ change.previous, side = ⟨setting.schema.type, before.integer setting⟩) ∧
    ∀ side ∈ change.current, side = ⟨setting.schema.type, after.integer setting⟩
  exactly : ∀ setting : Setting, (∃ change ∈ changes, change.key = setting.name) ↔
    before.integer setting ≠ after.integer setting
  once : (changes.map AppliedChange.key).Nodup

theorem mem_appliedChanges {next : Config} {change : AppliedChange} :
    change ∈ config.appliedChanges next ↔
      ∃ setting : Setting, config.field setting ≠ next.field setting ∧
        appliedChange config next setting = change := by
  simp [appliedChanges, Setting.mem_all]

theorem told_appliedChanges {next : Config} (inv : config.Inv) (inv' : next.Inv)
    (truthful : config.Truthful) (truthful' : next.Truthful) :
    Told config next (config.appliedChanges next) where
  sides change mem := by
    obtain ⟨setting, -, rfl⟩ := mem_appliedChanges.1 mem
    exact ⟨setting, rfl, fun side => truthful.appliedValue, fun side => truthful'.appliedValue⟩
  exactly setting := by
    rw [Ne, ← field_eq_iff inv inv']
    constructor
    · rintro ⟨change, mem, key⟩
      obtain ⟨other, differs, rfl⟩ := mem_appliedChanges.1 mem
      rwa [← Setting.name_injective key]
    · exact fun differs => ⟨_, mem_appliedChanges.2 ⟨setting, differs, rfl⟩, rfl⟩
  once := by
    rw [appliedChanges, map_map]
    exact (List.Nodup.of_map _ (nodup_append.1 names_nodup).1).filter _ |>.map
      Setting.name_injective

/-- Every stored value is of the right type and in range, and the drop threshold is below the create
threshold. -/
def Clean (values : Registry) : Prop :=
  (∀ setting : Setting, setting.schema.valid values = true) ∧
    Setting.adaptiveIndexDropThreshold.schema.value values
      < Setting.adaptiveIndexCreateThreshold.schema.value values

theorem Clean.retains (clean : Clean values) (config : Config) (setting : Setting) :
    config.retains values setting = false := by
  by_cases threshold : setting.isThreshold = true
  · rw [retains_of_threshold threshold]
    exact thresholdInvalid_eq_false.2 ⟨fun other _ => clean.1 other, clean.2⟩
  · rw [retains_of_single threshold, clean.1 setting]
    rfl

/-- The same values are stored here and there. -/
def StoredAs (records values : Registry) : Prop :=
  ∀ setting : Setting, records setting.name = none ↔ values setting.name = none

theorem Clean.storedAs_reload (clean : Clean values) {next : Config}
    (eq : config.reload values = .ok next) : StoredAs next.rawValues values := by
  obtain ⟨-, -, fresh⟩ := reload_eq_ok eq
  intro setting
  rw [(fresh setting (clean.retains config setting)).2.2]

/-- A reload that changes nothing in force finds stored what was stored before. -/
def Quiet (startup : Registry) (config : Config) (maps : List Registry) : Prop :=
  ∀ earlier values, earlier ++ [values] <+: maps →
    (applyReload (config.after earlier) values).2 = [] →
      StoredAs (earlier.getLastD startup) values

theorem after_append (config : Config) (maps : List Registry) (values : Registry) :
    config.after (maps ++ [values]) = (applyReload (config.after maps) values).1 := by
  rw [Config.after, foldl_append]
  rfl

theorem inv_after (inv : config.Inv) (maps : List Registry) : (config.after maps).Inv := by
  induction maps using List.reverseRecOn with
  | nil => exact inv
  | append_singleton maps values ih =>
    rw [after_append]
    exact inv_applyReload ih values

theorem truthful_after (inv : config.Inv) (truthful : config.Truthful) (maps : List Registry) :
    (config.after maps).Truthful := by
  induction maps using List.reverseRecOn with
  | nil => exact truthful
  | append_singleton maps values ih =>
    rw [after_append]
    exact ih.applyReload (inv_after inv maps) values

/-- In a clean and quiet history the records are of what was stored last. -/
theorem storedAs_after (start : fromValues startup = .ok config) {maps : List Registry}
    (clean : ∀ values ∈ maps, Clean values) (quiet : Quiet startup config maps) :
    StoredAs (config.after maps).rawValues (maps.getLastD startup) := by
  induction maps using List.reverseRecOn with
  | nil =>
    obtain ⟨-, -, raw, -⟩ := fromValues_eq_ok start
    intro setting
    rw [Config.after, foldl_nil, raw]
    rfl
  | append_singleton maps values ih =>
    have before := ih (fun map mem => clean map (mem_append_left _ mem))
      fun earlier map within => quiet earlier map (within.trans (prefix_append _ _))
    obtain ⟨next, eq⟩ := exists_reload (inv_after (inv_of_fromValues start) maps) values
    have unchanged := quiet maps values (prefix_refl _)
    rw [after_append, getLastD_concat]
    rw [applyReload, eq] at unchanged ⊢
    dsimp only at unchanged ⊢
    split_ifs at unchanged ⊢ with quiet
    · exact fun setting => (before setting).trans (unchanged rfl setting)
    · exact (clean values (by simp)).storedAs_reload eq

/-- A side of a record is present if and only if the value is stored. -/
def PresentWhenStored (preceding values : Registry) (changes : List AppliedChange) : Prop :=
  ∀ setting : Setting, ∀ change ∈ changes, change.key = setting.name →
    (change.previous = none ↔ preceding setting.name = none) ∧
      (change.current = none ↔ values setting.name = none)

theorem presentWhenStored_applyReload (inv : config.Inv) {preceding : Registry}
    (before : StoredAs config.rawValues preceding) (clean : Clean values) :
    PresentWhenStored preceding values (applyReload config values).2 := by
  obtain ⟨next, eq⟩ := exists_reload inv values
  have after := clean.storedAs_reload eq
  rw [applyReload, eq]
  dsimp only
  intro setting change mem key
  split_ifs at mem
  · cases mem
  · obtain ⟨other, -, rfl⟩ := mem_appliedChanges.1 mem
    obtain rfl := Setting.name_injective key
    exact ⟨Option.map_eq_none_iff.trans (before other), Option.map_eq_none_iff.trans (after other)⟩

/-- The records of configuration changes, at any point of any history: if the configuration that
eventd started with was as it was stored, every record tells the truth; and in histories in which
all that is stored is valid and no reload without a change in force stores or removes a value, the
sides are present exactly when the values are stored. -/
theorem changes_tell_truth (start : fromValues startup = .ok config) (sound : Sound startup)
    (maps : List Registry) (values : Registry) :
    Told (config.after maps) (applyReload (config.after maps) values).1
        (applyReload (config.after maps) values).2 ∧
      ((∀ map ∈ startup :: maps ++ [values], Clean map) → Quiet startup config maps →
        PresentWhenStored (maps.getLastD startup) values
          (applyReload (config.after maps) values).2) := by
  have inv := inv_after (inv_of_fromValues start) maps
  have truthful := truthful_after (inv_of_fromValues start) (sound.truthful start) maps
  constructor
  · rw [changes_eq inv]
    exact told_appliedChanges inv (inv_applyReload inv values) truthful
      (truthful.applyReload inv values)
  · intro clean quiet
    refine presentWhenStored_applyReload inv (storedAs_after start ?_ quiet) (clean values (by simp))
    exact fun map mem => clean map (by simp [mem])

end Histories

/-! ### Every reload -/

section Reloads

open Config

/-- The create and the drop threshold. -/
def Config.pair (config : Config) : ℕ × ℕ :=
  (config.field .adaptiveIndexCreateThreshold, config.field .adaptiveIndexDropThreshold)

/-- The field after a reload, from what is stored under its name alone. -/
def Config.settled (config : Config) (values : Registry) (setting : Setting) : ℕ :=
  match (documentedKey setting.name).bind (Key.offered · values) with
  | some value => value * setting.schema.unit.scale
  | none => config.field setting

/-- The pair of thresholds after a reload: the new ones if both can be used and are in relation. -/
def Config.settledPair (config : Config) (values : Registry) : ℕ × ℕ :=
  match (documentedKey (Setting.name .adaptiveIndexCreateThreshold)).bind (Key.offered · values),
      (documentedKey (Setting.name .adaptiveIndexDropThreshold)).bind (Key.offered · values) with
  | some create, some drop => if drop < create then (create, drop) else config.pair
  | _, _ => config.pair

/-- What a reload makes of the configuration before it.  The paths and the number of shards wait
for a restart. -/
structure Reloaded (first before next : Config) (values : Registry) : Prop where
  ranged : next.Ranged
  paths : next.paths = first.paths
  shards : next.storageShards = first.storageShards
  each : ∀ setting : Setting, setting.isThreshold = false →
    next.field setting = before.settled values setting
  pair : next.pair = before.settledPair values

variable {values : Registry} {first config next : Config}

theorem each_of_reload (eq : config.reload values = .ok next) {setting : Setting}
    (single : setting.isThreshold = false) :
    next.field setting = config.settled values setting := by
  obtain ⟨-, retained, fresh⟩ := reload_eq_ok eq
  have retains : config.retains values setting = !setting.schema.valid values :=
    retains_of_single (ne_true_of_eq_false single)
  rw [settled, setting.documentedKey_eq, Option.bind_some, Schema.offered_eq]
  cases valid : setting.schema.valid values with
  | true => exact (fresh setting (by rw [retains, valid]; rfl)).2.1
  | false => exact (retained setting (by rw [retains, valid]; rfl)).1

theorem pair_of_reload (eq : config.reload values = .ok next) :
    next.pair = config.settledPair values := by
  obtain ⟨-, retained, fresh⟩ := reload_eq_ok eq
  simp only [settledPair, Setting.documentedKey_eq, Option.bind_some, Schema.offered_eq, Config.pair]
  cases invalid : config.thresholdInvalid values with
  | false =>
    obtain ⟨valid, related⟩ := thresholdInvalid_eq_false.1 invalid
    have read (setting : Setting) (threshold : setting.isThreshold = true) :=
      (fresh setting ((retains_of_threshold threshold).trans invalid)).2.1
    rw [valid _ rfl, valid _ rfl, read .adaptiveIndexCreateThreshold rfl,
      read .adaptiveIndexDropThreshold rfl]
    exact (congrArg₂ Prod.mk (Nat.mul_one _) (Nat.mul_one _)).trans (if_pos related).symm
  | true =>
    have kept (setting : Setting) (threshold : setting.isThreshold = true) :=
      (retained setting ((retains_of_threshold threshold).trans invalid)).1
    rw [kept .adaptiveIndexCreateThreshold rfl, kept .adaptiveIndexDropThreshold rfl]
    cases create : Setting.adaptiveIndexCreateThreshold.schema.valid values with
    | false => rfl
    | true =>
      cases drop : Setting.adaptiveIndexDropThreshold.schema.valid values with
      | false => rfl
      | true =>
        -- both entries can be used, so they are out of relation
        refine (if_neg fun related => ?_).symm
        have fresh : config.thresholdInvalid values = false :=
          thresholdInvalid_eq_false.2 ⟨Setting.forall_threshold.2 ⟨create, drop⟩, related⟩
        cases invalid.symm.trans fresh

/-- **Reloads never fail, and keep every value valid and apart from the others**, along every
history from a startup that succeeded. -/
theorem reload_after_startup {startup : Registry} (start : fromValues startup = .ok first)
    (maps : List Registry) (values : Registry) :
    ∃ before next, maps.foldlM Config.reload first = .ok before ∧
      before.reload values = .ok next ∧ Reloaded first before next values := by
  -- what every reload keeps
  have run : ∃ before, maps.foldlM Config.reload first = .ok before ∧ before.Inv ∧ before.Ranged ∧
      before.paths = first.paths ∧ before.storageShards = first.storageShards := by
    induction maps using List.reverseRecOn with
    | nil => exact ⟨first, rfl, inv_of_fromValues start, ranged_of_fromValues start, rfl, rfl⟩
    | append_singleton maps map ih =>
      obtain ⟨before, eq, inv, ranged, paths, shards⟩ := ih
      obtain ⟨next, is_next⟩ := exists_reload inv map
      obtain ⟨⟨paths', shards'⟩, -⟩ := reload_eq_ok is_next
      refine ⟨next, ?_, inv_reload inv is_next, ranged_reload ranged is_next, paths'.trans paths,
        shards'.trans shards⟩
      rw [foldlM_append, eq]
      exact (bind_pure _).trans is_next
  obtain ⟨before, eq, inv, ranged, paths, shards⟩ := run
  obtain ⟨next, is_next⟩ := exists_reload inv values
  obtain ⟨⟨paths', shards'⟩, -⟩ := reload_eq_ok is_next
  exact ⟨before, next, eq, is_next, {
    ranged := ranged_reload ranged is_next
    paths := paths'.trans paths
    shards := shards'.trans shards
    each := fun setting => each_of_reload is_next
    pair := pair_of_reload is_next }⟩

end Reloads

/-- Nothing but paths. -/
def pathsOnly : Registry := fun name =>
  if name ∈ PathKey.all.map PathKey.name then some (pathRecord "/x") else none

/-- These paths, and a batch size. -/
def withBatchSize (value : ℕ) : Registry :=
  Function.update pathsOnly "MaxBatchSize" (some (dwordRecord value))

theorem exists_pathsOnly : ∃ config, Config.fromValues pathsOnly = .ok config := by
  have paths : ∀ key, requiredPath pathsOnly key = .ok "/x" := by
    intro key
    cases key <;> decide +kernel
  exact Config.exists_fromValues fun key => ⟨_, paths key⟩

/-- From these paths, an empty registry and a batch size that is out of range are reloaded. -/
theorem reload_after_startup_pathsOnly :
    ∃ first before next, Config.fromValues pathsOnly = .ok first ∧
      [fun _ => none].foldlM Config.reload first = .ok before ∧
        before.reload (withBatchSize 5) = .ok next ∧
          Reloaded first before next (withBatchSize 5) := by
  obtain ⟨first, start⟩ := exists_pathsOnly
  obtain ⟨before, next, run⟩ := reload_after_startup start [fun _ => none] (withBatchSize 5)
  exact ⟨first, before, next, start, run⟩

theorem changes_tell_truth_pathsOnly :
    ∃ config, Config.fromValues pathsOnly = .ok config ∧
      Told config (applyReload config (withBatchSize 200)).1
        (applyReload config (withBatchSize 200)).2 := by
  obtain ⟨config, start⟩ := exists_pathsOnly
  refine ⟨config, start, (changes_tell_truth start ⟨fun setting record stored => ?_, ?_⟩ []
    (withBatchSize 200)).1⟩
  · have absent : pathsOnly setting.name = none :=
      if_neg fun mem => setting.name_ne (mem_append_left _ mem) rfl
    rw [absent] at stored
    cases stored
  · decide +kernel

/-- A batch size of 5 is stored at startup, which is out of range, so that 10000 is in force; when
20000 is stored, the record says that 5 was in force.  And when 10000 is stored at first, which
changes nothing, and then 20000, the record says that nothing was stored before. -/
theorem changes_tell_untruth :
    (((Config.fromValues (withBatchSize 5)).toOption.map fun config =>
        (config.integer .maxBatchSize, (applyReload config (withBatchSize 20000)).2))
      = some (10000, [⟨"MaxBatchSize", some ⟨.dword, 5⟩, some ⟨.dword, 20000⟩⟩])) ∧
    (((Config.fromValues pathsOnly).toOption.map fun config =>
        (applyReload (config.after [withBatchSize 10000]) (withBatchSize 20000)).2)
      = some [⟨"MaxBatchSize", none, some ⟨.dword, 20000⟩⟩]) := by
  decide +kernel

end Eventd
