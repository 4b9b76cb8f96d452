import Eventd.Lib.Forest
import Eventd.Lib.ListCheck
import Eventd.Core.Field

/-!
# The object type list of a set of fields

`field_tree` of `eventd-client/src/access.rs`.  A field's dotted name is a path; every
prefix of it that ends before a dot is a node, and so is the field.  Nodes are kept in
the order they are met, each with the list of its children, and are then listed in
preorder with their levels beneath the root of the data type.

* `prefixes`: the paths of the nodes that lead to a field;
* `fieldTree`: the list, and the position of each field in it;
* `covers_fieldTree`: what lies above a field in the list is the root and its prefixes;
* `exists_field_beneath`: at or beneath every node but the root there is a field.
-/

namespace Eventd

open List

open Forest (Rep walk walk_rep)
open ListCheck (Entry levelAt)
open Levels (Covers ofList)

/-! ### Prefixes of a path -/

/-- The prefixes that end before a dot, and the whole, of `front` followed by a text; those
within `front` are left out. -/
def prefixesFrom (front : List Char) : List Char → List (List Char)
  | [] => [front]
  | char :: rest =>
    if char = '.' then front :: prefixesFrom (front ++ [char]) rest
    else prefixesFrom (front ++ [char]) rest

/-- The paths of the nodes that lead to a field, the field itself last. -/
def prefixes (field : String) : List String := (prefixesFrom [] field.toList).map String.ofList

/-- A prefix has the prefixes that come before it. -/
theorem prefixesFrom_append {front text q : List Char} {before after : List (List Char)}
    (h : prefixesFrom front text = before ++ q :: after) :
    ∃ text', q = front ++ text' ∧ prefixesFrom front text' = before ++ [q] := by
  induction text generalizing front before with
  | nil =>
    cases before with
    | nil => exact ⟨[], by simpa [prefixesFrom] using (List.cons.inj h).1.symm, by
      simpa [prefixesFrom] using (List.cons.inj h).1⟩
    | cons first before => simp [prefixesFrom] at h
  | cons char rest ih =>
    unfold prefixesFrom at h
    split_ifs at h with dot
    · cases before with
      | nil => exact ⟨[], by simpa using (List.cons.inj h).1.symm, by
        simpa [prefixesFrom] using (List.cons.inj h).1⟩
      | cons first before =>
        obtain ⟨rfl, tail⟩ := List.cons.inj h
        obtain ⟨text', rfl, eq⟩ := ih tail
        refine ⟨char :: text', by simp, ?_⟩
        rw [prefixesFrom, if_pos dot, eq]
        rfl
    · obtain ⟨text', rfl, eq⟩ := ih h
      exact ⟨char :: text', by simp, by rw [prefixesFrom, if_neg dot, eq]⟩

theorem prefixesFrom_last (front text : List Char) :
    ∃ before, prefixesFrom front text = before ++ [front ++ text] := by
  induction text generalizing front with
  | nil => exact ⟨[], by simp [prefixesFrom]⟩
  | cons char rest ih =>
    obtain ⟨before, eq⟩ := ih (front ++ [char])
    unfold prefixesFrom
    split_ifs
    · exact ⟨front :: before, by simp [eq]⟩
    · exact ⟨before, by simp [eq]⟩

/-- **A prefix of a field has the prefixes that come before it.** -/
theorem prefixes_of_append {field path : String} {before after : List String}
    (h : prefixes field = before ++ path :: after) : prefixes path = before ++ [path] := by
  unfold prefixes at h
  obtain ⟨front, rest, eq, rfl, eq'⟩ := map_eq_append_iff.1 h
  obtain ⟨q, after', rfl, rfl, -⟩ := map_eq_cons_iff.1 eq'
  obtain ⟨text', same, eq''⟩ := prefixesFrom_append eq
  unfold prefixes
  rw [nil_append] at same
  rw [String.toList_ofList, same, eq'', ← same]
  simp

/-- The last prefix of a field is the field. -/
theorem prefixes_last (field : String) : ∃ before, prefixes field = before ++ [field] := by
  obtain ⟨before, eq⟩ := prefixesFrom_last [] field.toList
  exact ⟨before.map String.ofList, by simp [prefixes, eq]⟩

theorem mem_prefixes_self (field : String) : field ∈ prefixes field := by
  obtain ⟨before, eq⟩ := prefixes_last field
  simp [eq]

/-! ### Collecting the nodes -/

/-- A field path and its children in the order first named. -/
structure FieldNode where
  path : String
  children : List ℕ
  deriving DecidableEq

/-- The nodes in the order they are met, the root first, and where each path is. -/
structure Nodes where
  nodes : List FieldNode
  found : List (String × ℕ)

namespace Nodes

/-- Only the root. -/
def start : Nodes := ⟨[⟨"", []⟩], []⟩

/-- Add a node for a path as the last child of a parent. -/
def grow (tree : Nodes) (parent : ℕ) (path : String) : Nodes where
  nodes := tree.nodes.modify parent
    (fun above => { above with children := above.children ++ [tree.nodes.length] }) ++ [⟨path, []⟩]
  found := (path, tree.nodes.length) :: tree.found

/-- Go on from a parent to a path, adding its node if it is not there yet. -/
def addPath (reached : Nodes × ℕ) (path : String) : Nodes × ℕ :=
  let (tree, parent) := reached
  match tree.found.lookup path with
  | some node => (tree, node)
  | none => (tree.grow parent path, tree.nodes.length)

/-- Add the nodes of a field; also returns the field's own node. -/
def addField (tree : Nodes) (field : String) : Nodes × ℕ := (prefixes field).foldl addPath (tree, 0)

/-- Add the nodes of all fields; also returns each field's own node. -/
def addFields (tree : Nodes) : List String → Nodes × List ℕ
  | [] => (tree, [])
  | field :: fields =>
    let (tree, node) := tree.addField field
    let (tree, rest) := addFields tree fields
    (tree, node :: rest)

/-- The children of a node. -/
def childrenOf (tree : Nodes) (node : ℕ) : List ℕ := (tree.nodes[node]?.map FieldNode.children).getD []

/-- The path of a node. -/
def pathOf (tree : Nodes) (node : ℕ) : String := (tree.nodes[node]?.map FieldNode.path).getD ""

/-- The nodes in preorder, with their levels. -/
def order (tree : Nodes) : List (ℕ × ℕ) := walk tree.childrenOf tree.nodes.length [(0, 0)]

/-- The entry of a node; a level past `u16` is cut off. -/
def entry (tree : Nodes) (root : Guid) (depth node : ℕ) : Entry Guid where
  level := min depth 65535
  name := if node = 0 then root else fieldGuid (tree.pathOf node)

/-- The object type list, in preorder. -/
def preorderEntries (tree : Nodes) (root : Guid) : List (Entry Guid) :=
  tree.order.map fun item => tree.entry root item.1 item.2

/-- Where a node is in the list. -/
def position (tree : Nodes) (node : ℕ) : ℕ := (tree.order.map Prod.snd).idxOf node

end Nodes

/-- An object type list built for some fields. -/
structure FieldTree where
  entries : List (Entry Guid)
  fields : List ℕ

/-- The object type list for the fields of a record, and where each field is in it. -/
def fieldTree (root : Guid) (fields : List String) : FieldTree :=
  let (tree, ends) := Nodes.start.addFields fields
  ⟨tree.preorderEntries root, ends.map tree.position⟩

/-- Whether the node at a position has nodes beneath it. -/
def FieldTree.hasChildren (tree : FieldTree) (index : ℕ) : Bool :=
  index + 1 < tree.entries.length && levelAt tree.entries index < levelAt tree.entries (index + 1)

namespace Nodes

/-! ### What the collected nodes are -/

/-- The nodes are those of a forest of one tree, in which the nodes above a node are the
root and the nodes of its path's prefixes. -/
structure Grown (tree : Nodes) (f : Forest ℕ) : Prop where
  rep : Rep tree.childrenOf [0] f
  values : f.values.Perm (List.range tree.nodes.length)
  found : ∀ path node, tree.found.lookup path = some node ↔
    0 < node ∧ node < tree.nodes.length ∧ tree.pathOf node = path
  closed : ∀ path node, tree.found.lookup path = some node → ∀ q ∈ prefixes path,
    ∃ above, tree.found.lookup q = some above
  root : ∀ a, f.Above a 0 ↔ a = 0
  above : ∀ path node, tree.found.lookup path = some node → ∀ a,
    f.Above a node ↔ a = 0 ∨ ∃ q ∈ prefixes path, tree.found.lookup q = some a

theorem Grown.nodup {tree : Nodes} {f : Forest ℕ} (h : tree.Grown f) : f.values.Nodup :=
  h.values.nodup_iff.2 nodup_range

theorem Grown.mem_values {tree : Nodes} {f : Forest ℕ} (h : tree.Grown f) (node : ℕ) :
    node ∈ f.values ↔ node < tree.nodes.length := by
  rw [h.values.mem_iff, mem_range]

theorem grown_start : start.Grown (.node 0 .nil .nil) where
  rep := ⟨[], rfl, rfl, rfl⟩
  values := .refl _
  found path node := by
    simp only [start, lookup_nil, length_singleton]
    constructor
    · nofun
    · omega
  closed := nofun
  root a := by simp [Forest.Above, Forest.values]
  above := nofun

/-- On the way to a field, with the nodes of some of its prefixes found and `parent` the
last of them, or the root. -/
structure Reached (tree : Nodes) (f : Forest ℕ) (done : List String) (parent : ℕ) : Prop where
  grown : tree.Grown f
  parent_lt : parent < tree.nodes.length
  found : ∀ q ∈ done, ∃ node, tree.found.lookup q = some node
  last : ∀ q, done.getLast? = some q → tree.found.lookup q = some parent
  above : ∀ a, f.Above a parent ↔ a = 0 ∨ ∃ q ∈ done, tree.found.lookup q = some a

section Grow

variable {tree : Nodes} {parent : ℕ} {path : String}

@[simp] theorem length_grow : (tree.grow parent path).nodes.length = tree.nodes.length + 1 := by
  simp [grow]

theorem childrenOf_grow {node : ℕ} (lt : node < tree.nodes.length) :
    (tree.grow parent path).childrenOf node =
      if parent = node then tree.childrenOf node ++ [tree.nodes.length]
      else tree.childrenOf node := by
  unfold childrenOf grow
  rw [List.getElem?_append_left (by simpa using lt), List.getElem?_modify]
  split_ifs <;> simp [List.getElem?_eq_getElem lt]

theorem childrenOf_grow_new : (tree.grow parent path).childrenOf tree.nodes.length = [] := by
  unfold childrenOf grow
  rw [List.getElem?_append_right (by simp)]
  simp

theorem pathOf_grow {node : ℕ} (lt : node < tree.nodes.length) :
    (tree.grow parent path).pathOf node = tree.pathOf node := by
  unfold pathOf grow
  rw [List.getElem?_append_left (by simpa using lt), List.getElem?_modify]
  split_ifs <;> simp [List.getElem?_eq_getElem lt]

theorem pathOf_grow_new : (tree.grow parent path).pathOf tree.nodes.length = path := by
  unfold pathOf grow
  rw [List.getElem?_append_right (by simp)]
  simp

theorem lookup_grow (q : String) :
    (tree.grow parent path).found.lookup q =
      if q = path then some tree.nodes.length else tree.found.lookup q := by
  unfold grow
  rw [lookup_cons]
  by_cases same : q = path
  · simp [same]
  · simp [same, beq_eq_false_iff_ne.2 same]

end Grow

variable {tree : Nodes} {f : Forest ℕ}

variable {done : List String} {parent : ℕ}

/-- **Adding a node keeps the nodes in shape.** -/
theorem reached_grow {path : String} (h : tree.Reached f done parent)
    (chain : prefixes path = done ++ [path]) (missing : tree.found.lookup path = none) :
    (tree.grow parent path).Reached (f.addChild parent tree.nodes.length) (done ++ [path])
      tree.nodes.length := by
  have grown := h.grown
  have mem : parent ∈ f.values := (grown.mem_values parent).2 h.parent_lt
  have fresh : tree.nodes.length ∉ f.values := by
    rw [grown.mem_values]
    exact lt_irrefl _
  have above (a b : ℕ) : (f.addChild parent tree.nodes.length).Above a b ↔ f.Above a b ∨
      b = tree.nodes.length ∧ (a = tree.nodes.length ∨ f.Above a parent) :=
    Forest.above_addChild grown.nodup mem a b
  -- whatever was found before is found where it was
  have kept {q : String} {node : ℕ} (hq : tree.found.lookup q = some node) :
      (tree.grow parent path).found.lookup q = some node := by
    rw [lookup_grow, if_neg, hq]
    rintro rfl
    rw [missing] at hq
    cases hq
  have old {q : String} {node a : ℕ} (hq : tree.found.lookup q = some node) :
      (tree.grow parent path).found.lookup q = some a ↔ tree.found.lookup q = some a := by
    rw [kept hq, hq]
  have new : (tree.grow parent path).found.lookup path = some tree.nodes.length := by
    rw [lookup_grow, if_pos rfl]
  have aboveNew (a : ℕ) : (f.addChild parent tree.nodes.length).Above a tree.nodes.length ↔
      a = 0 ∨ ∃ q ∈ done ++ [path], (tree.grow parent path).found.lookup q = some a := by
    rw [above, or_iff_right fun h => fresh (Forest.above_mem h).2, and_iff_right rfl, h.above]
    simp only [mem_append, mem_singleton, or_and_right, exists_or, exists_eq_left, new,
      Option.some.injEq]
    have same : (∃ q ∈ done, tree.found.lookup q = some a) ↔
        ∃ q ∈ done, (tree.grow parent path).found.lookup q = some a :=
      exists_congr fun q => and_congr_right fun hq => by
        obtain ⟨node, eq⟩ := h.found q hq
        exact (old eq).symm
    rw [same, eq_comm (a := a), or_comm, or_assoc]
  refine ⟨⟨?_, ?_, ?_, ?_, ?_, ?_⟩, by simp, ?_, ?_, aboveNew⟩
  · refine Forest.rep_addChild grown.nodup fresh ?_ childrenOf_grow_new ?_ grown.rep
    · rw [childrenOf_grow h.parent_lt, if_pos rfl]
    · intro a ha ne
      rw [childrenOf_grow ((grown.mem_values a).1 ha), if_neg (Ne.symm ne)]
  · refine (Forest.perm_values_addChild grown.nodup mem).trans ?_
    rw [length_grow, range_succ]
    exact (grown.values.cons _).trans (perm_append_singleton _ _).symm
  · intro q node
    rw [lookup_grow, length_grow]
    split_ifs with same
    · subst same
      constructor
      · intro eq
        obtain rfl := Option.some.inj eq
        exact ⟨Nat.zero_lt_of_lt h.parent_lt, Nat.lt_succ_self _, pathOf_grow_new⟩
      · rintro ⟨pos, lt, eq⟩
        rcases Nat.lt_succ_iff_lt_or_eq.1 lt with lt | rfl
        · rw [pathOf_grow lt] at eq
          have := (grown.found q node).2 ⟨pos, lt, eq⟩
          rw [missing] at this
          cases this
        · rfl
    · rw [grown.found]
      refine and_congr_right fun _ => ⟨fun ⟨lt, eq⟩ => ?_, fun ⟨lt, eq⟩ => ?_⟩
      · exact ⟨Nat.lt_succ_of_lt lt, by rwa [pathOf_grow lt]⟩
      · rcases Nat.lt_succ_iff_lt_or_eq.1 lt with lt | rfl
        · exact ⟨lt, by rwa [pathOf_grow lt] at eq⟩
        · exact absurd (eq.symm.trans pathOf_grow_new) same
  · intro q node hq r hr
    rw [lookup_grow] at hq
    split_ifs at hq with same
    · subst same
      rw [chain, mem_append, mem_singleton] at hr
      rcases hr with hr | rfl
      · obtain ⟨a, eq⟩ := h.found r hr
        exact ⟨a, kept eq⟩
      · exact ⟨_, new⟩
    · obtain ⟨a, eq⟩ := grown.closed q node hq r hr
      exact ⟨a, kept eq⟩
  · intro a
    rw [above, grown.root]
    refine or_iff_left fun h' => ?_
    have := h.parent_lt
    omega
  · intro q node hq a
    rw [lookup_grow] at hq
    split_ifs at hq with same
    · subst same
      obtain rfl := Option.some.inj hq
      rw [aboveNew, chain]
    · have lt := ((grown.found q node).1 hq).2.1
      rw [above, or_iff_left fun h => absurd h.1 lt.ne, grown.above q node hq]
      refine or_congr_right (exists_congr fun r => and_congr_right fun hr => ?_)
      obtain ⟨b, eq⟩ := grown.closed q node hq r hr
      exact (old eq).symm
  · intro q hq
    rw [mem_append, mem_singleton] at hq
    rcases hq with hq | rfl
    · obtain ⟨node, eq⟩ := h.found q hq
      exact ⟨node, kept eq⟩
    · exact ⟨_, new⟩
  · intro q hq
    rw [List.getLast?_concat] at hq
    obtain rfl := Option.some.inj hq
    exact new

/-- The later tree finds what the earlier one did, and besides only some paths. -/
structure Extends (tree tree' : Nodes) (paths : List String) : Prop where
  kept : ∀ q node, tree.found.lookup q = some node → tree'.found.lookup q = some node
  only : ∀ q node, tree'.found.lookup q = some node →
    (∃ old, tree.found.lookup q = some old) ∨ q ∈ paths

theorem Extends.refl (tree : Nodes) : tree.Extends tree [] :=
  ⟨fun _ _ => id, fun _ node h => .inl ⟨node, h⟩⟩

theorem Extends.trans {a b c : Nodes} {paths more : List String} (ab : a.Extends b paths)
    (bc : b.Extends c more) : a.Extends c (paths ++ more) where
  kept q node h := bc.kept q node (ab.kept q node h)
  only q node h := by
    rw [mem_append]
    rcases bc.only q node h with ⟨old, h⟩ | h
    · exact (ab.only q old h).imp_right .inl
    · exact .inr (.inr h)

/-- Going on to the next prefix of a path. -/
theorem reached_addPath {path : String} (h : tree.Reached f done parent)
    (chain : prefixes path = done ++ [path]) :
    ∃ f', (addPath (tree, parent) path).1.Reached f' (done ++ [path])
        (addPath (tree, parent) path).2 ∧
      tree.Extends (addPath (tree, parent) path).1 [path] := by
  unfold addPath
  dsimp only
  cases found : tree.found.lookup path with
  | some node =>
    refine ⟨f, ⟨h.grown, ((h.grown.found path node).1 found).2.1, ?_, ?_, ?_⟩,
      ⟨fun _ _ => id, fun _ node h => .inl ⟨node, h⟩⟩⟩
    · intro q hq
      rw [mem_append, mem_singleton] at hq
      rcases hq with hq | rfl
      · exact h.found q hq
      · exact ⟨node, found⟩
    · intro q hq
      rw [List.getLast?_concat] at hq
      obtain rfl := Option.some.inj hq
      exact found
    · rw [← chain]
      exact h.grown.above path node found
  | none =>
    refine ⟨_, reached_grow h chain found, ⟨fun q node hq => ?_, fun q node hq => ?_⟩⟩
    · rw [lookup_grow, if_neg, hq]
      rintro rfl
      rw [found] at hq
      cases hq
    · rw [lookup_grow] at hq
      split_ifs at hq with same
      · exact .inr (mem_singleton.2 same)
      · exact .inl ⟨node, hq⟩

/-- Going on over the rest of a field's prefixes. -/
theorem reached_foldl {field : String} (rest : List String) {tree : Nodes} {f : Forest ℕ}
    (chain : prefixes field = done ++ rest) (h : tree.Reached f done parent) :
    ∃ f', (rest.foldl addPath (tree, parent)).1.Reached f' (prefixes field)
        (rest.foldl addPath (tree, parent)).2 ∧
      tree.Extends (rest.foldl addPath (tree, parent)).1 rest := by
  induction rest generalizing done tree f parent with
  | nil =>
    rw [append_nil] at chain
    rw [chain]
    exact ⟨f, h, .refl tree⟩
  | cons path rest ih =>
    obtain ⟨f', h', ext⟩ := reached_addPath h (prefixes_of_append chain)
    obtain ⟨f'', h'', ext'⟩ := ih (by rw [chain, append_assoc]; rfl) h'
    exact ⟨f'', h'', ext.trans ext'⟩

theorem grown_addField (h : tree.Grown f) (field : String) :
    ∃ f', (tree.addField field).1.Grown f' ∧
      (tree.addField field).1.found.lookup field = some (tree.addField field).2 ∧
      tree.Extends (tree.addField field).1 (prefixes field) := by
  have start : tree.Reached f [] 0 :=
    ⟨h, (h.mem_values 0).1 (Forest.above_mem ((h.root 0).2 rfl)).1, nofun, nofun, by
      simpa using h.root⟩
  obtain ⟨f', reached, ext⟩ := reached_foldl (prefixes field) (nil_append _).symm start
  refine ⟨f', reached.grown, reached.last field ?_, ext⟩
  obtain ⟨before, eq⟩ := prefixes_last field
  rw [eq, List.getLast?_concat]

/-- **What collecting the nodes of all fields gives.** -/
theorem grown_addFields (h : tree.Grown f) (fields : List String) :
    ∃ f', (tree.addFields fields).1.Grown f' ∧
      List.Forall₂ (fun field node => (tree.addFields fields).1.found.lookup field = some node)
        fields (tree.addFields fields).2 ∧
      tree.Extends (tree.addFields fields).1 (fields.flatMap prefixes) := by
  induction fields generalizing tree f with
  | nil => exact ⟨f, h, .nil, .refl tree⟩
  | cons field fields ih =>
    obtain ⟨f', grown, found, ext⟩ := grown_addField h field
    obtain ⟨f'', grown', found', ext'⟩ := ih grown
    exact ⟨f'', grown', .cons (ext'.kept _ _ found) found', ext.trans ext'⟩

/-! ### The list of the collected nodes -/

section

variable (h : tree.Grown f)
include h

theorem Grown.order_eq :
    tree.order = f.flatten 0 := by
  have count : f.values.length = tree.nodes.length := by
    rw [h.values.length_eq, length_range]
  have walked := walk_rep h.rep 0 count.le []
  rw [append_nil] at walked
  rw [order, show [(0, 0)] = [0].map fun root => (root, 0) from rfl, walked, count, Nat.sub_self]
  exact append_nil _

theorem Grown.nodes_eq :
    tree.order.map Prod.snd = f.values := by
  rw [h.order_eq, Forest.map_snd_flatten]

theorem Grown.length_preorderEntries (root : Guid) :
    (tree.preorderEntries root).length = f.values.length := by
  rw [preorderEntries, length_map, h.order_eq, Forest.length_flatten]

/-- In a list that is not too long no level is cut off. -/
theorem Grown.levelAt_preorderEntries (root : Guid)
    (short : (tree.preorderEntries root).length ≤ 65536) :
    levelAt (tree.preorderEntries root) = ofList (f.levels 0) := by
  have whole : ∀ level ∈ f.levels 0, min level 65535 = level := by
    intro level mem
    obtain ⟨i, lt, rfl⟩ := mem_iff_getElem.1 mem
    have bound := Forest.ofList_levels_le 0 f i
    rw [ofList, getD_eq_getElem?_getD, List.getElem?_eq_getElem lt, Option.getD_some] at bound
    rw [Forest.length_levels, ← h.length_preorderEntries root] at lt
    omega
  have levels : (tree.preorderEntries root).map Entry.level =
      (f.levels 0).map fun level => min level 65535 := by
    rw [preorderEntries, h.order_eq, Forest.levels, map_map, map_map]
    rfl
  rw [levelAt, levels, map_congr_left whole, map_id']

theorem Grown.name_preorderEntries (root : Guid) (i : ℕ) :
    (tree.preorderEntries root)[i]?.map Entry.name =
      f.values[i]?.map fun node => if node = 0 then root else fieldGuid (tree.pathOf node) := by
  rw [← h.nodes_eq, preorderEntries, List.getElem?_map, List.getElem?_map, Option.map_map,
    Option.map_map]
  rfl

theorem Grown.values_position {node : ℕ} (lt : node < tree.nodes.length) :
    f.values[tree.position node]? = some node := by
  have mem := (h.mem_values node).2 lt
  rw [position, h.nodes_eq, List.getElem?_eq_getElem (idxOf_lt_length_of_mem mem),
    getElem_idxOf]

theorem Grown.values_zero :
    f.values[0]? = some 0 := by
  cases f with
  | nil => exact absurd ((h.root 0).2 rfl) id
  | node value children siblings =>
    obtain ⟨rest, eq, -⟩ := h.rep
    obtain rfl := (List.cons.inj eq).1
    rfl

end

end Nodes

/-! ### The object type list of some fields -/

/-- Each of some fields is found where it was collected. -/
theorem Nodes.exists_found {tree : Nodes} {fields : List String} {ends : List ℕ}
    (found : List.Forall₂ (fun field node => tree.found.lookup field = some node) fields ends)
    {field : String} (mem : field ∈ fields) :
    ∃ node, (field, node) ∈ fields.zip ends ∧ tree.found.lookup field = some node := by
  rw [← map_fst_zip found.length_eq.le, mem_map] at mem
  obtain ⟨⟨_, node⟩, here, rfl⟩ := mem
  exact ⟨node, here, (forall₂_iff_zip.1 found).2 here⟩

section Facts

variable {root : Guid} {fields : List String}

theorem length_fields_fieldTree : (fieldTree root fields).fields.length = fields.length := by
  obtain ⟨f, grown, found, -⟩ := Nodes.grown_addFields Nodes.grown_start fields
  unfold fieldTree
  rw [length_map, found.length_eq]

/-- **Above a field lie the root and the nodes of its prefixes**, and only these. -/
theorem covers_fieldTree (short : (fieldTree root fields).entries.length ≤ 65536)
    {field : String} {pos : ℕ} (mem : (field, pos) ∈ fields.zip (fieldTree root fields).fields) :
    pos < (fieldTree root fields).entries.length ∧
    ∀ guid, (∃ i, Covers (levelAt (fieldTree root fields).entries) i pos ∧
        (fieldTree root fields).entries[i]?.map Entry.name = some guid) ↔
      guid = root ∨ ∃ path ∈ prefixes field, guid = fieldGuid path := by
  obtain ⟨f, grown, found, -⟩ := Nodes.grown_addFields Nodes.grown_start fields
  unfold fieldTree at short mem ⊢
  dsimp only at short mem ⊢
  set tree := (Nodes.start.addFields fields).1
  rw [zip_map_right, mem_map] at mem
  obtain ⟨⟨field, node⟩, mem, eq⟩ := mem
  obtain ⟨rfl, rfl⟩ := Prod.mk.inj eq
  have here := (forall₂_iff_zip.1 found).2 mem
  have lt := ((grown.found field node).1 here).2.1
  have value := grown.values_position lt
  refine ⟨?_, fun guid => ?_⟩
  · rw [grown.length_preorderEntries]
    exact (List.getElem?_eq_some_iff.1 value).1
  · rw [grown.levelAt_preorderEntries root short]
    simp only [grown.name_preorderEntries, id_eq]
    constructor
    · rintro ⟨i, covers, name⟩
      obtain ⟨a, ha, rfl⟩ := Option.map_eq_some_iff.1 name
      rw [Forest.covers_flatten grown.nodup 0 ha value, grown.above field node here] at covers
      rcases covers with rfl | ⟨path, hpath, found⟩
      · exact .inl (if_pos rfl)
      · obtain ⟨pos, -, rfl⟩ := (grown.found path a).1 found
        exact .inr ⟨_, hpath, if_neg pos.ne'⟩
    · intro h
      obtain ⟨a, above, name⟩ : ∃ a, f.Above a node ∧
          (if a = 0 then root else fieldGuid (tree.pathOf a)) = guid := by
        rcases h with rfl | ⟨path, hpath, rfl⟩
        · exact ⟨0, (grown.above field node here 0).2 (.inl rfl), if_pos rfl⟩
        · obtain ⟨a, found⟩ := grown.closed field node here path hpath
          obtain ⟨pos, -, same⟩ := (grown.found path a).1 found
          refine ⟨a, (grown.above field node here a).2 (.inr ⟨path, hpath, found⟩), ?_⟩
          rw [if_neg pos.ne', same]
      obtain ⟨i, ha⟩ := mem_iff_getElem?.1 (Forest.above_mem above).1
      refine ⟨i, (Forest.covers_flatten grown.nodup 0 ha value).2 above, ?_⟩
      rw [ha, Option.map_some, name]

/-- The first entry is the root, which lies above everything. -/
theorem root_fieldTree (short : (fieldTree root fields).entries.length ≤ 65536) :
    (fieldTree root fields).entries[0]?.map Entry.name = some root ∧
    ∀ i < (fieldTree root fields).entries.length,
      Covers (levelAt (fieldTree root fields).entries) 0 i := by
  obtain ⟨f, grown, -, -⟩ := Nodes.grown_addFields Nodes.grown_start fields
  unfold fieldTree at short ⊢
  dsimp only at short ⊢
  set tree := (Nodes.start.addFields fields).1
  constructor
  · rw [grown.name_preorderEntries, grown.values_zero]
    rfl
  · intro i lt
    rw [grown.length_preorderEntries] at lt
    have value := List.getElem?_eq_getElem lt
    have bound := (grown.mem_values _).1 (mem_of_getElem? value)
    rw [grown.levelAt_preorderEntries root short,
      Forest.covers_flatten grown.nodup 0 grown.values_zero value]
    rcases Nat.eq_zero_or_pos f.values[i] with zero | pos
    · rw [zero]
      exact (grown.root 0).2 rfl
    · have found := (grown.found _ f.values[i]).2 ⟨pos, bound, rfl⟩
      exact (grown.above _ _ found 0).2 (.inl rfl)

/-- **At or beneath every node but the root there is a field.** -/
theorem exists_field_beneath (short : (fieldTree root fields).entries.length ≤ 65536) {i : ℕ}
    (pos : 0 < i) (lt : i < (fieldTree root fields).entries.length) :
    ∃ field below, (field, below) ∈ fields.zip (fieldTree root fields).fields ∧
      Covers (levelAt (fieldTree root fields).entries) i below := by
  obtain ⟨f, grown, found, ext⟩ := Nodes.grown_addFields Nodes.grown_start fields
  unfold fieldTree at short lt ⊢
  dsimp only at short lt ⊢
  set tree := (Nodes.start.addFields fields).1
  rw [grown.length_preorderEntries] at lt
  have value := List.getElem?_eq_getElem lt
  have bound := (grown.mem_values _).1 (mem_of_getElem? value)
  have nonzero : 0 < f.values[i] := by
    refine Nat.pos_of_ne_zero fun zero => pos.ne ?_
    rw [zero] at value
    exact (List.getElem?_inj (Nat.zero_lt_of_lt lt) grown.nodup).1
      (grown.values_zero.trans value.symm)
  have named := (grown.found _ f.values[i]).2 ⟨nonzero, bound, rfl⟩
  obtain ⟨_, contra⟩ | asked := ext.only _ _ named
  · cases contra
  · obtain ⟨field, hfield, hprefix⟩ := mem_flatMap.1 asked
    obtain ⟨node, mem, here⟩ := Nodes.exists_found found hfield
    refine ⟨field, tree.position node, ?_, ?_⟩
    · rw [zip_map_right]
      exact mem_map.2 ⟨_, mem, rfl⟩
    · rw [grown.levelAt_preorderEntries root short,
        Forest.covers_flatten grown.nodup 0 value
          (grown.values_position ((grown.found _ _).1 here).2.1)]
      exact (grown.above _ _ here _).2 (.inr ⟨_, hprefix, named⟩)

/-- The distinct paths that some fields lead through. -/
def nodePaths (fields : List String) : List String := (fields.flatMap prefixes).dedup

/-- **The list names the root and each path once.** -/
theorem perm_names_fieldTree (root : Guid) (fields : List String) :
    ((fieldTree root fields).entries.map Entry.name).Perm
      (root :: (nodePaths fields).map fieldGuid) := by
  obtain ⟨f, grown, found, ext⟩ := Nodes.grown_addFields Nodes.grown_start fields
  unfold fieldTree
  dsimp only
  set tree := (Nodes.start.addFields fields).1
  have names : (tree.preorderEntries root).map Entry.name =
      f.values.map fun node => if node = 0 then root else fieldGuid (tree.pathOf node) := by
    rw [← grown.nodes_eq, Nodes.preorderEntries, map_map, map_map]
    rfl
  obtain ⟨count, eq⟩ : ∃ count, tree.nodes.length = count + 1 :=
    Nat.exists_eq_succ_of_ne_zero (Nat.ne_zero_of_lt
      ((grown.mem_values 0).1 (mem_of_getElem? grown.values_zero)))
  have paths : (List.range count).map (fun i => tree.pathOf (i + 1)) |>.Perm (nodePaths fields) := by
    refine (perm_ext_iff_of_nodup ?_ (nodup_dedup _)).2 fun path => ?_
    · refine List.Nodup.map_on (fun i hi j hj same => ?_) nodup_range
      rw [mem_range] at hi hj
      have first := (grown.found _ (i + 1)).2 ⟨Nat.succ_pos i, by omega, rfl⟩
      have second := (grown.found _ (j + 1)).2 ⟨Nat.succ_pos j, by omega, rfl⟩
      rw [same, second] at first
      exact Nat.succ.inj (Option.some.inj first).symm
    · rw [mem_dedup, mem_map]
      constructor
      · rintro ⟨i, hi, rfl⟩
        rw [mem_range] at hi
        have named := (grown.found _ (i + 1)).2 ⟨Nat.succ_pos i, by omega, rfl⟩
        exact (ext.only _ _ named).resolve_left fun ⟨_, contra⟩ => by cases contra
      · intro mem
        obtain ⟨field, hfield, hprefix⟩ := mem_flatMap.1 mem
        obtain ⟨node, -, here⟩ := Nodes.exists_found found hfield
        obtain ⟨above, named⟩ := grown.closed field node here path hprefix
        obtain ⟨pos, lt, rfl⟩ := (grown.found path above).1 named
        obtain ⟨i, rfl⟩ := Nat.exists_eq_succ_of_ne_zero pos.ne'
        exact ⟨i, mem_range.2 (by omega), rfl⟩
  rw [names]
  refine (grown.values.map _).trans ?_
  rw [eq, range_succ_eq_map, map_cons, map_map, if_pos rfl]
  refine List.Perm.cons root ?_
  have := paths.map fieldGuid
  rw [map_map] at this
  exact this

end Facts

end Eventd
