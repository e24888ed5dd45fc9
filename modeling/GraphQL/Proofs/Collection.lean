import GraphQL.Execution.Collection
import Mathlib.Data.List.Nodup

/-!
# Collecting is grouping

`Registry.flatten` lists the field nodes that apply to an object type in document order, the
contents of fragments in their place. Collecting writes these nodes one after the other into the
groups (`collectInto_eq_foldl`), so the group of a key holds exactly the nodes of the list with that
response key (`mem_collect_iff`), and the keys stand in the order in which they first come
(`keys_collect`).
-/

namespace GraphQL

namespace Registry

variable {σ : Type}

mutual

/-- The field nodes of a selection that apply to the object type, in document order. -/
def flattenSelection (r : Registry σ) (o : ObjectType σ) : Selection → List (FieldNode Selection)
  | .field node => if o.declares node.name then [node] else []
  | .fragment none selections => r.flatten o selections
  | .fragment (some condition) selections =>
    if r.fragmentApplies condition o.name then r.flatten o selections else []

/-- The field nodes that apply to the object type, in document order. -/
def flatten (r : Registry σ) (o : ObjectType σ) : List Selection → List (FieldNode Selection)
  | [] => []
  | selection :: rest => r.flattenSelection o selection ++ r.flatten o rest

end

/-! ## Collecting writes the nodes one after the other -/

mutual

theorem collectSelection_eq_foldl (r : Registry σ) (o : ObjectType σ) :
    (selection : Selection) → (groups : Groups) →
    r.collectSelection o groups selection = (r.flattenSelection o selection).foldl addNode groups
  | .field node, groups => by
    rw [collectSelection, flattenSelection]
    split <;> rfl
  | .fragment none selections, groups => by
    rw [collectSelection, flattenSelection]
    exact collectInto_eq_foldl r o selections groups
  | .fragment (some condition) selections, groups => by
    rw [collectSelection, flattenSelection]
    split
    · exact collectInto_eq_foldl r o selections groups
    · rfl

theorem collectInto_eq_foldl (r : Registry σ) (o : ObjectType σ) :
    (selections : List Selection) → (groups : Groups) →
    r.collectInto o groups selections = (r.flatten o selections).foldl addNode groups
  | [], groups => by
    rw [collectInto, flatten, List.foldl_nil]
  | selection :: rest, groups => by
    rw [collectInto, flatten, List.foldl_append, collectSelection_eq_foldl r o selection,
      collectInto_eq_foldl r o rest]

end

theorem collect_eq_foldl (r : Registry σ) (o : ObjectType σ) (selections : List Selection) :
    r.collect o selections = (r.flatten o selections).foldl addNode [] :=
  r.collectInto_eq_foldl o selections []

/-! ## What the groups hold -/

/-- The nodes of one response key, in order. -/
def nodesOf (key : String) (nodes : List (FieldNode Selection)) : List (FieldNode Selection) :=
  nodes.filter (·.responseKey == key)

theorem nodup_keys_foldl (nodes : List (FieldNode Selection)) {groups : Groups}
    (h : (Keyed.keys groups).Nodup) : (Keyed.keys (nodes.foldl addNode groups)).Nodup :=
  Keyed.nodup_keys_writes FieldNode.responseKey _ nodes h

theorem keys_foldl (nodes : List (FieldNode Selection)) (groups : Groups) :
    Keyed.keys (nodes.foldl addNode groups) = Keyed.keys groups ++
      ((nodes.map FieldNode.responseKey).removeAll (Keyed.keys groups)).eraseDups :=
  Keyed.keys_writes FieldNode.responseKey _ nodes groups

/-- What a key holds after nodes were added: what it held before, then its nodes. -/
theorem get?_foldl (nodes : List (FieldNode Selection)) (groups : Groups) (key : String) :
    (Keyed.get? (nodes.foldl addNode groups) key).getD [] =
      (Keyed.get? groups key).getD [] ++ nodesOf key nodes := by
  induction nodes generalizing groups with
  | nil => simp [nodesOf]
  | cons node rest ih =>
    rw [List.foldl_cons, ih, addNode, Keyed.get?_update]
    by_cases h : node.responseKey = key
    · simp [nodesOf, h, List.append_assoc]
    · simp [nodesOf, h]

theorem nodup_keys_collect (r : Registry σ) (o : ObjectType σ) (selections : List Selection) :
    (Keyed.keys (r.collect o selections)).Nodup := by
  rw [collect_eq_foldl]
  exact nodup_keys_foldl _ List.nodup_nil

theorem keys_collect (r : Registry σ) (o : ObjectType σ) (selections : List Selection) :
    Keyed.keys (r.collect o selections) =
      ((r.flatten o selections).map FieldNode.responseKey).eraseDups := by
  rw [collect_eq_foldl, keys_foldl]
  simp [Keyed.keys, List.removeAll]

theorem mem_collect_iff {r : Registry σ} {o : ObjectType σ} {selections : List Selection}
    {key : String} {nodes : List (FieldNode Selection)} :
    (key, nodes) ∈ r.collect o selections ↔
      nodes = nodesOf key (r.flatten o selections) ∧ nodes ≠ [] := by
  have hget := get?_foldl (r.flatten o selections) [] key
  rw [← collect_eq_foldl, Keyed.get?_nil, Option.getD_none, List.nil_append] at hget
  have hmem : key ∈ Keyed.keys (r.collect o selections) ↔
      nodesOf key (r.flatten o selections) ≠ [] := by
    rw [keys_collect, List.mem_eraseDups]
    simp [nodesOf]
  constructor
  · intro h
    have hk : key ∈ Keyed.keys (r.collect o selections) := List.mem_map_of_mem (f := Prod.fst) h
    have hn := (Keyed.get?_eq_some_iff (r.nodup_keys_collect o selections)).2 h
    rw [hn, Option.getD_some] at hget
    exact ⟨hget, hget ▸ hmem.1 hk⟩
  · rintro ⟨rfl, hn⟩
    refine Keyed.mem_of_get?_eq_some ?_
    cases h : Keyed.get? (r.collect o selections) key with
    | none => exact absurd (hmem.2 hn) (Keyed.get?_eq_none_iff.1 h)
    | some nodes => rw [← hget, h, Option.getD_some]

/-! ## What is known of a collected node -/

mutual

theorem declares_of_mem_flattenSelection {r : Registry σ} {o : ObjectType σ}
    {node : FieldNode Selection} : (selection : Selection) →
    node ∈ r.flattenSelection o selection → o.declares node.name = true
  | .field node', h => by
    rw [flattenSelection] at h
    split at h
    · next hd =>
      rw [List.mem_singleton] at h
      rwa [h]
    · nomatch h
  | .fragment none selections, h => by
    rw [flattenSelection] at h
    exact declares_of_mem_flatten selections h
  | .fragment (some condition) selections, h => by
    rw [flattenSelection] at h
    split at h
    · exact declares_of_mem_flatten selections h
    · nomatch h

theorem declares_of_mem_flatten {r : Registry σ} {o : ObjectType σ}
    {node : FieldNode Selection} : (selections : List Selection) →
    node ∈ r.flatten o selections → o.declares node.name = true
  | [], h => by simp [flatten] at h
  | selection :: rest, h => by
    rw [flatten, List.mem_append] at h
    rcases h with h | h
    · exact declares_of_mem_flattenSelection selection h
    · exact declares_of_mem_flatten rest h

end

mutual

theorem depth_children_lt_flattenSelection {r : Registry σ} {o : ObjectType σ}
    {node : FieldNode Selection} : (selection : Selection) →
    node ∈ r.flattenSelection o selection → Selection.depthAll node.children < selection.depth
  | .field ⟨alias?, name, arguments, selections?⟩, h => by
    rw [flattenSelection] at h
    split at h
    · rw [List.mem_singleton] at h
      subst h
      cases selections? with
      | none => simp [FieldNode.children, Selection.depth, Selection.depthAll]
      | some selections => simp [FieldNode.children, Selection.depth]
    · nomatch h
  | .fragment none selections, h => by
    rw [flattenSelection] at h
    rw [Selection.depth]
    exact depth_children_lt_flatten selections h
  | .fragment (some condition) selections, h => by
    rw [flattenSelection] at h
    rw [Selection.depth]
    split at h
    · exact depth_children_lt_flatten selections h
    · nomatch h

theorem depth_children_lt_flatten {r : Registry σ} {o : ObjectType σ}
    {node : FieldNode Selection} : (selections : List Selection) →
    node ∈ r.flatten o selections → Selection.depthAll node.children < Selection.depthAll selections
  | [], h => by simp [flatten] at h
  | selection :: rest, h => by
    rw [flatten, List.mem_append] at h
    rw [Selection.depthAll]
    rcases h with h | h
    · have := depth_children_lt_flattenSelection selection h
      omega
    · have := depth_children_lt_flatten rest h
      omega

end

theorem depthAll_append (xs ys : List Selection) :
    Selection.depthAll (xs ++ ys) = max (Selection.depthAll xs) (Selection.depthAll ys) := by
  induction xs with
  | nil => simp [Selection.depthAll]
  | cons x xs ih =>
    rw [List.cons_append, Selection.depthAll, Selection.depthAll, ih]
    omega

theorem depthAll_flatMap_children_lt {nodes : List (FieldNode Selection)} (hne : nodes ≠ [])
    {depth : Nat} (h : ∀ node ∈ nodes, Selection.depthAll node.children < depth) :
    Selection.depthAll (nodes.flatMap FieldNode.children) < depth := by
  induction nodes with
  | nil => exact absurd rfl hne
  | cons node rest ih =>
    have hnode := h node List.mem_cons_self
    rw [List.flatMap_cons, depthAll_append]
    by_cases hr : rest = []
    · subst hr
      rw [List.flatMap_nil, Selection.depthAll]
      omega
    · have := ih hr fun node' hn => h node' (List.mem_cons_of_mem _ hn)
      omega

/-- What is selected below a group is nested less deep than what the group was collected from. -/
theorem depthAll_children_lt_of_mem_collect {r : Registry σ} {o : ObjectType σ}
    {selections : List Selection} {key : String} {nodes : List (FieldNode Selection)}
    (h : (key, nodes) ∈ r.collect o selections) :
    Selection.depthAll (nodes.flatMap FieldNode.children) < Selection.depthAll selections := by
  obtain ⟨rfl, hne⟩ := mem_collect_iff.1 h
  refine depthAll_flatMap_children_lt hne ?_
  intro node hn
  exact depth_children_lt_flatten selections (List.mem_of_mem_filter hn)

theorem responseKey_of_mem_collect {r : Registry σ} {o : ObjectType σ}
    {selections : List Selection} {key : String} {nodes : List (FieldNode Selection)}
    (h : (key, nodes) ∈ r.collect o selections) {node : FieldNode Selection} (hn : node ∈ nodes) :
    node.responseKey = key := by
  obtain ⟨rfl, -⟩ := mem_collect_iff.1 h
  exact beq_iff_eq.1 (List.mem_filter.1 hn).2

theorem declares_of_mem_collect {r : Registry σ} {o : ObjectType σ}
    {selections : List Selection} {key : String} {nodes : List (FieldNode Selection)}
    (h : (key, nodes) ∈ r.collect o selections) {node : FieldNode Selection} (hn : node ∈ nodes) :
    o.declares node.name = true := by
  obtain ⟨rfl, -⟩ := mem_collect_iff.1 h
  exact declares_of_mem_flatten selections (List.mem_of_mem_filter hn)

end Registry

end GraphQL
