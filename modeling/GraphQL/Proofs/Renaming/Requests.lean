import GraphQL.Binding
import GraphQL.Proofs.Collection
import Mathlib.Data.Set.Function

/-!
# Requests under other response keys

`Operation.rename` gives every field of an operation the alias that a function makes of its response
key. Names, arguments and conditions stay, so the faults of binding are the same, at the renamed
positions (`Schema.bind_rename`). What is collected stays apart only if no two response keys become
one: then the groups are the renamed groups, in the same order (`Registry.collect_rename`).
-/

namespace GraphQL

variable {ρ : String → String}

/-! ## Renaming -/

namespace Selection

mutual

/-- The selection with each of its fields under its response key renamed. -/
def rename (ρ : String → String) : Selection → Selection
  | .field ⟨alias?, name, arguments, none⟩ =>
    .field ⟨some (ρ (alias?.getD name)), name, arguments, none⟩
  | .field ⟨alias?, name, arguments, some selections⟩ =>
    .field ⟨some (ρ (alias?.getD name)), name, arguments, some (renameAll ρ selections)⟩
  | .fragment condition? selections => .fragment condition? (renameAll ρ selections)

/-- The selections with each of their fields under its response key renamed. -/
def renameAll (ρ : String → String) : List Selection → List Selection
  | [] => []
  | selection :: rest => selection.rename ρ :: renameAll ρ rest

end

mutual

/-- The response keys of the fields in a selection, at any depth. -/
def keys : Selection → List String
  | .field ⟨alias?, name, _, none⟩ => [alias?.getD name]
  | .field ⟨alias?, name, _, some selections⟩ => alias?.getD name :: keysAll selections
  | .fragment _ selections => keysAll selections

/-- The response keys of the fields in selections, at any depth. -/
def keysAll : List Selection → List String
  | [] => []
  | selection :: rest => selection.keys ++ keysAll rest

end

theorem renameAll_append (xs ys : List Selection) :
    renameAll ρ (xs ++ ys) = renameAll ρ xs ++ renameAll ρ ys := by
  induction xs with
  | nil => rfl
  | cons x xs ih => rw [List.cons_append, renameAll, renameAll, ih, List.cons_append]

theorem keysAll_append (xs ys : List Selection) :
    keysAll (xs ++ ys) = keysAll xs ++ keysAll ys := by
  induction xs with
  | nil => rfl
  | cons x xs ih => rw [List.cons_append, keysAll, keysAll, ih, List.append_assoc]

end Selection

/-- The field under its response key renamed, with what is selected from it renamed too. -/
def FieldNode.rename (ρ : String → String) (node : FieldNode Selection) : FieldNode Selection :=
  ⟨some (ρ node.responseKey), node.name, node.arguments,
    node.selections?.map (Selection.renameAll ρ)⟩

/-- The operation with every field under its response key renamed. -/
def Operation.rename (ρ : String → String) (operation : Operation) : Operation :=
  { operation with selections := Selection.renameAll ρ operation.selections }

/-- The response keys of an operation, at any depth. -/
def Operation.keys (operation : Operation) : List String :=
  Selection.keysAll operation.selections

namespace FieldNode

@[simp] theorem name_rename (node : FieldNode Selection) : (node.rename ρ).name = node.name := rfl

@[simp] theorem arguments_rename (node : FieldNode Selection) :
    (node.rename ρ).arguments = node.arguments := rfl

@[simp] theorem responseKey_rename (node : FieldNode Selection) :
    (node.rename ρ).responseKey = ρ node.responseKey := rfl

@[simp] theorem children_rename (node : FieldNode Selection) :
    (node.rename ρ).children = Selection.renameAll ρ node.children := by
  obtain ⟨alias?, name, arguments, selections?⟩ := node
  cases selections? <;> rfl

theorem flatMap_children_rename (nodes : List (FieldNode Selection)) :
    (nodes.map (rename ρ)).flatMap children =
      Selection.renameAll ρ (nodes.flatMap children) := by
  induction nodes with
  | nil => rfl
  | cons node rest ih =>
    rw [List.map_cons, List.flatMap_cons, List.flatMap_cons, children_rename, ih,
      Selection.renameAll_append]

end FieldNode

namespace Selection

@[simp] theorem rename_field (node : FieldNode Selection) :
    (field node).rename ρ = field (node.rename ρ) := by
  obtain ⟨alias?, name, arguments, selections?⟩ := node
  cases selections? <;> rfl

theorem keys_field (node : FieldNode Selection) :
    (field node).keys = node.responseKey :: keysAll node.children := by
  obtain ⟨alias?, name, arguments, selections?⟩ := node
  cases selections? <;> rfl

mutual

theorem depth_rename : (selection : Selection) → (selection.rename ρ).depth = selection.depth
  | .field ⟨_, _, _, none⟩ => rfl
  | .field ⟨_, _, _, some selections⟩ => by
    rw [rename, depth, depth, depthAll_rename selections]
  | .fragment _ selections => by
    rw [rename, depth, depth, depthAll_rename selections]

@[simp] theorem depthAll_rename : (selections : List Selection) →
    depthAll (renameAll ρ selections) = depthAll selections
  | [] => rfl
  | selection :: rest => by
    rw [renameAll, depthAll, depthAll, depth_rename selection, depthAll_rename rest]

end

end Selection

/-! ## Binding -/

/-- The fault at the renamed position. -/
def BindingError.rename (ρ : String → String) (e : BindingError) : BindingError :=
  { e with path := e.path.map ρ }

namespace Schema

variable {σ : Type} {s : Schema σ}

mutual

theorem bindSelection_rename (parent : TypeDef σ) (path : List String) :
    (selection : Selection) → s.bindSelection parent (path.map ρ) (selection.rename ρ) =
      (s.bindSelection parent path selection).map (BindingError.rename ρ)
  | .field ⟨alias?, name, arguments, none⟩ => by
    rw [Selection.rename, bindSelection, bindSelection]
    cases s.bindField parent name false with
    | faulty faults => simp [BindingError.rename, Function.comp_def]
    | _ => rfl
  | .field ⟨alias?, name, arguments, some selections⟩ => by
    rw [Selection.rename, bindSelection, bindSelection]
    cases s.bindField parent name true with
    | faulty faults => simp [BindingError.rename, Function.comp_def]
    | leaf => rfl
    | composite t =>
      have hpath : path.map ρ ++ [ρ (alias?.getD name)] = (path ++ [alias?.getD name]).map ρ := by
        rw [List.map_append, List.map_singleton]
      dsimp only
      rw [Option.getD_some, hpath]
      exact bindAll_rename t _ selections
  | .fragment condition? selections => by
    rw [Selection.rename, bindSelection, bindSelection]
    cases s.bindCondition parent condition? with
    | ok t => exact bindAll_rename t path selections
    | error fault => rfl

theorem bindAll_rename (parent : TypeDef σ) (path : List String) :
    (selections : List Selection) →
    s.bindAll parent (path.map ρ) (Selection.renameAll ρ selections) =
      (s.bindAll parent path selections).map (BindingError.rename ρ)
  | [] => rfl
  | selection :: rest => by
    rw [Selection.renameAll, bindAll, bindAll, List.map_append,
      bindSelection_rename parent path selection, bindAll_rename parent path rest]

end

/-- What cannot be bound cannot be bound under other response keys either, for the same reason. -/
theorem bind_rename (s : Schema σ) (operation : Operation) :
    s.bind (operation.rename ρ) = (s.bind operation).map (BindingError.rename ρ) := by
  have hkind : (operation.rename ρ).kind = operation.kind := rfl
  rw [bind, bind, hkind]
  cases (s.rootName? operation.kind).bind s.registry.get? with
  | none => rfl
  | some root => exact bindAll_rename root [] operation.selections

end Schema

/-! ## Collecting -/

namespace Keyed

variable {α β : Type}

/-- Where keys stay apart, writing under a renamed key is writing under the key before. -/
theorem update_map {K : Set String} (hρ : Set.InjOn ρ K) {key : String} (hk : key ∈ K)
    {m : Keyed α} (hm : ∀ key ∈ keys m, key ∈ K) {h : α → β} {f : Option α → α}
    {g : Option β → β} (hfg : ∀ a?, g (a?.map h) = h (f a?)) :
    update (ρ key) g (m.map (Prod.map ρ h)) = (update key f m).map (Prod.map ρ h) := by
  induction m with
  | nil =>
    have hnone := hfg none
    simpa [update] using hnone
  | cons e m ih =>
    obtain ⟨k, a⟩ := e
    simp only [keys, List.map_cons, List.forall_mem_cons] at hm
    have hrest := ih hm.2
    have hsome : g (some (h a)) = h (f (some a)) := hfg (some a)
    by_cases hkey : k = key
    · simp [update, hkey, hsome]
    · have hne : ρ k ≠ ρ key := fun heq => hkey (hρ hm.1 hk heq)
      simp [update, hkey, hne, hrest]

end Keyed

namespace Registry

variable {σ : Type} {r : Registry σ} {o : ObjectType σ}

mutual

theorem flattenSelection_rename : (selection : Selection) →
    r.flattenSelection o (selection.rename ρ) =
      (r.flattenSelection o selection).map (FieldNode.rename ρ)
  | .field node => by
    rw [Selection.rename_field, flattenSelection, flattenSelection, FieldNode.name_rename]
    split <;> rfl
  | .fragment none selections => by
    rw [Selection.rename, flattenSelection, flattenSelection]
    exact flatten_rename selections
  | .fragment (some condition) selections => by
    rw [Selection.rename, flattenSelection, flattenSelection]
    split
    · exact flatten_rename selections
    · rfl

theorem flatten_rename : (selections : List Selection) →
    r.flatten o (Selection.renameAll ρ selections) =
      (r.flatten o selections).map (FieldNode.rename ρ)
  | [] => rfl
  | selection :: rest => by
    rw [Selection.renameAll, flatten, flatten, List.map_append, flattenSelection_rename selection,
      flatten_rename rest]

end

mutual

/-- The response key of a node and those below it are among those of what the node is in. -/
theorem keys_subset_of_mem_flattenSelection {node : FieldNode Selection} :
    (selection : Selection) → node ∈ r.flattenSelection o selection →
    (Selection.field node).keys ⊆ selection.keys
  | .field node', h => by
    rw [flattenSelection] at h
    split at h
    · rw [List.mem_singleton] at h
      rw [h]
      exact List.Subset.refl _
    · nomatch h
  | .fragment none selections, h => by
    rw [flattenSelection] at h
    exact keys_subset_of_mem_flatten selections h
  | .fragment (some condition) selections, h => by
    rw [flattenSelection] at h
    split at h
    · exact keys_subset_of_mem_flatten selections h
    · nomatch h

theorem keys_subset_of_mem_flatten {node : FieldNode Selection} :
    (selections : List Selection) → node ∈ r.flatten o selections →
    (Selection.field node).keys ⊆ Selection.keysAll selections
  | [], h => nomatch h
  | selection :: rest, h => by
    rw [flatten, List.mem_append] at h
    rw [Selection.keysAll]
    rcases h with h | h
    · exact List.subset_append_of_subset_left _ (keys_subset_of_mem_flattenSelection selection h)
    · exact List.subset_append_of_subset_right _ (keys_subset_of_mem_flatten rest h)

end

/-- The groups with their keys and nodes renamed. -/
def renameGroups (ρ : String → String) (groups : Groups) : Groups :=
  groups.map (Prod.map ρ (List.map (FieldNode.rename ρ)))

theorem keys_renameGroups (groups : Groups) :
    Keyed.keys (renameGroups ρ groups) = (Keyed.keys groups).map ρ := by
  rw [renameGroups, Keyed.keys, Keyed.keys, List.map_map, List.map_map]
  rfl

theorem foldl_addNode_rename {K : Set String} (hρ : Set.InjOn ρ K)
    (nodes : List (FieldNode Selection)) (hn : ∀ node ∈ nodes, node.responseKey ∈ K)
    {groups : Groups} (hg : ∀ key ∈ Keyed.keys groups, key ∈ K) :
    (nodes.map (FieldNode.rename ρ)).foldl addNode (renameGroups ρ groups) =
      renameGroups ρ (nodes.foldl addNode groups) := by
  induction nodes generalizing groups with
  | nil => rfl
  | cons node rest ih =>
    rw [List.forall_mem_cons] at hn
    have hadd : addNode (renameGroups ρ groups) (node.rename ρ) =
        renameGroups ρ (addNode groups node) := by
      refine Keyed.update_map hρ hn.1 hg ?_
      intro group?
      cases group? <;> simp
    rw [List.map_cons, List.foldl_cons, List.foldl_cons, hadd]
    refine ih hn.2 ?_
    intro key hk
    rw [addNode] at hk
    by_cases hm : node.responseKey ∈ Keyed.keys groups
    · rw [Keyed.keys_update_of_mem hm] at hk
      exact hg key hk
    · rw [Keyed.keys_update_of_not_mem hm, List.mem_append, List.mem_singleton] at hk
      rcases hk with hk | rfl
      · exact hg key hk
      · exact hn.1

theorem responseKey_mem_keysAll {selections : List Selection} {node : FieldNode Selection}
    (h : node ∈ r.flatten o selections) : node.responseKey ∈ Selection.keysAll selections := by
  have hkeys := keys_subset_of_mem_flatten selections h
  rw [Selection.keys_field] at hkeys
  exact hkeys List.mem_cons_self

/-- **Where response keys stay apart, renamed selections make the renamed groups.** -/
theorem collect_rename {selections : List Selection}
    (hρ : Set.InjOn ρ {key | key ∈ Selection.keysAll selections}) :
    r.collect o (Selection.renameAll ρ selections) =
      renameGroups ρ (r.collect o selections) := by
  have hnodes : ∀ node ∈ r.flatten o selections,
      node.responseKey ∈ Selection.keysAll selections :=
    fun node hn => responseKey_mem_keysAll hn
  have hempty : ∀ key ∈ Keyed.keys ([] : Groups), key ∈ Selection.keysAll selections := nofun
  rw [collect_eq_foldl, collect_eq_foldl, flatten_rename]
  exact foldl_addNode_rename hρ _ hnodes hempty

/-- The keys of groups are among the response keys of what the groups were collected from. -/
theorem keys_collect_subset (selections : List Selection) :
    Keyed.keys (r.collect o selections) ⊆ Selection.keysAll selections := by
  intro key hk
  rw [keys_collect, List.mem_eraseDups, List.mem_map] at hk
  obtain ⟨node, hn, rfl⟩ := hk
  exact responseKey_mem_keysAll hn

/-- The response keys below a group are among those of what the group was collected from. -/
theorem keysAll_children_subset_of_mem_collect {selections : List Selection} {key : String}
    {nodes : List (FieldNode Selection)} (h : (key, nodes) ∈ r.collect o selections) :
    Selection.keysAll (nodes.flatMap FieldNode.children) ⊆ Selection.keysAll selections := by
  obtain ⟨rfl, -⟩ := mem_collect_iff.1 h
  have hnodes : ∀ node ∈ nodesOf key (r.flatten o selections),
      Selection.keysAll node.children ⊆ Selection.keysAll selections := by
    intro node hn
    have hkeys := keys_subset_of_mem_flatten selections (List.mem_of_mem_filter hn)
    rw [Selection.keys_field] at hkeys
    exact fun key hk => hkeys (List.mem_cons_of_mem _ hk)
  generalize nodesOf key (r.flatten o selections) = nodes at hnodes
  induction nodes with
  | nil => exact List.nil_subset _
  | cons node rest ih =>
    rw [List.forall_mem_cons] at hnodes
    rw [List.flatMap_cons, Selection.keysAll_append]
    exact List.append_subset_of_subset_of_subset hnodes.1 (ih hnodes.2)

end Registry

end GraphQL
