import GraphQL.Proofs.Renaming.Jobs

/-!
# Outcomes under other response keys

`Outcome.rename` gives the fields of the objects that an execution makes their renamed keys; what is
in leaves stays, objects in there included. Errors, calls and the result of a renamed outcome are
the renamed ones (`errors_rename`, `calls_rename`, `completion_rename`), and a renamed request may
have the renamed outcomes (`Context.Yields.rename`).
-/

namespace GraphQL

variable {ρ : String → String}

namespace Outcome

mutual

/-- The outcome under renamed response keys. -/
def rename (ρ : String → String) : Outcome → Outcome
  | .list type items => .list type (renameItems ρ items)
  | .object type name fields => .object type name (renameFields ρ fields)
  | .typename name => .typename name
  | .failed type error => .failed type error
  | .null type => .null type
  | .leaf type v => .leaf type v

/-- The items with the response keys in them renamed. -/
def renameItems (ρ : String → String) : List Outcome → List Outcome
  | [] => []
  | o :: rest => o.rename ρ :: renameItems ρ rest

/-- The fields under their renamed keys, with the calls that were made for them. -/
def renameFields (ρ : String → String) : List (String × Option Call × Outcome) →
    List (String × Option Call × Outcome)
  | [] => []
  | (key, call?, o) :: rest =>
    (ρ key, call?.map (Call.rename ρ), o.rename ρ) :: renameFields ρ rest

end

theorem renameItems_eq_map (items : List Outcome) : renameItems ρ items = items.map (rename ρ) := by
  induction items with
  | nil => rfl
  | cons o rest ih => rw [renameItems, ih, List.map_cons]

theorem renameFields_eq_map (fields : Fields) : renameFields ρ fields =
    fields.map fun (key, call?, o) => (ρ key, call?.map (Call.rename ρ), o.rename ρ) := by
  induction fields with
  | nil => rfl
  | cons f rest ih => rw [renameFields, ih, List.map_cons]

theorem keys_renameFields (fields : Fields) :
    Keyed.keys (renameFields ρ fields) = (Keyed.keys fields).map ρ := by
  rw [renameFields_eq_map, Keyed.keys, Keyed.keys, List.map_map, List.map_map]
  rfl

mutual

theorem errors_rename : (o : Outcome) → (path : Path) →
    (o.rename ρ).errors (path.rename ρ) = (o.errors path).map (LocatedError.rename ρ)
  | .typename _, _ => rfl
  | .failed .., _ => rfl
  | .null type, path => by
    rw [rename, errors, errors]
    cases (null type).error? <;> rfl
  | .leaf type v, path => by
    rw [rename, errors, errors]
    cases (leaf type v).error? <;> rfl
  | .list _ items, path => itemErrors_rename items path 0
  | .object _ _ fields, path => fieldErrors_rename fields path

theorem itemErrors_rename : (items : List Outcome) → (path : Path) → (i : Nat) →
    itemErrors (renameItems ρ items) (path.rename ρ) i =
      (itemErrors items path i).map (LocatedError.rename ρ)
  | [], _, _ => rfl
  | o :: rest, path, i => by
    rw [renameItems, itemErrors, itemErrors, List.map_append, ← Path.rename_index,
      errors_rename o, itemErrors_rename rest]

theorem fieldErrors_rename : (fields : List (String × Option Call × Outcome)) → (path : Path) →
    fieldErrors (renameFields ρ fields) (path.rename ρ) =
      (fieldErrors fields path).map (LocatedError.rename ρ)
  | [], _ => rfl
  | (key, _, o) :: rest, path => by
    rw [renameFields, fieldErrors, fieldErrors, List.map_append, ← Path.rename_field,
      errors_rename o, fieldErrors_rename rest]

end

mutual

theorem calls_rename : (o : Outcome) → (o.rename ρ).calls = o.calls.map (Call.rename ρ)
  | .typename _ => rfl
  | .failed .. => rfl
  | .null _ => rfl
  | .leaf .. => rfl
  | .list _ items => itemCalls_rename items
  | .object _ _ fields => fieldCalls_rename fields

theorem itemCalls_rename : (items : List Outcome) →
    itemCalls (renameItems ρ items) = (itemCalls items).map (Call.rename ρ)
  | [] => rfl
  | o :: rest => by
    rw [renameItems, itemCalls, itemCalls, List.map_append, calls_rename o,
      itemCalls_rename rest]

theorem fieldCalls_rename : (fields : List (String × Option Call × Outcome)) →
    fieldCalls (renameFields ρ fields) = (fieldCalls fields).map (Call.rename ρ)
  | [] => rfl
  | (_, call?, o) :: rest => by
    rw [renameFields, fieldCalls, fieldCalls, List.map_append, List.map_append, calls_rename o,
      fieldCalls_rename rest]
    cases call? <;> rfl

end

/-! ## Renamed results -/

mutual

/-- The result of a position with the keys of the objects renamed that are made there and below. -/
def renameResult (ρ : String → String) : Outcome → Value → Value
  | .list _ items, .list vs => .list (renameValues ρ items vs)
  | .object _ _ fields, .object entries => .object (renameEntries ρ fields entries)
  | _, v => v

/-- The results of items with the keys of the objects renamed that are made there. -/
def renameValues (ρ : String → String) : List Outcome → List Value → List Value
  | o :: items, v :: vs => o.renameResult ρ v :: renameValues ρ items vs
  | _, vs => vs

/-- The entries of an object that is made, under renamed keys. -/
def renameEntries (ρ : String → String) : List (String × Option Call × Outcome) →
    List (String × Value) → List (String × Value)
  | (_, _, o) :: fields, (key, v) :: entries =>
    (ρ key, o.renameResult ρ v) :: renameEntries ρ fields entries
  | _, entries => entries

end

mutual

/-- **The result of a renamed outcome is the renamed result.** -/
theorem completion_rename : (o : Outcome) →
    (o.rename ρ).completion = o.completion.map (o.renameResult ρ)
  | .typename _ => rfl
  | .failed type error => by
    rw [rename, completion]
    cases hc : type.settled none <;> simp [renameResult]
  | .null type => by
    rw [rename, completion]
    cases hc : type.settled (some .null) <;> simp [renameResult]
  | .leaf type v => by
    rw [rename, completion]
    cases hc : type.settled (some v) <;> simp [renameResult]
  | .list type items => by
    rw [rename, completion, completion, values?_rename items]
    cases values? items with
    | none =>
      simp only [Option.map_none, TypeRef.settled]
      cases type.isNonNull <;> rfl
    | some vs => rfl
  | .object type name fields => by
    rw [rename, completion, completion, entries?_rename fields]
    cases entries? fields with
    | none =>
      simp only [Option.map_none, TypeRef.settled]
      cases type.isNonNull <;> rfl
    | some entries => rfl

theorem values?_rename : (items : List Outcome) →
    values? (renameItems ρ items) = (values? items).map (renameValues ρ items)
  | [] => rfl
  | o :: rest => by
    rw [renameItems, values?, values?, completion_rename o, values?_rename rest]
    cases o.completion with
    | none => rfl
    | some v => cases values? rest <;> rfl

theorem entries?_rename : (fields : List (String × Option Call × Outcome)) →
    entries? (renameFields ρ fields) = (entries? fields).map (renameEntries ρ fields)
  | [] => rfl
  | (key, _, o) :: rest => by
    rw [renameFields, entries?, entries?, completion_rename o, entries?_rename rest]
    cases o.completion with
    | none => rfl
    | some v => cases entries? rest <;> rfl

end

/-! ## The gist of an outcome -/

/-- The errors and the calls of an outcome. -/
def gist (o : Outcome) (path : Path) : Gist :=
  .of (o.errors path) o.calls

theorem gist_null (type : TypeRef) (path : Path) : (null type).gist path =
    if type.isNonNull then (Event.failed ⟨path, .ofFault (.nullInNonNull type)⟩).gist else 0 := by
  rw [gist, errors, error?]
  cases type.isNonNull <;> rfl

theorem completion_null (type : TypeRef) :
    (null type).completion = if type.isNonNull then none else some .null := by
  rw [completion]
  rfl

end Outcome

/-! ## Renamed requests have the renamed outcomes -/

variable {σ : Type}

namespace Spot

/-- What is done at the position under renamed response keys. -/
def rename (ρ : String → String) : Spot σ → Spot σ
  | .field o parent nodes => .field o parent (nodes.map (FieldNode.rename ρ))
  | .value type v selections => .value type v (Selection.renameAll ρ selections)
  | .object type o v selections => .object type o v (Selection.renameAll ρ selections)

/-- The response keys of what is selected below the position. -/
def keys : Spot σ → List String
  | .field _ _ nodes => Selection.keysAll (nodes.flatMap FieldNode.children)
  | .value _ _ selections => Selection.keysAll selections
  | .object _ _ _ selections => Selection.keysAll selections

end Spot

namespace Context

variable {ctx : Context σ}

theorem call?_rename (o : ObjectType σ) (parent : Value) (nodes : List (FieldNode Selection))
    (path : Path) : ctx.call? o parent (nodes.map (FieldNode.rename ρ)) (path.rename ρ) =
      (ctx.call? o parent nodes path).map (Call.rename ρ) := by
  cases nodes with
  | nil => rfl
  | cons node rest =>
    rw [List.map_cons, call?, call?, FieldNode.name_rename, FieldNode.arguments_rename]
    by_cases hn : node.name = "__typename"
    · rw [if_pos hn, if_pos hn, Option.map_none]
    · rw [if_neg hn, if_neg hn]
      cases o.field? node.name with
      | none => rfl
      | some field =>
        dsimp only
        cases ctx.schema.registry.coerceArguments field node.arguments ctx.vars with
        | error e => rfl
        | ok arguments => cases field.resolver? <;> rfl

/-- A field under a renamed key is the one under the key before, as no two keys become one. -/
theorem exists_mem_of_mem_rename {o : ObjectType σ} {selections : List Selection}
    {fields : Outcome.Fields} (hρ : Set.InjOn ρ {key | key ∈ Selection.keysAll selections})
    (hk : Keyed.keys fields = Keyed.keys (ctx.schema.registry.collect o selections))
    {key' : String} {nodes' : List (FieldNode Selection)} {call?' : Option Call}
    {outcome' : Outcome}
    (hn' : (key', nodes') ∈ ctx.schema.registry.collect o (Selection.renameAll ρ selections))
    (hf' : (key', call?', outcome') ∈ Outcome.renameFields ρ fields) :
    ∃ key nodes call? outcome, (key, nodes) ∈ ctx.schema.registry.collect o selections ∧
      (key, call?, outcome) ∈ fields ∧ key' = ρ key ∧ nodes' = nodes.map (FieldNode.rename ρ) ∧
      call?' = call?.map (Call.rename ρ) ∧ outcome' = outcome.rename ρ := by
  rw [Registry.collect_rename hρ] at hn'
  rw [Outcome.renameFields_eq_map] at hf'
  obtain ⟨⟨key, nodes⟩, hn, heq⟩ := List.mem_map.1 hn'
  obtain ⟨⟨key₁, call?, outcome⟩, hf, heq₁⟩ := List.mem_map.1 hf'
  simp only [Prod.map_apply, Prod.mk.injEq] at heq heq₁
  have hkey : key ∈ Selection.keysAll selections :=
    Registry.keys_collect_subset _ (List.mem_map_of_mem (f := Prod.fst) hn)
  have hkey₁ : key₁ ∈ Selection.keysAll selections := by
    refine Registry.keys_collect_subset (r := ctx.schema.registry) (o := o) _ ?_
    rw [← hk]
    exact List.mem_map_of_mem (f := Prod.fst) hf
  obtain rfl : key₁ = key := hρ hkey₁ hkey (heq₁.1.trans heq.1.symm)
  exact ⟨key₁, nodes, call?, outcome, hn, hf, heq.1.symm, heq.2.symm, heq₁.2.1.symm,
    heq₁.2.2.symm⟩

/-- **Renamed requests have the renamed outcomes**, if their response keys stay apart. -/
theorem Yields.rename {spot : Spot σ} {path : Path} {o : Outcome} (h : ctx.Yields spot path o)
    (hρ : Set.InjOn ρ {key | key ∈ spot.keys}) :
    ctx.Yields (spot.rename ρ) (path.rename ρ) (o.rename ρ) := by
  induction h with
  | typename hn => exact .typename hn
  | refused hn hf ha => exact .refused hn hf ha
  | unresolved hn hf ha hr => exact .unresolved hn hf ha hr
  | resolved hn hf ha hr _ ih =>
    refine .resolved hn hf ha hr ?_
    rw [← List.map_cons, FieldNode.flatMap_children_rename]
    exact ih hρ
  | null => exact .null
  | misfit hv hs => exact .misfit hv hs
  | leaf hv hs => exact .leaf hv hs
  | @list _ _ _ _ _ vs items hv hs hl _ ih =>
    have hl' : (Outcome.renameItems ρ items).length = vs.length := by
      rw [Outcome.renameItems_eq_map, List.length_map, hl]
    refine .list hv hs hl' ?_
    intro i v o' hi ho'
    rw [Outcome.renameItems_eq_map, List.getElem?_map] at ho'
    obtain ⟨o, ho, rfl⟩ := Option.map_eq_some_iff.1 ho'
    have hitem := ih i v o hi ho hρ
    rwa [Path.rename_index] at hitem
  | object hv hs _ ih => exact .object hv hs (ih hρ)
  | @fields type o v selections path fields hk hc _ ih =>
    refine .fields ?_ ?_ ?_
    · rw [Outcome.keys_renameFields, hk, Registry.collect_rename hρ, Registry.keys_renameGroups]
    · intro key' nodes' call?' outcome' hn' hf'
      obtain ⟨key, nodes, call?, outcome, hn, hf, rfl, rfl, rfl, rfl⟩ :=
        exists_mem_of_mem_rename hρ hk hn' hf'
      rw [hc key nodes call? outcome hn hf, ← Path.rename_field, call?_rename]
    · intro key' nodes' call?' outcome' hn' hf'
      obtain ⟨key, nodes, call?, outcome, hn, hf, rfl, rfl, rfl, rfl⟩ :=
        exists_mem_of_mem_rename hρ hk hn' hf'
      have hchildren := Registry.keysAll_children_subset_of_mem_collect hn
      have houtcome := ih key nodes call? outcome hn hf (hρ.mono hchildren)
      rwa [Path.rename_field] at houtcome

end Context

end GraphQL
