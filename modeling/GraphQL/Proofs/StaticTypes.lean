import GraphQL.Proofs.Selections

/-!
# Static types at run time

An operation is bound on static types and executed on the object types that values turn out to have.
`Schema.MeantFor` says that a selection stands in the operation on a static type whose place the
type at hand may take. Everything that an execution selects is meant for the type that it is
selected from (`Covered.step`), as far as declarations agree: an abstract type that does not declare
a field lends it the declaration of its first possible type that does, and nodes that share a
response key are executed by the first of them. Where the other possible types and the other nodes
agree (`Schema.Coherent`), sub-selections fit wherever an execution comes
(`execute_selections_fit`). Where they do not, an operation that can be bound may complete an object
from which nothing is selected (`not_execute_selections_fit_object`).
-/

namespace GraphQL

namespace Selection

mutual

/-- The field and those below it. -/
def deepNodes : Selection → List (FieldNode Selection)
  | .field ⟨alias?, name, arguments, none⟩ => [⟨alias?, name, arguments, none⟩]
  | .field ⟨alias?, name, arguments, some selections⟩ =>
    ⟨alias?, name, arguments, some selections⟩ :: deepNodesAll selections
  | .fragment _ selections => deepNodesAll selections

/-- All the fields of the selections, at every depth. -/
def deepNodesAll : List Selection → List (FieldNode Selection)
  | [] => []
  | selection :: rest => selection.deepNodes ++ deepNodesAll rest

end

theorem deepNodes_field (node : FieldNode Selection) :
    (field node).deepNodes = node :: deepNodesAll node.children := by
  obtain ⟨alias?, name, arguments, _ | selections⟩ := node
  · rw [deepNodes, FieldNode.children, Option.getD_none, deepNodesAll]
  · rw [deepNodes, FieldNode.children, Option.getD_some]

theorem deepNodesAll_eq_flatMap (selections : List Selection) :
    deepNodesAll selections = selections.flatMap deepNodes := by
  induction selections with
  | nil => rfl
  | cons selection rest ih => rw [deepNodesAll, List.flatMap_cons, ih]

theorem mem_deepNodesAll_iff {node : FieldNode Selection} {selections : List Selection} :
    node ∈ deepNodesAll selections ↔ ∃ x ∈ selections, node ∈ x.deepNodes := by
  rw [deepNodesAll_eq_flatMap, List.mem_flatMap]

end Selection

/-- A node that is collected is among the fields of the selections, with those below it. -/
theorem Registry.mem_deepNodesAll_of_mem_collect {σ : Type} {r : Registry σ} {o : ObjectType σ}
    {selections : List Selection} {key : String} {nodes : List (FieldNode Selection)}
    (h : (key, nodes) ∈ r.collect o selections) {node : FieldNode Selection} (hn : node ∈ nodes) :
    node ∈ Selection.deepNodesAll selections ∧
      ∀ x ∈ Selection.deepNodesAll node.children, x ∈ Selection.deepNodesAll selections := by
  obtain ⟨rfl, -⟩ := mem_collect_iff.1 h
  have hnodes : ∀ x ∈ (Selection.field node).deepNodes, x ∈ Selection.deepNodesAll selections := by
    refine of_mem_flatten (P := fun s => ∀ x ∈ s.deepNodes, x ∈ Selection.deepNodesAll selections)
      ?_ selections ?_ (List.mem_of_mem_filter hn)
    · intro _ inner _ hinner x hx y hy
      rw [Selection.deepNodes] at hinner
      exact hinner y (Selection.mem_deepNodesAll_iff.2 ⟨x, hx, hy⟩)
    · intro x hx y hy
      exact Selection.mem_deepNodesAll_iff.2 ⟨x, hx, hy⟩
  rw [Selection.deepNodes_field] at hnodes
  exact ⟨hnodes node List.mem_cons_self, fun x hx => hnodes x (List.mem_cons_of_mem node hx)⟩

namespace Schema

variable {σ : Type} {s : Schema σ} {operation : Operation}

/-! ## Types that take the place of others -/

/-- Values of the first type may stand where the second is expected. -/
def Narrows (s : Schema σ) (sub super : String) : Prop :=
  s.registry.isSubtype (.named sub) (.named super) = true

/-- From a value of the first type can be selected what is selected from the second: nothing if both
end in leaves, and else the first ends in the type that the second does, or one possible for it. -/
def Suits (s : Schema σ) (own bound : TypeRef) : Prop :=
  (s.registry.isComposite own = false ∧ s.registry.isComposite bound = false) ∨
    s.Narrows own.innermost bound.innermost

theorem narrows_iff {sub super : String} :
    s.Narrows sub super ↔ sub = super ∨ s.registry.isPossible super sub = true := by
  unfold Narrows
  rw [Registry.isSubtype, Bool.or_eq_true, beq_iff_eq]

theorem Narrows.refl (s : Schema σ) (name : String) : s.Narrows name name :=
  narrows_iff.2 (.inl rfl)

theorem Narrows.trans {a b c : String} (hab : s.Narrows a b) (hbc : s.Narrows b c) :
    s.Narrows a c :=
  s.wellFormed.isSubtype_trans hab hbc

theorem narrows_of_fragmentApplies {condition : String} {o : ObjectType σ}
    (h : s.registry.fragmentApplies condition o.name = true) : s.Narrows o.name condition := by
  rw [Registry.fragmentApplies, Bool.or_eq_true, beq_iff_eq] at h
  exact narrows_iff.2 (h.imp_left Eq.symm)

theorem Suits.refl (s : Schema σ) (type : TypeRef) : s.Suits type type :=
  .inr (.refl s type.innermost)

theorem suits_of_isSubtype {own bound : TypeRef}
    (h : s.registry.isSubtype own bound = true) : s.Suits own bound :=
  .inr (narrows_iff.2 (Registry.innermost_of_isSubtype h))

theorem Suits.isComposite_eq {own bound : TypeRef} (h : s.Suits own bound) :
    s.registry.isComposite own = s.registry.isComposite bound := by
  rcases h with ⟨hown, hbound⟩ | h
  · rw [hown, hbound]
  · have heq : s.registry.isComposite (.named own.innermost) =
        s.registry.isComposite (.named bound.innermost) :=
      s.isComposite_of_isSubtype h
    exact heq

theorem Suits.narrows {own bound : TypeRef} (h : s.Suits own bound)
    (hc : s.registry.isComposite own = true) : s.Narrows own.innermost bound.innermost := by
  rcases h with ⟨hown, -⟩ | h
  · rw [hown] at hc
    cases hc
  · exact h

/-! ## Declarations that agree -/

/-- The possible types of a type that does not declare the field itself are of one mind on it: what
they declare suits what the first of them declares, to which the field is bound. -/
def Agrees (s : Schema σ) (owner : TypeDef σ) (key : String) : Prop :=
  ∀ bound, owner.field? key = none → s.fieldFor? owner key = some bound →
    ∀ o ∈ s.registry.possibleTypes owner.name, ∀ own, o.field? key = some own →
      s.Suits own.type bound.type

/-- Nodes that share a response key can be executed by the first of them: on every object type that
may stand for the named type, the field of the first suits the field of any other that has a
selection set, and so it goes on with what is selected below them all. -/
inductive Merges (s : Schema σ) : String → List Selection → Prop where
  | intro {name selections}
    (hfirst : ∀ o key node rest field, s.registry.get? o.name = some (.object o) →
      s.Narrows o.name name → (key, node :: rest) ∈ s.registry.collect o selections →
      o.field? node.name = some field →
      ∀ other ∈ rest, other.selections?.isSome = true →
      ∀ own, o.field? other.name = some own → s.Suits field.type own.type)
    (hbelow : ∀ o key node rest field, s.registry.get? o.name = some (.object o) →
      s.Narrows o.name name → (key, node :: rest) ∈ s.registry.collect o selections →
      o.field? node.name = some field →
      Merges s field.type.innermost ((node :: rest).flatMap FieldNode.children)) :
    Merges s name selections

/-- The declarations that an operation makes use of agree. -/
structure Coherent (s : Schema σ) (operation : Operation) : Prop where
  agrees : ∀ owner node, s.Occurs operation owner (.field node) → s.Agrees owner node.name
  merges : ∀ name, s.rootName? operation.kind = some name → s.Merges name operation.selections

theorem Merges.narrow {sub super : String} {selections : List Selection}
    (hn : s.Narrows sub super) (h : s.Merges super selections) : s.Merges sub selections := by
  cases h with
  | intro hfirst hbelow =>
    constructor
    · intro o key node rest field ho hsub
      exact hfirst o key node rest field ho (hsub.trans hn)
    · intro o key node rest field ho hsub
      exact hbelow o key node rest field ho (hsub.trans hn)

/-- An object type that may stand for a static type declares a field that suits the declaration to
which it was bound on the static type. -/
theorem Agrees.suits {owner : TypeDef σ} {o : ObjectType σ} {key : String} {own bound : Field σ}
    (h : s.Agrees owner key) (howner : s.registry.get? owner.name = some owner)
    (ho : s.registry.get? o.name = some (.object o)) (hn : s.Narrows o.name owner.name)
    (hown : o.field? key = some own) (hbound : s.fieldFor? owner key = some bound) :
    s.Suits own.type bound.type := by
  rcases narrows_iff.1 hn with hname | hp
  · -- The static type is the object type.
    rw [hname, howner, Option.some.injEq] at ho
    subst ho
    have hfield : (TypeDef.object o).field? key = some own := hown
    rw [fieldFor?, hfield, Option.some.injEq] at hbound
    exact hbound ▸ Suits.refl s own.type
  · cases hd : owner.field? key with
    | none => exact h bound hd hbound o (Registry.mem_possibleTypes_iff.2 ⟨ho, hp⟩) own hown
    | some inherited =>
      rw [fieldFor?, hd, Option.some.injEq] at hbound
      subst hbound
      -- Only interfaces declare fields for other types, and these keep to what is declared.
      cases owner with
      | interface i =>
        have hi : i.name ∈ o.interfaces := by
          have hget : s.registry.get? i.name = some (.interface i) := howner
          rw [TypeDef.name, Registry.isPossible, hget, Registry.object?_eq_some_iff.2 ho] at hp
          simpa using hp
        obtain ⟨i', hi', himplements⟩ := s.implements_of_mem ho hi
        have heq : i = i' := by
          have hget : s.registry.get? i.name = some (.interface i) := howner
          rw [hget, Option.some.injEq, TypeDef.interface.injEq] at hi'
          exact hi'
        obtain ⟨own', hown', hsub⟩ := himplements.exists_field? (heq ▸ hd)
        rw [hown, Option.some.injEq] at hown'
        exact suits_of_isSubtype (hown' ▸ hsub)
      | object o' =>
        have hnone := Registry.isPossible_object howner o.name
        rw [hp] at hnone
        cases hnone
      | _ => cases hd

/-! ## Operations whose declarations agree -/

/-- A single possible type agrees with itself. -/
theorem agrees_of_length_le {owner : TypeDef σ} {key : String}
    (h : (s.registry.possibleTypes owner.name).length ≤ 1) : s.Agrees owner key := by
  intro bound hd hbound o ho own hown
  rw [fieldFor?, hd] at hbound
  dsimp only at hbound
  split at hbound
  · obtain ⟨first, hfirst, hf⟩ := List.exists_of_findSome?_eq_some hbound
    have heq : first = o := by
      cases hp : s.registry.possibleTypes owner.name with
      | nil => simp [hp] at ho
      | cons only rest =>
        rw [hp, List.length_cons] at h
        have hrest : rest = [] := List.eq_nil_of_length_eq_zero (by omega)
        rw [hp, hrest, List.mem_singleton] at hfirst ho
        rw [hfirst, ho]
    rw [heq, hown, Option.some.injEq] at hf
    exact hf ▸ Suits.refl s own.type
  · cases hbound

/-- Nodes merge where no two fields share a response key. -/
theorem merges_of_names {all : List (FieldNode Selection)}
    (hall : ∀ a ∈ all, ∀ b ∈ all, a.responseKey = b.responseKey → a.name = b.name)
    (name : String) (selections : List Selection)
    (h : ∀ node ∈ Selection.deepNodesAll selections, node ∈ all) : s.Merges name selections := by
  constructor
  · intro o key node rest field _ _ hn hf other hother _ own hown
    have hmem : ∀ n ∈ node :: rest, n ∈ all ∧ n.responseKey = key := by
      intro n hnode
      exact ⟨h n (Registry.mem_deepNodesAll_of_mem_collect hn hnode).1,
        Registry.responseKey_of_mem_collect hn hnode⟩
    obtain ⟨hfirst, hkey⟩ := hmem node List.mem_cons_self
    obtain ⟨hafter, hkey'⟩ := hmem other (List.mem_cons_of_mem node hother)
    rw [← hall node hfirst other hafter (hkey.trans hkey'.symm), hf, Option.some.injEq] at hown
    exact hown ▸ Suits.refl s field.type
  · intro o key node rest field _ _ hn _
    have hlt := Registry.depthAll_children_lt_of_mem_collect hn
    refine merges_of_names hall _ _ ?_
    intro n hnode
    obtain ⟨x, hx, hnode⟩ := Selection.mem_deepNodesAll_iff.1 hnode
    obtain ⟨other, hother, hx⟩ := List.mem_flatMap.1 hx
    have hbelow := (Registry.mem_deepNodesAll_of_mem_collect hn hother).2
    exact h n (hbelow n (Selection.mem_deepNodesAll_iff.2 ⟨x, hx, hnode⟩))
termination_by Selection.depthAll selections

/-- Declarations agree where no two fields share a response key and no field is left to possible
types that do not agree on it. -/
theorem coherent_of_names
    (hnames : ∀ a ∈ Selection.deepNodesAll operation.selections,
      ∀ b ∈ Selection.deepNodesAll operation.selections,
        a.responseKey = b.responseKey → a.name = b.name)
    (hagrees : ∀ owner node, s.Occurs operation owner (.field node) → s.Agrees owner node.name) :
    s.Coherent operation :=
  ⟨hagrees, fun name _ => merges_of_names hnames name operation.selections fun _ h => h⟩

/-! ## What selections are meant for -/

/-- The selection stands in the operation on a static type whose place the named type may take. -/
def MeantFor (s : Schema σ) (operation : Operation) (name : String) (selection : Selection) :
    Prop :=
  ∃ owner, s.Occurs operation owner selection ∧ s.Narrows name owner.name

namespace MeantFor

variable {name : String}

theorem narrow {sub : String} {selection : Selection} (hn : s.Narrows sub name)
    (h : s.MeantFor operation name selection) : s.MeantFor operation sub selection := by
  obtain ⟨owner, hocc, howner⟩ := h
  exact ⟨owner, hocc, hn.trans howner⟩

/-- What stands in a fragment that applies to an object type is meant for it. -/
theorem inside (hb : s.bind operation = []) {o : ObjectType σ} {condition? : Option String}
    {selections : List Selection}
    (ha : ∀ condition ∈ condition?, s.registry.fragmentApplies condition o.name = true)
    (h : s.MeantFor operation o.name (.fragment condition? selections)) :
    ∀ x ∈ selections, s.MeantFor operation o.name x := by
  obtain ⟨owner, hocc, hn⟩ := h
  obtain ⟨t, ht, hall⟩ := hocc.inside hb
  have hnarrows : s.Narrows o.name t.name := by
    cases condition? with
    | none =>
      have heq : owner = t := Except.ok.inj ht
      exact heq ▸ hn
    | some condition =>
      rw [name_of_bindCondition ht]
      exact narrows_of_fragmentApplies (ha condition rfl)
  exact fun x hm => ⟨t, hall x hm, hnarrows⟩

variable {o : ObjectType σ} {node : FieldNode Selection} {own : Field σ}

/-- A field that is meant for an object type has a selection set just if what the object type
declares ends in a composite type. -/
theorem fits (hb : s.bind operation = []) (hc : s.Coherent operation)
    (ho : s.registry.get? o.name = some (.object o)) (hown : o.field? node.name = some own)
    (h : s.MeantFor operation o.name (.field node)) :
    node.selections?.isSome = s.registry.isComposite own.type := by
  obtain ⟨owner, hocc, hn⟩ := h
  have hname : node.name ≠ "__typename" := by
    have hvalid := (s.validField_of_field? ho hown).name_ne
    rwa [(Field.of_find? hown).2] at hvalid
  obtain ⟨bound, hbound, hfits⟩ := hocc.fits hb hname
  have hsuits := (hc.agrees owner node hocc).suits hocc.get?_owner ho hn hown hbound
  rw [hfits, hsuits.isComposite_eq]

/-- What is selected below a field that is meant for an object type is meant for the type in which
the object type's own declaration ends. -/
theorem below (hb : s.bind operation = []) (hc : s.Coherent operation)
    (ho : s.registry.get? o.name = some (.object o)) (hown : o.field? node.name = some own)
    (h : s.MeantFor operation o.name (.field node)) :
    ∀ x ∈ node.children, s.MeantFor operation own.type.innermost x := by
  intro x hm
  have hs := FieldNode.isSome_of_mem_children hm
  have hfits := h.fits hb hc ho hown
  obtain ⟨owner, hocc, hn⟩ := h
  obtain ⟨-, bound, target, hbound, htarget, -, hall⟩ := hocc.children hb hs
  have hsuits := (hc.agrees owner node hocc).suits hocc.get?_owner ho hn hown hbound
  have htarget : target.name = bound.type.innermost := Registry.name_of_get? htarget
  have hnarrows := hsuits.narrows (hfits ▸ hs)
  exact ⟨target, hall x hm, htarget ▸ hnarrows⟩

end MeantFor

/-! ## What an execution selects is meant for what it is selected from -/

/-- Everything that is selected at a position is meant for the type that it is selected from. -/
inductive Covered (s : Schema σ) (operation : Operation) : Spot σ → Prop where
  | field {o parent key nodes selections} (ho : s.registry.get? o.name = some (.object o))
    (hn : (key, nodes) ∈ s.registry.collect o selections) (hm : s.Merges o.name selections)
    (h : ∀ node ∈ nodes, s.MeantFor operation o.name (.field node)) :
    Covered s operation (.field o parent nodes)
  | value {type v selections} (hm : s.Merges type.innermost selections)
    (h : ∀ x ∈ selections, s.MeantFor operation type.innermost x) :
    Covered s operation (.value type v selections)
  | object {type o v selections} (ho : s.registry.get? o.name = some (.object o))
    (hm : s.Merges o.name selections) (h : ∀ x ∈ selections, s.MeantFor operation o.name x) :
    Covered s operation (.object type o v selections)

/-- A field with a selection set, other than the first of its group, is executed as one of a type
that its own selections are meant for. -/
theorem suits_first (hb : s.bind operation = []) (hc : s.Coherent operation)
    {o : ObjectType σ} {key : String} {node other : FieldNode Selection}
    {rest : List (FieldNode Selection)} {selections : List Selection} {field : Field σ}
    (ho : s.registry.get? o.name = some (.object o))
    (hn : (key, node :: rest) ∈ s.registry.collect o selections) (hm : s.Merges o.name selections)
    (h : ∀ node' ∈ node :: rest, s.MeantFor operation o.name (.field node'))
    (hf : o.field? node.name = some field) (hother : other ∈ node :: rest)
    (hs : other.selections?.isSome = true) :
    ∃ own, o.field? other.name = some own ∧ s.Suits field.type own.type ∧
      s.registry.isComposite own.type = true := by
  have hmeant := h other hother
  obtain ⟨owner, hocc, -⟩ := hmeant
  obtain ⟨hname, -⟩ := hocc.children hb hs
  have hdeclares := Registry.declares_of_mem_collect hn hother
  rw [ObjectType.declares, Bool.or_eq_true, beq_iff_eq] at hdeclares
  obtain ⟨own, hown⟩ := Option.isSome_iff_exists.1 (hdeclares.resolve_left hname)
  have hcomposite : s.registry.isComposite own.type = true := by
    rw [← (h other hother).fits hb hc ho hown, hs]
  refine ⟨own, hown, ?_, hcomposite⟩
  rcases List.mem_cons.1 hother with rfl | hrest
  · rw [hf, Option.some.injEq] at hown
    exact hown ▸ Suits.refl s field.type
  · cases hm with
    | intro hfirst _ =>
      exact hfirst o key node rest field ho (.refl s o.name) hn hf other hrest hs own hown

/-- **One step of an execution keeps selections and types together.** -/
theorem Covered.step {ctx : Context σ} (hb : ctx.schema.bind operation = [])
    (hc : ctx.schema.Coherent operation) {a b : Spot σ} {p : Path} (hs : ctx.Step a p b)
    (h : ctx.schema.Covered operation a) : ctx.schema.Covered operation b := by
  cases hs with
  | @resolve o parent node rest field arguments v hn hf ha hr =>
    cases h with
    | @field _ _ key _ selections ho hgroup hm h =>
      have hbelow :
          ctx.schema.Merges field.type.innermost ((node :: rest).flatMap FieldNode.children) := by
        cases hm with
        | intro _ hbelow => exact hbelow o key node rest field ho (.refl _ o.name) hgroup hf
      refine .value hbelow ?_
      intro x hx
      obtain ⟨other, hother, hx⟩ := List.mem_flatMap.1 hx
      obtain ⟨own, hown, hsuits, hcomposite⟩ :=
        suits_first hb hc ho hgroup hm h hf hother (FieldNode.isSome_of_mem_children hx)
      have hnarrows := hsuits.narrows (hsuits.isComposite_eq ▸ hcomposite)
      exact ((h other hother).below hb hc ho hown x hx).narrow hnarrows
  | item hv hshape hi =>
    cases h with
    | value hm h =>
      rw [← Registry.innermost_of_shape hshape] at hm h
      exact .value hm h
  | belong hv hshape =>
    cases h with
    | value hm h =>
      have hnarrows := narrows_iff.2 (Registry.possible_of_shape hshape)
      refine .object (Registry.get?_of_shape hshape) (hm.narrow hnarrows) ?_
      exact fun x hx => (h x hx).narrow hnarrows
  | select hn =>
    cases h with
    | object ho hm h =>
      refine .field ho hn hm ?_
      intro node hnode
      obtain ⟨rfl, -⟩ := Registry.mem_collect_iff.1 hn
      exact Registry.of_mem_flatten (fun _ _ ha hmeant => hmeant.inside hb ha) _ h
        (List.mem_of_mem_filter hnode)

variable {run : Run}

theorem Visits.covered (hb : s.bind run.operation = []) (hc : s.Coherent run.operation) {p : Path}
    {spot : Spot σ} (h : s.Visits run p spot) : s.Covered run.operation spot := by
  obtain ⟨root, hroot, hl⟩ := h
  obtain ⟨name, hname, ho⟩ := Option.bind_eq_some_iff.1 hroot
  have hget := Registry.object?_eq_some_iff.1 ho
  refine hl.invariant (Covered.step hb hc) (.object (Registry.get?_name hget) ?_ ?_)
  · have heq : root.name = name := Registry.name_of_get? hget
    exact heq ▸ hc.merges name hname
  · intro selection hm
    exact ⟨.object root, .root hname hget hm, .refl s root.name⟩

/-- **Sub-selections fit at run time.** If an operation can be bound and the declarations that it
makes use of agree, then wherever a field is executed on an object type, its first node has a
selection set just if the object type declares the field with a type that ends in a composite one,
and no other node of its group has one if that is a leaf. -/
theorem execute_selections_fit (hb : s.bind run.operation = []) (hc : s.Coherent run.operation)
    {p : Path} {o : ObjectType σ} {parent : Value} {node : FieldNode Selection}
    {rest : List (FieldNode Selection)} {field : Field σ}
    (hv : s.Visits run p (.field o parent (node :: rest)))
    (hf : o.field? node.name = some field) :
    (node.selections?.isSome = true ↔ s.registry.isComposite field.type = true) ∧
      ∀ other ∈ rest, other.selections?.isSome = true →
        s.registry.isComposite field.type = true := by
  cases hv.covered hb hc with
  | field ho hgroup hm h =>
    constructor
    · rw [(h node List.mem_cons_self).fits hb hc ho hf]
    · intro other hother hs
      obtain ⟨own, -, hsuits, hcomposite⟩ :=
        suits_first hb hc ho hgroup hm h hf (List.mem_cons_of_mem node hother) hs
      rw [hsuits.isComposite_eq, hcomposite]

/-- Every field of the sample keeps its name as its key, and all that is named is an item. -/
theorem coherent_sample : Sample.schema.Coherent Sample.operation := by
  refine coherent_of_names (by decide) ?_
  intro owner node hocc
  have hone : ∀ name ∈ Sample.schema.registry.types.map TypeDef.name,
      (Sample.schema.registry.possibleTypes name).length ≤ 1 := by decide
  have hmem := Registry.mem_types_of_get? hocc.get?_owner
  exact agrees_of_length_le (hone owner.name (List.mem_map_of_mem hmem))

/-- The parts are asked for in a fragment on what is found, and an item has parts. -/
theorem execute_selections_fit_sample :
    Sample.schema.bind Sample.run.operation = [] ∧ Sample.schema.Coherent Sample.run.operation ∧
      Sample.schema.Visits Sample.run [.field "found", .field "parts"]
        (.field Sample.item Sample.found [⟨none, "parts", [], some [Sample.field "name" []]⟩]) ∧
      Sample.schema.registry.isComposite (.list (.nonNull (.named "Item"))) = true := by
  have hb : Sample.schema.bind Sample.run.operation = [] := rfl
  have hl : Context.Leads ⟨0, Sample.schema, []⟩
      (.object (.named "Query") (Sample.root Sample.findLate) Sample.run.root
        Sample.run.operation.selections)
      ([.field "found"] ++ ([] ++ ([] ++ ([.field "parts"] ++ []))))
      (.field Sample.item Sample.found [⟨none, "parts", [], some [Sample.field "name" []]⟩]) := by
    refine .step (.select (.head _)) ?_
    refine .step (.resolve (by decide) rfl rfl ⟨(), (), rfl⟩) ?_
    refine .step (.belong nofun rfl) ?_
    exact .single (.select (.tail _ (.tail _ (.head _))))
  have hv : Sample.schema.Visits Sample.run [.field "found", .field "parts"]
      (.field Sample.item Sample.found [⟨none, "parts", [], some [Sample.field "name" []]⟩]) :=
    ⟨_, rfl, hl⟩
  exact ⟨hb, coherent_sample, hv, (execute_selections_fit hb coherent_sample hv rfl).1.1 rfl⟩

end Schema

/-! ## Declarations that differ -/

namespace Divided

/-- A type in which the field is a leaf. -/
def flat : ObjectType Unit :=
  ⟨"Flat", none, .eager [⟨"x", none, [], .named "String", .current, none⟩], []⟩

/-- A type in which the field is an object. -/
def deep : ObjectType Unit :=
  ⟨"Deep", none, .eager [⟨"x", none, [], .named "Flat", .current, none⟩], []⟩

def either : UnionType :=
  ⟨"Either", none, ["Flat", "Deep"], none⟩

def root : ObjectType Unit :=
  ⟨"Query", none, .eager
    [⟨"either", none, [], .named "Either", .current, none⟩,
      ⟨"flat", none, [], .named "Flat", .current, none⟩,
      ⟨"deep", none, [], .named "Deep", .current, none⟩], []⟩

def schema : Schema Unit :=
  ⟨⟨[.object flat, .object deep, .union either, .object root], by
      change ["String", "Int", "Float", "Boolean", "ID", "Flat", "Deep", "Either", "Query"].Nodup
      decide⟩,
    "Query", none, false, rfl, rfl, rfl, by simp⟩

/-- A value of the second type. -/
def value : Value :=
  .object [("__typename", .string "Deep"), ("x", .object [("x", .string "y")])]

/-- Asks for the field on the union, which binds it to the first member. -/
def across : Run :=
  ⟨⟨.query, none, [Sample.field "either" [Sample.field "x" []]]⟩, .object [("either", value)], []⟩

/-- Asks for fields of both types under one response key; the first of them decides the type. -/
def merged : Run :=
  ⟨⟨.query, none,
    [.field ⟨some "k", "deep", [], some [Sample.field "__typename" []]⟩,
      .field ⟨some "k", "flat", [], some [Sample.field "x" []]⟩]⟩, .object [("deep", value)], []⟩

/-- **Selection sets need not fit the object types that fields are executed on.** Both operations
can be bound; both complete an object from which nothing is selected. -/
theorem not_execute_selections_fit_object :
    schema.bind across.operation = [] ∧ schema.bind merged.operation = [] ∧
      (schema.execute none across ()).ending =
        .ok (.ok ⟨.object [("either", .object [("x", .object [])])], []⟩) ∧
      (schema.execute none merged ()).ending =
        .ok (.ok ⟨.object [("k", .object [("__typename", .string "Deep"), ("x", .object [])])],
          []⟩) ∧
      ¬ ∀ (run : Run) (p : Path) (o : ObjectType Unit) (parent : Value)
          (node : FieldNode Selection) (rest : List (FieldNode Selection)) (field : Field Unit),
        schema.bind run.operation = [] → schema.Visits run p (.field o parent (node :: rest)) →
        node.name ≠ "__typename" → o.field? node.name = some field →
        (node.selections?.isSome = true ↔ schema.registry.isComposite field.type = true) := by
  have hsorted : LocatedError.sorted [] = [] := List.mergeSort_nil
  have hacross : (schema.execute none across ()).ending =
      .ok (.ok ⟨.object [("either", .object [("x", .object [])])], LocatedError.sorted []⟩) :=
    Schema.ending_execute rfl 40 rfl
  have hmerged : (schema.execute none merged ()).ending =
      .ok (.ok ⟨.object [("k", .object [("__typename", .string "Deep"), ("x", .object [])])],
        LocatedError.sorted []⟩) :=
    Schema.ending_execute rfl 40 rfl
  rw [hsorted] at hacross hmerged
  refine ⟨rfl, rfl, hacross, hmerged, ?_⟩
  intro h
  have hleads : Context.Leads ⟨0, schema, []⟩
      (.object (.named "Query") root across.root across.operation.selections)
      ([.field "either"] ++ ([] ++ ([] ++ ([.field "x"] ++ []))))
      (.field deep value [⟨none, "x", [], none⟩]) := by
    refine .step (.select (.head _)) (.step (.resolve (by decide) rfl rfl rfl) ?_)
    exact .step (.belong nofun rfl) (.step (.select (.head _)) .here)
  have hfits := h across _ deep value ⟨none, "x", [], none⟩ [] _ rfl ⟨root, rfl, hleads⟩
    (by decide) rfl
  exact absurd (hfits.2 rfl) (by decide)

end Divided

end GraphQL
