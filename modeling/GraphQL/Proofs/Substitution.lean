import GraphQL.Proofs.Conformance
import GraphQL.Proofs.Lookups
import GraphQL.Proofs.NullPropagation
import GraphQL.Proofs.Stateless
import GraphQL.Proofs.Subtype

/-!
# Results may stand where a supertype is expected

What conforms to a type conforms to every type that it may stand for (`Conforms.of_isSubtype`). So
whoever selects fields of an interface need not know which object type a value belongs to: nothing
that is selected is left out (`Registry.flatten_eq_nodes`), and whatever is under a response key
conforms to the type that the interface declares (`execute_substitutes`).
-/

namespace GraphQL

namespace Context

variable {σ : Type} {ctx : Context σ} {v r : Value} {selections : List Selection}

/-! ## Subtypes conform -/

/-- A leaf type stands for nothing but itself. -/
theorem conforms_leaf_of_isSubtype {sub super : String} {t : TypeDef σ}
    {serialize : Value → Except FieldError Value}
    (h : ctx.schema.registry.isSubtype (.named sub) (.named super) = true)
    (ht : ctx.schema.registry.get? sub = some t) (hs : t.serialize? = some serialize)
    (hv : serialize v = .ok r) : ctx.Conforms (.value (.named super) v selections) r := by
  rcases Registry.innermost_of_isSubtype h with heq | hp
  · have heq : sub = super := heq
    exact heq ▸ .leaf ht hs hv
  · obtain ⟨o, ho⟩ := ctx.schema.exists_object_of_isPossible hp
    have ho : ctx.schema.registry.get? sub = some (.object o) := ho
    rw [ht, Option.some.injEq] at ho
    subst ho
    nomatch hs

/-- Whatever belongs to an object type that a type may be belongs to one that its supertypes may
be. -/
theorem mayBe_of_isSubtype {sub super : String} {o : ObjectType σ}
    (h : ctx.schema.registry.isSubtype (.named sub) (.named super) = true)
    (ho : ctx.schema.registry.MayBe sub o) : ctx.schema.registry.MayBe super o := by
  rcases Registry.innermost_of_isSubtype h with heq | hp
  · have heq : sub = super := heq
    exact heq ▸ ho
  · -- the subtype is an object type, which values of it belong to
    obtain ⟨o', ho'⟩ := ctx.schema.exists_object_of_isPossible hp
    have ho' : ctx.schema.registry.get? sub = some (.object o') := ho'
    have heq : o = o' := by
      rcases ho with ho | ho
      · rw [ho', Option.some.injEq, TypeDef.object.injEq] at ho
        exact ho.symm
      · rw [Registry.possibleTypes, ho'] at ho
        cases ho
    subst heq
    have hname : o.name = sub := Registry.name_of_get? ho'
    exact .inr (Registry.mem_possibleTypes_of_isPossible (hname ▸ ho') (hname ▸ hp))

/-- **What conforms to a type conforms to every type that it may stand for.** -/
theorem Conforms.of_isSubtype {sub super : TypeRef}
    (hsub : ctx.schema.registry.isSubtype sub super = true)
    (h : ctx.Conforms (.value sub v selections) r) :
    ctx.Conforms (.value super v selections) r := by
  fun_induction Registry.isSubtype ctx.schema.registry sub super generalizing v r with
  | case1 sub super ih =>
    cases h with
    | nonNull hr h => exact .nonNull hr (ih hsub h)
    | null ht => cases ht
  | case2 sub super _ ih =>
    cases h with
    | nonNull _ h => exact ih hsub h
    | null ht => cases ht
  | case3 sub super ih =>
    cases h with
    | null => exact .null rfl
    | list hl h =>
      refine .list hl ?_
      intro i v r hv hr
      exact ih hsub (h i v r hv hr)
  | case4 sub super =>
    cases h with
    | null => exact .null rfl
    | leaf ht hs hv => exact conforms_leaf_of_isSubtype hsub ht hs hv
    | composite ho h =>
      cases h with
      | object hk h => exact .composite (mayBe_of_isSubtype hsub ho) (.object hk h)
  | case5 => cases hsub

end Context

/-! ## Selections on an interface -/

namespace Selection

mutual

/-- The field nodes of a selection in document order, whatever their fragments apply to. -/
def nodes : Selection → List (FieldNode Selection)
  | .field node => [node]
  | .fragment _ selections => nodesAll selections

def nodesAll : List Selection → List (FieldNode Selection)
  | [] => []
  | selection :: rest => selection.nodes ++ nodesAll rest

end

end Selection

namespace InterfaceType

variable {σ : Type}

/-- The selection is made of fields of the interface and of `__typename`; fragments have no
condition or the interface itself. -/
inductive Offers (i : InterfaceType σ) : Selection → Prop where
  | typename {node} (hn : node.name = "__typename") : Offers i (.field node)
  | field {node f} (hf : i.field? node.name = some f) : Offers i (.field node)
  | fragment {condition? selections} (hc : ∀ condition ∈ condition?, condition = i.name)
    (h : ∀ selection ∈ selections, Offers i selection) : Offers i (.fragment condition? selections)

end InterfaceType

namespace Registry

variable {σ : Type} {r : Registry σ} {i : InterfaceType σ} {o : ObjectType σ}

theorem Implements.declares (h : r.Implements o i) {node : FieldNode Selection}
    (ho : i.Offers (.field node)) : o.declares node.name = true := by
  cases ho with
  | typename hn => simp [ObjectType.declares, hn]
  | field hf =>
    obtain ⟨own, hown, -⟩ := h.exists_field? hf
    simp [ObjectType.declares, hown]

mutual

theorem flattenSelection_eq_nodes (h : r.Implements o i)
    (hp : r.isPossible i.name o.name = true) : (selection : Selection) → i.Offers selection →
    r.flattenSelection o selection = selection.nodes
  | .field node, ho => by
    rw [flattenSelection, if_pos (h.declares ho), Selection.nodes]
  | .fragment none selections, ho => by
    cases ho with
    | fragment _ hs =>
      rw [flattenSelection, Selection.nodes]
      exact flatten_eq_nodes h hp selections hs
  | .fragment (some condition) selections, ho => by
    cases ho with
    | fragment hc hs =>
      have happlies : r.fragmentApplies condition o.name = true := by
        rw [hc condition rfl, fragmentApplies, hp, Bool.or_true]
      rw [flattenSelection, if_pos happlies, Selection.nodes]
      exact flatten_eq_nodes h hp selections hs

/-- Nothing that is selected on an interface is left out for an object that implements it. -/
theorem flatten_eq_nodes (h : r.Implements o i) (hp : r.isPossible i.name o.name = true) :
    (selections : List Selection) → (∀ selection ∈ selections, i.Offers selection) →
    r.flatten o selections = Selection.nodesAll selections
  | [], _ => by
    rw [flatten, Selection.nodesAll]
  | selection :: rest, ho => by
    have hselection := flattenSelection_eq_nodes h hp selection (ho selection List.mem_cons_self)
    have hrest := flatten_eq_nodes h hp rest fun x hx => ho x (List.mem_cons_of_mem _ hx)
    rw [flatten, Selection.nodesAll, hselection, hrest]

end

end Registry

/-! ## Objects in place of interfaces -/

namespace Context

variable {σ : Type} {ctx : Context σ}

/-- The entries of an object are as an interface promises: all response keys that are selected are
there, and under the key of a field stands what its answer, or `null` if it has none, conforms to by
the interface's declaration as by the object's own. -/
structure Substitutes (ctx : Context σ) (i : InterfaceType σ) (o : ObjectType σ) (parent : Value)
    (selections : List Selection) (entries : List (String × Value)) : Prop where
  keys : Keyed.keys entries =
    ((Selection.nodesAll selections).map FieldNode.responseKey).eraseDups
  conforms : ∀ key r, (key, r) ∈ entries → ∀ node rest inherited,
    Registry.nodesOf key (Selection.nodesAll selections) = node :: rest →
    i.field? node.name = some inherited →
    ∃ own v, o.field? node.name = some own ∧
      (v = .null ∨ ctx.Answers own parent node (.ok v)) ∧
      ctx.Conforms (.value own.type v ((node :: rest).flatMap FieldNode.children)) r ∧
      ctx.Conforms (.value inherited.type v ((node :: rest).flatMap FieldNode.children)) r

theorem Conforms.exists_value {o : ObjectType σ} {parent r : Value} {node : FieldNode Selection}
    {rest : List (FieldNode Selection)} {own : Field σ} (hn : node.name ≠ "__typename")
    (hf : o.field? node.name = some own) (h : ctx.Conforms (.field o parent (node :: rest)) r) :
    ∃ v, (v = .null ∨ ctx.Answers own parent node (.ok v)) ∧
      ctx.Conforms (.value own.type v ((node :: rest).flatMap FieldNode.children)) r := by
  cases h with
  | typename hn' => exact absurd hn' hn
  | unresolved _ hf' ht =>
    rw [hf, Option.some.injEq] at hf'
    exact ⟨.null, .inl rfl, .null (hf' ▸ ht)⟩
  | resolved _ hf' ha hg h =>
    rw [hf, Option.some.injEq] at hf'
    subst hf'
    refine ⟨_, .inr ?_, h⟩
    rw [Answers, ha]
    exact hg

/-- Data that conforms to an object type is as the interfaces of the object type promise. -/
theorem Conforms.substitutes {i : InterfaceType σ} {o : ObjectType σ} {type : TypeRef} {v : Value}
    {selections : List Selection} {entries : List (String × Value)}
    (hi : ctx.schema.registry.get? i.name = some (.interface i))
    (himplements : ctx.schema.registry.Implements o i)
    (hp : ctx.schema.registry.isPossible i.name o.name = true)
    (hoffers : ∀ selection ∈ selections, i.Offers selection)
    (h : ctx.Conforms (.object type o v selections) (.object entries)) :
    ctx.Substitutes i o v selections entries := by
  have hflatten := Registry.flatten_eq_nodes himplements hp selections hoffers
  cases h with
  | object hk hentries =>
    rw [hflatten] at hk hentries
    refine ⟨hk, ?_⟩
    intro key r hm node rest inherited hnodes hinherited
    have hr := hentries key r hm
    rw [hnodes] at hr
    obtain ⟨own, hown, hsub⟩ := himplements.exists_field? hinherited
    have hn : node.name ≠ "__typename" := by
      obtain ⟨hmem, hname⟩ := Field.of_find? hinherited
      exact hname ▸ (ctx.schema.validField hi rfl hmem).name_ne
    obtain ⟨v', hanswer, hv'⟩ := hr.exists_value hn hown
    exact ⟨own, v', hown, hanswer, hv', hv'.of_isSubtype hsub⟩

/-- Steps that stay at a position lead to its object, if it came out as one. -/
theorem Yields.exists_object {spot : Spot σ} {path : Path} {type : TypeRef} {name : String}
    {fields : Outcome.Fields} (h : ctx.Yields spot path (.object type name fields)) :
    ∃ o v selections, ctx.Leads spot [] (.object type o v selections) ∧
      ctx.Yields (.object type o v selections) path (.object type name fields) := by
  generalize houtcome : Outcome.object type name fields = outcome at h
  induction h with
  | resolved hn hf ha hr _ ih =>
    obtain ⟨o, v, selections, hl, hy⟩ := ih houtcome
    exact ⟨o, v, selections, .step (.resolve hn hf ha hr) hl, hy⟩
  | object hv hs _ ih =>
    obtain ⟨o, v, selections, hl, hy⟩ := ih houtcome
    exact ⟨o, v, selections, .step (.belong hv hs) hl, hy⟩
  | fields hk hc h =>
    obtain ⟨rfl, rfl, rfl⟩ := Outcome.object.inj houtcome
    exact ⟨_, _, _, .here, .fields hk hc h⟩
  | _ => nomatch houtcome

end Context

/-- The object type of a position is the named type that its declared type ends in, or possible for
it. -/
def Spot.Belongs {σ : Type} (r : Registry σ) : Spot σ → Prop
  | .object type o _ _ => r.get? o.name = some (.object o) ∧
    (o.name = type.innermost ∨ r.isPossible type.innermost o.name = true)
  | _ => True

theorem Spot.Belongs.step {σ : Type} {ctx : Context σ} {a b : Spot σ} {p : Path}
    (hs : ctx.Step a p b) (_ : a.Belongs ctx.schema.registry) : b.Belongs ctx.schema.registry := by
  cases hs with
  | belong _ hshape => exact ⟨Registry.get?_of_shape hshape, Registry.possible_of_shape hshape⟩
  | _ => trivial

namespace Schema

variable {σ : Type} {s : Schema σ} {run : Run}

theorem Visits.belongs {p : Path} {spot : Spot σ} (h : s.Visits run p spot) :
    spot.Belongs s.registry := by
  obtain ⟨root, hroot, hl⟩ := h
  obtain ⟨name, -, ho⟩ := Option.bind_eq_some_iff.1 hroot
  have hget := Registry.get?_name (Registry.object?_eq_some_iff.1 ho)
  exact hl.invariant Spot.Belongs.step ⟨hget, .inl rfl⟩

/-- An object at a position whose type ends in an interface implements the interface. -/
theorem Visits.implements {p : Path} {type : TypeRef} {o : ObjectType σ} {v : Value}
    {selections : List Selection} {i : InterfaceType σ}
    (h : s.Visits run p (.object type o v selections))
    (hi : s.registry.lookup? type = some (.interface i)) :
    s.registry.isPossible i.name o.name = true ∧ s.registry.Implements o i := by
  obtain ⟨ho, hbelongs⟩ := h.belongs
  have hget : s.registry.get? type.innermost = some (.interface i) := hi
  have hname : i.name = type.innermost := Registry.name_of_get? hget
  rcases hbelongs with heq | hp
  · rw [heq, hget] at ho
    nomatch ho
  · rw [← hname] at hp hget
    refine ⟨hp, ?_⟩
    unfold Registry.isPossible at hp
    rw [hget, Registry.object?_eq_some_iff.2 ho] at hp
    obtain ⟨i', hi', himplements⟩ := s.implements_of_mem ho (List.contains_iff_mem.1 hp)
    rw [hget, Option.some.injEq, TypeDef.interface.injEq] at hi'
    exact hi' ▸ himplements

/-- No response key that is selected on an interface is left out. -/
theorem Visits.keys_of_offers {p : Path} {type : TypeRef} {name : String} {o : ObjectType σ}
    {v : Value} {selections : List Selection} {fields : Outcome.Fields} {i : InterfaceType σ}
    (h : s.Visits run p (.object type o v selections))
    (hi : s.registry.lookup? type = some (.interface i))
    (hoffers : ∀ selection ∈ selections, i.Offers selection)
    (hy : Context.Yields ⟨0, s, run.vars⟩ (.object type o v selections) p
      (.object type name fields)) :
    Keyed.keys fields =
      ((Selection.nodesAll selections).map FieldNode.responseKey).eraseDups := by
  obtain ⟨hp, himplements⟩ := h.implements hi
  have hflatten := Registry.flatten_eq_nodes himplements hp selections hoffers
  cases hy with
  | fields hk =>
    rw [hk, Registry.keys_collect]
    exact congrArg (fun nodes => (nodes.map FieldNode.responseKey).eraseDups) hflatten

/-- **Results may stand where a supertype is expected.** What conforms to a type conforms to those
that it may stand for. And wherever an execution has reached an object by a type that ends in an
interface, with a selection made of the interface's fields, no response key is left out; and unless
the object is `null`, its data is as the interface promises. -/
theorem execute_substitutes (s : Schema σ) (run : Run) :
    (∀ sub super v selections r, s.registry.isSubtype sub super = true →
      Context.Conforms ⟨0, s, run.vars⟩ (.value sub v selections) r →
      Context.Conforms ⟨0, s, run.vars⟩ (.value super v selections) r) ∧
    ∀ limit? state out, (s.execute limit? run state).ending = .ok (.ok out) →
      ∃ outcome, s.Reaches run (s.execute limit? run state).log out outcome ∧
        ∀ p type name fields, outcome.at? p = some (.object type name fields) →
          (∃ o v selections, s.Visits run p (.object type o v selections) ∧
            Context.Yields ⟨0, s, run.vars⟩ (.object type o v selections) p
              (.object type name fields)) ∧
          ∀ i o v selections, s.registry.lookup? type = some (.interface i) →
            s.Visits run p (.object type o v selections) →
            Context.Yields ⟨0, s, run.vars⟩ (.object type o v selections) p
              (.object type name fields) →
            (∀ selection ∈ selections, i.Offers selection) →
            Keyed.keys fields =
              ((Selection.nodesAll selections).map FieldNode.responseKey).eraseDups ∧
            ∀ entries, out.data.at? p = some (.object entries) →
              Context.Substitutes ⟨0, s, run.vars⟩ i o v selections entries := by
  refine ⟨fun _ _ _ _ _ hsub hc => hc.of_isSubtype hsub, ?_⟩
  intro limit? state out hending
  obtain ⟨outcome, hr⟩ := (endsWith_execute hending).exists_outcome
  refine ⟨outcome, hr, ?_⟩
  intro p type name fields ha
  constructor
  · obtain ⟨spot, hv, hy⟩ := hr.yields.exists_visits ha
    obtain ⟨o, v, selections, hl, hy'⟩ := hy.exists_object
    exact ⟨o, v, selections, hv.of_leads hl, hy'⟩
  · intro i o v selections hi hv hy hoffers
    refine ⟨hv.keys_of_offers hi hoffers hy, ?_⟩
    intro entries hat
    obtain ⟨hp, himplements⟩ := hv.implements hi
    have hcompletion := Outcome.completion_of_at? hr.completion ha hat
    rcases hy.admits hcompletion with hc | ⟨hnull, -⟩
    · exact hc.substitutes (Registry.get?_name hi) himplements hp hoffers
    · nomatch hnull

end Schema

namespace Sample

/-- What is asked for of something named. -/
def asked : List Selection :=
  [field "__typename" [], field "name" []]

/-- Asks for the name of what is found, whatever that is. -/
def byName : Run :=
  ⟨⟨.query, none, [field "found" asked]⟩, .object [], []⟩

def itemData : List (String × Value) :=
  [("__typename", .string "Item"), ("name", .string "a")]

theorem offers_asked : ∀ selection ∈ asked, named.Offers selection := by
  intro selection hm
  rcases List.mem_cons.1 hm with rfl | hm
  · exact .typename rfl
  · rw [List.mem_singleton.1 hm]
    exact .field rfl

theorem mem_collect_byName : ("found", [⟨none, "found", [], some asked⟩]) ∈
    schema.registry.collect (root findLate) byName.operation.selections :=
  .head _

/-- What is found is completed as an item. -/
theorem visits_item :
    schema.Visits byName [.field "found"] (.object (.named "Named") item found asked) := by
  have hl : Context.Leads ⟨0, schema, []⟩
      (.object (.named "Query") (root findLate) byName.root byName.operation.selections)
      ([.field "found"] ++ ([] ++ ([] ++ []))) (.object (.named "Named") item found asked) := by
    refine .step (.select mem_collect_byName) ?_
    refine .step (.resolve (by decide) rfl rfl ⟨(), (), rfl⟩) ?_
    exact .step (.belong nofun rfl) .here
  exact ⟨root findLate, rfl, hl⟩

/-- Nothing else comes out where something named is found. -/
theorem exists_item_of_yields {outcome : Outcome} (h : schema.Yields byName outcome) :
    ∃ fields, outcome.at? [.field "found"] = some (.object (.named "Named") "Item" fields) ∧
      Context.Yields ⟨0, schema, []⟩ (.object (.named "Named") item found asked)
        [.field "found"] (.object (.named "Named") "Item" fields) := by
  obtain ⟨root', hroot, hy⟩ := h
  obtain rfl : root findLate = root' := Option.some.inj hroot
  obtain ⟨child, hchild, hy⟩ := hy.exists_selected mem_collect_byName
  obtain ⟨f, answer, hf, hanswer, hy⟩ := Context.Yields.of_field (by decide) hy
  obtain rfl := Option.some.inj hf
  obtain ⟨_, _, rfl⟩ : ∃ _ _ : Unit, .ok found = answer := hanswer
  have hvalue : Context.Yields ⟨0, schema, []⟩ (.value (.named "Named") found asked)
      [.field "found"] child := hy
  have hfound : found ≠ .null := nofun
  have hobject : Context.Yields ⟨0, schema, []⟩ (.object (.named "Named") item found asked)
      [.field "found"] child := Context.Yields.of_value hfound hvalue
  cases hobject with
  | fields hk hc h =>
    have hat := Outcome.at?_cons_eq_some_iff.2 ⟨_, hchild, Outcome.at?_nil _⟩
    exact ⟨_, hat, .fields hk hc h⟩

/-- An item is found where something named is asked for, and its name, which may not be `null`, will
do as a name that may. -/
theorem execute_substitutes_sample :
    (schema.execute none byName ()).ending =
        .ok (.ok ⟨.object [("found", .object itemData)], LocatedError.sorted []⟩) ∧
      Context.Conforms ⟨0, schema, []⟩ (.value (.named "String") (.string "a") []) (.string "a") ∧
      Context.Substitutes ⟨0, schema, []⟩ named item found asked itemData := by
  have hending : (schema.execute none byName ()).ending =
      .ok (.ok ⟨.object [("found", .object itemData)], LocatedError.sorted []⟩) :=
    Schema.ending_execute rfl 40 rfl
  obtain ⟨hsubtypes, hexecutions⟩ := Schema.execute_substitutes schema byName
  obtain ⟨outcome, hr, hobjects⟩ := hexecutions none () _ hending
  have hname : Context.Conforms ⟨0, schema, []⟩
      (.value (.nonNull (.named "String")) (.string "a") []) (.string "a") :=
    .nonNull nofun (.leaf rfl rfl rfl)
  refine ⟨hending, hsubtypes _ _ _ _ _ rfl hname, ?_⟩
  obtain ⟨fields, hat, hy⟩ := exists_item_of_yields hr.yields
  obtain ⟨-, hpromised⟩ :=
    (hobjects _ _ _ _ hat).2 named item found asked rfl visits_item hy offers_asked
  exact hpromised itemData rfl

end Sample

end GraphQL
