import GraphQL.Binding
import GraphQL.Execution.Collection
import GraphQL.Execution.Dispatch
import GraphQL.Schema.Coercion

/-!
# Schemas without their resolvers

A `plain` type has no resolvers, and nothing but calls depends on them: types and fields are looked
up (`get?_plain`), selections collected (`collect_plain`), arguments coerced
(`coerceArguments_plain`) and values dispatched (`dispatch_plain`) as without them. Schemas that
`Resemble` one another have the same plain types and the same roots; they bind the same operations
(`Resembles.bind_eq`).
-/

namespace GraphQL

variable {σ τ : Type}

/-! ## Plain types -/

def Field.plain (f : Field σ) : Field Empty :=
  ⟨f.name, f.description?, f.arguments, f.type, f.deprecation, none⟩

def FieldSet.plain (s : FieldSet σ) : FieldSet Empty :=
  .eager (s.fields.map Field.plain)

def ObjectType.plain (o : ObjectType σ) : ObjectType Empty :=
  o.mapFieldSet FieldSet.plain

def InterfaceType.plain (i : InterfaceType σ) : InterfaceType Empty :=
  i.mapFieldSet FieldSet.plain

def TypeDef.plain (t : TypeDef σ) : TypeDef Empty :=
  t.mapFieldSet FieldSet.plain

def FieldBinding.plain : FieldBinding σ → FieldBinding Empty
  | .leaf => .leaf
  | .composite t => .composite t.plain
  | .faulty faults => .faulty faults

@[simp] theorem TypeDef.name_plain (t : TypeDef σ) : t.plain.name = t.name :=
  t.name_mapFieldSet _

@[simp] theorem TypeDef.kind_plain (t : TypeDef σ) : t.plain.kind = t.kind :=
  t.kind_mapFieldSet _

theorem TypeDef.kind_eq {a : TypeDef σ} {b : TypeDef τ} (h : a.plain = b.plain) :
    a.kind = b.kind := by
  rw [← a.kind_plain, ← b.kind_plain, h]

theorem TypeDef.name_eq {a : TypeDef σ} {b : TypeDef τ} (h : a.plain = b.plain) :
    a.name = b.name := by
  rw [← a.name_plain, ← b.name_plain, h]

theorem find?_map_plain (fields : List (Field σ)) (name : String) :
    (fields.map Field.plain).find? (·.name == name) =
      (fields.find? (·.name == name)).map Field.plain := by
  rw [List.find?_map]
  rfl

theorem ObjectType.field?_plain (o : ObjectType σ) (name : String) :
    o.plain.field? name = (o.field? name).map Field.plain :=
  find?_map_plain o.fields name

theorem TypeDef.field?_plain (t : TypeDef σ) (name : String) :
    t.plain.field? name = (t.field? name).map Field.plain := by
  cases t with
  | object o => exact find?_map_plain o.fields name
  | interface i => exact find?_map_plain i.fieldSet.fields name
  | _ => rfl

@[simp] theorem ObjectType.declares_plain (o : ObjectType σ) (name : String) :
    o.plain.declares name = o.declares name := by
  rw [declares, declares, field?_plain, Option.isSome_map]

namespace Registry

/-- The registry without resolvers. -/
def plain (r : Registry σ) : Registry Empty :=
  r.mapFieldSets FieldSet.plain

theorem get?_plain (r : Registry σ) (name : String) :
    r.plain.get? name = (r.get? name).map TypeDef.plain :=
  r.get?_mapFieldSets _ name

theorem collect_plain (r : Registry σ) (o : ObjectType σ) (selections : List Selection) :
    r.plain.collect o.plain selections = r.collect o selections :=
  r.collectInto_mapFieldSets o.declares_plain selections []

theorem coerceArguments_plain (r : Registry σ) (field : Field σ) (provided : Keyed InputValue)
    (vars : Variables) :
    r.plain.coerceArguments field.plain provided vars = r.coerceArguments field provided vars := by
  have hname : field.plain.name = field.name := rfl
  exact r.coerceArguments_mapFieldSets _ hname rfl provided vars

theorem dispatch_plain (r : Registry σ) (abstract : String) (resolveType? : Option TypeResolver)
    (v : Value) :
    r.plain.dispatch abstract resolveType? v =
      (r.dispatch abstract resolveType? v).map ObjectType.plain :=
  r.dispatch_mapFieldSets _ abstract resolveType? v

end Registry

/-! ## Schemas that differ in their resolvers -/

/-- Two schemas differ in nothing but their resolvers. -/
structure Schema.Resembles (s : Schema σ) (t : Schema τ) : Prop where
  registry : s.registry.plain = t.registry.plain
  queryName : s.queryName = t.queryName
  mutationName? : s.mutationName? = t.mutationName?
  introspectionDisabled : s.introspectionDisabled = t.introspectionDisabled

namespace Schema.Resembles

variable {s : Schema σ} {t : Schema τ}

theorem get? (h : s.Resembles t) (name : String) :
    (s.registry.get? name).map TypeDef.plain = (t.registry.get? name).map TypeDef.plain := by
  rw [← Registry.get?_plain, ← Registry.get?_plain, h.registry]

theorem rootName? (h : s.Resembles t) (kind : OperationKind) :
    s.rootName? kind = t.rootName? kind := by
  cases kind with
  | query => exact congrArg some h.queryName
  | mutation => exact h.mutationName?

/-- What is found in one schema is found in the other. -/
theorem exists_get? (h : s.Resembles t) {name : String} {a : TypeDef σ}
    (ha : s.registry.get? name = some a) :
    ∃ b, t.registry.get? name = some b ∧ a.plain = b.plain := by
  have hg := h.get? name
  rw [ha, Option.map_some] at hg
  obtain ⟨b, hb, heq⟩ := Option.map_eq_some_iff.1 hg.symm
  exact ⟨b, hb, heq.symm⟩

theorem get?_eq_none (h : s.Resembles t) {name : String}
    (ha : s.registry.get? name = none) : t.registry.get? name = none := by
  have hg := h.get? name
  rw [ha, Option.map_none] at hg
  exact Option.map_eq_none_iff.1 hg.symm

theorem possibleTypes (h : s.Resembles t) (abstract : String) :
    (s.registry.possibleTypes abstract).map ObjectType.plain =
      (t.registry.possibleTypes abstract).map ObjectType.plain := by
  have hs := s.registry.possibleTypes_mapFieldSets FieldSet.plain abstract
  have ht := t.registry.possibleTypes_mapFieldSets FieldSet.plain abstract
  exact hs.symm.trans ((congrArg (·.possibleTypes abstract) h.registry).trans ht)

/-! ## Binding -/

variable {a : TypeDef σ} {b : TypeDef τ}

theorem fieldFor? (h : s.Resembles t) (hab : a.plain = b.plain) (name : String) :
    (s.fieldFor? a name).map Field.plain = (t.fieldFor? b name).map Field.plain := by
  have hfield : (a.field? name).map Field.plain = (b.field? name).map Field.plain := by
    rw [← TypeDef.field?_plain, ← TypeDef.field?_plain, hab]
  have hobjects : ∀ {ρ : Type} (objects : List (ObjectType ρ)),
      (objects.findSome? fun o => o.field? name).map Field.plain =
        (objects.map ObjectType.plain).findSome? fun o => o.field? name := by
    intro ρ objects
    rw [List.findSome?_map, List.map_findSome?]
    congr 1
    funext o
    exact (o.field?_plain name).symm
  unfold Schema.fieldFor?
  cases ha : a.field? name with
  | some f =>
    rw [ha, Option.map_some] at hfield
    obtain ⟨g, hg, heq⟩ := Option.map_eq_some_iff.1 hfield.symm
    rw [hg]
    exact congrArg some heq.symm
  | none =>
    rw [ha, Option.map_none] at hfield
    rw [Option.map_eq_none_iff.1 hfield.symm, TypeDef.kind_eq hab, TypeDef.name_eq hab]
    dsimp only
    split
    · rw [hobjects, hobjects, h.possibleTypes]
    · rfl

theorem bindField (h : s.Resembles t) (hab : a.plain = b.plain) (name : String)
    (hasSelections : Bool) :
    (s.bindField a name hasSelections).plain = (t.bindField b name hasSelections).plain := by
  have hfield := h.fieldFor? hab name
  unfold Schema.bindField
  split
  · rw [h.introspectionDisabled]
    rfl
  · cases hs : s.fieldFor? a name with
    | none =>
      rw [hs, Option.map_none] at hfield
      rw [Option.map_eq_none_iff.1 hfield.symm, TypeDef.name_eq hab]
      rfl
    | some f =>
      rw [hs, Option.map_some] at hfield
      obtain ⟨g, hg, heq⟩ := Option.map_eq_some_iff.1 hfield.symm
      have htype : f.type = g.type := congrArg Field.type heq.symm
      rw [hg]
      dsimp only
      rw [htype]
      cases hl : s.registry.lookup? g.type with
      | none =>
        have hl' : t.registry.lookup? g.type = none := h.get?_eq_none hl
        rw [hl']
        rfl
      | some target =>
        obtain ⟨target', hl', hplain⟩ := h.exists_get? hl
        have hl' : t.registry.lookup? g.type = some target' := hl'
        rw [hl']
        dsimp only
        rw [TypeDef.kind_eq hplain]
        cases hasSelections <;> cases target'.kind.isLeaf <;> simp [FieldBinding.plain, hplain]

theorem bindCondition (h : s.Resembles t) (hab : a.plain = b.plain) (condition? : Option String) :
    (s.bindCondition a condition?).map TypeDef.plain =
      (t.bindCondition b condition?).map TypeDef.plain := by
  unfold Schema.bindCondition
  cases condition? with
  | none => exact congrArg Except.ok hab
  | some condition =>
    dsimp only
    cases hs : s.registry.get? condition with
    | none =>
      rw [h.get?_eq_none hs]
      rfl
    | some c =>
      obtain ⟨c', hc', hplain⟩ := h.exists_get? hs
      have hoverlap : s.registry.typesOverlap a c = t.registry.typesOverlap b c' := by
        have hs := s.registry.typesOverlap_mapFieldSets FieldSet.plain a c
        have ht := t.registry.typesOverlap_mapFieldSets FieldSet.plain b c'
        rw [← hs, ← ht]
        exact congr (congr (congrArg Registry.typesOverlap h.registry) hab) hplain
      rw [hc']
      dsimp only
      rw [TypeDef.kind_eq hplain, TypeDef.name_eq hab, hoverlap]
      split
      · rfl
      · split
        · rfl
        · exact congrArg Except.ok hplain

mutual

theorem bindSelection (h : s.Resembles t) {a : TypeDef σ} {b : TypeDef τ}
    (hab : a.plain = b.plain) (path : List String) : (selection : Selection) →
    s.bindSelection a path selection = t.bindSelection b path selection
  | .field ⟨alias?, name, arguments, none⟩ => by
    have hf := h.bindField hab name false
    rw [Schema.bindSelection, Schema.bindSelection]
    cases hs : s.bindField a name false <;> cases ht : t.bindField b name false <;>
      simp_all [FieldBinding.plain]
  | .field ⟨alias?, name, arguments, some selections⟩ => by
    have hf := h.bindField hab name true
    rw [Schema.bindSelection, Schema.bindSelection]
    cases hs : s.bindField a name true with
    | leaf => cases ht : t.bindField b name true <;> simp_all [FieldBinding.plain]
    | composite c =>
      cases ht : t.bindField b name true with
      | composite c' =>
        rw [hs, ht] at hf
        simp only [FieldBinding.plain, FieldBinding.composite.injEq] at hf
        exact bindAll h hf _ selections
      | _ => simp_all [FieldBinding.plain]
    | faulty faults => cases ht : t.bindField b name true <;> simp_all [FieldBinding.plain]
  | .fragment condition? selections => by
    have hc := h.bindCondition hab condition?
    rw [Schema.bindSelection, Schema.bindSelection]
    cases hs : s.bindCondition a condition? with
    | error fault =>
      rw [hs] at hc
      cases ht : t.bindCondition b condition? <;> simp_all [Except.map]
    | ok c =>
      cases ht : t.bindCondition b condition? with
      | error fault => simp_all [Except.map]
      | ok c' =>
        rw [hs, ht] at hc
        simp only [Except.map, Except.ok.injEq] at hc
        exact bindAll h hc path selections

theorem bindAll (h : s.Resembles t) {a : TypeDef σ} {b : TypeDef τ} (hab : a.plain = b.plain)
    (path : List String) : (selections : List Selection) →
    s.bindAll a path selections = t.bindAll b path selections
  | [] => by
    rw [Schema.bindAll, Schema.bindAll]
  | selection :: rest => by
    rw [Schema.bindAll, Schema.bindAll, bindSelection h hab path selection,
      bindAll h hab path rest]

end

/-- The same operations can be bound to both. -/
theorem bind_eq (h : s.Resembles t) (operation : Operation) :
    s.bind operation = t.bind operation := by
  unfold Schema.bind
  rw [h.rootName?]
  cases t.rootName? operation.kind with
  | none => rfl
  | some name =>
    simp only [Option.bind_some]
    cases hs : s.registry.get? name with
    | none =>
      rw [h.get?_eq_none hs]
    | some root =>
      obtain ⟨root', hr, hplain⟩ := h.exists_get? hs
      rw [hr]
      exact h.bindAll hplain [] operation.selections

end Schema.Resembles

end GraphQL
