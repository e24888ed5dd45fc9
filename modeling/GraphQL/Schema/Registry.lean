import GraphQL.Schema.Types

/-!
# The registry of types

All named types of a schema, in order of registration after the built-in scalars; no two share a
name. Types refer to one another by name, so the relations between them are questions to the
registry: which objects a value of an abstract type may be (`possibleTypes`), and which types may
stand for which (`isSubtype`).
-/

namespace GraphQL

/-- Why a type is not registered, or not found. -/
inductive RegistryError where
  | duplicateType (name : String)
  | unknownType (name : String)
deriving DecidableEq, Repr

namespace RegistryError

/-- What is said about the failure. -/
def message : RegistryError → String
  | .duplicateType name => s!"Type \"{name}\" is already registered"
  | .unknownType name => s!"Unknown type \"{name}\""

end RegistryError

/-- The built-in scalars as types. -/
def TypeDef.builtins (σ : Type) : List (TypeDef σ) :=
  ScalarType.builtins.map .scalar

theorem TypeDef.nodup_builtins (σ : Type) : ((TypeDef.builtins σ).map TypeDef.name).Nodup := by
  have h : (TypeDef.builtins σ).map TypeDef.name = ["String", "Int", "Float", "Boolean", "ID"] :=
    rfl
  rw [h]
  decide

/-- The named types of a schema. -/
structure Registry (σ : Type) where
  /-- The types besides the built-in ones, in order of registration. -/
  declared : List (TypeDef σ)
  nodup_names : ((TypeDef.builtins σ ++ declared).map TypeDef.name).Nodup

namespace Registry

variable {σ : Type}

/-- The registry of the built-in scalars alone. -/
def empty : Registry σ :=
  ⟨[], by simpa using TypeDef.nodup_builtins σ⟩

/-- All types in order of registration. -/
def types (r : Registry σ) : List (TypeDef σ) :=
  TypeDef.builtins σ ++ r.declared

/-- The names of all types in order of registration. -/
def names (r : Registry σ) : List String :=
  r.types.map TypeDef.name

/-- The type of a name. -/
def get? (r : Registry σ) (name : String) : Option (TypeDef σ) :=
  r.types.find? (·.name == name)

/-- The type of a name, or the error that there is none. -/
def resolve (r : Registry σ) (name : String) : Except RegistryError (TypeDef σ) :=
  match r.get? name with
  | some t => .ok t
  | none => .error (.unknownType name)

/-- The type that a reference ends in. -/
def lookup? (r : Registry σ) (t : TypeRef) : Option (TypeDef σ) :=
  r.get? t.innermost

/-- Adds a type under a new name. -/
def register (r : Registry σ) (t : TypeDef σ) : Except RegistryError (Registry σ) :=
  if h : t.name ∈ r.names then .error (.duplicateType t.name)
  else .ok
    { declared := r.declared ++ [t]
      nodup_names := by
        rw [← List.append_assoc, List.map_append, List.nodup_append]
        refine ⟨r.nodup_names, by simp, ?_⟩
        intro a ha b hb
        simp only [List.map_cons, List.map_nil, List.mem_singleton] at hb
        subst hb
        intro e
        exact h (e ▸ ha) }

theorem name_of_get? {r : Registry σ} {name : String} {t : TypeDef σ}
    (h : r.get? name = some t) : t.name = name := by
  have := List.find?_some h
  simpa using this

theorem mem_types_of_get? {r : Registry σ} {name : String} {t : TypeDef σ}
    (h : r.get? name = some t) : t ∈ r.types :=
  List.mem_of_find?_eq_some h

theorem get?_name {r : Registry σ} {name : String} {t : TypeDef σ} (h : r.get? name = some t) :
    r.get? t.name = some t := by
  rw [name_of_get? h, h]

theorem get?_of_mem_types {r : Registry σ} {t : TypeDef σ} (h : t ∈ r.types) :
    r.get? t.name = some t := by
  obtain ⟨before, after, heq⟩ := List.append_of_mem h
  have hn := r.nodup_names
  rw [show TypeDef.builtins σ ++ r.declared = before ++ t :: after from heq, List.map_append,
    List.nodup_append] at hn
  rw [get?, heq, List.find?_append, List.find?_eq_none.2, Option.none_or, List.find?_cons_of_pos]
  · simp
  · intro t' ht' hname
    exact hn.2.2 _ (List.mem_map_of_mem ht') _ List.mem_cons_self (beq_iff_eq.1 hname)

/-! ## Field sets -/

section MapFieldSets

variable {τ : Type} (f : FieldSet σ → FieldSet τ)

theorem map_mapFieldSet_builtins :
    (TypeDef.builtins σ).map (TypeDef.mapFieldSet f) = TypeDef.builtins τ := by
  simp [TypeDef.builtins, TypeDef.mapFieldSet, Function.comp_def]

/-- The registry with other field sets in the place of its own. -/
def mapFieldSets (r : Registry σ) : Registry τ where
  declared := r.declared.map (TypeDef.mapFieldSet f)
  nodup_names := by
    have h : (TypeDef.builtins τ ++ r.declared.map (TypeDef.mapFieldSet f)).map TypeDef.name =
        (TypeDef.builtins σ ++ r.declared).map TypeDef.name := by
      rw [← map_mapFieldSet_builtins f, ← List.map_append, List.map_map]
      exact List.map_congr_left fun t _ => t.name_mapFieldSet f
    rw [h]
    exact r.nodup_names

variable (r : Registry σ)

theorem types_mapFieldSets : (r.mapFieldSets f).types = r.types.map (TypeDef.mapFieldSet f) := by
  rw [types, types, List.map_append, map_mapFieldSet_builtins]
  rfl

theorem get?_mapFieldSets (name : String) :
    (r.mapFieldSets f).get? name = (r.get? name).map (TypeDef.mapFieldSet f) := by
  rw [get?, get?, types_mapFieldSets, List.find?_map]
  congr 2
  funext t
  exact congrArg (· == name) (t.name_mapFieldSet f)

theorem mapFieldSets_mapFieldSets {ρ : Type} (g : FieldSet τ → FieldSet ρ) :
    (r.mapFieldSets f).mapFieldSets g = r.mapFieldSets (g ∘ f) := by
  simp only [mapFieldSets, List.map_map, mk.injEq]
  exact List.map_congr_left fun t _ => t.mapFieldSet_mapFieldSet f g

/-- What is put in the place of field sets matters for those that the types have. -/
theorem mapFieldSets_congr {r : Registry σ} {f g : FieldSet σ → FieldSet τ}
    (h : ∀ t ∈ r.types, ∀ s ∈ t.fieldSet?, f s = g s) : r.mapFieldSets f = r.mapFieldSets g := by
  simp only [mapFieldSets, mk.injEq]
  refine List.map_congr_left fun t ht => TypeDef.mapFieldSet_congr f ?_
  exact h t (List.mem_append_right _ ht)

end MapFieldSets

/-- The registry with the fields built of those types that are chosen. -/
def buildWhere (r : Registry σ) (chosen : TypeDef σ → Bool) : Registry σ where
  declared := r.declared.map fun t => if chosen t then t.build else t
  nodup_names := by
    have h : ((r.declared.map fun t => if chosen t then t.build else t).map TypeDef.name)
        = r.declared.map TypeDef.name := by
      rw [List.map_map]
      refine List.map_congr_left fun t _ => ?_
      simp only [Function.comp_apply]
      split <;> simp
    rw [List.map_append, h, ← List.map_append]
    exact r.nodup_names

/-- The registry with the fields of one type built. -/
def buildType (r : Registry σ) (name : String) : Registry σ :=
  r.buildWhere (·.name == name)

/-- The registry with all fields built. -/
def buildAll (r : Registry σ) : Registry σ :=
  r.buildWhere fun _ => true

theorem types_buildWhere (r : Registry σ) (chosen : TypeDef σ → Bool) :
    (r.buildWhere chosen).types = r.types.map fun t => if chosen t then t.build else t := by
  have hbuiltins : (TypeDef.builtins σ).map (fun t => if chosen t then t.build else t) =
      TypeDef.builtins σ := by
    rw [TypeDef.builtins, List.map_map]
    exact List.map_congr_left fun s _ => ite_self _
  rw [types, types, List.map_append, hbuiltins]
  rfl

theorem get?_buildWhere (r : Registry σ) (chosen : TypeDef σ → Bool) (name : String) :
    (r.buildWhere chosen).get? name =
      (r.get? name).map fun t => if chosen t then t.build else t := by
  rw [get?, get?, types_buildWhere, List.find?_map]
  congr 2
  funext t
  by_cases h : chosen t = true <;> simp [h]

/-- Building fields that are built changes nothing. -/
theorem buildWhere_of_build_eq {r : Registry σ} {chosen : TypeDef σ → Bool}
    (h : ∀ t ∈ r.types, chosen t = true → t.build = t) : r.buildWhere chosen = r := by
  have hdeclared : (r.buildWhere chosen).declared = r.declared := by
    refine (List.map_congr_left fun t ht => ?_).trans (List.map_id _)
    by_cases hc : chosen t = true
    · rw [if_pos hc]
      exact h t (List.mem_append_right _ ht) hc
    · rw [if_neg hc]
      rfl
  cases r
  exact (Registry.mk.injEq ..).mpr hdeclared

@[simp] theorem buildWhere_false (r : Registry σ) : r.buildWhere (fun _ => false) = r :=
  buildWhere_of_build_eq fun _ _ h => absurd h Bool.false_ne_true

/-- Building some fields first makes no difference when all are built. -/
theorem buildAll_buildWhere (r : Registry σ) (chosen : TypeDef σ → Bool) :
    (r.buildWhere chosen).buildAll = r.buildAll := by
  simp only [buildAll, buildWhere, if_true, List.map_map, mk.injEq]
  refine List.map_congr_left fun t _ => ?_
  by_cases h : chosen t = true <;> simp [h]

theorem buildAll_eq (r : Registry σ) : r.buildAll = r.mapFieldSets FieldSet.build :=
  rfl

theorem get?_buildAll (r : Registry σ) (name : String) :
    r.buildAll.get? name = (r.get? name).map TypeDef.build :=
  r.get?_mapFieldSets FieldSet.build name

@[simp] theorem buildAll_buildAll (r : Registry σ) : r.buildAll.buildAll = r.buildAll :=
  r.buildAll_buildWhere _

/-! ## Relations between types -/

/-- The object type of a name. -/
def object? (r : Registry σ) (name : String) : Option (ObjectType σ) :=
  match r.get? name with
  | some (.object o) => some o
  | _ => none

/-- The objects that implement an interface, in order of registration. -/
def implementers (r : Registry σ) (interface : String) : List (ObjectType σ) :=
  r.types.filterMap fun
    | .object o => if o.interfaces.contains interface then some o else none
    | _ => none

/-- The object types that values of an abstract type may have; none for any other type. -/
def possibleTypes (r : Registry σ) (abstract : String) : List (ObjectType σ) :=
  match r.get? abstract with
  | some (.union u) => u.members.filterMap r.object?
  | some (.interface _) => r.implementers abstract
  | _ => []

/-- May a value of the object type be a value of the abstract type? -/
def isPossible (r : Registry σ) (abstract object : String) : Bool :=
  match r.get? abstract with
  | some (.union u) => u.members.contains object
  | some (.interface _) =>
    match r.object? object with
    | some o => o.interfaces.contains abstract
    | none => false
  | _ => false

/-- May a value of the first type stand where one of the second is expected? Non-null narrows
nullable, lists vary with their items, and an object narrows the abstract types it is possible
for. -/
def isSubtype (r : Registry σ) : (sub super : TypeRef) → Bool
  | .nonNull sub, .nonNull super => r.isSubtype sub super
  | .nonNull sub, super => r.isSubtype sub super
  | .list sub, .list super => r.isSubtype sub super
  | .named sub, .named super => sub == super || r.isPossible super sub
  | _, _ => false

/-- Does a fragment with the type condition apply to values of the object type? -/
def fragmentApplies (r : Registry σ) (condition object : String) : Bool :=
  condition == object || r.isPossible condition object

/-- The names of the object types that values of a composite type may have. -/
def possibleNames (r : Registry σ) (t : TypeDef σ) : List String :=
  match t with
  | .object o => [o.name]
  | _ => (r.possibleTypes t.name).map (·.name)

/-- May a value be of both types at once? -/
def typesOverlap (r : Registry σ) (a b : TypeDef σ) : Bool :=
  a.name == b.name || (r.possibleNames a).any fun name => (r.possibleNames b).contains name

/-! ## What field sets hold makes no difference -/

section MapFieldSets

variable {τ : Type} (f : FieldSet σ → FieldSet τ) (r : Registry σ)

theorem object?_mapFieldSets (name : String) :
    (r.mapFieldSets f).object? name = (r.object? name).map (ObjectType.mapFieldSet f) := by
  rw [object?, object?, get?_mapFieldSets]
  cases r.get? name with
  | none => rfl
  | some t => cases t <;> rfl

theorem implementers_mapFieldSets (interface : String) :
    (r.mapFieldSets f).implementers interface =
      (r.implementers interface).map (ObjectType.mapFieldSet f) := by
  rw [implementers, implementers, types_mapFieldSets, List.filterMap_map, List.map_filterMap]
  congr 1
  funext t
  cases t with
  | object o =>
    simp only [Function.comp_apply, TypeDef.mapFieldSet]
    change (if o.interfaces.contains interface then _ else _) = _
    split <;> rfl
  | _ => rfl

theorem possibleTypes_mapFieldSets (abstract : String) :
    (r.mapFieldSets f).possibleTypes abstract =
      (r.possibleTypes abstract).map (ObjectType.mapFieldSet f) := by
  rw [possibleTypes, possibleTypes, get?_mapFieldSets]
  cases r.get? abstract with
  | none => rfl
  | some t =>
    cases t with
    | union u =>
      change u.members.filterMap (r.mapFieldSets f).object? = (u.members.filterMap r.object?).map _
      rw [List.map_filterMap]
      congr 1
      funext name
      exact r.object?_mapFieldSets f name
    | interface i => exact r.implementers_mapFieldSets f abstract
    | _ => rfl

/-- Possible types have the same names whatever field sets hold. -/
theorem map_name_possibleTypes_mapFieldSets (abstract : String) :
    ((r.mapFieldSets f).possibleTypes abstract).map ObjectType.name =
      (r.possibleTypes abstract).map ObjectType.name := by
  rw [possibleTypes_mapFieldSets, List.map_map]
  rfl

@[simp] theorem isPossible_mapFieldSets (abstract object : String) :
    (r.mapFieldSets f).isPossible abstract object = r.isPossible abstract object := by
  rw [isPossible, isPossible, get?_mapFieldSets, object?_mapFieldSets]
  cases r.get? abstract with
  | none => rfl
  | some t =>
    cases t with
    | interface i => cases r.object? object <;> rfl
    | _ => rfl

@[simp] theorem isSubtype_mapFieldSets (sub super : TypeRef) :
    (r.mapFieldSets f).isSubtype sub super = r.isSubtype sub super := by
  fun_induction isSubtype r sub super with
  | case1 sub super ih => rwa [isSubtype]
  | case2 sub super hne ih =>
    rw [isSubtype]
    · exact ih
    · exact hne
  | case3 sub super ih => rwa [isSubtype]
  | case4 sub super => rw [isSubtype, isPossible_mapFieldSets]
  | case5 sub super => simp [isSubtype]

@[simp] theorem fragmentApplies_mapFieldSets (condition object : String) :
    (r.mapFieldSets f).fragmentApplies condition object = r.fragmentApplies condition object := by
  rw [fragmentApplies, fragmentApplies, isPossible_mapFieldSets]

theorem typesOverlap_mapFieldSets (a b : TypeDef σ) :
    (r.mapFieldSets f).typesOverlap (a.mapFieldSet f) (b.mapFieldSet f) = r.typesOverlap a b := by
  have names : ∀ t : TypeDef σ,
      (r.mapFieldSets f).possibleNames (t.mapFieldSet f) = r.possibleNames t := by
    intro t
    cases t with
    | object o => rfl
    | _ => exact r.map_name_possibleTypes_mapFieldSets f _
  rw [typesOverlap, typesOverlap, names, names, TypeDef.name_mapFieldSet,
    TypeDef.name_mapFieldSet]

end MapFieldSets

end Registry

end GraphQL
