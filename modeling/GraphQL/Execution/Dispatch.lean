import GraphQL.Schema.Registry

/-!
# Object types of abstract values

A value of an interface or a union belongs to the object type that the type resolver names, or
without one the `__typename` entry of the value. The object type has to be one that values of the
abstract type may have.
-/

namespace GraphQL

namespace Value

/-- The string under `__typename`, if the value is an object that has one. -/
def typename? (v : Value) : Option String :=
  (v.entry? "__typename").bind asString?

end Value

namespace Registry

variable {σ : Type}

/-- The object type of a value of an abstract type. -/
def dispatch (r : Registry σ) (abstract : String) (resolveType? : Option TypeResolver)
    (v : Value) : Except FieldError (ObjectType σ) :=
  let name? := match resolveType? with
    | some resolveType => resolveType v
    | none => v.typename?
  match name? with
  | none => .error (.ofFault (.unresolvedType abstract))
  | some name =>
    match r.get? name with
    | some (.object o) =>
      if r.isPossible abstract o.name then .ok o
      else .error (.ofFault (.notPossibleType abstract name))
    | some _ => .error (.ofFault (.resolvedToNonObject abstract name))
    | none => .error (.ofFault (.resolvedToUnknown abstract name))

theorem dispatch_mapFieldSets {τ : Type} (f : FieldSet σ → FieldSet τ) (r : Registry σ)
    (abstract : String) (resolveType? : Option TypeResolver) (v : Value) :
    (r.mapFieldSets f).dispatch abstract resolveType? v =
      (r.dispatch abstract resolveType? v).map (ObjectType.mapFieldSet f) := by
  unfold dispatch
  simp only [get?_mapFieldSets, isPossible_mapFieldSets]
  split
  · rfl
  · next name _ =>
    cases r.get? name with
    | none => rfl
    | some t =>
      cases t with
      | object o =>
        simp only [Option.map_some, TypeDef.mapFieldSet]
        change (if r.isPossible abstract o.name = true then _ else _) = _
        split <;> rfl
      | _ => rfl

end Registry

end GraphQL
