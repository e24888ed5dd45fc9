import GraphQL.Schema.Check

/-!
# Schemas

A schema is a registry whose fields are all built and in which nothing is wrong, with an object
type as the root of queries and perhaps one as the root of mutations. Whoever has a schema has the
proofs of that, and only `Schema.create?` makes one.
-/

namespace GraphQL

/-- A checked registry with its roots. -/
structure Schema (σ : Type) where
  registry : Registry σ
  queryName : String
  mutationName? : Option String
  introspectionDisabled : Bool
  buildAll_registry : registry.buildAll = registry
  violations_eq_nil : registry.violations = []
  queryRoot_eq_nil : registry.rootViolations .query queryName = []
  mutationRoot_eq_nil : ∀ name ∈ mutationName?, registry.rootViolations .mutation name = []

namespace Schema

variable {σ : Type}

/-- What is wrong with the mutation root, if there is to be one. -/
def mutationViolations (r : Registry σ) : Option String → List Violation
  | some name => r.rootViolations .mutation name
  | none => []

/-- Checks the types, by which all their fields are built, and makes a schema of the registry, or
lists what is wrong with it and its roots. -/
def create? (r : Registry σ) (query : String) (mutation? : Option String) :
    Except (List Violation) (Schema σ) :=
  let found := r.check.1
  let built := r.check.2
  if h : found = [] ∧ built.rootViolations .query query = [] ∧
      mutationViolations built mutation? = [] then
    .ok
      { registry := built
        queryName := query
        mutationName? := mutation?
        introspectionDisabled := false
        buildAll_registry := r.buildAll_check
        violations_eq_nil := r.violations_check.trans h.1
        queryRoot_eq_nil := h.2.1
        mutationRoot_eq_nil := by
          intro name hn
          have h' := h.2.2
          rw [Option.mem_def.1 hn] at h'
          exact h' }
  else .error (found ++ built.rootViolations .query query ++ mutationViolations built mutation?)

/-- The schema without the meta-field `__typename`. -/
def disableIntrospection (s : Schema σ) : Schema σ :=
  { s with introspectionDisabled := true }

/-- The name of the type at which operations of a kind start. -/
def rootName? (s : Schema σ) : OperationKind → Option String
  | .query => some s.queryName
  | .mutation => s.mutationName?

/-- The type at which operations of a kind start. -/
def root? (s : Schema σ) (kind : OperationKind) : Option (ObjectType σ) :=
  (s.rootName? kind).bind s.registry.object?

end Schema

end GraphQL
