import GraphQL.Execution.Collection
import GraphQL.Execution.Dispatch
import GraphQL.Execution.Job

/-!
# Resolving and completing fields

The job of an execution, built by recursion on the nesting of the request and, within a field, on
its declared type. A position that fails records its error and ends without a value; `settle` then
decides by the declared type whether the `null` stays or goes on to the parent. A list and an
object end without a value as soon as one of their parts does, yet all parts run to their end.
-/

namespace GraphQL

/-- The job that turns a value into the result object of an object type. -/
abbrev ObjectJob (σ : Type) := ObjectType σ → Value → List Selection → Path → Job σ

namespace Job

variable {σ : Type}

/-- All values, unless one is missing. -/
def values? : List Completion → Option (List Value)
  | [] => some []
  | some v :: rest => (values? rest).map (v :: ·)
  | none :: _ => none

/-- The list of the values of its items. -/
def assembleList (completions : List Completion) : Job σ :=
  .done ((values? completions).map .list)

/-- The object with the values of its fields under their response keys. -/
def assembleObject (keys : List String) (completions : List Completion) : Job σ :=
  .done ((values? completions).map fun values => .object (keys.zip values))

end Job

/-- What all fields of an execution share, with the number of the execution. -/
structure Context (σ : Type) where
  run : Nat
  schema : Schema σ
  vars : Variables

namespace Context

variable {σ : Type}

/-! ## Failing -/

/-- Records an error and ends without a value. -/
def fail (ctx : Context σ) (path : Path) (error : FieldError) : Job σ :=
  .emit ctx.run (.failed ⟨path, error⟩) (.done none)

/-- Records the error of a field and ends as its type allows. -/
def failField (ctx : Context σ) (type : TypeRef) (path : Path) (error : FieldError) : Job σ :=
  .emit ctx.run (.failed ⟨path, error⟩) (.done (if type.isNonNull then none else some .null))

/-- Lets a missing value be `null` where the type allows, and fails on a `null` where it does
not. -/
def settle (ctx : Context σ) (type : TypeRef) (path : Path) (completion : Completion) : Job σ :=
  if type.isNonNull then
    match completion with
    | some .null => ctx.fail path (.ofFault (.nullInNonNull type))
    | completion => .done completion
  else .done (some (completion.getD .null))

/-! ## Completing values -/

/-- Serializes a leaf; errors without a more specific kind become those of serialization. -/
def completeLeaf (ctx : Context σ) (serialize : Value → Except FieldError Value) (v : Value)
    (path : Path) : Job σ :=
  match serialize v with
  | .ok v => .done (some v)
  | .error e => ctx.fail path (e.orKind .serialization)

/-- Finds the object type of an abstract value and completes the value as that. -/
def completeAbstract (ctx : Context σ) (object : ObjectJob σ) (abstract : String)
    (resolveType? : Option TypeResolver) (v : Value) (selections : List Selection) (path : Path) :
    Job σ :=
  Job.emitAll ctx.run (if resolveType?.isSome then [.asked abstract] else [])
    (match ctx.schema.registry.dispatch abstract resolveType? v with
      | .ok o => .emit ctx.run (.dispatched abstract o.name) (object o v selections path)
      | .error e => ctx.fail path e)

/-- Completes a value that is not `null` against a named type. -/
def completeNamed (ctx : Context σ) (object : ObjectJob σ) (selections : List Selection)
    (name : String) (v : Value) (path : Path) : Job σ :=
  match ctx.schema.registry.get? name with
  | some (.object o) => object o v selections path
  | some (.interface i) => ctx.completeAbstract object i.name i.resolveType? v selections path
  | some (.union u) => ctx.completeAbstract object u.name u.resolveType? v selections path
  | some (.scalar s) => ctx.completeLeaf s.serialize v path
  | some (.enum e) => ctx.completeLeaf e.serialize v path
  | none => ctx.fail path (.ofFault (.unknownOutputType name))

/-- Completes a value against a type, its outermost non-null marker aside: `null` stays, a failure
ends without a value. -/
def completeNullable (ctx : Context σ) (object : ObjectJob σ) (selections : List Selection) :
    TypeRef → Value → Path → Job σ
  | .nonNull t, v, path => ctx.completeNullable object selections t v path
  | .list item, v, path =>
    match v with
    | .null => .done (some .null)
    | .list items =>
      .row .assembleList (items.mapIdx fun i v =>
        (ctx.completeNullable object selections item v (path.index i)).bind
          (ctx.settle item (path.index i)))
    | v => ctx.fail path (.ofFault (.notAList (.list item) v))
  | .named name, v, path =>
    match v with
    | .null => .done (some .null)
    | v => ctx.completeNamed object selections name v path

/-- Completes a value against its declared type. -/
def complete (ctx : Context σ) (object : ObjectJob σ) (selections : List Selection)
    (type : TypeRef) (v : Value) (path : Path) : Job σ :=
  (ctx.completeNullable object selections type v path).bind (ctx.settle type path)

/-! ## Resolving fields -/

/-- Completes the result of a field, selecting from it what all nodes of its group ask for. -/
def completeField (ctx : Context σ) (object : ObjectJob σ) (nodes : List (FieldNode Selection))
    (type : TypeRef) (path : Path) : Except FieldError Value → Job σ
  | .ok v => ctx.complete object (nodes.flatMap FieldNode.children) type v path
  | .error e => ctx.failField type path e

/-- Resolves a declared field with the arguments of the first node of its group. -/
def resolveField (ctx : Context σ) (object : ObjectJob σ) (o : ObjectType σ) (parent : Value)
    (nodes : List (FieldNode Selection)) (node : FieldNode Selection) (field : Field σ)
    (path : Path) : Job σ :=
  match ctx.schema.registry.coerceArguments field node.arguments ctx.vars with
  | .error e => ctx.failField field.type path e
  | .ok arguments =>
    match field.resolver? with
    | some resolver =>
      .call ⟨ctx.run, o.name, field.name, path, parent, arguments⟩ (resolver parent arguments)
        (ctx.completeField object nodes field.type path)
    | none =>
      ctx.completeField object nodes field.type path (.ok ((parent.entry? field.name).getD .null))

/-- The job of one response key. -/
def fieldJob (ctx : Context σ) (object : ObjectJob σ) (o : ObjectType σ) (parent : Value)
    (nodes : List (FieldNode Selection)) (path : Path) : Job σ :=
  match nodes with
  | [] => .done (some .null)
  | node :: _ =>
    if node.name = "__typename" then .done (some (.string o.name))
    else match o.field? node.name with
      | none => .done (some .null)
      | some field => ctx.resolveField object o parent nodes node field path

/-- The jobs of all response keys that are asked for. -/
def fieldJobs (ctx : Context σ) (object : ObjectJob σ) (o : ObjectType σ) (parent : Value)
    (groups : Groups) (path : Path) : List (Job σ) :=
  groups.map fun (key, nodes) => ctx.fieldJob object o parent nodes (path.field key)

/-- The job of an object, for requests that nest fields at most `depth` deep. -/
def objectJob (ctx : Context σ) : (depth : Nat) → ObjectJob σ
  | 0, _, _, _, _ => .sideBySide (.assembleObject []) []
  | depth + 1, o, v, selections, path =>
    let groups := ctx.schema.registry.collect o selections
    .sideBySide (.assembleObject (Keyed.keys groups))
      (ctx.fieldJobs (ctx.objectJob depth) o v groups path)

/-- The job of an operation: the fields at the root of a query side by side, those of a mutation
one after the other. -/
def operationJob (ctx : Context σ) (operation : Operation) (root : Value) : Job σ :=
  match ctx.schema.root? operation.kind with
  | none => .done (some .null)
  | some o =>
    let groups := ctx.schema.registry.collect o operation.selections
    let object := ctx.objectJob (Selection.depthAll operation.selections)
    let jobs := ctx.fieldJobs object o root groups []
    match operation.kind with
    | .query => .sideBySide (.assembleObject (Keyed.keys groups)) jobs
    | .mutation => .inTurn (.assembleObject (Keyed.keys groups)) jobs

end Context

end GraphQL
