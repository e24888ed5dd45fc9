import GraphQL.Request
import GraphQL.Schema.Basic

/-!
# Binding operations

Before an operation runs, every selection is bound to the schema: fields are looked up on the
static type, or failing that on the object types that its values may have, and fragments have to
overlap with it. `Schema.bind` lists what cannot be bound, in document order, without looking below
a selection at fault. An operation without such errors runs.
-/

namespace GraphQL

/-- Why a selection cannot be bound. -/
inductive BindingFault where
  | mutationsNotConfigured
  | introspectionDisabled
  | selectionOnTypename
  | unknownField (field type : String)
  | selectionOnLeaf (field : String) (type : TypeRef)
  | missingSelection (field : String) (type : TypeRef)
  | unknownCondition (condition : String)
  | nonCompositeCondition (condition : String)
  | impossibleCondition (parent condition : String)
deriving DecidableEq

namespace BindingFault

def message : BindingFault → String
  | .mutationsNotConfigured => "Schema is not configured for mutations"
  | .introspectionDisabled =>
    "GraphQL introspection is not allowed, but the operation contained \"__typename\""
  | .selectionOnTypename =>
    "Field \"__typename\" must not have a selection since type \"String!\" has no subfields"
  | .unknownField field type => s!"Unknown field \"{field}\" on type \"{type}\""
  | .selectionOnLeaf field type =>
    s!"Field \"{field}\" must not have a selection since type \"{type.display}\" has no subfields"
  | .missingSelection field type =>
    s!"Field \"{field}\" of type \"{type.display}\" must have a selection of subfields"
  | .unknownCondition condition => s!"Unknown type \"{condition}\""
  | .nonCompositeCondition condition =>
    s!"Fragment cannot condition on non composite type \"{condition}\""
  | .impossibleCondition parent condition =>
    s!"Fragment cannot be spread here as objects of type \"{parent}\" can never be of type " ++
      s!"\"{condition}\""

end BindingFault

/-- A fault and the response keys of the fields around it, the field at fault included. -/
structure BindingError where
  path : List String
  fault : BindingFault
deriving DecidableEq

namespace BindingError

def message (e : BindingError) : String :=
  e.fault.message

/-- The message, and where the fault is unless it is in the operation as a whole. -/
def display (e : BindingError) : String :=
  if e.path.isEmpty then e.message else e.message ++ ". At " ++ ".".intercalate e.path

end BindingError

/-- How a field is bound: to a leaf, to a type that selections go into, or not at all. -/
inductive FieldBinding (σ : Type) where
  | leaf
  | composite (t : TypeDef σ)
  | faulty (faults : List BindingFault)

namespace Schema

variable {σ : Type}

/-- The declaration of a field on a type or, if that is abstract, on the first object type its
values may have that declares the field. -/
def fieldFor? (s : Schema σ) (parent : TypeDef σ) (name : String) : Option (Field σ) :=
  match parent.field? name with
  | some f => some f
  | none =>
    if parent.kind.isAbstract then
      (s.registry.possibleTypes parent.name).findSome? fun o => o.field? name
    else none

/-- Binds a field by name; composite types need a selection set and leaves have none. -/
def bindField (s : Schema σ) (parent : TypeDef σ) (name : String) (hasSelections : Bool) :
    FieldBinding σ :=
  if name = "__typename" then
    .faulty ((if s.introspectionDisabled then [.introspectionDisabled] else []) ++
      (if hasSelections then [.selectionOnTypename] else []))
  else match s.fieldFor? parent name with
    | none => .faulty [.unknownField name parent.name]
    | some f =>
      match s.registry.lookup? f.type with
      | none => .leaf
      | some target =>
        match hasSelections, target.kind.isLeaf with
        | true, true => .faulty [.selectionOnLeaf name f.type]
        | false, false => .faulty [.missingSelection name f.type]
        | true, false => .composite target
        | false, true => .leaf

/-- The static type inside a fragment. -/
def bindCondition (s : Schema σ) (parent : TypeDef σ) : Option String →
    Except BindingFault (TypeDef σ)
  | none => .ok parent
  | some condition =>
    match s.registry.get? condition with
    | none => .error (.unknownCondition condition)
    | some t =>
      if !t.kind.isComposite then .error (.nonCompositeCondition condition)
      else if !s.registry.typesOverlap parent t then
        .error (.impossibleCondition parent.name condition)
      else .ok t

mutual

/-- What cannot be bound in a selection on a type; `path` holds the response keys around it. -/
def bindSelection (s : Schema σ) (parent : TypeDef σ) (path : List String) :
    Selection → List BindingError
  | .field ⟨alias?, name, _, none⟩ =>
    match s.bindField parent name false with
    | .faulty faults => faults.map (⟨path ++ [alias?.getD name], ·⟩)
    | _ => []
  | .field ⟨alias?, name, _, some selections⟩ =>
    match s.bindField parent name true with
    | .faulty faults => faults.map (⟨path ++ [alias?.getD name], ·⟩)
    | .composite t => s.bindAll t (path ++ [alias?.getD name]) selections
    | .leaf => []
  | .fragment condition? selections =>
    match s.bindCondition parent condition? with
    | .ok t => s.bindAll t path selections
    | .error fault => [⟨path, fault⟩]

/-- What cannot be bound in selections on a type, in document order. -/
def bindAll (s : Schema σ) (parent : TypeDef σ) (path : List String) :
    List Selection → List BindingError
  | [] => []
  | selection :: rest => s.bindSelection parent path selection ++ s.bindAll parent path rest

end

/-- Everything in the operation that cannot be bound. -/
def bind (s : Schema σ) (operation : Operation) : List BindingError :=
  match (s.rootName? operation.kind).bind s.registry.get? with
  | some root => s.bindAll root [] operation.selections
  | none => [⟨[], .mutationsNotConfigured⟩]

end Schema

end GraphQL
