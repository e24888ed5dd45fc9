import GraphQL.Name
import GraphQL.Schema.Scalars

/-!
# Type definitions

The named types of a schema: scalars, objects, enums, interfaces and unions. Fields of objects and
interfaces may be given at once or built on first use by a thunk, whose runs a `FieldSet` counts.
Resolvers may read and change a state `σ` that all of them share, when they are called and when
what they promised completes.
-/

namespace GraphQL

/-- The coerced arguments of a call, in the order of their declaration. An argument that was
neither given nor has a default is absent. -/
abbrev Arguments := Keyed Value

namespace Arguments

/-- The argument, if it is a string. -/
def string? (arguments : Arguments) (name : String) : Option String :=
  (Keyed.get? arguments name).bind Value.asString?

end Arguments

/-- What a resolver answers: a result, or the promise of one. A promise is kept after a delay, or
never. -/
inductive Resolution (σ : Type) where
  | ready (result : Except FieldError Value)
  | pending (delay? : Option Nat) (finish : σ → Except FieldError Value × σ)

/-- Resolves a field from its parent value and its arguments. -/
abbrev Resolver (σ : Type) := Value → Arguments → σ → Resolution σ × σ

/-- Names the object type of a value of an abstract type. -/
abbrev TypeResolver := Value → Option String

/-- Whether a field or an enum value should no longer be used, and why. -/
inductive Deprecation where
  | current
  | deprecated (reason? : Option String)
deriving DecidableEq, Repr

/-- A declared argument of a field. -/
structure Argument where
  name : String
  description? : Option String
  type : TypeRef
  default? : Option InputValue

/-- A declared field. Without a resolver it takes the entry of its name from the parent value. -/
structure Field (σ : Type) where
  name : String
  description? : Option String
  arguments : List Argument
  type : TypeRef
  deprecation : Deprecation
  resolver? : Option (Resolver σ)

namespace Field

variable {σ : Type}

/-- The first argument of a name. -/
def argument? (f : Field σ) (name : String) : Option Argument :=
  f.arguments.find? (·.name == name)

end Field

/-! ## Field sets are built once -/

/-- The fields of a type: a thunk, if they are built on first use, with what it would give each time
that it ran; what has been built; and how often the thunk has run. -/
structure FieldSet (σ : Type) where
  thunk? : Option (Nat → List (Field σ))
  built? : Option (List (Field σ))
  runs : Nat

namespace FieldSet

variable {σ : Type}

/-- Fields that are given at once. -/
def eager (fields : List (Field σ)) : FieldSet σ :=
  ⟨none, some fields, 0⟩

/-- Fields that a thunk will build. -/
def lazy (thunk : Nat → List (Field σ)) : FieldSet σ :=
  ⟨some thunk, none, 0⟩

/-- The fields, for which the thunk runs unless they are there already, and the set after that. -/
def get (s : FieldSet σ) : List (Field σ) × FieldSet σ :=
  match s.built?, s.thunk? with
  | some fields, _ => (fields, s)
  | none, some thunk =>
    let fields := thunk s.runs
    (fields, { s with built? := some fields, runs := s.runs + 1 })
  | none, none => ([], { s with built? := some [] })

/-- The set after its fields have been asked for. -/
def build (s : FieldSet σ) : FieldSet σ :=
  s.get.2

/-- The fields that whoever asks for them is given. -/
def fields (s : FieldSet σ) : List (Field σ) :=
  s.get.1

/-- Are the fields there? -/
def isBuilt (s : FieldSet σ) : Bool :=
  s.built?.isSome

@[simp] theorem isBuilt_build (s : FieldSet σ) : s.build.isBuilt = true := by
  rcases s with ⟨_ | thunk, _ | fields, runs⟩ <;> rfl

/-- Where fields have been built, asking for them changes nothing. -/
theorem build_of_isBuilt {s : FieldSet σ} (h : s.isBuilt = true) : s.build = s := by
  rcases s with ⟨thunk?, _ | fields, runs⟩
  · cases h
  · rfl

@[simp] theorem build_build (s : FieldSet σ) : s.build.build = s.build :=
  build_of_isBuilt s.isBuilt_build

/-- Asking once more gives the same fields. -/
@[simp] theorem fields_build (s : FieldSet σ) : s.build.fields = s.fields := by
  rcases s with ⟨_ | thunk, _ | fields, runs⟩ <;> rfl

end FieldSet

/-! ## Named types -/

/-- An object type and the names of the interfaces that it implements. -/
structure ObjectType (σ : Type) where
  name : String
  description? : Option String
  fieldSet : FieldSet σ
  interfaces : List String

namespace ObjectType

variable {σ : Type}

def fields (o : ObjectType σ) : List (Field σ) :=
  o.fieldSet.fields

/-- The object type with another field set in the place of its own. -/
def mapFieldSet {τ : Type} (f : FieldSet σ → FieldSet τ) (o : ObjectType σ) : ObjectType τ :=
  ⟨o.name, o.description?, f o.fieldSet, o.interfaces⟩

def field? (o : ObjectType σ) (name : String) : Option (Field σ) :=
  o.fields.find? (·.name == name)

end ObjectType

/-- A value of an enum: its name in literals and responses, and what resolvers see in its place. -/
structure EnumValue where
  name : String
  value : Value
  description? : Option String
  deprecation : Deprecation

/-- An enum type. -/
structure EnumType where
  name : String
  description? : Option String
  values : List EnumValue

namespace EnumType

/-- The first enum value of a name. -/
def value? (e : EnumType) (name : String) : Option EnumValue :=
  e.values.find? (·.name == name)

/-- The name of the first enum value that stands for the runtime value. -/
def serialize (e : EnumType) (v : Value) : Except FieldError Value :=
  match e.values.find? (fun candidate => candidate.value == v) with
  | some found => .ok (.string found.name)
  | none => .error (.ofFault (.enumValue e.name v))

end EnumType

/-- An interface type. Without a type resolver, values name their object type themselves. -/
structure InterfaceType (σ : Type) where
  name : String
  description? : Option String
  fieldSet : FieldSet σ
  resolveType? : Option TypeResolver

/-- The interface with another field set in the place of its own. -/
def InterfaceType.mapFieldSet {σ τ : Type} (f : FieldSet σ → FieldSet τ) (i : InterfaceType σ) :
    InterfaceType τ :=
  ⟨i.name, i.description?, f i.fieldSet, i.resolveType?⟩

/-- A union type and the names of its members. -/
structure UnionType where
  name : String
  description? : Option String
  members : List String
  resolveType? : Option TypeResolver

/-- The kinds of named types. -/
inductive TypeKind where
  | scalar
  | object
  | interface
  | union
  | enum
deriving DecidableEq, Repr

namespace TypeKind

/-- The kind as messages name it. -/
def label : TypeKind → String
  | .scalar => "Scalar"
  | .object => "Object"
  | .interface => "Interface"
  | .union => "Union"
  | .enum => "Enum"

/-- Are values of this kind leaves of a result? -/
def isLeaf : TypeKind → Bool
  | .scalar | .enum => true
  | _ => false

/-- Does a field of this kind need a selection set? -/
def isComposite : TypeKind → Bool
  | .object | .interface | .union => true
  | _ => false

/-- Do values of this kind belong to object types of their own? -/
def isAbstract : TypeKind → Bool
  | .interface | .union => true
  | _ => false

end TypeKind

/-- A named type. -/
inductive TypeDef (σ : Type) where
  | scalar (s : ScalarType)
  | object (o : ObjectType σ)
  | enum (e : EnumType)
  | interface (i : InterfaceType σ)
  | union (u : UnionType)

namespace TypeDef

variable {σ : Type}

def name : TypeDef σ → String
  | .scalar s => s.name
  | .object o => o.name
  | .enum e => e.name
  | .interface i => i.name
  | .union u => u.name

def description? : TypeDef σ → Option String
  | .scalar s => s.description?
  | .object o => o.description?
  | .enum e => e.description?
  | .interface i => i.description?
  | .union u => u.description?

def kind : TypeDef σ → TypeKind
  | .scalar _ => .scalar
  | .object _ => .object
  | .enum _ => .enum
  | .interface _ => .interface
  | .union _ => .union

/-- Only leaf types occur in arguments and variables. -/
def isInput (t : TypeDef σ) : Bool :=
  t.kind.isLeaf

/-- Is the name one of the engine's own? -/
def isBuiltin (t : TypeDef σ) : Bool :=
  Name.isReserved t.name || ["Boolean", "String", "Int", "Float", "ID"].contains t.name

/-- The field set of an object or an interface. -/
def fieldSet? : TypeDef σ → Option (FieldSet σ)
  | .object o => some o.fieldSet
  | .interface i => some i.fieldSet
  | _ => none

/-- The fields of an object or an interface; other types have none. -/
def fields? (t : TypeDef σ) : Option (List (Field σ)) :=
  t.fieldSet?.map FieldSet.fields

def field? (t : TypeDef σ) (name : String) : Option (Field σ) :=
  t.fields?.bind fun fields => fields.find? (·.name == name)

/-- The type with another field set in the place of its own, if it has one. -/
def mapFieldSet {τ : Type} (f : FieldSet σ → FieldSet τ) : TypeDef σ → TypeDef τ
  | .scalar s => .scalar s
  | .object o => .object (o.mapFieldSet f)
  | .enum e => .enum e
  | .interface i => .interface (i.mapFieldSet f)
  | .union u => .union u

/-- The type after its fields have been asked for. -/
def build (t : TypeDef σ) : TypeDef σ :=
  t.mapFieldSet FieldSet.build

section MapFieldSet

variable {τ : Type} (f : FieldSet σ → FieldSet τ) (t : TypeDef σ)

@[simp] theorem name_mapFieldSet : (t.mapFieldSet f).name = t.name := by
  cases t <;> rfl

@[simp] theorem kind_mapFieldSet : (t.mapFieldSet f).kind = t.kind := by
  cases t <;> rfl

theorem fieldSet?_mapFieldSet : (t.mapFieldSet f).fieldSet? = t.fieldSet?.map f := by
  cases t <;> rfl

theorem mapFieldSet_mapFieldSet {ρ : Type} (g : FieldSet τ → FieldSet ρ) :
    (t.mapFieldSet f).mapFieldSet g = t.mapFieldSet (g ∘ f) := by
  cases t <;> rfl

/-- What is put in the place of field sets matters for those that a type has. -/
theorem mapFieldSet_congr {g : FieldSet σ → FieldSet τ} {t : TypeDef σ}
    (h : ∀ s ∈ t.fieldSet?, f s = g s) : t.mapFieldSet f = t.mapFieldSet g := by
  cases t with
  | object o => simp only [mapFieldSet, ObjectType.mapFieldSet, h o.fieldSet rfl]
  | interface i => simp only [mapFieldSet, InterfaceType.mapFieldSet, h i.fieldSet rfl]
  | _ => rfl

end MapFieldSet

@[simp] theorem name_build (t : TypeDef σ) : t.build.name = t.name :=
  name_mapFieldSet _ t

@[simp] theorem build_build (t : TypeDef σ) : t.build.build = t.build := by
  rw [build, build, mapFieldSet_mapFieldSet]
  exact mapFieldSet_congr _ fun s _ => s.build_build

/-- Turns runtime data into a response literal; only leaf types can. -/
def serialize? : TypeDef σ → Option (Value → Except FieldError Value)
  | .scalar s => some s.serialize
  | .enum e => some e.serialize
  | _ => none

end TypeDef

end GraphQL
