import GraphQL.Schema.Basic
import GraphQL.Text.Basic

/-!
# Descriptions

One-line texts that show values, types and whole schemas with all their parts. Describing a type
does not build its fields: a field set that has not been built is shown as lazy.
-/

namespace GraphQL

open Text (record variant row mapping optional quoted)

/-- A leaf with its class; floats keep a fraction. -/
def Scalar.describe : Scalar → String
  | .int i => variant "Int" (toString i)
  | .float x => variant "Float" (NumberFormat.descriptive.render x)
  | .string s => variant "String" (quoted s)
  | .boolean b => variant "Boolean" (if b then "true" else "false")

namespace Value

mutual

def describe : Value → String
  | .null => "Null"
  | .scalar s => variant "Scalar" s.describe
  | .list items => variant "List" (row (describeItems items))
  | .object entries =>
    variant "Object" (record "Object" [("key_value_list", mapping (describeEntries entries))])

def describeItems : List Value → List String
  | [] => []
  | v :: rest => v.describe :: describeItems rest

def describeEntries : List (String × Value) → List (String × String)
  | [] => []
  | (key, v) :: rest => (quoted key, v.describe) :: describeEntries rest

end

end Value

namespace InputValue

mutual

def describe : InputValue → String
  | .null => "Null"
  | .scalar s => variant "Scalar" s.describe
  | .enum name => variant "Enum" (quoted name)
  | .var name => variant "Variable" (quoted name)
  | .list items => variant "List" (row (describeItems items))

def describeItems : List InputValue → List String
  | [] => []
  | v :: rest => v.describe :: describeItems rest

end

end InputValue

def TypeRef.describe : TypeRef → String
  | .named name => variant "Named" (quoted name)
  | .list t => variant "List" t.describe
  | .nonNull t => variant "NonNull" t.describe

def FieldError.describe (e : FieldError) : String :=
  record "FieldError" [("message", quoted e.message), ("kind", e.kind.label),
    ("extensions", e.extensions.describe)]

/-- A result in full; of a promise it says only that it is one. -/
def Resolution.describe {σ : Type} : Resolution σ → String
  | .ready (.ok v) => variant "Ready" (variant "Ok" v.describe)
  | .ready (.error e) => variant "Ready" (variant "Err" e.describe)
  | .pending .. => variant "Pending" ".."

/-! ## Types -/

def Deprecation.describe : Deprecation → String
  | .current => "Current"
  | .deprecated reason? => variant "Deprecated" (optional quoted reason?)

def Argument.describe (a : Argument) : String :=
  record "Argument" [("name", quoted a.name), ("description", optional quoted a.description?),
    ("arg_type", a.type.describe), ("default_value", optional InputValue.describe a.default?)]

def EnumValue.describe (v : EnumValue) : String :=
  record "EnumValue" [("name", quoted v.name), ("value", v.value.describe),
    ("description", optional quoted v.description?),
    ("deprecation_status", v.deprecation.describe)]

section

variable {σ : Type}

/-- A field with all its parts; of a resolver it says only that there is one. -/
def Field.describe (f : Field σ) : String :=
  record "Field" [("name", quoted f.name), ("description", optional quoted f.description?),
    ("arguments", row (f.arguments.map Argument.describe)), ("field_type", f.type.describe),
    ("deprecation_status", f.deprecation.describe),
    ("resolver", optional (fun _ => quoted "..") f.resolver?)]

/-- The fields that are built; describing builds none. -/
def FieldSet.describe (s : FieldSet σ) : String :=
  match s.built? with
  | some fields => row (fields.map Field.describe)
  | none => "<lazy>"

/-- A type with all its parts. Conversions and type resolvers are not shown. -/
def TypeDef.describe : TypeDef σ → String
  | .scalar s => variant "Scalar" (record "ScalarMeta"
      [("name", quoted s.name), ("description", optional quoted s.description?)])
  | .object o => variant "Object" (record "ObjectMeta"
      [("name", quoted o.name), ("description", optional quoted o.description?),
        ("fields", o.fieldSet.describe), ("interface_names", row (o.interfaces.map quoted))])
  | .enum e => variant "Enum" (record "EnumMeta"
      [("name", quoted e.name), ("description", optional quoted e.description?),
        ("values", row (e.values.map EnumValue.describe))])
  | .interface i => variant "Interface" (record "InterfaceMeta"
      [("name", quoted i.name), ("description", optional quoted i.description?),
        ("fields", i.fieldSet.describe)])
  | .union u => variant "Union" (record "UnionMeta"
      [("name", quoted u.name), ("description", optional quoted u.description?),
        ("of_type_names", row (u.members.map quoted))])

/-- All types by name, in order of registration. -/
def Registry.describe (r : Registry σ) : String :=
  record "Registry" [("types", mapping (r.types.map fun t => (quoted t.name, t.describe)))]

def Schema.describe (s : Schema σ) : String :=
  record "Schema" [("registry", s.registry.describe), ("query_type_name", quoted s.queryName),
    ("mutation_type_name", optional quoted s.mutationName?),
    ("introspection_disabled", if s.introspectionDisabled then "true" else "false")]

end

end GraphQL
