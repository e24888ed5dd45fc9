import GraphQL.Schema.Types

/-!
# Scripted scalars and type resolvers

Conversions and type resolvers that are chosen by name, for schemas that are given as data.
-/

namespace GraphQL.Script

/-- A pair of conversions of a scalar. -/
inductive Codec where
  /-- Takes everything as it is. -/
  | any
  /-- Fails on everything. -/
  | reject
  /-- Turns everything into `null`. -/
  | null
  /-- Serializes as `Int` parses, and parses as `Int` serializes. -/
  | crossed
deriving DecidableEq, Repr

namespace Codec

mutual

/-- The literal as a value: an enum value as its name, a variable as its spelling. -/
def plain : InputValue → Value
  | .null => .null
  | .scalar s => .scalar s
  | .enum name => .string name
  | .var name => .string ("$" ++ name)
  | .list items => .list (plainItems items)

def plainItems : List InputValue → List Value
  | [] => []
  | literal :: rest => plain literal :: plainItems rest

end

/-- The error of a codec that rejects. -/
def rejection : FieldError :=
  ⟨"rejected", .resolver, .object [("code", .int 42)]⟩

/-- The conversion of runtime data. -/
def serialize : Codec → Value → Except FieldError Value
  | .any, v => .ok v
  | .reject, _ => .error rejection
  | .null, _ => .ok .null
  | .crossed, .scalar s => ScalarType.parseInt (.scalar s)
  | .crossed, _ => ScalarType.parseInt .null

/-- The conversion of literals. -/
def parse : Codec → InputValue → Except FieldError Value
  | .any, literal => .ok (plain literal)
  | .reject, _ => .error rejection
  | .null, _ => .ok .null
  | .crossed, literal => ScalarType.serializeInt (plain literal)

/-- The scalar type with these conversions. -/
def scalarType (codec : Codec) (name : String) (description? : Option String) : ScalarType :=
  ⟨name, description?, codec.serialize, codec.parse⟩

end Codec

/-- How the object type of a value is told. -/
inductive TypeRule where
  | always (name : String)
  /-- The string in an entry of the value. -/
  | entry (key : String)
  /-- The type that stands beside the first key that the value has. -/
  | firstKey (types : List (String × String))
deriving DecidableEq, Repr

/-- The type resolver that follows a rule. -/
def TypeRule.resolve : TypeRule → TypeResolver
  | .always name, _ => some name
  | .entry key, v => (v.entry? key).bind Value.asString?
  | .firstKey types, v =>
    (types.find? fun (key, _) => (v.entry? key).isSome).map Prod.snd

end GraphQL.Script
