import GraphQL.Decimal.Reader
import GraphQL.Error
import GraphQL.Text.Basic

/-!
# The built-in scalars

`String`, `Int`, `Float`, `Boolean` and `ID`. Serialization is generous: it turns runtime data of a
neighbouring class into a literal of the type wherever nothing is lost. Parsing is strict: it
accepts literals of the type alone, save that `Float` takes integers and `ID` takes integers.
-/

namespace GraphQL

/-- A scalar type with its two conversions: runtime data into a response literal, and an input
literal into runtime data. -/
structure ScalarType where
  name : String
  description? : Option String
  serialize : Value → Except FieldError Value
  parse : InputValue → Except FieldError Value

namespace ScalarType

/-- The integer that a number is, if it lies in the range of `Int`. -/
def intOfFloat? (x : Float) : Option Int32 :=
  (Binary64.ofFloat x).toInt?.bind Scalar.inRange?

/-- The number that a string spells between blanks. -/
def floatOfString? (s : String) : Option Float :=
  Decimal.readFloat? (Text.trimBlanks s.toList)

/-- Fails with the message that no value of the type stands for the runtime value. -/
def refuse (name : String) (expected? : Option String) (v : Value) : Except FieldError Value :=
  .error (.ofFault (.scalarValue name expected? v))

/-- Fails with the message that the literal is none of the type. -/
def refuseLiteral (name : String) (literal : InputValue) : Except FieldError Value :=
  .error (.resolver s!"{name} cannot represent value: {literal.display}")

/-! ## Serialization -/

/-- Every leaf has a text: strings are taken as they are, other leaves as messages show them. -/
def serializeString (v : Value) : Except FieldError Value :=
  match v with
  | .scalar (.string s) => .ok (.string s)
  | .scalar s => .ok (.string s.display)
  | _ => refuse "String" none v

/-- Takes integers, floats and strings that spell an integer in range, and booleans as 0 and 1. -/
def serializeInt (v : Value) : Except FieldError Value :=
  let int? : Option Int32 := match v with
    | .scalar (.int i) => some i
    | .scalar (.float x) => intOfFloat? x
    | .scalar (.boolean b) => some (if b then 1 else 0)
    | .scalar (.string s) => (floatOfString? s).bind intOfFloat?
    | _ => none
  match int? with
  | some i => .ok (.int i)
  | none => refuse "Int" (some "non-integer") v

/-- Takes finite numbers, strings that spell one, and booleans as 0 and 1. -/
def serializeFloat (v : Value) : Except FieldError Value :=
  let float? : Option Float := match v with
    | .scalar (.boolean b) => some (if b then 1.0 else 0.0)
    | .scalar (.string s) => floatOfString? s
    | .scalar s => s.asFloat?
    | _ => none
  match float?.filter Float.isFinite with
  | some x => .ok (.float x)
  | none => refuse "Float" (some "non numeric") v

/-- Takes booleans, and finite numbers by whether they differ from zero. -/
def serializeBoolean (v : Value) : Except FieldError Value :=
  match v with
  | .scalar (.boolean b) => .ok (.boolean b)
  | .scalar (.int i) => .ok (.boolean (i != 0))
  | .scalar (.float x) =>
    if x.isFinite then .ok (.boolean (x != 0.0)) else refuse "Boolean" (some "a non boolean") v
  | _ => refuse "Boolean" (some "a non boolean") v

/-- Takes strings and integers. -/
def serializeID (v : Value) : Except FieldError Value :=
  match v with
  | .scalar (.string s) => .ok (.string s)
  | .scalar (.int i) => .ok (.string (toString i))
  | _ => refuse "ID" none v

/-! ## Parsing -/

/-- Takes strings alone. -/
def parseString : InputValue → Except FieldError Value
  | .scalar (.string s) => .ok (.string s)
  | literal => refuseLiteral "String" literal

/-- Takes integers alone. -/
def parseInt : InputValue → Except FieldError Value
  | .scalar (.int i) => .ok (.int i)
  | literal => refuseLiteral "Int" literal

/-- Takes floats, and integers widened. -/
def parseFloat : InputValue → Except FieldError Value
  | .scalar (.int i) => .ok (.float (Float.ofInt i.toInt))
  | .scalar (.float x) => .ok (.float x)
  | literal => refuseLiteral "Float" literal

/-- Takes booleans alone. -/
def parseBoolean : InputValue → Except FieldError Value
  | .scalar (.boolean b) => .ok (.boolean b)
  | literal => refuseLiteral "Boolean" literal

/-- Takes strings and integers; both become strings. -/
def parseID : InputValue → Except FieldError Value
  | .scalar (.string s) => .ok (.string s)
  | .scalar (.int i) => .ok (.string (toString i))
  | literal => refuseLiteral "ID" literal

/-! ## The types -/

def string : ScalarType where
  name := "String"
  description? := some <|
    "The `String` scalar type represents textual data, represented as UTF-8 " ++
    "character sequences."
  serialize := serializeString
  parse := parseString

def int : ScalarType where
  name := "Int"
  description? := some <|
    "The `Int` scalar type represents non-fractional signed whole numeric " ++
    "values. Int can represent values between -(2^31) and 2^31 - 1."
  serialize := serializeInt
  parse := parseInt

def float : ScalarType where
  name := "Float"
  description? := some <|
    "The `Float` scalar type represents signed double-precision fractional " ++
    "values."
  serialize := serializeFloat
  parse := parseFloat

def boolean : ScalarType where
  name := "Boolean"
  description? := some "The `Boolean` scalar type represents `true` or `false`."
  serialize := serializeBoolean
  parse := parseBoolean

def id : ScalarType where
  name := "ID"
  description? := some <|
    "The `ID` scalar type represents a unique identifier, serialized as a " ++
    "String."
  serialize := serializeID
  parse := parseID

/-- The scalars that every registry begins with. -/
def builtins : List ScalarType :=
  [string, int, float, boolean, id]

end ScalarType

end GraphQL
