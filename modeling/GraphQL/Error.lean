import GraphQL.Input
import GraphQL.Path
import GraphQL.TypeRef

/-!
# Field errors

An error has a message, a kind and extensions. Errors of resolvers and custom scalars come with a
message of their own; the engine's own are a `Fault`, which names the cause, and its kind and
wording follow from that. A located error adds the position; such errors are ordered by position,
then by message.
-/

namespace GraphQL

/-- The classes of field errors. -/
inductive ErrorKind where
  | unknownArgument
  | missingRequiredArgument
  | unknownEnumValue
  | nullArgument
  | invalidArgument
  | abstractTypeResolution
  | nonNullViolation
  | serialization
  | resolver
deriving DecidableEq, Repr

namespace ErrorKind

/-- The kind as responses spell it. -/
def code : ErrorKind → String
  | .unknownArgument => "UNKNOWN_ARGUMENT"
  | .missingRequiredArgument => "MISSING_REQUIRED_ARGUMENT"
  | .unknownEnumValue => "UNKNOWN_ENUM_VALUE"
  | .nullArgument => "NULL_ARGUMENT"
  | .invalidArgument => "INVALID_ARGUMENT"
  | .abstractTypeResolution => "ABSTRACT_TYPE_RESOLUTION"
  | .nonNullViolation => "NON_NULL_VIOLATION"
  | .serialization => "SERIALIZATION"
  | .resolver => "RESOLVER"

/-- The kind as descriptions name it. -/
def label : ErrorKind → String
  | .unknownArgument => "UnknownArgument"
  | .missingRequiredArgument => "MissingRequiredArgument"
  | .unknownEnumValue => "UnknownEnumValue"
  | .nullArgument => "NullArgument"
  | .invalidArgument => "InvalidArgument"
  | .abstractTypeResolution => "AbstractTypeResolution"
  | .nonNullViolation => "NonNullViolation"
  | .serialization => "Serialization"
  | .resolver => "Resolver"

end ErrorKind

/-- An error of a single field; `null` extensions are no extensions. -/
structure FieldError where
  message : String
  kind : ErrorKind
  extensions : Value

/-- Why the engine itself fails a field. -/
inductive Fault where
  | unknownArgument (argument field : String)
  | missingArgument (field argument : String) (type : TypeRef)
  | nullArgument (type : TypeRef)
  | notEnumLiteral (enum : String) (literal : InputValue)
  | unknownEnumValue (name enum : String)
  | notInputType (name : String)
  | unknownInputType (name : String)
  | unresolvedType (abstract : String)
  | resolvedToNonObject (abstract name : String)
  | resolvedToUnknown (abstract name : String)
  | notPossibleType (abstract name : String)
  | nullInNonNull (type : TypeRef)
  | notAList (type : TypeRef) (value : Value)
  | unknownOutputType (name : String)
  | enumValue (enum : String) (value : Value)
  | scalarValue (scalar : String) (expected? : Option String) (value : Value)

namespace Fault

/-- The class that a fault belongs to. -/
def kind : Fault → ErrorKind
  | .unknownArgument .. => .unknownArgument
  | .missingArgument .. => .missingRequiredArgument
  | .nullArgument .. => .nullArgument
  | .unknownEnumValue .. => .unknownEnumValue
  | .notEnumLiteral .. | .notInputType .. | .unknownInputType .. => .invalidArgument
  | .unresolvedType .. | .resolvedToNonObject .. | .resolvedToUnknown .. | .notPossibleType .. =>
    .abstractTypeResolution
  | .nullInNonNull .. => .nonNullViolation
  | .notAList .. | .unknownOutputType .. | .enumValue .. | .scalarValue .. => .serialization

/-- What a response says about a fault. -/
def message : Fault → String
  | .unknownArgument argument field =>
    s!"Unknown argument \"{argument}\" on field \"{field}\""
  | .missingArgument field argument type =>
    s!"Field \"{field}\" argument \"{argument}\" of type \"{type.display}\" is required, but it " ++
      "was not provided"
  | .nullArgument type => s!"Expected non-nullable type \"{type.display}\" not to be null"
  | .notEnumLiteral enum literal =>
    s!"Enum \"{enum}\" cannot represent non-enum value: {literal.display}"
  | .unknownEnumValue name enum => s!"Value \"{name}\" does not exist in \"{enum}\" enum"
  | .notInputType name => s!"Type \"{name}\" is not an input type"
  | .unknownInputType name | .unknownOutputType name => s!"Unknown type \"{name}\""
  | .unresolvedType abstract =>
    s!"Abstract type \"{abstract}\" must resolve to an Object type at runtime. Either the " ++
      s!"\"{abstract}\" type should provide a type resolver or the value should carry a " ++
      "\"__typename\" entry"
  | .resolvedToNonObject abstract name =>
    s!"Abstract type \"{abstract}\" was resolved to a non-object type \"{name}\""
  | .resolvedToUnknown abstract name =>
    s!"Abstract type \"{abstract}\" was resolved to a type \"{name}\" that does not exist " ++
      "inside the schema"
  | .notPossibleType abstract name =>
    s!"Runtime Object type \"{name}\" is not a possible type for \"{abstract}\""
  | .nullInNonNull type => s!"Cannot return null for non-nullable type \"{type.display}\""
  | .notAList type value =>
    s!"Expected a list for type \"{type.display}\", found: {value.display}"
  | .enumValue enum value => s!"Enum \"{enum}\" cannot represent value: {value.display}"
  | .scalarValue scalar none value => s!"{scalar} cannot represent value: {value.display}"
  | .scalarValue scalar (some expected) value =>
    s!"{scalar} cannot represent {expected} value: {value.display}"

end Fault

namespace FieldError

/-- An error with a message of a resolver's own. -/
def resolver (message : String) : FieldError :=
  ⟨message, .resolver, .null⟩

/-- The error of a fault; it has no extensions. -/
def ofFault (fault : Fault) : FieldError :=
  ⟨fault.message, fault.kind, .null⟩

/-- Gives an error without a more specific kind the kind of the place where it arose. -/
def orKind (e : FieldError) (kind : ErrorKind) : FieldError :=
  if e.kind = .resolver then { e with kind := kind } else e

/-- Says which argument the error is about. -/
def inArgument (e : FieldError) (argument : String) : FieldError :=
  { e with message := s!"Invalid value for argument \"{argument}\": {e.message}" }

def same (a b : FieldError) : Bool :=
  a.message == b.message && a.kind = b.kind && a.extensions.same b.extensions

end FieldError

/-- An error and the position of the field that failed. -/
structure LocatedError where
  path : Path
  error : FieldError

namespace LocatedError

/-- By position, then by message. -/
def compare (a b : LocatedError) : Ordering :=
  (a.path.compare b.path).then (Ord.compare a.error.message b.error.message)

def same (a b : LocatedError) : Bool :=
  a.path = b.path && a.error.same b.error

/-- The errors by position, then by message; equals keep their order. -/
def sorted (errors : List LocatedError) : List LocatedError :=
  errors.mergeSort fun a b => (a.compare b).isLE

end LocatedError

end GraphQL
