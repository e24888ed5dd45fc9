import GraphQL.Error
import GraphQL.Name

/-!
# Violations of the rules of a schema

Each violation names the type at fault and the defect; the rule that is broken and the wording of
the message follow from the defect.
-/

namespace GraphQL

/-- The rules that schemas keep. -/
inductive SchemaRule where
  | invalidName
  | reservedName
  | emptyFields
  | emptyEnum
  | emptyUnion
  | duplicateName
  | unknownType
  | nonInputArgument
  | nestedNonNull
  | invalidDefaultValue
  | notAnInterface
  | missingInterfaceField
  | incompatibleFieldType
  | missingInterfaceArgument
  | incompatibleArgumentType
  | requiredExtraArgument
  | nonObjectUnionMember
  | invalidRootType
deriving DecidableEq, Repr

namespace SchemaRule

/-- The rule as traces and answers name it. -/
def label : SchemaRule → String
  | .invalidName => "invalid name"
  | .reservedName => "reserved name"
  | .emptyFields => "no fields"
  | .emptyEnum => "no enum values"
  | .emptyUnion => "no union members"
  | .duplicateName => "duplicate name"
  | .unknownType => "unknown type"
  | .nonInputArgument => "non-input argument"
  | .nestedNonNull => "nested non-null"
  | .invalidDefaultValue => "invalid default value"
  | .notAnInterface => "not an interface"
  | .missingInterfaceField => "missing interface field"
  | .incompatibleFieldType => "incompatible field type"
  | .missingInterfaceArgument => "missing interface argument"
  | .incompatibleArgumentType => "incompatible argument type"
  | .requiredExtraArgument => "required extra argument"
  | .nonObjectUnionMember => "non-object union member"
  | .invalidRootType => "invalid root type"

end SchemaRule

/-- What has the name that is at fault. -/
inductive NameRole where
  | type
  | field
  | argument
  | enumValue
deriving DecidableEq, Repr

/-- The role as messages name it. -/
def NameRole.label : NameRole → String
  | .type => "Type"
  | .field => "Field"
  | .argument => "Argument"
  | .enumValue => "Enum value"

/-- A place in a type where a type is referred to. -/
inductive Place where
  | field (owner name : String)
  | argument (owner name arg : String)
deriving DecidableEq, Repr

/-- The place as messages spell it. -/
def Place.display : Place → String
  | .field owner name => s!"{owner}.{name}"
  | .argument owner name arg => s!"{owner}.{name}({arg}:)"

/-- What is wrong with a type. -/
inductive Defect where
  | invalidName (role : NameRole) (name : String)
  | reservedName (role : NameRole) (name : String)
  | noEnumValues (enum : String)
  | duplicateEnumValue (enum value : String)
  | noFields (type : String)
  | duplicateField (place : Place)
  | duplicateArgument (place : Place)
  | nestedNonNull (place : Place) (type : TypeRef)
  | unknownReference (place : Place) (name : String)
  | nonInputArgument (place : Place) (type : TypeRef)
  | variableInDefault (place : Place) (default : InputValue)
  | invalidDefault (place : Place) (default : InputValue) (error : FieldError)
  | notAnInterface (object name : String)
  | unknownInterface (object name : String)
  | missingField (object : String) (inherited : Place)
  | incompatibleField (inherited : Place) (expected : TypeRef) (own : Place) (actual : TypeRef)
  | missingArgument (inherited own : Place)
  | incompatibleArgument (inherited : Place) (expected : TypeRef) (own : Place) (actual : TypeRef)
  | requiredExtraArgument (own : Place) (argument : String) (inherited : Place)
  | noMembers (union : String)
  | duplicateMember (union member : String)
  | nonObjectMember (union member : String)
  | unknownMember (union member : String)
  | nonObjectRoot (operation kind : String)
  | unknownRoot (operation name : String)

namespace Defect

/-- The rule that a defect breaks. -/
def rule : Defect → SchemaRule
  | .invalidName .. => .invalidName
  | .reservedName .. => .reservedName
  | .noEnumValues .. => .emptyEnum
  | .noFields .. => .emptyFields
  | .noMembers .. => .emptyUnion
  | .duplicateEnumValue .. | .duplicateField .. | .duplicateArgument .. | .duplicateMember .. =>
    .duplicateName
  | .nestedNonNull .. => .nestedNonNull
  | .unknownReference .. | .unknownInterface .. | .unknownMember .. => .unknownType
  | .nonInputArgument .. => .nonInputArgument
  | .variableInDefault .. | .invalidDefault .. => .invalidDefaultValue
  | .notAnInterface .. => .notAnInterface
  | .missingField .. => .missingInterfaceField
  | .incompatibleField .. => .incompatibleFieldType
  | .missingArgument .. => .missingInterfaceArgument
  | .incompatibleArgument .. => .incompatibleArgumentType
  | .requiredExtraArgument .. => .requiredExtraArgument
  | .nonObjectMember .. => .nonObjectUnionMember
  | .nonObjectRoot .. | .unknownRoot .. => .invalidRootType

/-- What is said about a defect. -/
def message : Defect → String
  | .invalidName role name =>
    s!"{role.label} names must match {Name.pattern} but \"{name}\" does not"
  | .reservedName role name =>
    s!"{role.label} \"{name}\" must not begin with \"__\", which is reserved"
  | .noEnumValues enum => s!"Enum \"{enum}\" must define one or more values"
  | .duplicateEnumValue enum value => s!"Enum value \"{enum}.{value}\" is defined more than once"
  | .noFields type => s!"Type \"{type}\" must define one or more fields"
  | .duplicateField place => s!"Field \"{place.display}\" is defined more than once"
  | .duplicateArgument place => s!"Argument \"{place.display}\" is defined more than once"
  | .nestedNonNull place type =>
    s!"Type of \"{place.display}\" wraps a non-null type into a non-null type: {type.display}"
  | .unknownReference place name => s!"\"{place.display}\" references unknown type \"{name}\""
  | .nonInputArgument place type =>
    s!"The type of \"{place.display}\" must be an input type, got \"{type.display}\""
  | .variableInDefault place default =>
    s!"Default value {default.display} of \"{place.display}\" is invalid: variables are not allowed"
  | .invalidDefault place default error =>
    s!"Default value {default.display} of \"{place.display}\" is invalid: {error.message}"
  | .notAnInterface object name =>
    s!"Type \"{object}\" can only implement interfaces, and \"{name}\" is not one"
  | .unknownInterface object name =>
    s!"Type \"{object}\" implements unknown interface \"{name}\""
  | .missingField object inherited =>
    s!"Interface field \"{inherited.display}\" expected but \"{object}\" does not provide it"
  | .incompatibleField inherited expected own actual =>
    s!"Interface field \"{inherited.display}\" expects type \"{expected.display}\" but " ++
      s!"\"{own.display}\" is type \"{actual.display}\""
  | .missingArgument inherited own =>
    s!"Interface field argument \"{inherited.display}\" expected but \"{own.display}\" does not " ++
      "provide it"
  | .incompatibleArgument inherited expected own actual =>
    s!"Interface field argument \"{inherited.display}\" expects type \"{expected.display}\" but " ++
      s!"\"{own.display}\" is type \"{actual.display}\""
  | .requiredExtraArgument own argument inherited =>
    s!"Object field \"{own.display}\" includes required argument \"{argument}\" that is missing " ++
      s!"from the interface field \"{inherited.display}\""
  | .noMembers union => s!"Union \"{union}\" must define one or more member types"
  | .duplicateMember union member =>
    s!"Union \"{union}\" can only include type \"{member}\" once"
  | .nonObjectMember union member =>
    s!"Union \"{union}\" can only include object types, it cannot include \"{member}\""
  | .unknownMember union member => s!"Union \"{union}\" includes unknown type \"{member}\""
  | .nonObjectRoot operation kind =>
    s!"{operation} root type must be an object type, got {kind}"
  | .unknownRoot operation name => s!"{operation} root type \"{name}\" is not registered"

end Defect

/-- A defect and the name of the type that has it. -/
structure Violation where
  typeName : String
  defect : Defect

namespace Violation

/-- The rule that is broken. -/
def rule (v : Violation) : SchemaRule :=
  v.defect.rule

/-- What is said about the violation; the type is not named. -/
def message (v : Violation) : String :=
  v.defect.message

/-- The message with the type in front of it. -/
def display (v : Violation) : String :=
  s!"{v.typeName}: {v.message}"

end Violation

end GraphQL
