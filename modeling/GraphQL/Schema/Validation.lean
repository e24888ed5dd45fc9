import GraphQL.Request
import GraphQL.Schema.Coercion
import GraphQL.Schema.Violation

/-!
# Checking a registry

Lists everything that is wrong with the types of a registry, type by type in order of registration
and within a type in order of declaration.
-/

namespace GraphQL

namespace Registry

variable {σ : Type}

/-! ## Names -/

/-- What is wrong with a name. -/
def nameDefects (role : NameRole) (name : String) : List Defect :=
  if !Name.isValid name then [.invalidName role name]
  else if Name.isReserved name then [.reservedName role name]
  else []

/-- Checks items in turn, each with the answer to whether its name was there before. -/
def checkEach {α : Type} (name : α → String) (check : (repeated : Bool) → α → List Defect) :
    (earlier : List String) → List α → List Defect
  | _, [] => []
  | earlier, x :: rest =>
    check (earlier.contains (name x)) x ++ checkEach name check (name x :: earlier) rest

/-! ## Fields and arguments -/

/-- What is wrong with a reference to a type. -/
def referenceDefects (r : Registry σ) (place : Place) (type : TypeRef) : List Defect :=
  (if type.hasNestedNonNull then [.nestedNonNull place type] else []) ++
  (if (r.lookup? type).isNone then [.unknownReference place type.innermost] else [])

/-- What is wrong with a default: it may hold no variable, and has to be coercible to its type. -/
def defaultDefects (r : Registry σ) (place : Place) (type : TypeRef) :
    Option InputValue → List Defect
  | none => []
  | some default =>
    if !default.references.isEmpty then [.variableInDefault place default]
    else match r.coerce [] type default false with
      | .ok _ => []
      | .error e => [.invalidDefault place default e]

/-- A type that is not known, or no input type, hides the defects of a default. -/
def argumentDefects (r : Registry σ) (place : Place) (arg : Argument) : List Defect :=
  r.referenceDefects place arg.type ++
  match r.lookup? arg.type with
  | none => []
  | some t =>
    if t.isInput then r.defaultDefects place arg.type arg.default?
    else [.nonInputArgument place arg.type]

/-- What is wrong with a field of a type, its arguments included. -/
def fieldDefects (r : Registry σ) (owner : String) (repeated : Bool) (f : Field σ) :
    List Defect :=
  let place := Place.field owner f.name
  nameDefects .field f.name ++
  (if repeated then [.duplicateField place] else []) ++
  r.referenceDefects place f.type ++
  checkEach Argument.name (fun repeated arg =>
    let place := Place.argument owner f.name arg.name
    nameDefects .argument arg.name ++
    (if repeated then [.duplicateArgument place] else []) ++
    r.argumentDefects place arg) [] f.arguments

/-- What is wrong with the fields of a type. -/
def fieldSetDefects (r : Registry σ) (owner : String) (fields : List (Field σ)) : List Defect :=
  (if fields.isEmpty then [.noFields owner] else []) ++
  checkEach Field.name (r.fieldDefects owner) [] fields

/-! ## Interfaces -/

/-- How an argument of an interface field is missed by the object's field. -/
def inheritedArgumentDefects (object interface : String) (inherited own : Field σ)
    (arg : Argument) : List Defect :=
  let place := Place.argument interface inherited.name arg.name
  match own.argument? arg.name with
  | none => [.missingArgument place (.field object own.name)]
  | some found =>
    if found.type = arg.type then []
    else [.incompatibleArgument place arg.type (.argument object own.name found.name) found.type]

/-- Callers of the interface field cannot know of an argument that only the object requires. -/
def extraArgumentDefects (object interface : String) (inherited own : Field σ)
    (arg : Argument) : List Defect :=
  if arg.type.isNonNull && arg.default?.isNone && (inherited.argument? arg.name).isNone then
    [.requiredExtraArgument (.field object own.name) arg.name (.field interface inherited.name)]
  else []

/-- How an object misses a field of an interface that it implements. -/
def inheritedFieldDefects (r : Registry σ) (o : ObjectType σ) (interface : String)
    (inherited : Field σ) : List Defect :=
  let place := Place.field interface inherited.name
  match o.field? inherited.name with
  | none => [.missingField o.name place]
  | some own =>
    (if r.isSubtype own.type inherited.type then []
      else [.incompatibleField place inherited.type (.field o.name own.name) own.type]) ++
    inherited.arguments.flatMap (inheritedArgumentDefects o.name interface inherited own) ++
    own.arguments.flatMap (extraArgumentDefects o.name interface inherited own)

/-- How an object misses an interface that it says to implement. -/
def interfaceDefects (r : Registry σ) (o : ObjectType σ) (interface : String) : List Defect :=
  match r.get? interface with
  | some (.interface i) => i.fieldSet.fields.flatMap (r.inheritedFieldDefects o interface)
  | some _ => [.notAnInterface o.name interface]
  | none => [.unknownInterface o.name interface]

/-! ## Enums and unions -/

/-- What is wrong with an enum. -/
def enumDefects (e : EnumType) : List Defect :=
  (if e.values.isEmpty then [.noEnumValues e.name] else []) ++
  checkEach EnumValue.name (fun repeated v =>
    nameDefects .enumValue v.name ++
    (if repeated then [.duplicateEnumValue e.name v.name] else [])) [] e.values

/-- What is wrong with a member of a union. -/
def memberDefects (r : Registry σ) (union : String) (repeated : Bool) (member : String) :
    List Defect :=
  (if repeated then [.duplicateMember union member] else []) ++
  match r.get? member with
  | some (.object _) => []
  | some _ => [.nonObjectMember union member]
  | none => [.unknownMember union member]

/-- What is wrong with a union. -/
def unionDefects (r : Registry σ) (u : UnionType) : List Defect :=
  (if u.members.isEmpty then [.noMembers u.name] else []) ++
  checkEach id (r.memberDefects u.name) [] u.members

/-! ## Types and roots -/

/-- What is wrong with a type. -/
def typeDefects (r : Registry σ) (t : TypeDef σ) : List Defect :=
  nameDefects .type t.name ++
  match t with
  | .scalar _ => []
  | .enum e => enumDefects e
  | .object o => r.fieldSetDefects o.name o.fields ++ o.interfaces.flatMap (r.interfaceDefects o)
  | .interface i => r.fieldSetDefects i.name i.fieldSet.fields
  | .union u => r.unionDefects u

/-- Everything that is wrong with the registered types. -/
def violations (r : Registry σ) : List Violation :=
  r.types.flatMap fun t => (r.typeDefects t).map (⟨t.name, ·⟩)

/-- The root of an operation has to be a registered object type. -/
def rootViolations (r : Registry σ) (operation : OperationKind) (name : String) :
    List Violation :=
  match r.get? name with
  | some (.object _) => []
  | some t => [⟨t.name, .nonObjectRoot operation.label t.kind.label⟩]
  | none => [⟨name, .unknownRoot operation.label name⟩]

end Registry

end GraphQL
