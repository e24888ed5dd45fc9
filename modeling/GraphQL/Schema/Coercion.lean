import GraphQL.Schema.Registry

/-!
# Coercion of arguments

Turns the literals of a request into what resolvers see, by recursion on the declared type.
Variables are looked through wherever a literal may stand; a single literal where a list is
expected makes a list of one; an enum value may be spelled as a string only if it came from a
variable, for variables have no enum literals.

An argument that is bound to a variable without a value counts as left out: it takes its default,
and without one it is absent, or missing if its type is non-null.
-/

namespace GraphQL

namespace EnumType

/-- The runtime value behind the enum value that a literal names. -/
def coerce (e : EnumType) (literal : InputValue) (fromVariable : Bool) : Except FieldError Value :=
  let name? : Option String := match literal with
    | .enum name => some name
    | .scalar (.string name) => if fromVariable then some name else none
    | _ => none
  match name? with
  | none => .error (.ofFault (.notEnumLiteral e.name literal))
  | some name =>
    match e.value? name with
    | some found => .ok found.value
    | none => .error (.ofFault (.unknownEnumValue name e.name))

end EnumType

namespace Registry

variable {σ : Type}

/-- Coerces a literal that is neither a variable nor `null` against a named type. -/
def coerceNamed (r : Registry σ) (name : String) (literal : InputValue) (fromVariable : Bool) :
    Except FieldError Value :=
  match r.get? name with
  | some (.scalar s) => (s.parse literal).mapError (·.orKind .invalidArgument)
  | some (.enum e) => e.coerce literal fromVariable
  | some _ => .error (.ofFault (.notInputType name))
  | none => .error (.ofFault (.unknownInputType name))

/-- Coerces a literal against a type. -/
def coerce (r : Registry σ) (vars : Variables) :
    TypeRef → InputValue → (fromVariable : Bool) → Except FieldError Value
  | .nonNull inner, literal, fromVariable =>
    match vars.follow literal fromVariable with
    | (.null, _) => .error (.ofFault (.nullArgument (.nonNull inner)))
    | (literal, fromVariable) => r.coerce vars inner literal fromVariable
  | .list item, literal, fromVariable =>
    match vars.follow literal fromVariable with
    | (.null, _) => .ok .null
    | (.list items, fromVariable) =>
      (items.mapM fun literal => r.coerce vars item literal fromVariable).map .list
    | (single, fromVariable) => (r.coerce vars item single fromVariable).map fun v => .list [v]
  | .named name, literal, fromVariable =>
    match vars.follow literal fromVariable with
    | (.null, _) => .ok .null
    | (literal, fromVariable) => r.coerceNamed name literal fromVariable

/-- The literal that is given for an argument, and whether it came from a variable. -/
def givenLiteral? (provided : Keyed InputValue) (vars : Variables) (name : String) :
    Option (InputValue × Bool) :=
  match Keyed.get? provided name with
  | some (.var v) => (Keyed.get? vars v).map fun literal => (literal, true)
  | some literal => some (literal, false)
  | none => none

/-- The value of one argument of a field, none if it is absent. -/
def coerceArgument (r : Registry σ) (field : Field σ) (provided : Keyed InputValue)
    (vars : Variables) (arg : Argument) : Except FieldError (Option Value) :=
  match givenLiteral? provided vars arg.name, arg.default? with
  | some (literal, fromVariable), _ =>
    ((r.coerce vars arg.type literal fromVariable).map some).mapError (·.inArgument arg.name)
  | none, some default =>
    ((r.coerce vars arg.type default false).map some).mapError (·.inArgument arg.name)
  | none, none =>
    if arg.type.isNonNull then .error (.ofFault (.missingArgument field.name arg.name arg.type))
    else .ok none

/-- The values of the arguments that are present, in order of declaration. -/
def coerceDeclared (r : Registry σ) (field : Field σ) (provided : Keyed InputValue)
    (vars : Variables) : List Argument → Except FieldError Arguments
  | [] => .ok []
  | arg :: rest =>
    match r.coerceArgument field provided vars arg with
    | .error e => .error e
    | .ok v? =>
      match r.coerceDeclared field provided vars rest with
      | .error e => .error e
      | .ok values => .ok (match v? with
        | some v => (arg.name, v) :: values
        | none => values)

/-- Coerces the arguments of a call; one that the field does not declare fails it first. -/
def coerceArguments (r : Registry σ) (field : Field σ) (provided : Keyed InputValue)
    (vars : Variables) : Except FieldError Arguments :=
  match (Keyed.keys provided).find? fun name => (field.argument? name).isNone with
  | some unknown => .error (.ofFault (.unknownArgument unknown field.name))
  | none => r.coerceDeclared field provided vars field.arguments

/-! ## What field sets hold makes no difference -/

section MapFieldSets

variable {τ : Type} (f : FieldSet σ → FieldSet τ) (r : Registry σ)

theorem coerceNamed_mapFieldSets (name : String) (literal : InputValue) (fromVariable : Bool) :
    (r.mapFieldSets f).coerceNamed name literal fromVariable =
      r.coerceNamed name literal fromVariable := by
  rw [coerceNamed, coerceNamed, get?_mapFieldSets]
  cases r.get? name with
  | none => rfl
  | some t => cases t <;> rfl

theorem coerce_mapFieldSets (vars : Variables) (type : TypeRef) (literal : InputValue)
    (fromVariable : Bool) :
    (r.mapFieldSets f).coerce vars type literal fromVariable =
      r.coerce vars type literal fromVariable := by
  induction type generalizing literal fromVariable with
  | named name => simp only [coerce, coerceNamed_mapFieldSets]
  | list item ih => simp only [coerce, ih]
  | nonNull inner ih => simp only [coerce, ih]

variable {field : Field σ} {field' : Field τ}

theorem coerceDeclared_mapFieldSets (hname : field'.name = field.name)
    (provided : Keyed InputValue) (vars : Variables) (arguments : List Argument) :
    (r.mapFieldSets f).coerceDeclared field' provided vars arguments =
      r.coerceDeclared field provided vars arguments := by
  have hargument : ∀ arg, (r.mapFieldSets f).coerceArgument field' provided vars arg =
      r.coerceArgument field provided vars arg := by
    intro arg
    simp only [coerceArgument, coerce_mapFieldSets, hname]
  induction arguments with
  | nil => rfl
  | cons arg rest ih => rw [coerceDeclared, coerceDeclared, hargument, ih]

/-- Fields of one name with the same arguments are called alike. -/
theorem coerceArguments_mapFieldSets (hname : field'.name = field.name)
    (harguments : field'.arguments = field.arguments) (provided : Keyed InputValue)
    (vars : Variables) :
    (r.mapFieldSets f).coerceArguments field' provided vars =
      r.coerceArguments field provided vars := by
  simp only [coerceArguments, coerceDeclared_mapFieldSets f r hname, Field.argument?, harguments,
    hname]

end MapFieldSets

end Registry

end GraphQL
