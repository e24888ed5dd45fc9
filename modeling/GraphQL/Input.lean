import GraphQL.Value.Display

/-!
# Input literals and variables

What is passed into an execution: arguments in a request, defaults in a schema, values of
variables. A literal may name an enum value or refer to a variable; `Variables.follow` looks
through a chain of variables that stand for one another.
-/

namespace GraphQL

/-- An argument literal, a default or the value of a variable. -/
inductive InputValue where
  | null
  | scalar (s : Scalar)
  | enum (name : String)
  | var (name : String)
  | list (items : List InputValue)

namespace InputValue

instance : Inhabited InputValue := ⟨.null⟩

/-- The leaf, and `null` for a missing one. -/
def ofScalar? : Option Scalar → InputValue
  | some s => .scalar s
  | none => .null

def isNull : InputValue → Bool
  | .null => true
  | _ => false

def isVar : InputValue → Bool
  | .var _ => true
  | _ => false

def asScalar? : InputValue → Option Scalar
  | .scalar s => some s
  | _ => none

def asEnum? : InputValue → Option String
  | .enum name => some name
  | _ => none

mutual

/-- The names of the variables in the literal, in order and with repetitions. -/
def references : InputValue → List String
  | .var name => [name]
  | .list items => referencesItems items
  | _ => []

def referencesItems : List InputValue → List String
  | [] => []
  | v :: rest => v.references ++ referencesItems rest

end

mutual

/-- Equality of literals; floating-point leaves are compared as numbers. -/
def same : InputValue → InputValue → Bool
  | .null, .null => true
  | .scalar s, .scalar t => s.same t
  | .enum a, .enum b => a == b
  | .var a, .var b => a == b
  | .list xs, .list ys => sameItems xs ys
  | _, _ => false

def sameItems : List InputValue → List InputValue → Bool
  | [], [] => true
  | x :: xs, y :: ys => x.same y && sameItems xs ys
  | _, _ => false

end

instance : BEq InputValue := ⟨same⟩

mutual

/-- The literal as a request spells it, save that strings have no escapes. -/
def display : InputValue → String
  | .null => "null"
  | .scalar s => s.display
  | .enum name => name
  | .var name => "$" ++ name
  | .list items => "[" ++ ", ".intercalate (displayItems items) ++ "]"

def displayItems : List InputValue → List String
  | [] => []
  | v :: rest => v.display :: displayItems rest

end

mutual

/-- A literal without variables and enum names taken over as a value, if the value has no object. -/
def ofValue? : Value → Option InputValue
  | .null => some .null
  | .scalar s => some (.scalar s)
  | .list items => (ofItems? items).map .list
  | .object _ => none

def ofItems? : List Value → Option (List InputValue)
  | [] => some []
  | v :: rest =>
    match ofValue? v, ofItems? rest with
    | some v, some rest => some (v :: rest)
    | _, _ => none

end

end InputValue

/-- The values of variables by name. -/
abbrev Variables := Keyed InputValue

namespace Variables

/-- Looks through at most `steps` variables from a literal on. The flag says whether the literal
came from a variable. A variable without a value stands for `null`. -/
def followFor (vars : Variables) : (steps : Nat) → InputValue → Bool → InputValue × Bool
  | 0, .var _, fromVariable => (.null, fromVariable)
  | steps + 1, .var name, fromVariable =>
    match Keyed.get? vars name with
    | some v => followFor vars steps v true
    | none => (.null, fromVariable)
  | _, v, fromVariable => (v, fromVariable)

/-- What a literal stands for: no variable, unless inside a list. A chain without repetition has at
most as many steps as there are variables. -/
def follow (vars : Variables) (v : InputValue) (fromVariable : Bool) : InputValue × Bool :=
  followFor vars vars.length v fromVariable

theorem isVar_followFor (vars : Variables) (steps : Nat) (v : InputValue) (fromVariable : Bool) :
    (followFor vars steps v fromVariable).1.isVar = false := by
  induction steps generalizing v fromVariable with
  | zero => cases v <;> rfl
  | succ n ih =>
    cases v with
    | var name =>
      rw [followFor]
      split
      · exact ih _ _
      · rfl
    | _ => rfl

theorem isVar_follow (vars : Variables) (v : InputValue) (fromVariable : Bool) :
    (follow vars v fromVariable).1.isVar = false :=
  isVar_followFor vars _ v fromVariable

end Variables

end GraphQL
