/-!
# Names

Names of types, fields, arguments and enum values: a letter or an underscore, then letters, digits
and underscores, all of them ASCII. Names that begin with two underscores belong to the engine.
-/

namespace GraphQL.Name

/-- May a name begin with the character? -/
def isStart (c : Char) : Bool :=
  c.isAlpha || c == '_'

/-- May the character stand behind the first of a name? -/
def isPart (c : Char) : Bool :=
  c.isAlphanum || c == '_'

/-- Is the text a name? -/
def isValid (s : String) : Bool :=
  match s.toList with
  | [] => false
  | c :: rest => isStart c && rest.all isPart

/-- Does the text begin like the names of the engine? -/
def isReserved (s : String) : Bool :=
  match s.toList with
  | '_' :: '_' :: _ => true
  | _ => false

/-- The pattern that names match, as messages spell it. -/
def pattern : String :=
  "/^[_a-zA-Z][_a-zA-Z0-9]*$/"

/-- Why a text is no name, if it is none. -/
def check (s : String) : Except String String :=
  if isValid s then .ok s
  else .error ("Names must match " ++ pattern ++ " but \"" ++ s ++ "\" does not")

/-- Those texts that are names, in order. -/
def sortValid (texts : List String) : List String :=
  (texts.filter isValid).mergeSort fun a b => a ≤ b

end GraphQL.Name
