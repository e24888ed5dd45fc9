import GraphQL.Value.Basic
import GraphQL.Decimal.Layout

/-!
# Values in messages

Strings stand between double quotes without escapes, and the parts of lists and objects are
separated by a comma and a blank.
-/

namespace GraphQL

/-- A leaf as messages show it. -/
def Scalar.display : Scalar → String
  | .int i => toString i
  | .float x => NumberFormat.display.render x
  | .string s => "\"" ++ s ++ "\""
  | .boolean b => if b then "true" else "false"

namespace Value

mutual

/-- The value as messages show it. -/
def display : Value → String
  | .null => "null"
  | .scalar s => s.display
  | .list items => "[" ++ ", ".intercalate (displayItems items) ++ "]"
  | .object entries => "\x7b" ++ ", ".intercalate (displayEntries entries) ++ "\x7d"

def displayItems : List Value → List String
  | [] => []
  | v :: rest => v.display :: displayItems rest

def displayEntries : List (String × Value) → List String
  | [] => []
  | (key, v) :: rest => ("\"" ++ key ++ "\": " ++ v.display) :: displayEntries rest

end

end Value

end GraphQL
