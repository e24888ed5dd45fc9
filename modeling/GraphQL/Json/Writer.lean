import GraphQL.Decimal.Layout
import GraphQL.Json.Basic
import GraphQL.Text.Basic

/-!
# Writing documents

The text of a document without any blank outside of strings. In strings, quotes, backslashes and
control characters are escaped, and everything else stands as it is.
-/

namespace GraphQL.Json

/-- A character as it stands in a string. -/
def escape (c : Char) : String :=
  match c with
  | '"' => "\\\""
  | '\\' => "\\\\"
  | '\n' => "\\n"
  | '\r' => "\\r"
  | '\t' => "\\t"
  | '\x08' => "\\b"
  | '\x0c' => "\\f"
  | c =>
    if c.toNat < 0x10 then "\\u000" ++ Text.hex c.toNat
    else if c.toNat < 0x20 then "\\u00" ++ Text.hex c.toNat
    else c.toString

/-- A string with its quotes. -/
def quote (s : String) : String :=
  "\"" ++ String.join (s.toList.map escape) ++ "\""

/-- The text of a number; a float always has a fraction or an exponent. -/
def renderNumber : JsonNumber → String
  | .integer i => toString i
  | .float x => NumberFormat.document.render x

mutual

/-- The text of a document. -/
def render : Json → String
  | .null => "null"
  | .boolean b => if b then "true" else "false"
  | .number n => renderNumber n
  | .string s => quote s
  | .array items => "[" ++ ",".intercalate (renderItems items) ++ "]"
  | .object members => "\x7b" ++ ",".intercalate (renderMembers members) ++ "\x7d"

def renderItems : List Json → List String
  | [] => []
  | j :: rest => j.render :: renderItems rest

def renderMembers : List (String × Json) → List String
  | [] => []
  | (key, j) :: rest => (quote key ++ ":" ++ j.render) :: renderMembers rest

end

end GraphQL.Json
