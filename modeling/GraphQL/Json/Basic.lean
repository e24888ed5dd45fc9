import GraphQL.Keyed

/-!
# JSON documents

A document keeps the members of its objects in the order in which they are written, duplicates
included. `Json.canonical` is the reading under which the order of members means nothing: they are
sorted by key, and the last of several members with one key counts.
-/

namespace GraphQL

/-- A number of a document: an integer between `-2 ^ 63` and `2 ^ 64`, or a finite float. -/
inductive JsonNumber where
  | integer (i : Int)
  | float (x : Float)
deriving DecidableEq

/-- A document. -/
inductive Json where
  | null
  | boolean (b : Bool)
  | number (n : JsonNumber)
  | string (s : String)
  | array (items : List Json)
  | object (members : List (String × Json))

namespace Json

instance : Inhabited Json := ⟨.null⟩

/-- Writes a member into members sorted by key. -/
def insertMember {α : Type} (key : String) (a : α) : List (String × α) → List (String × α)
  | [] => [(key, a)]
  | (k, b) :: rest =>
    match compare key k with
    | .lt => (key, a) :: (k, b) :: rest
    | .eq => (key, a) :: rest
    | .gt => (k, b) :: insertMember key a rest

/-- Sorts members by key; the last one of a key counts. -/
def sortMembers {α : Type} (members : List (String × α)) : List (String × α) :=
  members.foldl (fun sorted (key, a) => insertMember key a sorted) []

mutual

/-- The document with the members of all objects sorted. -/
def canonical : Json → Json
  | .array items => .array (canonicalItems items)
  | .object members => .object (sortMembers (canonicalMembers members))
  | j => j

def canonicalItems : List Json → List Json
  | [] => []
  | j :: rest => j.canonical :: canonicalItems rest

def canonicalMembers : List (String × Json) → List (String × Json)
  | [] => []
  | (key, j) :: rest => (key, j.canonical) :: canonicalMembers rest

end

end Json

end GraphQL
