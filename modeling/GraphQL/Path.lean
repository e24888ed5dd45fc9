/-!
# Positions in a result

A path leads from the root of a result to a position in it, by response keys and list indices.
Paths are ordered segment by segment, a key before an index and a path before its extensions.
-/

namespace GraphQL

/-- A step from a position to one right below it. -/
inductive PathSegment where
  | field (key : String)
  | index (i : Nat)
deriving DecidableEq, Repr

namespace PathSegment

/-- The segment as text. -/
def display : PathSegment → String
  | .field key => key
  | .index i => toString i

def compare : PathSegment → PathSegment → Ordering
  | .field a, .field b => Ord.compare a b
  | .field _, .index _ => .lt
  | .index _, .field _ => .gt
  | .index i, .index j => Ord.compare i j

end PathSegment

/-- The segments from the root on. -/
abbrev Path := List PathSegment

namespace Path

/-- The position under a response key. -/
def field (p : Path) (key : String) : Path :=
  p ++ [.field key]

/-- The position of a list item. -/
def index (p : Path) (i : Nat) : Path :=
  p ++ [.index i]

def compare : Path → Path → Ordering
  | [], [] => .eq
  | [], _ :: _ => .lt
  | _ :: _, [] => .gt
  | a :: p, b :: q => (a.compare b).then (compare p q)

/-- The segments with a separator between them. -/
def join (separator : String) (p : Path) : String :=
  separator.intercalate (p.map PathSegment.display)

end Path

end GraphQL
