import GraphQL.Input

/-!
# Requests

An operation is a list of selections on the query or the mutation root: fields, which may be
renamed, given arguments and selected from in turn, and inline fragments, which apply to some
runtime types only.
-/

namespace GraphQL

/-- A field that is asked for, over the type of the selections below it. A field without a
selection set is not the same as one with an empty set. -/
structure FieldNode (Sel : Type) where
  alias? : Option String
  name : String
  arguments : Keyed InputValue
  selections? : Option (List Sel)

/-- An entry of a selection set. -/
inductive Selection where
  | field (node : FieldNode Selection)
  | fragment (condition? : Option String) (selections : List Selection)

namespace FieldNode

/-- The key of the entry that the field makes in its result object. -/
def responseKey {Sel : Type} (node : FieldNode Sel) : String :=
  node.alias?.getD node.name

/-- The selections below the field; none if it has no set. -/
def children {Sel : Type} (node : FieldNode Sel) : List Sel :=
  node.selections?.getD []

end FieldNode

namespace Selection

mutual

/-- How deep fields are nested below one another; fragments add nothing. -/
def depth : Selection → Nat
  | .field ⟨_, _, _, none⟩ => 1
  | .field ⟨_, _, _, some selections⟩ => depthAll selections + 1
  | .fragment _ selections => depthAll selections

/-- How deep fields are nested in selections. -/
def depthAll : List Selection → Nat
  | [] => 0
  | s :: rest => max s.depth (depthAll rest)

end

end Selection

/-- What an operation does: it reads, or it changes something. -/
inductive OperationKind where
  | query
  | mutation
deriving DecidableEq, Repr

namespace OperationKind

/-- The kind as traces and messages name it. -/
def label : OperationKind → String
  | .query => "Query"
  | .mutation => "Mutation"

end OperationKind

/-- A request, already parsed. Its name serves the trace alone. -/
structure Operation where
  kind : OperationKind
  name? : Option String
  selections : List Selection

end GraphQL
