/-!
# Type references

How fields and arguments refer to types: by name, wrapped into lists and non-null markers in any
nesting. Every reference ends in exactly one name.
-/

namespace GraphQL

/-- A reference to a type. -/
inductive TypeRef where
  | named (name : String)
  | list (item : TypeRef)
  | nonNull (inner : TypeRef)
deriving DecidableEq, Repr

namespace TypeRef

instance : Inhabited TypeRef := ⟨.named ""⟩

/-- The name of an unwrapped reference. -/
def name? : TypeRef → Option String
  | .named name => some name
  | _ => none

/-- The name that the reference ends in. -/
def innermost : TypeRef → String
  | .named name => name
  | .list t | .nonNull t => t.innermost

/-- Does the reference begin with a non-null marker? -/
def isNonNull : TypeRef → Bool
  | .nonNull _ => true
  | _ => false

/-- The reference without its outermost non-null marker. -/
def nullable : TypeRef → TypeRef
  | .nonNull t => t
  | t => t

/-- Does a non-null marker stand directly on another one? -/
def hasNestedNonNull : TypeRef → Bool
  | .named _ => false
  | .nonNull t => t.isNonNull || t.hasNestedNonNull
  | .list t => t.hasNestedNonNull

/-- The reference as a schema document spells it. -/
def display : TypeRef → String
  | .named name => name
  | .list t => "[" ++ t.display ++ "]"
  | .nonNull t => t.display ++ "!"

end TypeRef

end GraphQL
