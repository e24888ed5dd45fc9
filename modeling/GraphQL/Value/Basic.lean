import GraphQL.Keyed

/-!
# Runtime values

What resolvers hand over and what a result is made of: `null`, leaves, lists, and objects whose
entries keep the order of insertion. Two values are the `same` when they agree up to the order of
object entries; floating-point leaves are compared as numbers, so a value that holds a NaN is not
the same as itself.
-/

namespace GraphQL

/-- A leaf of runtime data or of a literal. -/
inductive Scalar where
  | int (i : Int32)
  | float (x : Float)
  | string (s : String)
  | boolean (b : Bool)
deriving DecidableEq

namespace Scalar

/-- The integer, if it lies in the range of integer leaves. -/
def inRange? (i : Int) : Option Int32 :=
  if Int32.minValue.toInt ≤ i ∧ i ≤ Int32.maxValue.toInt then some (Int32.ofInt i) else none

/-- The integer, if the leaf is one. -/
def asInt? : Scalar → Option Int32
  | .int i => some i
  | _ => none

def asString? : Scalar → Option String
  | .string s => some s
  | _ => none

def asBoolean? : Scalar → Option Bool
  | .boolean b => some b
  | _ => none

/-- The number, an integer widened. -/
def asFloat? : Scalar → Option Float
  | .int i => some (Float.ofInt i.toInt)
  | .float x => some x
  | _ => none

def same : Scalar → Scalar → Bool
  | .int i, .int j => i == j
  | .float x, .float y => x == y
  | .string s, .string t => s == t
  | .boolean a, .boolean b => a == b
  | _, _ => false

end Scalar

/-- A value that flows through an execution. -/
inductive Value where
  | null
  | scalar (s : Scalar)
  | list (items : List Value)
  | object (entries : List (String × Value))

/-- The entries of an object, in order of insertion. -/
abbrev Object := Keyed Value

namespace Value

instance : Inhabited Value := ⟨.null⟩

abbrev int (i : Int32) : Value := .scalar (.int i)
abbrev float (x : Float) : Value := .scalar (.float x)
abbrev string (s : String) : Value := .scalar (.string s)
abbrev boolean (b : Bool) : Value := .scalar (.boolean b)

/-- The leaf, and `null` for a missing one. -/
def ofScalar? : Option Scalar → Value
  | some s => .scalar s
  | none => .null

def isNull : Value → Bool
  | .null => true
  | _ => false

def asScalar? : Value → Option Scalar
  | .scalar s => some s
  | _ => none

def asString? : Value → Option String
  | .scalar (.string s) => some s
  | _ => none

def asList? : Value → Option (List Value)
  | .list items => some items
  | _ => none

def asObject? : Value → Option Object
  | .object entries => some entries
  | _ => none

/-- The entry of an object under a key; other values have no entries. -/
def entry? (v : Value) (key : String) : Option Value :=
  v.asObject?.bind fun entries => Keyed.get? entries key

mutual

/-- Equality of values: objects agree when they have as many entries and the same value under
each key, in any order. -/
def same : Value → Value → Bool
  | .null, .null => true
  | .scalar s, .scalar t => s.same t
  | .list xs, .list ys => sameItems xs ys
  | .object xs, .object ys => xs.length == ys.length && sameEntries xs ys
  | _, _ => false

def sameItems : List Value → List Value → Bool
  | [], [] => true
  | x :: xs, y :: ys => x.same y && sameItems xs ys
  | _, _ => false

/-- Has each entry of the first list the same value in the second? -/
def sameEntries : List (String × Value) → List (String × Value) → Bool
  | [], _ => true
  | (key, x) :: xs, ys =>
    (match Keyed.get? ys key with
      | some y => x.same y
      | none => false) && sameEntries xs ys

end

instance : BEq Value := ⟨same⟩

mutual

/-- The keys of every object in the value are distinct. -/
def DistinctKeys : Value → Prop
  | .null => True
  | .scalar _ => True
  | .list items => DistinctKeysItems items
  | .object entries => (Keyed.keys entries).Nodup ∧ DistinctKeysEntries entries

def DistinctKeysItems : List Value → Prop
  | [] => True
  | v :: rest => v.DistinctKeys ∧ DistinctKeysItems rest

def DistinctKeysEntries : List (String × Value) → Prop
  | [] => True
  | (_, v) :: rest => v.DistinctKeys ∧ DistinctKeysEntries rest

end

end Value

end GraphQL
