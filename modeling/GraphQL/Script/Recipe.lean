import GraphQL.Schema.Types
import GraphQL.Value.Object

/-!
# Scripted resolvers

Resolvers that are given as data. A recipe computes a result from the parent value, the arguments
and a counter that all resolvers share; a scripted resolver follows its recipe at once, after a
delay, or never.
-/

namespace GraphQL.Script

/-- Rows of values by name of the table and key of the row; the first row of a key counts. -/
abbrev Tables := List (String × List (String × Value))

/-- The row of a table, `null` if there is none. -/
def Tables.row (tables : Tables) (table key : String) : Value :=
  ((tables.lookup table).bind fun rows => rows.lookup key).getD .null

/-- A part of a text: as it stands, or the display of an argument. -/
inductive TextPart where
  | verbatim (text : String)
  | argument (name : String)
deriving DecidableEq, Repr

/-- How a result is computed. -/
inductive Recipe where
  | const (v : Value)
  | error (message : String) (extensions : Value)
  /-- An argument, or something else if it is absent. -/
  | argument (name : String) (absent : Value)
  | stringArgument (name : String)
  | arguments
  /-- How many arguments are present, and whether none is. -/
  | argumentCount
  | parent
  | entry (key : String)
  /-- The row of a table whose key is an argument. -/
  | find (table argument : String)
  /-- The rows of a table whose keys are listed in an entry of the parent. -/
  | findEach (table key : String)
  /-- The recipe beside the first value that is equal to an argument. -/
  | switch (argument : String) (cases : List (Value × Recipe)) (otherwise : Recipe)
  | format (parts : List TextPart)
  /-- Adds to the counter and gives its new state. -/
  | count (step : Int32)

/-- What the resolvers of a script share. -/
abbrev Counter := Int32

namespace TextPart

/-- The text of a part; that of an absent argument is empty. -/
def text (arguments : Arguments) : TextPart → String
  | .verbatim text => text
  | .argument name => ((Keyed.get? arguments name).map Value.display).getD ""

end TextPart

namespace Recipe

/-- The rows whose keys a list holds; what is no string has no row. -/
def rows (tables : Tables) (table : String) (keys : List Value) : List Value :=
  (keys.filterMap Value.asString?).map (tables.row table)

mutual

/-- The result of a recipe, and the counter after it. -/
def run (tables : Tables) (parent : Value) (arguments : Arguments) :
    Recipe → Counter → Except FieldError Value × Counter
  | .const v, n => (.ok v, n)
  | .error message extensions, n => (.error ⟨message, .resolver, extensions⟩, n)
  | .argument name absent, n => (.ok ((Keyed.get? arguments name).getD absent), n)
  | .stringArgument name, n => (.ok (((arguments.string? name).map Value.string).getD .null), n)
  | .arguments, n => (.ok (.object (Object.ofPairs arguments)), n)
  | .argumentCount, n =>
    (.ok (.list [.int (Int32.ofNat arguments.length), .boolean arguments.isEmpty]), n)
  | .parent, n => (.ok parent, n)
  | .entry key, n => (.ok ((parent.entry? key).getD .null), n)
  | .find table name, n => (.ok (tables.row table ((arguments.string? name).getD "")), n)
  | .findEach table key, n =>
    (.ok (.list (rows tables table (((parent.entry? key).bind Value.asList?).getD []))), n)
  | .switch name cases otherwise, n =>
    match (Keyed.get? arguments name).bind fun v =>
        runCase tables parent arguments v cases n with
    | some outcome => outcome
    | none => otherwise.run tables parent arguments n
  | .format parts, n => (.ok (.string (String.join (parts.map (TextPart.text arguments)))), n)
  | .count step, n => (.ok (.int (n + step)), n + step)

/-- The result of the recipe beside the first value that is equal to `v`. -/
def runCase (tables : Tables) (parent : Value) (arguments : Arguments) (v : Value) :
    List (Value × Recipe) → Counter → Option (Except FieldError Value × Counter)
  | [], _ => none
  | (candidate, recipe) :: rest, n =>
    if candidate == v then some (recipe.run tables parent arguments n)
    else runCase tables parent arguments v rest n

end

end Recipe

/-- When a recipe is followed. -/
inductive Timing where
  | atOnce
  | after (ticks : Nat)
  | never
deriving DecidableEq, Repr

/-- The resolver that follows a recipe. -/
def Recipe.resolver (recipe : Recipe) (tables : Tables) (timing : Timing) : Resolver Counter :=
  fun parent arguments n =>
    match timing with
    | .atOnce =>
      let (result, n) := recipe.run tables parent arguments n
      (.ready result, n)
    | .after ticks => (.pending (some ticks) (recipe.run tables parent arguments), n)
    | .never => (.pending none (recipe.run tables parent arguments), n)

end GraphQL.Script
