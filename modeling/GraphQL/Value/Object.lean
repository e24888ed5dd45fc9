import GraphQL.Value.Basic

/-!
# Building objects

Writing an object onto an object merges the two, at every depth; any other pair leaves the new
value. An object is built by writing its pairs one after the other, so a key stands where it first
came and its keys are distinct.
-/

namespace GraphQL

mutual

/-- What a place that holds `old` holds after `new` is written to it. -/
def Value.overwrite (old : Value) : (new : Value) → Value
  | .null => .null
  | .scalar s => .scalar s
  | .list items => .list items
  | .object new =>
    match old with
    | .object entries => .object (Object.addAll entries new)
    | _ => .object new

/-- Writes entries in turn; one whose key is new goes to the end. -/
def Object.addAll (entries : Object) : List (String × Value) → Object
  | [] => entries
  | (key, v) :: rest =>
    Object.addAll
      (Keyed.update key (fun | none => v | some old => Value.overwrite old v) entries) rest

end

namespace Object

/-- Writes a value under a key. -/
def add (entries : Object) (key : String) (v : Value) : Object :=
  Keyed.update key (fun | none => v | some old => Value.overwrite old v) entries

/-- The value that `add` throws away: what the key holds, unless the two are merged. -/
def replaced? (entries : Object) (key : String) (v : Value) : Option Value :=
  match Keyed.get? entries key, v with
  | some (.object _), .object _ => none
  | old?, _ => old?

/-- The object that the pairs make, written one after the other. -/
def ofPairs (pairs : List (String × Value)) : Object :=
  addAll [] pairs

@[simp] theorem addAll_nil (entries : Object) : addAll entries [] = entries := by
  rw [addAll]

@[simp] theorem addAll_cons (entries : Object) (key : String) (v : Value)
    (rest : List (String × Value)) :
    addAll entries ((key, v) :: rest) = addAll (add entries key v) rest := by
  rw [addAll, add]

theorem addAll_append (entries : Object) (xs ys : List (String × Value)) :
    addAll entries (xs ++ ys) = addAll (addAll entries xs) ys := by
  induction xs generalizing entries with
  | nil => simp
  | cons e xs ih =>
    obtain ⟨key, v⟩ := e
    simp [ih]

end Object

end GraphQL
