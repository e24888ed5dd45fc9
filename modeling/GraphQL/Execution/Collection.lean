import GraphQL.Schema.Registry
import GraphQL.Request

/-!
# Collecting fields

The selections that apply to values of an object type, fragments flattened, and grouped by response
key. Groups stand in the order in which their keys first come, and the nodes of a group in document
order. Fields that the object type does not declare are left out: they belong to another type that
the static type may be.
-/

namespace GraphQL

/-- The nodes that share a response key, by key. -/
abbrev Groups := Keyed (List (FieldNode Selection))

namespace ObjectType

variable {σ : Type}

/-- Has the object type the field, or is it the meta-field of every type? -/
def declares (o : ObjectType σ) (name : String) : Bool :=
  name == "__typename" || (o.field? name).isSome

end ObjectType

namespace Registry

variable {σ : Type}

/-- Adds a node to the group of its response key. -/
def addNode (groups : Groups) (node : FieldNode Selection) : Groups :=
  Keyed.update node.responseKey (fun group? => group?.getD [] ++ [node]) groups

mutual

/-- Adds a selection to groups, if it applies to the object type. -/
def collectSelection (r : Registry σ) (o : ObjectType σ) (groups : Groups) : Selection → Groups
  | .field node => if o.declares node.name then addNode groups node else groups
  | .fragment none selections => r.collectInto o groups selections
  | .fragment (some condition) selections =>
    if r.fragmentApplies condition o.name then r.collectInto o groups selections else groups

/-- Adds the selections that apply to the object type to groups. -/
def collectInto (r : Registry σ) (o : ObjectType σ) (groups : Groups) : List Selection → Groups
  | [] => groups
  | selection :: rest => r.collectInto o (r.collectSelection o groups selection) rest

end

/-- The selections that apply to the object type, grouped by response key. -/
def collect (r : Registry σ) (o : ObjectType σ) (selections : List Selection) : Groups :=
  r.collectInto o [] selections

section MapFieldSets

variable {τ : Type} {f : FieldSet σ → FieldSet τ} {o : ObjectType σ}

mutual

theorem collectSelection_mapFieldSets
    (ho : ∀ name, (o.mapFieldSet f).declares name = o.declares name) (r : Registry σ) :
    (selection : Selection) → (groups : Groups) →
    (r.mapFieldSets f).collectSelection (o.mapFieldSet f) groups selection =
      r.collectSelection o groups selection
  | .field node, groups => by
    rw [collectSelection, collectSelection, ho]
  | .fragment none selections, groups => by
    rw [collectSelection, collectSelection]
    exact collectInto_mapFieldSets ho r selections groups
  | .fragment (some condition) selections, groups => by
    rw [collectSelection, collectSelection, fragmentApplies_mapFieldSets,
      collectInto_mapFieldSets ho r selections]
    rfl

/-- Of field sets nothing matters but the fields that the object type declares. -/
theorem collectInto_mapFieldSets
    (ho : ∀ name, (o.mapFieldSet f).declares name = o.declares name) (r : Registry σ) :
    (selections : List Selection) → (groups : Groups) →
    (r.mapFieldSets f).collectInto (o.mapFieldSet f) groups selections =
      r.collectInto o groups selections
  | [], groups => by
    rw [collectInto, collectInto]
  | selection :: rest, groups => by
    rw [collectInto, collectInto, collectSelection_mapFieldSets ho r selection,
      collectInto_mapFieldSets ho r rest]

end

end MapFieldSets

end Registry

end GraphQL
