import GraphQL.Proofs.Json.Members

/-!
# What documents hold

Three properties of documents: the keys of all objects ascend (`Json.Sorted`), all numbers are of a
certain kind (`Json.EachNumber`), and there are no objects at all (`Json.ObjectFree`). Sorting the
members of all objects gives a document of the first kind and leaves those of the last as they are.
The parts of a document are taken out by `Json.member?` and the like, for which sorting makes no
difference (`Json.member?_canonical`).
-/

namespace GraphQL

namespace JsonNumber

/-- The number is one that documents hold: an integer of 64 bits, with a sign or without, or a
finite float. -/
def IsValid : JsonNumber → Prop
  | .integer i => Int64.minValue.toInt ≤ i ∧ i < UInt64.size
  | .float x => x.isFinite = true

/-- If the number is an integer, then one that a leaf can be. -/
def IsShort : JsonNumber → Prop
  | .integer i => Int32.minValue.toInt ≤ i ∧ i ≤ Int32.maxValue.toInt
  | .float _ => True

end JsonNumber

namespace Json

theorem canonicalItems_eq_map (items : List Json) : canonicalItems items = items.map canonical := by
  induction items with
  | nil => rw [canonicalItems, List.map_nil]
  | cons j rest ih => rw [canonicalItems, ih, List.map_cons]

theorem canonicalMembers_eq_map (members : List (String × Json)) :
    canonicalMembers members = members.map fun e => (e.1, e.2.canonical) := by
  induction members with
  | nil => rw [canonicalMembers, List.map_nil]
  | cons e rest ih => rw [canonicalMembers, ih, List.map_cons]

/-! ## Keys and numbers -/

mutual

/-- The keys of every object in the document ascend. -/
def Sorted : Json → Prop
  | .array items => SortedItems items
  | .object members => Ascending members ∧ SortedMembers members
  | _ => True

def SortedItems : List Json → Prop
  | [] => True
  | j :: rest => j.Sorted ∧ SortedItems rest

def SortedMembers : List (String × Json) → Prop
  | [] => True
  | (_, j) :: rest => j.Sorted ∧ SortedMembers rest

end

mutual

/-- Every number in the document has the property. -/
def EachNumber (P : JsonNumber → Prop) : Json → Prop
  | .number n => P n
  | .array items => EachNumberItems P items
  | .object members => EachNumberMembers P members
  | _ => True

def EachNumberItems (P : JsonNumber → Prop) : List Json → Prop
  | [] => True
  | j :: rest => j.EachNumber P ∧ EachNumberItems P rest

def EachNumberMembers (P : JsonNumber → Prop) : List (String × Json) → Prop
  | [] => True
  | (_, j) :: rest => j.EachNumber P ∧ EachNumberMembers P rest

end

theorem sortedMembers_iff {members : List (String × Json)} :
    SortedMembers members ↔ ∀ e ∈ members, e.2.Sorted := by
  induction members with
  | nil => simp [SortedMembers]
  | cons e rest ih => simp [SortedMembers, ih]

theorem eachNumberMembers_iff {P : JsonNumber → Prop} {members : List (String × Json)} :
    EachNumberMembers P members ↔ ∀ e ∈ members, e.2.EachNumber P := by
  induction members with
  | nil => simp [EachNumberMembers]
  | cons e rest ih => simp [EachNumberMembers, ih]

mutual

theorem sorted_canonical : (j : Json) → j.canonical.Sorted
  | .null => trivial
  | .boolean _ => trivial
  | .number _ => trivial
  | .string _ => trivial
  | .array items => sortedItems_canonicalItems items
  | .object members => by
    refine ⟨ascending_sortMembers _, sortedMembers_iff.2 fun e he => ?_⟩
    exact sortedMembers_iff.1 (sortedMembers_canonicalMembers members) e (mem_sortMembers he)

theorem sortedItems_canonicalItems : (items : List Json) → SortedItems (canonicalItems items)
  | [] => trivial
  | j :: rest => ⟨sorted_canonical j, sortedItems_canonicalItems rest⟩

theorem sortedMembers_canonicalMembers : (members : List (String × Json)) →
    SortedMembers (canonicalMembers members)
  | [] => trivial
  | (_, j) :: rest => ⟨sorted_canonical j, sortedMembers_canonicalMembers rest⟩

end

/-! ## Documents without objects -/

mutual

/-- There is no object in the document, at any depth. -/
def ObjectFree : Json → Prop
  | .array items => ObjectFreeItems items
  | .object _ => False
  | _ => True

def ObjectFreeItems : List Json → Prop
  | [] => True
  | j :: rest => j.ObjectFree ∧ ObjectFreeItems rest

end

theorem objectFreeItems_iff {items : List Json} :
    ObjectFreeItems items ↔ ∀ j ∈ items, j.ObjectFree := by
  induction items with
  | nil => simp [ObjectFreeItems]
  | cons j rest ih => simp [ObjectFreeItems, ih]

mutual

/-- A document without objects has no members to sort. -/
theorem canonical_of_objectFree : {j : Json} → j.ObjectFree → j.canonical = j
  | .null, _ => rfl
  | .boolean _, _ => rfl
  | .number _, _ => rfl
  | .string _, _ => rfl
  | .array _, h => congrArg array (canonicalItems_of_objectFree h)

theorem canonicalItems_of_objectFree : {items : List Json} → ObjectFreeItems items →
    canonicalItems items = items
  | [], _ => rfl
  | _ :: _, h => by
    rw [canonicalItems, canonical_of_objectFree h.1, canonicalItems_of_objectFree h.2]

end

mutual

/-- Sorting members takes no object away. -/
theorem objectFree_of_canonical : {j : Json} → j.canonical.ObjectFree → j.ObjectFree
  | .null, _ => trivial
  | .boolean _, _ => trivial
  | .number _, _ => trivial
  | .string _, _ => trivial
  | .array _, h => objectFreeItems_of_canonicalItems h
  | .object _, h => h

theorem objectFreeItems_of_canonicalItems : {items : List Json} →
    ObjectFreeItems (canonicalItems items) → ObjectFreeItems items
  | [], _ => trivial
  | _ :: _, h => ⟨objectFree_of_canonical h.1, objectFreeItems_of_canonicalItems h.2⟩

end

/-! ## Parts of documents -/

/-- What an object of the document holds under the key. -/
def member? (j : Json) (key : String) : Option Json :=
  match j with
  | .object members => Keyed.get? members key
  | _ => none

def asString? : Json → Option String
  | .string s => some s
  | _ => none

def asArray? : Json → Option (List Json)
  | .array items => some items
  | _ => none

def asObject? : Json → Option (List (String × Json))
  | .object members => some members
  | _ => none

/-- Sorting members leaves under each key what is written there. -/
theorem member?_canonical {members : List (String × Json)} (h : (Keyed.keys members).Nodup)
    (key : String) :
    (object members).canonical.member? key = (Keyed.get? members key).map canonical := by
  rw [canonical, member?, canonicalMembers_eq_map, get?_sortMembers (by rwa [keys_map]),
    Keyed.get?_map fun _ => canonical]

end Json

end GraphQL
