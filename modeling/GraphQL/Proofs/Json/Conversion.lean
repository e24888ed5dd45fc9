import GraphQL.Json.Conversion
import GraphQL.Proofs.Json.Documents
import GraphQL.Proofs.Objects
import GraphQL.Proofs.Sameness

/-!
# Values and documents invert each other

Turning a value into a document gives what writing it and sorting the members of all objects gives
(`Value.canonical_document`). A document whose members are sorted and whose integers fit leaves is
what its value is turned into (`Value.toJson_ofJson`). Two values that documents can hold are the
same if one document comes of both (`Value.same_of_toJson_eq`); so a value that went through a
document is the same as before, but for the numbers that documents cannot hold
(`Value.document_roundTrip`).
-/

namespace GraphQL

/-! ## Numbers -/

namespace Scalar

/-- It makes no difference whether an integer is first taken as one of 64 bits. -/
theorem ofNumber_integer (i : Int) : ofNumber (.integer i) = ofSigned i := by
  have hmin : Int32.minValue.toInt = -2 ^ 31 := Int32.toInt_minValue
  have hmax : Int32.maxValue.toInt = 2 ^ 31 - 1 := Int32.toInt_maxValue
  have hmin' : Int64.minValue.toInt = -2 ^ 63 := Int64.toInt_minValue
  have hmax' : Int64.maxValue.toInt = 2 ^ 63 - 1 := Int64.toInt_maxValue
  unfold ofNumber ofSigned JsonNumber.asInt64?
  dsimp only
  by_cases h : Int64.minValue.toInt ≤ i ∧ i ≤ Int64.maxValue.toInt
  · have hi : (Int64.ofInt i).toInt = i := Int64.toInt_ofInt_of_le (by omega) (by omega)
    rw [if_pos h, Option.bind_some, hi, inRange?]
    by_cases hs : Int32.minValue.toInt ≤ i ∧ i ≤ Int32.maxValue.toInt
    · rw [if_pos hs, if_pos hs]
    · rw [if_neg hs, if_neg hs]
      rfl
  · have hs : ¬ (Int32.minValue.toInt ≤ i ∧ i ≤ Int32.maxValue.toInt) := by omega
    rw [if_neg h, if_neg hs]
    rfl

theorem ofSigned_of_isShort {i : Int} (h : (JsonNumber.integer i).IsShort) :
    ofSigned i = .int (Int32.ofInt i) :=
  if_pos h

theorem isShort_toInt (i : Int32) : (JsonNumber.integer i.toInt).IsShort := by
  have hlt := i.toInt_lt
  have hge := i.le_toInt
  have hmin : Int32.minValue.toInt = -2 ^ 31 := Int32.toInt_minValue
  have hmax : Int32.maxValue.toInt = 2 ^ 31 - 1 := Int32.toInt_maxValue
  exact ⟨by omega, by omega⟩

/-- Integers that leaves can be have 64 bits. -/
theorem isValid_of_isShort {i : Int} (h : (JsonNumber.integer i).IsShort) :
    (JsonNumber.integer i).IsValid := by
  have hmin : Int32.minValue.toInt = -2 ^ 31 := Int32.toInt_minValue
  have hmax : Int32.maxValue.toInt = 2 ^ 31 - 1 := Int32.toInt_maxValue
  have hmin' : Int64.minValue.toInt = -2 ^ 63 := Int64.toInt_minValue
  have hsize : UInt64.size = 2 ^ 64 := rfl
  obtain ⟨hge, hle⟩ := h
  exact ⟨by omega, by omega⟩

theorem toJson_float_of_isFinite {x : Float} (h : x.isFinite = true) :
    (float x).toJson = .number (.float x) := by
  simp [toJson, JsonNumber.ofFloat?, h]

theorem toJson_float_of_not_isFinite {x : Float} (h : ¬ x.isFinite = true) :
    (float x).toJson = .null := by
  simp [toJson, JsonNumber.ofFloat?, h]

theorem canonical_document (s : Scalar) : s.document.canonical = s.toJson := by
  cases s with
  | float x =>
    rw [document]
    split
    · next h =>
      rw [toJson_float_of_isFinite h]
      rfl
    · next h =>
      rw [toJson_float_of_not_isFinite h]
      rfl
  | _ => rfl

theorem eachNumber_toJson (s : Scalar) : s.toJson.EachNumber fun n => n.IsValid ∧ n.IsShort := by
  cases s with
  | int i => exact ⟨isValid_of_isShort (isShort_toInt i), isShort_toInt i⟩
  | float x =>
    by_cases h : x.isFinite = true
    · rw [toJson_float_of_isFinite h]
      exact ⟨h, trivial⟩
    · rw [toJson_float_of_not_isFinite h]
      trivial
  | _ => trivial

/-- A number that a leaf can be is what the leaf that it is read as is turned into. -/
theorem toJson_ofNumber {n : JsonNumber} (h : n.IsValid ∧ n.IsShort) :
    (ofNumber n).toJson = .number n := by
  cases n with
  | float x => exact toJson_float_of_isFinite h.1
  | integer i =>
    have hmin : Int32.minValue.toInt = -2 ^ 31 := Int32.toInt_minValue
    have hmax : Int32.maxValue.toInt = 2 ^ 31 - 1 := Int32.toInt_maxValue
    obtain ⟨hge, hle⟩ := h.2
    have hi : (Int32.ofInt i).toInt = i := Int32.toInt_ofInt_of_le (by omega) (by omega)
    rw [ofNumber_integer, ofSigned_of_isShort h.2, toJson, hi]

theorem isFinite_ofNumber {n : JsonNumber} (h : n.IsValid ∧ n.IsShort) :
    (ofNumber n).IsFinite := by
  cases n with
  | float x => exact h.1
  | integer i =>
    rw [ofNumber_integer, ofSigned_of_isShort h.2]
    trivial

/-- A leaf that documents can hold is not turned into `null`. -/
theorem toJson_ne_null {s : Scalar} (h : s.IsFinite) : s.toJson ≠ .null := by
  cases s with
  | float x =>
    rw [toJson_float_of_isFinite h]
    exact Json.noConfusion
  | _ => exact Json.noConfusion

/-- A leaf that documents can hold is read as it was. -/
theorem ofJson_toJson {s : Scalar} (h : s.IsFinite) : Value.ofJson s.toJson = .scalar s := by
  cases s with
  | int i =>
    rw [toJson, Value.ofJson, ofNumber_integer, ofSigned_of_isShort (isShort_toInt i),
      Int32.ofInt_toInt]
  | float x =>
    rw [toJson_float_of_isFinite h, Value.ofJson]
    rfl
  | _ => rw [toJson, Value.ofJson]

theorem eq_of_toJson_eq {s t : Scalar} (hs : s.IsFinite) (ht : t.IsFinite)
    (h : s.toJson = t.toJson) : s = t := by
  have hv := ofJson_toJson hs
  rw [h, ofJson_toJson ht] at hv
  exact (Value.scalar.inj hv).symm

/-- The leaf, and `null` for a number that is not finite. -/
def finitePart : Scalar → Value
  | .float x => if x.isFinite then .float x else .null
  | s => .scalar s

theorem finitePart_eq_or (s : Scalar) :
    (s.finitePart = .scalar s ∧ s.IsFinite) ∨ (s.finitePart = .null ∧ s.toJson = .null) := by
  cases s with
  | float x =>
    rw [finitePart]
    split
    · next h => exact .inl ⟨rfl, h⟩
    · next h => exact .inr ⟨rfl, toJson_float_of_not_isFinite h⟩
  | _ => exact .inl ⟨rfl, trivial⟩

end Scalar

namespace Value

mutual

/-- All numbers in the value are finite. -/
def FiniteFloats : Value → Prop
  | .null => True
  | .scalar s => s.IsFinite
  | .list items => FiniteFloatsItems items
  | .object entries => FiniteFloatsEntries entries

def FiniteFloatsItems : List Value → Prop
  | [] => True
  | v :: rest => v.FiniteFloats ∧ FiniteFloatsItems rest

def FiniteFloatsEntries : List (String × Value) → Prop
  | [] => True
  | (_, v) :: rest => v.FiniteFloats ∧ FiniteFloatsEntries rest

end

mutual

/-- The value with `null` in place of every number that is not finite. -/
def finitePart : Value → Value
  | .null => .null
  | .scalar s => s.finitePart
  | .list items => .list (finitePartItems items)
  | .object entries => .object (finitePartEntries entries)

def finitePartItems : List Value → List Value
  | [] => []
  | v :: rest => v.finitePart :: finitePartItems rest

def finitePartEntries : List (String × Value) → List (String × Value)
  | [] => []
  | (key, v) :: rest => (key, v.finitePart) :: finitePartEntries rest

end

theorem finiteFloatsEntries_iff {entries : List (String × Value)} :
    FiniteFloatsEntries entries ↔ ∀ e ∈ entries, e.2.FiniteFloats := by
  induction entries with
  | nil => simp [FiniteFloatsEntries]
  | cons e rest ih => simp [FiniteFloatsEntries, ih]

/-! ## Turning into documents -/

theorem toJsonItems_eq_map (items : List Value) : toJsonItems items = items.map toJson := by
  induction items with
  | nil => rw [toJsonItems, List.map_nil]
  | cons v rest ih => rw [toJsonItems, ih, List.map_cons]

theorem toJsonEntries_eq_foldl (members : List (String × Json)) (entries : List (String × Value)) :
    toJsonEntries members entries = (entries.map fun e => (e.1, e.2.toJson)).foldl
      (fun sorted e => Json.insertMember e.1 e.2 sorted) members := by
  induction entries generalizing members with
  | nil => rw [toJsonEntries, List.map_nil, List.foldl_nil]
  | cons e rest ih => rw [toJsonEntries, ih, List.map_cons, List.foldl_cons]

theorem toJson_object (entries : List (String × Value)) :
    (object entries).toJson =
      .object (Json.sortMembers (entries.map fun e => (e.1, e.2.toJson))) := by
  rw [toJson, toJsonEntries_eq_foldl]
  rfl

mutual

/-- **Writing a value and turning it into a document are one**, but for the order of members. -/
theorem canonical_document : (v : Value) → v.document.canonical = v.toJson
  | .null => rfl
  | .scalar s => s.canonical_document
  | .list items => by
    rw [document, Json.canonical, toJson, canonicalItems_documentItems items]
  | .object entries => by
    rw [document, Json.canonical, toJson_object, canonicalMembers_documentEntries entries]

theorem canonicalItems_documentItems : (items : List Value) →
    Json.canonicalItems (documentItems items) = toJsonItems items
  | [] => by rw [documentItems, Json.canonicalItems, toJsonItems]
  | v :: rest => by
    rw [documentItems, Json.canonicalItems, toJsonItems, canonical_document v,
      canonicalItems_documentItems rest]

theorem canonicalMembers_documentEntries : (entries : List (String × Value)) →
    Json.canonicalMembers (documentEntries entries) = entries.map fun e => (e.1, e.2.toJson)
  | [] => by rw [documentEntries, Json.canonicalMembers, List.map_nil]
  | (key, v) :: rest => by
    rw [documentEntries, Json.canonicalMembers, List.map_cons, canonical_document v,
      canonicalMembers_documentEntries rest]

end

theorem sorted_toJson (v : Value) : v.toJson.Sorted := by
  rw [← canonical_document]
  exact Json.sorted_canonical v.document

/-! ## Reading documents -/

theorem ofJsonItems_eq_map (items : List Json) : ofJsonItems items = items.map ofJson := by
  induction items with
  | nil => rw [ofJsonItems, List.map_nil]
  | cons j rest ih => rw [ofJsonItems, ih, List.map_cons]

theorem ofJsonMembers_eq_addAll (entries : Object) (members : List (String × Json)) :
    ofJsonMembers entries members =
      Object.addAll entries (members.map fun e => (e.1, ofJson e.2)) := by
  induction members generalizing entries with
  | nil => rw [ofJsonMembers, List.map_nil, Object.addAll_nil]
  | cons e rest ih => rw [ofJsonMembers, ih, List.map_cons, Object.addAll_cons]

theorem ofJson_object {members : List (String × Json)} (h : (Keyed.keys members).Nodup) :
    ofJson (.object members) = .object (members.map fun e => (e.1, ofJson e.2)) := by
  have hk : (Keyed.keys (members.map fun e => (e.1, ofJson e.2))).Nodup := by
    simpa [Keyed.keys, Function.comp_def] using h
  rw [ofJson, ofJsonMembers_eq_addAll]
  exact congrArg object (Object.ofPairs_self hk)

mutual

/-- **A document with sorted members comes back from its value**, if its integers are such as leaves
can be. -/
theorem toJson_ofJson : (j : Json) → j.Sorted →
    (j.EachNumber fun n => n.IsValid ∧ n.IsShort) → (ofJson j).toJson = j
  | .null, _, _ => rfl
  | .boolean _, _, _ => rfl
  | .number n, _, hn => by
    rw [ofJson, toJson]
    exact Scalar.toJson_ofNumber hn
  | .string _, _, _ => rfl
  | .array items, hs, hn => by
    rw [ofJson, toJson, ofJsonItems_eq_map, toJsonItems_eq_map, toJson_ofJson_items items hs hn]
  | .object members, hs, hn => by
    rw [ofJson_object hs.1.nodup, toJson_object, toJson_ofJson_members members hs.2 hn,
      Json.sortMembers_of_ascending hs.1]

theorem toJson_ofJson_items : (items : List Json) → Json.SortedItems items →
    (Json.EachNumberItems (fun n => n.IsValid ∧ n.IsShort) items) →
      (items.map ofJson).map toJson = items
  | [], _, _ => rfl
  | j :: rest, hs, hn => by
    rw [List.map_cons, List.map_cons, toJson_ofJson j hs.1 hn.1,
      toJson_ofJson_items rest hs.2 hn.2]

theorem toJson_ofJson_members : (members : List (String × Json)) → Json.SortedMembers members →
    (Json.EachNumberMembers (fun n => n.IsValid ∧ n.IsShort) members) →
      (members.map fun e => (e.1, ofJson e.2)).map (fun e => (e.1, e.2.toJson)) = members
  | [], _, _ => rfl
  | (key, j) :: rest, hs, hn => by
    rw [List.map_cons, List.map_cons, toJson_ofJson j hs.1 hn.1,
      toJson_ofJson_members rest hs.2 hn.2]

end

mutual

theorem eachNumber_toJson : (v : Value) → v.toJson.EachNumber fun n => n.IsValid ∧ n.IsShort
  | .null => trivial
  | .scalar s => s.eachNumber_toJson
  | .list items => by
    rw [toJson, toJsonItems_eq_map]
    exact eachNumber_toJson_items items
  | .object entries => by
    rw [toJson_object]
    refine Json.eachNumberMembers_iff.2 fun e he => ?_
    exact Json.eachNumberMembers_iff.1 (eachNumber_toJson_entries entries) e
      (Json.mem_sortMembers he)

theorem eachNumber_toJson_items : (items : List Value) →
    Json.EachNumberItems (fun n => n.IsValid ∧ n.IsShort) (items.map toJson)
  | [] => trivial
  | v :: rest => ⟨eachNumber_toJson v, eachNumber_toJson_items rest⟩

theorem eachNumber_toJson_entries : (entries : List (String × Value)) →
    Json.EachNumberMembers (fun n => n.IsValid ∧ n.IsShort)
      (entries.map fun e => (e.1, e.2.toJson))
  | [] => trivial
  | (_, v) :: rest => ⟨eachNumber_toJson v, eachNumber_toJson_entries rest⟩

end

mutual

theorem finiteFloats_ofJson : (j : Json) → (j.EachNumber fun n => n.IsValid ∧ n.IsShort) →
    j.Sorted → (ofJson j).FiniteFloats
  | .null, _, _ => trivial
  | .boolean _, _, _ => trivial
  | .number _, hn, _ => Scalar.isFinite_ofNumber hn
  | .string _, _, _ => trivial
  | .array items, hn, hs => by
    rw [ofJson, ofJsonItems_eq_map]
    exact finiteFloats_ofJson_items items hn hs
  | .object members, hn, hs => by
    rw [ofJson_object hs.1.nodup]
    exact finiteFloats_ofJson_members members hn hs.2

theorem finiteFloats_ofJson_items : (items : List Json) →
    (Json.EachNumberItems (fun n => n.IsValid ∧ n.IsShort) items) → Json.SortedItems items →
      FiniteFloatsItems (items.map ofJson)
  | [], _, _ => trivial
  | j :: rest, hn, hs =>
    ⟨finiteFloats_ofJson j hn.1 hs.1, finiteFloats_ofJson_items rest hn.2 hs.2⟩

theorem finiteFloats_ofJson_members : (members : List (String × Json)) →
    (Json.EachNumberMembers (fun n => n.IsValid ∧ n.IsShort) members) →
      Json.SortedMembers members →
        FiniteFloatsEntries (members.map fun e => (e.1, ofJson e.2))
  | [], _, _ => trivial
  | (_, j) :: rest, hn, hs =>
    ⟨finiteFloats_ofJson j hn.1 hs.1, finiteFloats_ofJson_members rest hn.2 hs.2⟩

end

/-! ## Values of which one document comes -/

/-- What objects hold under their keys, if one document comes of both. -/
theorem get?_of_toJson_eq {entries entries' : Object} (hk : (Keyed.keys entries).Nodup)
    (hk' : (Keyed.keys entries').Nodup) (h : (object entries).toJson = (object entries').toJson)
    (key : String) :
    (Keyed.get? entries key).map toJson = (Keyed.get? entries' key).map toJson := by
  have hsort : ∀ {entries : Object}, (Keyed.keys entries).Nodup →
      Keyed.get? (Json.sortMembers (entries.map fun e => (e.1, e.2.toJson))) key =
        (Keyed.get? entries key).map toJson := by
    intro entries hk
    rw [Json.get?_sortMembers (by rwa [Json.keys_map]), Keyed.get?_map fun _ => toJson]
  rw [toJson_object, toJson_object] at h
  rw [← hsort hk, ← hsort hk', Json.object.inj h]

theorem length_eq_of_toJson_eq {entries entries' : Object} (hk : (Keyed.keys entries).Nodup)
    (hk' : (Keyed.keys entries').Nodup) (h : (object entries).toJson = (object entries').toJson) :
    entries.length = entries'.length := by
  have hsort : ∀ {entries : Object}, (Keyed.keys entries).Nodup →
      (Json.sortMembers (entries.map fun e => (e.1, e.2.toJson))).length = entries.length := by
    intro entries hk
    rw [Json.length_sortMembers (by rwa [Json.keys_map]), List.length_map]
  rw [toJson_object, toJson_object] at h
  rw [← hsort hk, ← hsort hk', Json.object.inj h]

mutual

/-- **Values that documents can hold are the same if one document comes of both.** -/
theorem same_of_toJson_eq : (v : Value) → v.FiniteFloats → v.DistinctKeys → (w : Value) →
    w.FiniteFloats → w.DistinctKeys → v.toJson = w.toJson → v.same w = true
  | .null, _, _, w, hw, _, h => by
    cases w with
    | null => rfl
    | scalar t => exact absurd h.symm (Scalar.toJson_ne_null hw)
    | list _ => cases h
    | object _ => cases h
  | .scalar s, hv, _, w, hw, _, h => by
    -- reading the document back tells a leaf from all other values
    have hs : ofJson w.toJson = .scalar s := by
      rw [← h]
      exact Scalar.ofJson_toJson hv
    cases w with
    | scalar t =>
      have heq : s = t := Scalar.eq_of_toJson_eq hv hw h
      subst heq
      exact Scalar.same_self hv.not_isNaN
    | _ => cases hs
  | .list items, hv, hk, w, hw, hk', h => by
    cases w with
    | list items' => exact sameItems_of_toJson_eq items hv hk items' hw hk' (Json.array.inj h)
    | scalar t =>
      have ht : ofJson (list items).toJson = .scalar t := by
        rw [h]
        exact Scalar.ofJson_toJson hw
      cases ht
    | _ => cases h
  | .object entries, hv, hk, w, hw, hk', h => by
    cases w with
    | object entries' =>
      have hlength := length_eq_of_toJson_eq hk.1 hk'.1 h
      rw [same, beq_iff_eq.2 hlength, Bool.true_and]
      refine sameEntries_of_toJson_eq entries hv hk.2 entries' ?_
      intro e he
      have hget := get?_of_toJson_eq hk.1 hk'.1 h e.1
      rw [(Keyed.get?_eq_some_iff hk.1).2 he] at hget
      obtain ⟨w, hw', hj⟩ := Option.map_eq_some_iff.1 hget.symm
      exact ⟨w, hw', finiteFloatsEntries_iff.1 hw _ (Keyed.mem_of_get?_eq_some hw'),
        hk'.of_get? hw', hj.symm⟩
    | scalar t =>
      have ht : ofJson (object entries).toJson = .scalar t := by
        rw [h]
        exact Scalar.ofJson_toJson hw
      cases ht
    | _ => cases h

theorem sameItems_of_toJson_eq : (items : List Value) → FiniteFloatsItems items →
    DistinctKeysItems items → (items' : List Value) → FiniteFloatsItems items' →
      DistinctKeysItems items' → toJsonItems items = toJsonItems items' →
        sameItems items items' = true
  | [], _, _, items', _, _, h => by
    cases items' with
    | nil => rfl
    | cons _ _ => cases h
  | v :: rest, hv, hk, items', hw, hk', h => by
    cases items' with
    | nil => cases h
    | cons w rest' =>
      obtain ⟨hhead, htail⟩ := List.cons.inj h
      rw [sameItems, same_of_toJson_eq v hv.1 hk.1 w hw.1 hk'.1 hhead, Bool.true_and]
      exact sameItems_of_toJson_eq rest hv.2 hk.2 rest' hw.2 hk'.2 htail

theorem sameEntries_of_toJson_eq : (entries : List (String × Value)) →
    FiniteFloatsEntries entries → DistinctKeysEntries entries → (entries' : Object) →
      (∀ e ∈ entries, ∃ w : Value, Keyed.get? entries' e.1 = some w ∧ w.FiniteFloats ∧
        w.DistinctKeys ∧ e.2.toJson = w.toJson) → sameEntries entries entries' = true
  | [], _, _, _, _ => rfl
  | (key, v) :: rest, hv, hk, entries', h => by
    obtain ⟨w, hget, hw, hk', hj⟩ := h (key, v) List.mem_cons_self
    have hrest := sameEntries_of_toJson_eq rest hv.2 hk.2 entries' fun e he =>
      h e (List.mem_cons_of_mem _ he)
    rw [sameEntries, hget, hrest, Bool.and_true]
    exact same_of_toJson_eq v hv.1 hk.1 w hw hk' hj

end

/-! ## There and back -/

mutual

theorem distinctKeys_ofJson : (j : Json) → (ofJson j).DistinctKeys
  | .null => trivial
  | .boolean _ => trivial
  | .number _ => trivial
  | .string _ => trivial
  | .array items => by
    rw [ofJson, ofJsonItems_eq_map]
    exact distinctKeysItems_ofJson items
  | .object members => by
    have hnil : (object []).DistinctKeys := ⟨List.nodup_nil, trivial⟩
    rw [ofJson, ofJsonMembers_eq_addAll]
    exact hnil.addAll _ (distinctKeysEntries_ofJson members)

theorem distinctKeysItems_ofJson : (items : List Json) → DistinctKeysItems (items.map ofJson)
  | [] => trivial
  | j :: rest => ⟨distinctKeys_ofJson j, distinctKeysItems_ofJson rest⟩

theorem distinctKeysEntries_ofJson : (members : List (String × Json)) →
    DistinctKeysEntries (members.map fun e => (e.1, ofJson e.2))
  | [] => trivial
  | (_, j) :: rest => ⟨distinctKeys_ofJson j, distinctKeysEntries_ofJson rest⟩

end

theorem finitePartEntries_eq_map (entries : List (String × Value)) :
    finitePartEntries entries = entries.map fun e => (e.1, e.2.finitePart) := by
  induction entries with
  | nil => rw [finitePartEntries, List.map_nil]
  | cons e rest ih => rw [finitePartEntries, ih, List.map_cons]

mutual

/-- Numbers that are not finite are turned into `null` in any case. -/
theorem toJson_finitePart : (v : Value) → v.finitePart.toJson = v.toJson
  | .null => rfl
  | .scalar s => by
    rcases s.finitePart_eq_or with ⟨h, -⟩ | ⟨h, hj⟩
    · rw [finitePart, h]
    · rw [finitePart, h, toJson, toJson, hj]
  | .list items => by rw [finitePart, toJson, toJson, toJsonItems_finitePart items]
  | .object entries => by
    rw [finitePart, toJson_object, toJson_object, map_toJson_finitePart entries]

theorem toJsonItems_finitePart : (items : List Value) →
    toJsonItems (finitePartItems items) = toJsonItems items
  | [] => rfl
  | v :: rest => by
    rw [finitePartItems, toJsonItems, toJsonItems, toJson_finitePart v,
      toJsonItems_finitePart rest]

theorem map_toJson_finitePart : (entries : List (String × Value)) →
    (finitePartEntries entries).map (fun e => (e.1, e.2.toJson)) =
      entries.map fun e => (e.1, e.2.toJson)
  | [] => rfl
  | (key, v) :: rest => by
    rw [finitePartEntries, List.map_cons, List.map_cons, toJson_finitePart v,
      map_toJson_finitePart rest]

end

mutual

theorem finiteFloats_finitePart : (v : Value) → v.finitePart.FiniteFloats
  | .null => trivial
  | .scalar s => by
    rcases s.finitePart_eq_or with ⟨h, hf⟩ | ⟨h, -⟩
    · rw [finitePart, h]
      exact hf
    · rw [finitePart, h]
      trivial
  | .list items => finiteFloatsItems_finitePart items
  | .object entries => finiteFloatsEntries_finitePart entries

theorem finiteFloatsItems_finitePart : (items : List Value) →
    FiniteFloatsItems (finitePartItems items)
  | [] => trivial
  | v :: rest => ⟨finiteFloats_finitePart v, finiteFloatsItems_finitePart rest⟩

theorem finiteFloatsEntries_finitePart : (entries : List (String × Value)) →
    FiniteFloatsEntries (finitePartEntries entries)
  | [] => trivial
  | (_, v) :: rest => ⟨finiteFloats_finitePart v, finiteFloatsEntries_finitePart rest⟩

end

mutual

theorem DistinctKeys.finitePart : (v : Value) → v.DistinctKeys → v.finitePart.DistinctKeys
  | .null, _ => trivial
  | .scalar s, _ => by
    rcases s.finitePart_eq_or with ⟨h, -⟩ | ⟨h, -⟩ <;> rw [Value.finitePart, h] <;> trivial
  | .list items, h => DistinctKeys.finitePartItems items h
  | .object entries, h => by
    refine ⟨?_, DistinctKeys.finitePartEntries entries h.2⟩
    rw [finitePartEntries_eq_map, Json.keys_map]
    exact h.1

theorem DistinctKeys.finitePartItems : (items : List Value) → DistinctKeysItems items →
    DistinctKeysItems (finitePartItems items)
  | [], _ => trivial
  | v :: rest, h => ⟨DistinctKeys.finitePart v h.1, DistinctKeys.finitePartItems rest h.2⟩

theorem DistinctKeys.finitePartEntries : (entries : List (String × Value)) →
    DistinctKeysEntries entries → DistinctKeysEntries (finitePartEntries entries)
  | [], _ => trivial
  | (_, v) :: rest, h =>
    ⟨DistinctKeys.finitePart v h.1, DistinctKeys.finitePartEntries rest h.2⟩

end

/-- A value that documents can hold is read as it was. -/
theorem same_ofJson_toJson {v : Value} (hv : v.FiniteFloats) (hk : v.DistinctKeys) :
    (ofJson v.toJson).same v = true := by
  have hsorted := v.sorted_toJson
  have hnumbers := v.eachNumber_toJson
  exact same_of_toJson_eq _ (finiteFloats_ofJson _ hnumbers hsorted) (distinctKeys_ofJson _) v hv hk
    (toJson_ofJson _ hsorted hnumbers)

/-- **Values and documents are turned into one another without loss.** Turning a value into a
document is writing it, the members of each object sorted. A value that went through a document is
what it was, with `null` for the numbers that are not finite; and a document with sorted members
whose integers fit leaves is the same after it went through a value. -/
theorem document_roundTrip :
    (∀ v : Value, v.toJson = v.document.canonical) ∧
      (∀ v : Value, v.DistinctKeys → (ofJson v.toJson).same v.finitePart = true) ∧
      ∀ j : Json, j.Sorted → (j.EachNumber fun n => n.IsValid ∧ n.IsShort) →
        (ofJson j).toJson = j := by
  refine ⟨fun v => v.canonical_document.symm, fun v hk => ?_, toJson_ofJson⟩
  have h := same_ofJson_toJson v.finiteFloats_finitePart (hk.finitePart v)
  rwa [toJson_finitePart] at h

end Value

namespace Documents

/-- Its keys are not in order, and two of its numbers are not finite. -/
def measured : Value :=
  .object [("unit", .string "m"), ("levels", .list [.float 0.5, .float (0.0 / 0.0), .int (-7)]),
    ("limits", .object [("upper", .float (1.0 / 0.0)), ("lower", .null), ("exact", .boolean true)])]

/-- The least integer that leaves can be, and floats that are whole numbers. -/
def stored : Json :=
  .object [("a", .array [.number (.integer (-2147483648)), .number (.float 4000000000.0)]),
    ("b", .object [("x", .null), ("y", .number (.float 1.0))])]

theorem document_roundTrip_measured :
    measured.DistinctKeys ∧ (Value.ofJson measured.toJson).same measured.finitePart = true ∧
      stored.Sorted ∧ (stored.EachNumber fun n => n.IsValid ∧ n.IsShort) ∧
      (Value.ofJson stored).toJson = stored := by
  have hm : measured.DistinctKeys := by
    simp [measured, Value.DistinctKeys, Value.DistinctKeysEntries, Value.DistinctKeysItems,
      Keyed.keys]
  have hab : ["a", "b"].Pairwise (· < ·) := by decide +kernel
  have hxy : ["x", "y"].Pairwise (· < ·) := by decide +kernel
  have hs : stored.Sorted :=
    ⟨hab, ⟨trivial, trivial, trivial⟩, ⟨hxy, trivial, trivial, trivial⟩, trivial⟩
  have hn : stored.EachNumber fun n => n.IsValid ∧ n.IsShort := by
    simp only [stored, Json.EachNumber, Json.EachNumberItems, Json.EachNumberMembers,
      JsonNumber.IsValid, JsonNumber.IsShort]
    decide +kernel
  obtain ⟨-, hvalue, hdocument⟩ := Value.document_roundTrip
  exact ⟨hm, hvalue measured hm, hs, hn, hdocument stored hs hn⟩

end Documents

end GraphQL
