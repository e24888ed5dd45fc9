import GraphQL.Proofs.WellFormed

/-!
# What the rules of schemas guarantee

A schema is well-formed (`Schema.wellFormed`). What that says is stated here in the form in which an
execution relies on it: of fields and their arguments (`Schema.validField`), of the interfaces that
an object implements (`Schema.implements_of_mem`) and of the possible types of abstract ones
(`Schema.exists_object_of_isPossible`). Everything that relies on a rule takes it from here.
-/

namespace GraphQL

/-! ## Fields by name -/

theorem Field.of_find? {σ : Type} {fields : List (Field σ)} {name : String} {f : Field σ}
    (h : fields.find? (·.name == name) = some f) : f ∈ fields ∧ f.name = name :=
  of_find?_name h

def InterfaceType.field? {σ : Type} (i : InterfaceType σ) (name : String) : Option (Field σ) :=
  i.fieldSet.fields.find? (·.name == name)

namespace Registry

variable {σ : Type} {r : Registry σ}

/-! ## The rules -/

/-- The reference ends in a registered type, and no non-null marker stands on another one. -/
structure Refers (r : Registry σ) (type : TypeRef) : Prop where
  nested : type.hasNestedNonNull = false
  registered : ∃ t, r.lookup? type = some t

/-- What the rules say of an argument: it is of a leaf type. -/
structure ValidArgument (r : Registry σ) (arg : Argument) : Prop where
  refers : r.Refers arg.type
  input : ∀ t, r.lookup? arg.type = some t → t.isInput = true

/-- What the rules say of a field. -/
structure ValidField (r : Registry σ) (f : Field σ) : Prop where
  name_ne : f.name ≠ "__typename"
  refers : r.Refers f.type
  arguments : ∀ arg ∈ f.arguments, r.ValidArgument arg

/-- The object has every field of the interface, of a type that may stand for the interface's. -/
def Implements (r : Registry σ) (o : ObjectType σ) (i : InterfaceType σ) : Prop :=
  ∀ inherited ∈ i.fieldSet.fields,
    ∃ own, o.field? inherited.name = some own ∧ r.isSubtype own.type inherited.type = true

/-- An object has the fields of an interface that it implements. -/
theorem Implements.exists_field? {o : ObjectType σ} {i : InterfaceType σ} (h : r.Implements o i)
    {name : String} {inherited : Field σ} (hf : i.field? name = some inherited) :
    ∃ own, o.field? name = some own ∧ r.isSubtype own.type inherited.type = true := by
  obtain ⟨hmem, rfl⟩ := Field.of_find? hf
  exact h inherited hmem

/-! ## Registered types -/

theorem get?_of_mem_possibleTypes {abstract : String} {o : ObjectType σ}
    (h : o ∈ r.possibleTypes abstract) : r.get? o.name = some (.object o) := by
  unfold possibleTypes at h
  split at h
  · obtain ⟨member, -, ho⟩ := List.mem_filterMap.1 h
    exact get?_name (object?_eq_some_iff.1 ho)
  · obtain ⟨t, ht, ho⟩ := List.mem_filterMap.1 h
    cases t with
    | object o' =>
      have heq : o' = o := by
        have ho := (Option.ite_none_right_eq_some.1 ho).2
        exact Option.some.inj ho
      exact heq ▸ get?_of_mem_types ht
    | _ => nomatch ho
  · nomatch h

theorem isPossible_of_mem_possibleTypes {abstract : String} {o : ObjectType σ}
    (h : o ∈ r.possibleTypes abstract) : r.isPossible abstract o.name = true := by
  have hget := get?_of_mem_possibleTypes h
  unfold possibleTypes at h
  unfold isPossible
  split at h
  · next u hu =>
    obtain ⟨member, hm, ho⟩ := List.mem_filterMap.1 h
    have hname : o.name = member := name_of_get? (object?_eq_some_iff.1 ho)
    simpa [hu, hname] using hm
  · next i hi =>
    obtain ⟨t, -, ho⟩ := List.mem_filterMap.1 h
    cases t with
    | object o' =>
      obtain ⟨hc, heq⟩ := Option.ite_none_right_eq_some.1 ho
      obtain rfl := Option.some.inj heq
      simpa [hi, object?_eq_some_iff.2 hget] using hc
    | _ => simp at ho
  · simp at h

/-- Nothing is possible for an object type. -/
theorem isPossible_object {name : String} {o : ObjectType σ} (ho : r.get? name = some (.object o))
    (object : String) : r.isPossible name object = false := by
  rw [isPossible, ho]

theorem mem_possibleTypes_iff {abstract : String} {o : ObjectType σ} :
    o ∈ r.possibleTypes abstract ↔
      r.get? o.name = some (.object o) ∧ r.isPossible abstract o.name = true := by
  constructor
  · intro h
    exact ⟨get?_of_mem_possibleTypes h, isPossible_of_mem_possibleTypes h⟩
  · rintro ⟨ho, hp⟩
    exact mem_possibleTypes_of_isPossible ho hp

/-! ## What well-formed parts guarantee -/

theorem WellFormedReference.refers {type : TypeRef} (h : r.WellFormedReference type) :
    r.Refers type := by
  constructor
  · rw [← Bool.not_eq_true, TypeRef.hasNestedNonNull_iff, not_exists]
    exact h.nested
  · exact exists_lookup?_iff.2 h.registered

/-- What is possible for an abstract type is a registered object. -/
theorem WellFormed.exists_object_of_isPossible (h : r.WellFormed) {abstract object : String}
    (hp : r.isPossible abstract object = true) : ∃ o, r.get? object = some (.object o) := by
  unfold isPossible at hp
  split at hp
  · next u hu =>
    have hunion : r.WellFormedUnion u := h.types _ (mem_types_of_get? hu)
    exact hunion.objects object (by simpa using hp)
  · split at hp
    · next o ho => exact ⟨o, object?_eq_some_iff.1 ho⟩
    · nomatch hp
  · nomatch hp

theorem WellFormedArgument.valid {arg : Argument} (h : r.WellFormedArgument arg) :
    r.ValidArgument arg := by
  refine ⟨h.type.refers, ?_⟩
  intro t ht
  rcases h.leaf with ⟨s, hs⟩ | ⟨e, he⟩
  · rw [hs] at ht
    cases ht
    rfl
  · rw [he] at ht
    cases ht
    rfl

theorem WellFormedField.valid {f : Field σ} (h : r.WellFormedField f) : r.ValidField f := by
  refine ⟨?_, h.type.refers, fun arg harg => (h.arguments arg harg).valid⟩
  intro hname
  have hreserved := h.name.unreserved
  rw [hname] at hreserved
  exact hreserved (by decide)

end Registry

namespace Schema

variable {σ : Type} (s : Schema σ) {name : String}

/-! ## Schemas are well-formed -/

theorem wellFormed : s.registry.WellFormed :=
  Registry.violations_eq_nil_iff.1 s.violations_eq_nil

theorem wellFormedType {t : TypeDef σ} (h : s.registry.get? name = some t) :
    s.registry.WellFormedType t :=
  s.wellFormed.types t (Registry.mem_types_of_get? h)

theorem wellFormedObject {o : ObjectType σ} (h : s.registry.get? name = some (.object o)) :
    s.registry.WellFormedObject o :=
  s.wellFormedType h

/-- Objects and interfaces have well-formed fields. -/
theorem wellFormedFields {t : TypeDef σ} (h : s.registry.get? name = some t)
    {fields : List (Field σ)} (hfields : t.fields? = some fields) :
    s.registry.WellFormedFields fields := by
  cases t with
  | object o =>
    obtain rfl : o.fields = fields := Option.some.inj hfields
    exact (s.wellFormedObject h).fields
  | interface i =>
    obtain rfl : i.fieldSet.fields = fields := Option.some.inj hfields
    exact s.wellFormedType h
  | _ => nomatch hfields

/-- The fields of registered objects and interfaces keep the rules. -/
theorem validField {t : TypeDef σ} (h : s.registry.get? name = some t) {fields : List (Field σ)}
    (hfields : t.fields? = some fields) {f : Field σ} (hf : f ∈ fields) :
    s.registry.ValidField f :=
  ((s.wellFormedFields h hfields).each f hf).valid

theorem validField_of_field? {o : ObjectType σ} (h : s.registry.get? name = some (.object o))
    {key : String} {f : Field σ} (hf : o.field? key = some f) : s.registry.ValidField f :=
  s.validField h rfl (List.mem_of_find?_eq_some hf)

/-- An object implements the interfaces that it says to implement. -/
theorem implements_of_mem {o : ObjectType σ} (h : s.registry.get? name = some (.object o))
    {interface : String} (hi : interface ∈ o.interfaces) :
    ∃ i, s.registry.get? interface = some (.interface i) ∧ s.registry.Implements o i := by
  obtain ⟨hfields, hinterfaces⟩ := s.wellFormedObject h
  obtain ⟨i, hget, hall⟩ := hinterfaces interface hi
  refine ⟨i, hget, ?_⟩
  intro inherited hf
  obtain ⟨own, hown, hname, hstands⟩ := hall inherited hf
  exact ⟨own, hname ▸ find?_name_of_nodup hfields.distinct hown, hstands.subtype⟩

/-- What is possible for an abstract type is a registered object. -/
theorem exists_object_of_isPossible {abstract object : String}
    (h : s.registry.isPossible abstract object = true) :
    ∃ o, s.registry.get? object = some (.object o) :=
  s.wellFormed.exists_object_of_isPossible h

end Schema

end GraphQL
