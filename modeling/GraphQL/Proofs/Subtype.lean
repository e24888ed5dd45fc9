import GraphQL.Proofs.Validity

/-!
# Subtypes are ordered

Which references may stand for which is decided by descending into both: a non-null marker on the
left may go (`isSubtype_nonNull`), lists go with lists and names with names. A type that may stand
for another one ends in the same name, or in an object type that is possible for the other's
(`innermost_of_isSubtype`); in a schema both end in leaf types or both in composite types
(`Schema.isComposite_of_isSubtype`). What is possible for a type of a well-formed registry is an
object, and nothing is possible for an object. So names never make a chain of more than one step,
and standing for one another is a partial order on all references (`isSubtype_order`).
-/

namespace GraphQL

namespace Registry

variable {σ : Type} {r : Registry σ}

/-- Does the reference end in a type that fields are selected from? -/
def isComposite (r : Registry σ) (type : TypeRef) : Bool :=
  (r.lookup? type).any (·.kind.isComposite)

theorem innermost_of_isSubtype {sub super : TypeRef} (h : r.isSubtype sub super = true) :
    sub.innermost = super.innermost ∨ r.isPossible super.innermost sub.innermost = true := by
  fun_induction isSubtype r sub super with
  | case1 sub super ih => exact ih h
  | case2 sub super _ ih => exact ih h
  | case3 sub super ih => exact ih h
  | case4 sub super =>
    simp only [Bool.or_eq_true, beq_iff_eq] at h
    exact h
  | case5 => cases h

/-- Only composite types have possible types. -/
theorem exists_composite_of_isPossible {abstract object : String}
    (h : r.isPossible abstract object = true) :
    ∃ t, r.get? abstract = some t ∧ t.kind.isComposite = true := by
  unfold isPossible at h
  split at h
  · next u hu => exact ⟨_, hu, rfl⟩
  · next i hi => exact ⟨_, hi, rfl⟩
  · nomatch h

/-! ## Descending into two references -/

/-- A non-null type may stand for what its type without the marker may, and for that non-null. -/
theorem isSubtype_nonNull (sub super : TypeRef) :
    r.isSubtype (.nonNull sub) super = r.isSubtype sub super.nullable := by
  cases super <;> simp [isSubtype, TypeRef.nullable]

/-- Only non-null types may stand for a non-null type. -/
theorem exists_nonNull_of_isSubtype {sub super : TypeRef}
    (h : r.isSubtype sub (.nonNull super) = true) : ∃ inner, sub = .nonNull inner := by
  cases sub with
  | nonNull inner => exact ⟨inner, rfl⟩
  | named name => simp [isSubtype] at h
  | list item => simp [isSubtype] at h

theorem isSubtype_list_iff {item super : TypeRef} :
    r.isSubtype (.list item) super = true ↔
      ∃ item', super = .list item' ∧ r.isSubtype item item' = true := by
  cases super <;> simp [isSubtype]

theorem isSubtype_named_iff {name : String} {super : TypeRef} :
    r.isSubtype (.named name) super = true ↔
      ∃ name', super = .named name' ∧ (name = name' ∨ r.isPossible name' name = true) := by
  cases super <;> simp [isSubtype]

/-- Where a type may stand for another one, it may without the non-null markers of both. -/
theorem isSubtype_nullable {sub super : TypeRef} (h : r.isSubtype sub super = true) :
    r.isSubtype sub.nullable super.nullable = true := by
  cases sub with
  | nonNull inner => rwa [isSubtype_nonNull] at h
  | named name =>
    obtain ⟨name', rfl, -⟩ := isSubtype_named_iff.1 h
    exact h
  | list item =>
    obtain ⟨item', rfl, -⟩ := isSubtype_list_iff.1 h
    exact h

/-! ## Reflexive, transitive, antisymmetric -/

theorem isSubtype_refl (r : Registry σ) (type : TypeRef) : r.isSubtype type type = true := by
  induction type with
  | named name => exact isSubtype_named_iff.2 ⟨name, rfl, .inl rfl⟩
  | list item ih => exact isSubtype_list_iff.2 ⟨item, rfl, ih⟩
  | nonNull inner ih => rwa [isSubtype_nonNull]

/-- What is possible for a type has no possible types of its own. -/
theorem WellFormed.not_isPossible (hr : r.WellFormed) {abstract object : String}
    (h : r.isPossible abstract object = true) (name : String) :
    r.isPossible object name = false := by
  obtain ⟨o, ho⟩ := hr.exists_object_of_isPossible h
  exact isPossible_object ho name

theorem WellFormed.isSubtype_trans (hr : r.WellFormed) {a b c : TypeRef}
    (hab : r.isSubtype a b = true) (hbc : r.isSubtype b c = true) : r.isSubtype a c = true := by
  induction a generalizing b c with
  | named name =>
    obtain ⟨name', rfl, hstep⟩ := isSubtype_named_iff.1 hab
    obtain ⟨name'', rfl, hstep'⟩ := isSubtype_named_iff.1 hbc
    refine isSubtype_named_iff.2 ⟨name'', rfl, ?_⟩
    rcases hstep with rfl | hp
    · exact hstep'
    · -- the middle type has a possible type, so it is possible for nothing itself
      rcases hstep' with rfl | hp'
      · exact .inr hp
      · have hnone := hr.not_isPossible hp' name
        exact absurd hp (by simp [hnone])
  | list item ih =>
    obtain ⟨item', rfl, hitem⟩ := isSubtype_list_iff.1 hab
    obtain ⟨item'', rfl, hitem'⟩ := isSubtype_list_iff.1 hbc
    exact isSubtype_list_iff.2 ⟨item'', rfl, ih hitem hitem'⟩
  | nonNull inner ih =>
    rw [isSubtype_nonNull] at hab ⊢
    apply ih hab
    exact isSubtype_nullable hbc

theorem WellFormed.isSubtype_antisymm (hr : r.WellFormed) {a b : TypeRef}
    (hab : r.isSubtype a b = true) (hba : r.isSubtype b a = true) : a = b := by
  induction a generalizing b with
  | named name =>
    obtain ⟨name', rfl, hstep⟩ := isSubtype_named_iff.1 hab
    obtain ⟨_, heq, hstep'⟩ := isSubtype_named_iff.1 hba
    obtain rfl := TypeRef.named.inj heq
    rcases hstep with rfl | hp
    · rfl
    · rcases hstep' with rfl | hp'
      · rfl
      · have hnone := hr.not_isPossible hp name'
        exact absurd hp' (by simp [hnone])
  | list item ih =>
    obtain ⟨item', rfl, hitem⟩ := isSubtype_list_iff.1 hab
    obtain ⟨_, heq, hitem'⟩ := isSubtype_list_iff.1 hba
    obtain rfl := TypeRef.list.inj heq
    rw [ih hitem hitem']
  | nonNull inner ih =>
    obtain ⟨inner', rfl⟩ := exists_nonNull_of_isSubtype hba
    rw [isSubtype_nonNull] at hab hba
    exact congrArg TypeRef.nonNull (ih hab hba)

/-- **Standing for one another is a partial order.** In a registry that passes the check, however
references nest lists and non-null markers and whatever names they end in, every type may stand for
itself, what stands for one that stands for a third may stand for the third, and no two types may
stand for each other. -/
theorem isSubtype_order (r : Registry σ) (h : r.buildAll.violations = []) :
    (∀ a, r.isSubtype a a = true) ∧
    (∀ a b c, r.isSubtype a b = true → r.isSubtype b c = true → r.isSubtype a c = true) ∧
    ∀ a b, r.isSubtype a b = true → r.isSubtype b a = true → a = b := by
  have hr : r.buildAll.WellFormed := violations_eq_nil_iff.1 h
  refine ⟨isSubtype_refl r, ?_, ?_⟩
  · intro a b c hab hbc
    rw [← isSubtype_mapFieldSets FieldSet.build] at hab hbc ⊢
    exact hr.isSubtype_trans hab hbc
  · intro a b hab hba
    rw [← isSubtype_mapFieldSets FieldSet.build] at hab hba
    exact hr.isSubtype_antisymm hab hba

end Registry

namespace Schema

variable {σ : Type} (s : Schema σ)

theorem isComposite_of_isSubtype {sub super : TypeRef}
    (h : s.registry.isSubtype sub super = true) :
    s.registry.isComposite sub = s.registry.isComposite super := by
  unfold Registry.isComposite Registry.lookup?
  rcases Registry.innermost_of_isSubtype h with heq | hp
  · rw [heq]
  · obtain ⟨t, ht, hk⟩ := Registry.exists_composite_of_isPossible hp
    obtain ⟨o, ho⟩ := s.exists_object_of_isPossible hp
    rw [ht, ho, Option.any_some, Option.any_some, hk]
    rfl

end Schema

namespace Narrowing

def dog : ObjectType Unit :=
  ⟨"Dog", none, .lazy fun _ => [⟨"name", none, [], .named "String", .current, none⟩], ["Pet"]⟩

def pet : InterfaceType Unit :=
  ⟨"Pet", none, .lazy fun _ => [⟨"name", none, [], .named "String", .current, none⟩], none⟩

/-- Dogs are pets and companions; no fields have been built. -/
def registry : Registry Unit :=
  ⟨[.object dog, .interface pet, .union ⟨"Companion", none, ["Dog"], none⟩], by
    change ["String", "Int", "Float", "Boolean", "ID", "Dog", "Pet", "Companion"].Nodup
    decide⟩

/-- A list of dogs may stand where a list of pets is expected, through a list that may hold `null`;
the two are different types, so the converse fails. -/
theorem isSubtype_order_dogs :
    registry.buildAll.violations = [] ∧
      registry.isSubtype (.nonNull (.list (.nonNull (.named "Dog")))) (.list (.named "Pet")) =
        true ∧
      registry.isSubtype (.list (.named "Pet")) (.nonNull (.list (.nonNull (.named "Dog")))) ≠
        true := by
  have hnone : registry.buildAll.violations = [] := rfl
  obtain ⟨hrefl, htrans, hantisymm⟩ := Registry.isSubtype_order registry hnone
  have hdogs : registry.isSubtype (.nonNull (.list (.nonNull (.named "Dog"))))
      (.list (.named "Dog")) = true := hrefl (.named "Dog")
  have hpets : registry.isSubtype (.list (.named "Dog")) (.list (.named "Pet")) = true := rfl
  have hall := htrans _ _ _ hdogs hpets
  refine ⟨hnone, hall, ?_⟩
  intro hback
  nomatch hantisymm _ _ hall hback

/-- A union whose only member is a union is refused by the check. -/
def nested : Registry Unit :=
  ⟨[.object dog, .union ⟨"Inner", none, ["Dog"], none⟩, .union ⟨"Outer", none, ["Inner"], none⟩], by
    change ["String", "Int", "Float", "Boolean", "ID", "Dog", "Inner", "Outer"].Nodup
    decide⟩

-- without the check, names would make chains of more than one step
example : nested.isSubtype (.named "Dog") (.named "Inner") = true ∧
    nested.isSubtype (.named "Inner") (.named "Outer") = true ∧
    nested.isSubtype (.named "Dog") (.named "Outer") = false :=
  ⟨rfl, rfl, rfl⟩

end Narrowing

end GraphQL
