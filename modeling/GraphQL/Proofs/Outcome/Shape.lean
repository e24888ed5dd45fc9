import GraphQL.Proofs.Dispatch
import GraphQL.TypeRef

/-!
# What a value is by its type

The `Shape` of a value that is not `null`: what completing it comes to before anything below it is
looked at. Whatever fits a named type is of a registered object type or serialized
(`shapeNamed_eq_ok`).
-/

namespace GraphQL

/-- What a value that is not `null` is by its type: a response literal, items, or a value of an
object type. -/
inductive Shape (σ : Type) where
  | leaf (v : Value)
  | list (item : TypeRef) (items : List Value)
  | object (o : ObjectType σ)

namespace Registry

variable {σ : Type}

/-- What a value is by a named type, or why it does not fit. -/
def shapeNamed (r : Registry σ) (name : String) (v : Value) : Except FieldError (Shape σ) :=
  match r.get? name with
  | some (.object o) => .ok (.object o)
  | some (.interface i) => (r.dispatch i.name i.resolveType? v).map .object
  | some (.union u) => (r.dispatch u.name u.resolveType? v).map .object
  | some (.scalar s) => ((s.serialize v).mapError (·.orKind .serialization)).map .leaf
  | some (.enum e) => ((e.serialize v).mapError (·.orKind .serialization)).map .leaf
  | none => .error (.ofFault (.unknownOutputType name))

/-- What a value is by a type, or why it does not fit. -/
def shape (r : Registry σ) : TypeRef → Value → Except FieldError (Shape σ)
  | .nonNull t, v => r.shape t v
  | .list item, .list items => .ok (.list item items)
  | .list item, v => .error (.ofFault (.notAList (.list item) v))
  | .named name, v => r.shapeNamed name v

/-! ## Reading shapes back -/

/-- A value that fits a named type is of a registered object type that is, or is possible for, the
named type, or the named type serializes it. -/
theorem shapeNamed_eq_ok {r : Registry σ} {name : String} {v : Value} {shape : Shape σ}
    (h : r.shapeNamed name v = .ok shape) :
    (∃ o, shape = .object o ∧ r.get? o.name = some (.object o) ∧
      (o.name = name ∨ r.isPossible name o.name = true)) ∨
    ∃ t serialize literal, shape = .leaf literal ∧ r.get? name = some t ∧
      t.serialize? = some serialize ∧ serialize v = .ok literal := by
  have dispatched : ∀ {abstract resolveType?}, abstract = name →
      (r.dispatch abstract resolveType? v).map Shape.object = .ok shape →
      ∃ o, shape = .object o ∧ r.get? o.name = some (.object o) ∧
        (o.name = name ∨ r.isPossible name o.name = true) := by
    intro abstract resolveType? hn h
    cases hd : r.dispatch abstract resolveType? v with
    | error e =>
      rw [hd] at h
      cases h
    | ok o =>
      rw [hd] at h
      cases h
      obtain ⟨-, hg, hp⟩ := dispatch_eq_ok_iff.1 hd
      exact ⟨o, rfl, hg, .inr (hn ▸ hp)⟩
  have serialized : ∀ {t serialize}, r.get? name = some t → t.serialize? = some serialize →
      ((serialize v).mapError (·.orKind .serialization)).map Shape.leaf = .ok shape →
      ∃ t serialize literal, shape = .leaf literal ∧ r.get? name = some t ∧
        t.serialize? = some serialize ∧ serialize v = .ok literal := by
    intro t serialize hg hs h
    cases hv : serialize v with
    | error e =>
      rw [hv] at h
      cases h
    | ok literal =>
      rw [hv] at h
      cases h
      exact ⟨t, serialize, literal, rfl, hg, hs, hv⟩
  unfold shapeNamed at h
  split at h
  · next o hg =>
    rw [Except.ok.injEq] at h
    have hn : o.name = name := name_of_get? hg
    exact .inl ⟨o, h.symm, hn ▸ hg, .inl hn⟩
  · next i hg => exact .inl (dispatched (name_of_get? hg) h)
  · next u hg => exact .inl (dispatched (name_of_get? hg) h)
  · next s hg => exact .inr (serialized hg rfl h)
  · next e hg => exact .inr (serialized hg rfl h)
  · cases h

theorem object_of_shapeNamed {r : Registry σ} {name : String} {v : Value} {o : ObjectType σ}
    (h : r.shapeNamed name v = .ok (.object o)) :
    r.get? o.name = some (.object o) ∧ (o.name = name ∨ r.isPossible name o.name = true) := by
  obtain ⟨o', ho, hg⟩ | ⟨t, serialize, literal, hl, -⟩ := shapeNamed_eq_ok h
  · rw [Shape.object.injEq] at ho
    exact ho ▸ hg
  · nomatch hl

theorem serialize_of_shapeNamed {r : Registry σ} {name : String} {v literal : Value}
    (h : r.shapeNamed name v = .ok (.leaf literal)) :
    ∃ t serialize, r.get? name = some t ∧ t.serialize? = some serialize ∧
      serialize v = .ok literal := by
  obtain ⟨o, ho, -⟩ | ⟨t, serialize, literal', hl, hg⟩ := shapeNamed_eq_ok h
  · nomatch ho
  · rw [Shape.leaf.injEq] at hl
    exact ⟨t, serialize, hl ▸ hg⟩

theorem shapeNamed_ne_list {r : Registry σ} {name : String} {v : Value} {item : TypeRef}
    {items : List Value} : r.shapeNamed name v ≠ .ok (.list item items) := by
  intro h
  obtain ⟨o, ho, -⟩ | ⟨t, serialize, literal, hl, -⟩ := shapeNamed_eq_ok h
  · nomatch ho
  · nomatch hl

/-- The items of a list are of a type that ends in the same named type. -/
theorem innermost_of_shape {r : Registry σ} {type item : TypeRef} {v : Value} {items : List Value}
    (h : r.shape type v = .ok (.list item items)) : item.innermost = type.innermost := by
  induction type with
  | nonNull t ih => exact ih h
  | list t =>
    cases v with
    | list vs =>
      cases h
      rfl
    | _ => cases h
  | named name => exact absurd h shapeNamed_ne_list

theorem get?_of_shape {r : Registry σ} {type : TypeRef} {v : Value} {o : ObjectType σ}
    (h : r.shape type v = .ok (.object o)) : r.get? o.name = some (.object o) := by
  induction type with
  | nonNull t ih => exact ih h
  | list item => cases v <;> simp [shape] at h
  | named name => exact (object_of_shapeNamed h).1

/-- The object type of a value is the named type that its type ends in, or possible for it. -/
theorem possible_of_shape {r : Registry σ} {type : TypeRef} {v : Value} {o : ObjectType σ}
    (h : r.shape type v = .ok (.object o)) :
    o.name = type.innermost ∨ r.isPossible type.innermost o.name = true := by
  induction type with
  | nonNull t ih => exact ih h
  | list item => cases v <;> nomatch h
  | named name => exact (object_of_shapeNamed h).2

end Registry

end GraphQL
