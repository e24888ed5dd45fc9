import GraphQL.Proofs.Arguments
import GraphQL.Proofs.WellTyped

/-!
# What the kind of an error tells

The kinds of field errors fall into five causes (`ErrorKind.cause`). Where resolvers and custom
scalars fail with no more specific kind (`Registry.FailsPlainly`), the cause can be read off an
error: those of the coercion of arguments are about the arguments (`cause_of_coerceArguments`), and
a value that does not fit its type is of an abstract type without an object type for it, or no
list, or refused by its leaf type (`rejects_of_shape`, `Rejects.exists_shape`).
-/

namespace GraphQL

/-- What made a field fail. -/
inductive Cause where
  /-- Its arguments could not be coerced. -/
  | arguments
  /-- Its resolver failed. -/
  | resolver
  /-- A value of an abstract type is of no object type that is possible for it. -/
  | dispatch
  /-- There is a `null` where none may be. -/
  | null
  /-- A value is no list, or its leaf type does not serialize it. -/
  | serialization
deriving DecidableEq

/-- The cause that errors of the kind are due to. -/
def ErrorKind.cause : ErrorKind → Cause
  | .unknownArgument | .missingRequiredArgument | .unknownEnumValue | .nullArgument
  | .invalidArgument => .arguments
  | .resolver => .resolver
  | .abstractTypeResolution => .dispatch
  | .nonNullViolation => .null
  | .serialization => .serialization

theorem exists_mem_of_mapM_eq_error {α β : Type} {f : α → Except FieldError β} {xs : List α}
    {e : FieldError} (h : xs.mapM f = .error e) : ∃ x ∈ xs, f x = .error e := by
  induction xs with
  | nil => cases h
  | cons x rest ih =>
    rw [List.mapM_cons] at h
    cases hx : f x with
    | error e' =>
      rw [hx] at h
      obtain rfl : e' = e := Except.error.inj h
      exact ⟨x, List.mem_cons_self, hx⟩
    | ok y =>
      cases hrest : rest.mapM f with
      | error e' =>
        rw [hx, hrest] at h
        obtain rfl : e' = e := Except.error.inj h
        obtain ⟨x', hm, hx'⟩ := ih hrest
        exact ⟨x', List.mem_cons_of_mem _ hm, hx'⟩
      | ok ys =>
        rw [hx, hrest] at h
        cases h

theorem mapError_eq_error_iff {α : Type} {f : FieldError → FieldError} {x : Except FieldError α}
    {e : FieldError} : x.mapError f = .error e ↔ ∃ e', x = .error e' ∧ f e' = e := by
  cases x <;> simp [Except.mapError]

theorem map_eq_error_iff {α β : Type} {f : α → β} {x : Except FieldError α} {e : FieldError} :
    x.map f = .error e ↔ x = .error e := by
  cases x <;> simp [Except.map]

namespace FieldError

theorem kind_orKind_of_resolver {e : FieldError} (h : e.kind = .resolver) (kind : ErrorKind) :
    (e.orKind kind).kind = kind := by
  simp [orKind, h]

theorem orKind_of_ne {e : FieldError} (h : e.kind ≠ .resolver) (kind : ErrorKind) :
    e.orKind kind = e := by
  simp [orKind, h]

end FieldError

namespace ScalarType

/-- Built-in scalars refuse literals without a more specific kind. -/
theorem kind_parse_of_mem_builtins {s : ScalarType} (hs : s ∈ builtins) {literal : InputValue}
    {e : FieldError} (h : s.parse literal = .error e) : e.kind = .resolver := by
  have refused : ∀ name, refuseLiteral name literal = .error e → e.kind = .resolver := by
    intro name h
    cases h
    rfl
  simp only [builtins, List.mem_cons, List.not_mem_nil, or_false] at hs
  rcases hs with rfl | rfl | rfl | rfl | rfl <;> cases literal with
  | scalar leaf =>
    cases leaf <;> first | exact refused _ h | cases h
  | _ => exact refused _ h

/-- Built-in scalars refuse values with the kind of serialization. -/
theorem kind_serialize_of_mem_builtins {s : ScalarType} (hs : s ∈ builtins) {v : Value}
    {e : FieldError} (h : s.serialize v = .error e) : e.kind = .serialization := by
  have refused : ∀ name expected?, refuse name expected? v = .error e →
      e.kind = .serialization := by
    intro name expected? h
    cases h
    rfl
  simp only [builtins, List.mem_cons, List.not_mem_nil, or_false] at hs
  rcases hs with rfl | rfl | rfl | rfl | rfl
  · change serializeString v = _ at h
    unfold serializeString at h
    split at h <;> first | exact refused _ _ h | cases h
  · change serializeInt v = _ at h
    unfold serializeInt at h
    dsimp only at h
    split at h <;> first | exact refused _ _ h | cases h
  · change serializeFloat v = _ at h
    unfold serializeFloat at h
    dsimp only at h
    split at h <;> first | exact refused _ _ h | cases h
  · change serializeBoolean v = _ at h
    unfold serializeBoolean at h
    split at h
    · cases h
    · cases h
    · split at h <;> first | exact refused _ _ h | cases h
    · exact refused _ _ h
  · change serializeID v = _ at h
    unfold serializeID at h
    split at h <;> first | exact refused _ _ h | cases h

end ScalarType

namespace Registry

variable {σ : Type} {r : Registry σ} {vars : Variables} {type : TypeRef} {name : String}
  {literal : InputValue} {fromVariable : Bool} {v w : Value} {e : FieldError} {cause : Cause}

/-- Custom scalars and resolvers fail without a more specific kind. -/
structure FailsPlainly (r : Registry σ) : Prop where
  parses : ∀ s, TypeDef.scalar s ∈ r.declared → ∀ literal e,
    s.parse literal = .error e → e.kind = .resolver
  serializes : ∀ s, TypeDef.scalar s ∈ r.declared → ∀ v e,
    s.serialize v = .error e → e.kind = .resolver
  resolves : ∀ o, TypeDef.object o ∈ r.declared → ∀ field ∈ o.fields, ∀ resolver,
    field.resolver? = some resolver → ∀ parent arguments state e,
      (resolver parent arguments state).1.Gives (.error e) → e.kind = .resolver

/-- A registered type is built in, or has been declared. -/
theorem builtin_or_declared_of_get? {t : TypeDef σ} (h : r.get? name = some t) :
    (∃ s ∈ ScalarType.builtins, t = .scalar s) ∨ t ∈ r.declared := by
  rcases List.mem_append.1 (mem_types_of_get? h) with hb | hd
  · obtain ⟨s, hs, rfl⟩ := List.mem_map.1 hb
    exact .inl ⟨s, hs, rfl⟩
  · exact .inr hd

/-! ## Coercion fails by arguments -/

theorem FailsPlainly.kind_parse (h : r.FailsPlainly) {s : ScalarType}
    (hs : r.get? name = some (.scalar s)) (he : s.parse literal = .error e) :
    e.kind = .resolver := by
  rcases builtin_or_declared_of_get? hs with ⟨s', hb, heq⟩ | hd
  · obtain rfl := TypeDef.scalar.inj heq
    exact ScalarType.kind_parse_of_mem_builtins hb he
  · exact h.parses s hd literal e he

theorem cause_of_enum_coerce {t : EnumType} (he : t.coerce literal fromVariable = .error e) :
    e.kind.cause = .arguments := by
  unfold EnumType.coerce at he
  dsimp only at he
  split at he
  · cases he
    rfl
  · split at he
    · cases he
    · cases he
      rfl

theorem FailsPlainly.cause_of_coerceNamed (h : r.FailsPlainly)
    (he : r.coerceNamed name literal fromVariable = .error e) : e.kind.cause = .arguments := by
  unfold coerceNamed at he
  split at he
  · next s hs =>
    obtain ⟨e', he', rfl⟩ := mapError_eq_error_iff.1 he
    rw [FieldError.kind_orKind_of_resolver (h.kind_parse hs he')]
    rfl
  · exact cause_of_enum_coerce he
  · cases he
    rfl
  · cases he
    rfl

theorem FailsPlainly.cause_of_coerce (h : r.FailsPlainly)
    (he : r.coerce vars type literal fromVariable = .error e) : e.kind.cause = .arguments := by
  induction type generalizing literal fromVariable with
  | named name =>
    cases hf : vars.follow literal fromVariable with
    | mk given flag =>
      by_cases hn : given = .null
      · subst hn
        rw [coerce_null hf] at he
        cases he
      · rw [coerce_named name hf hn] at he
        exact h.cause_of_coerceNamed he
  | nonNull inner ih =>
    cases hf : vars.follow literal fromVariable with
    | mk given flag =>
      by_cases hn : given = .null
      · subst hn
        rw [coerce_null hf] at he
        cases he
        rfl
      · rw [coerce_nonNull inner hf hn] at he
        exact ih he
  | list item ih =>
    cases hf : vars.follow literal fromVariable with
    | mk given flag =>
      by_cases hn : given = .null
      · subst hn
        rw [coerce_null hf] at he
        cases he
      · by_cases hl : ∃ items, given = .list items
        · obtain ⟨items, rfl⟩ := hl
          rw [coerce_items item hf] at he
          obtain ⟨literal', -, he⟩ := exists_mem_of_mapM_eq_error (map_eq_error_iff.1 he)
          exact ih he
        · rw [coerce_single item hf hn (not_exists.1 hl)] at he
          exact ih (map_eq_error_iff.1 he)

theorem FailsPlainly.cause_of_coerceArgument (h : r.FailsPlainly) {field : Field σ}
    {provided : Keyed InputValue} {arg : Argument}
    (he : r.coerceArgument field provided vars arg = .error e) : e.kind.cause = .arguments := by
  cases hl : arg.literal? provided vars with
  | none =>
    rw [coerceArgument_of_literal?_eq_none hl] at he
    split at he
    · cases he
      rfl
    · cases he
  | some given =>
    rw [coerceArgument_of_literal? hl] at he
    obtain ⟨e', he', rfl⟩ := mapError_eq_error_iff.1 he
    have hcause := h.cause_of_coerce (map_eq_error_iff.1 he')
    exact hcause

/-- What the coercion of arguments fails with is due to the arguments. -/
theorem FailsPlainly.cause_of_coerceArguments (h : r.FailsPlainly) {field : Field σ}
    {provided : Keyed InputValue}
    (he : r.coerceArguments field provided vars = .error e) : e.kind.cause = .arguments := by
  obtain ⟨name, hblames⟩ := coerceArguments_eq_error_iff.1 he
  cases hblames with
  | undeclared => rfl
  | declared _ _ _ he => exact h.cause_of_coerceArgument he

/-! ## Values that do not fit -/

/-- Why a value that is not `null` does not fit a type. -/
inductive Rejects (r : Registry σ) (v : Value) : TypeRef → Cause → Prop where
  | nonNull {inner cause} (h : Rejects r v inner cause) : Rejects r v (.nonNull inner) cause
  | notAList {item} (hl : ∀ items, v ≠ .list items) : Rejects r v (.list item) .serialization
  | leaf {name t serialize e} (ht : r.get? name = some t) (hs : t.serialize? = some serialize)
    (he : serialize v = .error e) : Rejects r v (.named name) .serialization
  | abstract {name t} (ht : r.get? name = some t) (ha : t.kind.isAbstract = true)
    (hn : ∀ o, ¬ r.Names v name o) : Rejects r v (.named name) .dispatch

/-- The leaf type that the type is serializes a value to another one. -/
inductive Writes (r : Registry σ) (v w : Value) : TypeRef → Prop where
  | nonNull {inner} (h : Writes r v w inner) : Writes r v w (.nonNull inner)
  | leaf {name t serialize} (ht : r.get? name = some t) (hs : t.serialize? = some serialize)
    (hw : serialize v = .ok w) : Writes r v w (.named name)

theorem cause_of_dispatch {abstract : String} {resolveType? : Option TypeResolver}
    (h : r.dispatch abstract resolveType? v = .error e) : e.kind.cause = .dispatch := by
  rw [kind_of_dispatch h]
  rfl

theorem cause_of_abstract {t : TypeDef σ} (ht : r.get? name = some t)
    (ha : t.kind.isAbstract = true) (he : r.shapeNamed name v = .error e) :
    e.kind.cause = .dispatch := by
  unfold shapeNamed at he
  rw [ht] at he
  cases t with
  | interface i => exact cause_of_dispatch (map_eq_error_iff.1 he)
  | union u => exact cause_of_dispatch (map_eq_error_iff.1 he)
  | _ => cases ha

/-- What an abstract value is dispatched to is what it names. -/
theorem names_of_shapeNamed {t : TypeDef σ} (ht : r.get? name = some t)
    (ha : t.kind.isAbstract = true) {shape : Shape σ} (h : r.shapeNamed name v = .ok shape) :
    ∃ o, r.Names v name o := by
  unfold shapeNamed at h
  cases t with
  | interface i =>
    rw [ht] at h
    obtain ⟨o, hd, -⟩ := map_eq_ok_iff.1 h
    have hname : i.name = name := name_of_get? ht
    exact ⟨o, .interface ht (dispatch_eq_ok_iff.1 hd).1
      (hname ▸ mem_possibleTypes_of_dispatch hd)⟩
  | union u =>
    rw [ht] at h
    obtain ⟨o, hd, -⟩ := map_eq_ok_iff.1 h
    have hname : u.name = name := name_of_get? ht
    exact ⟨o, .union ht (dispatch_eq_ok_iff.1 hd).1 (hname ▸ mem_possibleTypes_of_dispatch hd)⟩
  | _ => cases ha

theorem shapeNamed_of_serialize? {t : TypeDef σ} {serialize : Value → Except FieldError Value}
    (ht : r.get? name = some t) (hs : t.serialize? = some serialize) :
    r.shapeNamed name v =
      ((serialize v).mapError (·.orKind .serialization)).map .leaf := by
  unfold shapeNamed
  rw [ht]
  cases t with
  | scalar s =>
    cases hs
    rfl
  | enum e =>
    cases hs
    rfl
  | _ => cases hs

/-- Leaf types refuse values with no more specific kind, or with that of serialization. -/
theorem FailsPlainly.kind_serialize (h : r.FailsPlainly) {t : TypeDef σ}
    {serialize : Value → Except FieldError Value} (ht : r.get? name = some t)
    (hs : t.serialize? = some serialize) (he : serialize v = .error e) :
    (e.orKind .serialization).kind = .serialization := by
  cases t with
  | scalar s =>
    cases hs
    rcases builtin_or_declared_of_get? ht with ⟨s', hb, heq⟩ | hd
    · obtain rfl := TypeDef.scalar.inj heq
      have hkind := ScalarType.kind_serialize_of_mem_builtins hb he
      rw [FieldError.orKind_of_ne (by simp [hkind]), hkind]
    · exact FieldError.kind_orKind_of_resolver (h.serializes s hd v e he) _
  | enum t =>
    cases hs
    unfold EnumType.serialize at he
    split at he
    · cases he
    · cases he
      rfl
  | _ => cases hs

theorem FailsPlainly.rejects_of_shapeNamed (h : r.FailsPlainly) {t : TypeDef σ}
    (ht : r.get? name = some t) (he : r.shapeNamed name v = .error e) :
    r.Rejects v (.named name) e.kind.cause := by
  have unnamed : ∀ o, ¬ r.Names v name o := by
    intro o hn
    rw [hn.shapeNamed_eq.1] at he
    cases he
  have serialized : ∀ serialize, t.serialize? = some serialize →
      r.Rejects v (.named name) e.kind.cause := by
    intro serialize hs
    rw [shapeNamed_of_serialize? ht hs] at he
    obtain ⟨e', he', rfl⟩ := mapError_eq_error_iff.1 (map_eq_error_iff.1 he)
    rw [h.kind_serialize ht hs he']
    exact .leaf ht hs he'
  cases t with
  | scalar s => exact serialized _ rfl
  | enum t => exact serialized _ rfl
  | object o =>
    unfold shapeNamed at he
    rw [ht] at he
    cases he
  | interface i =>
    rw [cause_of_abstract ht rfl he]
    exact .abstract ht rfl unnamed
  | union u =>
    rw [cause_of_abstract ht rfl he]
    exact .abstract ht rfl unnamed

/-- A value that does not fit is rejected for the cause that its error tells. -/
theorem FailsPlainly.rejects_of_shape (h : r.FailsPlainly) {t : TypeDef σ}
    (ht : r.lookup? type = some t) (he : r.shape type v = .error e) :
    r.Rejects v type e.kind.cause := by
  induction type with
  | named name => exact h.rejects_of_shapeNamed ht he
  | nonNull inner ih => exact .nonNull (ih ht he)
  | list item =>
    have hl : ∀ items, v ≠ .list items := by
      rintro items rfl
      cases he
    cases v with
    | list items => exact absurd rfl (hl items)
    | _ =>
      cases he
      exact .notAList hl

/-- What is rejected does not fit, and its error tells the cause. -/
theorem Rejects.exists_shape (hr : r.Rejects v type cause) (h : r.FailsPlainly) :
    ∃ e, r.shape type v = .error e ∧ e.kind.cause = cause := by
  induction hr with
  | nonNull _ ih => exact ih
  | notAList hl =>
    cases v with
    | list items => exact absurd rfl (hl items)
    | _ => exact ⟨_, rfl, rfl⟩
  | @leaf name t serialize e ht hs he =>
    refine ⟨e.orKind .serialization, ?_, ?_⟩
    · rw [shape, shapeNamed_of_serialize? ht hs, he]
      rfl
    · rw [h.kind_serialize ht hs he]
      rfl
  | @abstract name t ht ha hn =>
    rw [shape]
    cases he : r.shapeNamed name v with
    | ok found =>
      obtain ⟨o, ho⟩ := names_of_shapeNamed ht ha he
      exact absurd ho (hn o)
    | error e => exact ⟨e, rfl, cause_of_abstract ht ha he⟩

/-- What a leaf type serializes a value to is what the value is by the type. -/
theorem writes_iff_shape : r.Writes v w type ↔ r.shape type v = .ok (.leaf w) := by
  constructor
  · intro h
    induction h with
    | nonNull _ ih => exact ih
    | leaf ht hs hw =>
      rw [shape, shapeNamed_of_serialize? ht hs, hw]
      rfl
  · intro h
    induction type with
    | named name =>
      obtain ⟨t, serialize, ht, hs, hw⟩ := serialize_of_shapeNamed h
      exact .leaf ht hs hw
    | nonNull inner ih => exact .nonNull (ih h)
    | list item => cases v <;> cases h

end Registry

end GraphQL
