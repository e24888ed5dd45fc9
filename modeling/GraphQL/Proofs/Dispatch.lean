import GraphQL.Execution.Dispatch

/-!
# Dispatched values

An abstract value is dispatched to an object type exactly if it names that type and the type is
registered and possible for the abstract one (`dispatch_eq_ok_iff`); all else is one kind of error
(`kind_of_dispatch`). So the object type is one of the possible types of its abstract type
(`mem_possibleTypes_of_dispatch`).
-/

namespace GraphQL

/-- The name of the object type of an abstract value: by the type resolver, or without one by the
value itself. -/
def Value.objectName? (v : Value) : Option TypeResolver → Option String
  | some resolveType => resolveType v
  | none => v.typename?

namespace Registry

variable {σ : Type}

theorem object?_eq_some_iff {r : Registry σ} {name : String} {o : ObjectType σ} :
    r.object? name = some o ↔ r.get? name = some (.object o) := by
  unfold object?
  cases r.get? name with
  | none => simp
  | some t => cases t <;> simp

/-- The object types that are possible for an abstract type are listed among its possible types. -/
theorem mem_possibleTypes_of_isPossible {r : Registry σ} {abstract : String} {o : ObjectType σ}
    (ho : r.get? o.name = some (.object o)) (h : r.isPossible abstract o.name = true) :
    o ∈ r.possibleTypes abstract := by
  unfold isPossible at h
  unfold possibleTypes
  cases hg : r.get? abstract with
  | none => simp [hg] at h
  | some t =>
    cases t with
    | union u =>
      simp only [hg] at h
      refine List.mem_filterMap.2 ⟨o.name, by simpa using h, ?_⟩
      exact object?_eq_some_iff.2 ho
    | interface i =>
      simp only [hg, object?_eq_some_iff.2 ho] at h
      refine List.mem_filterMap.2 ⟨.object o, mem_types_of_get? ho, ?_⟩
      simpa using h
    | scalar s => simp [hg] at h
    | object o => simp [hg] at h
    | enum e => simp [hg] at h

section Dispatch

variable {r : Registry σ} {abstract : String} {resolveType? : Option TypeResolver} {v : Value}

theorem dispatch_of_objectName?_eq_none (hn : v.objectName? resolveType? = none) :
    r.dispatch abstract resolveType? v = .error (.ofFault (.unresolvedType abstract)) := by
  unfold dispatch
  cases resolveType? with
  | some resolveType =>
    have hn : resolveType v = none := hn
    simp [hn]
  | none =>
    have hn : v.typename? = none := hn
    simp [hn]

/-- What a value that gives a name is dispatched to depends on the name alone. -/
theorem dispatch_of_objectName? {name : String} (hn : v.objectName? resolveType? = some name) :
    r.dispatch abstract resolveType? v =
      match r.get? name with
      | some (.object o) =>
        if r.isPossible abstract o.name then .ok o
        else .error (.ofFault (.notPossibleType abstract name))
      | some _ => .error (.ofFault (.resolvedToNonObject abstract name))
      | none => .error (.ofFault (.resolvedToUnknown abstract name)) := by
  unfold dispatch
  cases resolveType? with
  | some resolveType =>
    have hn : resolveType v = some name := hn
    cases hget : r.get? name with
    | none => simp [hn, hget]
    | some t => cases t <;> simp [hn, hget]
  | none =>
    have hn : v.typename? = some name := hn
    cases hget : r.get? name with
    | none => simp [hn, hget]
    | some t => cases t <;> simp [hn, hget]

theorem dispatch_eq_ok_iff {o : ObjectType σ} :
    r.dispatch abstract resolveType? v = .ok o ↔ v.objectName? resolveType? = some o.name ∧
      r.get? o.name = some (.object o) ∧ r.isPossible abstract o.name = true := by
  cases hn : v.objectName? resolveType? with
  | none => simp [dispatch_of_objectName?_eq_none hn]
  | some name =>
    rw [dispatch_of_objectName? hn]
    constructor
    · intro h
      split at h
      · next o' hg =>
        split at h
        · next hp =>
          obtain rfl := Except.ok.inj h
          have hname : o'.name = name := name_of_get? hg
          exact ⟨congrArg some hname.symm, hname.symm ▸ hg, hp⟩
        · nomatch h
      · nomatch h
      · nomatch h
    · rintro ⟨heq, hg, hp⟩
      obtain rfl := Option.some.inj heq
      simp [hg, hp]

theorem kind_of_dispatch {e : FieldError} (h : r.dispatch abstract resolveType? v = .error e) :
    e.kind = .abstractTypeResolution := by
  cases hn : v.objectName? resolveType? with
  | none =>
    rw [dispatch_of_objectName?_eq_none hn] at h
    cases h
    rfl
  | some name =>
    rw [dispatch_of_objectName? hn] at h
    split at h
    · split at h
      · nomatch h
      · cases h
        rfl
    · cases h
      rfl
    · cases h
      rfl

theorem mem_possibleTypes_of_dispatch {o : ObjectType σ}
    (h : r.dispatch abstract resolveType? v = .ok o) : o ∈ r.possibleTypes abstract := by
  obtain ⟨-, hg, hp⟩ := dispatch_eq_ok_iff.1 h
  exact mem_possibleTypes_of_isPossible hg hp

end Dispatch

end Registry

end GraphQL
