import GraphQL.Proofs.Overlap

/-!
# Dispatch is exact

Three questions decide which objects belong to an abstract type: which are listed as its possible
types, whether one is possible for it, and whether a fragment on it applies to one. They read
different data, and answer alike in a schema: what is possible is a registered object
(`isPossible_iff`), no object is listed twice (`nodup_possibleTypes`), and a fragment applies to
the object that it names and to the objects of the interface or the union that it names
(`WellFormed.fragmentApplies_iff`). So an abstract value is dispatched to the possible type that it
goes by, and to nothing else (`dispatch_exact`).
-/

namespace GraphQL

/-- The name that an abstract value goes by: the type resolver gives it or, without one, the value
is an object that holds it. -/
inductive Value.GoesBy (v : Value) : Option TypeResolver → String → Prop where
  | resolver {resolveType name} (h : resolveType v = some name) : GoesBy v (some resolveType) name
  | typename {entries name} (hv : v = .object entries)
    (h : Keyed.get? entries "__typename" = some (.string name)) : GoesBy v none name

theorem Value.asString?_eq_some_iff {v : Value} {s : String} :
    v.asString? = some s ↔ v = .string s := by
  constructor
  · intro h
    unfold asString? at h
    split at h
    · rw [Option.some.inj h]
    · nomatch h
  · rintro rfl
    rfl

theorem Value.typename?_eq_some_iff {v : Value} {name : String} :
    v.typename? = some name ↔
      ∃ entries, v = .object entries ∧ Keyed.get? entries "__typename" = some (.string name) := by
  cases v with
  | object entries =>
    simp [typename?, entry?, asObject?, Option.bind_eq_some_iff, asString?_eq_some_iff]
  | _ => simp [typename?, entry?, asObject?]

theorem Value.goesBy_iff {v : Value} {resolveType? : Option TypeResolver} {name : String} :
    v.GoesBy resolveType? name ↔ v.objectName? resolveType? = some name := by
  constructor
  · intro h
    cases h with
    | resolver h => exact h
    | typename hv h => exact typename?_eq_some_iff.2 ⟨_, hv, h⟩
  · intro h
    cases resolveType? with
    | some resolveType => exact .resolver h
    | none =>
      obtain ⟨entries, hv, hget⟩ := typename?_eq_some_iff.1 h
      exact .typename hv hget

/-- The type resolver of an interface or a union, if it has one. -/
def TypeDef.resolveType? {σ : Type} : TypeDef σ → Option TypeResolver
  | .interface i => i.resolveType?
  | .union u => u.resolveType?
  | _ => none

/-- What the items that are kept go by is a part of what all items go by, in the same order. -/
theorem map_filterMap_sublist {α β γ : Type} {f : α → Option β} {g : β → γ} {h : α → γ}
    (hf : ∀ a b, f a = some b → g b = h a) (xs : List α) :
    ((xs.filterMap f).map g).Sublist (xs.map h) := by
  induction xs with
  | nil => exact .slnil
  | cons x xs ih =>
    cases hx : f x with
    | none =>
      rw [List.filterMap_cons_none hx]
      exact ih.cons (h x)
    | some b =>
      rw [List.filterMap_cons_some hx, List.map_cons, List.map_cons, hf x b hx]
      exact ih.cons_cons (h x)

namespace Registry

variable {σ : Type} {r : Registry σ}

/-- An object is possible for the interfaces that it implements and the unions that contain it. -/
theorem WellFormed.isPossible_object_iff (h : r.WellFormed) {abstract : String} {o : ObjectType σ}
    (ho : r.get? o.name = some (.object o)) :
    r.isPossible abstract o.name = true ↔ abstract ∈ o.interfaces ∨
      ∃ u, r.get? abstract = some (.union u) ∧ o.name ∈ u.members := by
  constructor
  · intro hp
    unfold isPossible at hp
    split at hp
    · next u hu => exact .inr ⟨u, hu, by simpa using hp⟩
    · rw [object?_eq_some_iff.2 ho] at hp
      exact .inl (by simpa using hp)
    · nomatch hp
  · rintro (hi | ⟨u, hu, hm⟩)
    · have hobject : r.WellFormedObject o := h.types _ (mem_types_of_get? ho)
      obtain ⟨i, hget, -⟩ := hobject.interfaces abstract hi
      simp [isPossible, hget, object?_eq_some_iff.2 ho, hi]
    · simp [isPossible, hu, hm]

/-- A fragment applies to the object that it names, and to the objects of the interface or the union
that it names. -/
theorem WellFormed.fragmentApplies_iff (h : r.WellFormed) {condition : String} {o : ObjectType σ}
    (ho : r.get? o.name = some (.object o)) :
    r.fragmentApplies condition o.name = true ↔
      condition = o.name ∨ condition ∈ o.interfaces ∨
        ∃ u, r.get? condition = some (.union u) ∧ o.name ∈ u.members := by
  rw [fragmentApplies, Bool.or_eq_true, beq_iff_eq, h.isPossible_object_iff ho]

end Registry

namespace Schema

variable {σ : Type} (s : Schema σ)

/-- What is possible for an abstract type is listed among its possible types. -/
theorem isPossible_iff {abstract name : String} :
    s.registry.isPossible abstract name = true ↔
      ∃ o ∈ s.registry.possibleTypes abstract, o.name = name := by
  constructor
  · intro h
    obtain ⟨o, ho⟩ := s.exists_object_of_isPossible h
    obtain rfl : o.name = name := Registry.name_of_get? ho
    exact ⟨o, Registry.mem_possibleTypes_of_isPossible ho h, rfl⟩
  · rintro ⟨o, ho, rfl⟩
    exact Registry.isPossible_of_mem_possibleTypes ho

/-- No object is listed twice among the possible types of a type. -/
theorem nodup_possibleTypes (abstract : String) :
    ((s.registry.possibleTypes abstract).map ObjectType.name).Nodup := by
  unfold Registry.possibleTypes
  split
  · next u hu =>
    have hunion : s.registry.WellFormedUnion u := s.wellFormedType hu
    have hpart : ((u.members.filterMap s.registry.object?).map ObjectType.name).Sublist
        (u.members.map id) := by
      apply map_filterMap_sublist
      intro member o ho
      exact Registry.name_of_get? (Registry.object?_eq_some_iff.1 ho)
    rw [List.map_id] at hpart
    exact hunion.distinct.sublist hpart
  · refine s.registry.nodup_names.sublist (map_filterMap_sublist ?_ s.registry.types)
    intro t o ho
    cases t with
    | object o' =>
      obtain ⟨-, heq⟩ := Option.ite_none_right_eq_some.1 ho
      obtain rfl := Option.some.inj heq
      rfl
    | _ => nomatch ho
  · exact List.nodup_nil

/-- **Dispatch is sound and complete.** A value of an abstract type is dispatched to an object type
just if that is the possible type whose name the value goes by, and otherwise fails, always for the
same kind of reason; any other type has no possible types. The list of possible types names exactly
the objects that are possible, none of them twice, and to an object that was dispatched to, the
fragments apply that are on the abstract type, on the object, on its interfaces and on the unions
that contain it, and no others. -/
theorem dispatch_exact (t : TypeDef σ) :
    (∀ v o, s.registry.dispatch t.name t.resolveType? v = .ok o ↔
      ∃ name, v.GoesBy t.resolveType? name ∧
        o ∈ s.registry.possibleTypes t.name ∧ o.name = name) ∧
    (∀ v, (¬ ∃ name o, v.GoesBy t.resolveType? name ∧
        o ∈ s.registry.possibleTypes t.name ∧ o.name = name) →
      ∃ e, s.registry.dispatch t.name t.resolveType? v = .error e ∧
        e.kind = .abstractTypeResolution) ∧
    (∀ name, s.registry.isPossible t.name name = true ↔
      ∃ o ∈ s.registry.possibleTypes t.name, o.name = name) ∧
    ((s.registry.possibleTypes t.name).map ObjectType.name).Nodup ∧
    ∀ v o, s.registry.dispatch t.name t.resolveType? v = .ok o →
      ∀ condition, s.registry.fragmentApplies condition o.name = true ↔
        condition = t.name ∨ condition = o.name ∨ condition ∈ o.interfaces ∨
          ∃ u, s.registry.get? condition = some (.union u) ∧ o.name ∈ u.members := by
  have hok : ∀ v o, s.registry.dispatch t.name t.resolveType? v = .ok o ↔
      ∃ name, v.GoesBy t.resolveType? name ∧
        o ∈ s.registry.possibleTypes t.name ∧ o.name = name := by
    intro v o
    rw [Registry.dispatch_eq_ok_iff, ← Value.goesBy_iff, ← Registry.mem_possibleTypes_iff]
    constructor
    · rintro ⟨hn, hm⟩
      exact ⟨o.name, hn, hm, rfl⟩
    · rintro ⟨name, hn, hm, rfl⟩
      exact ⟨hn, hm⟩
  refine ⟨hok, ?_, fun name => s.isPossible_iff, s.nodup_possibleTypes t.name, ?_⟩
  · intro v hnone
    cases hd : s.registry.dispatch t.name t.resolveType? v with
    | ok o =>
      obtain ⟨name, hn, hm, hname⟩ := (hok v o).1 hd
      exact absurd ⟨name, o, hn, hm, hname⟩ hnone
    | error e => exact ⟨e, rfl, Registry.kind_of_dispatch hd⟩
  · intro v o hd condition
    obtain ⟨-, ho, hp⟩ := Registry.dispatch_eq_ok_iff.1 hd
    rw [s.wellFormed.fragmentApplies_iff ho]
    constructor
    · exact .inr
    · rintro (rfl | h)
      · exact .inr ((s.wellFormed.isPossible_object_iff ho).1 hp)
      · exact h

end Schema

namespace Spreading

/-- A companion that says it is a dog is one, and one that says it is the root is refused. What is
asked of pets is asked of the dog, and what is asked of robots is not. -/
theorem dispatch_exact_dog :
    schema.registry.dispatch "Companion" none (.object [("__typename", .string "Dog")]) =
        .ok dog ∧
      (∃ e, schema.registry.dispatch "Companion" none
          (.object [("__typename", .string "Query")]) = .error e ∧
        e.kind = .abstractTypeResolution) ∧
      schema.registry.fragmentApplies "Pet" "Dog" = true ∧
      schema.registry.fragmentApplies "Robot" "Dog" ≠ true := by
  obtain ⟨hok, hfail, -, -, hfragment⟩ := Schema.dispatch_exact schema (.union companion)
  have hlisted : schema.registry.possibleTypes "Companion" = [robot, dog] := rfl
  have hdog : dog ∈ schema.registry.possibleTypes "Companion" := by simp [hlisted]
  have hname : (Value.object [("__typename", .string "Dog")]).GoesBy none "Dog" :=
    .typename rfl rfl
  have hdispatched := (hok _ dog).2 ⟨"Dog", hname, hdog, rfl⟩
  refine ⟨hdispatched, ?_, (hfragment _ dog hdispatched "Pet").2 ?_, ?_⟩
  · apply hfail
    rintro ⟨name, o, hname, hm, heq⟩
    obtain rfl : "Query" = name := Option.some.inj (Value.goesBy_iff.1 hname)
    have hm : o ∈ [robot, dog] := hm
    simp only [List.mem_cons, List.not_mem_nil, or_false] at hm
    rcases hm with rfl | rfl
    · exact absurd heq (by decide)
    · exact absurd heq (by decide)
  · exact .inr (.inr (.inl List.mem_cons_self))
  · intro happlies
    rcases (hfragment _ dog hdispatched "Robot").1 happlies with h | h | h | ⟨u, hu, -⟩
    · exact absurd h (by decide)
    · exact absurd h (by decide)
    · exact absurd h (by decide)
    · nomatch hu

end Spreading

end GraphQL
