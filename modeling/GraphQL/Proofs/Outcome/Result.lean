import GraphQL.Proofs.Outcome.Positions

/-!
# The result of an outcome, by position

A list and an object have a value only if all positions right below have one; the value then holds
theirs at the same places (`exists_child_of_completion`). A position without a value failed itself,
or one right below it has no value either (`error_or_child_of_completion_eq_none`).
-/

namespace GraphQL

namespace Value

/-- What a list or an object holds one step below. -/
def child? : Value → PathSegment → Option Value
  | .list items, .index i => items[i]?
  | .object entries, .field key => Keyed.get? entries key
  | _, _ => none

/-- What a value holds at the end of a path. -/
def at? (v : Value) : Path → Option Value
  | [] => some v
  | segment :: path =>
    match v.child? segment with
    | some v' => v'.at? path
    | none => none

@[simp] theorem at?_nil (v : Value) : v.at? [] = some v := rfl

theorem at?_cons_eq_some_iff {v v' : Value} {segment : PathSegment} {path : Path} :
    v.at? (segment :: path) = some v' ↔
      ∃ child, v.child? segment = some child ∧ child.at? path = some v' := by
  rw [at?]
  cases v.child? segment with
  | none => simp
  | some child => simp

theorem at?_append (v : Value) (p q : Path) : v.at? (p ++ q) = (v.at? p).bind (·.at? q) := by
  induction p generalizing v with
  | nil => rfl
  | cons segment p ih =>
    rw [List.cons_append, at?, at?]
    cases v.child? segment with
    | none => rfl
    | some child => exact ih child

end Value

namespace Outcome

/-! ## Values of groups -/

theorem getElem?_of_values? {items : List Outcome} {rs : List Value}
    (h : values? items = some rs) {i : Nat} {r : Value} (hr : rs[i]? = some r) :
    ∃ o, items[i]? = some o ∧ o.completion = some r := by
  have hi := congrArg (·[i]?) (values?_eq_some_iff.1 h)
  simp only [List.getElem?_map, hr, Option.map_some] at hi
  exact Option.map_eq_some_iff.1 hi

theorem mem_of_entries? {fields : Fields} {entries : List (String × Value)}
    (h : entries? fields = some entries) {key : String} {r : Value}
    (hr : (key, r) ∈ entries) :
    ∃ call? o, (key, call?, o) ∈ fields ∧ o.completion = some r := by
  have hm : (key, some r) ∈ entries.map fun e => (e.1, some e.2) :=
    List.mem_map.2 ⟨(key, r), hr, rfl⟩
  rw [← entries?_eq_some_iff.1 h] at hm
  obtain ⟨⟨key', call?, o⟩, ho, heq⟩ := List.mem_map.1 hm
  simp only [Prod.mk.injEq] at heq
  obtain ⟨rfl, hc⟩ := heq
  exact ⟨call?, o, ho, hc⟩

theorem keys_of_entries? {fields : Fields} {entries : List (String × Value)}
    (h : entries? fields = some entries) :
    Keyed.keys entries = Keyed.keys fields := by
  have hm := congrArg (List.map Prod.fst) (entries?_eq_some_iff.1 h)
  simpa [Keyed.keys, Function.comp_def] using hm.symm

theorem length_of_values? {items : List Outcome} {rs : List Value}
    (h : values? items = some rs) : rs.length = items.length := by
  have hl := congrArg List.length (values?_eq_some_iff.1 h)
  simpa using hl.symm

theorem exists_of_values?_eq_none {items : List Outcome} (h : values? items = none) :
    ∃ (i : Nat) (o : Outcome), items[i]? = some o ∧ o.completion = none := by
  induction items with
  | nil => simp [values?] at h
  | cons o rest ih =>
    rw [values?] at h
    cases ho : o.completion with
    | none => exact ⟨0, o, rfl, ho⟩
    | some v =>
      simp only [ho, Option.map_eq_none_iff] at h
      obtain ⟨i, o', hi, hn⟩ := ih h
      exact ⟨i + 1, o', hi, hn⟩

theorem exists_of_entries?_eq_none {fields : Fields} (h : entries? fields = none) :
    ∃ key call? o, (key, call?, o) ∈ fields ∧ o.completion = none := by
  induction fields with
  | nil => simp [entries?] at h
  | cons f rest ih =>
    obtain ⟨key, call?, o⟩ := f
    rw [entries?] at h
    cases ho : o.completion with
    | none => exact ⟨key, call?, o, List.mem_cons_self, ho⟩
    | some v =>
      simp only [ho, Option.map_eq_none_iff] at h
      obtain ⟨key', call?', o', hm, hn⟩ := ih h
      exact ⟨key', call?', o', List.mem_cons_of_mem _ hm, hn⟩

theorem get?_of_entries? {fields : Fields} {entries : List (String × Value)}
    (h : entries? fields = some entries) {key : String} {call? : Option Call} {o : Outcome}
    (hg : Keyed.get? fields key = some (call?, o)) :
    ∃ v, o.completion = some v ∧ Keyed.get? entries key = some v := by
  induction fields generalizing entries with
  | nil => simp at hg
  | cons f rest ih =>
    obtain ⟨key', call?', o'⟩ := f
    rw [entries?] at h
    cases ho : o'.completion with
    | none => simp [ho] at h
    | some v =>
      simp only [ho, Option.map_eq_some_iff] at h
      obtain ⟨entries, he, rfl⟩ := h
      rw [Keyed.get?_cons] at hg ⊢
      by_cases hk : key' = key
      · rw [if_pos hk, Option.some.injEq, Prod.mk.injEq] at hg
        obtain ⟨rfl, rfl⟩ := hg
        exact ⟨v, ho, by rw [if_pos hk]⟩
      · rw [if_neg hk] at hg ⊢
        exact ih he hg

/-! ## Results and the positions right below -/

/-- A result that is not `null` holds the results of the positions right below at their places. -/
theorem exists_child_of_completion {o child : Outcome} {v : Value} {segment : PathSegment}
    (hv : o.completion = some v) (hne : v ≠ .null) (hc : o.child? segment = some child) :
    ∃ v', child.completion = some v' ∧ v.child? segment = some v' := by
  cases o with
  | list type items =>
    rw [completion] at hv
    have hv := ((TypeRef.eq_or_of_settled_eq_some hv).resolve_right fun h => hne h.1).1
    obtain ⟨vs, hvs, rfl⟩ := Option.map_eq_some_iff.1 hv
    have hmap := values?_eq_some_iff.1 hvs
    cases segment with
    | field key => simp [child?] at hc
    | index i =>
      have hi := congrArg (·[i]?) hmap
      simp only [child?] at hc
      simp only [List.getElem?_map, hc, Option.map_some] at hi
      obtain ⟨v', hv', heq⟩ := Option.map_eq_some_iff.1 hi.symm
      exact ⟨v', heq.symm, hv'⟩
  | object type name fields =>
    rw [completion] at hv
    have hv := ((TypeRef.eq_or_of_settled_eq_some hv).resolve_right fun h => hne h.1).1
    obtain ⟨entries, he, rfl⟩ := Option.map_eq_some_iff.1 hv
    cases segment with
    | index i => simp [child?] at hc
    | field key =>
      simp only [child?, Option.map_eq_some_iff] at hc
      obtain ⟨⟨call?, o⟩, hg, rfl⟩ := hc
      exact get?_of_entries? he hg
  | _ => simp [child?] at hc

theorem exists_child_of_entries?_eq_none {type : TypeRef} {name : String} {fields : Fields}
    (hn : (Keyed.keys fields).Nodup) (h : entries? fields = none) :
    ∃ segment child, (object type name fields).child? segment = some child ∧
      child.completion = none := by
  obtain ⟨key, call?, o, hm, hn'⟩ := exists_of_entries?_eq_none h
  refine ⟨.field key, o, ?_, hn'⟩
  rw [child?, (Keyed.get?_eq_some_iff hn).2 hm]
  rfl

/-- A position without a value failed itself, or one right below has no value either. -/
theorem error_or_child_of_completion_eq_none {o : Outcome} (hk : o.DistinctKeys)
    (h : o.completion = none) :
    o.error?.isSome ∨ ∃ segment child, o.child? segment = some child ∧ child.completion = none := by
  cases hk with
  | typename => simp [completion] at h
  | failed => exact .inl rfl
  | null =>
    rw [completion, TypeRef.settled_eq_none_iff] at h
    simp [error?, h.1]
  | leaf =>
    rw [completion, TypeRef.settled_eq_none_iff] at h
    simp_all [error?, Value.isNull]
  | list =>
    rw [completion, TypeRef.settled_eq_none_iff] at h
    obtain ⟨i, o, hi, hn⟩ := exists_of_values?_eq_none (by simpa using h.2)
    exact .inr ⟨.index i, o, hi, hn⟩
  | object hn =>
    rw [completion, TypeRef.settled_eq_none_iff] at h
    exact .inr (exists_child_of_entries?_eq_none hn (by simpa using h.2))

/-- The value of the position is `null`, without a failure. -/
def IsPlainNull (o : Outcome) : Prop :=
  (∃ type, o = .null type) ∨ ∃ type, o = .leaf type .null

/-- Unless the value of a `null` position is `null`, it failed itself, or one right below has no
value. -/
theorem error_or_child_of_completion_eq_null {o : Outcome} (hk : o.DistinctKeys)
    (h : o.completion = some .null) :
    o.IsPlainNull ∨ o.error?.isSome ∨
      ∃ segment child, o.child? segment = some child ∧ child.completion = none := by
  cases hk with
  | typename => simp [completion] at h
  | failed => exact .inr (.inl rfl)
  | @null type => exact .inl (.inl ⟨type, rfl⟩)
  | @leaf type v =>
    rw [completion, TypeRef.settled_eq_null_iff] at h
    have hv : v = .null := by simpa using h.2
    exact .inl (.inr ⟨type, by rw [hv]⟩)
  | list =>
    rw [completion, TypeRef.settled_eq_null_iff] at h
    obtain ⟨i, o, hi, hn⟩ := exists_of_values?_eq_none (by simpa using h.2)
    exact .inr (.inr ⟨.index i, o, hi, hn⟩)
  | object hn =>
    rw [completion, TypeRef.settled_eq_null_iff] at h
    exact .inr (.inr (exists_child_of_entries?_eq_none hn (by simpa using h.2)))

/-- A position that failed itself has no value, or is `null` if it may be. -/
theorem completion_eq_null_of_error? {o : Outcome} {v : Value} (he : o.error?.isSome)
    (h : o.completion = some v) : v = .null ∧ o.isNullable = true := by
  have hnull : v = .null := by
    cases o with
    | failed type error =>
      rw [completion] at h
      rcases TypeRef.eq_or_of_settled_eq_some h with ⟨heq, -⟩ | ⟨hv, -⟩
      · cases heq
      · exact hv
    | null type =>
      rw [completion] at h
      rcases TypeRef.eq_or_of_settled_eq_some h with ⟨heq, -⟩ | ⟨hv, -⟩
      · exact (Option.some.inj heq).symm
      · exact hv
    | leaf type literal =>
      rw [completion] at h
      rcases TypeRef.eq_or_of_settled_eq_some h with ⟨heq, hne⟩ | ⟨hv, -⟩
      · simp_all [error?, Value.isNull]
      · exact hv
    | _ => simp [error?] at he
  subst hnull
  exact ⟨rfl, isNullable_of_completion_eq_null h⟩

end Outcome

end GraphQL
