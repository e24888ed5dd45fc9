import GraphQL.Proofs.Execution.Evaluation
import GraphQL.Proofs.Outcome.Executions

/-!
# Nulls go to the closest nullable position

An error makes `null` of the closest position above that may be `null`, unless something above that
is `null` already (`null_at_or_above_closest`). A position is `null` for no other reason than its
value or an error that it is closest to (`isPlainNull_or_closest`): whatever has no value has an
error below with nothing nullable on the way (`exists_error_of_completion_eq_none`).
-/

namespace GraphQL

namespace Outcome

/-- A position was reached and may be `null`. -/
def NullableAt (o : Outcome) (p : Path) : Prop :=
  ∃ o', o.at? p = some o' ∧ o'.isNullable = true

/-- The longest prefix of a path that leads to a nullable position. -/
structure ClosestNullable (o : Outcome) (p a : Path) : Prop where
  above : a <+: p
  nullable : o.NullableAt a
  longest : ∀ b, b <+: p → o.NullableAt b → b.length ≤ a.length

theorem nullableAt_cons_iff {o : Outcome} {segment : PathSegment} {p : Path} :
    o.NullableAt (segment :: p) ↔
      ∃ child, o.child? segment = some child ∧ child.NullableAt p := by
  unfold NullableAt
  constructor
  · rintro ⟨o', ha, hn⟩
    obtain ⟨child, hc, ha⟩ := at?_cons_eq_some_iff.1 ha
    exact ⟨child, hc, o', ha, hn⟩
  · rintro ⟨child, hc, o', ha, hn⟩
    exact ⟨o', at?_cons_eq_some_iff.2 ⟨child, hc, ha⟩, hn⟩

/-- On the way to a path, the position itself or one below a member is nullable. -/
theorem NullableAt.of_prefix_cons {o : Outcome} {segment : PathSegment} {p b : Path}
    (hb : b <+: segment :: p) (hn : o.NullableAt b) :
    b = [] ∨ ∃ child b', o.child? segment = some child ∧ b = segment :: b' ∧ b' <+: p ∧
      child.NullableAt b' := by
  rcases List.prefix_cons_iff.1 hb with rfl | ⟨b', rfl, hb'⟩
  · exact .inl rfl
  · obtain ⟨child, hc, hn'⟩ := nullableAt_cons_iff.1 hn
    exact .inr ⟨child, b', hc, rfl, hb', hn'⟩

/-! ## The closest nullable position -/

theorem ClosestNullable.cons {o child : Outcome} {segment : PathSegment} {p a : Path}
    (hc : o.child? segment = some child) (h : child.ClosestNullable p a) :
    o.ClosestNullable (segment :: p) (segment :: a) := by
  refine ⟨?_, nullableAt_cons_iff.2 ⟨child, hc, h.nullable⟩, ?_⟩
  · exact List.cons_prefix_cons.2 ⟨rfl, h.above⟩
  · intro b hb hn
    rcases hn.of_prefix_cons hb with rfl | ⟨child', b', hc', rfl, hb', hn'⟩
    · simp
    · rw [hc, Option.some.injEq] at hc'
      have := h.longest b' hb' (hc' ▸ hn')
      simpa using this

/-- A nullable position is the closest one for everything below it that nothing else nullable is on
the way to. -/
theorem closestNullable_append {o o' : Outcome} {p r : Path} (ha : o.at? p = some o')
    (hn : o'.isNullable = true) (hr : ∀ b, b <+: r → b ≠ [] → ¬ o'.NullableAt b) :
    o.ClosestNullable (p ++ r) p := by
  refine ⟨List.prefix_append p r, ⟨o', ha, hn⟩, ?_⟩
  intro b hb hnb
  by_contra hlt
  have hpb : p <+: b := List.prefix_of_prefix_length_le (List.prefix_append p r) hb (by omega)
  obtain ⟨b', rfl⟩ := hpb
  have hb' : b' <+: r := (List.prefix_append_right_inj p).1 hb
  have hne : b' ≠ [] := by
    rintro rfl
    simp at hlt
  obtain ⟨ob, hob, hnob⟩ := hnb
  rw [at?_append ha] at hob
  exact hr b' hb' hne ⟨ob, hob, hnob⟩

theorem exists_closestNullable {o : Outcome} {p b : Path} (hb : b <+: p) (hn : o.NullableAt b) :
    ∃ a, o.ClosestNullable p a := by
  induction p generalizing o b with
  | nil =>
    have hnil := List.prefix_nil.1 hb
    subst hnil
    exact ⟨[], List.prefix_refl _, hn, fun b hb _ => hb.length_le⟩
  | cons segment p ih =>
    by_cases hbelow : ∃ child, o.child? segment = some child ∧ ∃ b, b <+: p ∧ child.NullableAt b
    · obtain ⟨child, hc, b', hb', hn'⟩ := hbelow
      obtain ⟨a, ha⟩ := ih hb' hn'
      exact ⟨segment :: a, ha.cons hc⟩
    · have hnil : ∀ b, b <+: segment :: p → o.NullableAt b → b = [] := by
        intro b hb hn
        rcases hn.of_prefix_cons hb with rfl | ⟨child, b', hc, rfl, hb', hn'⟩
        · rfl
        · exact absurd ⟨child, hc, b', hb', hn'⟩ hbelow
      refine ⟨[], List.nil_prefix, hnil b hb hn ▸ hn, ?_⟩
      intro b hb hn
      rw [hnil b hb hn]

/-! ## Errors make nulls -/

/-- The closest nullable position of an error is `null` in the result, or something above it is. -/
theorem null_at_or_above_closest {o o' : Outcome} {p : Path} {v : Value}
    (hv : o.completion = some v) (ha : o.at? p = some o') (he : o'.error?.isSome) :
    ∃ a, o.ClosestNullable p a ∧ ∃ b, b <+: a ∧ v.at? b = some .null := by
  induction p generalizing o v with
  | nil =>
    rw [at?_nil, Option.some.injEq] at ha
    subst ha
    obtain ⟨rfl, hn⟩ := completion_eq_null_of_error? he hv
    refine ⟨[], ?_, [], List.prefix_refl _, rfl⟩
    simpa using closestNullable_append (r := []) (at?_nil o) hn (by simp)
  | cons segment p ih =>
    -- either everything here is `null`, or the result goes on below as the outcome does
    by_cases hnull : v = .null
    · subst hnull
      have hn := isNullable_of_completion_eq_null hv
      obtain ⟨a, ha⟩ := exists_closestNullable List.nil_prefix ⟨o, at?_nil o, hn⟩
      exact ⟨a, ha, [], List.nil_prefix, rfl⟩
    · obtain ⟨child, hc, ha⟩ := at?_cons_eq_some_iff.1 ha
      obtain ⟨v', hv', hvc⟩ := exists_child_of_completion hv hnull hc
      obtain ⟨a, hcl, b, hb, hat⟩ := ih hv' ha
      refine ⟨segment :: a, hcl.cons hc, segment :: b, List.cons_prefix_cons.2 ⟨rfl, hb⟩, ?_⟩
      exact Value.at?_cons_eq_some_iff.2 ⟨v', hvc, hat⟩

/-! ## Nulls come from values and errors -/

/-- Below a position without a value, something failed with nothing nullable on the way. -/
theorem exists_error_of_completion_eq_none {o : Outcome} (hk : o.DistinctKeys)
    (h : o.completion = none) :
    ∃ r o', o.at? r = some o' ∧ o'.error?.isSome ∧ ∀ b, b <+: r → ¬ o.NullableAt b := by
  induction hk using DistinctKeys.induction_below with
  | step o hk ih =>
    have hroot : ¬ o.NullableAt [] := by
      rintro ⟨o', ho, hn⟩
      rw [at?_nil, Option.some.injEq] at ho
      rw [← ho, isNullable_of_completion_eq_none h] at hn
      nomatch hn
    rcases error_or_child_of_completion_eq_none hk h with he | ⟨segment, child, hc, hnone⟩
    · refine ⟨[], o, at?_nil o, he, ?_⟩
      intro b hb
      rwa [List.prefix_nil.1 hb]
    · obtain ⟨r, o', ha, he, hr⟩ := ih segment child hc hnone
      refine ⟨segment :: r, o', at?_cons_eq_some_iff.2 ⟨child, hc, ha⟩, he, ?_⟩
      intro b hb hn
      rcases hn.of_prefix_cons hb with rfl | ⟨child', b', hc', rfl, hb', hn'⟩
      · exact hroot hn
      · rw [hc, Option.some.injEq] at hc'
        exact hr b' hb' (hc' ▸ hn')

/-- What the result holds at a position that was reached is the result of the position. -/
theorem completion_of_at? {o o' : Outcome} {p : Path} {v v' : Value}
    (hv : o.completion = some v) (ha : o.at? p = some o') (hat : v.at? p = some v') :
    o'.completion = some v' := by
  induction p generalizing o v with
  | nil =>
    rw [at?_nil, Option.some.injEq] at ha
    rw [Value.at?_nil, Option.some.injEq] at hat
    rw [← ha, ← hat, hv]
  | cons segment p ih =>
    obtain ⟨child, hc, ha⟩ := at?_cons_eq_some_iff.1 ha
    obtain ⟨w, hw, hat⟩ := Value.at?_cons_eq_some_iff.1 hat
    have hne : v ≠ .null := by
      rintro rfl
      nomatch hw
    obtain ⟨w', hcw, hw'⟩ := exists_child_of_completion hv hne hc
    rw [hw, Option.some.injEq] at hw'
    exact ih (hw' ▸ hcw) ha hat

/-- A position that is `null` in the result may be, and it is `null` because its value is or because
of an error that it is closest to. -/
theorem isPlainNull_or_closest {o o' : Outcome} (hk : o.DistinctKeys) {p : Path} {v : Value}
    (hv : o.completion = some v) (ha : o.at? p = some o') (hat : v.at? p = some .null) :
    o'.isNullable = true ∧
      (o'.IsPlainNull ∨ ∃ e ∈ o.errors [], o.ClosestNullable e.path p) := by
  have hk' : o'.DistinctKeys := hk.at? ha
  have hnull := completion_of_at? hv ha hat
  have hn := isNullable_of_completion_eq_null hnull
  refine ⟨hn, ?_⟩
  rcases error_or_child_of_completion_eq_null hk' hnull with
    hplain | he | ⟨segment, child, hc, hnone⟩
  · exact .inl hplain
  · right
    obtain ⟨error, herror⟩ := Option.isSome_iff_exists.1 he
    refine ⟨⟨p, error⟩, (mem_errors_iff hk).2 ⟨p, o', rfl, ha, herror⟩, ?_⟩
    simpa using closestNullable_append (r := []) ha hn (by simp)
  · -- something right below has no value, so nothing nullable stands between here and an error
    right
    obtain ⟨r, oe, hae, he, hr⟩ := exists_error_of_completion_eq_none (hk'.child hc) hnone
    obtain ⟨error, herror⟩ := Option.isSome_iff_exists.1 he
    have hat : o.at? (p ++ segment :: r) = some oe := by
      rw [at?_append ha]
      exact at?_cons_eq_some_iff.2 ⟨child, hc, hae⟩
    refine ⟨⟨p ++ segment :: r, error⟩, (mem_errors_iff hk).2 ⟨_, oe, rfl, hat, herror⟩, ?_⟩
    refine closestNullable_append ha hn ?_
    intro b hb hne hnb
    rcases hnb.of_prefix_cons hb with rfl | ⟨child', b', hc', rfl, hb', hn'⟩
    · exact hne rfl
    · rw [hc, Option.some.injEq] at hc'
      exact hr b' hb' (hc' ▸ hn')

end Outcome

namespace Schema

variable {σ : Type} {s : Schema σ} {run : Run} {state : σ} {out : Output}

/-- **Nulls go to the closest nullable position, and come from nowhere else.** In what an execution
has reached, every error makes `null` of the closest position above that may be, or of one above
that; every position that is `null` has a value that is, or an error that it is closest to. The data
as a whole is `null` only if there are errors. -/
theorem execute_nulls_exactly {limit? : Option Nat}
    (h : (s.execute limit? run state).ending = .ok (.ok out)) :
    ∃ o, s.Reaches run (s.execute limit? run state).log out o ∧
      (∀ e ∈ out.errors, ∃ a, o.ClosestNullable e.path a ∧
        ∃ b, b <+: a ∧ out.data.at? b = some .null) ∧
      (∀ p o', o.at? p = some o' → out.data.at? p = some .null → o'.isNullable = true ∧
        (o'.IsPlainNull ∨ ∃ e ∈ out.errors, o.ClosestNullable e.path p)) ∧
      (out.data = .null → out.errors ≠ []) := by
  obtain ⟨o, hr⟩ := (endsWith_execute h).exists_outcome
  have hk := hr.yields.distinctKeys
  have null : ∀ p o', o.at? p = some o' → out.data.at? p = some .null →
      o'.isNullable = true ∧
        (o'.IsPlainNull ∨ ∃ e ∈ out.errors, o.ClosestNullable e.path p) := by
    intro p o' ha hat
    obtain ⟨hn, hcause⟩ := Outcome.isPlainNull_or_closest hk hr.completion ha hat
    refine ⟨hn, hcause.imp id ?_⟩
    rintro ⟨e, he, hcl⟩
    exact ⟨e, hr.errors.mem_iff.2 he, hcl⟩
  refine ⟨o, hr, ?_, null, ?_⟩
  · intro e he
    obtain ⟨p, oe, hp, ha, herr⟩ := (Outcome.mem_errors_iff hk).1 (hr.errors.mem_iff.1 he)
    rw [hp, List.nil_append]
    exact Outcome.null_at_or_above_closest hr.completion ha (by simp [herr])
  · intro hnull hnil
    obtain ⟨-, hplain | ⟨e, he, -⟩⟩ := null [] o rfl (by rw [hnull, Value.at?_nil])
    · exact hr.yields.not_isPlainNull hplain
    · simp [hnil] at he

/-- The part without a name makes something above it `null`. -/
theorem execute_nulls_exactly_sample :
    (Sample.schema.execute none Sample.run ()).ending =
        .ok (.ok ⟨Sample.data, LocatedError.sorted Sample.errors⟩) ∧
      ∃ o, Sample.schema.Reaches Sample.run (Sample.schema.execute none Sample.run ()).log
          ⟨Sample.data, LocatedError.sorted Sample.errors⟩ o ∧
        ∃ a, o.ClosestNullable [.field "found", .field "parts", .index 1, .field "name"] a ∧
          ∃ b, b <+: a ∧ Sample.data.at? b = some .null := by
  obtain ⟨o, hr, herror, -, -⟩ := execute_nulls_exactly Sample.ending_execute
  refine ⟨Sample.ending_execute, o, hr, ?_⟩
  exact herror _ (List.mem_mergeSort.2 (.tail _ (.head _)))

end Schema

end GraphQL
