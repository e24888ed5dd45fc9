import GraphQL.Proofs.Outcome.Basic
import Mathlib.Data.List.Infix

/-!
# The errors of an outcome, by position

The errors of an outcome are those of the positions that failed by themselves (`mem_errors_iff`).
No two of them stand at one position or one below the other (`pairwise_apart_errors`): a position
that fails by itself has nothing below it, and the positions below one another's siblings differ.
-/

namespace GraphQL

namespace Path

/-- Neither of two positions is the other or lies above it. -/
def Apart (p q : Path) : Prop :=
  ¬ p <+: q ∧ ¬ q <+: p

theorem Apart.symm {p q : Path} (h : Apart p q) : Apart q p :=
  ⟨h.2, h.1⟩

theorem Apart.ne {p q : Path} (h : Apart p q) : p ≠ q := by
  rintro rfl
  exact h.1 (List.prefix_refl p)

/-- Positions below different members of one group are apart. -/
theorem apart_of_ne {path p q : Path} {a b : PathSegment} (hne : a ≠ b)
    (hp : path ++ [a] <+: p) (hq : path ++ [b] <+: q) : Apart p q := by
  have key : ∀ {r : Path}, path ++ [a] <+: r → path ++ [b] <+: r → False := by
    intro r ha hb
    have hab : path ++ [a] <+: path ++ [b] := List.prefix_of_prefix_length_le ha hb (by simp)
    have heq := hab.eq_of_length (by simp)
    simp only [List.append_cancel_left_eq, List.cons.injEq, and_true] at heq
    exact hne heq
  exact ⟨fun h => key (hp.trans h) hq, fun h => key hp (hq.trans h)⟩

end Path

namespace Outcome

/-! ## Errors below a group -/

theorem mem_itemErrors_iff {items : List Outcome} {path : Path} {i : Nat} {e : LocatedError} :
    e ∈ itemErrors items path i ↔
      ∃ (j : Nat) (o : Outcome), items[j]? = some o ∧ e ∈ o.errors (path.index (i + j)) := by
  induction items generalizing i with
  | nil => simp [itemErrors]
  | cons o rest ih =>
    rw [itemErrors, List.mem_append, ih]
    constructor
    · rintro (h | ⟨j, o', hj, h⟩)
      · exact ⟨0, o, rfl, h⟩
      · exact ⟨j + 1, o', hj, by rwa [Nat.add_right_comm, Nat.add_assoc] at h⟩
    · rintro ⟨j, o', hj, h⟩
      cases j with
      | zero =>
        simp only [List.getElem?_cons_zero, Option.some.injEq] at hj
        exact .inl (hj ▸ h)
      | succ j => exact .inr ⟨j, o', hj, by rwa [Nat.add_right_comm, Nat.add_assoc]⟩

theorem mem_fieldErrors_iff {fields : Fields} {path : Path} {e : LocatedError} :
    e ∈ fieldErrors fields path ↔
      ∃ key call? o, (key, call?, o) ∈ fields ∧ e ∈ o.errors (path.field key) := by
  induction fields with
  | nil => simp [fieldErrors]
  | cons f rest ih =>
    obtain ⟨key, call?, o⟩ := f
    rw [fieldErrors, List.mem_append, ih]
    constructor
    · rintro (h | ⟨key', call?', o', hm, h⟩)
      · exact ⟨key, call?, o, List.mem_cons_self, h⟩
      · exact ⟨key', call?', o', List.mem_cons_of_mem _ hm, h⟩
    · rintro ⟨key', call?', o', hm, h⟩
      rcases List.mem_cons.1 hm with heq | hm
      · simp only [Prod.mk.injEq] at heq
        obtain ⟨rfl, rfl, rfl⟩ := heq
        exact .inl h
      · exact .inr ⟨key', call?', o', hm, h⟩

/-- An error is the position's own or recorded below one of the positions right below it. -/
theorem mem_errors_iff_child {o : Outcome} (hk : o.DistinctKeys) {path : Path}
    {e : LocatedError} :
    e ∈ o.errors path ↔ (e.path = path ∧ o.error? = some e.error) ∨
      ∃ segment child, o.child? segment = some child ∧ e ∈ child.errors (path ++ [segment]) := by
  obtain ⟨p, error⟩ := e
  have own : ∀ {error? : Option FieldError}, ⟨p, error⟩ ∈ (error?.map (⟨path, ·⟩ :
      FieldError → LocatedError)).toList ↔ p = path ∧ error? = some error := by
    intro error?
    cases error? with
    | none => simp
    | some error' => simp [eq_comm]
  cases hk with
  | typename => simp [errors, error?, child?]
  | failed => simp [errors, own, child?]
  | null => simp [errors, own, child?]
  | leaf => simp [errors, own, child?]
  | @list type items h =>
    rw [errors, mem_itemErrors_iff]
    simp only [error?, reduceCtorEq, and_false, false_or, Nat.zero_add]
    constructor
    · rintro ⟨j, o, hj, h⟩
      exact ⟨.index j, o, hj, h⟩
    · rintro ⟨segment, o, hs, h⟩
      obtain ⟨j, rfl, hj⟩ := child?_list_eq_some_iff.1 hs
      exact ⟨j, o, hj, h⟩
  | @object type name fields hn h =>
    rw [errors, mem_fieldErrors_iff]
    simp only [error?, reduceCtorEq, and_false, false_or]
    constructor
    · rintro ⟨key, call?, o, hm, h⟩
      exact ⟨.field key, o, (child?_object_eq_some_iff hn).2 ⟨key, call?, rfl, hm⟩, h⟩
    · rintro ⟨segment, o, hs, h⟩
      obtain ⟨key, call?, rfl, hm⟩ := (child?_object_eq_some_iff hn).1 hs
      exact ⟨key, call?, o, hm, h⟩

theorem DistinctKeys.child {o child : Outcome} {segment : PathSegment} (hk : o.DistinctKeys)
    (h : o.child? segment = some child) : child.DistinctKeys := by
  cases hk with
  | list hi =>
    obtain ⟨i, rfl, hget⟩ := child?_list_eq_some_iff.1 h
    exact hi child (List.mem_of_getElem? hget)
  | object hn hf =>
    obtain ⟨key, call?, rfl, hm⟩ := (child?_object_eq_some_iff hn).1 h
    exact hf key call? child hm
  | _ => simp [child?] at h

theorem DistinctKeys.at? {o o' : Outcome} {p : Path} (hk : o.DistinctKeys)
    (h : o.at? p = some o') : o'.DistinctKeys := by
  induction p generalizing o with
  | nil =>
    rw [at?_nil, Option.some.injEq] at h
    exact h ▸ hk
  | cons segment p ih =>
    obtain ⟨child, hc, h⟩ := at?_cons_eq_some_iff.1 h
    exact ih (hk.child hc) h

/-- Induction from the positions right below a position to the position. -/
theorem DistinctKeys.induction_below {motive : (o : Outcome) → o.DistinctKeys → Prop}
    (step : ∀ o (hk : o.DistinctKeys),
      (∀ segment child (hc : o.child? segment = some child), motive child (hk.child hc)) →
      motive o hk)
    {o : Outcome} (hk : o.DistinctKeys) : motive o hk := by
  induction hk with
  | typename => exact step _ .typename fun _ _ h => by simp [child?] at h
  | failed => exact step _ .failed fun _ _ h => by simp [child?] at h
  | null => exact step _ .null fun _ _ h => by simp [child?] at h
  | leaf => exact step _ .leaf fun _ _ h => by simp [child?] at h
  | list h ih =>
    refine step _ (.list h) ?_
    intro segment child hc
    obtain ⟨i, rfl, hget⟩ := child?_list_eq_some_iff.1 hc
    exact ih child (List.mem_of_getElem? hget)
  | object hn h ih =>
    refine step _ (.object hn h) ?_
    intro segment child hc
    obtain ⟨key, call?, rfl, hm⟩ := (child?_object_eq_some_iff hn).1 hc
    exact ih key call? child hm

/-- **The errors are those of the positions that failed by themselves**, each at its position. -/
theorem mem_errors_iff {o : Outcome} (hk : o.DistinctKeys) {path : Path} {e : LocatedError} :
    e ∈ o.errors path ↔
      ∃ p o', e.path = path ++ p ∧ o.at? p = some o' ∧ o'.error? = some e.error := by
  constructor
  · intro h
    induction hk using DistinctKeys.induction_below generalizing path with
    | step o hk ih =>
      rcases (mem_errors_iff_child hk).1 h with ⟨hp, he⟩ | ⟨segment, child, hc, h⟩
      · exact ⟨[], o, by simp [hp], rfl, he⟩
      · obtain ⟨p, o', hp, ha, he⟩ := ih segment child hc h
        refine ⟨segment :: p, o', by simp [hp], ?_, he⟩
        exact at?_cons_eq_some_iff.2 ⟨child, hc, ha⟩
  · rintro ⟨p, o', hp, ha, he⟩
    induction p generalizing o path with
    | nil =>
      simp only [at?_nil, Option.some.injEq] at ha
      subst ha
      exact (mem_errors_iff_child hk).2 (.inl ⟨by simpa using hp, he⟩)
    | cons segment p ih =>
      obtain ⟨child, hc, ha⟩ := at?_cons_eq_some_iff.1 ha
      refine (mem_errors_iff_child hk).2 (.inr ⟨segment, child, hc, ?_⟩)
      exact ih (hk.child hc) (by simp [hp]) ha

theorem prefix_of_mem_errors {o : Outcome} (hk : o.DistinctKeys) {path : Path}
    {e : LocatedError} (h : e ∈ o.errors path) : path <+: e.path := by
  obtain ⟨p, -, hp, -⟩ := (mem_errors_iff hk).1 h
  exact ⟨p, hp.symm⟩

/-! ## Errors stand apart -/

theorem pairwise_apart_itemErrors {items : List Outcome} {path : Path} {i : Nat}
    (hk : ∀ o ∈ items, o.DistinctKeys)
    (h : ∀ o ∈ items, ∀ path, (o.errors path).Pairwise fun a b => a.path.Apart b.path) :
    (itemErrors items path i).Pairwise fun a b => a.path.Apart b.path := by
  induction items generalizing i with
  | nil => exact .nil
  | cons o rest ih =>
    rw [itemErrors, List.pairwise_append]
    refine ⟨h o List.mem_cons_self _, ?_, ?_⟩
    · exact ih (fun o ho => hk o (List.mem_cons_of_mem _ ho))
        (fun o ho => h o (List.mem_cons_of_mem _ ho))
    · intro a ha b hb
      obtain ⟨j, o', hj, hb⟩ := mem_itemErrors_iff.1 hb
      have hpa := prefix_of_mem_errors (hk o List.mem_cons_self) ha
      have hpb := prefix_of_mem_errors
        (hk o' (List.mem_cons_of_mem _ (List.mem_of_getElem? hj))) hb
      refine Path.apart_of_ne ?_ hpa hpb
      simp only [ne_eq, PathSegment.index.injEq]
      omega

theorem pairwise_apart_fieldErrors {fields : Fields} {path : Path}
    (hn : (Keyed.keys fields).Nodup)
    (hk : ∀ key call? o, (key, call?, o) ∈ fields → o.DistinctKeys)
    (h : ∀ key call? o, (key, call?, o) ∈ fields →
      ∀ path, (o.errors path).Pairwise fun a b => a.path.Apart b.path) :
    (fieldErrors fields path).Pairwise fun a b => a.path.Apart b.path := by
  induction fields with
  | nil => exact .nil
  | cons f rest ih =>
    obtain ⟨key, call?, o⟩ := f
    simp only [Keyed.keys, List.map_cons, List.nodup_cons] at hn
    rw [fieldErrors, List.pairwise_append]
    refine ⟨h key call? o List.mem_cons_self _, ?_, ?_⟩
    · exact ih hn.2 (fun key call? o ho => hk key call? o (List.mem_cons_of_mem _ ho))
        (fun key call? o ho => h key call? o (List.mem_cons_of_mem _ ho))
    · intro a ha b hb
      obtain ⟨key', call?', o', hm, hb⟩ := mem_fieldErrors_iff.1 hb
      have hpa := prefix_of_mem_errors (hk key call? o List.mem_cons_self) ha
      have hpb := prefix_of_mem_errors (hk key' call?' o' (List.mem_cons_of_mem _ hm)) hb
      refine Path.apart_of_ne ?_ hpa hpb
      simp only [ne_eq, PathSegment.field.injEq]
      rintro rfl
      exact hn.1 (List.mem_map_of_mem (f := Prod.fst) hm)

/-- **No two errors stand at one position or one below the other.** -/
theorem pairwise_apart_errors {o : Outcome} (hk : o.DistinctKeys) (path : Path) :
    (o.errors path).Pairwise fun a b => a.path.Apart b.path := by
  induction hk generalizing path with
  | typename => exact .nil
  | failed => exact List.pairwise_singleton ..
  | @null type =>
    rw [errors]
    cases (null type).error? <;> simp
  | @leaf type v =>
    rw [errors]
    cases (leaf type v).error? <;> simp
  | list h ih => exact pairwise_apart_itemErrors h fun o ho path => ih o ho path
  | object hn h ih =>
    exact pairwise_apart_fieldErrors hn h fun key call? o ho path => ih key call? o ho path

end Outcome

end GraphQL
