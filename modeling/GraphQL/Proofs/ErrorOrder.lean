import GraphQL.Proofs.Execution.Evaluation
import GraphQL.Proofs.Outcome.Executions

/-!
# Errors are listed by position

Paths are in a total order, and errors that stand apart have different paths, so sorting puts them
into strictly ascending order of their paths (`pairwise_lt_sorted`) and never looks at their
messages. The order in which they were recorded makes no difference (`sorted_eq_of_perm`).
-/

namespace GraphQL

/-! ## The order of paths -/

namespace PathSegment

instance : Std.LawfulEqCmp PathSegment.compare where
  compare_self := by
    intro a
    cases a with
    | field key => exact Std.ReflOrd.compare_self (α := String)
    | index i => exact Std.ReflOrd.compare_self (α := Nat)
  eq_of_compare := by
    intro a b h
    cases a with
    | field key =>
      cases b with
      | field key' => rw [Std.LawfulEqOrd.eq_of_compare h]
      | index j => nomatch h
    | index i =>
      cases b with
      | field key' => nomatch h
      | index j => rw [Std.LawfulEqOrd.eq_of_compare h]

instance : Std.TransCmp PathSegment.compare where
  eq_swap := by
    intro a b
    cases a with
    | field key =>
      cases b with
      | field key' => exact Std.OrientedOrd.eq_swap
      | index j => rfl
    | index i =>
      cases b with
      | field key' => rfl
      | index j => exact Std.OrientedOrd.eq_swap
  isLE_trans := by
    intro a b c hab hbc
    cases a with
    | field key =>
      cases c with
      | field key' =>
        cases b with
        | field key'' => exact Std.TransOrd.isLE_trans hab hbc
        | index j => nomatch hbc
      | index j => rfl
    | index i =>
      cases b with
      | field key => nomatch hab
      | index j =>
        cases c with
        | field key => nomatch hbc
        | index k => exact Std.TransOrd.isLE_trans hab hbc

end PathSegment

namespace Path

theorem compare_eq_compareLex : Path.compare = List.compareLex PathSegment.compare := by
  funext p q
  induction p generalizing q with
  | nil => cases q <;> rfl
  | cons a p ih =>
    cases q with
    | nil => rfl
    | cons b q => rw [compare, List.compareLex_cons_cons, ih]

instance : Std.TransCmp Path.compare := by
  rw [compare_eq_compareLex]
  infer_instance

instance : Std.LawfulEqCmp Path.compare := by
  rw [compare_eq_compareLex]
  infer_instance

theorem compare_asymm {p q : Path} (h : p.compare q = .lt) : q.compare p ≠ .lt := by
  intro h'
  have hswap : p.compare q = (q.compare p).swap := Std.OrientedCmp.eq_swap
  rw [hswap, h'] at h
  nomatch h

end Path

/-! ## The order of errors -/

namespace LocatedError

instance : Std.TransCmp fun a b : LocatedError => a.path.compare b.path where
  eq_swap := Std.OrientedCmp.eq_swap
  isLE_trans := Std.TransCmp.isLE_trans

instance : Std.TransCmp fun a b : LocatedError =>
    Ord.compare a.error.message b.error.message where
  eq_swap := Std.OrientedOrd.eq_swap
  isLE_trans := Std.TransOrd.isLE_trans

instance : Std.TransCmp LocatedError.compare :=
  inferInstanceAs (Std.TransCmp (compareLex (fun a b : LocatedError => a.path.compare b.path)
    fun a b => Ord.compare a.error.message b.error.message))

theorem perm_sorted (errors : List LocatedError) : (sorted errors).Perm errors :=
  List.mergeSort_perm ..

/-- Errors that stand apart are sorted by their paths alone. -/
theorem pairwise_lt_sorted {errors : List LocatedError}
    (h : errors.Pairwise fun a b => a.path.Apart b.path) :
    (sorted errors).Pairwise fun a b => a.path.compare b.path = .lt := by
  have hle : (sorted errors).Pairwise fun a b => (a.compare b).isLE := by
    refine List.pairwise_mergeSort ?_ ?_ errors
    · intro a b c hab hbc
      exact Std.TransCmp.isLE_trans hab hbc
    · intro a b
      rw [Bool.or_eq_true]
      cases hc : a.compare b with
      | lt => exact .inl rfl
      | eq => exact .inl rfl
      | gt =>
        right
        have hswap : b.compare a = (a.compare b).swap := Std.OrientedCmp.eq_swap
        rw [hswap, hc]
        rfl
  have hap : (sorted errors).Pairwise fun a b => a.path.Apart b.path :=
    ((perm_sorted errors).pairwise_iff Path.Apart.symm).2 h
  refine (hle.and hap).imp ?_
  rintro a b ⟨hle, hap⟩
  -- equal paths are the only ones for which messages count
  have hpath : (a.path.compare b.path).isLE := (Ordering.isLE_then_iff_and.1 hle).1
  have hne : a.path.compare b.path ≠ .eq := by
    intro heq
    exact hap.ne (Std.LawfulEqCmp.eq_of_compare heq)
  cases hc : a.path.compare b.path with
  | lt => rfl
  | eq => exact absurd hc hne
  | gt => simp [hc] at hpath

/-- The order in which errors that stand apart were recorded makes no difference. -/
theorem sorted_eq_of_perm {errors errors' : List LocatedError} (hp : errors.Perm errors')
    (h : errors.Pairwise fun a b => a.path.Apart b.path) : sorted errors = sorted errors' := by
  have h' : errors'.Pairwise fun a b => a.path.Apart b.path :=
    (hp.pairwise_iff Path.Apart.symm).1 h
  refine List.Perm.eq_of_pairwise ?_ (pairwise_lt_sorted h) (pairwise_lt_sorted h') ?_
  · intro a b _ _ hab hba
    exact absurd hba (Path.compare_asymm hab)
  · exact (perm_sorted errors).trans (hp.trans (perm_sorted errors').symm)

/-- Errors in ascending order are the same if they have the same members. -/
theorem eq_of_mem_iff {errors errors' : List LocatedError}
    (h : errors.Pairwise fun a b => a.path.compare b.path = .lt)
    (h' : errors'.Pairwise fun a b => a.path.compare b.path = .lt)
    (hm : ∀ e, e ∈ errors ↔ e ∈ errors') : errors = errors' := by
  have nodup : ∀ {es : List LocatedError},
      (es.Pairwise fun a b => a.path.compare b.path = .lt) → es.Nodup := by
    intro es hes
    refine hes.imp ?_
    rintro a b hab rfl
    exact Path.compare_asymm hab hab
  refine List.Perm.eq_of_pairwise ?_ h h' ((List.perm_ext_iff_of_nodup (nodup h) (nodup h')).2 hm)
  intro a b _ _ hab hba
  exact absurd hba (Path.compare_asymm hab)

end LocatedError

namespace Schema

variable {σ : Type} {s : Schema σ} {run : Run} {state : σ} {out : Output}

/-- The errors of an execution stand apart, whatever the order in which they were recorded. -/
theorem Reaches.pairwise_apart {log : List Entry} {o : Outcome} (h : s.Reaches run log out o) :
    out.errors.Pairwise fun a b => a.path.Apart b.path :=
  (h.errors.pairwise_iff Path.Apart.symm).2 (Outcome.pairwise_apart_errors h.yields.distinctKeys [])

/-- The errors of an execution are in strictly ascending order. -/
theorem EndsWith.pairwise_lt {log : List Entry} (h : s.EndsWith run state log out) :
    out.errors.Pairwise fun a b => a.path.compare b.path = .lt := by
  obtain ⟨o, hr⟩ := h.exists_outcome
  have hlog : (Entry.errors log 0).Pairwise fun a b => a.path.Apart b.path := by
    have hp := LocatedError.perm_sorted (Entry.errors log 0)
    rw [← h.errors_eq] at hp
    exact (hp.pairwise_iff Path.Apart.symm).1 hr.pairwise_apart
  rw [h.errors_eq]
  exact LocatedError.pairwise_lt_sorted hlog

/-- **The errors of an execution stand at positions that failed by themselves**, one at each, none
at or above another, and in strictly ascending order of their paths. -/
theorem execute_errors_ascend {limit? : Option Nat}
    (h : (s.execute limit? run state).ending = .ok (.ok out)) :
    ∃ o, s.Reaches run (s.execute limit? run state).log out o ∧
      (∀ e, e ∈ out.errors ↔ ∃ o', o.at? e.path = some o' ∧ o'.error? = some e.error) ∧
      out.errors.Pairwise fun a b => a.path.Apart b.path ∧ a.path.compare b.path = .lt := by
  obtain ⟨o, hr⟩ := (endsWith_execute h).exists_outcome
  refine ⟨o, hr, ?_, ?_⟩
  · intro e
    rw [hr.errors.mem_iff, Outcome.mem_errors_iff hr.yields.distinctKeys]
    simp
  · exact hr.pairwise_apart.and (endsWith_execute h).pairwise_lt

/-- The errors of the sample, one below `item` and a later one below `found`. -/
theorem execute_errors_ascend_sample :
    (Sample.schema.execute none Sample.run ()).ending =
        .ok (.ok ⟨Sample.data, LocatedError.sorted Sample.errors⟩) ∧
      (LocatedError.sorted Sample.errors).length = 2 ∧
      (LocatedError.sorted Sample.errors).Pairwise
        fun a b => a.path.Apart b.path ∧ a.path.compare b.path = .lt := by
  obtain ⟨-, -, -, hlt⟩ := execute_errors_ascend Sample.ending_execute
  exact ⟨Sample.ending_execute, (LocatedError.perm_sorted _).length_eq, hlt⟩

end Schema

end GraphQL
