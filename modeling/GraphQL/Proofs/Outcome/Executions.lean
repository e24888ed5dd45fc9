import GraphQL.Proofs.Outcome.Runs

/-!
# Executions have outcomes

`Schema.EndsWith` says that an execution, interleaved in any way, ends with an output. What
`Schema.execute` returns is such an end (`endsWith_execute`), and every end has an outcome with the
same data, errors and calls (`EndsWith.exists_outcome`). Claims about outputs are proved about
outcomes.
-/

namespace GraphQL

namespace Schema

variable {σ : Type}

/-- The data and the recorded errors of an execution whose job has come to its end somehow. -/
def EndsWith (s : Schema σ) (run : Run) (state : σ) (log : List Entry) (out : Output) : Prop :=
  ∃ completion m, Job.Interleaves (s.job 0 run, .start state) (.done completion, m) ∧
    m.log = log ∧ s.answer log 0 run (completion.getD .null) = .ok out

/-- The outcomes that an operation may have. -/
def Yields (s : Schema σ) (run : Run) (o : Outcome) : Prop :=
  ∃ root, s.root? run.operation.kind = some root ∧
    Context.Yields ⟨0, s, run.vars⟩
      (.object (.named root.name) root run.root run.operation.selections) [] o

/-- The outcome is one that the operation may have, and it has the data, the errors and the calls
of an execution. -/
structure Reaches (s : Schema σ) (run : Run) (log : List Entry) (out : Output) (o : Outcome) :
    Prop where
  yields : s.Yields run o
  completion : o.completion = some out.data
  errors : out.errors.Perm (o.errors [])
  calls : (Entry.calls log 0).Perm o.calls

theorem Yields.distinctKeys {s : Schema σ} {run : Run} {o : Outcome} (h : s.Yields run o) :
    o.DistinctKeys := by
  obtain ⟨root, -, hy⟩ := h
  exact Context.Yields.distinctKeys hy

theorem Yields.not_isPlainNull {s : Schema σ} {run : Run} {o : Outcome} (h : s.Yields run o) :
    ¬ o.IsPlainNull := by
  obtain ⟨root, -, hy⟩ := h
  cases hy with
  | fields => rintro (⟨type, h⟩ | ⟨type, h⟩) <;> nomatch h

/-- What the schedule ends with is the end of an interleaving. -/
theorem endsWith_execute {s : Schema σ} {limit? : Option Nat} {run : Run} {state : σ}
    {out : Output} (h : (s.execute limit? run state).ending = .ok (.ok out)) :
    s.EndsWith run state (s.execute limit? run state).log out := by
  unfold execute Job.report at h ⊢
  cases hd : (s.job 0 run).drive limit? (.start state) with
  | mk ending m =>
    rw [hd] at h
    cases ending with
    | error unfinished => simp [Except.map] at h
    | ok completion =>
      simp only [Except.map, Except.ok.injEq] at h
      exact ⟨completion, m, Job.interleaves_drive _ _ hd, rfl, h⟩

theorem exists_object_of_rootViolations {r : Registry σ} {operation : OperationKind}
    {name : String} (h : r.rootViolations operation name = []) :
    ∃ o, r.object? name = some o := by
  unfold Registry.rootViolations at h
  unfold Registry.object?
  split at h
  · next o hg => exact ⟨o, by rw [hg]⟩
  · simp at h
  · simp at h

/-- An operation that can be bound has a root to start at. -/
theorem exists_root_of_bind {s : Schema σ} {operation : Operation}
    (h : s.bind operation = []) : ∃ root, s.root? operation.kind = some root := by
  unfold bind at h
  unfold root?
  cases hk : operation.kind with
  | query => exact exists_object_of_rootViolations s.queryRoot_eq_nil
  | mutation =>
    rw [hk] at h
    cases hm : s.mutationName? with
    | none => simp [rootName?, hm] at h
    | some name =>
      have := exists_object_of_rootViolations (s.mutationRoot_eq_nil name (by simp [hm]))
      simpa [rootName?, hm] using this

/-- Errors are listed in the order of their positions. -/
theorem EndsWith.errors_eq {s : Schema σ} {run : Run} {state : σ} {log : List Entry}
    {out : Output} (h : s.EndsWith run state log out) :
    out.errors = LocatedError.sorted (Entry.errors log 0) := by
  obtain ⟨completion, m, -, rfl, ha⟩ := h
  unfold answer at ha
  dsimp only at ha
  split at ha
  · rw [Except.ok.injEq] at ha
    rw [← ha]
  · nomatch ha

/-- **Every execution has an outcome.** -/
theorem EndsWith.exists_outcome {s : Schema σ} {run : Run} {state : σ} {log : List Entry}
    {out : Output} (h : s.EndsWith run state log out) : ∃ o, s.Reaches run log out o := by
  have hsorted := h.errors_eq
  obtain ⟨completion, m, hi, rfl, ha⟩ := h
  obtain ⟨es, hr, hp⟩ := Job.exists_runs_of_interleaves hi
  unfold answer at ha
  unfold job at hr
  cases hb : s.bind run.operation with
  | cons fault faults => simp [hb] at ha
  | nil =>
    simp only [hb, List.isEmpty_nil, if_true, Except.ok.injEq] at ha hr
    obtain ⟨root, hroot⟩ := exists_root_of_bind hb
    obtain ⟨es₁, rfl, h₁⟩ := Job.Runs.of_emit hr
    obtain ⟨es₂, completion₂, es₃, rfl, h₂, h₃⟩ := Job.Runs.of_bind _ h₁
    obtain ⟨es₄, rfl, h₄⟩ := Job.Runs.of_emit h₃
    obtain ⟨rfl, rfl⟩ := Job.Runs.of_done h₄
    obtain ⟨fields, hy, he, hc, rfl⟩ := Context.exists_outcome_of_operationJob hroot h₂
    have hstart : (Machine.start state).happenings = [] := rfl
    rw [hstart, List.nil_append] at hp
    refine ⟨_, ⟨root, hroot, hy⟩, ?_, ?_, ?_⟩
    · rw [← ha, Outcome.completion]
      cases Outcome.entries? fields <;> rfl
    · rw [hsorted, errors_log, Outcome.errors, ← he]
      refine (List.mergeSort_perm ..).trans ((hp.filterMap _).trans (.of_eq ?_))
      change errorsOf 0 _ = _
      rw [errorsOf_cons, errorsOf_append, errorsOf_cons]
      simp [Event.error?]
    · rw [calls_log, Outcome.calls, ← hc]
      refine (hp.filterMap _).trans (.of_eq ?_)
      change callsOf 0 _ = _
      rw [callsOf_cons, callsOf_append, callsOf_cons]
      simp [Event.call?]

end Schema

end GraphQL
