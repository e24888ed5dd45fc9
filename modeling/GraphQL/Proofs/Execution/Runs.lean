import GraphQL.Proofs.Execution.Interleaving
import Mathlib.Data.List.Perm.Basic

/-!
# What a job comes to

`Runs job es completion`: a job may end with a completion and have recorded the events `es`. The
events of the members of a group stand one member after the other, whatever the order in which they
went on. However a job is interleaved, it ends as it `Runs`, and the log is that list of events up
to order (`exists_runs_of_interleaves`).

Runs take a job apart as it was put together: `Runs.of_bind`, `Runs.of_inTurn`, `Runs.of_row`.
-/

namespace GraphQL

/-- The resolution is the result, or the promise of something that may turn out to be it. -/
def Resolution.Gives {σ : Type} : Resolution σ → Except FieldError Value → Prop
  | .ready result, result' => result = result'
  | .pending _ finish, result => ∃ state, (finish state).1 = result

/-- An event and the number of the execution it belongs to. -/
abbrev Happening := Nat × Event

/-- What has happened, the times aside. -/
def Machine.happenings {σ : Type} (m : Machine σ) : List Happening :=
  m.log.map fun entry => (entry.run, entry.event)

@[simp] theorem Machine.happenings_record {σ : Type} (m : Machine σ) (run : Nat) (event : Event) :
    (m.record run event).happenings = m.happenings ++ [(run, event)] := by
  simp [happenings, record]

namespace Job

variable {σ : Type}

mutual

/-- The job may end with the completion, and with the events recorded. -/
inductive Runs : Job σ → List Happening → Completion → Prop where
  | done {completion} : Runs (.done completion) [] completion
  | emit {run event next es completion} (h : Runs next es completion) :
    Runs (.emit run event next) ((run, event) :: es) completion
  | answer {c resolver next es completion result} {state state' : σ}
    (hr : resolver state = (.ready result, state')) (h : Runs (next result) es completion) :
    Runs (.call c resolver next) ((c.run, .called c) :: es) completion
  | promise {c resolver next es completion delay? finish} {state state' : σ} (ticket due?)
    (hr : resolver state = (.pending delay? finish, state'))
    (h : Runs (.await ticket due? c finish next) es completion) :
    Runs (.call c resolver next) ((c.run, .called c) :: es) completion
  | keep {ticket due? c finish next es completion result} {state : σ}
    (hr : (finish state).1 = result) (h : Runs (next result) es completion) :
    Runs (.await ticket due? c finish next) ((c.run, .completed c) :: es) completion
  | join {turns members next es es' completions completion} (hm : RunsAll members es completions)
    (h : Runs (next completions) es' completion) :
    Runs (.join turns members next) (es ++ es') completion

/-- The jobs may end with the completions, and with the events recorded. -/
inductive RunsAll : List (Job σ) → List Happening → List Completion → Prop where
  | nil : RunsAll [] [] []
  | cons {job rest es es' completion completions} (h : Runs job es completion)
    (hr : RunsAll rest es' completions) :
    RunsAll (job :: rest) (es ++ es') (completion :: completions)

end

theorem runsAll_of_completions {jobs : List (Job σ)} {completions : List Completion}
    (h : completions? jobs = some completions) : RunsAll jobs [] completions := by
  induction jobs generalizing completions with
  | nil =>
    simp only [completions?, Option.some.injEq] at h
    subst h
    exact .nil
  | cons job rest ih =>
    cases job with
    | done completion =>
      simp only [completions?, completion?, Option.map_eq_some_iff] at h
      obtain ⟨completions, hc, rfl⟩ := h
      exact .cons .done (ih hc)
    | _ => simp [completions?, completion?] at h

/-! ## Interleavings end as jobs run -/

mutual

/-- What is left of a job after a step runs as the job does, with the events of the step first. -/
theorem exists_runs_of_move {job job' : Job σ} {m m' : Machine σ} {es : List Happening}
    {completion : Completion} (hm : Move (job, m) (job', m')) (h : Runs job' es completion) :
    ∃ new es', m'.happenings = m.happenings ++ new ∧ Runs job es' completion ∧
      es'.Perm (new ++ es) := by
  cases hm with
  | tick now => exact ⟨[], es, by simp [Machine.happenings], h, .refl _⟩
  | emit => exact ⟨_, _, m.happenings_record _ _, .emit h, .refl _⟩
  | answer hr => exact ⟨_, _, m.happenings_record _ _, .answer hr h, .refl _⟩
  | promise hr => exact ⟨_, _, m.happenings_record _ _, .promise _ _ hr h, .refl _⟩
  | keep hr => exact ⟨_, _, m.happenings_record _ _, .keep (congrArg Prod.fst hr) h, .refl _⟩
  | member turns' hm =>
    cases h with
    | join ha hn =>
      obtain ⟨new, es', hlog, ha', hp⟩ := exists_runsAll_of_moveAny hm ha
      refine ⟨new, _, hlog, .join ha' hn, ?_⟩
      rw [← List.append_assoc]
      exact hp.append_right _
  | turn turns' =>
    cases h with
    | join ha hn => exact ⟨[], _, by simp, .join ha hn, .refl _⟩
  | join hc => exact ⟨[], _, by simp, .join (runsAll_of_completions hc) h, .refl _⟩

theorem exists_runsAll_of_moveAny {jobs jobs' : List (Job σ)} {m m' : Machine σ}
    {es : List Happening} {completions : List Completion} (hm : MoveAny (jobs, m) (jobs', m'))
    (h : RunsAll jobs' es completions) :
    ∃ new es', m'.happenings = m.happenings ++ new ∧ RunsAll jobs es' completions ∧
      es'.Perm (new ++ es) := by
  cases hm with
  | head hm =>
    cases h with
    | cons hj hr =>
      obtain ⟨new, es', hlog, hj', hp⟩ := exists_runs_of_move hm hj
      refine ⟨new, _, hlog, .cons hj' hr, ?_⟩
      rw [← List.append_assoc]
      exact hp.append_right _
  | tail hm =>
    cases h with
    | cons hj hr =>
      obtain ⟨new, es', hlog, hr', hp⟩ := exists_runsAll_of_moveAny hm hr
      refine ⟨new, _, hlog, .cons hj hr', ?_⟩
      exact (hp.append_left _).trans (List.perm_append_comm_assoc _ _ _)

end

/-- However a job is interleaved, it ends as it runs, and has recorded the events of that run. -/
theorem exists_runs_of_interleaves {job : Job σ} {m m' : Machine σ} {completion : Completion}
    (h : Interleaves (job, m) (.done completion, m')) :
    ∃ es, Runs job es completion ∧ m'.happenings.Perm (m.happenings ++ es) := by
  suffices hs : ∀ snap : Snapshot σ, Interleaves snap (.done completion, m') →
      ∃ es, Runs snap.1 es completion ∧ m'.happenings.Perm (snap.2.happenings ++ es) from
    hs (job, m) h
  intro snap hi
  induction hi using Relation.ReflTransGen.head_induction_on with
  | refl => exact ⟨[], .done, by simp⟩
  | head hm _ ih =>
    obtain ⟨es, hr, hp⟩ := ih
    obtain ⟨new, es', hlog, hr', hp'⟩ := exists_runs_of_move hm hr
    refine ⟨es', hr', hp.trans ?_⟩
    rw [hlog, List.append_assoc]
    exact hp'.symm.append_left _

/-! ## Taking runs apart -/

theorem Runs.of_bind {next : Completion → Job σ} :
    (job : Job σ) → {es : List Happening} → {completion : Completion} →
    Runs (job.bind next) es completion →
    ∃ es₁ completion₁ es₂, es = es₁ ++ es₂ ∧ Runs job es₁ completion₁ ∧
      Runs (next completion₁) es₂ completion
  | .done completion₁, es, _, h => ⟨[], completion₁, es, rfl, .done, h⟩
  | .emit run event job, _, _, h => by
    cases h with
    | emit h =>
      obtain ⟨es₁, completion₁, es₂, rfl, h₁, h₂⟩ := of_bind job h
      exact ⟨_, completion₁, es₂, rfl, .emit h₁, h₂⟩
  | .call c resolver job, _, _, h => by
    cases h with
    | answer hr h =>
      obtain ⟨es₁, completion₁, es₂, rfl, h₁, h₂⟩ := of_bind _ h
      exact ⟨_, completion₁, es₂, rfl, .answer hr h₁, h₂⟩
    | promise ticket due? hr h =>
      cases h with
      | keep hf h =>
        obtain ⟨es₁, completion₁, es₂, rfl, h₁, h₂⟩ := of_bind _ h
        exact ⟨_, completion₁, es₂, rfl, .promise ticket due? hr (.keep hf h₁), h₂⟩
  | .await ticket due? c finish job, _, _, h => by
    cases h with
    | keep hf h =>
      obtain ⟨es₁, completion₁, es₂, rfl, h₁, h₂⟩ := of_bind _ h
      exact ⟨_, completion₁, es₂, rfl, .keep hf h₁, h₂⟩
  | .join turns members job, _, _, h => by
    cases h with
    | join hm h =>
      obtain ⟨es₁, completion₁, es₂, rfl, h₁, h₂⟩ := of_bind _ h
      exact ⟨_, completion₁, es₂, (List.append_assoc ..).symm, .join hm h₁, h₂⟩

theorem Runs.of_inTurn {next : List Completion → Job σ} {jobs : List (Job σ)}
    {es : List Happening} {completion : Completion} (h : Runs (inTurn next jobs) es completion) :
    ∃ es₁ completions es₂, es = es₁ ++ es₂ ∧ RunsAll jobs es₁ completions ∧
      Runs (next completions) es₂ completion := by
  induction jobs generalizing next es with
  | nil => exact ⟨[], [], es, rfl, .nil, h⟩
  | cons job rest ih =>
    obtain ⟨es₁, completion₁, es₂, rfl, h₁, h₂⟩ := Runs.of_bind job h
    obtain ⟨es₃, completions, es₄, rfl, h₃, h₄⟩ := ih h₂
    exact ⟨es₁ ++ es₃, completion₁ :: completions, es₄, (List.append_assoc ..).symm,
      .cons h₁ h₃, h₄⟩

theorem Runs.of_sideBySide {next : List Completion → Job σ} {jobs : List (Job σ)}
    {es : List Happening} {completion : Completion}
    (h : Runs (sideBySide next jobs) es completion) :
    ∃ es₁ completions es₂, es = es₁ ++ es₂ ∧ RunsAll jobs es₁ completions ∧
      Runs (next completions) es₂ completion := by
  cases h with
  | join hm h => exact ⟨_, _, _, rfl, hm, h⟩

theorem Runs.of_row {next : List Completion → Job σ} {jobs : List (Job σ)}
    {es : List Happening} {completion : Completion} (h : Runs (row next jobs) es completion) :
    ∃ es₁ completions es₂, es = es₁ ++ es₂ ∧ RunsAll jobs es₁ completions ∧
      Runs (next completions) es₂ completion := by
  unfold row at h
  split at h
  · cases h with
    | join hm h => exact ⟨_, _, _, rfl, hm, h⟩
  · exact of_sideBySide h

/-- A call goes on with something that its resolver gives. -/
theorem Runs.of_call {c : Call} {resolver : σ → Resolution σ × σ}
    {next : Except FieldError Value → Job σ} {es : List Happening} {completion : Completion}
    (h : Runs (.call c resolver next) es completion) :
    ∃ state result es', (resolver state).1.Gives result ∧ Runs (next result) es' completion ∧
      (es = (c.run, .called c) :: es' ∨
        es = (c.run, .called c) :: (c.run, .completed c) :: es') := by
  cases h with
  | @answer _ _ _ es' _ result state _ hr h =>
    refine ⟨state, result, es', ?_, h, .inl rfl⟩
    rw [hr]
    rfl
  | @promise _ _ _ _ _ _ _ state _ _ _ hr h =>
    cases h with
    | @keep _ _ _ _ _ es' _ result state' hf h =>
      refine ⟨state, result, es', ?_, h, .inr rfl⟩
      rw [hr]
      exact ⟨state', hf⟩

end Job

end GraphQL
