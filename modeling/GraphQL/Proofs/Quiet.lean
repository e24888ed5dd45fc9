import GraphQL.Proofs.Liveness
import GraphQL.Proofs.Outcome.Runs

/-!
# Jobs in which nothing happens

A job that may end without an event calls nobody and waits for nothing. If no book in it misses
anybody, the job just `Ends`: driving it comes to that end on every machine, and leaves the machine
as it was (`Ends.drive_eq`).
-/

namespace GraphQL.Job

variable {σ : Type}

/-! ## Putting runs together -/

theorem Runs.bind {next : Completion → Job σ} {es' : List Happening} {completion' : Completion} :
    (job : Job σ) → {es : List Happening} → {completion : Completion} →
    Runs job es completion → Runs (next completion) es' completion' →
    Runs (job.bind next) (es ++ es') completion'
  | .done _, _, _, h, hn => by
    cases h
    exact hn
  | .emit _ _ job, _, _, h, hn => by
    cases h with
    | emit h => exact .emit (Runs.bind job h hn)
  | .call _ _ job, _, _, h, hn => by
    cases h with
    | answer hr h => exact .answer hr (Runs.bind _ h hn)
    | promise ticket due? hr h =>
      cases h with
      | keep hf h => exact .promise ticket due? hr (.keep hf (Runs.bind _ h hn))
  | .await _ _ _ _ job, _, _, h, hn => by
    cases h with
    | keep hf h => exact .keep hf (Runs.bind _ h hn)
  | .join _ _ job, _, _, h, hn => by
    cases h with
    | join hm h =>
      rw [List.append_assoc]
      exact .join hm (Runs.bind _ h hn)

theorem runsAll_mapIdx {α : Type} {f : Nat → α → Job σ} {xs : List α}
    {completions : List Completion} (hl : xs.length = completions.length)
    (h : ∀ i x completion, xs[i]? = some x → completions[i]? = some completion →
      Runs (f i x) [] completion) : RunsAll (xs.mapIdx f) [] completions := by
  induction xs generalizing f completions with
  | nil =>
    obtain rfl := List.length_eq_zero_iff.1 hl.symm
    exact .nil
  | cons x rest ih =>
    cases completions with
    | nil => simp at hl
    | cons completion completions =>
      rw [List.mapIdx_cons]
      refine .cons (h 0 x completion rfl rfl) (ih (by simpa using hl) ?_)
      intro i y completion' hy hc
      exact h (i + 1) y completion' hy hc

/-! ## Without events -/

theorem exists_runs_of_join_nil {turns : Turns} {members : List (Job σ)}
    {next : List Completion → Job σ} {completion : Completion}
    (h : Runs (.join turns members next) [] completion) :
    ∃ completions, RunsAll members [] completions ∧ Runs (next completions) [] completion := by
  generalize hes : [] = es at h
  cases h with
  | join hm hn =>
    obtain ⟨rfl, rfl⟩ := List.append_eq_nil_iff.1 hes.symm
    exact ⟨_, hm, hn⟩

theorem exists_runs_of_cons_nil {job : Job σ} {rest : List (Job σ)}
    {completions : List Completion} (h : RunsAll (job :: rest) [] completions) :
    ∃ completion completions', completions = completion :: completions' ∧
      Runs job [] completion ∧ RunsAll rest [] completions' := by
  generalize hes : [] = es at h
  cases h with
  | cons hj hr =>
    obtain ⟨rfl, rfl⟩ := List.append_eq_nil_iff.1 hes.symm
    exact ⟨_, _, rfl, hj, hr⟩

theorem eq_of_completions {jobs : List (Job σ)} {cs cs' : List Completion}
    (h : completions? jobs = some cs) (hr : RunsAll jobs [] cs') : cs' = cs := by
  induction jobs generalizing cs cs' with
  | nil =>
    cases hr
    simpa [completions?] using h
  | cons job rest ih =>
    obtain ⟨completion, cs₁, rfl, hj, hrest⟩ := exists_runs_of_cons_nil hr
    cases job with
    | done =>
      simp only [completions?, completion?, Option.map_eq_some_iff] at h
      obtain ⟨cs₂, hc, rfl⟩ := h
      cases hj
      rw [ih hc hrest]
    | _ => simp [completions?, completion?] at h

mutual

/-- Acting changes nothing but turns. -/
theorem act_of_runs_nil : (job : Job σ) → (m : Machine σ) → {completion : Completion} →
    Runs job [] completion →
    (job.act m).2.1 = m ∧ Runs (job.act m).1 [] completion
  | .done _, m, _, h => by
    rw [act]
    exact ⟨rfl, h⟩
  | .emit .., _, _, h => nomatch h
  | .call .., _, _, h => nomatch h
  | .await .., _, _, h => nomatch h
  | .join turns members next, m, _, h => by
    obtain ⟨completions, hm, hn⟩ := exists_runs_of_join_nil h
    rw [act]
    split
    · next i _ =>
      obtain ⟨hmachine, hm'⟩ := actAt_of_runsAll_nil i members m hm
      exact ⟨hmachine, .join hm' hn⟩
    · split
      · next completions' hc =>
        rw [eq_of_completions hc hm] at hn
        exact act_of_runs_nil (next completions') m hn
      · exact ⟨rfl, .join hm hn⟩

theorem actAt_of_runsAll_nil : (i : Nat) → (jobs : List (Job σ)) → (m : Machine σ) →
    {completions : List Completion} → RunsAll jobs [] completions →
    (actAt i jobs m).2.1 = m ∧ RunsAll (actAt i jobs m).1 [] completions
  | _, [], m, _, h => by
    rw [actAt]
    exact ⟨rfl, h⟩
  | 0, job :: rest, m, _, h => by
    obtain ⟨completion, completions', rfl, hj, hr⟩ := exists_runs_of_cons_nil h
    obtain ⟨hmachine, hj'⟩ := act_of_runs_nil job m hj
    rw [actAt]
    exact ⟨hmachine, .cons hj' hr⟩
  | i + 1, job :: rest, m, _, h => by
    obtain ⟨completion, completions', rfl, hj, hr⟩ := exists_runs_of_cons_nil h
    obtain ⟨hmachine, hr'⟩ := actAt_of_runsAll_nil i rest m hr
    rw [actAt]
    exact ⟨hmachine, .cons hj hr'⟩

end

mutual

theorem waits_of_runs_nil : (job : Job σ) → {completion : Completion} →
    Runs job [] completion → job.waits = []
  | .done _, _, _ => rfl
  | .emit .., _, _ => rfl
  | .call .., _, _ => rfl
  | .await .., _, h => nomatch h
  | .join turns members next, _, h => by
    obtain ⟨completions, hm, -⟩ := exists_runs_of_join_nil h
    exact waitsAll_of_runsAll_nil members hm

theorem waitsAll_of_runsAll_nil : (jobs : List (Job σ)) → {completions : List Completion} →
    RunsAll jobs [] completions → waitsAll jobs = []
  | [], _, _ => rfl
  | job :: rest, _, h => by
    obtain ⟨completion, completions', -, hj, hr⟩ := exists_runs_of_cons_nil h
    rw [waitsAll, waits_of_runs_nil job hj, waitsAll_of_runsAll_nil rest hr, List.append_nil]

end

/-- The job ends with the completion, and nothing happens before. -/
structure Ends (job : Job σ) (completion : Completion) : Prop where
  runs : Runs job [] completion
  live : job.Live

namespace Ends

variable {job : Job σ} {completion : Completion}

theorem done : Ends (.done completion : Job σ) completion :=
  ⟨.done, .done⟩

theorem bind {next : Completion → Job σ} {completion' : Completion} (h : job.Ends completion)
    (hn : (next completion).Ends completion') (hl : ∀ completion, (next completion).Live) :
    (job.bind next).Ends completion' :=
  ⟨h.runs.bind job hn.runs, h.live.bind hl⟩

/-- A row of jobs that just end ends with the list of their values. -/
theorem row_mapIdx {α : Type} {f : Nat → α → Job σ} {xs : List α} {vs : List Value}
    (hl : xs.length = vs.length)
    (h : ∀ i x v, xs[i]? = some x → vs[i]? = some v → (f i x).Ends (some v)) :
    (row assembleList (xs.mapIdx f)).Ends (some (.list vs)) := by
  have hruns : RunsAll (xs.mapIdx f) [] (vs.map some) := by
    refine runsAll_mapIdx (by simpa using hl) ?_
    intro i x completion hx hc
    rw [List.getElem?_map] at hc
    obtain ⟨v, hv, rfl⟩ := Option.map_eq_some_iff.1 hc
    exact (h i x v hx hv).runs
  have hlive : ∀ job ∈ xs.mapIdx f, job.Live := by
    intro job hm
    obtain ⟨i, hi, rfl⟩ := List.mem_mapIdx.1 hm
    have hx : xs[i]? = some xs[i] := List.getElem?_eq_getElem hi
    have hi' : i < vs.length := hl ▸ hi
    have hv : vs[i]? = some vs[i] := List.getElem?_eq_getElem hi'
    exact (h i _ _ hx hv).live
  have hnext : Runs (assembleList (vs.map some) : Job σ) [] (some (.list vs)) := by
    rw [assembleList, values?_map_some]
    exact .done
  unfold row sideBySide
  split
  · exact ⟨.join hruns hnext, .join (.start _ _) hlive fun completions => .done⟩
  · exact ⟨.join hruns hnext, .join (.start _ _) hlive fun completions => .done⟩

/-- **A job that just ends is driven to its end and leaves the machine as it was.** -/
theorem drive_eq (h : job.Ends completion) (limit? : Option Nat) (m : Machine σ) :
    job.drive limit? m = (.ok completion, m) := by
  have acted : ∀ {job job' : Job σ} {m m' : Machine σ} {turn : Turn}, job.Ends completion →
      job.act m = (job', m', turn) → m' = m ∧ job'.Ends completion ∧ job'.Turned True turn := by
    intro job job' m m' turn h hact
    have hturned := turned_of_act hact h.live
    have hacted := act_of_runs_nil job m h.runs
    rw [hact] at hacted
    exact ⟨hacted.1, ⟨hacted.2, hturned.tended⟩, hturned⟩
  have never : ∀ {job : Job σ} {turn : Turn}, job.Ends completion → job.Turned True turn →
      (∀ completion, job = .done completion → False) → (turn = .goesOn → False) →
      (turn = .asks → False) → False := by
    intro job turn h ht hd hg ha
    obtain ⟨ticket, due, hnext⟩ := ht.exists_next? hd hg ha
    rw [waits_of_runs_nil job h.runs] at hnext
    nomatch hnext
  fun_induction drive limit? job m with
  | case1 job m completion' m₁ turn hact =>
    obtain ⟨rfl, hends, -⟩ := acted h hact
    cases hends.runs
    rfl
  | case2 job m job₁ m₁ hd hact ih =>
    obtain ⟨rfl, hends, -⟩ := acted h hact
    exact ih hends
  | case3 job m job₁ m₁ hd hact ih =>
    obtain ⟨rfl, hends, -⟩ := acted h hact
    exact ih hends
  | case4 job m job₁ m₁ turn hd hg ha hact =>
    obtain ⟨-, hends, hturned⟩ := acted h hact
    exact (never hends hturned hd hg ha).elim
  | case5 job m job₁ m₁ turn hd hg ha hact =>
    obtain ⟨-, hends, hturned⟩ := acted h hact
    exact (never hends hturned hd hg ha).elim
  | case6 job m job₁ m₁ turn hd hg ha hact =>
    obtain ⟨-, hends, hturned⟩ := acted h hact
    exact (never hends hturned hd hg ha).elim
  | case7 job m job₁ m₁ turn hd hg ha hact =>
    obtain ⟨-, hends, hturned⟩ := acted h hact
    exact (never hends hturned hd hg ha).elim

end Ends

end GraphQL.Job
