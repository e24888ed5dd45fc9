import GraphQL.Execution.Schedule

/-!
# Schedules come to an end

A step takes a job to what is left of it after one event, one answer, one kept promise, or one entry
in the book of a group that leaves less to do there. No job has an endless row of steps
(`wellFounded_lt`), whatever its resolvers answer. While the turn of a job goes on or asks to be
followed by another, the job takes steps (`lt_act`), and so does keeping a promise (`lt_keep`). So a
schedule ends.
-/

namespace GraphQL.Job

variable {σ : Type}

mutual

/-- What is left of a job after one step comes first. A step of a member may change the book of its
group in any way; without one the book has to come closer to its end. -/
inductive Step : Job σ → Job σ → Prop where
  | emit {run event next} : Step next (.emit run event next)
  | answered {c resolver next} (result) : Step (next result) (.call c resolver next)
  | promised {c resolver next} (ticket due? finish) :
    Step (.await ticket due? c finish next) (.call c resolver next)
  | kept {ticket due? c finish next} (result) :
    Step (next result) (.await ticket due? c finish next)
  | member {turns members' members next} (turns') (h : StepAll members' members) :
    Step (.join turns' members' next) (.join turns members next)
  | turned {turns' turns members next} (h : turns'.work < turns.work) :
    Step (.join turns' members next) (.join turns members next)
  | joined {turns members next} (completions) :
    Step (next completions) (.join turns members next)

/-- One of several jobs takes a step. -/
inductive StepAll : List (Job σ) → List (Job σ) → Prop where
  | head {job' job rest} (h : Step job' job) : StepAll (job' :: rest) (job :: rest)
  | tail {job rest' rest} (h : StepAll rest' rest) : StepAll (job :: rest') (job :: rest)

end

/-! ## There is no endless row of steps -/

theorem acc_cons {job : Job σ} {rest : List (Job σ)} (hj : Acc Step job) (hr : Acc StepAll rest) :
    Acc StepAll (job :: rest) := by
  induction hj generalizing rest with
  | intro job _ ihj =>
    induction hr with
    | intro rest hr ihr =>
      refine ⟨_, fun jobs h => ?_⟩
      cases h with
      | head h => exact ihj _ h ⟨_, hr⟩
      | tail h => exact ihr _ h

theorem acc_join {members : List (Job σ)} {next : List Completion → Job σ}
    (hm : Acc StepAll members) (hn : ∀ completions, Acc Step (next completions)) (turns : Turns) :
    Acc Step (.join turns members next) := by
  induction hm generalizing turns with
  | intro members _ ihm =>
    induction hw : turns.work using Nat.strongRecOn generalizing turns with
    | ind work ihw =>
      refine ⟨_, fun job h => ?_⟩
      cases h with
      | member turns' h => exact ihm _ h turns'
      | turned h => exact ihw _ (hw ▸ h) _ rfl
      | joined completions => exact hn completions

theorem acc_await {ticket : Nat} {due? : Option Nat} {c : Call}
    {finish : σ → Except FieldError Value × σ} {next : Except FieldError Value → Job σ}
    (hn : ∀ result, Acc Step (next result)) : Acc Step (.await ticket due? c finish next) := by
  refine ⟨_, fun job h => ?_⟩
  cases h with
  | kept result => exact hn result

mutual

theorem acc_step : (job : Job σ) → Acc Step job
  | .done _ => ⟨_, fun _ h => nomatch h⟩
  | .emit _ _ next => ⟨_, fun _ h => by cases h; exact acc_step next⟩
  | .call _ _ next => ⟨_, fun _ h => by
      cases h with
      | answered result => exact acc_step (next result)
      | promised => exact acc_await fun result => acc_step (next result)⟩
  | .await _ _ _ _ next => acc_await fun result => acc_step (next result)
  | .join turns members next =>
    acc_join (acc_stepAll members) (fun completions => acc_step (next completions)) turns

theorem acc_stepAll : (jobs : List (Job σ)) → Acc StepAll jobs
  | [] => ⟨_, fun _ h => nomatch h⟩
  | job :: rest => acc_cons (acc_step job) (acc_stepAll rest)

end

/-- Some steps of one job, at least one. -/
abbrev Lt : Job σ → Job σ → Prop :=
  Relation.TransGen Step

/-- Some steps of several jobs, at least one. -/
abbrev LtAll : List (Job σ) → List (Job σ) → Prop :=
  Relation.TransGen StepAll

theorem wellFounded_lt : WellFounded (Lt (σ := σ)) :=
  (WellFounded.intro acc_step).transGen

/-! ## Acting takes steps -/

/-- Some steps of one job, perhaps none. -/
def Le (job' job : Job σ) : Prop :=
  job' = job ∨ Lt job' job

/-- Some steps of several jobs, perhaps none. -/
def LeAll (jobs' jobs : List (Job σ)) : Prop :=
  jobs' = jobs ∨ LtAll jobs' jobs

theorem Le.lt_of_step {a b c : Job σ} (h : Le a b) (hs : Step b c) : Lt a c := by
  rcases h with rfl | h
  · exact .single hs
  · exact .tail h hs

theorem Lt.cons {job' job : Job σ} (h : Lt job' job) (rest : List (Job σ)) :
    LtAll (job' :: rest) (job :: rest) := by
  induction h with
  | single h => exact .single (.head h)
  | tail _ h ih => exact .tail ih (.head h)

theorem LtAll.cons {rest' rest : List (Job σ)} (h : LtAll rest' rest) (job : Job σ) :
    LtAll (job :: rest') (job :: rest) := by
  induction h with
  | single h => exact .single (.tail h)
  | tail _ h ih => exact .tail ih (.tail h)

theorem LtAll.join {members' members : List (Job σ)} (h : LtAll members' members)
    (turns' turns : Turns) (next : List Completion → Job σ) :
    Lt (.join turns' members' next) (.join turns members next) := by
  induction h generalizing turns with
  | single h => exact .single (.member turns' h)
  | tail _ h ih => exact .tail (ih turns) (.member turns h)

/-- What becomes of a job within a turn: it takes steps unless the turn is over for want of work. -/
def Acted (job' job : Job σ) (turn : Turn) : Prop :=
  Le job' job ∧ (turn = .goesOn ∨ turn = .asks → Lt job' job)

/-- What becomes of several jobs when one of them acts. -/
def ActedAll (jobs' jobs : List (Job σ)) (turn : Turn) : Prop :=
  LeAll jobs' jobs ∧ (turn = .goesOn ∨ turn = .asks → LtAll jobs' jobs)

theorem Acted.of_lt {job' job : Job σ} (h : Lt job' job) (turn : Turn) : Acted job' job turn :=
  ⟨.inr h, fun _ => h⟩

theorem Acted.lt_of_step {a b c : Job σ} {turn : Turn} (h : Acted a b turn) (hs : Step b c) :
    Acted a c turn :=
  .of_lt (h.1.lt_of_step hs) turn

theorem Acted.head {job' job : Job σ} {turn : Turn} (h : Acted job' job turn)
    (rest : List (Job σ)) : ActedAll (job' :: rest) (job :: rest) turn := by
  refine ⟨?_, fun ht => (h.2 ht).cons rest⟩
  rcases h.1 with rfl | hlt
  · exact .inl rfl
  · exact .inr (hlt.cons rest)

theorem ActedAll.tail {rest' rest : List (Job σ)} {turn : Turn} (h : ActedAll rest' rest turn)
    (job : Job σ) : ActedAll (job :: rest') (job :: rest) turn := by
  refine ⟨?_, fun ht => (h.2 ht).cons job⟩
  rcases h.1 with rfl | hlt
  · exact .inl rfl
  · exact .inr (hlt.cons job)

/-- When the member whose turn it is has acted, the group has taken steps. -/
theorem ActedAll.join {members' members : List (Job σ)} {turn : Turn}
    (h : ActedAll members' members turn) {turns : Turns} {i : Nat} (hc : turns.current? = some i)
    (next : List Completion → Job σ) :
    Lt (.join (turns.after i turn).1 members' next) (.join turns members next) := by
  obtain ⟨rfl | hle, hlt⟩ := h
  · cases turn with
    | goesOn => exact (hlt (.inl rfl)).join _ _ _
    | done => exact .single (.turned (Turns.work_after_lt hc (.inl rfl)))
    | waits => exact .single (.turned (Turns.work_after_lt hc (.inr rfl)))
    | asks => exact (hlt (.inr rfl)).join _ _ _
  · exact hle.join _ _ _

mutual

theorem acted_act : (job : Job σ) → (m : Machine σ) → Acted (job.act m).1 job (job.act m).2.2
  | .done _, _ => ⟨.inl rfl, fun h => by simp [act] at h⟩
  | .emit run event next, m => by
    rw [act]
    exact (acted_act next _).lt_of_step .emit
  | .call c resolver next, m => by
    rw [act]
    cases resolver (m.record c.run (.called c)).state with
    | mk resolution state =>
      cases resolution with
      | ready result => exact (acted_act (next result) _).lt_of_step (.answered _)
      | pending delay? finish => exact .of_lt (.single (.promised _ _ _)) _
  | .await ticket due? c finish next, m => ⟨.inl rfl, fun h => by simp [act] at h⟩
  | .join turns members next, m => by
    rw [act]
    split
    · next i hi =>
      exact .of_lt ((actedAll_actAt i members m).join hi next) _
    · next hi =>
      split
      · next completions _ => exact (acted_act (next completions) _).lt_of_step (.joined _)
      · rcases Turns.work_pass_lt hi with hlt | heq
        · exact .of_lt (.single (.turned hlt)) _
        · rw [heq]
          exact ⟨.inl rfl, fun h => by simp at h⟩

theorem actedAll_actAt : (i : Nat) → (jobs : List (Job σ)) → (m : Machine σ) →
    ActedAll (actAt i jobs m).1 jobs (actAt i jobs m).2.2
  | _, [], _ => ⟨.inl (by rw [actAt]), fun h => by simp [actAt] at h⟩
  | 0, job :: rest, m => (acted_act job m).head rest
  | i + 1, job :: rest, m => (actedAll_actAt i rest m).tail job

end

/-- A job whose turn goes on, or that asks for another turn, has taken steps. -/
theorem lt_act {job job' : Job σ} {m m' : Machine σ} {turn : Turn}
    (h : job.act m = (job', m', turn)) (ht : turn = .goesOn ∨ turn = .asks) : Lt job' job := by
  have := (acted_act job m).2
  rw [h] at this
  exact this ht

theorem le_act {job job' : Job σ} {m m' : Machine σ} {turn : Turn}
    (h : job.act m = (job', m', turn)) : Le job' job := by
  have := (acted_act job m).1
  rwa [h] at this

/-! ## Keeping a promise takes steps -/

mutual

/-- Keeping a promise that a job waits for takes it further. -/
theorem lt_keep {ticket : Nat} : (job : Job σ) → (m : Machine σ) → {kept : Job σ × Machine σ} →
    job.keep? ticket m = some kept → Lt kept.1 job
  | .done _, _, _, h => by simp [keep?] at h
  | .emit .., _, _, h => by simp [keep?] at h
  | .call .., _, _, h => by simp [keep?] at h
  | .await ticket' due? c finish next, m, kept, h => by
    rw [keep?] at h
    split at h
    · simp only [Option.some.injEq] at h
      subst h
      exact .single (.kept _)
    · nomatch h
  | .join turns members next, m, kept, h => by
    rw [keep?] at h
    split at h
    · next heq =>
      simp only [Option.some.injEq] at h
      subst h
      exact (ltAll_keepAny members m heq).join _ _ _
    · nomatch h

theorem ltAll_keepAny {ticket : Nat} : (jobs : List (Job σ)) → (m : Machine σ) →
    {kept : Nat × List (Job σ) × Machine σ} → keepAny? ticket jobs m = some kept →
      LtAll kept.2.1 jobs
  | [], _, _, h => by simp [keepAny?] at h
  | job :: rest, m, kept, h => by
    rw [keepAny?] at h
    split at h
    · next heq =>
      simp only [Option.some.injEq] at h
      subst h
      exact (lt_keep job m heq).cons rest
    · split at h
      · next heq =>
        simp only [Option.some.injEq] at h
        subst h
        exact (ltAll_keepAny rest m heq).cons job
      · nomatch h

end

/-- After acting, keeping a promise takes a job further than it was before. -/
theorem lt_keep_of_act {job job' : Job σ} {m m' : Machine σ} {turn : Turn}
    (h : job.act m = (job', m', turn)) {ticket : Nat} {m'' : Machine σ}
    {kept : Job σ × Machine σ} (hk : job'.keep? ticket m'' = some kept) : Lt kept.1 job := by
  rcases le_act h with rfl | hlt
  · exact lt_keep _ _ hk
  · exact .trans (lt_keep _ _ hk) hlt

end GraphQL.Job
