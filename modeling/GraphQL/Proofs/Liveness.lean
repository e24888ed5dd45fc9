import GraphQL.Proofs.Assembly
import GraphQL.Proofs.Execution.Liveness

/-!
# Executions end

The job of every operation is tended, and live if the resolvers of the schema keep what they promise
(`tended_job`). Then every execution without a limit ends (`exists_ending_execute`).
-/

namespace GraphQL

/-! ## Tended jobs are put together from tended jobs -/

namespace Job

variable {σ : Type} {live : Prop}

theorem Tended.bind {job : Job σ} {next : Completion → Job σ} (h : job.Tended live)
    (hn : ∀ completion, (next completion).Tended live) : (job.bind next).Tended live := by
  induction h with
  | done => exact hn _
  | emit _ ih => exact .emit ih
  | call hr _ ih => exact .call hr ih
  | await hd _ ih => exact .await hd ih
  | join hb hm _ _ ih => exact .join hb hm ih

theorem Silent.tended {job : Job σ} (h : job.Silent) : job.Tended live := by
  induction h with
  | done => exact .done
  | emit _ _ ih => exact .emit ih

theorem Tended.inTurn {next : List Completion → Job σ} {jobs : List (Job σ)}
    (h : ∀ job ∈ jobs, job.Tended live) (hn : ∀ completions, (next completions).Tended live) :
    (inTurn next jobs).Tended live := by
  induction jobs generalizing next with
  | nil => exact hn []
  | cons job rest ih =>
    have hrest : ∀ job ∈ rest, job.Tended live := by
      intro job hm
      exact h job (List.mem_cons_of_mem _ hm)
    refine (h job List.mem_cons_self).bind ?_
    intro completion
    exact ih hrest fun completions => hn _

theorem Tended.sideBySide {next : List Completion → Job σ} {jobs : List (Job σ)}
    (h : ∀ job ∈ jobs, job.Tended live) (hn : ∀ completions, (next completions).Tended live) :
    (sideBySide next jobs).Tended live :=
  .join (.start _ _) h hn

theorem Tended.emitAll {run : Nat} {events : List Event} {job : Job σ} (h : job.Tended live) :
    (emitAll run events job).Tended live := by
  unfold Job.emitAll
  induction events with
  | nil => exact h
  | cons event rest ih => exact .emit ih

end Job

/-- All that the resolvers of the object type promise will be there some time. -/
def ObjectType.KeepsPromises {σ : Type} (o : ObjectType σ) : Prop :=
  ∀ field ∈ o.fields, ∀ resolver ∈ field.resolver?, ∀ parent arguments state,
    (resolver parent arguments state).1.IsKept

/-- All that the resolvers of the schema promise will be there some time. -/
def Schema.KeepsPromises {σ : Type} (s : Schema σ) : Prop :=
  ∀ name o, s.registry.get? name = some (.object o) → o.KeepsPromises

namespace Context

variable {σ : Type} {live : Prop} {ctx : Context σ}

/-! ## The jobs of positions are tended -/

theorem assembles_tended (h : live → ctx.schema.KeepsPromises) :
    ctx.Assembles fun _ job => job.Tended live where
  done _ _ := .done
  emit _ hn := .emit hn
  call hg hf hr parent arguments _ _ hn :=
    .call (fun hlive => h hlive _ _ hg _ hf _ hr parent arguments) hn
  settle type hj := hj.bind fun completion => (silent_settle type _ completion).tended
  join _ _ _ _ hm :=
    .join (.start _ _) (fun job hj => (hm job hj).choose_spec) fun _ => .done

theorem tended_operationJob (h : live → ctx.schema.KeepsPromises) (operation : Operation)
    (root : Value) : (ctx.operationJob operation root).Tended live := by
  unfold operationJob
  split
  · exact .done
  · next o ho =>
    have hroots := (assembles_tended h).rootJobs ho (Selection.depthAll operation.selections) root
      (ctx.schema.registry.collect o operation.selections)
    have hjobs := fun job hm => (hroots job hm).choose_spec
    dsimp only
    split
    · exact .sideBySide hjobs fun completions => .done
    · exact .inTurn hjobs fun completions => .done

end Context

namespace Schema

variable {σ : Type} {s : Schema σ}

theorem tended_job {live : Prop} (h : live → s.KeepsPromises) (index : Nat) (run : Run) :
    (s.job index run).Tended live := by
  unfold job
  dsimp only
  split
  · exact .emit ((Context.tended_operationJob h _ _).bind fun completion => .emit .done)
  · exact .emitAll .done

theorem live_job (h : s.KeepsPromises) (index : Nat) (run : Run) : (s.job index run).Live :=
  tended_job (fun _ => h) index run

/-- **If all promises are kept, an execution without a limit ends.** -/
theorem exists_ending_execute (h : s.KeepsPromises) (run : Run) (state : σ) :
    ∃ answer, (s.execute none run state).ending = .ok answer := by
  obtain ⟨completion, m, hd⟩ := Job.exists_drive_eq_ok (live_job h 0 run) (.start state)
  unfold execute Job.report
  rw [hd]
  exact ⟨_, rfl⟩

theorem exists_output_execute (h : s.KeepsPromises) {run : Run}
    (hb : s.bind run.operation = []) (state : σ) :
    ∃ out, (s.execute none run state).ending = .ok (.ok out) := by
  obtain ⟨completion, m, hd⟩ := Job.exists_drive_eq_ok (live_job h 0 run) (.start state)
  unfold execute Job.report answer
  rw [hd, hb]
  exact ⟨_, rfl⟩

end Schema

end GraphQL
