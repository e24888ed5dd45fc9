import GraphQL.Proofs.ErrorOrder
import GraphQL.Proofs.Execution.Evaluation
import GraphQL.Proofs.Renaming.Positions

/-!
# Aliases only rename

Other aliases for the fields of an operation, such that no two of its response keys become one, give
the keys of result objects and of error paths other names and do nothing else: the same faults keep
the operation from running, resolvers are called in the same order with the same arguments, and
executions come to the same end (`Schema.execute_rename`). Errors are listed by position, so they
are sorted anew.
-/

namespace GraphQL

open Job

variable {σ : Type} {ρ : String → String}

/-- The run of the renamed operation. -/
def Run.rename (ρ : String → String) (run : Run) : Run :=
  { run with operation := run.operation.rename ρ }

/-- Jobs that mirror each other are reported alike. -/
theorem Job.Mirrors.report {α β : Type} {run : Nat} {G : Gist → Completion → Completion → Prop}
    {job job' : Job σ} (h : Mirrors ρ run G job job') (limit? : Option Nat) (state : σ)
    (answer : List Entry → Completion → α) (answer' : List Entry → Completion → β) :
    let report := job.report limit? state answer
    let report' := job'.report limit? state answer'
    report'.log = report.log.map (Entry.rename ρ) ∧ report'.state = report.state ∧
      ((∃ reason, report.ending = .error reason ∧ report'.ending = .error reason) ∨
        ∃ completion completion', report.ending = .ok (answer report.log completion) ∧
          report'.ending = .ok (answer' report'.log completion') ∧
          G (.of (Entry.errors report.log run) (Entry.calls report.log run)) completion
            completion') := by
  have halike : DrivenAlike ρ run G (.start state) (job.drive limit? (.start state))
    (job'.drive limit? (.start state)) := h.drive limit? (.start state)
  rw [Job.report, Job.report]
  cases hd : job.drive limit? (.start state) with
  | mk ending m =>
    cases hd' : job'.drive limit? (.start state) with
    | mk ending' m' =>
      rw [hd, hd'] at halike
      obtain ⟨hm, g, hg, hend⟩ := halike
      dsimp only at hm hg hend ⊢
      have hstart : (Machine.start state).gist run = 0 := rfl
      rw [hstart, zero_add] at hg
      subst hm hg
      refine ⟨rfl, rfl, ?_⟩
      cases ending with
      | error reason =>
        cases ending' with
        | error reason' => exact .inl ⟨reason, rfl, congrArg Except.error (Eq.symm hend)⟩
        | ok completion' => exact hend.elim
      | ok completion =>
        cases ending' with
        | error reason' => exact hend.elim
        | ok completion' => exact .inr ⟨completion, completion', rfl, rfl, hend⟩

namespace Schema

variable {s : Schema σ}

/-- An execution of the renamed operation goes in step, from an operation that can be bound. -/
theorem mirrors_job (index : Nat) (run : Run) {root : ObjectType σ}
    (hb : s.bind run.operation = []) (hroot : s.root? run.operation.kind = some root)
    (hρ : Set.InjOn ρ {key | key ∈ run.operation.keys}) :
    Mirrors ρ index
      (Context.Tells ⟨index, s, run.vars⟩ ρ
        (.object (.named root.name) root run.root run.operation.selections) [])
      (s.job index run) (s.job index (run.rename ρ)) := by
  have hb' : s.bind (run.rename ρ).operation = [] := by
    rw [Run.rename, bind_rename, hb, List.map_nil]
  rw [job, job, hb, hb']
  refine .emit rfl (Mirrors.bind _
    (Context.mirrors_operationJob ⟨index, s, run.vars⟩ hρ hroot) ?_)
  rintro g completion completion' ⟨fields, hy, rfl, rfl, rfl⟩
  refine .emit rfl (.done ⟨_, hy, ?_, ?_, ?_⟩)
  · have hstarted : (Event.started run.operation.kind run.operation.name?).gist = 0 := rfl
    have hexecuted : Event.executed.gist = 0 := rfl
    rw [hstarted, hexecuted, zero_add, add_zero, add_zero]
  · rw [Outcome.completion]
    cases Outcome.entries? fields <;> rfl
  · rw [Outcome.rename, Outcome.completion]
    cases Outcome.entries? (Outcome.renameFields ρ fields) <;> rfl

/-- An outcome of an execution that has recorded what the outcome says is what the execution
reaches. -/
theorem reaches_of_gist {run : Run} {o : Outcome} (hy : s.Yields run o) {log : List Entry}
    (hg : Gist.of (Entry.errors log 0) (Entry.calls log 0) = o.gist []) {data : Value}
    (hc : o.completion = some data) :
    s.Reaches run log ⟨data, LocatedError.sorted (Entry.errors log 0)⟩ o := by
  obtain ⟨he, hcalls⟩ := Prod.mk.inj hg
  refine ⟨hy, hc, ?_, Multiset.coe_eq_coe.1 hcalls⟩
  exact (LocatedError.perm_sorted _).trans (Multiset.coe_eq_coe.1 he)

theorem Yields.rename {run : Run} {o : Outcome} (hy : s.Yields run o)
    (hρ : Set.InjOn ρ {key | key ∈ run.operation.keys}) :
    s.Yields (run.rename ρ) (o.rename ρ) := by
  obtain ⟨root, hroot, hy⟩ := hy
  exact ⟨root, hroot, Context.Yields.rename hy hρ⟩

/-- What the outcome says of an execution, it says renamed of the renamed log. -/
theorem Reaches.rename {run : Run} {log : List Entry} {out : Output} {o : Outcome}
    (h : s.Reaches run log out o) (hρ : Set.InjOn ρ {key | key ∈ run.operation.keys}) :
    s.Reaches (run.rename ρ) (log.map (Entry.rename ρ))
      ⟨o.renameResult ρ out.data, LocatedError.sorted (out.errors.map (LocatedError.rename ρ))⟩
      (o.rename ρ) := by
  refine ⟨h.yields.rename hρ, ?_, ?_, ?_⟩
  · rw [Outcome.completion_rename, h.completion, Option.map_some]
  · refine (LocatedError.perm_sorted _).trans ((h.errors.map _).trans (.of_eq ?_))
    exact (o.errors_rename []).symm
  · rw [Entry.calls_rename, Outcome.calls_rename]
    exact h.calls.map _

/-- Sorting the renamed errors does not depend on the order in which they were before. -/
theorem Reaches.sorted_rename {run : Run} {log : List Entry} {out : Output} {o : Outcome}
    (h : s.Reaches run log out o) (hρ : Set.InjOn ρ {key | key ∈ run.operation.keys})
    {errors : List LocatedError} (hp : errors.Perm out.errors) :
    LocatedError.sorted (errors.map (LocatedError.rename ρ)) =
      LocatedError.sorted (out.errors.map (LocatedError.rename ρ)) := by
  have hapart := Outcome.pairwise_apart_errors (h.yields.rename hρ).distinctKeys []
  have herrors : (o.rename ρ).errors [] = (o.errors []).map (LocatedError.rename ρ) :=
    o.errors_rename []
  rw [herrors] at hapart
  refine LocatedError.sorted_eq_of_perm (hp.map _) ?_
  exact (((hp.trans h.errors).map _).pairwise_iff Path.Apart.symm).2 hapart

/-- Executions that were driven in step have one outcome, and its renamed form. -/
theorem exists_reaches_of_tells (run : Run) {root : ObjectType σ}
    (hroot : s.root? run.operation.kind = some root) {log : List Entry}
    {completion completion' : Completion}
    (h : Context.Tells ⟨0, s, run.vars⟩ ρ
      (.object (.named root.name) root run.root run.operation.selections) []
      (.of (Entry.errors log 0) (Entry.calls log 0)) completion completion') :
    ∃ o, s.Reaches run log
        ⟨completion.getD .null, LocatedError.sorted (Entry.errors log 0)⟩ o ∧
      completion'.getD .null = o.renameResult ρ (completion.getD .null) := by
  obtain ⟨o, hy, hg, rfl, rfl⟩ := h
  have hdata : ∃ data, o.completion = some data := by
    cases hy with
    | fields =>
      rw [Outcome.completion]
      cases Outcome.entries? _ <;> exact ⟨_, rfl⟩
  obtain ⟨data, hdata⟩ := hdata
  refine ⟨o, ?_, ?_⟩
  · rw [hdata, Option.getD_some]
    exact reaches_of_gist ⟨root, hroot, hy⟩ hg hdata
  · rw [Outcome.completion_rename, hdata, Option.map_some, Option.getD_some, Option.getD_some]

/-- An operation that can be bound answers with its data and with the errors by position. -/
theorem answer_of_bind {run : Run} (hb : s.bind run.operation = []) (log : List Entry)
    (index : Nat) (data : Value) :
    s.answer log index run data =
      .ok ⟨data, LocatedError.sorted (Entry.errors log index)⟩ := by
  rw [answer, hb]
  rfl

/-- **Aliases only rename.** Let a function give every field of an operation another response key,
such that no two response keys become one. Then binding finds the same faults in the same order, at
the renamed positions; and if there are none, executions log the same events at the same times with
the keys in their paths renamed, leave the same state, and end in the same way. The data is that of
the operation with the keys of the objects renamed that were made for its fields, what is in leaves
aside, and the errors are those of the operation at the renamed positions, sorted again. -/
theorem execute_rename (s : Schema σ) (operation : Operation)
    (hρ : Set.InjOn ρ {key | key ∈ operation.keys}) :
    s.bind (operation.rename ρ) = (s.bind operation).map (BindingError.rename ρ) ∧
    (s.bind operation = [] → ∀ (root : Value) (vars : Variables) (limit? : Option Nat) (state : σ),
      let report := s.execute limit? ⟨operation, root, vars⟩ state
      let report' := s.execute limit? ⟨operation.rename ρ, root, vars⟩ state
      report'.log = report.log.map (Entry.rename ρ) ∧ report'.state = report.state ∧
      (∀ reason, report.ending = .error reason → report'.ending = .error reason) ∧
      ∀ out, report.ending = .ok (.ok out) →
        ∃ o, s.Reaches ⟨operation, root, vars⟩ report.log out o ∧
          s.Reaches ⟨operation.rename ρ, root, vars⟩ report'.log
            ⟨o.renameResult ρ out.data,
              LocatedError.sorted (out.errors.map (LocatedError.rename ρ))⟩ (o.rename ρ) ∧
          report'.ending = .ok (.ok ⟨o.renameResult ρ out.data,
            LocatedError.sorted (out.errors.map (LocatedError.rename ρ))⟩)) := by
  refine ⟨s.bind_rename operation, ?_⟩
  intro hb root vars limit? state
  have hb' : s.bind (operation.rename ρ) = [] := by
    rw [bind_rename, hb, List.map_nil]
  obtain ⟨type, hroot⟩ := exists_root_of_bind hb
  have hmirrors := mirrors_job 0 ⟨operation, root, vars⟩ hb hroot hρ
  obtain ⟨hlog, hstate, hending⟩ := hmirrors.report limit? state
    (fun log completion => s.answer log 0 ⟨operation, root, vars⟩ (completion.getD .null))
    (fun log completion => s.answer log 0 ⟨operation.rename ρ, root, vars⟩
      (completion.getD .null))
  refine ⟨hlog, hstate, ?_⟩
  rcases hending with ⟨reason, hstuck, hstuck'⟩ | ⟨completion, completion', hout, hout', htells⟩
  · refine ⟨?_, ?_⟩
    · intro reason' hreason
      exact hstuck'.trans (hstuck.symm.trans hreason)
    · intro out hout
      cases hstuck.symm.trans hout
  · refine ⟨?_, ?_⟩
    · intro reason hreason
      cases hout.symm.trans hreason
    · intro out hanswer
      have heq := hout.symm.trans hanswer
      rw [answer_of_bind hb, Except.ok.injEq, Except.ok.injEq] at heq
      rw [answer_of_bind hb', hlog, Entry.errors_rename] at hout'
      subst heq
      obtain ⟨o, hreach, hdata⟩ := exists_reaches_of_tells ⟨operation, root, vars⟩ hroot htells
      have hreach' := hreach.rename hρ
      rw [← hlog] at hreach'
      refine ⟨o, hreach, hreach', hout'.trans ?_⟩
      rw [hdata, hreach.sorted_rename hρ (LocatedError.perm_sorted _).symm]

end Schema

namespace Sample

/-- Gives fields the names of others. -/
def swapped : Equiv.Perm String :=
  (Equiv.swap "found" "item").trans (Equiv.swap "name" "parts")

def swappedData : Value :=
  .object [("item", .object [("__typename", .string "Item"), ("parts", .string "a"),
    ("name", .null)]), ("found", .null)]

/-- The sample with the names of fields swapped: its data is what the outcome says of the data. -/
theorem execute_rename_sample :
    Set.InjOn swapped {key | key ∈ operation.keys} ∧
    ∃ o, schema.Reaches run (schema.execute none run ()).log ⟨data, LocatedError.sorted errors⟩ o ∧
      o.renameResult swapped data = swappedData ∧
      (schema.execute none (run.rename swapped) ()).ending = .ok (.ok
        ⟨swappedData, LocatedError.sorted (errors.map (LocatedError.rename swapped))⟩) := by
  have hρ : Set.InjOn swapped {key | key ∈ operation.keys} := swapped.injective.injOn
  have hswapped : (schema.execute none (run.rename swapped) ()).ending =
      .ok (.ok ⟨swappedData, LocatedError.sorted (errors.map (LocatedError.rename swapped))⟩) :=
    Schema.ending_execute rfl 40 rfl
  obtain ⟨-, hexecute⟩ := Schema.execute_rename schema operation hρ
  obtain ⟨-, -, -, hout⟩ := hexecute rfl run.root run.vars none ()
  obtain ⟨o, hreach, -, hending⟩ := hout _ ending_execute
  have heq := hswapped.symm.trans hending
  simp only [Except.ok.injEq, Output.mk.injEq] at heq
  exact ⟨hρ, o, hreach, heq.1.symm, hswapped⟩

end Sample

end GraphQL
