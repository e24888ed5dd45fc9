import GraphQL.Execution.Progress
import GraphQL.Execution.Completion

/-!
# Executing operations

Several operations may be executed on one schema at the same time: they are the members of one row,
one clock drives them, and they share the state of the resolvers. Each ends with an output, or is
refused because it cannot be bound. Executions do not finish if some promise that is waited for is
never kept, or if they are cancelled before they are done.
-/

namespace GraphQL

/-- An operation with what it is executed on. -/
structure Run where
  operation : Operation
  root : Value
  vars : Variables

/-- A result tree and the errors of its fields, by position. The tree is `null` if a `null` went up
to the root. -/
structure Output where
  data : Value
  errors : List LocatedError

/-- What one execution ends with: the faults for which it was refused, or an output. -/
abbrev Answer := Except (List BindingError) Output

/-- Why executions do not finish. -/
inductive Unfinished where
  /-- Nothing can go on, and no promise will be kept. -/
  | stuck
  | cancelled
deriving DecidableEq, Repr

/-- The ending of executions, the state that resolvers left, and what has happened. -/
structure Report (σ α : Type) where
  ending : Except Unfinished α
  state : σ
  log : List Entry

namespace Job

variable {σ : Type}

/-- Drives a job until it is done or cannot go on. With a limit it is cancelled instead of letting
the clock pass it. -/
def drive (limit? : Option Nat) (job : Job σ) (m : Machine σ) :
    Except Unfinished Completion × Machine σ :=
  match _h : job.act m with
  | (.done completion, m, _) => (.ok completion, m)
  | (job', m, .goesOn) | (job', m, .asks) => drive limit? job' m
  | (job', m, _) =>
    match Wait.next? job'.waits with
    | none => (.error .stuck, m)
    | some (ticket, due) =>
      if limit?.any (· < due) then (.error .cancelled, m)
      else
        match _hk : job'.keep? ticket { m with now := due } with
        | none => (.error .stuck, m)
        | some (kept, m) => drive limit? kept m
termination_by wellFounded_lt.wrap job
decreasing_by
  · exact lt_act _h (.inl rfl)
  · exact lt_act _h (.inr rfl)
  · exact lt_keep_of_act _h _hk

/-- What a job comes to on a machine that starts. -/
def report {α : Type} (job : Job σ) (limit? : Option Nat) (state : σ)
    (answer : List Entry → Completion → α) : Report σ α :=
  let (ending, m) := job.drive limit? (.start state)
  ⟨ending.map (answer m.log), m.state, m.log⟩

end Job

namespace Schema

variable {σ : Type}

/-- The job of the execution with a number, with the events at its start and its end. It ends with
the data. -/
def job (s : Schema σ) (index : Nat) (run : Run) : Job σ :=
  let faults := s.bind run.operation
  if faults.isEmpty then
    .emit index (.started run.operation.kind run.operation.name?)
      ((Context.operationJob ⟨index, s, run.vars⟩ run.operation run.root).bind fun completion =>
        .emit index .executed (.done (some (completion.getD .null))))
  else Job.emitAll index (faults.map .unbound ++ [.refused faults.length]) (.done (some .null))

/-- What the execution with a number that ended with some data answers. -/
def answer (s : Schema σ) (log : List Entry) (index : Nat) (run : Run) (data : Value) : Answer :=
  let faults := s.bind run.operation
  if faults.isEmpty then .ok ⟨data, LocatedError.sorted (Entry.errors log index)⟩
  else .error faults

/-- Executes an operation, and cancels it when the clock would pass a limit. -/
def execute (s : Schema σ) (limit? : Option Nat) (run : Run) (state : σ) : Report σ Answer :=
  (s.job 0 run).report limit? state fun log completion =>
    s.answer log 0 run (completion.getD .null)

/-- Executes operations at the same time. -/
def executeTogether (s : Schema σ) (runs : List Run) (state : σ) : Report σ (List Answer) :=
  (Job.row .assembleList (runs.mapIdx s.job)).report none state fun log completion =>
    let data := (completion.bind Value.asList?).getD []
    (runs.zip data).mapIdx fun i (run, data) => s.answer log i run data

end Schema

end GraphQL
