import GraphQL.Execution.Event
import GraphQL.Execution.Turns

/-!
# Jobs

The work of executions as a tree: a job records events, calls resolvers, waits for what they
promise, and runs a group of other jobs side by side until all of them are done. A job says what
waits for what; in which order the members of a group go on is for their `Turns`.
-/

namespace GraphQL

/-- How a position ends: with a value, or with a `null` on its way to the closest position that may
be `null`. The error that caused the `null` has been recorded by then. -/
abbrev Completion := Option Value

/-- What is left to do, over the state that resolvers share. -/
inductive Job (σ : Type) : Type where
  | done (completion : Completion)
  /-- Records an event of the execution with a number. -/
  | emit (run : Nat) (event : Event) (next : Job σ)
  /-- Calls a resolver and goes on with its result. -/
  | call (c : Call) (resolver : σ → Resolution σ × σ) (next : Except FieldError Value → Job σ)
  /-- Waits for what a resolver promised. Tickets number the promises in the order of the calls. -/
  | await (ticket : Nat) (due? : Option Nat) (c : Call)
      (finish : σ → Except FieldError Value × σ) (next : Except FieldError Value → Job σ)
  /-- Runs the members of a group side by side and goes on when all of them are done. -/
  | join (turns : Turns) (members : List (Job σ)) (next : List Completion → Job σ)

namespace Job

variable {σ : Type}

/-- Goes on after a job with how it ended. -/
def bind (next : Completion → Job σ) : Job σ → Job σ
  | .done completion => next completion
  | .emit run event job => .emit run event (bind next job)
  | .call c resolver job => .call c resolver fun result => bind next (job result)
  | .await ticket due? c finish job =>
    .await ticket due? c finish fun result => bind next (job result)
  | .join turns members job => .join turns members fun completions => bind next (job completions)

/-- Runs jobs one after the other, whatever they end with, and goes on with all completions. -/
def inTurn (next : List Completion → Job σ) : List (Job σ) → Job σ
  | [] => next []
  | job :: rest => bind (fun completion => inTurn (fun rest => next (completion :: rest)) rest) job

/-- Runs jobs side by side, with turns in the order in which they ask. -/
def sideBySide (next : List Completion → Job σ) (jobs : List (Job σ)) : Job σ :=
  .join (.start .fair jobs.length) jobs next

/-- How many jobs a row sweeps at most; longer rows take turns in the order of asking. -/
def maxSweep : Nat :=
  30

/-- Runs the jobs of a row side by side. -/
def row (next : List Completion → Job σ) (jobs : List (Job σ)) : Job σ :=
  if jobs.length ≤ maxSweep then .join (.start .sweep jobs.length) jobs next
  else sideBySide next jobs

/-- Records events one after the other before a job. -/
def emitAll (run : Nat) (events : List Event) (job : Job σ) : Job σ :=
  events.foldr (.emit run) job

/-- The completion of a job that is done. -/
def completion? : Job σ → Option Completion
  | .done completion => some completion
  | _ => none

/-- The completions of jobs that are all done. -/
def completions? : List (Job σ) → Option (List Completion)
  | [] => some []
  | job :: rest =>
    match job.completion? with
    | some completion => (completions? rest).map (completion :: ·)
    | none => none

end Job

end GraphQL
