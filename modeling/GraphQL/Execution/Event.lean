import GraphQL.Binding

/-!
# Events of an execution

What happens in the course of one or several executions, in order: every call of a resolver and
its completion, every question to a type resolver, and every error when it is recorded. The errors
of a response, the trace and the log of calls are all read off the events.
-/

namespace GraphQL

/-- A call of an explicit resolver, and the number of the execution that calls. -/
structure Call where
  run : Nat
  typeName : String
  field : String
  path : Path
  parent : Value
  arguments : Arguments

/-- Something that happens in an execution. -/
inductive Event where
  /-- A selection cannot be bound. -/
  | unbound (error : BindingError)
  /-- The operation does not run, for as many faults as there are. -/
  | refused (faults : Nat)
  | started (kind : OperationKind) (name? : Option String)
  /-- An explicit type resolver is asked for the type of a value of the abstract type. -/
  | asked (abstract : String)
  | dispatched (abstract concrete : String)
  | called (call : Call)
  /-- What a resolver promised is there. -/
  | completed (call : Call)
  | failed (error : LocatedError)
  | executed

/-- An event, the execution it belongs to and when it happened. -/
structure Entry where
  run : Nat
  time : Nat
  event : Event

namespace Event

/-- The error that the event records. -/
def error? : Event → Option LocatedError
  | .failed error => some error
  | _ => none

end Event

/-- The errors of one execution in the order in which they were recorded. -/
def Entry.errors (log : List Entry) (run : Nat) : List LocatedError :=
  log.filterMap fun entry => if entry.run = run then entry.event.error? else none

end GraphQL
