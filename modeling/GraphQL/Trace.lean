import GraphQL.Execution.Basic

/-!
# Traces and logs

What is told about the making of a schema and about executions while they happen. A trace holds the
messages of the engine, each with a level and named fields; a log holds the calls of resolvers and
type resolvers with the times at which they happened.
-/

namespace GraphQL

/-- How important a line is. -/
inductive TraceLevel where
  | trace
  | debug
  | warn
deriving DecidableEq, Repr

/-- The level as traces spell it. -/
def TraceLevel.label : TraceLevel → String
  | .trace => "TRACE"
  | .debug => "DEBUG"
  | .warn => "WARN"

/-- What a line of a trace is about: it says something, or a span of work begins. -/
inductive TraceSubject where
  | message (text : String)
  | span (name : String)
deriving DecidableEq

/-- A line of a trace. -/
structure TraceLine where
  level : TraceLevel
  subject : TraceSubject
  fields : List (String × String)

namespace TraceLine

variable {σ : Type}

/-- A field that is left out if it has no value. -/
def optionalField (name : String) (value? : Option String) : List (String × String) :=
  value?.toList.map fun value => (name, value)

/-! ## The making of a schema -/

/-- A type has been registered. -/
def ofRegistered (t : TypeDef σ) : TraceLine :=
  ⟨.trace, .message "registered type", [("type_name", t.name), ("kind", t.kind.label)]⟩

/-- A violation has been found. -/
def ofViolation (v : Violation) : TraceLine :=
  ⟨.debug, .message v.message, [("type_name", v.typeName), ("rule", v.rule.label)]⟩

/-- The lines of a check of the registered types. -/
def ofCheck (found : List Violation) : List TraceLine :=
  found.map ofViolation

/-- The lines of the attempt to make a schema. What is wrong with the roots has no line of its own
and counts nevertheless. -/
def ofCreation (r : Registry σ) (query : String) (mutation? : Option String) : List TraceLine :=
  ofCheck r.check.1 ++
  match Schema.create? r query mutation? with
  | .error violations =>
    [⟨.warn, .message "schema validation failed", [("errors", toString violations.length)]⟩]
  | .ok s =>
    [⟨.debug, .message "schema built",
      [("query", query)] ++ optionalField "mutation" mutation? ++
        [("types", toString s.registry.types.length)]⟩]

/-! ## Executions -/

/-- A selection cannot be bound. -/
def ofUnbound (e : BindingError) : TraceLine :=
  ⟨.debug, .message "validation error", [("error", e.display)]⟩

/-- The error of a field is recorded. -/
def ofError (e : LocatedError) : TraceLine :=
  ⟨.debug, .message ("field error: " ++ e.error.message),
    [("path", e.path.join "."), ("kind", e.error.kind.code)]⟩

/-- The line of an event, given the whole log for the count of its execution's errors. -/
def lineOf? (log : List Entry) (entry : Entry) : Option TraceLine :=
  match entry.event with
  | .unbound e => some (ofUnbound e)
  | .refused faults =>
    some ⟨.debug, .message "operation failed validation", [("errors", toString faults)]⟩
  | .started kind name? =>
    some ⟨.debug, .span "execute", ("operation", kind.label) :: optionalField "name" name?⟩
  | .dispatched abstract concrete =>
    some ⟨.trace, .message "resolved abstract type",
      [("abstract_name", abstract), ("concrete", concrete)]⟩
  | .failed e => some (ofError e)
  | .executed =>
    some ⟨.debug, .message "operation executed",
      [("errors", toString (Entry.errors log entry.run).length)]⟩
  | .asked _ | .called _ | .completed _ => none

/-- The lines of executions. -/
def ofLog (log : List Entry) : List TraceLine :=
  log.filterMap (lineOf? log)

end TraceLine

namespace Entry

/-- What the log of calls says about an event. -/
def logLine? (entry : Entry) : Option String :=
  match entry.event with
  | .called c => some s!"call {c.typeName}.{c.field} @{entry.time}"
  | .completed c => some s!"done {c.typeName}.{c.field} @{entry.time}"
  | .asked abstract => some s!"type {abstract} @{entry.time}"
  | _ => none

end Entry

end GraphQL
