import GraphQL.Description
import GraphQL.Trace

/-!
# Sessions

A session holds a registry, then the schema that is made from it. Questions may be put to either at
any time; types are registered before the schema is made, and operations executed after. The state
that resolvers share and the trace last as long as the session. An attempt to make a schema of a
registry with faults uses the registry up. Fields are built when something looks at them: a question
for the fields of a type, or for one of them, and a check.
-/

namespace GraphQL

/-- A question to a registry. -/
inductive Question where
  | resolve (name : String)
  | get (name : String)
  | lookup (ref : TypeRef)
  | types
  | object (name : String)
  | possible (abstract : String)
  | isPossible (abstract object : String)
  | isSubtype (sub super : TypeRef)
  | check
  | field (owner name : String)
  /-- The type of a name, to be shown with its fields. -/
  | fields (name : String)
  | describe (name : String)
  | describeAll
  | initialized (name : String)
  | serialize (leaf : String) (v : Value)
  | parse (leaf : String) (literal : InputValue)

/-- What a session is told to do. -/
inductive Command (σ : Type) where
  | ask (question : Question)
  | register (t : TypeDef σ)
  | create (query : String) (mutation? : Option String)
  | info
  | describeSchema
  | disableIntrospection
  | type (name : String)
  | possibility (abstract : String) (objects : List String)
  | bind (operation : Operation)
  /-- Executes an operation, and cancels it when the clock would pass a limit. -/
  | execute (run : Run) (limit? : Option Nat)
  | executeTogether (runs : List Run)

/-- What a session answers. -/
inductive Reply (σ : Type) where
  | done
  | nothing
  | wrongStage
  | registryError (e : RegistryError)
  | violations (violations : List Violation)
  | schema (s : Schema σ)
  | type (t : TypeDef σ)
  | field (f : Field σ)
  | text (s : String)
  | name (s : String)
  | names (names : List String)
  | kinds (kinds : List (String × TypeKind))
  | flag (b : Bool)
  | initialized (built? : Option Bool) (runs : Nat)
  | result (result : Except FieldError Value)
  | enumValue (v : Value)
  | possibility (object? : Option String) (possible : List String) (isPossible : List Bool)
  | faults (errors : List BindingError)
  | report (report : Report σ Answer)
  | reports (report : Report σ (List Answer))

namespace Reply

variable {σ : Type}

/-- The reply to a question that may have no answer. -/
def ofOption {α : Type} (reply : α → Reply σ) : Option α → Reply σ
  | some a => reply a
  | none => .nothing

/-- The reply to a check that found these violations. -/
def ofViolations (violations : List Violation) : Reply σ :=
  if violations.isEmpty then .done else .violations violations

end Reply

namespace Question

variable {σ : Type}

/-- The conversions of a scalar or an enum. -/
def serializeReply (r : Registry σ) (leaf : String) (v : Value) : Reply σ :=
  .ofOption .result (((r.get? leaf).bind TypeDef.serialize?).map fun serialize => serialize v)

/-- A scalar parses a literal; an enum looks up the value that a string names. -/
def parseReply (r : Registry σ) (leaf : String) (literal : InputValue) : Reply σ :=
  match r.get? leaf, literal with
  | some (.scalar s), literal => .result (s.parse literal)
  | some (.enum e), .scalar (.string name) =>
    .ofOption .enumValue ((e.value? name).map EnumValue.value)
  | _, _ => .nothing

/-- The type of a name, or that there is none. -/
def resolveReply (r : Registry σ) (name : String) : Reply σ :=
  match r.resolve name with
  | .ok t => .type t
  | .error e => .registryError e

/-- Are the fields of a type there, and how often has their thunk run? -/
def initializedReply (r : Registry σ) (name : String) : Reply σ :=
  match (r.get? name).bind TypeDef.fieldSet? with
  | some s => .initialized (some s.isBuilt) s.runs
  | none => .initialized none 0

/-- The answer of a registry, and the registry after it. -/
def answer (r : Registry σ) : Question → Reply σ × Registry σ
  | .resolve name => (resolveReply r name, r)
  | .get name => (.ofOption .type (r.get? name), r)
  | .lookup ref => (.ofOption (fun t => .name t.name) (r.lookup? ref), r)
  | .types => (.kinds (r.types.map fun t => (t.name, t.kind)), r)
  | .object name => (.ofOption (fun o => .name o.name) (r.object? name), r)
  | .possible abstract => (.names ((r.possibleTypes abstract).map (·.name)), r)
  | .isPossible abstract name => (.flag (r.isPossible abstract name), r)
  | .isSubtype sub super => (.flag (r.isSubtype sub super), r)
  | .check =>
    let (found, r) := r.check
    (.ofViolations found, r)
  | .field owner name =>
    let r := r.buildType owner
    (.ofOption .field ((r.get? owner).bind fun t => t.field? name), r)
  | .fields name =>
    let r := r.buildType name
    (.ofOption .type (r.get? name), r)
  | .describe name => (.ofOption (fun t => .text t.describe) (r.get? name), r)
  | .describeAll => (.text r.describe, r)
  | .initialized name => (initializedReply r name, r)
  | .serialize leaf v => (serializeReply r leaf v, r)
  | .parse leaf literal => (parseReply r leaf literal, r)

/-- The lines that a question adds to the trace: those of the violations that a check found. -/
def trace : Question → Reply σ → List TraceLine
  | .check, .violations found => TraceLine.ofCheck found
  | _, _ => []

end Question

/-- What a session holds. -/
inductive Stage (σ : Type) where
  | registry (r : Registry σ)
  | schema (s : Schema σ)
  /-- Nothing any more; the registry has been used up. -/
  | gone (r : Registry σ)

/-- The stage of a session, the state of its resolvers, and its trace so far. -/
structure Session (σ : Type) where
  stage : Stage σ
  state : σ
  trace : List TraceLine

namespace Session

variable {σ : Type}

/-- A session with no types but the built-in ones. -/
def start (state : σ) : Session σ :=
  ⟨.registry .empty, state, []⟩

/-- Adds lines to the trace. -/
def addTrace (session : Session σ) (lines : List TraceLine) : Session σ :=
  { session with trace := session.trace ++ lines }

/-- Registers a type, if the session still holds a registry. -/
def register (t : TypeDef σ) (session : Session σ) : Reply σ × Session σ :=
  match session.stage with
  | .registry r =>
    match r.register t with
    | .ok r => (.done, { session with stage := .registry r }.addTrace [.ofRegistered t])
    | .error e => (.registryError e, session)
  | _ => (.wrongStage, session)

/-- Registers types in turn up to the first that cannot be. -/
def registerAll : List (TypeDef σ) → Session σ → Reply σ × Session σ
  | [], session => (.done, session)
  | t :: rest, session =>
    match session.register t with
    | (.done, session) => registerAll rest session
    | failure => failure

/-- Makes a schema of the registry that the session holds. -/
def create (query : String) (mutation? : Option String) (session : Session σ) :
    Reply σ × Session σ :=
  match session.stage with
  | .registry r =>
    let session := session.addTrace (TraceLine.ofCreation r query mutation?)
    match Schema.create? r query mutation? with
    | .ok s => (.schema s, { session with stage := .schema s })
    | .error violations => (.violations violations, { session with stage := .gone r.check.2 })
  | _ => (.wrongStage, session)

/-- Puts a question to the registry or the schema. -/
def ask (question : Question) (session : Session σ) : Reply σ × Session σ :=
  match session.stage with
  | .registry r =>
    let (reply, r) := question.answer r
    (reply, { session with stage := .registry r }.addTrace (question.trace reply))
  | .schema s =>
    let (reply, _) := question.answer s.registry
    (reply, session.addTrace (question.trace reply))
  | .gone _ => (.wrongStage, session)

/-- Goes on after executions with the state that their resolvers left. -/
def finish {α : Type} (report : Report σ α) (session : Session σ) : Session σ :=
  { session with state := report.state }.addTrace (TraceLine.ofLog report.log)

/-- What a session with a schema does. -/
def useSchema (s : Schema σ) (command : Command σ) (session : Session σ) : Reply σ × Session σ :=
  match command with
  | .info => (.schema s, session)
  | .describeSchema => (.text s.describe, session)
  | .disableIntrospection =>
    (.done, { session with stage := .schema s.disableIntrospection })
  | .type name => (.ofOption .type (s.registry.get? name), session)
  | .possibility abstract objects =>
    (.possibility ((s.registry.object? abstract).map (·.name))
      ((s.registry.possibleTypes abstract).map (·.name))
      (objects.map (s.registry.isPossible abstract)), session)
  | .bind operation =>
    let errors := s.bind operation
    (.faults errors, session.addTrace (errors.map TraceLine.ofUnbound))
  | .execute run limit? =>
    let report := s.execute limit? run session.state
    (.report report, session.finish report)
  | .executeTogether runs =>
    let report := s.executeTogether runs session.state
    (.reports report, session.finish report)
  | _ => (.wrongStage, session)

/-- Does what it is told, if the stage allows. -/
def step (command : Command σ) (session : Session σ) : Reply σ × Session σ :=
  match command with
  | .ask question => session.ask question
  | .register t => session.register t
  | .create query mutation? => session.create query mutation?
  | command =>
    match session.stage with
    | .schema s => session.useSchema s command
    | _ => (.wrongStage, session)

/-- The replies to commands one after the other. -/
def run : List (Command σ) → Session σ → List (Reply σ) × Session σ
  | [], session => ([], session)
  | command :: rest, session =>
    let (reply, session) := session.step command
    let (replies, session) := run rest session
    (reply :: replies, session)

/-- Does commands one after the other up to the first that fails, and gives the last reply. -/
def runUntilFailure (reply : Reply σ) :
    List (Command σ) → Session σ → Reply σ × Session σ
  | [], session => (reply, session)
  | command :: rest, session =>
    match session.step command with
    | (.registryError e, session) => (.registryError e, session)
    | (.violations violations, session) => (.violations violations, session)
    | (reply, session) => runUntilFailure reply rest session

end Session

end GraphQL
