import GraphQL.Proofs.Execution.Evaluation
import GraphQL.Proofs.ScheduleIndependence

/-!
# Queries and mutations have the same output

The fields at the root of a query are executed side by side, those of a mutation one after the
other. Where both start at the same object type, the same selections can be bound
(`bind_mutation`) and have the same outcomes (`yields_mutation_iff`), for an outcome does not know
in which order its positions were reached. So on a stateless schema it makes no difference which of
the two an operation is, whatever fails on the way (`execute_query_eq_mutation`).
-/

namespace GraphQL

namespace Schema

variable {σ : Type} {s : Schema σ}

/-- Mutations start where queries do. -/
def HasOneRoot (s : Schema σ) : Prop :=
  s.mutationName? = some s.queryName

theorem HasOneRoot.rootName? (h : s.HasOneRoot) (kind : OperationKind) :
    s.rootName? kind = some s.queryName := by
  cases kind with
  | query => rfl
  | mutation => exact h

theorem HasOneRoot.bind_mutation (h : s.HasOneRoot) (name? name'? : Option String)
    (selections : List Selection) :
    s.bind ⟨.mutation, name'?, selections⟩ = s.bind ⟨.query, name?, selections⟩ := by
  unfold bind
  simp only [h.rootName?]

theorem HasOneRoot.yields_mutation_iff (h : s.HasOneRoot) (name? name'? : Option String)
    {selections : List Selection} {root : Value} {vars : Variables} {o : Outcome} :
    s.Yields ⟨⟨.mutation, name'?, selections⟩, root, vars⟩ o ↔
      s.Yields ⟨⟨.query, name?, selections⟩, root, vars⟩ o := by
  simp only [Yields, root?, h.rootName?]

variable {computation? : String → String → Option Computation}

/-- Stateless schemas with one root end queries and mutations with the same output. -/
theorem EndsWith.eq_of_mutation (h : s.HasOneRoot) (hs : s.Computes computation?)
    {name? name'? : Option String} {selections : List Selection} {root : Value} {vars : Variables}
    {state state' : σ} {log log' : List Entry} {out out' : Output}
    (hq : s.EndsWith ⟨⟨.query, name?, selections⟩, root, vars⟩ state log out)
    (hm : s.EndsWith ⟨⟨.mutation, name'?, selections⟩, root, vars⟩ state' log' out') :
    out = out' := by
  obtain ⟨o, hreach⟩ := hq.exists_outcome
  obtain ⟨o', hreach'⟩ := hm.exists_outcome
  obtain rfl : o = o' := by
    have hy' := (h.yields_mutation_iff name? name'?).1 hreach'.yields
    exact hreach.yields.unique ⟨rfl, rfl, rfl, rfl⟩ hs hs hy'
  exact hq.eq_of_reaches hreach hm hreach'

/-- **Serial and concurrent execution agree.** On a stateless schema with one root, selections can
be executed as a query if and only if they can be as a mutation, and both end with one and the same
output: by the schedule, in whatever state they start, and by every other interleaving. -/
theorem execute_query_eq_mutation (h : s.HasOneRoot) (hs : s.Computes computation?)
    (name? name'? : Option String) (selections : List Selection) (root : Value)
    (vars : Variables) :
    let query : Run := ⟨⟨.query, name?, selections⟩, root, vars⟩
    let mutation : Run := ⟨⟨.mutation, name'?, selections⟩, root, vars⟩
    s.bind mutation.operation = s.bind query.operation ∧
      (s.bind query.operation = [] → ∀ state state' : σ, ∃ out,
        (s.execute none query state).ending = .ok (.ok out) ∧
        (s.execute none mutation state').ending = .ok (.ok out) ∧
        (∀ log out', s.EndsWith query state log out' → out' = out) ∧
        ∀ log out', s.EndsWith mutation state' log out' → out' = out) := by
  intro query mutation
  have hbind : s.bind mutation.operation = s.bind query.operation :=
    h.bind_mutation name? name'? selections
  refine ⟨hbind, ?_⟩
  intro hb state state'
  obtain ⟨out, hout⟩ := exists_output_execute hs.keepsPromises hb state
  obtain ⟨out', hout'⟩ := exists_output_execute hs.keepsPromises (hbind.trans hb) state'
  have hends := endsWith_execute hout
  obtain rfl : out = out' := hends.eq_of_mutation h hs (endsWith_execute hout')
  refine ⟨out, hout, hout', ?_, ?_⟩
  · intro log out' h'
    exact h'.eq_of_mutation h hs (endsWith_execute hout')
  · intro log out' h'
    exact (hends.eq_of_mutation h hs h').symm

end Schema

namespace Racing

/-- Fails after three ticks of the clock. -/
def failLate : Resolver Unit := fun _ _ state =>
  (.pending (some 3) fun state => (.error (.resolver "late"), state), state)

/-- Fails at once. -/
def failNow : Resolver Unit := fun _ _ state =>
  (.ready (.error (.resolver "now")), state)

/-- A root with a field that must not be `null` and fails late, and one that fails at once. -/
def root : ObjectType Unit :=
  ⟨"Root", none, .eager
    [⟨"late", none, [], .nonNull (.named "Int"), .current, some failLate⟩,
      ⟨"now", none, [], .named "Int", .current, some failNow⟩,
      ⟨"name", none, [], .nonNull (.named "String"), .current, none⟩], []⟩

def schema : Schema Unit :=
  ⟨⟨[.object root], by
      change ["String", "Int", "Float", "Boolean", "ID", "Root"].Nodup
      decide⟩,
    "Root", some "Root", false, rfl, rfl, rfl, by
    intro name hn
    obtain rfl := Option.mem_some_iff.1 hn
    rfl⟩

def run (kind : OperationKind) : Run :=
  ⟨⟨kind, none, [Sample.field "late" [], Sample.field "now" [], Sample.field "name" []]⟩,
    .object [("name", .null)], []⟩

/-- The errors in the order in which a query records them; a mutation records the last one first. -/
def errors : List LocatedError :=
  [⟨[.field "now"], .resolver "now"⟩,
    ⟨[.field "name"], .ofFault (.nullInNonNull (.nonNull (.named "String")))⟩,
    ⟨[.field "late"], .resolver "late"⟩]

def computation? (type field : String) : Option Computation :=
  if type = "Root" ∧ field = "late" then some fun _ _ => .error (.resolver "late")
  else if type = "Root" ∧ field = "now" then some fun _ _ => .error (.resolver "now")
  else none

theorem computes_schema : schema.Computes computation? := by
  intro name o ho field hf
  have hn : o.name = name := Registry.name_of_get? ho
  subst hn
  obtain rfl : o = root := by
    have hm := Registry.mem_types_of_get? ho
    simpa [Registry.types, schema, TypeDef.builtins, ScalarType.builtins] using hm
  have hfields : root.fields = [_, _, _] := rfl
  simp only [hfields, List.mem_cons, List.not_mem_nil, or_false] at hf
  rcases hf with rfl | rfl | rfl
  · exact fun _ _ _ => ⟨rfl, fun _ => rfl⟩
  · exact fun _ _ _ => rfl
  · exact trivial

/-- Two fields fail that must not be `null`, and one that may be. The failure of the first keeps a
mutation from none of the others, and all errors are told in the same order. -/
theorem execute_query_eq_mutation_sample :
    schema.HasOneRoot ∧ schema.Computes computation? ∧
      schema.bind (run .query).operation = [] ∧
      (schema.execute none (run .query) ()).ending =
        .ok (.ok ⟨.null, LocatedError.sorted errors⟩) ∧
      (schema.execute none (run .mutation) ()).ending =
        .ok (.ok ⟨.null, LocatedError.sorted errors⟩) := by
  have hroot : schema.HasOneRoot := rfl
  have hb : schema.bind (run .query).operation = [] := rfl
  have hquery : (schema.execute none (run .query) ()).ending =
      .ok (.ok ⟨.null, LocatedError.sorted errors⟩) :=
    Schema.ending_execute hb 40 rfl
  obtain ⟨-, hsame⟩ := Schema.execute_query_eq_mutation hroot computes_schema none none
    (run .query).operation.selections (run .query).root []
  obtain ⟨out, hout, hout', -, -⟩ := hsame hb () ()
  obtain rfl := Except.ok.inj (Except.ok.inj (hout.symm.trans hquery))
  exact ⟨hroot, computes_schema, hb, hquery, hout'⟩

end Racing

end GraphQL
