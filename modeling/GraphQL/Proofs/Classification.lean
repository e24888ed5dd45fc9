import GraphQL.Proofs.Causes
import GraphQL.Proofs.Invocations

/-!
# The kind of an error says what failed

Every position that fails by itself does so in one of four ways (`Context.Fails`), and the error
that it records is of a kind that says which (`Schema.FailsBy`): the arguments of its field could
not be coerced, and its resolver was not called; or the resolver was called and failed; or there was
a value for it which does not fit its type; or the value came to `null` where none may be. Provided
that resolvers and custom scalars fail without a more specific kind, that is so for every error of
an execution, and every position that fails has its error (`Schema.execute_classifies`).
-/

namespace GraphQL

namespace Context

variable {σ : Type} {ctx : Context σ} {results : Results} {a b : Spot σ} {path : Path}
  {o : Outcome} {e : FieldError}

/-- What is done at a position fails by itself, with this error. -/
inductive Fails (ctx : Context σ) : Results → Spot σ → FieldError → Prop where
  | refused {results o parent node rest field error} (hn : node.name ≠ "__typename")
    (hf : o.field? node.name = some field)
    (ha : ctx.schema.registry.coerceArguments field node.arguments ctx.vars = .error error) :
    Fails ctx results (.field o parent (node :: rest)) error
  | unresolved {results o parent node rest field arguments error}
    (hn : node.name ≠ "__typename") (hf : o.field? node.name = some field)
    (ha : ctx.schema.registry.coerceArguments field node.arguments ctx.vars = .ok arguments)
    (hg : results [] = .error error) : Fails ctx results (.field o parent (node :: rest)) error
  | misfit {results type v selections error} (hv : v ≠ .null)
    (hs : ctx.schema.registry.shape type v = .error error) :
    Fails ctx results (.value type v selections) error
  | null {results type v selections} (hn : type.isNonNull = true)
    (hv : v = .null ∨ ctx.schema.registry.Writes v .null type) :
    Fails ctx results (.value type v selections) (.ofFault (.nullInNonNull type))

/-- Where an outcome has an error of its own, the execution has come to what failed. -/
theorem Recounts.exists_fails (h : ctx.Recounts results a path o) (he : o.error? = some e) :
    ∃ b, ctx.ComesTo results a [] b ∧ ctx.Fails results b e := by
  induction h with
  | typename => cases he
  | refused hn hf ha =>
    obtain rfl := Option.some.inj he
    exact ⟨_, .here, .refused hn hf ha⟩
  | unresolved hn hf ha _ hg =>
    obtain rfl := Option.some.inj he
    exact ⟨_, .here, .unresolved hn hf ha hg⟩
  | resolved hn hf ha hr hg _ ih =>
    obtain ⟨b, hb, hfails⟩ := ih he
    exact ⟨b, .step (.resolve hn hf ha hr) hg hb, hfails⟩
  | null =>
    obtain ⟨hn, rfl⟩ := Option.ite_some_none_eq_some.1 he
    exact ⟨_, .here, .null hn (.inl rfl)⟩
  | misfit hv hs =>
    obtain rfl := Option.some.inj he
    exact ⟨_, .here, .misfit hv hs⟩
  | @leaf _ _ _ _ _ literal hv hs =>
    obtain ⟨hn, rfl⟩ := Option.ite_some_none_eq_some.1 he
    rw [Bool.and_eq_true] at hn
    obtain ⟨hn, hnull⟩ := hn
    obtain rfl : literal = .null := by
      cases literal with
      | null => rfl
      | _ => cases hnull
    exact ⟨_, .here, .null hn (.inr (Registry.writes_iff_shape.2 hs))⟩
  | list => cases he
  | object hv hs _ ih =>
    obtain ⟨b, hb, hfails⟩ := ih he
    exact ⟨b, .step (.belong hv hs) trivial hb, hfails⟩
  | fields => cases he

/-- What failed is the error of its outcome. -/
theorem Recounts.error?_of_fails (h : ctx.Recounts results b path o) (hf : ctx.Fails results b e) :
    o.error? = some e := by
  cases hf with
  | refused hn hf ha =>
    have hfield := h.of_field hn hf
    rw [ha] at hfield
    rw [hfield]
    rfl
  | unresolved hn hf ha hg =>
    have hfield := h.of_field hn hf
    rw [ha, hg] at hfield
    rw [hfield.2]
    rfl
  | misfit hv hs =>
    have hvalue := h.of_value hv
    rw [hs] at hvalue
    rw [hvalue]
    rfl
  | @null _ v _ hn hv =>
    -- Either there was `null` to begin with, or a leaf type made it of another value.
    by_cases hnull : v = .null
    · subst hnull
      rw [h.of_null]
      simp [Outcome.error?, hn]
    · have hwrites := hv.resolve_left hnull
      have hvalue := h.of_value hnull
      rw [Registry.writes_iff_shape.1 hwrites] at hvalue
      rw [hvalue]
      simp [Outcome.error?, hn, Value.isNull]

/-- What a field gave is something that it may give. -/
theorem Recounts.gives {x : ObjectType σ} {parent : Value} {node : FieldNode Selection}
    {rest : List (FieldNode Selection)} {field : Field σ} {arguments : Arguments}
    (h : ctx.Recounts results (.field x parent (node :: rest)) path o)
    (hn : node.name ≠ "__typename") (hf : x.field? node.name = some field)
    (ha : ctx.schema.registry.coerceArguments field node.arguments ctx.vars = .ok arguments) :
    field.Gives parent arguments (results []) := by
  have hfield := h.of_field hn hf
  rw [ha] at hfield
  exact hfield.1

end Context

/-- Only a resolver fails a field whose arguments could be coerced. -/
theorem Field.Gives.isSome_of_error {σ : Type} {field : Field σ} {parent : Value}
    {arguments : Arguments} {e : FieldError} (h : field.Gives parent arguments (.error e)) :
    field.resolver?.isSome = true := by
  unfold Field.Gives at h
  split at h
  · next resolver hr => rw [hr]; rfl
  · cases h

namespace Schema

variable {σ : Type} {s : Schema σ} {run : Run} {state : σ} {log : List Entry} {out : Output}
  {results : Results} {o : Outcome} {p : Path} {spot : Spot σ} {e : FieldError} {cause : Cause}

/-- The position fails for the cause. -/
inductive FailsBy (s : Schema σ) (run : Run) (results : Results) (log : List Entry) (p : Path) :
    Cause → Prop where
  | arguments {o parent node rest field error}
    (hp : s.ComesTo run results p (.field o parent (node :: rest)))
    (hn : node.name ≠ "__typename") (hf : o.field? node.name = some field)
    (ha : s.registry.coerceArguments field node.arguments run.vars = .error error)
    (hc : ∀ c ∈ Entry.calls log 0, c.path ≠ p) : FailsBy s run results log p .arguments
  | resolver {o parent node rest field arguments error}
    (hp : s.ComesTo run results p (.field o parent (node :: rest)))
    (hn : node.name ≠ "__typename") (hf : o.field? node.name = some field)
    (ha : s.registry.coerceArguments field node.arguments run.vars = .ok arguments)
    (hc : ⟨0, o.name, field.name, p, parent, arguments⟩ ∈ Entry.calls log 0)
    (hr : results p = .error error) : FailsBy s run results log p .resolver
  | value {type v selections cause} (hp : s.ComesTo run results p (.value type v selections))
    (hv : v ≠ .null) (h : s.registry.Rejects v type cause) : FailsBy s run results log p cause
  | null {type v selections} (hp : s.ComesTo run results p (.value type v selections))
    (hn : type.isNonNull = true) (hv : v = .null ∨ s.registry.Writes v .null type) :
    FailsBy s run results log p .null

namespace Recounts

/-- No resolver is called for a field whose arguments cannot be coerced. -/
theorem path_ne_of_refused (h : s.Recounts run log out results o) {x : ObjectType σ}
    {parent : Value} {node : FieldNode Selection} {rest : List (FieldNode Selection)}
    {field : Field σ} (hp : s.ComesTo run results p (.field x parent (node :: rest)))
    (hf : x.field? node.name = some field)
    (ha : s.registry.coerceArguments field node.arguments run.vars = .error e) :
    ∀ c ∈ Entry.calls log 0, c.path ≠ p := by
  rintro c hc rfl
  obtain ⟨hobject, hm, -, hf', -, ha'⟩ := h.mem_calls_iff.1 hc
  obtain ⟨rfl, -, hnodes⟩ := hp.field_unique (hobject.select hm)
  obtain ⟨rfl, -⟩ := List.cons.inj hnodes
  obtain rfl := Option.some.inj (hf.symm.trans hf')
  simp [ha] at ha'

/-- A field whose arguments can be coerced fails by its resolver, which was called. -/
theorem called_of_unresolved (h : s.Recounts run log out results o)
    (hplain : s.registry.FailsPlainly) {x : ObjectType σ} {parent : Value}
    {node : FieldNode Selection} {rest : List (FieldNode Selection)} {field : Field σ}
    {arguments : Arguments} (hp : s.ComesTo run results p (.field x parent (node :: rest)))
    (hn : node.name ≠ "__typename") (hf : x.field? node.name = some field)
    (ha : s.registry.coerceArguments field node.arguments run.vars = .ok arguments)
    (hr : results p = .error e) :
    ⟨0, x.name, field.name, p, parent, arguments⟩ ∈ Entry.calls log 0 ∧ e.kind = .resolver := by
  obtain ⟨o', -, hspot⟩ := h.exists_at? hp
  have hgives := hspot.gives hn hf ha
  rw [Results.below, List.append_nil, hr] at hgives
  have hsome := hgives.isSome_of_error
  obtain ⟨resolver, hresolver⟩ := Option.isSome_iff_exists.1 hsome
  refine ⟨?_, ?_⟩
  · obtain ⟨q, key, type, selections, rfl, hobject, hm⟩ := hp.exists_object
    exact h.mem_calls_iff.2 (.call hobject hm hn hf hsome ha)
  · have hdeclared : TypeDef.object x ∈ s.registry.declared := by
      rcases Registry.builtin_or_declared_of_get? hp.visits.finds.get?_of_field with
        ⟨_, -, hscalar⟩ | hdeclared
      · cases hscalar
      · exact hdeclared
    unfold Field.Gives at hgives
    rw [hresolver] at hgives
    obtain ⟨state, hgives⟩ := hgives
    exact hplain.resolves x hdeclared field (List.mem_of_find?_eq_some hf) resolver hresolver
      parent arguments state e hgives

/-- What fails does so for the cause that its error tells. -/
theorem failsBy_of_fails (h : s.Recounts run log out results o)
    (hplain : s.registry.FailsPlainly) (hp : s.ComesTo run results p spot)
    (hf : Context.Fails ⟨0, s, run.vars⟩ (results.below p) spot e) :
    s.FailsBy run results log p e.kind.cause := by
  cases hf with
  | refused hn hf ha =>
    rw [hplain.cause_of_coerceArguments ha]
    exact .arguments hp hn hf ha (h.path_ne_of_refused hp hf ha)
  | unresolved hn hf ha hr =>
    rw [Results.below, List.append_nil] at hr
    obtain ⟨hc, hkind⟩ := h.called_of_unresolved hplain hp hn hf ha hr
    rw [hkind]
    exact .resolver hp hn hf ha hc hr
  | misfit hv hs =>
    obtain ⟨t, ht⟩ := hp.visits.finds.refers.registered
    exact .value hp hv (hplain.rejects_of_shape ht hs)
  | null hn hv => exact .null hp hn hv

/-- Whatever fails for a cause has an error that tells it. -/
theorem exists_fails_of_failsBy (h : s.Recounts run log out results o)
    (hplain : s.registry.FailsPlainly) (hf : s.FailsBy run results log p cause) :
    ∃ spot e, s.ComesTo run results p spot ∧
      Context.Fails ⟨0, s, run.vars⟩ (results.below p) spot e ∧ e.kind.cause = cause := by
  cases hf with
  | arguments hp hn hf ha _ =>
    exact ⟨_, _, hp, .refused hn hf ha, hplain.cause_of_coerceArguments ha⟩
  | resolver hp hn hf ha _ hr =>
    obtain ⟨-, hkind⟩ := h.called_of_unresolved hplain hp hn hf ha hr
    refine ⟨_, _, hp, .unresolved hn hf ha ?_, by rw [hkind]; rfl⟩
    rw [Results.below, List.append_nil, hr]
  | value hp hv hrejects =>
    obtain ⟨e, hs, hcause⟩ := hrejects.exists_shape hplain
    exact ⟨_, e, hp, .misfit hv hs, hcause⟩
  | null hp hn hv => exact ⟨_, _, hp, .null hn hv, rfl⟩

/-- The errors are those of the positions that fail, of a kind that tells the cause. -/
theorem exists_error_iff (h : s.Recounts run log out results o)
    (hplain : s.registry.FailsPlainly) :
    (∃ e ∈ out.errors, e.path = p ∧ e.error.kind.cause = cause) ↔
      s.FailsBy run results log p cause := by
  have hdistinct := h.reaches.yields.distinctKeys
  constructor
  · rintro ⟨⟨path, e⟩, he, rfl, rfl⟩
    obtain ⟨p, o', hpath, ha, he⟩ :=
      (Outcome.mem_errors_iff hdistinct).1 (h.reaches.errors.mem_iff.1 he)
    obtain rfl : path = p := hpath
    obtain ⟨spot, hp, hspot⟩ := h.exists_comesTo ha
    obtain ⟨spot', hstay, hfails⟩ := hspot.exists_fails he
    exact h.failsBy_of_fails hplain (hp.stay hstay) hfails
  · intro hf
    obtain ⟨spot, e, hp, hfails, hcause⟩ := h.exists_fails_of_failsBy hplain hf
    obtain ⟨o', ha, hspot⟩ := h.exists_at? hp
    have he := hspot.error?_of_fails hfails
    refine ⟨⟨p, e⟩, ?_, rfl, hcause⟩
    rw [h.reaches.errors.mem_iff, Outcome.mem_errors_iff hdistinct]
    exact ⟨p, o', rfl, ha, he⟩

/-- There is one error at a position at most. -/
theorem eq_of_path_eq (h : s.Recounts run log out results o) {e e' : LocatedError}
    (he : e ∈ out.errors) (he' : e' ∈ out.errors) (hpath : e.path = e'.path) : e = e' := by
  have hdistinct := h.reaches.yields.distinctKeys
  obtain ⟨p, x, hp, ha, herror⟩ :=
    (Outcome.mem_errors_iff hdistinct).1 (h.reaches.errors.mem_iff.1 he)
  obtain ⟨p', x', hp', ha', herror'⟩ :=
    (Outcome.mem_errors_iff hdistinct).1 (h.reaches.errors.mem_iff.1 he')
  obtain rfl : p = p' := by simpa [hp, hp'] using hpath
  obtain rfl := Option.some.inj (ha.symm.trans ha')
  obtain ⟨path, error⟩ := e
  obtain ⟨path', error'⟩ := e'
  obtain rfl : error = error' := Option.some.inj (herror.symm.trans herror')
  obtain rfl : path = path' := hpath
  rfl

end Recounts

/-- **The kind of an error says what failed.** Where resolvers and custom scalars fail without a
more specific kind, each error of an execution is of a kind that tells the cause for which its
position fails, and no position fails without an error. -/
theorem execute_classifies (hplain : s.registry.FailsPlainly)
    (h : s.EndsWith run state log out) :
    ∃ results o, s.Recounts run log out results o ∧
      (∀ e ∈ out.errors, ∀ cause,
        e.error.kind.cause = cause ↔ s.FailsBy run results log e.path cause) ∧
      ∀ p cause, s.FailsBy run results log p cause →
        ∃ e ∈ out.errors, e.path = p ∧ e.error.kind.cause = cause := by
  obtain ⟨results, o, hr⟩ := h.exists_recounts
  refine ⟨results, o, hr, ?_, fun p cause => (hr.exists_error_iff hplain).2⟩
  intro e he cause
  constructor
  · intro hcause
    exact (hr.exists_error_iff hplain).1 ⟨e, he, rfl, hcause⟩
  · intro hf
    obtain ⟨e', he', hpath, hcause⟩ := (hr.exists_error_iff hplain).2 hf
    rw [hr.eq_of_path_eq he he' hpath.symm]
    exact hcause

end Schema

/-! ## A sample -/

namespace Failing

/-- Needs an argument that the sample does not give. -/
def find : Field Unit :=
  ⟨"find", none, [⟨"key", none, .nonNull (.named "Int"), none⟩], .named "Int", .current,
    some fun _ _ state => (.ready (.ok (.int 1)), state)⟩

def broken : Field Unit :=
  ⟨"broken", none, [], .named "Int", .current,
    some fun _ _ state => (.ready (.error (.resolver "broken")), state)⟩

def root : ObjectType Unit :=
  ⟨"Query", none, .eager [find, broken, ⟨"some", none, [], .named "Named", .current, none⟩,
    ⟨"names", none, [], .list (.nonNull (.named "String")), .current, none⟩,
    ⟨"count", none, [], .named "Int", .current, none⟩], []⟩

def schema : Schema Unit :=
  ⟨⟨[.interface Sample.named, .object root], by
      change ["String", "Int", "Float", "Boolean", "ID", "Named", "Query"].Nodup
      decide⟩,
    "Query", none, false, rfl, rfl, rfl, by simp⟩

/-- Something without a type, a `null` among names, and a list where a number should be. -/
def run : Run :=
  ⟨⟨.query, none, [Sample.field "find" [], Sample.field "broken" [],
      Sample.field "some" [Sample.field "name" []], Sample.field "names" [],
      Sample.field "count" []]⟩,
    .object [("some", .object []), ("names", .list [.null]), ("count", .list [])], []⟩

/-- The data are all `null`. -/
def data : Value :=
  .object [("find", .null), ("broken", .null), ("some", .null), ("names", .null),
    ("count", .null)]

/-- The errors in the order in which they are recorded. -/
def errors : List LocatedError :=
  [⟨[.field "find"], .ofFault (.missingArgument "find" "key" (.nonNull (.named "Int")))⟩,
    ⟨[.field "broken"], .resolver "broken"⟩,
    ⟨[.field "some"], .ofFault (.unresolvedType "Named")⟩,
    ⟨[.field "names", .index 0], .ofFault (.nullInNonNull (.nonNull (.named "String")))⟩,
    ⟨[.field "count"], .ofFault (.scalarValue "Int" (some "non-integer") (.list []))⟩]

theorem ending_execute :
    (schema.execute none run ()).ending = .ok (.ok ⟨data, LocatedError.sorted errors⟩) :=
  Schema.ending_execute rfl 80 rfl

theorem failsPlainly_schema : schema.registry.FailsPlainly := by
  constructor
  · intro s hs
    simp [schema] at hs
  · intro s hs
    simp [schema] at hs
  · intro o ho field hfield resolver hr parent arguments state e hg
    obtain rfl : o = root := by simpa [schema] using ho
    have hfields : root.fields = [find, broken, _, _, _] := rfl
    simp only [hfields, List.mem_cons, List.not_mem_nil, or_false] at hfield
    rcases hfield with rfl | rfl | rfl | rfl | rfl
    · cases hr
      cases hg
    · cases hr
      obtain rfl := Except.error.inj hg
      rfl
    · cases hr
    · cases hr
    · cases hr

/-- The sample fails in every way that there is. -/
theorem execute_classifies_sample :
    schema.registry.FailsPlainly ∧
      schema.EndsWith run () (schema.execute none run ()).log
        ⟨data, LocatedError.sorted errors⟩ ∧
      ∃ results, ∀ p cause,
        schema.FailsBy run results (schema.execute none run ()).log p cause ↔
          (p, cause) ∈ [([.field "find"], .arguments), ([.field "broken"], .resolver),
            ([.field "some"], .dispatch), ([.field "names", .index 0], .null),
            ([.field "count"], Cause.serialization)] := by
  have hends := Schema.endsWith_execute ending_execute
  obtain ⟨results, o, -, hkinds, hfails⟩ :=
    Schema.execute_classifies failsPlainly_schema hends
  have hmem : ∀ e, e ∈ LocatedError.sorted errors ↔ e ∈ errors := fun e => List.mem_mergeSort
  have hrecorded : ∀ e ∈ errors, schema.FailsBy run results (schema.execute none run ()).log
      e.path e.error.kind.cause := fun e he => (hkinds e ((hmem e).2 he) _).1 rfl
  simp only [errors, List.forall_mem_cons, List.not_mem_nil, false_imp_iff, implies_true,
    and_true] at hrecorded
  obtain ⟨hfind, hbroken, hsome, hnames, hcount⟩ := hrecorded
  refine ⟨failsPlainly_schema, hends, results, ?_⟩
  intro p cause
  constructor
  · intro h
    obtain ⟨e, he, rfl, rfl⟩ := hfails p cause h
    rw [hmem] at he
    simp only [errors, List.mem_cons, List.not_mem_nil, or_false] at he
    rcases he with rfl | rfl | rfl | rfl | rfl <;> decide
  · intro h
    simp only [List.mem_cons, List.not_mem_nil, or_false, Prod.mk.injEq] at h
    rcases h with ⟨rfl, rfl⟩ | ⟨rfl, rfl⟩ | ⟨rfl, rfl⟩ | ⟨rfl, rfl⟩ | ⟨rfl, rfl⟩
    · exact hfind
    · exact hbroken
    · exact hsome
    · exact hnames
    · exact hcount

end Failing

end GraphQL
