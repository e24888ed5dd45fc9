import GraphQL.Proofs.Execution.Evaluation
import GraphQL.Proofs.Outcome.Leads
import GraphQL.Proofs.Validity

/-!
# Every lookup of an execution succeeds

Executing looks up types and fields by name: the root, the fields of an object, the type that a
reference ends in, the types that literals are coerced to. `Context.Finds` has one rule for each
lookup that succeeds and none for one that fails; every step downwards keeps it (`Finds.step`), so
an operation that can be bound never falls back on an arm for a lookup that failed
(`execute_finds`). That is all due to the rules of schemas.
-/

namespace GraphQL

namespace Variables

/-- Coercing the literal against the type comes to coercing `given` to the named type. What is given
is what stands behind variables; lists are taken apart as far as the type is one of lists. -/
inductive Hands (vars : Variables) : TypeRef → InputValue → Bool → String → InputValue → Bool → Prop
  where
  | nonNull {inner literal flag found flag' name given given'}
    (hf : vars.follow literal flag = (found, flag')) (hn : found ≠ .null)
    (h : Hands vars inner found flag' name given given') :
    Hands vars (.nonNull inner) literal flag name given given'
  | item {item literal flag items flag' found name given given'}
    (hf : vars.follow literal flag = (.list items, flag')) (hi : found ∈ items)
    (h : Hands vars item found flag' name given given') :
    Hands vars (.list item) literal flag name given given'
  | single {item literal flag found flag' name given given'}
    (hf : vars.follow literal flag = (found, flag')) (hn : found ≠ .null)
    (hl : ∀ items, found ≠ .list items) (h : Hands vars item found flag' name given given') :
    Hands vars (.list item) literal flag name given given'
  | named {name literal flag given flag'} (hf : vars.follow literal flag = (given, flag'))
    (hn : given ≠ .null) : Hands vars (.named name) literal flag name given flag'

/-- Coercing the literal against the type comes to a literal that is coerced to the named type. -/
def Meets (vars : Variables) (type : TypeRef) (literal : InputValue) (fromVariable : Bool)
    (name : String) : Prop :=
  ∃ given flag, vars.Hands type literal fromVariable name given flag

theorem Hands.innermost_eq {vars : Variables} {type : TypeRef} {literal given : InputValue}
    {fromVariable flag : Bool} {name : String}
    (h : vars.Hands type literal fromVariable name given flag) : type.innermost = name := by
  induction h with
  | nonNull _ _ _ ih => exact ih
  | item _ _ _ ih => exact ih
  | single _ _ _ _ ih => exact ih
  | named => rfl

end Variables

namespace Registry

variable {σ : Type} {r r' : Registry σ} {vars : Variables}

theorem mapM_congr {α β : Type} {f g : α → Except FieldError β} {xs : List α}
    (h : ∀ x ∈ xs, f x = g x) : xs.mapM f = xs.mapM g := by
  induction xs with
  | nil => rfl
  | cons x rest ih =>
    have hx := h x List.mem_cons_self
    have hrest := ih fun y hy => h y (List.mem_cons_of_mem x hy)
    rw [List.mapM_cons, List.mapM_cons, hx, hrest]

/-- Coercion does nothing with a registry but coerce what it hands to named types. -/
theorem coerce_eq_of_hands {type : TypeRef} {literal : InputValue} {fromVariable : Bool}
    (h : ∀ name given flag, vars.Hands type literal fromVariable name given flag →
      r.coerceNamed name given flag = r'.coerceNamed name given flag) :
    r.coerce vars type literal fromVariable = r'.coerce vars type literal fromVariable := by
  induction type generalizing literal fromVariable with
  | named name =>
    rw [coerce, coerce]
    split
    · rfl
    · next given flag hn hf => exact h name given flag (.named hf hn)
  | nonNull inner ih =>
    rw [coerce, coerce]
    split
    · rfl
    · next found flag hn hf =>
      exact ih fun name given flag' hm => h name given flag' (.nonNull hf hn hm)
  | list item ih =>
    rw [coerce, coerce]
    split
    · rfl
    · next items flag hf =>
      have hitems : ∀ found ∈ items,
          r.coerce vars item found flag = r'.coerce vars item found flag := by
        intro found hi
        exact ih fun name given flag' hm => h name given flag' (.item hf hi hm)
      rw [mapM_congr hitems]
    · next found flag hn hl hf =>
      have hsingle : r.coerce vars item found flag = r'.coerce vars item found flag :=
        ih fun name given flag' hm => h name given flag' (.single hf hn hl hm)
      rw [hsingle]

/-- Coercion looks up no names but those that it meets. -/
theorem coerce_eq_of_meets {type : TypeRef} {literal : InputValue} {fromVariable : Bool}
    (h : ∀ name, vars.Meets type literal fromVariable name → r.get? name = r'.get? name) :
    r.coerce vars type literal fromVariable = r'.coerce vars type literal fromVariable := by
  apply coerce_eq_of_hands
  intro name given flag hg
  have hget := h name ⟨given, flag, hg⟩
  rw [coerceNamed, coerceNamed, hget]

/-- The items of a list are of a type that the rules allow if the list is. -/
theorem Refers.of_shape {type item : TypeRef} {v : Value} {vs : List Value} (h : r.Refers type)
    (hs : r.shape type v = .ok (.list item vs)) : r.Refers item := by
  induction type with
  | named name => exact absurd hs shapeNamed_ne_list
  | nonNull t ih =>
    refine ih ⟨?_, h.registered⟩ hs
    have hnested := h.nested
    rw [TypeRef.hasNestedNonNull, Bool.or_eq_false_iff] at hnested
    exact hnested.2
  | list item' =>
    cases v with
    | list items =>
      simp only [shape, Except.ok.injEq, Shape.list.injEq] at hs
      obtain ⟨rfl, rfl⟩ := hs
      exact ⟨h.nested, h.registered⟩
    | _ => cases hs

end Registry

namespace Context

variable {σ : Type} {ctx : Context σ}

/-- All literals for the arguments of a field are coerced to scalars and enums that are
registered. -/
def FindsInputs (ctx : Context σ) (field : Field σ) : Prop :=
  ∀ arg ∈ field.arguments, ∀ literal fromVariable name,
    ctx.vars.Meets arg.type literal fromVariable name →
    ∃ t, ctx.schema.registry.get? name = some t ∧ t.isInput = true

/-- What is looked up at a position is there: the first node of a response key and its declaration
on the object type, the named type of a value and the way to complete values of its kind. No
non-null marker stands on another one. -/
inductive Finds (ctx : Context σ) : Spot σ → Prop where
  | typename {o parent node rest} (ho : ctx.schema.registry.get? o.name = some (.object o))
    (hn : node.name = "__typename") : Finds ctx (.field o parent (node :: rest))
  | field {o parent node rest field} (ho : ctx.schema.registry.get? o.name = some (.object o))
    (hn : node.name ≠ "__typename") (hf : o.field? node.name = some field)
    (hi : ctx.FindsInputs field) : Finds ctx (.field o parent (node :: rest))
  | leaf {type v selections t serialize} (hn : type.hasNestedNonNull = false)
    (ht : ctx.schema.registry.lookup? type = some t) (hs : t.serialize? = some serialize) :
    Finds ctx (.value type v selections)
  | composite {type v selections t} (hn : type.hasNestedNonNull = false)
    (ht : ctx.schema.registry.lookup? type = some t) (hk : t.kind.isComposite = true) :
    Finds ctx (.value type v selections)
  | object {type o v selections} (ho : ctx.schema.registry.get? o.name = some (.object o)) :
    Finds ctx (.object type o v selections)

namespace Finds

/-- A value of a type that the rules allow is completed by the kind of the type. -/
theorem value {type : TypeRef} {v : Value} {selections : List Selection}
    (h : ctx.schema.registry.Refers type) : ctx.Finds (.value type v selections) := by
  obtain ⟨t, ht⟩ := h.registered
  cases t with
  | scalar s => exact .leaf h.nested ht rfl
  | enum e => exact .leaf h.nested ht rfl
  | object o => exact .composite h.nested ht rfl
  | interface i => exact .composite h.nested ht rfl
  | union u => exact .composite h.nested ht rfl

theorem refers {type : TypeRef} {v : Value} {selections : List Selection}
    (h : ctx.Finds (.value type v selections)) : ctx.schema.registry.Refers type := by
  cases h with
  | leaf hn ht => exact ⟨hn, _, ht⟩
  | composite hn ht => exact ⟨hn, _, ht⟩

theorem get?_of_field {o : ObjectType σ} {parent : Value} {nodes : List (FieldNode Selection)}
    (h : ctx.Finds (.field o parent nodes)) :
    ctx.schema.registry.get? o.name = some (.object o) := by
  cases h with
  | typename ho _ => exact ho
  | field ho _ _ _ => exact ho

theorem findsInputs {field : Field σ} (h : ctx.schema.registry.ValidField field) :
    ctx.FindsInputs field := by
  intro arg harg literal fromVariable name hm
  have hvalid := h.arguments arg harg
  obtain ⟨t, ht⟩ := hvalid.refers.registered
  obtain ⟨given, flag, hgiven⟩ := hm
  refine ⟨t, ?_, hvalid.input t ht⟩
  rw [← hgiven.innermost_eq]
  exact ht

/-- The fields that are selected for an object are `__typename` or declared. -/
theorem select {o : ObjectType σ} {v : Value} {selections : List Selection}
    {key : String} {nodes : List (FieldNode Selection)}
    (ho : ctx.schema.registry.get? o.name = some (.object o))
    (hm : (key, nodes) ∈ ctx.schema.registry.collect o selections) :
    ctx.Finds (.field o v nodes) := by
  cases nodes with
  | nil => exact absurd rfl (Registry.mem_collect_iff.1 hm).2
  | cons node rest =>
    have hdeclares : o.declares node.name = true :=
      Registry.declares_of_mem_collect hm List.mem_cons_self
    by_cases hn : node.name = "__typename"
    · exact .typename ho hn
    · simp only [ObjectType.declares, Bool.or_eq_true, beq_iff_eq, hn, false_or] at hdeclares
      obtain ⟨field, hf⟩ := Option.isSome_iff_exists.1 hdeclares
      have hvalid := ctx.schema.validField_of_field? ho hf
      exact .field ho hn hf (findsInputs hvalid)

/-- **Where lookups succeed, they succeed one step further.** -/
theorem step {a b : Spot σ} {p : Path} (hs : ctx.Step a p b) (h : ctx.Finds a) : ctx.Finds b := by
  cases hs with
  | resolve hn hf _ _ =>
    cases h with
    | typename _ hn' => exact absurd hn' hn
    | field ho _ _ _ =>
      have hvalid := ctx.schema.validField_of_field? ho hf
      exact value hvalid.refers
  | item _ hshape _ => exact value (h.refers.of_shape hshape)
  | belong _ hshape => exact .object (Registry.get?_of_shape hshape)
  | select hm =>
    cases h with
    | object ho => exact select ho hm

end Finds

end Context

namespace Schema

variable {σ : Type} {s : Schema σ} {run : Run}

theorem Visits.finds {p : Path} {spot : Spot σ} (h : s.Visits run p spot) :
    Context.Finds ⟨0, s, run.vars⟩ spot := by
  obtain ⟨root, hroot, hl⟩ := h
  obtain ⟨name, -, ho⟩ := Option.bind_eq_some_iff.1 hroot
  have hget := Registry.get?_name (Registry.object?_eq_some_iff.1 ho)
  exact hl.invariant Context.Finds.step (.object hget)

/-- **Every lookup of an execution succeeds.** An operation that can be bound has a root to start
at, and wherever executing it may come to, everything that is looked up there is found; coercing a
literal looks up no names but those that it meets. All positions of an execution that has come to
its end are among those that executing may come to. -/
theorem execute_finds (hb : s.bind run.operation = []) :
    (∃ root, s.root? run.operation.kind = some root) ∧
    (∀ p spot, s.Visits run p spot → Context.Finds ⟨0, s, run.vars⟩ spot) ∧
    (∀ (r : Registry σ) type literal fromVariable,
      (∀ name, run.vars.Meets type literal fromVariable name →
        s.registry.get? name = r.get? name) →
      s.registry.coerce run.vars type literal fromVariable =
        r.coerce run.vars type literal fromVariable) ∧
    ∀ state log out, s.EndsWith run state log out → ∃ o, s.Reaches run log out o ∧
      ∀ p o', o.at? p = some o' →
        ∃ spot, s.Visits run p spot ∧ Context.Yields ⟨0, s, run.vars⟩ spot p o' := by
  refine ⟨exists_root_of_bind hb, fun p spot => Visits.finds,
    fun r type literal fromVariable => Registry.coerce_eq_of_meets, ?_⟩
  intro state log out hends
  obtain ⟨o, hr⟩ := hends.exists_outcome
  refine ⟨o, hr, ?_⟩
  intro p o' ha
  exact hr.yields.exists_visits ha

/-- The sample starts at its root and finds whatever it looks up. -/
theorem execute_finds_sample :
    Sample.schema.bind Sample.run.operation = [] ∧
      (∃ root, Sample.schema.root? .query = some root) ∧
      ∀ p spot, Sample.schema.Visits Sample.run p spot →
        Context.Finds ⟨0, Sample.schema, []⟩ spot := by
  have hb : Sample.schema.bind Sample.run.operation = [] := rfl
  obtain ⟨hroot, hfinds, -⟩ := execute_finds hb
  exact ⟨hb, hroot, hfinds⟩

end Schema

end GraphQL
