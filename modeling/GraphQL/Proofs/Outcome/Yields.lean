import GraphQL.Proofs.Outcome.Result
import GraphQL.Proofs.Outcome.Shape
import GraphQL.Proofs.Collection
import GraphQL.Proofs.Execution.Runs

/-!
# Which outcomes an execution may have

`Context.Yields` says which outcome a field, a value or an object may have, by the declared types,
by what is selected, and by what resolvers may answer; no jobs, turns or promises occur in it. It
has one rule for every way in which a position can come out.
-/

namespace GraphQL

/-- The resolver of the field may give the result; without one, the parent value gives it. -/
def Field.Gives {σ : Type} (field : Field σ) (parent : Value) (arguments : Arguments)
    (result : Except FieldError Value) : Prop :=
  match field.resolver? with
  | some resolver => ∃ state, (resolver parent arguments state).1.Gives result
  | none => result = .ok ((parent.entry? field.name).getD .null)

/-- What is done at a position: a field is resolved, a value is completed, or the fields of an
object are selected from a value. -/
inductive Spot (σ : Type) where
  | field (o : ObjectType σ) (parent : Value) (nodes : List (FieldNode Selection))
  | value (type : TypeRef) (v : Value) (selections : List Selection)
  | object (type : TypeRef) (o : ObjectType σ) (v : Value) (selections : List Selection)

namespace Context

variable {σ : Type}

/-- The call that is made for a response key: of the resolver of the field that the first node
names, if its arguments can be coerced. -/
def call? (ctx : Context σ) (o : ObjectType σ) (parent : Value)
    (nodes : List (FieldNode Selection)) (path : Path) : Option Call :=
  match nodes with
  | [] => none
  | node :: _ =>
    if node.name = "__typename" then none
    else match o.field? node.name with
      | none => none
      | some field =>
        match ctx.schema.registry.coerceArguments field node.arguments ctx.vars with
        | .error _ => none
        | .ok arguments => field.resolver?.map fun _ =>
          ⟨ctx.run, o.name, field.name, path, parent, arguments⟩

/-- The outcomes that a position may have. -/
inductive Yields (ctx : Context σ) : Spot σ → Path → Outcome → Prop where
  | typename {o parent node rest path} (hn : node.name = "__typename") :
    Yields ctx (.field o parent (node :: rest)) path (.typename o.name)
  | refused {o parent node rest path field error} (hn : node.name ≠ "__typename")
    (hf : o.field? node.name = some field)
    (ha : ctx.schema.registry.coerceArguments field node.arguments ctx.vars = .error error) :
    Yields ctx (.field o parent (node :: rest)) path (.failed field.type error)
  | unresolved {o parent node rest path field arguments error} (hn : node.name ≠ "__typename")
    (hf : o.field? node.name = some field)
    (ha : ctx.schema.registry.coerceArguments field node.arguments ctx.vars = .ok arguments)
    (hr : field.Gives parent arguments (.error error)) :
    Yields ctx (.field o parent (node :: rest)) path (.failed field.type error)
  | resolved {o parent node rest path field arguments v outcome}
    (hn : node.name ≠ "__typename") (hf : o.field? node.name = some field)
    (ha : ctx.schema.registry.coerceArguments field node.arguments ctx.vars = .ok arguments)
    (hr : field.Gives parent arguments (.ok v))
    (h : Yields ctx (.value field.type v ((node :: rest).flatMap FieldNode.children)) path
      outcome) :
    Yields ctx (.field o parent (node :: rest)) path outcome
  | null {type selections path} : Yields ctx (.value type .null selections) path (.null type)
  | misfit {type v selections path error} (hv : v ≠ .null)
    (hs : ctx.schema.registry.shape type v = .error error) :
    Yields ctx (.value type v selections) path (.failed type error)
  | leaf {type v selections path literal} (hv : v ≠ .null)
    (hs : ctx.schema.registry.shape type v = .ok (.leaf literal)) :
    Yields ctx (.value type v selections) path (.leaf type literal)
  | list {type v selections path item vs items} (hv : v ≠ .null)
    (hs : ctx.schema.registry.shape type v = .ok (.list item vs))
    (hl : items.length = vs.length)
    (h : ∀ (i : Nat) (v : Value) (o : Outcome), vs[i]? = some v → items[i]? = some o →
      Yields ctx (.value item v selections) (path.index i) o) :
    Yields ctx (.value type v selections) path (.list type items)
  | object {type v selections path o outcome} (hv : v ≠ .null)
    (hs : ctx.schema.registry.shape type v = .ok (.object o))
    (h : Yields ctx (.object type o v selections) path outcome) :
    Yields ctx (.value type v selections) path outcome
  | fields {type o v selections path fields}
    (hk : Keyed.keys fields = Keyed.keys (ctx.schema.registry.collect o selections))
    (hc : ∀ key nodes call? outcome, (key, nodes) ∈ ctx.schema.registry.collect o selections →
      (key, call?, outcome) ∈ fields → call? = ctx.call? o v nodes (path.field key))
    (h : ∀ key nodes call? outcome, (key, nodes) ∈ ctx.schema.registry.collect o selections →
      (key, call?, outcome) ∈ fields → Yields ctx (.field o v nodes) (path.field key) outcome) :
    Yields ctx (.object type o v selections) path (.object type o.name fields)

/-- Response keys are distinct in every object that an execution reaches. -/
theorem Yields.distinctKeys {ctx : Context σ} {spot : Spot σ} {path : Path} {outcome : Outcome}
    (h : ctx.Yields spot path outcome) : outcome.DistinctKeys := by
  induction h with
  | typename => exact .typename
  | refused => exact .failed
  | unresolved => exact .failed
  | resolved _ _ _ _ _ ih => exact ih
  | null => exact .null
  | misfit => exact .failed
  | leaf => exact .leaf
  | @list _ _ _ _ _ vs items _ _ hl _ ih =>
    refine .list ?_
    intro o ho
    obtain ⟨i, hi⟩ := List.getElem?_of_mem ho
    have hlt : i < vs.length := by
      rw [← hl]
      exact (List.getElem?_eq_some_iff.1 hi).1
    exact ih i vs[i] o (List.getElem?_eq_getElem hlt) hi
  | object _ _ _ ih => exact ih
  | @fields _ _ _ _ _ fields hk _ _ ih =>
    have hnodup : (Keyed.keys fields).Nodup := by
      rw [hk]
      exact Registry.nodup_keys_collect ..
    refine .object hnodup ?_
    intro key call? o ho
    obtain ⟨nodes, hn⟩ := Keyed.exists_mem_of_keys_eq hk ho
    exact ih key nodes call? o hn ho

end Context

end GraphQL
