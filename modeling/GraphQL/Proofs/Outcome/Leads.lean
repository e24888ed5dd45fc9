import GraphQL.Proofs.Outcome.Executions

/-!
# What an execution comes to

`Context.Step` is one step of an execution downwards: from a field to its value, from a value to its
items or to its object, from an object to its fields. `Context.Leads` is any number of steps, with
the path that they go down. It knows of requests, types and resolvers only: which positions have a
value in the end does not matter. Every position of an outcome is among those that steps lead to
(`Yields.exists_leads`), so whatever each step keeps holds wherever an execution comes
(`Leads.invariant`).
-/

namespace GraphQL

namespace Context

variable {σ : Type} {ctx : Context σ}

/-- One step downwards, with the segment that it adds to the path, if any. -/
inductive Step (ctx : Context σ) : Spot σ → Path → Spot σ → Prop where
  | resolve {o parent node rest field arguments v} (hn : node.name ≠ "__typename")
    (hf : o.field? node.name = some field)
    (ha : ctx.schema.registry.coerceArguments field node.arguments ctx.vars = .ok arguments)
    (hr : field.Gives parent arguments (.ok v)) :
    Step ctx (.field o parent (node :: rest)) []
      (.value field.type v ((node :: rest).flatMap FieldNode.children))
  | item {type v selections item vs i w} (hv : v ≠ .null)
    (hs : ctx.schema.registry.shape type v = .ok (.list item vs)) (hi : vs[i]? = some w) :
    Step ctx (.value type v selections) [.index i] (.value item w selections)
  | belong {type v selections o} (hv : v ≠ .null)
    (hs : ctx.schema.registry.shape type v = .ok (.object o)) :
    Step ctx (.value type v selections) [] (.object type o v selections)
  | select {type o v selections key nodes}
    (hn : (key, nodes) ∈ ctx.schema.registry.collect o selections) :
    Step ctx (.object type o v selections) [.field key] (.field o v nodes)

/-- Any number of steps downwards, with the path that they go. -/
inductive Leads (ctx : Context σ) : Spot σ → Path → Spot σ → Prop where
  | here {a} : Leads ctx a [] a
  | step {a b c p q} (h : ctx.Step a p b) (hl : Leads ctx b q c) : Leads ctx a (p ++ q) c

namespace Leads

variable {a b c : Spot σ} {p q : Path}

theorem single (h : ctx.Step a p b) : ctx.Leads a p b := by
  simpa using Leads.step h .here

theorem trans (hab : ctx.Leads a p b) (hbc : ctx.Leads b q c) : ctx.Leads a (p ++ q) c := by
  induction hab with
  | here => exact hbc
  | step h _ ih =>
    rw [List.append_assoc]
    exact .step h (ih hbc)

/-- What every step keeps holds wherever steps lead. -/
theorem invariant {P : Spot σ → Prop} (keeps : ∀ {a p b}, ctx.Step a p b → P a → P b)
    (h : ctx.Leads a p b) (ha : P a) : P b := by
  induction h with
  | here => exact ha
  | step h _ ih => exact ih (keeps h ha)

end Leads

/-! ## Positions of outcomes -/

/-- One segment further down, steps have led to what is done there. -/
theorem Yields.exists_leads_child {spot : Spot σ} {path : Path} {o child : Outcome}
    {segment : PathSegment} (h : ctx.Yields spot path o) (hc : o.child? segment = some child) :
    ∃ spot', ctx.Leads spot [segment] spot' ∧ ctx.Yields spot' (path ++ [segment]) child := by
  induction h with
  | resolved hn hf ha hr _ ih =>
    obtain ⟨spot', hl, hy⟩ := ih hc
    exact ⟨spot', .step (.resolve hn hf ha hr) hl, hy⟩
  | @list _ _ _ _ item vs items hv hs hl h =>
    cases segment with
    | field key => nomatch hc
    | index i =>
      have hlt : i < vs.length := by
        rw [← hl]
        exact (List.getElem?_eq_some_iff.1 hc).1
      have hi : vs[i]? = some vs[i] := List.getElem?_eq_getElem hlt
      exact ⟨_, .single (.item hv hs hi), h i vs[i] child hi hc⟩
  | object hv hs _ ih =>
    obtain ⟨spot', hl, hy⟩ := ih hc
    exact ⟨spot', .step (.belong hv hs) hl, hy⟩
  | fields hk _ h =>
    cases segment with
    | index i => nomatch hc
    | field key =>
      obtain ⟨⟨call?, o⟩, hg, rfl⟩ := Option.map_eq_some_iff.1 hc
      have hm := Keyed.mem_of_get?_eq_some hg
      obtain ⟨nodes, hn⟩ := Keyed.exists_mem_of_keys_eq hk hm
      exact ⟨_, .single (.select hn), h key nodes call? o hn hm⟩
  | _ => nomatch hc

/-- Every response key that is selected for an object has an outcome. -/
theorem Yields.exists_selected {type : TypeRef} {o : ObjectType σ} {v : Value}
    {selections : List Selection} {path : Path} {outcome : Outcome} {key : String}
    {nodes : List (FieldNode Selection)}
    (h : ctx.Yields (.object type o v selections) path outcome)
    (hn : (key, nodes) ∈ ctx.schema.registry.collect o selections) :
    ∃ child, outcome.child? (.field key) = some child ∧
      ctx.Yields (.field o v nodes) (path.field key) child := by
  have hk := h.distinctKeys
  cases h with
  | fields hkeys _ h =>
    obtain ⟨⟨call?, child⟩, hm⟩ := Keyed.exists_mem_of_keys_eq hkeys.symm hn
    refine ⟨child, ?_, h key nodes call? child hn hm⟩
    cases hk with
    | object hnodup _ => exact (Outcome.child?_object_eq_some_iff hnodup).2 ⟨key, call?, rfl, hm⟩

/-- At every position of an outcome, steps have led to what is done there. -/
theorem Yields.exists_leads {spot : Spot σ} {path p : Path} {o o' : Outcome}
    (h : ctx.Yields spot path o) (ha : o.at? p = some o') :
    ∃ spot', ctx.Leads spot p spot' ∧ ctx.Yields spot' (path ++ p) o' := by
  induction p generalizing spot path o with
  | nil =>
    rw [Outcome.at?_nil, Option.some.injEq] at ha
    exact ⟨spot, .here, by rwa [List.append_nil, ← ha]⟩
  | cons segment p ih =>
    obtain ⟨child, hc, ha⟩ := Outcome.at?_cons_eq_some_iff.1 ha
    obtain ⟨spot₁, hl₁, hy₁⟩ := h.exists_leads_child hc
    obtain ⟨spot₂, hl₂, hy₂⟩ := ih hy₁ ha
    refine ⟨spot₂, hl₁.trans hl₂, ?_⟩
    rwa [List.append_assoc, List.singleton_append] at hy₂

end Context

namespace Schema

variable {σ : Type} {s : Schema σ} {run : Run}

/-- Executing the operation may come to do this at the position. -/
def Visits (s : Schema σ) (run : Run) (p : Path) (spot : Spot σ) : Prop :=
  ∃ root, s.root? run.operation.kind = some root ∧
    Context.Leads ⟨0, s, run.vars⟩
      (.object (.named root.name) root run.root run.operation.selections) p spot

/-- Steps that stay at a position are taken there. -/
theorem Visits.of_leads {p : Path} {spot spot' : Spot σ} (h : s.Visits run p spot)
    (hl : Context.Leads ⟨0, s, run.vars⟩ spot [] spot') : s.Visits run p spot' := by
  obtain ⟨root, hroot, h⟩ := h
  refine ⟨root, hroot, ?_⟩
  simpa using h.trans hl

theorem Yields.exists_visits {o o' : Outcome} {p : Path} (h : s.Yields run o)
    (ha : o.at? p = some o') :
    ∃ spot, s.Visits run p spot ∧ Context.Yields ⟨0, s, run.vars⟩ spot p o' := by
  obtain ⟨root, hroot, hy⟩ := h
  obtain ⟨spot, hl, hy'⟩ := hy.exists_leads ha
  exact ⟨spot, ⟨root, hroot, hl⟩, hy'⟩

end Schema

end GraphQL
