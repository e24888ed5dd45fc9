import GraphQL.Proofs.Execution.Evaluation
import GraphQL.Proofs.Outcome.Executions

/-!
# Data conforms to what was asked for

`Context.Conforms` says which data fits a field, a value or an object, by recursion on the declared
type and on what is selected. The data of every execution is `null` or fits the root and the
selections of the operation (`EndsWith.conforms`): the result of every outcome fits its position
(`Yields.conforms`).
-/

namespace GraphQL

namespace Registry

variable {σ : Type}

/-- May a value of the named type belong to the object type? It is the named type itself, or one of
its possible types. -/
def MayBe (r : Registry σ) (name : String) (o : ObjectType σ) : Prop :=
  r.get? name = some (.object o) ∨ o ∈ r.possibleTypes name

theorem mayBe_of_shapeNamed {r : Registry σ} {name : String} {v : Value} {o : ObjectType σ}
    (h : r.shapeNamed name v = .ok (.object o)) : r.MayBe name o := by
  obtain ⟨hg, hn | hp⟩ := object_of_shapeNamed h
  · exact .inl (hn ▸ hg)
  · exact .inr (mem_possibleTypes_of_isPossible hg hp)

end Registry

namespace Context

variable {σ : Type}

/-- The data that fits a position. A value fits by its declared type; the data of an object has the
response keys that are selected for its object type, in the order in which they first come. -/
inductive Conforms (ctx : Context σ) : Spot σ → Value → Prop where
  | nonNull {t v selections r} (hr : r ≠ .null) (h : Conforms ctx (.value t v selections) r) :
    Conforms ctx (.value (.nonNull t) v selections) r
  | null {type v selections} (ht : type.isNonNull = false) :
    Conforms ctx (.value type v selections) .null
  | leaf {name v selections r t serialize} (ht : ctx.schema.registry.get? name = some t)
    (hs : t.serialize? = some serialize) (hv : serialize v = .ok r) :
    Conforms ctx (.value (.named name) v selections) r
  | list {item vs selections rs} (hl : rs.length = vs.length)
    (h : ∀ (i : Nat) (v r : Value), vs[i]? = some v → rs[i]? = some r →
      Conforms ctx (.value item v selections) r) :
    Conforms ctx (.value (.list item) (.list vs) selections) (.list rs)
  | composite {name v selections o r} (ho : ctx.schema.registry.MayBe name o)
    (h : Conforms ctx (.object (.named name) o v selections) r) :
    Conforms ctx (.value (.named name) v selections) r
  | object {type o v selections entries}
    (hk : Keyed.keys entries =
      ((ctx.schema.registry.flatten o selections).map FieldNode.responseKey).eraseDups)
    (h : ∀ key r, (key, r) ∈ entries → Conforms ctx
      (.field o v (Registry.nodesOf key (ctx.schema.registry.flatten o selections))) r) :
    Conforms ctx (.object type o v selections) (.object entries)
  | typename {o parent node rest} (hn : node.name = "__typename") :
    Conforms ctx (.field o parent (node :: rest)) (.string o.name)
  | unresolved {o parent node rest field} (hn : node.name ≠ "__typename")
    (hf : o.field? node.name = some field) (ht : field.type.isNonNull = false) :
    Conforms ctx (.field o parent (node :: rest)) .null
  | resolved {o parent node rest field arguments v r} (hn : node.name ≠ "__typename")
    (hf : o.field? node.name = some field)
    (ha : ctx.schema.registry.coerceArguments field node.arguments ctx.vars = .ok arguments)
    (hr : field.Gives parent arguments (.ok v))
    (h : Conforms ctx (.value field.type v ((node :: rest).flatMap FieldNode.children)) r) :
    Conforms ctx (.field o parent (node :: rest)) r

variable {ctx : Context σ} {type : TypeRef} {v r : Value} {selections : List Selection}

/-! ## What fits a value of a shape -/

theorem conforms_of_shape_leaf (h : ctx.schema.registry.shape type v = .ok (.leaf r))
    (hr : r ≠ .null) : ctx.Conforms (.value type v selections) r := by
  induction type with
  | nonNull t ih => exact .nonNull hr (ih h)
  | list item => cases v <;> simp [Registry.shape] at h
  | named name =>
    obtain ⟨t, serialize, ht, hs, hv⟩ := Registry.serialize_of_shapeNamed h
    exact .leaf ht hs hv

theorem conforms_of_shape_list {item : TypeRef} {vs rs : List Value}
    (h : ctx.schema.registry.shape type v = .ok (.list item vs)) (hl : rs.length = vs.length)
    (hi : ∀ (i : Nat) (v r : Value), vs[i]? = some v → rs[i]? = some r →
      ctx.Conforms (.value item v selections) r) :
    ctx.Conforms (.value type v selections) (.list rs) := by
  induction type with
  | nonNull t ih => exact .nonNull nofun (ih h)
  | list item' =>
    cases v with
    | list items =>
      simp only [Registry.shape, Except.ok.injEq, Shape.list.injEq] at h
      obtain ⟨rfl, rfl⟩ := h
      exact .list hl hi
    | _ => simp [Registry.shape] at h
  | named name => exact absurd h Registry.shapeNamed_ne_list

theorem conforms_of_shape_object {o : ObjectType σ}
    (h : ctx.schema.registry.shape type v = .ok (.object o))
    (ho : ctx.Conforms (.object type o v selections) r) :
    ctx.Conforms (.value type v selections) r := by
  cases ho with
  | object hk hf =>
    induction type with
    | nonNull t ih => exact .nonNull nofun (ih h)
    | list item => cases v <;> simp [Registry.shape] at h
    | named name => exact .composite (Registry.mayBe_of_shapeNamed h) (.object hk hf)

/-! ## The results of outcomes conform -/

/-- The data that an outcome of a position may have. The data of an object is `null` if its type
allows; any other position has data that fits. -/
def Admits (ctx : Context σ) : Spot σ → Value → Prop
  | .object type o v selections, r =>
    ctx.Conforms (.object type o v selections) r ∨ (r = .null ∧ type.isNonNull = false)
  | spot, r => ctx.Conforms spot r

/-- **The result of an outcome fits its position.** -/
theorem Yields.admits {spot : Spot σ} {path : Path} {outcome : Outcome}
    (h : ctx.Yields spot path outcome) (hr : outcome.completion = some r) :
    ctx.Admits spot r := by
  induction h generalizing r with
  | typename hn =>
    rw [Outcome.completion, Option.some.injEq] at hr
    subst hr
    exact .typename hn
  | refused hn hf ha =>
    rw [Outcome.completion] at hr
    obtain ⟨rfl, ht⟩ := (TypeRef.eq_or_of_settled_eq_some hr).resolve_left (by simp)
    exact .unresolved hn hf ht
  | unresolved hn hf ha hg =>
    rw [Outcome.completion] at hr
    obtain ⟨rfl, ht⟩ := (TypeRef.eq_or_of_settled_eq_some hr).resolve_left (by simp)
    exact .unresolved hn hf ht
  | resolved hn hf ha hg h ih => exact .resolved hn hf ha hg (ih hr)
  | null =>
    rw [Outcome.completion] at hr
    rcases TypeRef.eq_or_of_settled_eq_some hr with ⟨heq, hne⟩ | ⟨rfl, ht⟩
    · exact absurd (Option.some.inj heq).symm hne
    · exact .null ht
  | misfit hv hs =>
    rw [Outcome.completion] at hr
    obtain ⟨rfl, ht⟩ := (TypeRef.eq_or_of_settled_eq_some hr).resolve_left (by simp)
    exact .null ht
  | leaf hv hs =>
    rw [Outcome.completion] at hr
    rcases TypeRef.eq_or_of_settled_eq_some hr with ⟨heq, hne⟩ | ⟨rfl, ht⟩
    · rw [Option.some.injEq] at heq
      exact conforms_of_shape_leaf (heq ▸ hs) hne
    · exact .null ht
  | list hv hs hl h ih =>
    rw [Outcome.completion] at hr
    rcases TypeRef.eq_or_of_settled_eq_some hr with ⟨heq, -⟩ | ⟨rfl, ht⟩
    · obtain ⟨rs, hrs, rfl⟩ := Option.map_eq_some_iff.1 heq
      have hlength := (Outcome.length_of_values? hrs).trans hl
      refine conforms_of_shape_list hs hlength ?_
      intro i v r hi hri
      obtain ⟨o, ho, hc⟩ := Outcome.getElem?_of_values? hrs hri
      exact ih i v o hi ho hc
    · exact .null ht
  | object hv hs h ih =>
    rcases ih hr with h | ⟨rfl, ht⟩
    · exact conforms_of_shape_object hs h
    · exact .null ht
  | fields hk hc h ih =>
    rw [Outcome.completion] at hr
    rcases TypeRef.eq_or_of_settled_eq_some hr with ⟨heq, -⟩ | ⟨rfl, ht⟩
    · obtain ⟨entries, he, rfl⟩ := Option.map_eq_some_iff.1 heq
      refine .inl (.object ?_ ?_)
      · rw [Outcome.keys_of_entries? he, hk, Registry.keys_collect]
      · intro key r hm
        obtain ⟨call?, o, ho, hc⟩ := Outcome.mem_of_entries? he hm
        obtain ⟨nodes, hn⟩ := Keyed.exists_mem_of_keys_eq hk ho
        rw [← (Registry.mem_collect_iff.1 hn).1]
        exact ih key nodes call? o hn ho hc
    · exact .inr ⟨rfl, ht⟩

end Context

namespace Schema

variable {σ : Type} {s : Schema σ} {run : Run} {state : σ} {out : Output}

/-- However an execution is interleaved, its data is `null` or fits what was asked for. -/
theorem EndsWith.conforms {log : List Entry} (h : s.EndsWith run state log out) :
    out.data = .null ∨ ∃ root, s.root? run.operation.kind = some root ∧
      Context.Conforms ⟨0, s, run.vars⟩
        (.object (.named root.name) root run.root run.operation.selections) out.data := by
  obtain ⟨o, hr⟩ := h.exists_outcome
  obtain ⟨root, hroot, hy⟩ := hr.yields
  rcases hy.admits hr.completion with hc | ⟨hnull, -⟩
  · exact .inr ⟨root, hroot, hc⟩
  · exact .inl hnull

/-- **The data of an execution is `null` or fits what was asked for.** -/
theorem execute_conforms {limit? : Option Nat}
    (h : (s.execute limit? run state).ending = .ok (.ok out)) :
    out.data = .null ∨ ∃ root, s.root? run.operation.kind = some root ∧
      Context.Conforms ⟨0, s, run.vars⟩
        (.object (.named root.name) root run.root run.operation.selections) out.data :=
  (endsWith_execute h).conforms

/-- The data of the sample is not `null`, so it fits. -/
theorem execute_conforms_sample :
    (Sample.schema.execute none Sample.run ()).ending =
        .ok (.ok ⟨Sample.data, LocatedError.sorted Sample.errors⟩) ∧
      ∃ root, Sample.schema.root? .query = some root ∧
        Context.Conforms ⟨0, Sample.schema, []⟩
          (.object (.named root.name) root Sample.run.root Sample.operation.selections)
          Sample.data := by
  refine ⟨Sample.ending_execute, ?_⟩
  rcases execute_conforms Sample.ending_execute with h | h
  · nomatch h
  · exact h

end Schema

end GraphQL
