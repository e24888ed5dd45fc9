import GraphQL.Proofs.Outcome.Leads

/-!
# Executions by what their fields gave

An operation may have many outcomes, for resolvers need not give the same twice. What the fields of
one execution gave are its `Results`, by position. They settle the rest: `Context.Recounts` is
`Context.Yields` with the results of the fields below a position, and `Context.ComesTo` are the
steps downwards that an execution with these results takes. Every spot that it comes to is one of a
position of the outcome (`ComesTo.exists_at?`), and it comes to every position
(`Recounts.exists_comesTo`). Every execution can be recounted so
(`Schema.EndsWith.exists_recounts`), and what is said of its positions can be said of the spots that
it comes to.
-/

namespace GraphQL

/-- Two members of one key are one member. -/
theorem Keyed.eq_of_mem {α : Type} {m : Keyed α} (hn : (keys m).Nodup) {key : String}
    {x y : α} (hx : (key, x) ∈ m) (hy : (key, y) ∈ m) : x = y := by
  have hget := (get?_eq_some_iff hn).2 hx
  exact Option.some.inj (hget.symm.trans ((get?_eq_some_iff hn).2 hy))

/-- What the field at a position gave, for the positions at and below some position. -/
abbrev Results := Path → Except FieldError Value

namespace Results

/-- The results further down. -/
def below (results : Results) (p : Path) : Results :=
  fun q => results (p ++ q)

theorem below_below (results : Results) (p q : Path) :
    (results.below p).below q = results.below (p ++ q) := by
  funext r
  rw [below, below, below, List.append_assoc]

/-- The results below a list, from those of each of its items. -/
def ofItems (results : Nat → Results) : Results
  | .index i :: p => results i p
  | _ => .ok .null

/-- The results below an object, from those of the field of each response key. -/
def ofFields (results : String → Results) : Results
  | .field key :: p => results key p
  | _ => .ok .null

variable {σ : Type}

/-- A step from a field to its value goes to what the field gave. -/
def Agrees (results : Results) : Spot σ → Spot σ → Prop
  | .field .., .value _ v _ => results [] = .ok v
  | _, _ => True

end Results

namespace Context

variable {σ : Type}

/-- The outcome that a position has when the fields at and below it give these results. -/
inductive Recounts (ctx : Context σ) : Results → Spot σ → Path → Outcome → Prop where
  | typename {results o parent node rest path} (hn : node.name = "__typename") :
    Recounts ctx results (.field o parent (node :: rest)) path (.typename o.name)
  | refused {results o parent node rest path field error} (hn : node.name ≠ "__typename")
    (hf : o.field? node.name = some field)
    (ha : ctx.schema.registry.coerceArguments field node.arguments ctx.vars = .error error) :
    Recounts ctx results (.field o parent (node :: rest)) path (.failed field.type error)
  | unresolved {results o parent node rest path field arguments error}
    (hn : node.name ≠ "__typename") (hf : o.field? node.name = some field)
    (ha : ctx.schema.registry.coerceArguments field node.arguments ctx.vars = .ok arguments)
    (hr : field.Gives parent arguments (.error error)) (hg : results [] = .error error) :
    Recounts ctx results (.field o parent (node :: rest)) path (.failed field.type error)
  | resolved {results o parent node rest path field arguments v outcome}
    (hn : node.name ≠ "__typename") (hf : o.field? node.name = some field)
    (ha : ctx.schema.registry.coerceArguments field node.arguments ctx.vars = .ok arguments)
    (hr : field.Gives parent arguments (.ok v)) (hg : results [] = .ok v)
    (h : Recounts ctx results (.value field.type v ((node :: rest).flatMap FieldNode.children)) path
      outcome) :
    Recounts ctx results (.field o parent (node :: rest)) path outcome
  | null {results type selections path} :
    Recounts ctx results (.value type .null selections) path (.null type)
  | misfit {results type v selections path error} (hv : v ≠ .null)
    (hs : ctx.schema.registry.shape type v = .error error) :
    Recounts ctx results (.value type v selections) path (.failed type error)
  | leaf {results type v selections path literal} (hv : v ≠ .null)
    (hs : ctx.schema.registry.shape type v = .ok (.leaf literal)) :
    Recounts ctx results (.value type v selections) path (.leaf type literal)
  | list {results type v selections path item vs items} (hv : v ≠ .null)
    (hs : ctx.schema.registry.shape type v = .ok (.list item vs))
    (hl : items.length = vs.length)
    (h : ∀ (i : Nat) (v : Value) (o : Outcome), vs[i]? = some v → items[i]? = some o →
      Recounts ctx (results.below [.index i]) (.value item v selections) (path.index i) o) :
    Recounts ctx results (.value type v selections) path (.list type items)
  | object {results type v selections path o outcome} (hv : v ≠ .null)
    (hs : ctx.schema.registry.shape type v = .ok (.object o))
    (h : Recounts ctx results (.object type o v selections) path outcome) :
    Recounts ctx results (.value type v selections) path outcome
  | fields {results type o v selections path fields}
    (hk : Keyed.keys fields = Keyed.keys (ctx.schema.registry.collect o selections))
    (hc : ∀ key nodes call? outcome, (key, nodes) ∈ ctx.schema.registry.collect o selections →
      (key, call?, outcome) ∈ fields → call? = ctx.call? o v nodes (path.field key))
    (h : ∀ key nodes call? outcome, (key, nodes) ∈ ctx.schema.registry.collect o selections →
      (key, call?, outcome) ∈ fields →
      Recounts ctx (results.below [.field key]) (.field o v nodes) (path.field key) outcome) :
    Recounts ctx results (.object type o v selections) path (.object type o.name fields)

/-- The spots that an execution with these results comes to, with the paths that lead to them. -/
inductive ComesTo (ctx : Context σ) : Results → Spot σ → Path → Spot σ → Prop where
  | here {results a} : ComesTo ctx results a [] a
  | step {results a b c p q} (h : ctx.Step a p b) (hg : results.Agrees a b)
    (hl : ComesTo ctx (results.below p) b q c) : ComesTo ctx results a (p ++ q) c

variable {ctx : Context σ} {results results' : Results} {a b c : Spot σ} {p q path : Path}
  {o o' child : Outcome}

namespace ComesTo

theorem single (h : ctx.Step a p b) (hg : results.Agrees a b) : ctx.ComesTo results a p b := by
  simpa using ComesTo.step h hg .here

theorem trans (hab : ctx.ComesTo results a p b) (hbc : ctx.ComesTo (results.below p) b q c) :
    ctx.ComesTo results a (p ++ q) c := by
  induction hab with
  | here => exact hbc
  | step h hg _ ih =>
    rw [← Results.below_below] at hbc
    rw [List.append_assoc]
    exact .step h hg (ih hbc)

theorem leads (h : ctx.ComesTo results a p b) : ctx.Leads a p b := by
  induction h with
  | here => exact .here
  | step h _ _ ih => exact .step h ih

end ComesTo

/-! ## The outcome at every position -/

theorem Recounts.yields (h : ctx.Recounts results a path o) : ctx.Yields a path o := by
  induction h with
  | typename hn => exact .typename hn
  | refused hn hf ha => exact .refused hn hf ha
  | unresolved hn hf ha hr _ => exact .unresolved hn hf ha hr
  | resolved hn hf ha hr _ _ ih => exact .resolved hn hf ha hr ih
  | null => exact .null
  | misfit hv hs => exact .misfit hv hs
  | leaf hv hs => exact .leaf hv hs
  | list hv hs hl _ ih => exact .list hv hs hl ih
  | object hv hs _ ih => exact .object hv hs ih
  | fields hk hc _ ih => exact .fields hk hc ih

/-- One segment further down, the execution has come to what is done there. -/
theorem Recounts.exists_comesTo_child {segment : PathSegment} (h : ctx.Recounts results a path o)
    (hc : o.child? segment = some child) :
    ∃ b, ctx.ComesTo results a [segment] b ∧
      ctx.Recounts (results.below [segment]) b (path ++ [segment]) child := by
  induction h with
  | resolved hn hf ha hr hg _ ih =>
    obtain ⟨b, hb, ht⟩ := ih hc
    exact ⟨b, .step (.resolve hn hf ha hr) hg hb, ht⟩
  | @list _ _ _ _ _ item vs items hv hs hl h =>
    obtain ⟨i, rfl, ho⟩ := Outcome.child?_list_eq_some_iff.1 hc
    have hlt : i < vs.length := by
      rw [← hl]
      exact (List.getElem?_eq_some_iff.1 ho).1
    have hi : vs[i]? = some vs[i] := List.getElem?_eq_getElem hlt
    exact ⟨_, .single (.item hv hs hi) trivial, h i vs[i] child hi ho⟩
  | object hv hs _ ih =>
    obtain ⟨b, hb, ht⟩ := ih hc
    exact ⟨b, .step (.belong hv hs) trivial hb, ht⟩
  | fields hk _ h =>
    cases segment with
    | index i => cases hc
    | field key =>
      obtain ⟨⟨call?, o⟩, hg, rfl⟩ := Option.map_eq_some_iff.1 hc
      have hm := Keyed.mem_of_get?_eq_some hg
      obtain ⟨nodes, hn⟩ := Keyed.exists_mem_of_keys_eq hk hm
      exact ⟨_, .single (.select hn) trivial, h key nodes call? o hn hm⟩
  | _ => cases hc

/-- At every position of the outcome, the execution has come to what is done there. -/
theorem Recounts.exists_comesTo (h : ctx.Recounts results a path o) (ha : o.at? p = some o') :
    ∃ b, ctx.ComesTo results a p b ∧ ctx.Recounts (results.below p) b (path ++ p) o' := by
  induction p generalizing results a path o with
  | nil =>
    rw [Outcome.at?_nil, Option.some.injEq] at ha
    exact ⟨a, .here, by rwa [List.append_nil, ← ha]⟩
  | cons segment p ih =>
    obtain ⟨child, hc, ha⟩ := Outcome.at?_cons_eq_some_iff.1 ha
    obtain ⟨b, hb, ht⟩ := h.exists_comesTo_child hc
    obtain ⟨c, hc, ht⟩ := ih ht ha
    refine ⟨c, hb.trans hc, ?_⟩
    rwa [List.append_assoc, List.singleton_append] at ht

/-- The outcome of a declared field is settled by its arguments and by what it gave. -/
theorem Recounts.of_field {x : ObjectType σ} {parent : Value} {node : FieldNode Selection}
    {rest : List (FieldNode Selection)} {field : Field σ}
    (h : ctx.Recounts results (.field x parent (node :: rest)) path o)
    (hn : node.name ≠ "__typename") (hf : x.field? node.name = some field) :
    match ctx.schema.registry.coerceArguments field node.arguments ctx.vars with
    | .error error => o = .failed field.type error
    | .ok arguments => field.Gives parent arguments (results []) ∧
      match results [] with
      | .error error => o = .failed field.type error
      | .ok v => ctx.Recounts results
        (.value field.type v ((node :: rest).flatMap FieldNode.children)) path o := by
  cases h with
  | typename hn' => exact absurd hn' hn
  | refused _ hf' ha =>
    obtain rfl := Option.some.inj (hf.symm.trans hf')
    rw [ha]
  | unresolved _ hf' ha hr hg =>
    obtain rfl := Option.some.inj (hf.symm.trans hf')
    rw [ha, hg]
    exact ⟨hr, rfl⟩
  | resolved _ hf' ha hr hg h =>
    obtain rfl := Option.some.inj (hf.symm.trans hf')
    rw [ha, hg]
    exact ⟨hr, h⟩

theorem Recounts.of_null {type : TypeRef} {selections : List Selection}
    (h : ctx.Recounts results (.value type .null selections) path o) : o = .null type := by
  cases h with
  | null => rfl
  | misfit hv _ | leaf hv _ | list hv _ _ _ | object hv _ _ => exact absurd rfl hv

/-- The outcome of a value that is not `null` is that of its shape. -/
theorem Recounts.of_value {type : TypeRef} {v : Value} {selections : List Selection}
    (hv : v ≠ .null) (h : ctx.Recounts results (.value type v selections) path o) :
    match ctx.schema.registry.shape type v with
    | .error e => o = .failed type e
    | .ok (.leaf literal) => o = .leaf type literal
    | .ok (.list item vs) => ∃ items, o = .list type items ∧ items.length = vs.length ∧
      ∀ (i : Nat) (v : Value) (o : Outcome), vs[i]? = some v → items[i]? = some o →
        ctx.Recounts (results.below [.index i]) (.value item v selections) (path.index i) o
    | .ok (.object x) => ctx.Recounts results (.object type x v selections) path o := by
  cases h with
  | null => exact absurd rfl hv
  | misfit _ hs | leaf _ hs => rw [hs]
  | list _ hs hl h =>
    rw [hs]
    exact ⟨_, rfl, hl, h⟩
  | object _ hs h =>
    rw [hs]
    exact h

/-- A step that agrees with the results leads to a position of the outcome. -/
theorem Recounts.exists_at?_of_step (h : ctx.Recounts results a path o) (hs : ctx.Step a p b)
    (hg : results.Agrees a b) :
    ∃ o', o.at? p = some o' ∧ ctx.Recounts (results.below p) b (path ++ p) o' := by
  have hdistinct := h.yields.distinctKeys
  cases hs with
  | resolve hn hf ha _ =>
    have hfield := h.of_field hn hf
    rw [ha] at hfield
    obtain ⟨-, hvalue⟩ := hfield
    have hgave : results [] = .ok _ := hg
    rw [hgave] at hvalue
    exact ⟨o, rfl, by rwa [List.append_nil]⟩
  | @item _ _ _ item vs i w hv hs hi =>
    have hlist := h.of_value hv
    rw [hs] at hlist
    obtain ⟨items, rfl, hl, hitems⟩ := hlist
    have hlt : i < items.length := by
      rw [hl]
      exact (List.getElem?_eq_some_iff.1 hi).1
    have ho : items[i]? = some items[i] := List.getElem?_eq_getElem hlt
    refine ⟨items[i], ?_, hitems i w items[i] hi ho⟩
    exact Outcome.at?_cons_eq_some_iff.2 ⟨items[i], ho, rfl⟩
  | belong hv hs =>
    have hobject := h.of_value hv
    rw [hs] at hobject
    exact ⟨o, rfl, by rwa [List.append_nil]⟩
  | @select type o v selections key nodes hn =>
    cases h with
    | fields hk _ h =>
      obtain ⟨⟨call?, child⟩, hm⟩ := Keyed.exists_mem_of_keys_eq hk.symm hn
      refine ⟨child, ?_, h key nodes call? child hn hm⟩
      cases hdistinct with
      | object hnodup _ =>
        refine Outcome.at?_cons_eq_some_iff.2 ⟨child, ?_, rfl⟩
        exact (Outcome.child?_object_eq_some_iff hnodup).2 ⟨key, call?, rfl, hm⟩

/-- Every spot that the execution comes to is one of a position of the outcome. -/
theorem ComesTo.exists_at? (hc : ctx.ComesTo results a p b) (h : ctx.Recounts results a path o) :
    ∃ o', o.at? p = some o' ∧ ctx.Recounts (results.below p) b (path ++ p) o' := by
  induction hc generalizing path o with
  | here => exact ⟨o, rfl, by rwa [List.append_nil]⟩
  | step hs hg _ ih =>
    obtain ⟨o₁, ha₁, h₁⟩ := h.exists_at?_of_step hs hg
    obtain ⟨o₂, ha₂, h₂⟩ := ih h₁
    refine ⟨o₂, ?_, ?_⟩
    · rw [Outcome.at?_append ha₁, ha₂]
    · rwa [Results.below_below, List.append_assoc] at h₂

/-- Where an object came out, the execution has come to the object. -/
theorem Recounts.exists_object {type : TypeRef} {name : String} {fields : Outcome.Fields}
    (h : ctx.Recounts results a path (.object type name fields)) :
    ∃ o v selections, ctx.ComesTo results a [] (.object type o v selections) ∧
      ctx.Recounts results (.object type o v selections) path (.object type name fields) := by
  generalize hout : Outcome.object type name fields = outcome at h
  induction h with
  | resolved hn hf ha hr hg _ ih =>
    obtain ⟨o, v, selections, hc, h⟩ := ih hout
    exact ⟨o, v, selections, .step (.resolve hn hf ha hr) hg hc, h⟩
  | object hv hs _ ih =>
    obtain ⟨o, v, selections, hc, h⟩ := ih hout
    exact ⟨o, v, selections, .step (.belong hv hs) trivial hc, h⟩
  | fields hk hc h _ =>
    cases hout
    exact ⟨_, _, _, .here, .fields hk hc h⟩
  | _ => cases hout

/-! ## The spots at a position -/

/-- Steps from one spot down one path go to one spot. -/
theorem Step.unique {p' q' : Path} (hs : ctx.Step a p b) (hs' : ctx.Step a p' c)
    (hg : results.Agrees a b) (hg' : results.Agrees a c) (hpath : p ++ q = p' ++ q') :
    p = p' ∧ b = c := by
  cases hs with
  | resolve hn hf ha _ =>
    cases hs' with
    | resolve _ hf' ha' _ =>
      obtain rfl := Option.some.inj (hf.symm.trans hf')
      obtain rfl := Except.ok.inj (hg.symm.trans hg')
      exact ⟨rfl, rfl⟩
  | item hv hs hi =>
    cases hs' with
    | item _ hs' hi' =>
      simp only [hs, Except.ok.injEq, Shape.list.injEq] at hs'
      obtain ⟨rfl, rfl⟩ := hs'
      obtain ⟨hsegment, -⟩ := List.cons.inj hpath
      cases hsegment
      obtain rfl := Option.some.inj (hi.symm.trans hi')
      exact ⟨rfl, rfl⟩
    | belong _ hs' => simp [hs] at hs'
  | belong hv hs =>
    cases hs' with
    | item _ hs' _ => simp [hs] at hs'
    | belong _ hs' =>
      simp only [hs, Except.ok.injEq, Shape.object.injEq] at hs'
      subst hs'
      exact ⟨rfl, rfl⟩
  | select hn =>
    cases hs' with
    | select hn' =>
      obtain ⟨hsegment, -⟩ := List.cons.inj hpath
      cases hsegment
      obtain rfl := Keyed.eq_of_mem (Registry.nodup_keys_collect ..) hn hn'
      exact ⟨rfl, rfl⟩

/-- Of two spots that the execution comes to at one position, it comes from one to the other. -/
theorem ComesTo.comparable (hb : ctx.ComesTo results a p b) (hc : ctx.ComesTo results a p c) :
    ctx.ComesTo (results.below p) b [] c ∨ ctx.ComesTo (results.below p) c [] b := by
  -- The steps to both are the same until one of them is reached.
  induction hb with
  | here => exact .inl hc
  | @step results a b₁ b p q hs hg hl ih =>
    generalize hpath : p ++ q = path at hc
    cases hc with
    | here =>
      obtain ⟨rfl, rfl⟩ := List.append_eq_nil_iff.1 hpath
      exact .inr (.step hs hg hl)
    | @step _ _ c₁ _ p' q' hs' hg' hl' =>
      obtain ⟨rfl, rfl⟩ := hs.unique hs' hg hg' hpath
      obtain rfl := List.append_cancel_left hpath
      rw [← Results.below_below]
      exact ih hl'

/-- The execution comes to one object at a position at most. -/
theorem ComesTo.object_unique {type type' : TypeRef} {x y : ObjectType σ} {v w : Value}
    {selections selections' : List Selection}
    (h : ctx.ComesTo results a p (.object type x v selections))
    (h' : ctx.ComesTo results a p (.object type' y w selections')) :
    Spot.object type x v selections = Spot.object type' y w selections' := by
  have stays : ∀ {type x v selections b}, ctx.ComesTo (results.below p)
      (.object type x v selections) [] b → Spot.object type x v selections = b := by
    intro type x v selections b hb
    generalize hpath : ([] : Path) = path at hb
    cases hb with
    | here => rfl
    | step hs _ _ =>
      cases hs with
      | select => cases hpath
  rcases h.comparable h' with hc | hc
  · exact stays hc
  · exact (stays hc).symm

/-- The execution comes to a field from the object that the field is selected for. -/
theorem ComesTo.exists_object {x : ObjectType σ} {v : Value} {nodes : List (FieldNode Selection)}
    (h : ctx.ComesTo results a p (.field x v nodes)) : (a = .field x v nodes ∧ p = []) ∨
      ∃ q key type selections, p = q.field key ∧
        ctx.ComesTo results a q (.object type x v selections) ∧
        (key, nodes) ∈ ctx.schema.registry.collect x selections := by
  generalize hspot : Spot.field x v nodes = spot at h
  induction h with
  | here => exact .inl ⟨rfl, rfl⟩
  | @step results a b _ p q hs hg _ ih =>
    subst hspot
    right
    rcases ih rfl with ⟨rfl, rfl⟩ | ⟨q', key, type, selections, rfl, hobject, hm⟩
    · cases hs with
      | @select type _ _ selections key _ hm =>
        exact ⟨[], key, type, selections, rfl, .here, hm⟩
    · refine ⟨p ++ q', key, type, selections, ?_, .step hs hg hobject, hm⟩
      rw [Path.field, Path.field, List.append_assoc]

/-! ## Every outcome comes from results -/

/-- What the field at the position itself gave does not matter where it is resolved already. -/
theorem Recounts.congr_value {type : TypeRef} {v : Value} {selections : List Selection}
    (h : ctx.Recounts results (.value type v selections) path o)
    (hr : ∀ segment, results.below [segment] = results'.below [segment]) :
    ctx.Recounts results' (.value type v selections) path o := by
  cases h with
  | null => exact .null
  | misfit hv hs => exact .misfit hv hs
  | leaf hv hs => exact .leaf hv hs
  | list hv hs hl h =>
    refine .list hv hs hl ?_
    intro i v o hi ho
    rw [← hr]
    exact h i v o hi ho
  | object hv hs h =>
    cases h with
    | fields hk hc h =>
      refine .object hv hs (.fields hk hc ?_)
      intro key nodes call? outcome hn ho
      rw [← hr]
      exact h key nodes call? outcome hn ho

/-- Whatever outcome an operation may have, it has it for some results. -/
theorem Yields.exists_recounts (h : ctx.Yields a path o) :
    ∃ results, ctx.Recounts results a path o := by
  have nothing : Results := fun _ => .ok .null
  induction h with
  | typename hn => exact ⟨nothing, .typename hn⟩
  | refused hn hf ha => exact ⟨nothing, .refused hn hf ha⟩
  | @unresolved _ _ _ _ _ _ _ error hn hf ha hr =>
    exact ⟨fun _ => .error error, .unresolved hn hf ha hr rfl⟩
  | @resolved _ _ _ _ _ _ _ v _ hn hf ha hr _ ih =>
    obtain ⟨results, h⟩ := ih
    let resolved : Results := fun p => if p = [] then .ok v else results p
    refine ⟨resolved, .resolved hn hf ha hr rfl (h.congr_value ?_)⟩
    intro segment
    rfl
  | null => exact ⟨nothing, .null⟩
  | misfit hv hs => exact ⟨nothing, .misfit hv hs⟩
  | leaf hv hs => exact ⟨nothing, .leaf hv hs⟩
  | @list _ _ selections path item vs items hv hs hl _ ih =>
    -- Results are chosen for all indices at once, so those without an item need some as well.
    have hitem : ∀ i, ∃ results, ∀ v o, vs[i]? = some v → items[i]? = some o →
        ctx.Recounts results (.value item v selections) (path.index i) o := by
      intro i
      by_cases hi : i < items.length
      · have hvalue : vs[i]? = some vs[i] := List.getElem?_eq_getElem (hl ▸ hi)
        have hoItem : items[i]? = some items[i] := List.getElem?_eq_getElem hi
        obtain ⟨results, h⟩ := ih i vs[i] items[i] hvalue hoItem
        refine ⟨results, ?_⟩
        intro v o hv ho
        obtain rfl := Option.some.inj (hvalue.symm.trans hv)
        obtain rfl := Option.some.inj (hoItem.symm.trans ho)
        exact h
      · refine ⟨nothing, ?_⟩
        intro v o hv ho
        exact absurd (List.getElem?_eq_some_iff.1 ho).1 hi
    choose results h using hitem
    exact ⟨.ofItems results, .list hv hs hl h⟩
  | object hv hs _ ih =>
    obtain ⟨results, h⟩ := ih
    exact ⟨results, .object hv hs h⟩
  | @fields type o v selections path fields hk hc h ih =>
    have hcollected : (Keyed.keys (ctx.schema.registry.collect o selections)).Nodup :=
      Registry.nodup_keys_collect ..
    have hfield : ∀ key, ∃ results, ∀ nodes call? outcome,
        (key, nodes) ∈ ctx.schema.registry.collect o selections → (key, call?, outcome) ∈ fields →
        ctx.Recounts results (.field o v nodes) (path.field key) outcome := by
      intro key
      by_cases hkey : ∃ nodes call? outcome,
          (key, nodes) ∈ ctx.schema.registry.collect o selections ∧ (key, call?, outcome) ∈ fields
      · obtain ⟨nodes, call?, outcome, hn, hm⟩ := hkey
        obtain ⟨results, h⟩ := ih key nodes call? outcome hn hm
        refine ⟨results, ?_⟩
        intro nodes' call?' outcome' hn' hm'
        obtain rfl := Keyed.eq_of_mem hcollected hn hn'
        have heq := Keyed.eq_of_mem (hk ▸ hcollected) hm hm'
        obtain ⟨rfl, rfl⟩ := Prod.mk.inj heq
        exact h
      · refine ⟨nothing, ?_⟩
        intro nodes call? outcome hn hm
        exact absurd ⟨nodes, call?, outcome, hn, hm⟩ hkey
    choose results h using hfield
    exact ⟨.ofFields results, .fields hk hc h⟩

end Context

namespace Schema

variable {σ : Type} {s : Schema σ} {run : Run}

/-- The spots that an execution with these results comes to. -/
def ComesTo (s : Schema σ) (run : Run) (results : Results) (p : Path) (spot : Spot σ) : Prop :=
  ∃ root, s.root? run.operation.kind = some root ∧ Context.ComesTo ⟨0, s, run.vars⟩ results
    (.object (.named root.name) root run.root run.operation.selections) p spot

/-- The results are those of an execution with these data, errors and calls: they make for an
outcome that has all of them. -/
structure Recounts (s : Schema σ) (run : Run) (log : List Entry) (out : Output) (results : Results)
    (o : Outcome) : Prop where
  reaches : s.Reaches run log out o
  recounts : ∃ root, s.root? run.operation.kind = some root ∧
    Context.Recounts ⟨0, s, run.vars⟩ results
      (.object (.named root.name) root run.root run.operation.selections) [] o

theorem ComesTo.visits {results : Results} {p : Path} {spot : Spot σ}
    (h : s.ComesTo run results p spot) : s.Visits run p spot := by
  obtain ⟨root, hroot, h⟩ := h
  exact ⟨root, hroot, h.leads⟩

/-- Steps that stay at a position are taken there. -/
theorem ComesTo.stay {results : Results} {p : Path} {spot spot' : Spot σ}
    (h : s.ComesTo run results p spot)
    (hs : Context.ComesTo ⟨0, s, run.vars⟩ (results.below p) spot [] spot') :
    s.ComesTo run results p spot' := by
  obtain ⟨root, hroot, h⟩ := h
  refine ⟨root, hroot, ?_⟩
  simpa using h.trans hs

namespace ComesTo

variable {results : Results} {p : Path} {o o' : ObjectType σ} {v v' : Value}
  {nodes nodes' : List (FieldNode Selection)}

theorem exists_object (h : s.ComesTo run results p (.field o v nodes)) :
    ∃ q key type selections, p = q.field key ∧
      s.ComesTo run results q (.object type o v selections) ∧
      (key, nodes) ∈ s.registry.collect o selections := by
  obtain ⟨root, hroot, h⟩ := h
  rcases h.exists_object with ⟨hfield, -⟩ | ⟨q, key, type, selections, hp, hobject, hm⟩
  · cases hfield
  · exact ⟨q, key, type, selections, hp, ⟨root, hroot, hobject⟩, hm⟩

theorem select {type : TypeRef} {selections : List Selection} {key : String}
    (h : s.ComesTo run results p (.object type o v selections))
    (hm : (key, nodes) ∈ s.registry.collect o selections) :
    s.ComesTo run results (p.field key) (.field o v nodes) := by
  obtain ⟨root, hroot, h⟩ := h
  exact ⟨root, hroot, h.trans (.single (.select hm) trivial)⟩

/-- The execution comes to one field at a position at most. -/
theorem field_unique (h : s.ComesTo run results p (.field o v nodes))
    (h' : s.ComesTo run results p (.field o' v' nodes')) : o = o' ∧ v = v' ∧ nodes = nodes' := by
  obtain ⟨q, key, type, selections, rfl, ⟨root, hroot, hobject⟩, hm⟩ := h.exists_object
  obtain ⟨q', key', type', selections', hpath, ⟨root', hroot', hobject'⟩, hm'⟩ := h'.exists_object
  obtain rfl := Option.some.inj (hroot.symm.trans hroot')
  obtain ⟨rfl, hkey⟩ := List.append_inj' hpath rfl
  obtain rfl : key = key' := by simpa using hkey
  cases hobject.object_unique hobject'
  exact ⟨rfl, rfl, Keyed.eq_of_mem (Registry.nodup_keys_collect ..) hm hm'⟩

end ComesTo

namespace Recounts

variable {log : List Entry} {out : Output} {results : Results} {o o' : Outcome} {p : Path}
  {spot : Spot σ}

/-- Every spot that the execution comes to is one of a position of the outcome. -/
theorem exists_at? (h : s.Recounts run log out results o) (hc : s.ComesTo run results p spot) :
    ∃ o', o.at? p = some o' ∧
      Context.Recounts ⟨0, s, run.vars⟩ (results.below p) spot p o' := by
  obtain ⟨root, hroot, hr⟩ := h.recounts
  obtain ⟨root', hroot', hc⟩ := hc
  obtain rfl := Option.some.inj (hroot.symm.trans hroot')
  exact hc.exists_at? hr

/-- At every position of the outcome, the execution has come to what is done there. -/
theorem exists_comesTo (h : s.Recounts run log out results o) (ha : o.at? p = some o') :
    ∃ spot, s.ComesTo run results p spot ∧
      Context.Recounts ⟨0, s, run.vars⟩ (results.below p) spot p o' := by
  obtain ⟨root, hroot, hr⟩ := h.recounts
  obtain ⟨spot, hc, hr⟩ := hr.exists_comesTo ha
  exact ⟨spot, ⟨root, hroot, hc⟩, hr⟩

end Recounts

/-- **Every execution can be recounted** by what its fields gave. -/
theorem EndsWith.exists_recounts {state : σ} {log : List Entry} {out : Output}
    (h : s.EndsWith run state log out) : ∃ results o, s.Recounts run log out results o := by
  obtain ⟨o, hreaches⟩ := h.exists_outcome
  obtain ⟨root, hroot, hyields⟩ := hreaches.yields
  obtain ⟨results, hr⟩ := hyields.exists_recounts
  exact ⟨results, o, hreaches, root, hroot, hr⟩

end Schema

end GraphQL
