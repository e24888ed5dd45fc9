import GraphQL.Proofs.Renaming.Outcomes

/-!
# The jobs of a position under other response keys

The job of a renamed request goes in step with that of the request. At each position the two come to
one outcome: the errors and calls are those of the outcome, and so is what the first job ends with;
what the second job ends with is the result of the outcome renamed (`Context.Tells`). This is shown
for each of the ways in which jobs are built: for values by their types, then for fields and for
objects.
-/

namespace GraphQL

namespace Context

open Job

variable {σ : Type} {ρ : String → String} {ctx : Context σ} {object : ObjectJob σ}
  {selections : List Selection} {path : Path}

/-- What two jobs come to is told by one outcome that the position may have. -/
def Tells (ctx : Context σ) (ρ : String → String) (spot : Spot σ) (path : Path) (g : Gist)
    (completion completion' : Completion) : Prop :=
  ∃ o, ctx.Yields spot path o ∧ g = o.gist path ∧ completion = o.completion ∧
    completion' = (o.rename ρ).completion

/-! ## Failing and settling -/

theorem mirrors_fail {G : Gist → Completion → Completion → Prop} {error : FieldError}
    (h : G (Event.failed ⟨path, error⟩).gist none none) :
    Mirrors ρ ctx.run G (ctx.fail path error) (ctx.fail (path.rename ρ) error) := by
  refine .emit rfl (.done ?_)
  rw [Gist.before, add_zero]
  exact h

theorem mirrors_failField {spot : Spot σ} {type : TypeRef} {error : FieldError}
    (hy : ctx.Yields spot path (.failed type error)) :
    Mirrors ρ ctx.run (ctx.Tells ρ spot path) (ctx.failField type path error)
      (ctx.failField type (path.rename ρ) error) := by
  refine .emit rfl (.done ?_)
  rw [Gist.before, add_zero]
  exact ⟨_, hy, rfl, rfl, rfl⟩

/-- A `null` is settled as the outcome says: it stays, or it is an error. -/
theorem mirrors_settle_null {G : Gist → Completion → Completion → Prop} {type : TypeRef}
    (h : G ((Outcome.null type).gist path) (Outcome.null type).completion
      (Outcome.null type).completion) :
    Mirrors ρ ctx.run G (ctx.settle type path (some .null))
      (ctx.settle type (path.rename ρ) (some .null)) := by
  rw [Outcome.gist_null, Outcome.completion_null] at h
  rw [settle, settle]
  cases hn : type.isNonNull with
  | false =>
    rw [hn] at h
    exact .done h
  | true =>
    rw [hn] at h
    exact mirrors_fail h

/-! ## Values of named types -/

/-- What two jobs of an object come to before its `null` is settled. -/
def TellsObject (ctx : Context σ) (ρ : String → String) (type : TypeRef) (o : ObjectType σ)
    (v : Value) (selections : List Selection) (path : Path) (g : Gist)
    (completion completion' : Completion) : Prop :=
  ∃ fields : Outcome.Fields,
    ctx.Yields (.object type o v selections) path (.object type o.name fields) ∧
    g = (Outcome.object type o.name fields).gist path ∧
    completion = (Outcome.entries? fields).map .object ∧
    completion' = (Outcome.entries? (Outcome.renameFields ρ fields)).map .object

/-- Jobs of objects go in step, for requests that nest fields at most `depth` deep. -/
def ObjectsMirror (ctx : Context σ) (ρ : String → String) (object : ObjectJob σ) (depth : Nat) :
    Prop :=
  ∀ (type : TypeRef) (o : ObjectType σ) (v : Value) (selections : List Selection) (path : Path),
    Selection.depthAll selections ≤ depth →
    Set.InjOn ρ {key | key ∈ Selection.keysAll selections} →
    Mirrors ρ ctx.run (ctx.TellsObject ρ type o v selections path) (object o v selections path)
      (object o v (Selection.renameAll ρ selections) (path.rename ρ))

/-- What two jobs of a value that is not `null` come to before `null` is settled, by what the value
is. -/
def TellsShape (ctx : Context σ) (ρ : String → String) (outer : TypeRef) (v : Value)
    (selections : List Selection) (path : Path) : Except FieldError (Shape σ) → Gist →
    Completion → Completion → Prop
  | .error e, g, completion, completion' =>
    g = (Event.failed ⟨path, e⟩).gist ∧ completion = none ∧ completion' = none
  | .ok (.leaf literal), g, completion, completion' =>
    g = 0 ∧ completion = some literal ∧ completion' = some literal
  | .ok (.object o), g, completion, completion' =>
    ctx.TellsObject ρ outer o v selections path g completion completion'
  | .ok (.list ..), _, _, _ => False

variable {outer : TypeRef} {v : Value}

theorem mirrors_completeLeaf (serialize : Value → Except FieldError Value) :
    Mirrors ρ ctx.run (ctx.TellsShape ρ outer v selections path
        (((serialize v).mapError (·.orKind .serialization)).map .leaf))
      (ctx.completeLeaf serialize v path) (ctx.completeLeaf serialize v (path.rename ρ)) := by
  rw [completeLeaf, completeLeaf]
  cases serialize v with
  | ok literal => exact .done ⟨rfl, rfl, rfl⟩
  | error e => exact mirrors_fail ⟨rfl, rfl, rfl⟩

/-- The events around the dispatch of an abstract value are neither errors nor calls. -/
theorem mirrors_completeAbstract (abstract : String) (resolveType? : Option TypeResolver)
    (ho : ∀ o, Mirrors ρ ctx.run (ctx.TellsObject ρ outer o v selections path)
      (object o v selections path)
      (object o v (Selection.renameAll ρ selections) (path.rename ρ))) :
    Mirrors ρ ctx.run (ctx.TellsShape ρ outer v selections path
        ((ctx.schema.registry.dispatch abstract resolveType? v).map .object))
      (ctx.completeAbstract object abstract resolveType? v selections path)
      (ctx.completeAbstract object abstract resolveType? v (Selection.renameAll ρ selections)
        (path.rename ρ)) := by
  rw [completeAbstract, completeAbstract]
  refine Mirrors.emitAll ?_ ?_
  · intro event he
    split at he
    · obtain rfl := List.mem_singleton.1 he
      exact ⟨rfl, rfl⟩
    · cases he
  · cases ctx.schema.registry.dispatch abstract resolveType? v with
    | ok o =>
      have hdispatched : (Event.dispatched abstract o.name).gist = 0 := rfl
      refine .emit rfl ?_
      rw [hdispatched, Gist.zero_before]
      exact ho o
    | error e => exact mirrors_fail ⟨rfl, rfl, rfl⟩

theorem mirrors_completeNamed (name : String)
    (ho : ∀ o, Mirrors ρ ctx.run (ctx.TellsObject ρ outer o v selections path)
      (object o v selections path)
      (object o v (Selection.renameAll ρ selections) (path.rename ρ))) :
    Mirrors ρ ctx.run
      (ctx.TellsShape ρ outer v selections path (ctx.schema.registry.shapeNamed name v))
      (ctx.completeNamed object selections name v path)
      (ctx.completeNamed object (Selection.renameAll ρ selections) name v (path.rename ρ)) := by
  rw [completeNamed, completeNamed, Registry.shapeNamed]
  cases ctx.schema.registry.get? name with
  | none => exact mirrors_fail ⟨rfl, rfl, rfl⟩
  | some t =>
    cases t with
    | scalar s => exact mirrors_completeLeaf s.serialize
    | object o => exact ho o
    | enum e => exact mirrors_completeLeaf e.serialize
    | interface i => exact mirrors_completeAbstract i.name i.resolveType? ho
    | union u => exact mirrors_completeAbstract u.name u.resolveType? ho

/-- What a value of a shape comes to is settled to an outcome of its position. -/
theorem mirrors_settle_shape {shape : Except FieldError (Shape σ)} (hv : v ≠ .null)
    (hs : ctx.schema.registry.shape outer v = shape) {g : Gist}
    {completion completion' : Completion}
    (h : ctx.TellsShape ρ outer v selections path shape g completion completion') :
    Mirrors ρ ctx.run (g.before (ctx.Tells ρ (.value outer v selections) path))
      (ctx.settle outer path completion) (ctx.settle outer (path.rename ρ) completion') := by
  match shape, h with
  | .error e, ⟨hg, hc, hc'⟩ =>
    have hne : (none : Completion) ≠ some .null := nofun
    rw [hg, hc, hc', settle_of_ne_null hne, settle_of_ne_null hne]
    refine .done ⟨_, .misfit hv hs, ?_, rfl, rfl⟩
    rw [add_zero]
    rfl
  | .ok (.leaf literal), ⟨hg, hc, hc'⟩ =>
    rw [hg, hc, hc', Gist.zero_before]
    by_cases hl : literal = .null
    · subst hl
      refine mirrors_settle_null ⟨_, .leaf hv hs, ?_, rfl, rfl⟩
      simp [Outcome.gist, Outcome.errors, Outcome.error?, Outcome.calls, Value.isNull]
    · have hne : some literal ≠ some Value.null := fun heq => hl (Option.some.inj heq)
      have hnull : literal.isNull = false := by
        cases literal with
        | null => exact absurd rfl hl
        | _ => rfl
      rw [settle_of_ne_null hne, settle_of_ne_null hne]
      refine .done ⟨_, .leaf hv hs, ?_, rfl, rfl⟩
      simp [Outcome.gist, Outcome.errors, Outcome.error?, Outcome.calls, hnull]
      rfl
  | .ok (.object o), ⟨fields, hy, hg, hc, hc'⟩ =>
    have hne : ∀ fields, (Outcome.entries? fields).map Value.object ≠ some .null := by
      intro fields
      cases Outcome.entries? fields <;> simp
    rw [hg, hc, hc', settle_of_ne_null (hne _), settle_of_ne_null (hne _)]
    refine .done ⟨_, .object hv hs hy, ?_, ?_, ?_⟩
    · rw [add_zero]
    · rw [Outcome.completion]
    · rw [Outcome.rename, Outcome.completion]

/-- A value that does not fit its type fails the position in both jobs. -/
theorem mirrors_misfit {error : FieldError} (hv : v ≠ .null)
    (hs : ctx.schema.registry.shape outer v = .error error) :
    Mirrors ρ ctx.run (ctx.Tells ρ (.value outer v selections) path)
      ((ctx.fail path error).bind (ctx.settle outer path))
      ((ctx.fail (path.rename ρ) error).bind (ctx.settle outer (path.rename ρ))) := by
  have hfail : Mirrors ρ ctx.run (ctx.TellsShape ρ outer v selections path (.error error))
      (ctx.fail path error) (ctx.fail (path.rename ρ) error) := mirrors_fail ⟨rfl, rfl, rfl⟩
  refine Mirrors.bind _ hfail ?_
  intro g completion completion' h
  exact mirrors_settle_shape hv hs h

/-! ## Values -/

/-- What two rows of items come to is told by the outcomes of the items. -/
def TellsItems (ρ : String → String) (yields : Nat → Value → Outcome → Prop) (path : Path)
    (start : Nat) (vs : List Value) (g : Gist) (completions completions' : List Completion) :
    Prop :=
  ∃ items : List Outcome, items.length = vs.length ∧
    (∀ (i : Nat) (v : Value) (o : Outcome), vs[i]? = some v → items[i]? = some o →
      yields i v o) ∧
    g = .of (Outcome.itemErrors items path start) (Outcome.itemCalls items) ∧
    completions = items.map Outcome.completion ∧
    completions' = (Outcome.renameItems ρ items).map Outcome.completion

theorem mirrorsAll_items {run : Nat} (yields : Nat → Value → Outcome → Prop) (start : Nat)
    {job job' : Nat → Value → Job σ} {vs : List Value}
    (hj : ∀ (i : Nat) (v : Value), v ∈ vs →
      Mirrors ρ run (fun g completion completion' => ∃ o, yields i v o ∧
        g = o.gist (path.index (start + i)) ∧ completion = o.completion ∧
        completion' = (o.rename ρ).completion) (job i v) (job' i v)) :
    MirrorsAll ρ run (TellsItems ρ yields path start vs) (vs.mapIdx job) (vs.mapIdx job') := by
  induction vs generalizing yields start job job' with
  | nil => exact .nil ⟨[], rfl, by simp, rfl, rfl, rfl⟩
  | cons v vs ih =>
    have hrest : MirrorsAll ρ run (TellsItems ρ (fun i => yields (i + 1)) path (start + 1) vs)
        (vs.mapIdx fun i => job (i + 1)) (vs.mapIdx fun i => job' (i + 1)) := by
      refine ih _ _ ?_
      intro i v hv
      have hitem := hj (i + 1) v (List.mem_cons_of_mem _ hv)
      rwa [← Nat.add_assoc, Nat.add_right_comm] at hitem
    rw [List.mapIdx_cons, List.mapIdx_cons]
    refine .cons (hj 0 v List.mem_cons_self) hrest ?_
    rintro _ _ _ _ _ _ ⟨o, hy, rfl, rfl, rfl⟩ ⟨items, hl, hys, rfl, rfl, rfl⟩
    exact ⟨o :: items, by simp [hl], forall_getElem?_cons hy hys, (Gist.of_append ..).symm, rfl,
      rfl⟩

/-- What two jobs of a list come to before its `null` is settled. -/
def TellsList (ctx : Context σ) (ρ : String → String) (type : TypeRef) (v : Value)
    (selections : List Selection) (path : Path) (g : Gist) (completion completion' : Completion) :
    Prop :=
  ∃ items : List Outcome, ctx.Yields (.value type v selections) path (.list type items) ∧
    g = (Outcome.list type items).gist path ∧
    completion = (Outcome.values? items).map .list ∧
    completion' = (Outcome.values? (Outcome.renameItems ρ items)).map .list

/-- The completion of a value goes in step. The position may have another non-null marker than the
type that the value is completed against: that is settled last. -/
theorem mirrors_completeNullable {depth : Nat} (ho : ctx.ObjectsMirror ρ object depth)
    (hd : Selection.depthAll selections ≤ depth)
    (hρ : Set.InjOn ρ {key | key ∈ Selection.keysAll selections}) (type : TypeRef)
    (hs : ctx.schema.registry.shape outer v = ctx.schema.registry.shape type v) :
    Mirrors ρ ctx.run (ctx.Tells ρ (.value outer v selections) path)
      ((ctx.completeNullable object selections type v path).bind (ctx.settle outer path))
      ((ctx.completeNullable object (Selection.renameAll ρ selections) type v
        (path.rename ρ)).bind (ctx.settle outer (path.rename ρ))) := by
  -- the marker that `outer` has in addition is settled once, after all markers of `type` are gone
  induction type generalizing outer v path with
  | nonNull t ih => exact ih hs
  | named name =>
    by_cases hv : v = .null
    · subst hv
      exact mirrors_settle_null ⟨_, .null, rfl, rfl, rfl⟩
    · have hc : ∀ selections path, ctx.completeNullable object selections (.named name) v path =
          ctx.completeNamed object selections name v path := by
        intro selections path
        cases v with
        | null => exact absurd rfl hv
        | _ => rfl
      rw [hc, hc]
      have hobject := fun o => ho outer o v selections path hd hρ
      refine Mirrors.bind _ (mirrors_completeNamed name hobject) ?_
      intro g completion completion' h
      exact mirrors_settle_shape hv hs h
  | list item ih =>
    cases v with
    | null => exact mirrors_settle_null ⟨_, .null, rfl, rfl, rfl⟩
    | scalar s => exact mirrors_misfit nofun hs
    | object entries => exact mirrors_misfit nofun hs
    | list vs =>
      -- an item is settled at its own type, so no marker is left over
      have hitems : MirrorsAll ρ ctx.run (TellsItems ρ
            (fun i v o => ctx.Yields (.value item v selections) (path.index i) o) path 0 vs)
          (vs.mapIdx fun i v => ctx.complete object selections item v (path.index i))
          (vs.mapIdx fun i v => ctx.complete object (Selection.renameAll ρ selections) item v
            ((path.rename ρ).index i)) := by
        refine mirrorsAll_items _ 0 ?_
        intro i v _
        rw [Nat.zero_add, ← Path.rename_index]
        exact ih rfl
      have hrow : Mirrors ρ ctx.run (ctx.TellsList ρ outer (.list vs) selections path)
          (ctx.completeNullable object selections (.list item) (.list vs) path)
          (ctx.completeNullable object (Selection.renameAll ρ selections) (.list item) (.list vs)
            (path.rename ρ)) := by
        refine Mirrors.row hitems ?_
        rintro g completions completions' ⟨items, hl, hy, rfl, rfl, rfl⟩
        rw [assembleList, assembleList, values?_completions, values?_completions]
        exact .done ⟨items, .list nofun hs hl hy, add_zero _, rfl, rfl⟩
      refine Mirrors.bind _ hrow ?_
      rintro g completion completion' ⟨items, hy, rfl, rfl, rfl⟩
      have hne : ∀ items, (Outcome.values? items).map Value.list ≠ some .null := by
        intro items
        cases Outcome.values? items <;> simp
      rw [settle_of_ne_null (hne _), settle_of_ne_null (hne _)]
      refine .done ⟨_, hy, add_zero _, ?_, ?_⟩
      · rw [Outcome.completion]
      · rw [Outcome.rename, Outcome.completion]

/-! ## Fields -/

/-- What two jobs of a response key come to, with the call that is made for it. -/
def TellsField (ctx : Context σ) (ρ : String → String) (o : ObjectType σ) (parent : Value)
    (nodes : List (FieldNode Selection)) (path : Path) (g : Gist)
    (completion completion' : Completion) : Prop :=
  ∃ outcome, ctx.Yields (.field o parent nodes) path outcome ∧
    g = .of [] (ctx.call? o parent nodes path).toList + outcome.gist path ∧
    completion = outcome.completion ∧ completion' = (outcome.rename ρ).completion

variable {o : ObjectType σ} {parent : Value} {node : FieldNode Selection}
  {rest : List (FieldNode Selection)} {field : Field σ} {arguments : Arguments}

theorem call?_of_coerced (hn : node.name ≠ "__typename") (hf : o.field? node.name = some field)
    (ha : ctx.schema.registry.coerceArguments field node.arguments ctx.vars = .ok arguments) :
    ctx.call? o parent (node :: rest) path = field.resolver?.map fun _ =>
      ⟨ctx.run, o.name, field.name, path, parent, arguments⟩ := by
  simp [call?, hn, hf, ha]

/-- Once its call is made, jobs that tell the outcome of a field tell all of it. -/
theorem mirrors_of_call? {nodes : List (FieldNode Selection)} {c? : Option Call} {job job' : Job σ}
    (hc : ctx.call? o parent nodes path = c?)
    (h : Mirrors ρ ctx.run (ctx.Tells ρ (.field o parent nodes) path) job job') :
    Mirrors ρ ctx.run ((Gist.of [] c?.toList).before (ctx.TellsField ρ o parent nodes path)) job
      job' := by
  refine Mirrors.imp _ h ?_
  rintro g completion completion' ⟨outcome, hy, rfl, hcompletion⟩
  exact ⟨outcome, hy, by rw [hc], hcompletion⟩

theorem mirrors_of_call?_eq_none {nodes : List (FieldNode Selection)} {job job' : Job σ}
    (hc : ctx.call? o parent nodes path = none)
    (h : Mirrors ρ ctx.run (ctx.Tells ρ (.field o parent nodes) path) job job') :
    Mirrors ρ ctx.run (ctx.TellsField ρ o parent nodes path) job job' := by
  have hgist : Gist.of [] (none : Option Call).toList = 0 := rfl
  have hfield := mirrors_of_call? hc h
  rwa [hgist, Gist.zero_before] at hfield

theorem mirrors_completeField {depth : Nat} (ho : ctx.ObjectsMirror ρ object depth)
    (hd : Selection.depthAll ((node :: rest).flatMap FieldNode.children) ≤ depth)
    (hρ : Set.InjOn ρ {key | key ∈ Selection.keysAll ((node :: rest).flatMap FieldNode.children)})
    (hn : node.name ≠ "__typename") (hf : o.field? node.name = some field)
    (ha : ctx.schema.registry.coerceArguments field node.arguments ctx.vars = .ok arguments)
    {result : Except FieldError Value} (hr : field.Gives parent arguments result) :
    Mirrors ρ ctx.run (ctx.Tells ρ (.field o parent (node :: rest)) path)
      (ctx.completeField object (node :: rest) field.type path result)
      (ctx.completeField object ((node :: rest).map (FieldNode.rename ρ)) field.type
        (path.rename ρ) result) := by
  cases result with
  | error e => exact mirrors_failField (.unresolved hn hf ha hr)
  | ok v =>
    rw [completeField, completeField, FieldNode.flatMap_children_rename]
    refine Mirrors.imp _ (mirrors_completeNullable ho hd hρ field.type rfl) ?_
    rintro g completion completion' ⟨outcome, hy, hg, hc, hc'⟩
    exact ⟨outcome, .resolved hn hf ha hr hy, hg, hc, hc'⟩

theorem mirrors_resolveField {depth : Nat} (ho : ctx.ObjectsMirror ρ object depth)
    (hd : Selection.depthAll ((node :: rest).flatMap FieldNode.children) ≤ depth)
    (hρ : Set.InjOn ρ {key | key ∈ Selection.keysAll ((node :: rest).flatMap FieldNode.children)})
    (hn : node.name ≠ "__typename") (hf : o.field? node.name = some field) :
    Mirrors ρ ctx.run (ctx.TellsField ρ o parent (node :: rest) path)
      (ctx.resolveField object o parent (node :: rest) node field path)
      (ctx.resolveField object o parent ((node :: rest).map (FieldNode.rename ρ))
        (node.rename ρ) field (path.rename ρ)) := by
  rw [resolveField, resolveField, FieldNode.arguments_rename]
  cases ha : ctx.schema.registry.coerceArguments field node.arguments ctx.vars with
  | error e =>
    have hcall : ctx.call? o parent (node :: rest) path = none := by
      simp [call?, hn, hf, ha]
    exact mirrors_of_call?_eq_none hcall (mirrors_failField (.refused hn hf ha))
  | ok arguments =>
    have hcall : ctx.call? o parent (node :: rest) path = field.resolver?.map fun _ =>
      ⟨ctx.run, o.name, field.name, path, parent, arguments⟩ := call?_of_coerced hn hf ha
    dsimp only
    cases hres : field.resolver? with
    | none =>
      rw [hres, Option.map_none] at hcall
      refine mirrors_of_call?_eq_none hcall (mirrors_completeField ho hd hρ hn hf ha ?_)
      rw [Field.Gives, hres]
    | some resolver =>
      rw [hres, Option.map_some] at hcall
      refine .call rfl ?_
      intro state result hgives
      have hresult : field.Gives parent arguments result := by
        rw [Field.Gives, hres]
        exact ⟨state, hgives⟩
      exact mirrors_of_call? hcall (mirrors_completeField ho hd hρ hn hf ha hresult)

/-- A field that the object type declares goes in step. -/
theorem mirrors_fieldJob {depth : Nat} (ho : ctx.ObjectsMirror ρ object depth)
    {nodes : List (FieldNode Selection)}
    (hd : Selection.depthAll (nodes.flatMap FieldNode.children) ≤ depth)
    (hρ : Set.InjOn ρ {key | key ∈ Selection.keysAll (nodes.flatMap FieldNode.children)})
    (hne : nodes ≠ []) (hdecl : ∀ node ∈ nodes, o.declares node.name = true) :
    Mirrors ρ ctx.run (ctx.TellsField ρ o parent nodes path)
      (ctx.fieldJob object o parent nodes path)
      (ctx.fieldJob object o parent (nodes.map (FieldNode.rename ρ)) (path.rename ρ)) := by
  cases nodes with
  | nil => exact absurd rfl hne
  | cons node rest =>
    rw [List.map_cons, fieldJob, fieldJob, FieldNode.name_rename]
    by_cases hn : node.name = "__typename"
    · have hcall : ctx.call? o parent (node :: rest) path = none := by
        rw [call?, if_pos hn]
      rw [if_pos hn, if_pos hn]
      exact mirrors_of_call?_eq_none hcall (.done ⟨_, .typename hn, rfl, rfl, rfl⟩)
    · obtain ⟨field, hf⟩ : ∃ field, o.field? node.name = some field := by
        have hdeclared := hdecl node List.mem_cons_self
        simpa [ObjectType.declares, hn, Option.isSome_iff_exists] using hdeclared
      rw [if_neg hn, if_neg hn, hf]
      exact mirrors_resolveField ho hd hρ hn hf

/-! ## Objects and operations -/

/-- What two lists of jobs of response keys come to is told by the outcomes of the fields. -/
def TellsFields (ctx : Context σ) (ρ : String → String) (o : ObjectType σ) (v : Value)
    (groups : Groups) (path : Path) (g : Gist) (completions completions' : List Completion) :
    Prop :=
  ∃ fields : Outcome.Fields, Keyed.keys fields = Keyed.keys groups ∧
    (∀ key nodes call? outcome, (key, nodes) ∈ groups → (key, call?, outcome) ∈ fields →
      call? = ctx.call? o v nodes (path.field key) ∧
      ctx.Yields (.field o v nodes) (path.field key) outcome) ∧
    g = .of (Outcome.fieldErrors fields path) (Outcome.fieldCalls fields) ∧
    completions = (fields.map fun f => f.2.2.completion) ∧
    completions' = (Outcome.renameFields ρ fields).map fun f => f.2.2.completion

theorem fieldJobs_rename (o : ObjectType σ) (v : Value) (groups : Groups) (path : Path) :
    ctx.fieldJobs object o v (Registry.renameGroups ρ groups) (path.rename ρ) =
      groups.map fun (key, nodes) => ctx.fieldJob object o v (nodes.map (FieldNode.rename ρ))
        ((path.field key).rename ρ) := by
  rw [fieldJobs, Registry.renameGroups, List.map_map]
  simp only [Path.rename_field]
  rfl

theorem mirrorsAll_fieldJobs {groups : Groups} (hn : (Keyed.keys groups).Nodup)
    (hj : ∀ key nodes, (key, nodes) ∈ groups →
      Mirrors ρ ctx.run (ctx.TellsField ρ o v nodes (path.field key))
        (ctx.fieldJob object o v nodes (path.field key))
        (ctx.fieldJob object o v (nodes.map (FieldNode.rename ρ)) ((path.field key).rename ρ))) :
    MirrorsAll ρ ctx.run (ctx.TellsFields ρ o v groups path)
      (ctx.fieldJobs object o v groups path)
      (ctx.fieldJobs object o v (Registry.renameGroups ρ groups) (path.rename ρ)) := by
  rw [fieldJobs_rename, fieldJobs]
  induction groups with
  | nil => exact .nil ⟨[], rfl, by simp, rfl, rfl, rfl⟩
  | cons group groups ih =>
    obtain ⟨key, nodes⟩ := group
    simp only [Keyed.keys, List.map_cons, List.nodup_cons] at hn
    have hrest := ih hn.2 fun key nodes hm => hj key nodes (List.mem_cons_of_mem _ hm)
    refine .cons (hj key nodes List.mem_cons_self) hrest ?_
    rintro _ _ _ _ _ _ ⟨outcome, hy, rfl, rfl, rfl⟩ ⟨fields, hk, hys, rfl, rfl, rfl⟩
    refine ⟨(key, ctx.call? o v nodes (path.field key), outcome) :: fields, ?_, ?_, ?_, rfl, rfl⟩
    · simpa [Keyed.keys] using hk
    · intro key' nodes' call?' outcome' hg hf
      exact Keyed.forall_shared_cons (P := fun key nodes f =>
        f.1 = ctx.call? o v nodes (path.field key) ∧
          ctx.Yields (.field o v nodes) (path.field key) f.2) hn.1 hk ⟨rfl, hy⟩
        (fun key nodes f => hys key nodes f.1 f.2) key' nodes' (call?', outcome') hg hf
    · rw [Outcome.fieldErrors, Outcome.fieldCalls, Gist.of_append, Outcome.gist, ← Gist.of_append,
        List.nil_append]

/-- The jobs of all response keys go in step, those of a renamed request under the renamed keys. -/
theorem mirrorsAll_collect {depth : Nat} (ho : ctx.ObjectsMirror ρ object depth)
    (hd : Selection.depthAll selections ≤ depth + 1)
    (hρ : Set.InjOn ρ {key | key ∈ Selection.keysAll selections}) :
    MirrorsAll ρ ctx.run
      (ctx.TellsFields ρ o v (ctx.schema.registry.collect o selections) path)
      (ctx.fieldJobs object o v (ctx.schema.registry.collect o selections) path)
      (ctx.fieldJobs object o v
        (ctx.schema.registry.collect o (Selection.renameAll ρ selections)) (path.rename ρ)) := by
  rw [Registry.collect_rename hρ]
  refine mirrorsAll_fieldJobs (Registry.nodup_keys_collect ..) ?_
  intro key nodes hm
  have hlt := Registry.depthAll_children_lt_of_mem_collect hm
  have hne : nodes ≠ [] := (Registry.mem_collect_iff.1 hm).2
  have hdecl : ∀ node ∈ nodes, o.declares node.name = true := by
    intro node hnode
    exact Registry.declares_of_mem_collect hm hnode
  have hchildren := Registry.keysAll_children_subset_of_mem_collect hm
  exact mirrors_fieldJob ho (by omega) (hρ.mono hchildren) hne hdecl

/-- The outcomes of the fields make that of the object. -/
theorem mirrors_assembleObject (type : TypeRef)
    (hρ : Set.InjOn ρ {key | key ∈ Selection.keysAll selections}) {g : Gist}
    {completions completions' : List Completion}
    (h : ctx.TellsFields ρ o v (ctx.schema.registry.collect o selections) path g completions
      completions') :
    Mirrors ρ ctx.run (g.before (ctx.TellsObject ρ type o v selections path))
      (assembleObject (Keyed.keys (ctx.schema.registry.collect o selections)) completions : Job σ)
      (assembleObject (Keyed.keys
        (ctx.schema.registry.collect o (Selection.renameAll ρ selections))) completions') := by
  obtain ⟨fields, hk, hys, rfl, rfl, rfl⟩ := h
  have hk' : Keyed.keys (ctx.schema.registry.collect o (Selection.renameAll ρ selections)) =
      Keyed.keys (Outcome.renameFields ρ fields) := by
    rw [Outcome.keys_renameFields, hk, Registry.collect_rename hρ, Registry.keys_renameGroups]
  rw [assembleObject, assembleObject, ← hk, hk']
  refine .done ⟨fields, ?_, add_zero _, ?_, ?_⟩
  · refine .fields hk ?_ ?_
    · exact fun key nodes call? outcome hm hf => (hys key nodes call? outcome hm hf).1
    · exact fun key nodes call? outcome hm hf => (hys key nodes call? outcome hm hf).2
  · rw [← zip_values?_completions, Option.map_map]
    rfl
  · rw [← zip_values?_completions, Option.map_map]
    rfl

theorem objectsMirror_objectJob (ctx : Context σ) (ρ : String → String) (depth : Nat) :
    ctx.ObjectsMirror ρ (ctx.objectJob depth) depth := by
  induction depth with
  | zero =>
    intro type o v selections path hd hρ
    have hdepth : Selection.depthAll selections = 0 := Nat.le_zero.1 hd
    have hc : ctx.schema.registry.collect o selections = [] :=
      collect_eq_nil_of_depthAll_eq_zero hdepth
    have hc' : ctx.schema.registry.collect o (Selection.renameAll ρ selections) = [] :=
      collect_eq_nil_of_depthAll_eq_zero (by rw [Selection.depthAll_rename, hdepth])
    have hmembers : MirrorsAll ρ ctx.run
        (ctx.TellsFields ρ o v (ctx.schema.registry.collect o selections) path)
        ([] : List (Job σ)) [] := by
      rw [hc]
      exact .nil ⟨[], rfl, nofun, rfl, rfl, rfl⟩
    refine Mirrors.sideBySide hmembers ?_
    intro g completions completions' h
    have hobject := mirrors_assembleObject type hρ h
    rwa [hc, hc'] at hobject
  | succ depth ih =>
    intro type o v selections path hd hρ
    refine Mirrors.sideBySide (mirrorsAll_collect ih hd hρ) ?_
    intro g completions completions' h
    exact mirrors_assembleObject type hρ h

/-- The job of an operation goes in step, at the object type where operations of its kind start. -/
theorem mirrors_operationJob (ctx : Context σ) {operation : Operation} {root : Value}
    (hρ : Set.InjOn ρ {key | key ∈ operation.keys})
    (hroot : ctx.schema.root? operation.kind = some o) :
    Mirrors ρ ctx.run (ctx.TellsObject ρ (.named o.name) o root operation.selections [])
      (ctx.operationJob operation root) (ctx.operationJob (operation.rename ρ) root) := by
  have hkind : (operation.rename ρ).kind = operation.kind := rfl
  have hselections : (operation.rename ρ).selections =
    Selection.renameAll ρ operation.selections := rfl
  have hobjects := objectsMirror_objectJob ctx ρ (Selection.depthAll operation.selections)
  have hfields : MirrorsAll ρ ctx.run
      (ctx.TellsFields ρ o root (ctx.schema.registry.collect o operation.selections) []) _ _ :=
    mirrorsAll_collect hobjects (Nat.le_succ _) hρ
  rw [operationJob, operationJob, hkind, hselections, hroot, Selection.depthAll_rename]
  dsimp only
  cases operation.kind with
  | query => exact Mirrors.sideBySide hfields fun _ _ _ h => mirrors_assembleObject _ hρ h
  | mutation => exact Mirrors.inTurn hfields fun _ _ _ h => mirrors_assembleObject _ hρ h

end Context

end GraphQL
