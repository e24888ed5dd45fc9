import GraphQL.Proofs.Delays
import GraphQL.Proofs.Isolation
import Mathlib.Data.List.Permutation

/-!
# A pending resolver suspends its own subtree

On the virtual clock, the resolver of a field is called when the delays of the resolvers above the
field are over, whatever happens elsewhere (`execute_calls_on_time`). For the jobs of values, fields
and objects that is shown along the types, the stages of a field and the nesting of the request: a
member of a group starts with the group, so nothing is in the way of a field but the resolvers above
it.
-/

namespace GraphQL

variable {σ τ : Type}

/-! ## Where calls are made -/

namespace Context

variable {ctx : Context σ} {a b : Spot σ} {p : Path} {c : Call}

/-- The call that is made at a position itself. -/
inductive MakesHere (ctx : Context σ) : Spot σ → Call → Prop where
  | resolve {o parent node rest field arguments} (hn : node.name ≠ "__typename")
    (hf : o.field? node.name = some field) (hr : field.resolver?.isSome = true)
    (ha : ctx.schema.registry.coerceArguments field node.arguments ctx.vars = .ok arguments) :
    MakesHere ctx (.field o parent (node :: rest))
      ⟨ctx.run, o.name, field.name, [], parent, arguments⟩

theorem MakesHere.makes (h : ctx.MakesHere a c) : ctx.Makes a c := by
  cases h with
  | resolve hn hf hr ha => exact .resolve .here hn hf hr ha

theorem Makes.of_step (hs : ctx.Step a p b) (h : ctx.Makes b c) : ctx.Makes a (c.below p) := by
  cases h with
  | resolve hl hn hf hr ha => exact .resolve (.step hs hl) hn hf hr ha

/-- A call is made at a position itself or one step further down. -/
theorem makes_iff : ctx.Makes a c ↔
    ctx.MakesHere a c ∨ ∃ p b c', ctx.Step a p b ∧ ctx.Makes b c' ∧ c = c'.below p := by
  constructor
  · intro h
    cases h with
    | resolve hl hn hf hr ha =>
      cases hl with
      | here => exact .inl (.resolve hn hf hr ha)
      | step hs hl => exact .inr ⟨_, _, _, hs, .resolve hl hn hf hr ha, rfl⟩
  · rintro (h | ⟨p, b, c', hs, h, rfl⟩)
    · exact h.makes
    · exact h.of_step hs

section Values

variable {type : TypeRef} {v : Value} {selections : List Selection}

theorem not_makes_null : ¬ ctx.Makes (.value type .null selections) c := by
  rw [makes_iff]
  rintro (h | ⟨p, b, c', hs, -⟩)
  · cases h
  · cases hs <;> contradiction

theorem not_makes_misfit {e : FieldError} (hs : ctx.schema.registry.shape type v = .error e) :
    ¬ ctx.Makes (.value type v selections) c := by
  rw [makes_iff]
  rintro (h | ⟨p, b, c', hstep, -⟩)
  · cases h
  · cases hstep <;> simp_all

theorem not_makes_leaf {literal : Value}
    (hs : ctx.schema.registry.shape type v = .ok (.leaf literal)) :
    ¬ ctx.Makes (.value type v selections) c := by
  rw [makes_iff]
  rintro (h | ⟨p, b, c', hstep, -⟩)
  · cases h
  · cases hstep <;> simp_all

theorem makes_value_iff_object (hv : v ≠ .null) {o : ObjectType σ}
    (hs : ctx.schema.registry.shape type v = .ok (.object o)) :
    ctx.Makes (.value type v selections) c ↔ ctx.Makes (.object type o v selections) c := by
  constructor
  · intro h
    rcases makes_iff.1 h with h | ⟨p, b, c', hstep, h, rfl⟩
    · cases h
    · cases hstep with
      | item _ hs' _ =>
        rw [hs] at hs'
        cases hs'
      | belong _ hs' =>
        rw [hs] at hs'
        cases hs'
        exact h
  · intro h
    exact h.of_step (.belong hv hs)

theorem makes_list_iff {item : TypeRef} {vs : List Value} (hv : v ≠ .null)
    (hs : ctx.schema.registry.shape type v = .ok (.list item vs)) :
    ctx.Makes (.value type v selections) c ↔ ∃ x ∈ vs.zipIdx,
      Timely.MakesUnder (.index x.2) (ctx.Makes (.value item x.1 selections)) c := by
  constructor
  · intro h
    rcases makes_iff.1 h with h | ⟨p, b, c', hstep, h, rfl⟩
    · cases h
    · cases hstep with
      | @item _ _ _ _ _ i w _ hs' hi =>
        rw [hs] at hs'
        cases hs'
        exact ⟨(w, i), List.mem_zipIdx_iff_getElem?.2 hi, c', h, rfl⟩
      | belong _ hs' =>
        rw [hs] at hs'
        cases hs'
  · rintro ⟨⟨w, i⟩, hx, c', h, rfl⟩
    exact h.of_step (.item hv hs (List.mem_zipIdx_iff_getElem?.1 hx))

theorem makes_object_iff {o : ObjectType σ} :
    ctx.Makes (.object type o v selections) c ↔
      ∃ x ∈ ctx.schema.registry.collect o selections,
        Timely.MakesUnder (.field x.1) (ctx.Makes (.field o v x.2)) c := by
  constructor
  · intro h
    rcases makes_iff.1 h with h | ⟨p, b, c', hstep, h, rfl⟩
    · cases h
    · cases hstep with
      | @select _ _ _ _ key nodes hn => exact ⟨(key, nodes), hn, c', h, rfl⟩
  · rintro ⟨⟨key, nodes⟩, hx, c', h, rfl⟩
    exact h.of_step (.select hx)

/-- On the way from a value to a field, the path grows. -/
theorem Leads.ne_nil_of_value {o : ObjectType σ} {parent : Value}
    {nodes : List (FieldNode Selection)}
    (h : ctx.Leads (.value type v selections) p (.field o parent nodes)) : p ≠ [] := by
  cases h with
  | step hs hl =>
    cases hs with
    | item => simp
    | belong =>
      cases hl with
      | step hs _ =>
        cases hs
        simp

theorem Makes.path_ne_nil (h : ctx.Makes (.value type v selections) c) : c.path ≠ [] := by
  cases h with
  | resolve hl => exact hl.ne_nil_of_value

end Values

section Fields

variable {o : ObjectType σ} {parent : Value} {node : FieldNode Selection}
  {rest : List (FieldNode Selection)} {field : Field σ} {arguments : Arguments}

theorem not_makes_typename (hn : node.name = "__typename") :
    ¬ ctx.Makes (.field o parent (node :: rest)) c := by
  rw [makes_iff]
  rintro (h | ⟨p, b, c', hs, -⟩)
  · cases h
    contradiction
  · cases hs
    contradiction

theorem not_makes_undeclared (hf : o.field? node.name = none) :
    ¬ ctx.Makes (.field o parent (node :: rest)) c := by
  rw [makes_iff]
  rintro (h | ⟨p, b, c', hs, -⟩)
  · cases h
    simp_all
  · cases hs
    simp_all

theorem not_makes_refused (hf : o.field? node.name = some field) {e : FieldError}
    (ha : ctx.schema.registry.coerceArguments field node.arguments ctx.vars = .error e) :
    ¬ ctx.Makes (.field o parent (node :: rest)) c := by
  rw [makes_iff]
  rintro (h | ⟨p, b, c', hs, -⟩)
  · cases h
    simp_all
  · cases hs
    simp_all

/-- The calls that are made below a field once something has been given for it. -/
def MakesAfter (ctx : Context σ) (field : Field σ) (parent : Value) (arguments : Arguments)
    (selections : List Selection) (c : Call) : Prop :=
  ∃ v, field.Gives parent arguments (.ok v) ∧ ctx.Makes (.value field.type v selections) c

theorem MakesAfter.path_ne_nil {selections : List Selection}
    (h : ctx.MakesAfter field parent arguments selections c) : c.path ≠ [] := by
  obtain ⟨v, -, h⟩ := h
  exact h.path_ne_nil

/-- A field that is resolved makes the call of its resolver, if it has one, and what follows. -/
theorem makes_field_iff (hn : node.name ≠ "__typename") (hf : o.field? node.name = some field)
    (ha : ctx.schema.registry.coerceArguments field node.arguments ctx.vars = .ok arguments) :
    ctx.Makes (.field o parent (node :: rest)) c ↔
      (field.resolver?.isSome = true ∧
        c = ⟨ctx.run, o.name, field.name, [], parent, arguments⟩) ∨
      ctx.MakesAfter field parent arguments ((node :: rest).flatMap FieldNode.children) c := by
  constructor
  · intro h
    rcases makes_iff.1 h with h | ⟨p, b, c', hs, h, rfl⟩
    · cases h with
      | resolve _ hf' hr ha' =>
        rw [hf, Option.some.injEq] at hf'
        subst hf'
        rw [ha, Except.ok.injEq] at ha'
        subst ha'
        exact .inl ⟨hr, rfl⟩
    · cases hs with
      | resolve _ hf' ha' hg =>
        rw [hf, Option.some.injEq] at hf'
        subst hf'
        rw [ha, Except.ok.injEq] at ha'
        subst ha'
        exact .inr ⟨_, hg, h⟩
  · rintro (⟨hr, rfl⟩ | ⟨v, hg, h⟩)
    · exact MakesHere.makes (.resolve hn hf hr ha)
    · exact h.of_step (.resolve hn hf ha hg)

end Fields

/-! ## The jobs of positions make their calls in time -/

/-- Whenever the job starts, it makes the calls of the position in time. -/
def InTime (ctx : Context σ) (spot : Spot σ) (path : Path) (job : Job σ) : Prop :=
  ∀ start es, job.Starts start es → ∃ delay?, Timely ctx path (ctx.Makes spot) start delay? es

/-- The jobs of objects make their calls in time, for requests that nest fields at most `depth`
deep. -/
def ObjectsInTime (ctx : Context σ) (object : ObjectJob σ) (depth : Nat) : Prop :=
  ∀ name type o v selections path, ctx.schema.registry.get? name = some (.object o) →
    Selection.depthAll selections ≤ depth →
    ctx.InTime (.object type o v selections) path (object o v selections path)

namespace InTime

variable {spot : Spot σ} {path : Path} {job : Job σ}

theorem of_silent (h : job.Silent) (hn : ∀ c, ¬ ctx.Makes spot c) :
    ctx.InTime spot path job := by
  intro start es hs
  rw [h.starts hs]
  exact ⟨_, .of_none hn⟩

theorem emit {run : Nat} {event : Event} (h : ctx.InTime spot path job) :
    ctx.InTime spot path (.emit run event job) := by
  intro start es hs
  cases hs with
  | emit hs => exact h start es hs

theorem emitAll {run : Nat} (events : List Event) (h : ctx.InTime spot path job) :
    ctx.InTime spot path (.emitAll run events job) := by
  unfold Job.emitAll
  induction events with
  | nil => exact h
  | cons event rest ih => exact ih.emit

theorem settle (h : ctx.InTime spot path job) (type : TypeRef) (path' : Path) :
    ctx.InTime spot path (job.bind (ctx.settle type path')) := by
  intro start es hs
  exact h start es (hs.of_bind (silent_settle type path') job)

end InTime

variable {object : ObjectJob σ} {depth : Nat} {type : TypeRef} {v : Value}
  {selections : List Selection} {path : Path}

theorem inTime_fail {e error : FieldError} (hs : ctx.schema.registry.shape type v = .error e) :
    ctx.InTime (.value type v selections) path (ctx.fail path error) :=
  .of_silent (.emit rfl .done) fun _ => not_makes_misfit hs

theorem inTime_object (h : ctx.ObjectsInTime object depth)
    (hd : Selection.depthAll selections ≤ depth) (hv : v ≠ .null) {o : ObjectType σ}
    (hs : ctx.schema.registry.shape type v = .ok (.object o)) :
    ctx.InTime (.value type v selections) path (object o v selections path) := by
  intro start es hstarts
  have ho := Registry.get?_of_shape hs
  obtain ⟨delay?, ht⟩ := h _ type o v selections path ho hd start es hstarts
  exact ⟨delay?, ht.congr fun c => makes_value_iff_object hv hs⟩

theorem inTime_completeLeaf {serialize : Value → Except FieldError Value}
    (hs : ctx.schema.registry.shape type v =
      ((serialize v).mapError (·.orKind .serialization)).map .leaf) :
    ctx.InTime (.value type v selections) path (ctx.completeLeaf serialize v path) := by
  unfold completeLeaf
  split
  · next literal hl =>
    rw [hl] at hs
    exact .of_silent .done fun _ => not_makes_leaf hs
  · next e he =>
    rw [he] at hs
    exact inTime_fail hs

theorem inTime_completeAbstract (h : ctx.ObjectsInTime object depth)
    (hd : Selection.depthAll selections ≤ depth) (hv : v ≠ .null) (abstract : String)
    (resolveType? : Option TypeResolver)
    (hs : ctx.schema.registry.shape type v =
      (ctx.schema.registry.dispatch abstract resolveType? v).map .object) :
    ctx.InTime (.value type v selections) path
      (ctx.completeAbstract object abstract resolveType? v selections path) := by
  unfold completeAbstract
  refine .emitAll _ ?_
  split
  · next o ho =>
    rw [ho] at hs
    exact (inTime_object h hd hv hs).emit
  · next e he =>
    rw [he] at hs
    exact inTime_fail hs

theorem inTime_completeNamed (h : ctx.ObjectsInTime object depth)
    (hd : Selection.depthAll selections ≤ depth) (hv : v ≠ .null) (name : String)
    (hs : ctx.schema.registry.shape type v = ctx.schema.registry.shapeNamed name v) :
    ctx.InTime (.value type v selections) path
      (ctx.completeNamed object selections name v path) := by
  unfold Registry.shapeNamed at hs
  unfold completeNamed
  split
  · next o hg =>
    rw [hg] at hs
    exact inTime_object h hd hv hs
  · next i hg =>
    rw [hg] at hs
    exact inTime_completeAbstract h hd hv _ _ hs
  · next u hg =>
    rw [hg] at hs
    exact inTime_completeAbstract h hd hv _ _ hs
  · next s hg =>
    rw [hg] at hs
    exact inTime_completeLeaf hs
  · next e hg =>
    rw [hg] at hs
    exact inTime_completeLeaf hs
  · next hg =>
    rw [hg] at hs
    exact inTime_fail hs

theorem nodup_index_zipIdx (vs : List Value) :
    (vs.zipIdx.map fun x => PathSegment.index x.2).Nodup := by
  have hindices : vs.zipIdx.map (fun x => PathSegment.index x.2) =
      (List.range vs.length).map .index := by
    rw [List.range_eq_range', ← List.zipIdx_map_snd 0 vs, List.map_map]
    rfl
  rw [hindices]
  exact List.nodup_range.map fun i j h => PathSegment.index.inj h

/-- Non-null markers and lists are taken off one by one; the shape of the value stays that by its
whole type. -/
theorem inTime_completeNullable (h : ctx.ObjectsInTime object depth)
    (hd : Selection.depthAll selections ≤ depth) (type' : TypeRef)
    (hs : ctx.schema.registry.shape type v = ctx.schema.registry.shape type' v) :
    ctx.InTime (.value type v selections) path
      (ctx.completeNullable object selections type' v path) := by
  induction type' generalizing type v path with
  | nonNull t ih =>
    rw [completeNullable]
    exact ih hs
  | list item ih =>
    cases v with
    | null => exact .of_silent .done fun _ => not_makes_null
    | scalar s => exact inTime_fail hs
    | object entries => exact inTime_fail hs
    | list vs =>
      intro start es hstarts
      rw [completeNullable, List.mapIdx_eq_zipIdx_map] at hstarts
      have hitems : ∀ x ∈ vs.zipIdx, ∀ es, Job.Starts start
          ((ctx.completeNullable object selections item x.1 (path.index x.2)).bind
            (ctx.settle item (path.index x.2))) es →
          ∃ delay?, Timely ctx (path.index x.2) (ctx.Makes (.value item x.1 selections)) start
            delay? es := by
        intro x _ es hx
        exact (ih rfl).settle item (path.index x.2) start es hx
      obtain ⟨delay?, ht⟩ := Timely.group (nodup_index_zipIdx vs) hitems hstarts.of_row
      exact ⟨delay?, ht.congr fun c => makes_list_iff (by simp) hs⟩
  | named name =>
    by_cases hv : v = .null
    · subst hv
      exact .of_silent .done fun _ => not_makes_null
    · have hc : ctx.completeNullable object selections (.named name) v path =
          ctx.completeNamed object selections name v path := by
        cases v with
        | null => exact absurd rfl hv
        | _ => rfl
      rw [hc]
      exact inTime_completeNamed h hd hv name hs

/-! ## Fields and objects -/

section Fields

variable {f : String → String → Computation} {o : ObjectType σ} {parent : Value}
  {nodes : List (FieldNode Selection)} {field : Field σ} {arguments : Arguments}

/-- What follows on the answer of a field is made in time. The answer is the only one there is. -/
theorem exists_timely_completeField (h : ctx.ObjectsInTime object depth)
    (hf : ctx.schema.Follows f) {name : String}
    (ho : ctx.schema.registry.get? name = some (.object o)) (hm : field ∈ o.fields)
    (hd : Selection.depthAll (nodes.flatMap FieldNode.children) ≤ depth)
    {result : Except FieldError Value} (hg : field.Gives parent arguments result) {start : Nat}
    {es : List Entry}
    (hs : Job.Starts start (ctx.completeField object nodes field.type path result) es) :
    ∃ delay?, Timely ctx path
      (ctx.MakesAfter field parent arguments (nodes.flatMap FieldNode.children)) start delay?
      es := by
  have hunique : ∀ v, field.Gives parent arguments (.ok v) → result = .ok v := by
    intro v hv
    rw [hf name o ho field hm _ _ _ hg, hf name o ho field hm _ _ _ hv]
  cases result with
  | error e =>
    cases hs with
    | emit hs =>
      cases hs
      refine ⟨_, .of_none ?_⟩
      rintro c ⟨v, hv, -⟩
      cases hunique v hv
  | ok v =>
    have hvalue : ctx.InTime (.value field.type v (nodes.flatMap FieldNode.children)) path
        (ctx.completeNullable object (nodes.flatMap FieldNode.children) field.type v path) :=
      inTime_completeNullable h hd field.type rfl
    obtain ⟨delay?, ht⟩ := hvalue.settle field.type path start es hs
    refine ⟨delay?, ht.congr ?_⟩
    intro c
    constructor
    · rintro ⟨v', hv', hc⟩
      cases hunique v' hv'
      exact hc
    · intro hc
      exact ⟨v, hg, hc⟩

/-- The call of a resolver is made at once, and what follows on it when it has been answered. -/
theorem exists_timely_call (h : ctx.ObjectsInTime object depth) (hf : ctx.schema.Follows f)
    {name : String} (ho : ctx.schema.registry.get? name = some (.object o))
    {key : String} (hk : o.field? key = some field)
    (hd : Selection.depthAll (nodes.flatMap FieldNode.children) ≤ depth) {resolver : Resolver σ}
    (hr : field.resolver? = some resolver) {start : Nat} {es : List Entry}
    (hs : Job.Starts start (.call ⟨ctx.run, o.name, field.name, path, parent, arguments⟩
      (resolver parent arguments) (ctx.completeField object nodes field.type path)) es) :
    ∃ delay?, Timely ctx path (fun c => c = ⟨ctx.run, o.name, field.name, [], parent, arguments⟩ ∨
      ctx.MakesAfter field parent arguments (nodes.flatMap FieldNode.children) c) start delay?
      es := by
  let own : Call := ⟨ctx.run, o.name, field.name, [], parent, arguments⟩
  have hown : own.below path = ⟨ctx.run, o.name, field.name, path, parent, arguments⟩ := by
    simp [own, Call.below]
  have hm : field ∈ o.fields := List.mem_of_find?_eq_some hk
  have hget : ctx.schema.registry.get? o.name = some (.object o) := Registry.get?_name ho
  have hfield : o.field? field.name = some field := (Field.of_find? hk).2 ▸ hk
  have hgives : ∀ state result, (resolver parent arguments state).1.Gives result →
      field.Gives parent arguments result := by
    intro state result hg
    rw [Field.Gives, hr]
    exact ⟨state, hg⟩
  have htakes : ∀ state delay?, (resolver parent arguments state).1.delay? = delay? →
      ctx.schema.Takes own delay? := by
    intro state delay? hdelay
    exact ⟨o, field, resolver, state, hget, hfield, hr, hdelay⟩
  rw [← hown] at hs
  cases hs with
  | @answer _ _ _ _ _ result state state' hres hs =>
    have hg := hgives state result (by rw [hres]; rfl)
    obtain ⟨delay?, ht⟩ := exists_timely_completeField h hf ho hm hd hg hs
    exact ⟨_, Timely.call rfl (htakes state (some 0) (by rw [hres]; rfl)) ht
      (fun c hc => hc.path_ne_nil) (.inl ⟨rfl, rfl⟩)⟩
  | @promise _ _ _ _ _ delay? finish state state' _ hres hs =>
    have htake := htakes state delay? (by rw [hres]; rfl)
    cases delay? with
    | none =>
      cases hs
      exact ⟨_, Timely.never rfl htake fun c hc => hc.path_ne_nil⟩
    | some d =>
      cases hs with
      | @keep _ _ _ _ _ _ es result state'' hfinish hs =>
        have hg := hgives state result (by rw [hres]; exact ⟨state'', hfinish⟩)
        obtain ⟨delay?, ht⟩ := exists_timely_completeField h hf ho hm hd hg hs
        exact ⟨_, Timely.call rfl htake ht (fun c hc => hc.path_ne_nil) (.inr rfl)⟩

theorem inTime_fieldJob (h : ctx.ObjectsInTime object depth) (hf : ctx.schema.Follows f)
    {name : String} (ho : ctx.schema.registry.get? name = some (.object o))
    (hd : Selection.depthAll (nodes.flatMap FieldNode.children) ≤ depth) :
    ctx.InTime (.field o parent nodes) path (ctx.fieldJob object o parent nodes path) := by
  unfold fieldJob
  split
  · refine .of_silent .done ?_
    intro c hc
    rcases makes_iff.1 hc with hc | ⟨p, b, c', hs, -⟩
    · cases hc
    · cases hs
  · next node rest =>
    split
    · next hn => exact .of_silent .done fun _ => not_makes_typename hn
    · next hn =>
      split
      · next hk => exact .of_silent .done fun _ => not_makes_undeclared hk
      · next field hk =>
        unfold resolveField
        split
        · next e ha => exact .of_silent (.emit rfl .done) fun _ => not_makes_refused hk ha
        · next arguments ha =>
          intro start es hs
          split at hs
          · next resolver hr =>
            obtain ⟨delay?, ht⟩ := exists_timely_call h hf ho hk hd hr hs
            refine ⟨delay?, ht.congr ?_⟩
            intro c
            rw [makes_field_iff hn hk ha, hr]
            simp
          · next hr =>
            have hg : field.Gives parent arguments
                (.ok ((parent.entry? field.name).getD .null)) := by
              rw [Field.Gives, hr]
            obtain ⟨delay?, ht⟩ := exists_timely_completeField h hf ho
              (List.mem_of_find?_eq_some hk) hd hg hs
            refine ⟨delay?, ht.congr ?_⟩
            intro c
            rw [makes_field_iff hn hk ha, hr]
            simp

end Fields

/-- The fields of an object start together. -/
theorem exists_timely_fieldJobs {f : String → String → Computation}
    (h : ctx.ObjectsInTime object depth) (hf : ctx.schema.Follows f) {name : String}
    {o : ObjectType σ} (ho : ctx.schema.registry.get? name = some (.object o))
    (hd : Selection.depthAll selections ≤ depth + 1) {start : Nat} {es : List Entry}
    (hs : Job.StartsAll start
      (ctx.fieldJobs object o v (ctx.schema.registry.collect o selections) path) es) :
    ∃ delay?, Timely ctx path (ctx.Makes (.object type o v selections)) start delay? es := by
  have hn : ((ctx.schema.registry.collect o selections).map
      fun x => PathSegment.field x.1).Nodup := by
    have hkeys := (ctx.schema.registry.nodup_keys_collect o selections).map
      fun key key' heq => PathSegment.field.inj heq
    rwa [Keyed.keys, List.map_map] at hkeys
  have hfields : ∀ x ∈ ctx.schema.registry.collect o selections, ∀ es, Job.Starts start
      (ctx.fieldJob object o v x.2 (path.field x.1)) es →
      ∃ delay?, Timely ctx (path.field x.1) (ctx.Makes (.field o v x.2)) start delay? es := by
    intro x hx es hstarts
    have hlt := Registry.depthAll_children_lt_of_mem_collect hx
    exact inTime_fieldJob h hf ho (by omega) start es hstarts
  obtain ⟨delay?, ht⟩ := Timely.group hn hfields hs
  exact ⟨delay?, ht.congr fun c => makes_object_iff⟩

theorem objectsInTime_objectJob {f : String → String → Computation} (hf : ctx.schema.Follows f)
    (depth : Nat) : ctx.ObjectsInTime (ctx.objectJob depth) depth := by
  induction depth with
  | zero =>
    intro name type o v selections path ho hd start es hs
    cases hs with
    | join hs =>
      cases hs
      refine ⟨_, .of_none ?_⟩
      intro c hc
      obtain ⟨x, hx, -⟩ := makes_object_iff.1 hc
      rw [collect_eq_nil_of_depthAll_eq_zero (Nat.le_zero.1 hd)] at hx
      cases hx
  | succ depth ih =>
    intro name type o v selections path ho hd start es hs
    cases hs with
    | join hs => exact exists_timely_fieldJobs ih hf ho hd hs

/-! ## The same calls in two schemas -/

end Context

/-- Two functions have the same answer to the call. -/
def Call.AnsweredAlike (f g : String → String → Computation) (c : Call) : Prop :=
  f c.typeName c.field c.parent c.arguments = g c.typeName c.field c.parent c.arguments

/-- The same fields have resolvers in both schemas. -/
def Schema.ResolvesLike (s : Schema σ) (t : Schema τ) : Prop :=
  ∀ name a b, s.registry.get? name = some (.object a) → t.registry.get? name = some (.object b) →
    ∀ f ∈ a.fields, ∀ g ∈ b.fields, f.name = g.name → f.resolver?.isSome = g.resolver?.isSome

namespace Context

section Alike

variable {s : Schema σ} {t : Schema τ} {f g : String → String → Computation} {run : Nat}
  {vars : Variables}

/-- A field gives the same in both schemas if it has no resolver, or if its call is answered
alike. -/
theorem givesAlike_of_agree (hs : s.Follows f) (ht : t.Follows g) (hres : s.ResolvesLike t)
    (state : τ) {a : Spot σ}
    (hagree : ∀ c, MakesHere ⟨run, s, vars⟩ a c → c.AnsweredAlike f g) :
    GivesAlike s t vars a := by
  rintro name o o' parent node rest F G arguments v rfl ha hb hn hF hG hFG hargs hgives
  have hname : F.name = G.name := congrArg Field.name hFG
  have hmF : F ∈ o.fields := List.mem_of_find?_eq_some hF
  have hmG : G ∈ o'.fields := List.mem_of_find?_eq_some hG
  have hboth := hres name o o' ha hb F hmF G hmG hname
  cases hresolver : F.resolver? with
  | none =>
    rw [hresolver] at hboth
    have hnone : G.resolver? = none := by simpa using hboth.symm
    unfold Field.Gives at hgives ⊢
    rw [hresolver] at hgives
    rw [hnone, ← hname]
    exact hgives
  | some resolver =>
    have hsame := hagree _ (.resolve hn hF (by rw [hresolver]; rfl) hargs)
    obtain ⟨result, hgives'⟩ := G.exists_gives parent arguments state
    have hF' := hs name o ha F hmF parent arguments _ hgives
    have hG' := ht name o' hb G hmG parent arguments _ hgives'
    have ho : o.name = name := Registry.name_of_get? ha
    unfold Call.AnsweredAlike at hsame
    dsimp only at hsame
    rw [ho, ← hF', hname, ← hG'] at hsame
    rwa [hsame]

/-- What leads to a field in one schema does so in the other if the calls above the field are
answered alike. -/
theorem Leads.exists_alike (hr : s.Resembles t) (hs : s.Follows f) (ht : t.Follows g)
    (hres : s.ResolvesLike t) (state : τ) {a b : Spot σ} {a' : Spot τ} {p : Path}
    (hl : Leads ⟨run, s, vars⟩ a p b) (hb : ∃ o parent nodes, b = .field o parent nodes)
    (hab : a.Alike s t a')
    (hagree : ∀ c, Makes ⟨run, s, vars⟩ a c → c.path <+: p → c.path ≠ p → c.AnsweredAlike f g) :
    ∃ b', Leads ⟨run, t, vars⟩ a' p b' ∧ b.Alike s t b' := by
  induction hl generalizing a' with
  | here => exact ⟨a', .here, hab⟩
  | @step a a₁ b p q hstep hl ih =>
    have hhere : ∀ c, MakesHere ⟨run, s, vars⟩ a c → c.AnsweredAlike f g := by
      intro c hc
      have hmakes := hc.makes
      obtain ⟨o, parent, nodes, rfl⟩ := hb
      cases hc
      -- the way to the field that is led to goes on below the field that is called here
      cases hstep
      exact hagree _ hmakes List.nil_prefix hl.ne_nil_of_value.symm
    have hbelow : ∀ c, Makes ⟨run, s, vars⟩ a₁ c → c.path <+: q → c.path ≠ q →
        c.AnsweredAlike f g := by
      intro c hc hp hne
      have hsame := hagree (c.below p) (hc.of_step hstep) ((List.prefix_append_right_inj p).2 hp)
        fun heq => hne (List.append_cancel_left heq)
      exact hsame
    obtain ⟨a₁', hstep', hab'⟩ :=
      hstep.exists_alike_of_gives hr hab (givesAlike_of_agree hs ht hres state hhere)
    obtain ⟨b', hl', hbb'⟩ := ih hb hab' hbelow
    exact ⟨b', .step hstep' hl', hbb'⟩

theorem Makes.of_alike (hr : s.Resembles t) (hs : s.Follows f) (ht : t.Follows g)
    (hres : s.ResolvesLike t) (state : τ) {a : Spot σ} {a' : Spot τ} {c : Call}
    (hc : Makes ⟨run, s, vars⟩ a c) (hab : a.Alike s t a')
    (hagree : ∀ c', Makes ⟨run, s, vars⟩ a c' → c'.path <+: c.path → c'.path ≠ c.path →
      c'.AnsweredAlike f g) : Makes ⟨run, t, vars⟩ a' c := by
  cases hc with
  | @resolve o parent node rest F arguments path hl hn hF hresolver hargs =>
    obtain ⟨b', hl', hbb'⟩ :=
      hl.exists_alike hr hs ht hres state ⟨_, _, _, rfl⟩ hab hagree
    cases hbb' with
    | @field name _ o' _ _ ha hb =>
      obtain ⟨G, hG, hFG⟩ := ObjectType.exists_field? (hr.plain_eq ha hb) hF
      have hname : F.name = G.name := congrArg Field.name hFG
      have hobject : o.name = o'.name := congrArg ObjectType.name (hr.plain_eq ha hb)
      have hboth := hres name o o' ha hb F (List.mem_of_find?_eq_some hF) G
        (List.mem_of_find?_eq_some hG) hname
      have hargs' : t.registry.coerceArguments G node.arguments vars = .ok arguments :=
        (hr.coerceArguments hFG _ _).symm.trans hargs
      rw [hobject, hname]
      exact .resolve hl' hn hG (hboth ▸ hresolver) hargs'

end Alike

end Context

/-! ## Executions -/

namespace Schema

variable {s : Schema σ} {t : Schema τ} {run : Run}

/-- The log has all calls that executing the operation makes, each once, when the delays above it
are over, and the completions of those that are not answered at once. A delay is what a resolver
said when it was called; where no resolver is called, there is none. -/
structure OnTime (s : Schema σ) (run : Run) (log : List Entry) (delay? : Path → Option Nat) :
    Prop where
  once : (log.filterMap (·.event.call?)).Nodup
  called : ∀ time c, ⟨0, time, .called c⟩ ∈ log ↔
    s.Makes run c ∧ c.path.elapsed delay? = some time
  completed : ∀ time c, ⟨0, time, .completed c⟩ ∈ log → s.Makes run c ∧
    ∃ start d, c.path.elapsed delay? = some start ∧ delay? c.path = some d ∧ time = start + d
  completes : ∀ c start d, s.Makes run c → c.path.elapsed delay? = some start →
    delay? c.path = some d → d = 0 ∨ ⟨0, start + d, .completed c⟩ ∈ log
  takes : ∀ c start, s.Makes run c → c.path.elapsed delay? = some start →
    s.Takes c (delay? c.path)
  still : ∀ p, (∀ c, s.Makes run c → c.path ≠ p) → delay? p = some 0

theorem unbegun_job (s : Schema σ) {run : Run} (hq : run.operation.kind = .query)
    (hb : s.bind run.operation = []) : (s.job 0 run).Unbegun := by
  obtain ⟨root, hroot⟩ := exists_root_of_bind hb
  have hassembles : Context.Assembles ⟨0, s, run.vars⟩ fun _ job => job.Unbegun :=
    Context.assembles_unbegun
  have hroots := hassembles.rootJobs hroot (Selection.depthAll run.operation.selections) run.root
    (s.registry.collect root run.operation.selections)
  have hjobs := fun job hm => (hroots job hm).choose_spec
  unfold job Context.operationJob
  rw [hb, hroot, hq]
  refine .emit rfl (.bind (.join hjobs fun completions => .done) ?_)
  intro completion
  exact .emit rfl .done

theorem exists_timely_of_starts {f : String → String → Computation} (hf : s.Follows f)
    (hq : run.operation.kind = .query) (hb : s.bind run.operation = []) {es : List Entry}
    (hs : (s.job 0 run).Starts 0 es) :
    ∃ delay?, Timely ⟨0, s, run.vars⟩ [] (s.Makes run) 0 delay? es := by
  obtain ⟨root, hroot⟩ := exists_root_of_bind hb
  obtain ⟨name, -, hg⟩ := Option.bind_eq_some_iff.1 hroot
  unfold job Context.operationJob at hs
  rw [hb, hroot, hq] at hs
  cases hs with
  | emit hs =>
    have hgroup := hs.of_bind (fun completion => .emit rfl .done) _
    cases hgroup with
    | join hfields =>
      obtain ⟨delay?, ht⟩ := Context.exists_timely_fieldJobs
        (Context.objectsInTime_objectJob hf _) hf (Registry.object?_eq_some_iff.1 hg)
        (Nat.le_succ _) hfields
      refine ⟨delay?, ht.congr ?_⟩
      intro c
      constructor
      · rintro ⟨root', hroot', hc⟩
        rw [hroot, Option.some.injEq] at hroot'
        subst hroot'
        exact hc
      · intro hc
        exact ⟨root, hroot, hc⟩

theorem mem_calls_iff {m : Machine σ} {entry : Entry} (h : entry.event.isCall = true) :
    entry ∈ m.calls ↔ entry ∈ m.log := by
  simp [Machine.calls, h]

theorem filterMap_calls (m : Machine σ) :
    m.calls.filterMap (·.event.call?) = m.log.filterMap (·.event.call?) := by
  unfold Machine.calls
  rw [List.filterMap_filter]
  refine List.filterMap_congr ?_
  rintro ⟨run, time, event⟩ -
  cases event <;> rfl

/-- The execution of a query on a stateless schema is on time. -/
theorem exists_onTime {f : String → String → Computation} (hf : s.Follows f)
    (hq : run.operation.kind = .query) (hb : s.bind run.operation = []) (state : σ) :
    ∃ delay?, s.OnTime run (s.execute none run state).log delay? := by
  have ht : (s.job 0 run).Tended False := tended_job (fun h => h.elim) 0 run
  obtain ⟨es, hs, hp⟩ :=
    Job.exists_starts_drive ht ((unbegun_job s hq hb).orderly (.start state))
  obtain ⟨delay?, htimely⟩ := exists_timely_of_starts hf hq hb hs
  let m := ((s.job 0 run).drive none (.start state)).2
  have hlog : (s.execute none run state).log = m.log := rfl
  have hperm : m.calls.Perm es := hp
  have hmem : ∀ {entry : Entry}, entry.event.isCall = true → (entry ∈ m.log ↔ entry ∈ es) := by
    intro entry hcall
    rw [← mem_calls_iff hcall]
    exact hperm.mem_iff
  refine ⟨delay?, ?_⟩
  rw [hlog]
  constructor
  case once =>
    rw [← filterMap_calls]
    exact (hperm.filterMap _).nodup_iff.2 htimely.once
  case called =>
    intro time c
    rw [hmem rfl, htimely.called]
    constructor
    · rintro ⟨c', t, ⟨hc, he⟩, rfl, rfl⟩
      exact ⟨hc, by rw [Nat.zero_add, Call.below_nil, he]⟩
    · rintro ⟨hc, he⟩
      exact ⟨c, time, ⟨hc, he⟩, rfl, (Nat.zero_add _).symm⟩
  case completed =>
    intro time c hm
    obtain ⟨c', t, d, ⟨hc, he⟩, hd, rfl, rfl⟩ := htimely.completed time c ((hmem rfl).1 hm)
    exact ⟨hc, t, d, he, hd, by rw [Nat.zero_add]⟩
  case completes =>
    intro c start d hc he hd
    have hcompletes := htimely.completes c start d ⟨hc, he⟩ hd
    rw [Nat.zero_add] at hcompletes
    exact hcompletes.imp id fun hm => (hmem rfl).2 hm
  case takes =>
    intro c start hc he
    exact htimely.takes c start ⟨hc, he⟩
  case still =>
    exact htimely.still

/-- **A pending resolver suspends its own subtree.** When a query is executed on a stateless schema,
each resolver that executing comes to is called once, at the sum of the delays of the resolvers
above it, unless one of these never answers. Nothing else counts: where another schema answers the
calls above a call alike, after the same delays, it makes that call at the same time. -/
theorem execute_calls_on_time {f g : String → String → Computation} (hs : s.Follows f)
    (ht : t.Follows g) (hr : s.Resembles t) (hres : s.ResolvesLike t) (run : Run)
    (hq : run.operation.kind = .query) (hb : s.bind run.operation = []) (state : σ) (state' : τ) :
    ∃ delay? delay?', s.OnTime run (s.execute none run state).log delay? ∧
      t.OnTime run (t.execute none run state').log delay?' ∧
      (∀ c, s.Makes run c → (∀ time, ⟨0, time, .called c⟩ ∉ (s.execute none run state).log) →
        ∃ c', s.Makes run c' ∧ c'.path <+: c.path ∧ c'.path ≠ c.path ∧ delay? c'.path = none) ∧
      ∀ c, s.Makes run c →
        (∀ c', s.Makes run c' → c'.path <+: c.path → c'.path ≠ c.path → c'.AnsweredAlike f g) →
        (∀ p, p <+: c.path → p ≠ c.path → delay? p = delay?' p) →
        t.Makes run c ∧ ∀ time, ⟨0, time, .called c⟩ ∈ (s.execute none run state).log ↔
          ⟨0, time, .called c⟩ ∈ (t.execute none run state').log := by
  have hb' : t.bind run.operation = [] := by
    rw [← hr.bind_eq, hb]
  obtain ⟨delay?, hon⟩ := exists_onTime hs hq hb state
  obtain ⟨delay?', hon'⟩ := exists_onTime ht hq hb' state'
  refine ⟨delay?, delay?', hon, hon', ?_, ?_⟩
  · intro c hc huncalled
    have hnone : c.path.elapsed delay? = none := by
      refine Option.eq_none_iff_forall_ne_some.2 ?_
      intro time he
      exact huncalled time ((hon.called time c).2 ⟨hc, he⟩)
    obtain ⟨q, hq, hne, hnone⟩ := Path.exists_of_elapsed_eq_none hnone
    -- only a call takes time, so there is one at that position
    by_contra hno
    have hstill : delay? q = some 0 := by
      refine hon.still q ?_
      rintro c' hc' rfl
      exact hno ⟨c', hc', hq, hne, hnone⟩
    rw [hnone] at hstill
    cases hstill
  · intro c hc hagree hdelays
    have hmakes : t.Makes run c := by
      obtain ⟨root, hroot, hc⟩ := hc
      obtain ⟨root', hroot'⟩ := exists_root_of_bind hb'
      refine ⟨root', hroot', ?_⟩
      refine hc.of_alike hr hs ht hres state' (hr.alike_root hroot hroot') ?_
      intro c' hc'
      exact hagree c' ⟨root, hroot, hc'⟩
    refine ⟨hmakes, ?_⟩
    intro time
    rw [hon.called, hon'.called, Path.elapsed_congr hdelays, and_iff_right hc, and_iff_right hmakes]

end Schema

/-! ## A resolver that never answers -/

namespace Waiting

/-- Gives an object after a delay, if the delay ends. -/
def after (delay? : Option Nat) : Resolver Unit := fun _ _ state =>
  (.pending delay? fun state => (.ok (.object []), state), state)

/-- One field that may take any time and one that takes one tick, both of the same type. -/
def root (delay? : Option Nat) : ObjectType Unit :=
  ⟨"Query", none, .eager
    [⟨"slow", none, [], .named "Query", .current, some (after delay?)⟩,
      ⟨"quick", none, [], .named "Query", .current, some (after (some 1))⟩], []⟩

def registry (delay? : Option Nat) : Registry Unit :=
  ⟨[.object (root delay?)], by
    change ["String", "Int", "Float", "Boolean", "ID", "Query"].Nodup
    decide⟩

/-- The slow field never answers. -/
def schema : Schema Unit :=
  ⟨registry none, "Query", none, false, rfl, rfl, rfl, by simp⟩

/-- The slow field answers after three ticks. -/
def answeringSchema : Schema Unit :=
  ⟨registry (some 3), "Query", none, false, rfl, rfl, rfl, by simp⟩

/-- Asks for something quick below either field. -/
def run : Run :=
  ⟨⟨.query, none,
    [Sample.field "slow" [Sample.field "quick" [Sample.field "__typename" []]],
      Sample.field "quick" [Sample.field "quick" [Sample.field "__typename" []]]]⟩, .null, []⟩

/-- The call below the field that is quick itself. -/
def call : Call :=
  ⟨0, "Query", "quick", [.field "quick", .field "quick"], .object [], []⟩

theorem eq_root {delay? : Option Nat} {name : String} {o : ObjectType Unit}
    (h : (registry delay?).get? name = some (.object o)) : o = root delay? := by
  have hm := Registry.mem_types_of_get? h
  simpa [Registry.types, registry, TypeDef.builtins, ScalarType.builtins] using hm

/-- Both fields have resolvers that give one object, whether or not it ever comes. -/
theorem exists_after {delay? : Option Nat} {field : Field Unit} (h : field ∈ (root delay?).fields) :
    ∃ delay?, field.resolver? = some (after delay?) := by
  rcases List.mem_cons.1 h with rfl | h
  · exact ⟨_, rfl⟩
  · obtain rfl := List.mem_singleton.1 h
    exact ⟨_, rfl⟩

theorem follows_of_registry {s : Schema Unit} {delay? : Option Nat}
    (hs : s.registry = registry delay?) : s.Follows fun _ _ _ _ => .ok (.object []) := by
  intro name o ho field hf parent arguments result hg
  rw [hs] at ho
  obtain rfl := eq_root ho
  obtain ⟨delay?, hr⟩ := exists_after hf
  rw [Field.Gives, hr] at hg
  obtain ⟨-, -, rfl⟩ := hg
  rfl

theorem resolvesLike_answeringSchema : schema.ResolvesLike answeringSchema := by
  intro name a b ha hb f hf g hg _
  have ha' : (registry none).get? name = some (.object a) := ha
  have hb' : (registry (some 3)).get? name = some (.object b) := hb
  obtain rfl := eq_root ha'
  obtain rfl := eq_root hb'
  obtain ⟨delay?, hr⟩ := exists_after hf
  obtain ⟨delay?', hr'⟩ := exists_after hg
  rw [hr, hr']
  rfl

/-- Whether the slow field never answers or does after three ticks, the call below the quick one is
made after one. -/
theorem execute_calls_on_time_sample :
    schema.Resembles answeringSchema ∧ schema.bind run.operation = [] ∧
      ⟨0, 1, .called call⟩ ∈ (schema.execute none run ()).log ∧
      ∃ delay? delay?', schema.OnTime run (schema.execute none run ()).log delay? ∧
        answeringSchema.OnTime run (answeringSchema.execute none run ()).log delay?' ∧
        call.path.elapsed delay? = some 1 := by
  have hr : schema.Resembles answeringSchema := ⟨rfl, rfl, rfl, rfl⟩
  have hb : schema.bind run.operation = [] := rfl
  let slow : Call := ⟨0, "Query", "slow", [.field "slow"], .null, []⟩
  let quick : Call := ⟨0, "Query", "quick", [.field "quick"], .null, []⟩
  have hlog : (schema.execute none run ()).log =
      [⟨0, 0, .started .query none⟩, ⟨0, 0, .called slow⟩, ⟨0, 0, .called quick⟩,
        ⟨0, 1, .completed quick⟩, ⟨0, 1, .called call⟩, ⟨0, 2, .completed call⟩] :=
    Schema.log_execute 40 (by cbv)
  have hm : ⟨0, 1, .called call⟩ ∈ (schema.execute none run ()).log := by
    rw [hlog]
    simp
  obtain ⟨delay?, delay?', hon, hon', -⟩ := Schema.execute_calls_on_time
    (follows_of_registry rfl) (follows_of_registry rfl) hr resolvesLike_answeringSchema run rfl hb
    () ()
  exact ⟨hr, hb, hm, delay?, delay?', hon, hon', ((hon.called 1 call).1 hm).2⟩

end Waiting

end GraphQL
