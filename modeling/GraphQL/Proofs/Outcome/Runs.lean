import GraphQL.Proofs.Outcome.Yields

/-!
# Runs have outcomes

Whatever the job of an operation comes to, its completion, the recorded errors and the calls of
resolvers are those of one outcome of the operation (`exists_outcome_of_operationJob`). The proof
takes the runs of the job apart as the job was built: values by their types, fields by their stages,
objects by the nesting of the request.
-/

namespace GraphQL

/-- The call that the event begins. -/
def Event.call? : Event → Option Call
  | .called c => some c
  | _ => none

/-- The errors that an execution has recorded, in order. -/
def errorsOf (run : Nat) (es : List Happening) : List LocatedError :=
  es.filterMap fun e => if e.1 = run then e.2.error? else none

/-- The calls that an execution has made, in order. -/
def callsOf (run : Nat) (es : List Happening) : List Call :=
  es.filterMap fun e => if e.1 = run then e.2.call? else none

@[simp] theorem errorsOf_nil (run : Nat) : errorsOf run [] = [] := rfl

@[simp] theorem callsOf_nil (run : Nat) : callsOf run [] = [] := rfl

@[simp] theorem errorsOf_append (run : Nat) (xs ys : List Happening) :
    errorsOf run (xs ++ ys) = errorsOf run xs ++ errorsOf run ys :=
  List.filterMap_append

@[simp] theorem callsOf_append (run : Nat) (xs ys : List Happening) :
    callsOf run (xs ++ ys) = callsOf run xs ++ callsOf run ys :=
  List.filterMap_append

theorem errorsOf_cons (run : Nat) (event : Event) (es : List Happening) :
    errorsOf run ((run, event) :: es) = event.error?.toList ++ errorsOf run es := by
  unfold errorsOf
  cases h : event.error? <;> simp [h]

theorem callsOf_cons (run : Nat) (event : Event) (es : List Happening) :
    callsOf run ((run, event) :: es) = event.call?.toList ++ callsOf run es := by
  unfold callsOf
  cases h : event.call? <;> simp [h]

/-- The errors of an execution are read off what has happened, the times aside. -/
theorem errors_log {σ : Type} (m : Machine σ) (run : Nat) :
    Entry.errors m.log run = errorsOf run m.happenings := by
  unfold Entry.errors errorsOf Machine.happenings
  rw [List.filterMap_map]
  rfl

/-- The calls of one execution in the order in which they were made. -/
def Entry.calls (log : List Entry) (run : Nat) : List Call :=
  log.filterMap fun entry => if entry.run = run then entry.event.call? else none

theorem calls_log {σ : Type} (m : Machine σ) (run : Nat) :
    Entry.calls m.log run = callsOf run m.happenings := by
  unfold Entry.calls callsOf Machine.happenings
  rw [List.filterMap_map]
  rfl

namespace Job

variable {σ : Type}

theorem Runs.of_done {completion completion' : Completion} {es : List Happening}
    (h : Runs (.done completion : Job σ) es completion') : es = [] ∧ completion' = completion := by
  cases h with
  | done => exact ⟨rfl, rfl⟩

theorem Runs.of_emit {run : Nat} {event : Event} {next : Job σ} {es : List Happening}
    {completion : Completion} (h : Runs (.emit run event next) es completion) :
    ∃ es', es = (run, event) :: es' ∧ Runs next es' completion := by
  cases h with
  | emit h => exact ⟨_, rfl, h⟩

theorem values?_map_some (vs : List Value) : values? (vs.map some) = some vs := by
  induction vs with
  | nil => rfl
  | cons v vs ih => simp [values?, ih]

theorem values?_completions (items : List Outcome) :
    values? (items.map Outcome.completion) = Outcome.values? items := by
  induction items with
  | nil => rfl
  | cons o rest ih =>
    rw [List.map_cons, Outcome.values?]
    cases o.completion with
    | none => rfl
    | some v => rw [values?, ih]

theorem zip_values?_completions (fields : Outcome.Fields) :
    (values? (fields.map fun f => f.2.2.completion)).map (fun vs => (Keyed.keys fields).zip vs) =
      Outcome.entries? fields := by
  induction fields with
  | nil => rfl
  | cons f rest ih =>
    obtain ⟨key, call?, o⟩ := f
    rw [List.map_cons, Outcome.entries?, ← ih]
    cases o.completion with
    | none => rfl
    | some v =>
      rw [values?]
      cases values? (rest.map fun f => f.2.2.completion) <;> rfl

end Job

/-- The errors, the calls and the completion of an outcome are those of a run. -/
structure Outcome.Accounts (o : Outcome) (run : Nat) (path : Path) (es : List Happening)
    (completion : Completion) : Prop where
  errors_eq : errorsOf run es = o.errors path
  calls_eq : callsOf run es = o.calls
  completion_eq : completion = o.completion

namespace Context

open Job

variable {σ : Type} {ctx : Context σ} {object : ObjectJob σ} {selections : List Selection}
  {path : Path} {es : List Happening} {completion : Completion}

/-! ## Failing and settling -/

theorem runs_fail {error : FieldError} (h : Runs (ctx.fail path error) es completion) :
    es = [(ctx.run, .failed ⟨path, error⟩)] ∧ completion = none := by
  obtain ⟨es', rfl, hd⟩ := Runs.of_emit h
  obtain ⟨rfl, rfl⟩ := Runs.of_done hd
  exact ⟨rfl, rfl⟩

theorem accounts_failField {type : TypeRef} {error : FieldError}
    (h : Runs (ctx.failField type path error) es completion) :
    (Outcome.failed type error).Accounts ctx.run path es completion := by
  obtain ⟨es', rfl, hd⟩ := Runs.of_emit h
  obtain ⟨rfl, rfl⟩ := Runs.of_done hd
  exact ⟨by simp [errorsOf_cons, Event.error?, Outcome.errors, Outcome.error?],
    by simp [callsOf_cons, Event.call?, Outcome.calls], rfl⟩

/-- A `null` is settled as the outcome says: it stays, or it is an error. -/
theorem accounts_settle_null {type : TypeRef}
    (h : Runs (ctx.settle type path (some .null)) es completion) :
    (Outcome.null type).Accounts ctx.run path es completion := by
  unfold settle at h
  cases hn : type.isNonNull
  · rw [hn] at h
    obtain ⟨rfl, rfl⟩ := Runs.of_done h
    exact ⟨by simp [Outcome.errors, Outcome.error?, hn], rfl,
      by simp [Outcome.completion, TypeRef.settled, hn]⟩
  · rw [hn] at h
    obtain ⟨rfl, rfl⟩ := runs_fail h
    exact ⟨by simp [errorsOf_cons, Event.error?, Outcome.errors, Outcome.error?, hn],
      by simp [callsOf_cons, Event.call?, Outcome.calls],
      by simp [Outcome.completion, TypeRef.settled, hn]⟩

/-- Any other completion is settled without an error. -/
theorem settle_of_ne_null {type : TypeRef} {completion : Completion}
    (h : completion ≠ some .null) :
    ctx.settle type path completion = .done (type.settled completion) := by
  unfold settle
  cases completion with
  | none =>
    rw [TypeRef.settled]
    cases type.isNonNull <;> rfl
  | some v =>
    have hv : v ≠ .null := fun hv => h (congrArg some hv)
    rw [type.settled_of_ne_null hv]
    cases type.isNonNull with
    | false => rfl
    | true =>
      cases v with
      | null => exact absurd rfl hv
      | _ => rfl

theorem runs_settle {type : TypeRef} {completion₀ : Completion} (hne : completion₀ ≠ some .null)
    (h : Runs (ctx.settle type path completion₀) es completion) :
    es = [] ∧ completion = type.settled completion₀ := by
  rw [settle_of_ne_null hne] at h
  exact Runs.of_done h

theorem accounts_settle_leaf {type : TypeRef} {v : Value}
    (h : Runs (ctx.settle type path (some v)) es completion) :
    (Outcome.leaf type v).Accounts ctx.run path es completion := by
  by_cases hv : v = .null
  · subst hv
    obtain ⟨he, hc, rfl⟩ := accounts_settle_null h
    refine ⟨?_, hc, rfl⟩
    rw [he]
    simp [Outcome.errors, Outcome.error?, Value.isNull]
  · have hne : some v ≠ some .null := fun h => hv (Option.some.inj h)
    obtain ⟨rfl, rfl⟩ := runs_settle hne h
    have hn : v.isNull = false := by
      cases v with
      | null => exact absurd rfl hv
      | _ => rfl
    exact ⟨by simp [Outcome.errors, Outcome.error?, hn], rfl, rfl⟩

/-! ## Members of groups -/

/-- What holds of the heads of two lists, and of members at the same index behind them, holds of all
members at the same index. -/
theorem forall_getElem?_cons {α β : Type} {a : α} {b : β} {xs : List α} {ys : List β}
    {P : Nat → α → β → Prop} (h : P 0 a b)
    (hr : ∀ (i : Nat) (x : α) (y : β), xs[i]? = some x → ys[i]? = some y → P (i + 1) x y) :
    ∀ (i : Nat) (x : α) (y : β), (a :: xs)[i]? = some x → (b :: ys)[i]? = some y → P i x y := by
  intro i x y hx hy
  cases i with
  | zero =>
    simp only [List.getElem?_cons_zero, Option.some.injEq] at hx hy
    exact hx ▸ hy ▸ h
  | succ i => exact hr i x y hx hy

/-- Runs of items side by side have outcomes, if each item has one at its index. -/
theorem exists_items_of_runsAll (yields : Nat → Value → Outcome → Prop) (start : Nat) {run : Nat}
    {job : Nat → Value → Job σ} {vs : List Value} {completions : List Completion}
    (hj : ∀ (i : Nat) (v : Value), v ∈ vs → ∀ {es completion}, Runs (job i v) es completion →
      ∃ o, yields i v o ∧ o.Accounts run (path.index (start + i)) es completion)
    (h : RunsAll (vs.mapIdx job) es completions) :
    ∃ items : List Outcome, items.length = vs.length ∧
      (∀ (i : Nat) (v : Value) (o : Outcome), vs[i]? = some v → items[i]? = some o →
        yields i v o) ∧
      errorsOf run es = Outcome.itemErrors items path start ∧
      callsOf run es = Outcome.itemCalls items ∧ completions = items.map Outcome.completion := by
  induction vs generalizing yields start job es completions with
  | nil =>
    cases h with
    | nil => exact ⟨[], rfl, by simp, rfl, rfl, rfl⟩
  | cons v vs ih =>
    rw [List.mapIdx_cons] at h
    cases h with
    | cons h hr =>
      obtain ⟨o, hy, ha⟩ := hj 0 v List.mem_cons_self h
      have hj' : ∀ (i : Nat) (v : Value), v ∈ vs → ∀ {es completion},
          Runs (job (i + 1) v) es completion →
          ∃ o, yields (i + 1) v o ∧ o.Accounts run (path.index (start + 1 + i)) es completion := by
        intro i v hv es completion h
        have := hj (i + 1) v (List.mem_cons_of_mem _ hv) h
        rwa [← Nat.add_assoc, Nat.add_right_comm] at this
      obtain ⟨items, hl, hys, he, hc, rfl⟩ := ih (fun i => yields (i + 1)) (start + 1) hj' hr
      refine ⟨o :: items, by simp [hl], forall_getElem?_cons hy hys, ?_, ?_, ?_⟩
      · rw [errorsOf_append, ha.errors_eq, he, Outcome.itemErrors]
        rfl
      · rw [callsOf_append, ha.calls_eq, hc, Outcome.itemCalls]
      · rw [List.map_cons, ha.completion_eq]

/-- Runs of fields side by side have outcomes, if each field has one. -/
theorem exists_fields_of_runsAll (yields : String → List (FieldNode Selection) → Outcome → Prop)
    {run : Nat} {job : String → List (FieldNode Selection) → Job σ}
    {call? : String → List (FieldNode Selection) → Option Call} {groups : Groups}
    {completions : List Completion} (hn : (Keyed.keys groups).Nodup)
    (hj : ∀ (key : String) (nodes : List (FieldNode Selection)), (key, nodes) ∈ groups →
      ∀ {es completion}, Runs (job key nodes) es completion →
      ∃ o, yields key nodes o ∧ errorsOf run es = o.errors (path.field key) ∧
        callsOf run es = (call? key nodes).toList ++ o.calls ∧ completion = o.completion)
    (h : RunsAll (groups.map fun (key, nodes) => job key nodes) es completions) :
    ∃ fields : Outcome.Fields, Keyed.keys fields = Keyed.keys groups ∧
      (∀ key nodes c? o, (key, nodes) ∈ groups → (key, c?, o) ∈ fields →
        c? = call? key nodes ∧ yields key nodes o) ∧
      errorsOf run es = Outcome.fieldErrors fields path ∧
      callsOf run es = Outcome.fieldCalls fields ∧
      completions = fields.map fun f => f.2.2.completion := by
  induction groups generalizing es completions with
  | nil =>
    cases h with
    | nil => exact ⟨[], rfl, by simp, rfl, rfl, rfl⟩
  | cons group groups ih =>
    obtain ⟨key, nodes⟩ := group
    simp only [Keyed.keys, List.map_cons, List.nodup_cons] at hn
    cases h with
    | cons h hr =>
      obtain ⟨o, hy, he, hc, rfl⟩ := hj key nodes List.mem_cons_self h
      obtain ⟨fields, hk, hys, hes, hcs, rfl⟩ := ih hn.2
        (fun key nodes hm => hj key nodes (List.mem_cons_of_mem _ hm)) hr
      refine ⟨(key, call? key nodes, o) :: fields, ?_, ?_, ?_, ?_, rfl⟩
      · simpa [Keyed.keys] using hk
      · intro key' nodes' c?' o' hg hf
        exact Keyed.forall_shared_cons (P := fun key nodes f => f.1 = call? key nodes ∧
          yields key nodes f.2) hn.1 hk ⟨rfl, hy⟩ (fun key nodes f => hys key nodes f.1 f.2)
          key' nodes' (c?', o') hg hf
      · rw [errorsOf_append, he, hes, Outcome.fieldErrors]
      · rw [callsOf_append, hc, hcs, Outcome.fieldCalls]

/-! ## Values -/

theorem runs_emitAll {run : Nat} {events : List Event} {job : Job σ}
    (h : Runs (emitAll run events job) es completion) :
    ∃ es', es = events.map (fun event => (run, event)) ++ es' ∧ Runs job es' completion := by
  induction events generalizing es with
  | nil => exact ⟨es, rfl, h⟩
  | cons event events ih =>
    obtain ⟨es₁, rfl, h₁⟩ := Runs.of_emit h
    obtain ⟨es₂, rfl, h₂⟩ := ih h₁
    exact ⟨es₂, rfl, h₂⟩

/-- How the completion of a value that is not `null` runs, by what the value is. -/
inductive RunsAs (ctx : Context σ) (object : ObjectJob σ) (selections : List Selection) (v : Value)
    (path : Path) (es : List Happening) (completion : Completion) :
    Except FieldError (Shape σ) → Prop where
  | misfit {error} (he : errorsOf ctx.run es = [⟨path, error⟩]) (hc : callsOf ctx.run es = [])
    (hn : completion = none) : RunsAs ctx object selections v path es completion (.error error)
  | leaf {literal} (he : es = []) (hc : completion = some literal) :
    RunsAs ctx object selections v path es completion (.ok (.leaf literal))
  | object {o es'} (he : errorsOf ctx.run es = errorsOf ctx.run es')
    (hc : callsOf ctx.run es = callsOf ctx.run es')
    (h : Runs (object o v selections path) es' completion) :
    RunsAs ctx object selections v path es completion (.ok (.object o))

theorem runsAs_fail {error : FieldError} {v : Value}
    (h : Runs (ctx.fail path error) es completion) :
    RunsAs ctx object selections v path es completion (.error error) := by
  obtain ⟨rfl, rfl⟩ := runs_fail h
  exact .misfit (by simp [errorsOf_cons, Event.error?]) (by simp [callsOf_cons, Event.call?]) rfl

theorem runsAs_completeLeaf {serialize : Value → Except FieldError Value} {v : Value}
    (h : Runs (ctx.completeLeaf serialize v path) es completion) :
    RunsAs ctx object selections v path es completion
      (((serialize v).mapError (·.orKind .serialization)).map .leaf) := by
  unfold completeLeaf at h
  cases hs : serialize v with
  | ok literal =>
    rw [hs] at h
    obtain ⟨rfl, rfl⟩ := Runs.of_done h
    exact .leaf rfl rfl
  | error e =>
    rw [hs] at h
    exact runsAs_fail h

/-- The events around the dispatch of an abstract value are neither errors nor calls. -/
theorem runsAs_completeAbstract {abstract : String} {resolveType? : Option TypeResolver}
    {v : Value}
    (h : Runs (ctx.completeAbstract object abstract resolveType? v selections path) es
      completion) :
    RunsAs ctx object selections v path es completion
      ((ctx.schema.registry.dispatch abstract resolveType? v).map .object) := by
  unfold completeAbstract at h
  obtain ⟨es₁, rfl, h₁⟩ := runs_emitAll h
  generalize hasked : (if resolveType?.isSome then [Event.asked abstract] else []).map
    (fun event => (ctx.run, event)) = asked
  have he : errorsOf ctx.run asked = [] := by
    subst hasked
    split <;> simp [errorsOf_cons, Event.error?]
  have hc : callsOf ctx.run asked = [] := by
    subst hasked
    split <;> simp [callsOf_cons, Event.call?]
  cases hd : ctx.schema.registry.dispatch abstract resolveType? v with
  | ok o =>
    rw [hd] at h₁
    obtain ⟨es₂, rfl, h₂⟩ := Runs.of_emit h₁
    refine .object ?_ ?_ h₂
    · rw [errorsOf_append, he, errorsOf_cons]
      rfl
    · rw [callsOf_append, hc, callsOf_cons]
      rfl
  | error error =>
    rw [hd] at h₁
    obtain ⟨rfl, rfl⟩ := runs_fail h₁
    refine .misfit ?_ ?_ rfl
    · rw [errorsOf_append, he, errorsOf_cons]
      rfl
    · rw [callsOf_append, hc, callsOf_cons]
      rfl

theorem runsAs_completeNamed {name : String} {v : Value}
    (h : Runs (ctx.completeNamed object selections name v path) es completion) :
    RunsAs ctx object selections v path es completion
      (ctx.schema.registry.shapeNamed name v) := by
  unfold completeNamed at h
  unfold Registry.shapeNamed
  cases hg : ctx.schema.registry.get? name with
  | none =>
    rw [hg] at h
    exact runsAs_fail h
  | some t =>
    rw [hg] at h
    cases t with
    | scalar s => exact runsAs_completeLeaf h
    | object o => exact .object rfl rfl h
    | enum e => exact runsAs_completeLeaf h
    | interface i => exact runsAs_completeAbstract h
    | union u => exact runsAs_completeAbstract h

/-- Jobs of objects have outcomes, for requests that nest fields at most `depth` deep. -/
def ObjectsYield (ctx : Context σ) (object : ObjectJob σ) (depth : Nat) : Prop :=
  ∀ (type : TypeRef) (o : ObjectType σ) (v : Value) (selections : List Selection) (path : Path)
    {es : List Happening} {completion : Completion}, Selection.depthAll selections ≤ depth →
    Runs (object o v selections path) es completion →
    ∃ fields : Outcome.Fields,
      ctx.Yields (.object type o v selections) path (.object type o.name fields) ∧
      errorsOf ctx.run es = Outcome.fieldErrors fields path ∧
      callsOf ctx.run es = Outcome.fieldCalls fields ∧
      completion = (Outcome.entries? fields).map .object

/-- A value that does not fit its type fails the position. -/
theorem accounts_misfit {outer : TypeRef} {error : FieldError}
    (he : errorsOf ctx.run es = [⟨path, error⟩]) (hc : callsOf ctx.run es = []) :
    (Outcome.failed outer error).Accounts ctx.run path es (outer.settled none) :=
  ⟨by rw [he]; rfl, by rw [hc]; rfl, rfl⟩

theorem exists_outcome_of_fail {outer : TypeRef} {v : Value} (hv : v ≠ .null) {error : FieldError}
    (hs : ctx.schema.registry.shape outer v = .error error)
    (h : Runs ((ctx.fail path error).bind (ctx.settle outer path)) es completion) :
    ∃ o, ctx.Yields (.value outer v selections) path o ∧ o.Accounts ctx.run path es completion := by
  obtain ⟨es₁, completion₁, es₂, rfl, h₁, h₂⟩ := Runs.of_bind _ h
  obtain ⟨rfl, rfl⟩ := runs_fail h₁
  obtain ⟨rfl, rfl⟩ := runs_settle (by simp) h₂
  exact ⟨_, .misfit hv hs, accounts_misfit (by simp [errorsOf_cons, Event.error?])
    (by simp [callsOf_cons, Event.call?])⟩

/-- What a value is completed to against a named type has an outcome at any position where the value
has the shape that it has by that type. -/
theorem exists_outcome_of_runsAs {depth : Nat} (ho : ctx.ObjectsYield object depth)
    (hd : Selection.depthAll selections ≤ depth) {outer : TypeRef} {v : Value} (hv : v ≠ .null)
    {name : String}
    (hs : ctx.schema.registry.shape outer v = ctx.schema.registry.shapeNamed name v)
    (h : Runs ((ctx.completeNamed object selections name v path).bind (ctx.settle outer path)) es
      completion) :
    ∃ o, ctx.Yields (.value outer v selections) path o ∧ o.Accounts ctx.run path es completion := by
  obtain ⟨es₁, completion₁, es₂, rfl, h₁, h₂⟩ := Runs.of_bind _ h
  have hr := runsAs_completeNamed h₁
  rw [← hs] at hr
  generalize hshape : ctx.schema.registry.shape outer v = shape at hr
  cases hr with
  | misfit he hc hn =>
    subst hn
    obtain ⟨rfl, rfl⟩ := runs_settle (by simp) h₂
    rw [List.append_nil]
    exact ⟨_, .misfit hv hshape, accounts_misfit he hc⟩
  | leaf he hc =>
    subst he hc
    exact ⟨_, .leaf hv hshape, accounts_settle_leaf h₂⟩
  | @object o es' he hc hobj =>
    obtain ⟨fields, hy, hfe, hfc, rfl⟩ := ho outer o v selections path hd hobj
    have hne : (Outcome.entries? fields).map Value.object ≠ some .null := by
      cases Outcome.entries? fields <;> simp
    obtain ⟨rfl, rfl⟩ := runs_settle hne h₂
    refine ⟨_, .object hv hshape hy, ?_, ?_, ?_⟩
    · rw [List.append_nil, he, hfe, Outcome.errors]
    · rw [List.append_nil, hc, hfc, Outcome.calls]
    · rw [Outcome.completion]

/-- The completion of a value has an outcome. The position may have another non-null marker than
the type that the value is completed against: that is settled last. -/
theorem exists_outcome_of_completeNullable {depth : Nat} (ho : ctx.ObjectsYield object depth)
    (hd : Selection.depthAll selections ≤ depth) (type : TypeRef) {outer : TypeRef} {v : Value}
    (hs : ctx.schema.registry.shape outer v = ctx.schema.registry.shape type v)
    (h : Runs ((ctx.completeNullable object selections type v path).bind (ctx.settle outer path)) es
      completion) :
    ∃ o, ctx.Yields (.value outer v selections) path o ∧ o.Accounts ctx.run path es completion := by
  -- the marker that `outer` has in addition is settled once, after all markers of `type` are gone
  induction type generalizing outer v path es completion with
  | nonNull t ih =>
    rw [completeNullable] at h
    exact ih hs h
  | named name =>
    by_cases hv : v = .null
    · subst hv
      exact ⟨_, .null, accounts_settle_null h⟩
    · have hc : ctx.completeNullable object selections (.named name) v path =
          ctx.completeNamed object selections name v path := by
        cases v with
        | null => exact absurd rfl hv
        | _ => rfl
      rw [hc] at h
      exact exists_outcome_of_runsAs ho hd hv hs h
  | list item ih =>
    cases v with
    | null => exact ⟨_, .null, accounts_settle_null h⟩
    | scalar s => exact exists_outcome_of_fail (by simp) hs h
    | object entries => exact exists_outcome_of_fail (by simp) hs h
    | list vs =>
      obtain ⟨es₁, completion₁, es₂, rfl, h₁, h₂⟩ := Runs.of_bind _ h
      obtain ⟨es₃, completions, es₄, rfl, h₃, h₄⟩ := Runs.of_row h₁
      obtain ⟨rfl, rfl⟩ := Runs.of_done h₄
      -- an item is settled at its own type, so no marker is left over
      have hitem : ∀ (i : Nat) (v : Value), v ∈ vs → ∀ {es completion},
          Runs ((ctx.completeNullable object selections item v (path.index i)).bind
            (ctx.settle item (path.index i))) es completion →
          ∃ o, ctx.Yields (.value item v selections) (path.index i) o ∧
            o.Accounts ctx.run (path.index (0 + i)) es completion := by
        intro i v _ es completion h
        rw [Nat.zero_add]
        exact ih rfl h
      obtain ⟨items, hl, hy, he, hc, rfl⟩ := exists_items_of_runsAll
        (fun i v o => ctx.Yields (.value item v selections) (path.index i) o) 0 hitem h₃
      rw [values?_completions] at h₂
      have hne : (Outcome.values? items).map Value.list ≠ some .null := by
        cases Outcome.values? items <;> simp
      obtain ⟨rfl, rfl⟩ := runs_settle hne h₂
      refine ⟨_, .list (by simp) hs hl hy, ?_, ?_, ?_⟩
      · rw [List.append_nil, List.append_nil, he, Outcome.errors]
      · rw [List.append_nil, List.append_nil, hc, Outcome.calls]
      · rw [Outcome.completion]

/-! ## Fields -/

/-- A field is answered by a call of its resolver, or by its parent value at once. -/
theorem exists_answer_of_resolveField {o : ObjectType σ} {parent : Value}
    {nodes : List (FieldNode Selection)} {node : FieldNode Selection} {field : Field σ}
    {arguments : Arguments}
    (ha : ctx.schema.registry.coerceArguments field node.arguments ctx.vars = .ok arguments)
    (h : Runs (ctx.resolveField object o parent nodes node field path) es completion) :
    ∃ result es', field.Gives parent arguments result ∧
      Runs (ctx.completeField object nodes field.type path result) es' completion ∧
      errorsOf ctx.run es = errorsOf ctx.run es' ∧
      callsOf ctx.run es = (field.resolver?.map fun _ => (⟨ctx.run, o.name, field.name, path,
        parent, arguments⟩ : Call)).toList ++ callsOf ctx.run es' := by
  unfold resolveField at h
  rw [ha] at h
  unfold Field.Gives
  cases hr : field.resolver? with
  | none =>
    rw [hr] at h
    exact ⟨_, es, rfl, h, rfl, rfl⟩
  | some resolver =>
    rw [hr] at h
    obtain ⟨state, result, es', hg, hn, hes⟩ := Runs.of_call h
    refine ⟨result, es', ⟨state, hg⟩, hn, ?_⟩
    rcases hes with rfl | rfl
    · exact ⟨errorsOf_cons .., callsOf_cons ..⟩
    · refine ⟨?_, ?_⟩
      · rw [errorsOf_cons, errorsOf_cons]
        rfl
      · rw [callsOf_cons, callsOf_cons]
        rfl

/-- A field that the object type declares has an outcome. -/
theorem exists_outcome_of_fieldJob {depth : Nat} (ho : ctx.ObjectsYield object depth)
    {o : ObjectType σ} {parent : Value} {nodes : List (FieldNode Selection)}
    (hd : Selection.depthAll (nodes.flatMap FieldNode.children) ≤ depth) (hne : nodes ≠ [])
    (hdecl : ∀ node ∈ nodes, o.declares node.name = true)
    (h : Runs (ctx.fieldJob object o parent nodes path) es completion) :
    ∃ outcome, ctx.Yields (.field o parent nodes) path outcome ∧
      errorsOf ctx.run es = outcome.errors path ∧
      callsOf ctx.run es = (ctx.call? o parent nodes path).toList ++ outcome.calls ∧
      completion = outcome.completion := by
  cases nodes with
  | nil => exact absurd rfl hne
  | cons node rest =>
    unfold fieldJob at h
    unfold call?
    by_cases hn : node.name = "__typename"
    · simp only [hn, if_true] at h ⊢
      obtain ⟨rfl, rfl⟩ := Runs.of_done h
      exact ⟨_, .typename hn, rfl, rfl, rfl⟩
    · simp only [hn, if_false] at h ⊢
      obtain ⟨field, hf⟩ : ∃ field, o.field? node.name = some field := by
        have := hdecl node List.mem_cons_self
        simpa [ObjectType.declares, hn, Option.isSome_iff_exists] using this
      simp only [hf] at h ⊢
      cases ha : ctx.schema.registry.coerceArguments field node.arguments ctx.vars with
      | error error =>
        unfold resolveField at h
        rw [ha] at h
        have hacc := accounts_failField h
        exact ⟨_, .refused hn hf ha, hacc.errors_eq, hacc.calls_eq, hacc.completion_eq⟩
      | ok arguments =>
        obtain ⟨result, es', hg, hr, he, hc⟩ := exists_answer_of_resolveField ha h
        rw [he, hc]
        cases result with
        | error error =>
          have hacc := accounts_failField hr
          refine ⟨_, .unresolved hn hf ha hg, hacc.errors_eq, ?_, hacc.completion_eq⟩
          rw [hacc.calls_eq]
        | ok v =>
          obtain ⟨outcome, hy, hacc⟩ := exists_outcome_of_completeNullable ho hd _ rfl hr
          refine ⟨outcome, .resolved hn hf ha hg hy, hacc.errors_eq, ?_, hacc.completion_eq⟩
          rw [hacc.calls_eq]

/-! ## Objects and operations -/

/-- The fields of an object that were all run have outcomes, and these make the object's. -/
theorem exists_fields_of_fieldJobs {depth : Nat} (ho : ctx.ObjectsYield object depth)
    {type : TypeRef} {o : ObjectType σ} {v : Value}
    (hd : Selection.depthAll selections ≤ depth + 1) {completions : List Completion}
    (h : RunsAll (ctx.fieldJobs object o v (ctx.schema.registry.collect o selections) path) es
      completions) :
    ∃ fields : Outcome.Fields,
      ctx.Yields (.object type o v selections) path (.object type o.name fields) ∧
      errorsOf ctx.run es = Outcome.fieldErrors fields path ∧
      callsOf ctx.run es = Outcome.fieldCalls fields ∧
      (values? completions).map (fun values => Value.object
        ((Keyed.keys (ctx.schema.registry.collect o selections)).zip values)) =
        (Outcome.entries? fields).map .object := by
  have hfield : ∀ (key : String) (nodes : List (FieldNode Selection)),
      (key, nodes) ∈ ctx.schema.registry.collect o selections → ∀ {es completion},
      Runs (ctx.fieldJob object o v nodes (path.field key)) es completion →
      ∃ outcome, ctx.Yields (.field o v nodes) (path.field key) outcome ∧
        errorsOf ctx.run es = outcome.errors (path.field key) ∧
        callsOf ctx.run es = (ctx.call? o v nodes (path.field key)).toList ++ outcome.calls ∧
        completion = outcome.completion := by
    intro key nodes hm es completion h
    have hlt := Registry.depthAll_children_lt_of_mem_collect hm
    have hne : nodes ≠ [] := (Registry.mem_collect_iff.1 hm).2
    have hdecl : ∀ node ∈ nodes, o.declares node.name = true := by
      intro node hnode
      exact Registry.declares_of_mem_collect hm hnode
    exact exists_outcome_of_fieldJob ho (by omega) hne hdecl h
  obtain ⟨fields, hk, hy, he, hc, rfl⟩ := exists_fields_of_runsAll
    (fun key nodes outcome => ctx.Yields (.field o v nodes) (path.field key) outcome)
    (Registry.nodup_keys_collect ..) hfield h
  refine ⟨fields, .fields hk (fun key nodes c? outcome hm hf => (hy key nodes c? outcome hm hf).1)
    (fun key nodes c? outcome hm hf => (hy key nodes c? outcome hm hf).2), he, hc, ?_⟩
  rw [← hk, ← zip_values?_completions, Option.map_map]
  rfl

theorem collect_eq_nil_of_depthAll_eq_zero {r : Registry σ} {o : ObjectType σ}
    {selections : List Selection} (h : Selection.depthAll selections = 0) :
    r.collect o selections = [] := by
  cases hc : r.collect o selections with
  | nil => rfl
  | cons group groups =>
    have hm : (group.1, group.2) ∈ r.collect o selections := by
      rw [hc]
      exact List.mem_cons_self
    have := Registry.depthAll_children_lt_of_mem_collect hm
    omega

theorem objectsYield_objectJob (ctx : Context σ) (depth : Nat) :
    ctx.ObjectsYield (ctx.objectJob depth) depth := by
  induction depth with
  | zero =>
    intro type o v selections path es completion hd h
    obtain ⟨es₁, completions, es₂, rfl, h₁, h₂⟩ := Runs.of_sideBySide h
    cases h₁
    obtain ⟨rfl, rfl⟩ := Runs.of_done h₂
    have hc := collect_eq_nil_of_depthAll_eq_zero (r := ctx.schema.registry) (o := o)
      (Nat.le_zero.1 hd)
    refine ⟨[], .fields ?_ (by simp) (by simp), rfl, rfl, rfl⟩
    rw [hc]
    rfl
  | succ depth ih =>
    intro type o v selections path es completion hd h
    obtain ⟨es₁, completions, es₂, rfl, h₁, h₂⟩ := Runs.of_sideBySide h
    obtain ⟨rfl, rfl⟩ := Runs.of_done h₂
    obtain ⟨fields, hy, he, hc, hv⟩ := exists_fields_of_fieldJobs ih hd h₁
    exact ⟨fields, hy, by rw [List.append_nil, he], by rw [List.append_nil, hc], hv⟩

/-- What the job of an operation comes to, at the object type where operations of its kind start. -/
theorem exists_outcome_of_operationJob {operation : Operation} {root : Value} {o : ObjectType σ}
    (hroot : ctx.schema.root? operation.kind = some o)
    (h : Runs (ctx.operationJob operation root) es completion) :
    ∃ fields : Outcome.Fields,
      ctx.Yields (.object (.named o.name) o root operation.selections) []
        (.object (.named o.name) o.name fields) ∧
      errorsOf ctx.run es = Outcome.fieldErrors fields [] ∧
      callsOf ctx.run es = Outcome.fieldCalls fields ∧
      completion = (Outcome.entries? fields).map .object := by
  unfold operationJob at h
  rw [hroot] at h
  have hjobs : ∃ es₁ completions es₂, es = es₁ ++ es₂ ∧
      RunsAll (ctx.fieldJobs (ctx.objectJob (Selection.depthAll operation.selections)) o root
        (ctx.schema.registry.collect o operation.selections) []) es₁ completions ∧
      Runs (assembleObject
        (Keyed.keys (ctx.schema.registry.collect o operation.selections)) completions : Job σ) es₂
        completion := by
    cases hkind : operation.kind with
    | query =>
      simp only [hkind] at h
      exact Runs.of_sideBySide h
    | mutation =>
      simp only [hkind] at h
      exact Runs.of_inTurn h
  obtain ⟨es₁, completions, es₂, rfl, h₁, h₂⟩ := hjobs
  obtain ⟨rfl, rfl⟩ := Runs.of_done h₂
  obtain ⟨fields, hy, he, hc, hv⟩ := exists_fields_of_fieldJobs
    (objectsYield_objectJob ctx _) (Nat.le_succ _) h₁
  exact ⟨fields, hy, by rw [List.append_nil, he], by rw [List.append_nil, hc], hv⟩

end Context

end GraphQL
