import GraphQL.Execution.Basic
import GraphQL.Proofs.Dispatch
import GraphQL.Proofs.Execution.Promises

/-!
# How the jobs of positions are put together

The jobs of values, fields and objects consist of few parts: completions, events that are no calls,
calls of the resolvers of registered object types, groups of jobs one step further down, and the
settling of what a job ended with. A property of positions and jobs that all of these keep
(`Context.Assembles`) holds of the job of every position.
-/

namespace GraphQL

/-- Whatever state it is called in, the resolver of the call promises something. -/
def Schema.Promises {σ : Type} (s : Schema σ) (c : Call) : Prop :=
  ∀ o field resolver, s.registry.get? c.typeName = some (.object o) → field ∈ o.fields →
    field.name = c.field → field.resolver? = some resolver →
    ∀ state, (resolver c.parent c.arguments state).1.IsPending

namespace Context

variable {σ : Type} {ctx : Context σ} {P : Path → Job σ → Prop} {object : ObjectJob σ}

/-- The property is kept by everything that the jobs of positions are put together with. -/
structure Assembles (ctx : Context σ) (P : Path → Job σ → Prop) : Prop where
  done : ∀ path completion, P path (.done completion)
  emit : ∀ {path event next}, event.isCall = false → P path next →
    P path (.emit ctx.run event next)
  call : ∀ {name o field resolver}, ctx.schema.registry.get? name = some (.object o) →
    field ∈ o.fields → field.resolver? = some resolver → ∀ parent arguments {path next},
    (∀ result, P path (next result)) →
    P path (.call ⟨ctx.run, o.name, field.name, path, parent, arguments⟩
      (resolver parent arguments) next)
  settle : ∀ {path job} type, P path job → P path (job.bind (ctx.settle type path))
  join : ∀ discipline {path members} (finish : List Completion → Completion),
    (∀ job ∈ members, ∃ segment, P (path ++ [segment]) job) →
    P path (.join (.start discipline members.length) members fun completions =>
      .done (finish completions))

namespace Assembles

/-- The property holds of the job of every registered object type. -/
def Objects (ctx : Context σ) (P : Path → Job σ → Prop) (object : ObjectJob σ) : Prop :=
  ∀ name o, ctx.schema.registry.get? name = some (.object o) →
    ∀ v selections path, P path (object o v selections path)

theorem row (h : ctx.Assembles P) {path : Path} {members : List (Job σ)}
    (finish : List Completion → Completion)
    (hm : ∀ job ∈ members, ∃ segment, P (path ++ [segment]) job) :
    P path (.row (fun completions => .done (finish completions)) members) := by
  unfold Job.row Job.sideBySide
  split
  · exact h.join .sweep finish hm
  · exact h.join .fair finish hm

theorem emitAll (h : ctx.Assembles P) {path : Path} {events : List Event} {job : Job σ}
    (he : ∀ event ∈ events, event.isCall = false) (hj : P path job) :
    P path (.emitAll ctx.run events job) := by
  unfold Job.emitAll
  induction events with
  | nil => exact hj
  | cons event rest ih =>
    rw [List.forall_mem_cons] at he
    exact h.emit he.1 (ih he.2)

theorem fail (h : ctx.Assembles P) (path : Path) (error : FieldError) :
    P path (ctx.fail path error) :=
  h.emit rfl (h.done path none)

theorem failField (h : ctx.Assembles P) (type : TypeRef) (path : Path) (error : FieldError) :
    P path (ctx.failField type path error) :=
  h.emit rfl (h.done path _)

theorem completeLeaf (h : ctx.Assembles P) (serialize : Value → Except FieldError Value)
    (v : Value) (path : Path) : P path (ctx.completeLeaf serialize v path) := by
  unfold Context.completeLeaf
  split
  · exact h.done path _
  · exact h.fail path _

theorem completeAbstract (h : ctx.Assembles P) (ho : Objects ctx P object) (abstract : String)
    (resolveType? : Option TypeResolver) (v : Value) (selections : List Selection) (path : Path) :
    P path (ctx.completeAbstract object abstract resolveType? v selections path) := by
  unfold Context.completeAbstract
  refine h.emitAll ?_ ?_
  · intro event he
    split at he
    · obtain rfl := List.mem_singleton.1 he
      rfl
    · cases he
  · split
    · next o hd =>
      obtain ⟨-, hg, -⟩ := Registry.dispatch_eq_ok_iff.1 hd
      exact h.emit rfl (ho _ o hg v selections path)
    · exact h.fail path _

theorem completeNamed (h : ctx.Assembles P) (ho : Objects ctx P object)
    (selections : List Selection) (name : String) (v : Value) (path : Path) :
    P path (ctx.completeNamed object selections name v path) := by
  unfold Context.completeNamed
  split
  · next o hg => exact ho _ o hg v selections path
  · exact h.completeAbstract ho ..
  · exact h.completeAbstract ho ..
  · exact h.completeLeaf ..
  · exact h.completeLeaf ..
  · exact h.fail path _

theorem completeNullable (h : ctx.Assembles P) (ho : Objects ctx P object)
    (selections : List Selection) (type : TypeRef) (v : Value) (path : Path) :
    P path (ctx.completeNullable object selections type v path) := by
  induction type generalizing v path with
  | nonNull t ih =>
    rw [Context.completeNullable]
    exact ih v path
  | list item ih =>
    unfold Context.completeNullable
    split
    · exact h.done path _
    · refine h.row _ ?_
      intro job hm
      obtain ⟨i, hi, rfl⟩ := List.mem_mapIdx.1 hm
      exact ⟨.index i, h.settle item (ih _ _)⟩
    · exact h.fail path _
  | named name =>
    unfold Context.completeNullable
    split
    · exact h.done path _
    · exact h.completeNamed ho ..

theorem completeField (h : ctx.Assembles P) (ho : Objects ctx P object)
    (nodes : List (FieldNode Selection)) (type : TypeRef) (path : Path)
    (result : Except FieldError Value) :
    P path (ctx.completeField object nodes type path result) := by
  cases result with
  | ok v => exact h.settle type (h.completeNullable ho _ type v path)
  | error e => exact h.failField type path e

theorem fieldJob (h : ctx.Assembles P) (ho : Objects ctx P object) {name : String}
    {o : ObjectType σ} (hg : ctx.schema.registry.get? name = some (.object o)) (parent : Value)
    (nodes : List (FieldNode Selection)) (path : Path) :
    P path (ctx.fieldJob object o parent nodes path) := by
  unfold Context.fieldJob
  split
  · exact h.done path _
  · next node rest =>
    split
    · exact h.done path _
    · split
      · exact h.done path _
      · next field hf =>
        unfold Context.resolveField
        split
        · exact h.failField field.type path _
        · next arguments _ =>
          split
          · next resolver hr =>
            refine h.call hg (List.mem_of_find?_eq_some hf) hr parent arguments ?_
            intro result
            exact h.completeField ho _ field.type path result
          · exact h.completeField ho _ field.type path _

theorem fieldJobs (h : ctx.Assembles P) (ho : Objects ctx P object) {name : String}
    {o : ObjectType σ} (hg : ctx.schema.registry.get? name = some (.object o)) (parent : Value)
    (groups : Groups) (path : Path) :
    ∀ job ∈ ctx.fieldJobs object o parent groups path, ∃ segment, P (path ++ [segment]) job := by
  intro job hm
  obtain ⟨⟨key, nodes⟩, -, rfl⟩ := List.mem_map.1 hm
  exact ⟨.field key, h.fieldJob ho hg parent nodes _⟩

theorem objectJob (h : ctx.Assembles P) (depth : Nat) : Objects ctx P (ctx.objectJob depth) := by
  induction depth with
  | zero =>
    intro name o _ v selections path
    exact h.join .fair _ (by simp)
  | succ depth ih =>
    intro name o hg v selections path
    have hjobs := h.fieldJobs ih hg v (ctx.schema.registry.collect o selections) path
    exact h.join .fair _ hjobs

variable {kind : OperationKind} {root : ObjectType σ}

theorem rootJob (h : ctx.Assembles P) (hroot : ctx.schema.root? kind = some root) (depth : Nat)
    (value : Value) (nodes : List (FieldNode Selection)) (path : Path) :
    P path (ctx.fieldJob (ctx.objectJob depth) root value nodes path) := by
  obtain ⟨name, -, hg⟩ := Option.bind_eq_some_iff.1 hroot
  exact h.fieldJob (h.objectJob depth) (Registry.object?_eq_some_iff.1 hg) value nodes path

theorem rootJobs (h : ctx.Assembles P) (hroot : ctx.schema.root? kind = some root) (depth : Nat)
    (value : Value) (groups : Groups) :
    ∀ job ∈ ctx.fieldJobs (ctx.objectJob depth) root value groups [], ∃ path, P path job := by
  intro job hm
  obtain ⟨⟨key, nodes⟩, -, rfl⟩ := List.mem_map.1 hm
  exact ⟨_, h.rootJob hroot depth value nodes _⟩

end Assembles

/-! ## Jobs of positions have not begun -/

theorem silent_settle (type : TypeRef) (path : Path) (completion : Completion) :
    (ctx.settle type path completion).Silent := by
  unfold settle
  split
  · split
    · exact .emit rfl .done
    · exact .done
  · exact .done

theorem assembles_unbegun : ctx.Assembles fun _ job => job.Unbegun where
  done _ _ := .done
  emit he hn := .emit he hn
  call _ _ _ _ _ _ _ hn := .call hn
  settle type hj := hj.bind fun completion => silent_settle type _ completion
  join _ _ _ _ hm := .join (fun job hj => (hm job hj).choose_spec) fun _ => .done

/-! ## Jobs of positions make calls there and below -/

theorem assembles_callsOnly : ctx.Assembles fun path job => job.CallsOnly (path <+: ·.path) where
  done _ _ := .done
  emit he hn := .emit (by simp [Event.subject?_eq_none he]) hn
  call _ _ _ _ _ path _ hn := .call (List.prefix_refl path) fun state result _ => hn result
  settle type hj := hj.bind fun completion => (silent_settle type _ completion).callsOnly
  join _ _ _ _ hm := by
    refine .join ?_ fun _ => .done
    intro job hj
    obtain ⟨segment, hcalls⟩ := hm job hj
    exact hcalls.mono fun c hc => (List.prefix_append ..).trans hc

/-! ## Jobs of positions promise what the resolvers promise -/

theorem assembles_promises {c : Call} (h : ctx.schema.Promises c) :
    ctx.Assembles fun _ job => job.Promises c where
  done _ _ := .done
  emit he hn := .emit he hn
  call hg hf hr parent arguments path _ hn := by
    refine .call ?_ hn
    rintro rfl state
    exact h _ _ _ (by rwa [← Registry.name_of_get? hg] at hg) hf rfl hr state
  settle type hj := hj.bind fun completion => (silent_settle type _ completion).promises
  join _ _ _ _ hm := .join (fun job hj => (hm job hj).choose_spec) fun _ => .done

end Context

end GraphQL
