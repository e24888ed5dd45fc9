import GraphQL.Proofs.Arguments
import GraphQL.Proofs.Assembly

/-!
# What resolvers are called with

A resolver is called where executing the operation comes to its field, with arguments that have all
been coerced (`Context.Makes`); the jobs of all positions make no other calls. So whenever a
resolver is called, in whatever order, and whether or not the execution finishes, it may rely on its
arguments being `Registry.Prepared` (`Schema.execute_calls_prepared`).
-/

namespace GraphQL

namespace Context

variable {σ : Type}

/-- The calls that executing may make from a position on: of the resolver of a field where steps
lead to it, with the arguments of the first node of its group. -/
inductive Makes (ctx : Context σ) (start : Spot σ) : Call → Prop where
  | resolve {o parent node rest field arguments path}
    (hl : ctx.Leads start path (.field o parent (node :: rest))) (hn : node.name ≠ "__typename")
    (hf : o.field? node.name = some field) (hr : field.resolver?.isSome = true)
    (ha : ctx.schema.registry.coerceArguments field node.arguments ctx.vars = .ok arguments) :
    Makes ctx start ⟨ctx.run, o.name, field.name, path, parent, arguments⟩

variable {ctx : Context σ} {start : Spot σ} {object : ObjectJob σ}

/-- Wherever steps lead to an object, its job makes no other calls. -/
def ObjectsMake (ctx : Context σ) (start : Spot σ) (object : ObjectJob σ) : Prop :=
  ∀ type o v selections path, ctx.Leads start path (.object type o v selections) →
    (object o v selections path).CallsOnly (ctx.Makes start)

/-- Steps that stay at a position are taken there. -/
theorem Leads.stay {a b : Spot σ} {path : Path} (h : ctx.Leads start path a)
    (hs : ctx.Step a [] b) : ctx.Leads start path b := by
  simpa using h.trans (.single hs)

/-! ## The jobs of positions make no other calls -/

theorem callsOnly_fail (path : Path) (error : FieldError) :
    (ctx.fail path error).CallsOnly (ctx.Makes start) :=
  .emit nofun .done

theorem callsOnly_completeLeaf (serialize : Value → Except FieldError Value) (v : Value)
    (path : Path) : (ctx.completeLeaf serialize v path).CallsOnly (ctx.Makes start) := by
  unfold completeLeaf
  split
  · exact .done
  · exact callsOnly_fail ..

variable {type : TypeRef} {v : Value} {selections : List Selection} {path : Path}

/-- A value is completed as an object where that is its shape. -/
theorem callsOnly_object (h : ctx.ObjectsMake start object)
    (hl : ctx.Leads start path (.value type v selections)) (hv : v ≠ .null) {o : ObjectType σ}
    (hs : ctx.schema.registry.shape type v = .ok (.object o)) :
    (object o v selections path).CallsOnly (ctx.Makes start) :=
  h type o v selections path (hl.stay (.belong hv hs))

theorem callsOnly_completeAbstract (h : ctx.ObjectsMake start object)
    (hl : ctx.Leads start path (.value type v selections)) (hv : v ≠ .null) (abstract : String)
    (resolveType? : Option TypeResolver)
    (hs : ctx.schema.registry.shape type v =
      (ctx.schema.registry.dispatch abstract resolveType? v).map .object) :
    (ctx.completeAbstract object abstract resolveType? v selections path).CallsOnly
      (ctx.Makes start) := by
  unfold completeAbstract
  refine .emitAll ?_ ?_
  · intro event he c hc
    split at he
    · obtain rfl := List.mem_singleton.1 he
      nomatch hc
    · nomatch he
  · split
    · next o hd =>
      rw [hd] at hs
      exact .emit nofun (callsOnly_object h hl hv hs)
    · exact callsOnly_fail ..

theorem callsOnly_completeNamed (h : ctx.ObjectsMake start object)
    (hl : ctx.Leads start path (.value type v selections)) (hv : v ≠ .null) (name : String)
    (hs : ctx.schema.registry.shape type v = ctx.schema.registry.shapeNamed name v) :
    (ctx.completeNamed object selections name v path).CallsOnly (ctx.Makes start) := by
  unfold Registry.shapeNamed at hs
  unfold completeNamed
  split
  · next o hg =>
    rw [hg] at hs
    exact callsOnly_object h hl hv hs
  · next i hg =>
    rw [hg] at hs
    exact callsOnly_completeAbstract h hl hv _ _ hs
  · next u hg =>
    rw [hg] at hs
    exact callsOnly_completeAbstract h hl hv _ _ hs
  · exact callsOnly_completeLeaf ..
  · exact callsOnly_completeLeaf ..
  · exact callsOnly_fail ..

/-- Non-null markers and lists are taken off one by one; the shape of the value stays that by its
whole type. -/
theorem callsOnly_completeNullable (h : ctx.ObjectsMake start object)
    (hl : ctx.Leads start path (.value type v selections)) (type' : TypeRef)
    (hs : ctx.schema.registry.shape type v = ctx.schema.registry.shape type' v) :
    (ctx.completeNullable object selections type' v path).CallsOnly (ctx.Makes start) := by
  induction type' generalizing type v path with
  | nonNull t ih =>
    rw [completeNullable]
    exact ih hl hs
  | list item ih =>
    unfold completeNullable
    split
    · exact .done
    · next items =>
      refine .row ?_ fun completions => .done
      intro job hm
      obtain ⟨i, hi, rfl⟩ := List.mem_mapIdx.1 hm
      refine .bind ?_ fun completion => (silent_settle ..).callsOnly
      have hne : Value.list items ≠ .null := by simp
      exact ih (hl.trans (.single (.item hne hs (List.getElem?_eq_getElem hi)))) rfl
    · exact callsOnly_fail ..
  | named name =>
    unfold completeNullable
    split
    · exact .done
    · next hv => exact callsOnly_completeNamed h hl hv name hs

theorem callsOnly_completeField (h : ctx.ObjectsMake start object)
    (nodes : List (FieldNode Selection)) {result : Except FieldError Value}
    (hl : ∀ v, result = .ok v →
      ctx.Leads start path (.value type v (nodes.flatMap FieldNode.children))) :
    (ctx.completeField object nodes type path result).CallsOnly (ctx.Makes start) := by
  cases result with
  | ok v =>
    refine .bind ?_ fun completion => (silent_settle ..).callsOnly
    exact callsOnly_completeNullable h (hl v rfl) type rfl
  | error e => exact .emit nofun .done

theorem callsOnly_fieldJob (h : ctx.ObjectsMake start object) {o : ObjectType σ} {parent : Value}
    {nodes : List (FieldNode Selection)} (hl : ctx.Leads start path (.field o parent nodes)) :
    (ctx.fieldJob object o parent nodes path).CallsOnly (ctx.Makes start) := by
  unfold fieldJob
  split
  · exact .done
  · next node rest =>
    split
    · exact .done
    · next hn =>
      split
      · exact .done
      · next field hf =>
        unfold resolveField
        split
        · exact .emit nofun .done
        · next arguments ha =>
          have resolved : ∀ result, field.Gives parent arguments result → ∀ v, result = .ok v →
              ctx.Leads start path
                (.value field.type v ((node :: rest).flatMap FieldNode.children)) := by
            rintro result hg v rfl
            exact hl.stay (.resolve hn hf ha hg)
          split
          · next resolver hr =>
            refine .call (.resolve hl hn hf (by rw [hr]; rfl) ha) ?_
            intro state result hg
            refine callsOnly_completeField h _ (resolved result ?_)
            rw [Field.Gives, hr]
            exact ⟨state, hg⟩
          · next hr =>
            refine callsOnly_completeField h _ (resolved _ ?_)
            rw [Field.Gives, hr]

theorem callsOnly_fieldJobs (h : ctx.ObjectsMake start object) {o : ObjectType σ}
    (hl : ctx.Leads start path (.object type o v selections)) :
    ∀ job ∈ ctx.fieldJobs object o v (ctx.schema.registry.collect o selections) path,
      job.CallsOnly (ctx.Makes start) := by
  intro job hm
  obtain ⟨⟨key, nodes⟩, hn, rfl⟩ := List.mem_map.1 hm
  exact callsOnly_fieldJob h (hl.trans (.single (.select hn)))

theorem objectsMake_objectJob (depth : Nat) : ctx.ObjectsMake start (ctx.objectJob depth) := by
  induction depth with
  | zero =>
    intro type o v selections path _
    exact .join (by simp) fun completions => .done
  | succ depth ih =>
    intro type o v selections path hl
    exact .join (callsOnly_fieldJobs ih hl) fun completions => .done

theorem callsOnly_operationJob (operation : Operation) {value : Value} {root : ObjectType σ}
    (hroot : ctx.schema.root? operation.kind = some root) :
    (ctx.operationJob operation value).CallsOnly
      (ctx.Makes (.object (.named root.name) root value operation.selections)) := by
  unfold operationJob
  rw [hroot]
  let start : Spot σ := .object (.named root.name) root value operation.selections
  have hstart : ctx.Leads start [] start := .here
  have hobjects : ctx.ObjectsMake start
      (ctx.objectJob (Selection.depthAll operation.selections)) := objectsMake_objectJob _
  have hjobs := callsOnly_fieldJobs hobjects hstart
  dsimp only
  split
  · exact .join hjobs fun completions => .done
  · exact .inTurn hjobs fun completions => .done

end Context

namespace Schema

variable {σ : Type} {s : Schema σ} {run : Run}

/-- The calls that executing the operation may make. -/
def Makes (s : Schema σ) (run : Run) (c : Call) : Prop :=
  ∃ root, s.root? run.operation.kind = some root ∧
    Context.Makes ⟨0, s, run.vars⟩
      (.object (.named root.name) root run.root run.operation.selections) c

theorem callsOnly_job (s : Schema σ) (run : Run) : (s.job 0 run).CallsOnly (s.Makes run) := by
  unfold job
  dsimp only
  split
  · next hb =>
    obtain ⟨root, hroot⟩ := exists_root_of_bind (List.isEmpty_iff.1 hb)
    refine .emit nofun (.bind ?_ fun completion => .emit nofun .done)
    exact (Context.callsOnly_operationJob _ hroot).mono fun c hc => ⟨root, hroot, hc⟩
  · refine .emitAll ?_ .done
    intro event he c hc
    rcases List.mem_append.1 he with he | he
    · obtain ⟨fault, -, rfl⟩ := List.mem_map.1 he
      nomatch hc
    · obtain rfl := List.mem_singleton.1 he
      nomatch hc

theorem makes_of_mem_log {limit? : Option Nat} {state : σ} {entry : Entry}
    (hm : entry ∈ (s.execute limit? run state).log) {c : Call} (hc : entry.event = .called c) :
    s.Makes run c := by
  unfold execute Job.report at hm
  refine Job.logged_drive (callsOnly_job s run) limit? state entry hm c ?_
  rw [hc]
  rfl

/-- **Resolvers are called with prepared arguments.** Whenever a resolver is called, executing has
come to its field, all arguments of the first node that asks for it can be coerced, and the resolver
gets what they come to. -/
theorem execute_calls_prepared (hn : s.registry.NullFree) {limit? : Option Nat} {state : σ}
    {entry : Entry} (hm : entry ∈ (s.execute limit? run state).log) {c : Call}
    (hc : entry.event = .called c) :
    ∃ o node rest field, s.Visits run c.path (.field o c.parent (node :: rest)) ∧
      node.name ≠ "__typename" ∧ o.field? node.name = some field ∧
      field.resolver?.isSome = true ∧ c.typeName = o.name ∧ c.field = field.name ∧
      s.registry.coerceArguments field node.arguments run.vars = .ok c.arguments ∧
      s.registry.Prepared field node.arguments run.vars c.arguments := by
  obtain ⟨root, hroot, hmakes⟩ := makes_of_mem_log hm hc
  cases hmakes with
  | @resolve o parent node rest field arguments path hl hname hf hr ha =>
    have hvisits : s.Visits run path (.field o parent (node :: rest)) := ⟨root, hroot, hl⟩
    have ho := hvisits.finds.get?_of_field
    have hvalid := s.validArguments ho rfl (List.mem_of_find?_eq_some hf)
    exact ⟨o, node, rest, field, hvisits, hname, hf, hr, rfl, rfl, ha,
      Registry.prepared_of_coerceArguments hn hvalid ha⟩

end Schema

/-! ## A call with arguments of every kind -/

namespace Searching

def order : EnumType :=
  ⟨"Order", none, [⟨"ASC", .int 0, none, .current⟩, ⟨"DESC", .int 1, none, .current⟩]⟩

/-- An argument that is required, one with a default, and two that may be left out. -/
def search : Field Unit :=
  ⟨"search", none,
    [⟨"terms", none, .nonNull (.list (.nonNull (.named "String"))), none⟩,
      ⟨"limit", none, .nonNull (.named "Int"), some (.scalar (.int 10))⟩,
      ⟨"order", none, .named "Order", none⟩, ⟨"after", none, .named "ID", none⟩],
    .named "String", .current, some fun _ _ state => (.ready (.ok .null), state)⟩

def root : ObjectType Unit :=
  ⟨"Query", none, .eager [search], []⟩

def schema : Schema Unit :=
  ⟨⟨[.enum order, .object root], by
      change ["String", "Int", "Float", "Boolean", "ID", "Order", "Query"].Nodup
      decide⟩,
    "Query", none, false, rfl, rfl, rfl, by simp⟩

/-- Searches for a single term, in an order that a variable gives. -/
def run : Run :=
  ⟨⟨.query, none, [.field ⟨none, "search",
      [("order", .var "o"), ("terms", .scalar (.string "a"))], none⟩]⟩,
    .null, [("o", .scalar (.string "DESC"))]⟩

def call : Call :=
  ⟨0, "Query", "search", [.field "search"], .null,
    [("terms", .list [.string "a"]), ("limit", .int 10), ("order", .int 1)]⟩

theorem nullFree_schema : schema.registry.NullFree := by
  apply Registry.nullFree_of_declared
  · intro s hs
    simp [schema] at hs
  · intro e he candidate hc
    obtain rfl : e = order := by simpa [schema] using he
    simp only [order, List.mem_cons, List.not_mem_nil, or_false] at hc
    rcases hc with rfl | rfl
    · intro h
      cases h
    · intro h
      cases h

/-- The resolver of the sample gets a list of one term, the default, and the value of the enum. -/
theorem execute_calls_prepared_sample :
    schema.registry.NullFree ∧ (⟨0, 0, .called call⟩ : Entry) ∈ (schema.execute none run ()).log ∧
      ∃ field provided, field.name = "search" ∧
        schema.registry.Prepared field provided run.vars call.arguments := by
  have hlog : (schema.execute none run ()).log =
      [⟨0, 0, .started .query none⟩, ⟨0, 0, .called call⟩, ⟨0, 0, .executed⟩] :=
    Schema.log_execute 40 rfl
  have hm : (⟨0, 0, .called call⟩ : Entry) ∈ (schema.execute none run ()).log := by
    rw [hlog]
    exact .tail _ (.head _)
  obtain ⟨o, node, rest, field, -, -, -, -, -, hname, -, hprepared⟩ :=
    Schema.execute_calls_prepared nullFree_schema hm rfl
  exact ⟨nullFree_schema, hm, field, node.arguments, hname.symm, hprepared⟩

end Searching

end GraphQL
