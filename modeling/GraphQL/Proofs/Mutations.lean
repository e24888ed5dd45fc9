import GraphQL.Proofs.Composition
import GraphQL.Proofs.Execution.Evaluation
import GraphQL.Proofs.Execution.Stages
import GraphQL.Proofs.Liveness
import GraphQL.Proofs.Restriction

/-!
# Mutations are executed one root key after the other

A mutation does what is asked for under its first root key until nothing of it is left, lists,
nested objects and failures included, and only then goes on to the next. So executing it is
executing, for one key after the other, the mutation that asks for this key alone, each in the state
that the one before left (`execute_mutation_in_turn`). Within a key everything runs side by side.
-/

namespace GraphQL

variable {σ : Type}

/-- The call is made at a root key or below. -/
def Call.IsUnder (key : String) (c : Call) : Prop :=
  [.field key] <+: c.path

namespace Schema

/-- The execution of a mutation is made up of the executions of what it asks for under each of its
root keys. -/
structure Serial (s : Schema σ) (run : Run) (state : σ) (keys : List String) : Prop where
  ending : (s.execute none run state).ending =
    (s.executeInTurn (keys.map run.only) state).ending.map Answer.together
  store : (s.execute none run state).state = (s.executeInTurn (keys.map run.only) state).state
  work : Entry.work (s.execute none run state).log =
    Entry.work (s.executeInTurn (keys.map run.only) state).log
  /-- If all promises are kept, each part ends with the entry of its key or, if a `null` went up to
  the root, with `null`. -/
  outputs : s.KeepsPromises → ∃ outs,
    (s.executeInTurn (keys.map run.only) state).ending = .ok (outs.map .ok) ∧
    (s.execute none run state).ending = .ok (.ok (.together outs)) ∧
    List.Forall₂ (fun key out => out.data = .null ∨ ∃ v, out.data = .object [(key, v)]) keys outs
  /-- However it is interleaved, nothing happens under a key before everything under the keys before
  it is over, or while something under one of them is waited for. -/
  staged : ∀ snap, Job.Interleaves (s.job 0 run, .start state) snap →
    Staged (keys.map Call.IsUnder) snap.2.log snap.1.awaited
  reached : ∀ limit?, ∃ snap, Job.Interleaves (s.job 0 run, .start state) snap ∧
    snap.2.log = (s.execute limit? run state).log
  /-- What is promised under a key and never completed holds up everything under the later keys. -/
  halted : ∀ limit? c, s.Promises c →
    (∃ e ∈ (s.execute limit? run state).log, e.event = .called c) →
    (∀ e ∈ (s.execute limit? run state).log, e.event ≠ .completed c) →
    keys.Pairwise fun key key' => c.IsUnder key →
      ∀ e ∈ (s.execute limit? run state).log, ¬ e.event.Concerns (Call.IsUnder key')

variable {s : Schema σ} {run : Run} {root : ObjectType σ}

/-! ## The job of a mutation -/

theorem job_eq_serial (hk : run.operation.kind = .mutation) (hb : s.bind run.operation = [])
    (hroot : s.root? .mutation = some root) :
    s.job 0 run = .serial run.operation.name?
      (Keyed.keys (s.registry.collect root run.operation.selections))
      (Context.fieldJobs ⟨0, s, run.vars⟩ (Context.objectJob ⟨0, s, run.vars⟩
          (Selection.depthAll run.operation.selections)) root run.root
        (s.registry.collect root run.operation.selections) []) := by
  unfold job Context.operationJob
  rw [hb, hk, hroot]
  rfl

/-- Asking under one key alone does the job of that key. -/
theorem does_only (hk : run.operation.kind = .mutation) (hb : s.bind run.operation = [])
    (hroot : s.root? .mutation = some root) {key : String} {nodes : List (FieldNode Selection)}
    (hm : (key, nodes) ∈ s.registry.collect root run.operation.selections) :
    s.Does (run.only key) key (Context.fieldJob ⟨0, s, run.vars⟩
      (Context.objectJob ⟨0, s, run.vars⟩ (Selection.depthAll run.operation.selections)) root
      run.root nodes [.field key]) where
  bound := bind_only hb key
  serial := by
    let ctx : Context σ := ⟨0, s, run.vars⟩
    let selections := Selection.onlyAll key run.operation.selections
    have hjob : s.job 0 (run.only key) = .serial run.operation.name?
        (Keyed.keys (s.registry.collect root selections))
        (ctx.fieldJobs (ctx.objectJob (Selection.depthAll selections)) root run.root
          (s.registry.collect root selections) []) :=
      job_eq_serial hk (bind_only hb key) hroot
    have hjobs : ctx.fieldJobs (ctx.objectJob (Selection.depthAll selections)) root run.root
          (s.registry.collect root selections) [] =
        [ctx.fieldJob (ctx.objectJob (Selection.depthAll run.operation.selections)) root run.root
          nodes [.field key]] := Context.fieldJobs_onlyAll hm run.root
    rw [hjobs, Registry.collect_onlyAll hm] at hjob
    exact ⟨_, hjob⟩
  unbegun := by
    have hassembles : Context.Assembles ⟨0, s, run.vars⟩ fun _ job => job.Unbegun :=
      Context.assembles_unbegun
    apply hassembles.rootJob hroot

/-! ## Stages -/

theorem not_isUnder {key key' : String} (h : key ≠ key') {c : Call} (hc : c.IsUnder key) :
    ¬ c.IsUnder key' := by
  obtain ⟨p, hp⟩ := hc
  rintro ⟨p', hp'⟩
  rw [← hp, List.cons_append, List.cons_append] at hp'
  exact h (PathSegment.field.inj (List.cons.inj hp').1).symm

/-- The start of the execution is one more job in turn, without calls, and so is its end. -/
theorem staged_serial {stages : List (Call → Prop)} {jobs : List (Job σ)}
    (hs : stages.Pairwise fun P Q => ∀ c, P c → ¬ Q c) (hj : List.Forall₂ Job.CallsOnly stages jobs)
    {name? : Option String} {keys : List String} {state : σ} {snap : Snapshot σ}
    (hi : Job.Interleaves (.serial name? keys jobs, .start state) snap) :
    Staged stages snap.2.log snap.1.awaited := by
  let started : Job σ := .emit 0 (.started .mutation name?) (.done none)
  let next : List Completion → Job σ := fun completions =>
    (Job.assembleObject keys completions.tail).bind fun completion =>
      .emit 0 .executed (.done (some (completion.getD .null)))
  have hserial : Job.serial name? keys jobs = .inTurn next (started :: jobs) := by
    unfold Job.serial
    rw [Job.inTurn_bind]
    rfl
  have hs' : ((fun _ => False) :: stages).Pairwise fun P Q : Call → Prop => ∀ c, P c → ¬ Q c :=
    List.pairwise_cons.2 ⟨fun _ _ _ h => h.elim, hs⟩
  have hj' : List.Forall₂ Job.CallsOnly ((fun _ => False) :: stages) (started :: jobs) :=
    .cons (.emit nofun .done) hj
  rw [hserial] at hi
  have hnext : ∀ completions, (next completions).CallsOnly fun _ => False := by
    intro completions
    refine .emit ?_ .done
    intro c hc
    cases hc
  obtain ⟨log, hlog, hstaged⟩ := Job.staged_of_interleaves hs' hj' hnext hi
  obtain rfl : snap.2.log = log := hlog
  exact ⟨hstaged.ordered.of_cons, hstaged.joined.of_cons⟩

theorem staged_job (hk : run.operation.kind = .mutation) (hb : s.bind run.operation = [])
    (hroot : s.root? .mutation = some root) {state : σ} {snap : Snapshot σ}
    (hi : Job.Interleaves (s.job 0 run, .start state) snap) :
    Staged ((Keyed.keys (s.registry.collect root run.operation.selections)).map Call.IsUnder)
      snap.2.log snap.1.awaited := by
  have hassembles : Context.Assembles ⟨0, s, run.vars⟩ fun path job =>
      job.CallsOnly (path <+: ·.path) := Context.assembles_callsOnly
  rw [job_eq_serial hk hb hroot] at hi
  refine staged_serial ?_ ?_ hi
  · refine List.pairwise_map.2 ((s.registry.nodup_keys_collect root _).imp ?_)
    intro key key' hne c hc
    exact not_isUnder hne hc
  · unfold Keyed.keys Context.fieldJobs
    rw [List.map_map, List.forall₂_map_left_iff, List.forall₂_map_right_iff, List.forall₂_same]
    rintro ⟨key, nodes⟩ -
    apply hassembles.rootJob hroot

theorem promises_job (hk : run.operation.kind = .mutation) (hb : s.bind run.operation = [])
    (hroot : s.root? .mutation = some root) {c : Call} (hc : s.Promises c) :
    (s.job 0 run).Promises c := by
  have hassembles : Context.Assembles ⟨0, s, run.vars⟩ fun _ job => job.Promises c :=
    Context.assembles_promises hc
  have hroots := hassembles.rootJobs hroot (Selection.depthAll run.operation.selections) run.root
    (s.registry.collect root run.operation.selections)
  rw [job_eq_serial hk hb hroot]
  refine .emit rfl (.bind (.inTurn (fun job hm => (hroots job hm).choose_spec) ?_) ?_)
  · exact fun completions => .done
  · exact fun completion => .emit rfl .done

/-- What is promised under a key and not completed holds up everything under the later keys. -/
theorem pairwise_not_concerns (hk : run.operation.kind = .mutation)
    (hb : s.bind run.operation = []) (hroot : s.root? .mutation = some root) {state : σ}
    {snap : Snapshot σ} (hi : Job.Interleaves (s.job 0 run, .start state) snap) {c : Call}
    (hc : s.Promises c) (hcalled : ∃ e ∈ snap.2.log, e.event = .called c)
    (hcompleted : ∀ e ∈ snap.2.log, e.event ≠ .completed c) :
    (Keyed.keys (s.registry.collect root run.operation.selections)).Pairwise fun key key' =>
      c.IsUnder key → ∀ e ∈ snap.2.log, ¬ e.event.Concerns (Call.IsUnder key') := by
  obtain ⟨e, he, heq⟩ | hawaited :=
    Job.accounted_of_interleaves (promises_job hk hb hroot hc) state hi hcalled
  · exact absurd heq (hcompleted e he)
  · refine (List.pairwise_map.1 (staged_job hk hb hroot hi).joined).imp ?_
    intro key key' hjoined hkey
    exact hjoined ⟨c, hawaited, hkey⟩

/-! ## The whole and its parts -/

/-- The root keys, with what is asked for under each alone and the job that this does. -/
theorem exists_parts (hk : run.operation.kind = .mutation) (hb : s.bind run.operation = [])
    (hroot : s.root? .mutation = some root) :
    ∃ parts : List (Run × String × Job σ),
      parts.map (·.1) =
        (Keyed.keys (s.registry.collect root run.operation.selections)).map run.only ∧
      parts.map (·.2.1) = Keyed.keys (s.registry.collect root run.operation.selections) ∧
      s.job 0 run = .serial run.operation.name? (parts.map (·.2.1)) (parts.map (·.2.2)) ∧
      ∀ part ∈ parts, s.Does part.1 part.2.1 part.2.2 := by
  let ctx : Context σ := ⟨0, s, run.vars⟩
  let object := ctx.objectJob (Selection.depthAll run.operation.selections)
  let groups := s.registry.collect root run.operation.selections
  let parts : List (Run × String × Job σ) := groups.map fun group =>
    (run.only group.1, group.1, ctx.fieldJob object root run.root group.2 [.field group.1])
  have hkeys : parts.map (·.2.1) = Keyed.keys groups := by
    simp [parts, Keyed.keys]
  have hjobs : parts.map (·.2.2) = ctx.fieldJobs object root run.root groups [] := by
    simp only [parts, Context.fieldJobs, List.map_map]
    rfl
  refine ⟨parts, by simp [parts, groups, Keyed.keys], hkeys, ?_, ?_⟩
  · rw [hkeys, hjobs]
    exact job_eq_serial hk hb hroot
  · intro part hm
    obtain ⟨⟨key, nodes⟩, hgroup, rfl⟩ := List.mem_map.1 hm
    exact does_only hk hb hroot hgroup

/-- **Mutations are executed one root key after the other.** The execution of an accepted mutation
is made up of the executions of what it asks for under each of its root keys alone, in the order in
which the keys are collected, each in the state that the one before left: it leaves the same state,
the same happens in the same order, and it ends with the outputs put together. However the work
under a key is interleaved, it is over before any work under a later key begins, and as long as
something of it is waited for, no later one does. -/
theorem execute_mutation_in_turn (hk : run.operation.kind = .mutation)
    (hb : s.bind run.operation = []) (state : σ) :
    ∃ root, s.root? .mutation = some root ∧
      s.Serial run state (Keyed.keys (s.registry.collect root run.operation.selections)) := by
  obtain ⟨root, hroot⟩ := exists_root_of_bind hb
  rw [hk] at hroot
  obtain ⟨parts, hruns, hkeys, hjob, hdoes⟩ := exists_parts hk hb hroot
  obtain ⟨hstore, hwork, hending, houts⟩ := execute_of_parts hb hjob hdoes state
  rw [hruns] at hstore hwork hending houts
  rw [hkeys] at houts
  have hreached : ∀ limit?, ∃ snap, Job.Interleaves (s.job 0 run, .start state) snap ∧
      snap.2.log = (s.execute limit? run state).log := by
    intro limit?
    obtain ⟨job', hi, -⟩ := Job.exists_interleaves_drive limit? (s.job 0 run) (.start state)
    exact ⟨_, hi, rfl⟩
  refine ⟨root, hroot, hending, hstore, hwork, ?_, fun snap => staged_job hk hb hroot, hreached, ?_⟩
  · intro hkeeps
    obtain ⟨out, hout⟩ := exists_output_execute hkeeps hb state
    obtain ⟨outs, hends, hparts⟩ := houts out hout
    refine ⟨outs, hends, ?_, hparts⟩
    rw [hending, hends]
    exact congrArg Except.ok (Answer.together_map_ok outs)
  · intro limit? c hc
    obtain ⟨snap, hi, hlog⟩ := hreached limit?
    rw [← hlog]
    exact pairwise_not_concerns hk hb hroot hi hc

end Schema

/-! ## A sample -/

namespace Counting

/-- Counts one up, two ticks later. -/
def increment : Resolver Int32 := fun _ _ n =>
  (.pending (some 2) fun n => (.ok (.int (n + 1)), n + 1), n)

/-- Doubles the count at once. -/
def double : Resolver Int32 := fun _ _ n =>
  (.ready (.ok (.int (2 * n))), 2 * n)

def query : ObjectType Int32 :=
  ⟨"Query", none, .eager [⟨"name", none, [], .named "String", .current, none⟩], []⟩

def mutation : ObjectType Int32 :=
  ⟨"Mutation", none, .eager
    [⟨"increment", none, [], .named "Int", .current, some increment⟩,
      ⟨"double", none, [], .named "Int", .current, some double⟩], []⟩

def registry : Registry Int32 :=
  ⟨[.object query, .object mutation], by
    change ["String", "Int", "Float", "Boolean", "ID", "Query", "Mutation"].Nodup
    decide⟩

def schema : Schema Int32 :=
  ⟨registry, "Query", some "Mutation", false, rfl, rfl, rfl, by
    intro name hn
    obtain rfl := Option.mem_some_iff.1 hn
    rfl⟩

/-- Counts up and doubles the result. -/
def run : Run :=
  ⟨⟨.mutation, none, [.field ⟨some "raised", "increment", [], none⟩,
    .field ⟨some "doubled", "double", [], none⟩]⟩, .null, []⟩

theorem eq_query_or_mutation {name : String} {o : ObjectType Int32}
    (h : schema.registry.get? name = some (.object o)) : o = query ∨ o = mutation := by
  have hm := Registry.mem_types_of_get? h
  simpa [Registry.types, schema, registry, TypeDef.builtins, ScalarType.builtins] using hm

theorem keepsPromises_schema : schema.KeepsPromises := by
  intro name o ho field hf resolver hr parent arguments n
  obtain rfl | rfl := eq_query_or_mutation ho
  · obtain rfl := List.mem_singleton.1 hf
    cases hr
  · rcases List.mem_cons.1 hf with rfl | hf
    · cases hr
      rfl
    · obtain rfl := List.mem_singleton.1 hf
      cases hr
      trivial

/-- Although doubling takes no time and counting up does, the count is raised before it is
doubled. -/
theorem execute_mutation_in_turn_sample :
    schema.KeepsPromises ∧ schema.bind run.operation = [] ∧
      schema.Serial run 3 ["raised", "doubled"] ∧
      (schema.execute none run 3).ending =
        .ok (.ok ⟨.object [("raised", .int 4), ("doubled", .int 8)], []⟩) := by
  have hb : schema.bind run.operation = [] := rfl
  obtain ⟨root, hroot, hserial⟩ := Schema.execute_mutation_in_turn rfl hb (3 : Int32)
  obtain rfl : mutation = root := Option.some.inj hroot
  have hending : (schema.execute none run 3).ending =
      .ok (.ok ⟨.object [("raised", .int 4), ("doubled", .int 8)], LocatedError.sorted []⟩) :=
    Schema.ending_execute hb 20 rfl
  exact ⟨keepsPromises_schema, hb, hserial, hending.trans (by simp [LocatedError.sorted])⟩

end Counting

end GraphQL
