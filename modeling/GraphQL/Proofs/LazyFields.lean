import GraphQL.Proofs.Sessions

/-!
# Lazy fields are built once

The thunk of a type runs when a command looks at the type for the first time, and never again
(`Session.fields_built_once`). That nothing else runs it can be seen from sessions in which all
thunks have been taken away: a question is answered from what has been built by then
(`Question.answer_freeze_snd`), and a session with a schema, or one in which nothing looks at
fields, does the same without thunks (`Session.run_freeze`).
-/

namespace GraphQL

variable {σ : Type}

/-! ## Answers without thunks -/

/-- The reply with the thunks of what it shows taken away. -/
def Reply.freeze : Reply σ → Reply σ
  | .type t => .type t.freeze
  | .schema s => .schema s.freeze
  | reply => reply

theorem Reply.freeze_ofOption {α : Type} {reply : α → Reply σ}
    (h : ∀ a, (reply a).freeze = reply a) (a? : Option α) :
    (ofOption reply a?).freeze = ofOption reply a? := by
  cases a? with
  | none => rfl
  | some a => exact h a

namespace Question

/-- If what is said of a type needs no thunk, nor does what is said of a name. -/
theorem ofOption_get?_freeze {reply : TypeDef σ → Reply σ}
    (h : ∀ t, reply t.freeze = (reply t).freeze) (r : Registry σ) (name : String) :
    Reply.ofOption reply (r.freeze.get? name) = (Reply.ofOption reply (r.get? name)).freeze := by
  rw [r.get?_freeze]
  cases r.get? name with
  | none => rfl
  | some t => exact h t

/-- **Questions that look at no fields are answered without thunks.** -/
theorem answer_freeze {question : Question} (h : ∀ name, question.looksAt name = false)
    (r : Registry σ) :
    question.answer r.freeze = ((question.answer r).1.freeze, (question.answer r).2.freeze) := by
  refine Prod.ext ?_ ?_
  · cases question with
    | resolve name =>
      dsimp only [answer, resolveReply, Registry.resolve]
      rw [r.get?_freeze]
      cases r.get? name <;> rfl
    | get name => exact ofOption_get?_freeze (fun _ => rfl) r name
    | lookup ref =>
      refine ofOption_get?_freeze (fun t => ?_) r ref.innermost
      exact congrArg Reply.name t.name_freeze
    | describe name =>
      exact ofOption_get?_freeze (fun t => congrArg Reply.text t.describe_freeze) r name
    | types =>
      dsimp only [answer]
      rw [r.types_freeze, List.map_map]
      simp only [Function.comp_def, TypeDef.name_freeze, TypeDef.kind_freeze]
      rfl
    | object name =>
      dsimp only [answer]
      rw [r.object?_freeze]
      cases r.object? name <;> rfl
    | possible abstract =>
      exact congrArg Reply.names (r.map_name_possibleTypes_mapFieldSets FieldSet.freeze abstract)
    | isPossible abstract object =>
      exact congrArg Reply.flag (r.isPossible_mapFieldSets FieldSet.freeze abstract object)
    | isSubtype sub super =>
      exact congrArg Reply.flag (r.isSubtype_mapFieldSets FieldSet.freeze sub super)
    | describeAll => exact congrArg Reply.text r.describe_freeze
    | initialized name =>
      dsimp only [answer, initializedReply]
      rw [r.get?_freeze]
      cases r.get? name with
      | none => rfl
      | some t => cases t <;> rfl
    | serialize leaf v =>
      dsimp only [answer, serializeReply]
      rw [r.get?_freeze]
      cases r.get? leaf with
      | none => rfl
      | some t =>
        dsimp only [Option.map_some, Option.bind_some]
        rw [t.serialize?_freeze]
        exact (Reply.freeze_ofOption (fun _ => rfl) _).symm
    | parse leaf literal =>
      dsimp only [answer, parseReply]
      rw [r.get?_freeze]
      cases r.get? leaf with
      | none => rfl
      | some t =>
        cases t with
        | enum e =>
          dsimp only [Option.map_some, TypeDef.freeze, TypeDef.mapFieldSet]
          split
          · rfl
          · exact (Reply.freeze_ofOption (fun _ => rfl) _).symm
          · rfl
        | _ => rfl
    | check => cases h ""
    | field owner name => simpa [looksAt] using h owner
    | fields name => simpa [looksAt] using h name
  · rw [answer_snd, answer_snd]
    simp only [h, Registry.buildWhere_false]

/-- **What a question is answered with has been built by then.** The registry that it leaves gives
the same answer without any thunk. -/
theorem answer_freeze_snd (r : Registry σ) (question : Question) :
    (question.answer (question.answer r).2.freeze).1 = (question.answer r).1.freeze := by
  by_cases h : ∀ name, question.looksAt name = false
  · have hr : (question.answer r).2 = r := by
      rw [answer_snd]
      simp only [h, Registry.buildWhere_false]
    rw [hr, answer_freeze h]
  cases question with
  | field owner name =>
    dsimp only [answer]
    rw [r.get?_buildType_freeze, Registry.buildType, Registry.get?_buildWhere]
    cases ht : r.get? owner with
    | none => rfl
    | some t =>
      rw [Option.map_some, Registry.name_of_get? ht, beq_self_eq_true, if_pos rfl, Option.map_some,
        Option.bind_some, Option.bind_some, TypeDef.field?_freeze t.build_build]
      exact (Reply.freeze_ofOption (fun _ => rfl) _).symm
  | fields name =>
    dsimp only [answer]
    rw [r.get?_buildType_freeze]
    cases (r.buildType name).get? name <;> rfl
  | check =>
    have hfrozen := Registry.buildAll_freeze r.buildAll_buildAll
    have hviolations := Registry.violations_freeze r.buildAll_buildAll
    dsimp only [answer]
    rw [r.check_eq, Registry.check_eq, hfrozen, hviolations]
    unfold Reply.ofViolations
    split <;> rfl
  | _ => exact absurd (fun _ => rfl) h

/-- Where all fields have been built, any question is answered without thunks. -/
theorem answer_freeze_of_buildAll {r : Registry σ} (h : r.buildAll = r) (question : Question) :
    question.answer r.freeze = ((question.answer r).1.freeze, (question.answer r).2.freeze) := by
  have hr : (question.answer r).2 = r := by
    rw [answer_snd, Registry.buildWhere_of_buildAll h]
  have hfst := question.answer_freeze_snd r
  rw [hr] at hfst
  refine Prod.ext hfst ?_
  rw [answer_snd, Registry.buildWhere_of_buildAll (Registry.buildAll_freeze h), hr]

theorem trace_freeze (question : Question) (reply : Reply σ) :
    question.trace reply.freeze = question.trace reply := by
  cases question <;> cases reply <;> rfl

end Question

/-! ## Sessions without thunks -/

theorem Registry.register_freeze (r : Registry σ) (t : TypeDef σ) :
    r.freeze.register t.freeze = (r.register t).map Registry.freeze := by
  have hnames : r.freeze.names = r.names := by
    rw [names, names, types_freeze, List.map_map]
    exact List.map_congr_left fun t _ => t.name_freeze
  unfold register
  by_cases h : t.name ∈ r.names
  · rw [dif_pos h, dif_pos (by rwa [t.name_freeze, hnames]), t.name_freeze]
    rfl
  · rw [dif_neg h, dif_neg (by rwa [t.name_freeze, hnames])]
    refine congrArg Except.ok ((Registry.mk.injEq ..).mpr ?_)
    rw [List.map_append]
    rfl

def Stage.freeze : Stage σ → Stage σ
  | .registry r => .registry r.freeze
  | .schema s => .schema s.freeze
  | .gone r => .gone r.freeze

/-- The command with the thunk of the type that it registers taken away. -/
def Command.freeze : Command σ → Command σ
  | .register t => .register t.freeze
  | command => command

namespace Session

/-- The session with the thunks of all types taken away. -/
def freeze (session : Session σ) : Session σ :=
  { session with stage := session.stage.freeze }

/-- **A schema is used without thunks.** -/
theorem useSchema_freeze (s : Schema σ) (command : Command σ) (state : σ)
    (trace : List TraceLine) :
    useSchema s.freeze command (freeze ⟨.schema s, state, trace⟩) =
      ((useSchema s command ⟨.schema s, state, trace⟩).1.freeze,
        (useSchema s command ⟨.schema s, state, trace⟩).2.freeze) := by
  cases command with
  | describeSchema => exact Prod.ext (congrArg Reply.text s.describe_freeze) rfl
  | type name => exact Prod.ext (Question.ofOption_get?_freeze (fun _ => rfl) s.registry name) rfl
  | possibility abstract objects =>
    refine Prod.ext ?_ rfl
    have hobject : (s.freeze.registry.object? abstract).map ObjectType.name =
        (s.registry.object? abstract).map ObjectType.name := by
      rw [s.registry_freeze, Registry.object?_freeze, Option.map_map]
      rfl
    have hnames := s.registry.map_name_possibleTypes_mapFieldSets FieldSet.freeze abstract
    have hpossible : s.freeze.registry.isPossible abstract = s.registry.isPossible abstract :=
      funext (s.registry.isPossible_mapFieldSets FieldSet.freeze abstract)
    dsimp only [useSchema]
    rw [hobject, hpossible]
    exact congrArg (Reply.possibility _ · _) hnames
  | bind operation =>
    dsimp only [useSchema]
    rw [s.bind_freeze]
    rfl
  | execute run limit? =>
    dsimp only [useSchema]
    rw [s.execute_freeze]
    rfl
  | executeTogether runs =>
    dsimp only [useSchema]
    rw [s.executeTogether_freeze]
    rfl
  | _ => rfl

theorem ask_freeze {question : Question} {session : Session σ}
    (h : (∃ s, session.stage = .schema s) ∨ ∀ name, question.looksAt name = false) :
    session.freeze.ask question =
      ((session.ask question).1.freeze, (session.ask question).2.freeze) := by
  obtain ⟨stage, state, trace⟩ := session
  cases stage with
  | registry r =>
    have hlooks := h.resolve_left (by simp)
    have hanswer := Question.answer_freeze hlooks r
    dsimp only [ask, freeze, Stage.freeze]
    rw [hanswer, question.trace_freeze]
    rfl
  | schema s =>
    have hanswer : question.answer s.freeze.registry = _ :=
      question.answer_freeze_of_buildAll s.buildAll_registry
    dsimp only [ask, freeze, Stage.freeze]
    rw [hanswer, question.trace_freeze]
    rfl
  | gone r => rfl

/-- **One step without thunks.** With a schema, and before that for any command that looks at no
fields, a session does the same if the thunks of all types are taken away. -/
theorem step_freeze {command : Command σ} {session : Session σ}
    (h : (∃ s, session.stage = .schema s) ∨ ∀ name, command.looksAt name = false) :
    session.freeze.step command.freeze =
      ((session.step command).1.freeze, (session.step command).2.freeze) := by
  cases command with
  | ask question => exact ask_freeze h
  | register t =>
    obtain ⟨stage, state, trace⟩ := session
    cases stage with
    | registry r =>
      have hline : TraceLine.ofRegistered t.freeze = TraceLine.ofRegistered t := by
        cases t <;> rfl
      dsimp only [step, Command.freeze, register, freeze, Stage.freeze]
      rw [r.register_freeze, hline]
      cases r.register t <;> rfl
    | _ => rfl
  | create query mutation? =>
    obtain ⟨stage, state, trace⟩ := session
    cases stage with
    | registry r => exact absurd (h.resolve_left (by simp) "") (by simp [Command.looksAt])
    | _ => rfl
  | _ =>
    obtain ⟨stage, state, trace⟩ := session
    cases stage with
    | schema s =>
      dsimp only [step, Command.freeze, freeze, Stage.freeze]
      exact useSchema_freeze s _ state trace
    | _ => rfl

/-- **A run without thunks.** -/
theorem run_freeze {commands : List (Command σ)} {session : Session σ}
    (h : (∃ s, session.stage = .schema s) ∨
      ∀ command ∈ commands, ∀ name, command.looksAt name = false) :
    run (commands.map Command.freeze) session.freeze =
      ((run commands session).1.map Reply.freeze, (run commands session).2.freeze) := by
  induction commands generalizing session with
  | nil => rfl
  | cons command rest ih =>
    have hstep := step_freeze (h.imp_right fun h => h command List.mem_cons_self)
    have hafter : (∃ s, (session.step command).2.stage = .schema s) ∨
        ∀ c ∈ rest, ∀ name, c.looksAt name = false := by
      refine h.imp ?_ fun h c hc => h c (List.mem_cons_of_mem _ hc)
      rintro ⟨s, hs⟩
      obtain ⟨s', hs', -⟩ := stage_step hs command
      exact ⟨s', hs'⟩
    rw [List.map_cons, run, hstep]
    dsimp only
    rw [ih hafter]
    rfl

end Session

/-! ## Building once -/

namespace TypeDef

variable {t : TypeDef σ} {thunk : Nat → List (Field σ)}

theorem fields?_of_lazy (h : t.fieldSet? = some (.lazy thunk)) : t.fields? = some (thunk 0) := by
  rw [fields?, h]
  rfl

theorem fieldSet?_build_of_lazy (h : t.fieldSet? = some (.lazy thunk)) :
    t.build.fieldSet? = some ⟨some thunk, some (thunk 0), 1⟩ := by
  rw [build, fieldSet?_mapFieldSet, h]
  rfl

@[simp] theorem fields?_build (t : TypeDef σ) : t.build.fields? = t.fields? := by
  rw [fields?, fields?, build, fieldSet?_mapFieldSet, Option.map_map]
  exact congrArg (t.fieldSet?.map ·) (funext FieldSet.fields_build)

end TypeDef

namespace Session

/-- **Lazy fields are built once.** Take any session that registers a type with lazy fields, and any
commands after that. Their thunk has run once if one of the commands looked at the type, as checks
and the making of a schema do, whether they find anything wrong or not; otherwise it has not run.
Whoever asks for the fields then, and whoever uses the schema, is given the result of the first run,
and none comes after it.

Of all questions to a registry none but those for fields and checks build anything, and what they
are answered with has been built by then: the registry that they leave gives the same answer without
any thunk. So it is with each type that a check comes to. A check and the making of a schema build
all fields of all types that are registered by then. In a schema asking for fields changes nothing,
nor does any command. With a schema, and before that as long as nothing looks at fields, a session
does the same if the thunks of all types are taken away. -/
theorem fields_built_once :
    (∀ (session : Session σ) (t : TypeDef σ) (thunk : Nat → List (Field σ))
        (commands : List (Command σ)),
      t.fieldSet? = some (.lazy thunk) → (session.register t).1 = .done →
      let final := (run commands (session.register t).2).2
      let looked := commands.any (·.looksAt t.name)
      final.fieldSet? t.name = some
          ⟨some thunk, if looked then some (thunk 0) else none, if looked then 1 else 0⟩ ∧
        (∀ set, final.fieldSet? t.name = some set →
          set.get = (thunk 0, ⟨some thunk, some (thunk 0), 1⟩)) ∧
        ((∀ r, final.stage ≠ .gone r) → ∀ name, (final.ask (.field t.name name)).1 =
          .ofOption .field ((thunk 0).find? (·.name == name))) ∧
        ∀ s, final.stage = .schema s →
          final.fieldSet? t.name = some ⟨some thunk, some (thunk 0), 1⟩) ∧
    (∀ (r : Registry σ) (question : Question),
      (question.answer r).2 = (match question with
        | .field owner _ => r.buildType owner
        | .fields name => r.buildType name
        | .check => r.buildAll
        | _ => r) ∧
      (question.answer (question.answer r).2.freeze).1 = (question.answer r).1.freeze) ∧
    (∀ (r : Registry σ) (t : TypeDef σ), r.buildAll.get? t.name = some t.build →
      let frozen := (r.checkType t).2.freeze
      (frozen.get? t.name).toList.flatMap frozen.typeViolations = (r.checkType t).1) ∧
    (∀ (state : σ) (commands : List (Command σ)) (query : String) (mutation? : Option String),
      let session := (run commands (start state)).2
      (session.ask .check).2.registry = session.registry.buildAll ∧
        (session.create query mutation?).2.registry = session.registry.buildAll) ∧
    (∀ (session : Session σ) (s : Schema σ), session.stage = .schema s →
      (∀ name t, s.registry.get? name = some t → ∀ set, t.fieldSet? = some set →
        set.get = (set.fields, set)) ∧
      ∀ commands, (run commands session).2.registry = s.registry) ∧
    ∀ (session : Session σ) (commands : List (Command σ)),
      ((∃ s, session.stage = .schema s) ∨
        ∀ command ∈ commands, ∀ name, command.looksAt name = false) →
      run (commands.map Command.freeze) session.freeze =
        ((run commands session).1.map Reply.freeze, (run commands session).2.freeze) := by
  refine ⟨?_, ?_, ?_, ?_, ?_, ?_⟩
  · intro session t thunk commands hlazy hdone final looked
    obtain ⟨hsettled, ht⟩ := registered hdone
    have hget : final.registry.get? t.name = some (if looked then t.build else t) :=
      get?_run hsettled ht commands
    have hset : final.fieldSet? t.name = some
        ⟨some thunk, if looked then some (thunk 0) else none, if looked then 1 else 0⟩ := by
      rw [fieldSet?, hget, Option.bind_some]
      cases looked with
      | true => exact TypeDef.fieldSet?_build_of_lazy hlazy
      | false => exact hlazy
    refine ⟨hset, fun set hs => ?_, fun hstage name => ?_, fun s hs => ?_⟩
    · rw [hset, Option.some.injEq] at hs
      subst hs
      cases looked <;> rfl
    · rw [ask_field hget hstage name, TypeDef.field?, TypeDef.fields?_build,
        TypeDef.fields?_of_lazy hlazy, Option.bind_some]
    · -- a schema holds the type as it is built, whether this has been looked at before or not
      have hbuilt := congrArg (·.get? t.name) s.buildAll_registry
      have hregistry : final.registry = s.registry := by rw [registry, hs]
      rw [Registry.get?_buildAll, ← hregistry, hget] at hbuilt
      rw [fieldSet?, hget, ← hbuilt, ← TypeDef.fieldSet?_build_of_lazy hlazy]
      cases looked <;> simp
  · intro r question
    refine ⟨?_, question.answer_freeze_snd r⟩
    cases question with
    | check => rw [Question.answer, Registry.check_eq]
    | _ => rfl
  · exact fun _ _ => Registry.checkType_freeze
  · intro state commands query mutation? session
    have hsettled : session.Settled := settled_run (settled_start state) commands
    exact ⟨registry_ask hsettled .check, registry_create hsettled query mutation?⟩
  · intro session s hs
    refine ⟨fun name t ht set hset => ?_, registry_run_of_stage hs⟩
    exact FieldSet.get_of_isBuilt (s.isBuilt ht hset)
  · exact fun _ _ => run_freeze

end Session

namespace Building

/-- Builds the one field of dogs, and would build none if it ran again. -/
def thunk : Nat → List (Field Unit)
  | 0 => [⟨"name", none, [], .named "String", .current, none⟩]
  | _ => []

def dog : TypeDef Unit :=
  .object ⟨"Dog", none, .lazy thunk, []⟩

def session : Session Unit :=
  ((Session.start ()).register dog).2

/-- Asks about dogs without looking at their fields. -/
def glances : List (Command Unit) :=
  [.ask (.get "Dog"), .ask (.resolve "Dog"), .ask (.possible "Dog"), .ask (.describe "Dog"),
    .ask .types]

/-- Looks at dogs, makes a schema, and goes on to look at them. -/
def looks : List (Command Unit) :=
  [.ask (.fields "Dog"), .ask .check, .create "Dog" none, .ask .check,
    .bind ⟨.query, none, [.field ⟨none, "name", [], none⟩]⟩, .ask (.field "Dog" "name")]

/-- Glances build nothing, and however often dogs are looked at, their thunk runs once. -/
theorem fields_built_once_dog :
    dog.fieldSet? = some (.lazy thunk) ∧ ((Session.start ()).register dog).1 = .done ∧
      (Session.run glances session).2.fieldSet? "Dog" = some ⟨some thunk, none, 0⟩ ∧
      Session.run (glances.map Command.freeze) session.freeze =
        ((Session.run glances session).1.map Reply.freeze, (Session.run glances session).2.freeze) ∧
      (Session.run looks session).2.fieldSet? "Dog" = some ⟨some thunk, some (thunk 0), 1⟩ ∧
      ((Session.run looks session).2.ask (.field "Dog" "name")).1 =
        .ofOption .field ((thunk 0).find? (·.name == "name")) ∧
      ((session.registry.checkType dog).2.freeze.get? "Dog").toList.flatMap
          (session.registry.checkType dog).2.freeze.typeViolations = [] ∧
      ∃ s, (Session.run looks session).2.stage = .schema s ∧
        ∀ commands, (Session.run commands (Session.run looks session).2).2.registry = s.registry ∧
          Session.run (commands.map Command.freeze) (Session.run looks session).2.freeze =
            ((Session.run commands (Session.run looks session).2).1.map Reply.freeze,
              (Session.run commands (Session.run looks session).2).2.freeze) := by
  obtain ⟨hbuilt, -, hcheck, -, hschema, hfrozen⟩ := @Session.fields_built_once Unit
  have hlazy : dog.fieldSet? = some (.lazy thunk) := rfl
  have hdone : ((Session.start ()).register dog).1 = .done := rfl
  have hglances : ∀ command ∈ glances, ∀ name, command.looksAt name = false := by
    simp [glances, Command.looksAt, Question.looksAt]
  obtain ⟨s, hs⟩ : ∃ s, (Session.run looks session).2.stage = .schema s := ⟨_, rfl⟩
  have hstage : ∀ r, (Session.run looks session).2.stage ≠ .gone r := by simp [hs]
  obtain ⟨hunbuilt, -⟩ := hbuilt _ dog thunk glances hlazy hdone
  obtain ⟨hset, -, hfield, -⟩ := hbuilt _ dog thunk looks hlazy hdone
  refine ⟨hlazy, hdone, hunbuilt, hfrozen session glances (.inr hglances), hset,
    hfield hstage "name", (hcheck session.registry dog rfl).trans rfl, s, hs, ?_⟩
  exact fun commands => ⟨(hschema _ s hs).2 commands, hfrozen _ commands (.inl ⟨s, hs⟩)⟩

end Building

end GraphQL
