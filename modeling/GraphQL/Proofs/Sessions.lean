import GraphQL.Proofs.Frozen
import GraphQL.Session

/-!
# What sessions look at

What a command does to the field sets of a session is said by `Command.looksAt`: those of the types
that it looks at are built, and nothing else happens to them (`Session.registry_step`). So a type
that has been registered is built if one of the commands after that has looked at it, and otherwise
stays as it was (`Session.get?_run`). A check and the making of a schema look at all types; a schema
keeps its registry whatever it is used for (`Session.registry_run_of_stage`).
-/

namespace GraphQL

variable {σ : Type}

/-! ## Registering -/

namespace Registry

/-- Registering puts the type behind the others. -/
theorem types_register {r r' : Registry σ} {t : TypeDef σ} (h : r.register t = .ok r') :
    r'.types = r.types ++ [t] := by
  unfold register at h
  split at h
  · cases h
  · cases h
    exact (List.append_assoc ..).symm

theorem get?_register {r r' : Registry σ} {t : TypeDef σ} (h : r.register t = .ok r')
    {name : String} {t' : TypeDef σ} (ht' : r.get? name = some t') : r'.get? name = some t' := by
  rw [get?, types_register h, List.find?_append, ← get?, ht', Option.some_or]

theorem get?_register_self {r r' : Registry σ} {t : TypeDef σ} (h : r.register t = .ok r') :
    r'.get? t.name = some t := by
  refine get?_of_mem_types ?_
  rw [types_register h]
  exact List.mem_append_right _ (List.mem_singleton_self t)

end Registry

/-- A schema has the registry as the check has left it. -/
theorem Schema.registry_of_create? {r : Registry σ} {query : String} {mutation? : Option String}
    {s : Schema σ} (h : Schema.create? r query mutation? = .ok s) : s.registry = r.buildAll := by
  unfold Schema.create? at h
  dsimp only at h
  split at h
  · cases h
    exact congrArg Prod.snd r.check_eq
  · cases h

/-! ## What commands look at -/

/-- Does the question look at the fields of the type? -/
def Question.looksAt (name : String) : Question → Bool
  | .field shown _ | .fields shown => name == shown
  | .check => true
  | _ => false

/-- Does the command look at the fields of the type, as long as they may have to be built? -/
def Command.looksAt (name : String) : Command σ → Bool
  | .ask question => question.looksAt name
  | .create .. => true
  | _ => false

/-- **A question builds the fields that it looks at**, and no others. -/
theorem Question.answer_snd (r : Registry σ) (question : Question) :
    (question.answer r).2 = r.buildWhere fun t => question.looksAt t.name := by
  cases question with
  | field owner name => rfl
  | fields name => rfl
  | check => exact congrArg Prod.snd r.check_eq
  | _ => exact r.buildWhere_false.symm

namespace Session

/-- The registry that the session holds, by itself or in a schema, or has used up. -/
def registry (session : Session σ) : Registry σ :=
  match session.stage with
  | .registry r => r
  | .schema s => s.registry
  | .gone r => r

/-- A registry that has been used up has all fields built. -/
def Settled (session : Session σ) : Prop :=
  ∀ r, session.stage = .gone r → r.buildAll = r

theorem registry_of_stage {session : Session σ} {r : Registry σ}
    (h : session.stage = .registry r) : session.registry = r := by
  rw [registry, h]

/-- When types can no longer be registered, building fields changes nothing. -/
theorem Settled.buildWhere {session : Session σ} (h : session.Settled)
    (hstage : ∀ r, session.stage ≠ .registry r) (chosen : TypeDef σ → Bool) :
    session.registry.buildWhere chosen = session.registry := by
  refine Registry.buildWhere_of_buildAll ?_ chosen
  unfold registry
  split
  · next r hr => exact absurd hr (hstage r)
  · next s _ => exact s.buildAll_registry
  · next r hr => exact h r hr

theorem registry_ask {session : Session σ} (h : session.Settled) (question : Question) :
    (session.ask question).2.registry =
      session.registry.buildWhere fun t => question.looksAt t.name := by
  unfold ask
  split
  · next r hr =>
    rw [registry_of_stage hr]
    exact question.answer_snd r
  · next s hs => exact (h.buildWhere (by simp [hs]) _).symm
  · next r hr => exact (h.buildWhere (by simp [hr]) _).symm

theorem registry_create {session : Session σ} (h : session.Settled) (query : String)
    (mutation? : Option String) :
    (session.create query mutation?).2.registry = session.registry.buildAll := by
  unfold create
  split
  · next r hr =>
    rw [registry_of_stage hr]
    dsimp only
    split
    · next s hs => exact Schema.registry_of_create? hs
    · exact congrArg Prod.snd r.check_eq
  · next hstage => exact (h.buildWhere hstage _).symm

theorem settled_create {session : Session σ} (h : session.Settled) (query : String)
    (mutation? : Option String) : (session.create query mutation?).2.Settled := by
  unfold create
  split
  · next r hr =>
    dsimp only
    split
    · exact nofun
    · intro r' hr'
      cases hr'
      exact r.buildAll_check
  · exact h

theorem settled_ask {session : Session σ} (h : session.Settled) (question : Question) :
    (session.ask question).2.Settled := by
  unfold ask
  split
  · exact nofun
  · exact h
  · exact h

/-- A schema that is used stays, perhaps without `__typename`. -/
theorem stage_useSchema {session : Session σ} {s : Schema σ} (h : session.stage = .schema s)
    (command : Command σ) :
    ∃ s', (session.useSchema s command).2.stage = .schema s' ∧ s'.registry = s.registry := by
  cases command with
  | disableIntrospection => exact ⟨s.disableIntrospection, rfl, rfl⟩
  | _ => exact ⟨s, h, rfl⟩

theorem registry_useSchema {session : Session σ} {s : Schema σ} (h : session.stage = .schema s)
    (command : Command σ) : (session.useSchema s command).2.registry = session.registry := by
  obtain ⟨s', hs', hregistry⟩ := stage_useSchema h command
  rw [registry, hs', registry, h]
  exact hregistry

theorem settled_useSchema {session : Session σ} {s : Schema σ} (h : session.stage = .schema s)
    (command : Command σ) : (session.useSchema s command).2.Settled := by
  obtain ⟨s', hs', -⟩ := stage_useSchema h command
  intro r hr
  rw [hs'] at hr
  cases hr

/-- A type is registered, or nothing happens. -/
theorem register_cases (t : TypeDef σ) (session : Session σ) :
    (∃ r r', session.stage = .registry r ∧ r.register t = .ok r' ∧
      (session.register t).1 = .done ∧ (session.register t).2.stage = .registry r') ∨
    ((session.register t).1 ≠ .done ∧ (session.register t).2 = session) := by
  cases hs : session.stage with
  | registry r =>
    cases hr : r.register t with
    | ok r' =>
      exact .inl ⟨r, r', rfl, hr, by simp [register, hs, hr], by simp [register, hs, hr, addTrace]⟩
    | error e => exact .inr (by simp [register, hs, hr])
  | _ => exact .inr (by simp [register, hs])

/-! ## Steps and runs -/

theorem settled_step {session : Session σ} (h : session.Settled) (command : Command σ) :
    (session.step command).2.Settled := by
  unfold step
  split
  · next question => exact settled_ask h question
  · next t =>
    rcases register_cases t session with ⟨r, r', -, -, -, hstage⟩ | ⟨-, hsame⟩
    · intro r'' hr''
      rw [hstage] at hr''
      cases hr''
    · rwa [hsame]
  · next query mutation? => exact settled_create h query mutation?
  · split
    · next s hs => exact settled_useSchema hs command
    · exact h

/-- **What a command does to field sets.** It registers a type, or it builds the field sets that it
looks at and does nothing else to the registry. -/
theorem registry_step {session : Session σ} (h : session.Settled) (command : Command σ) :
    (∃ t r', command = .register t ∧ session.registry.register t = .ok r' ∧
      (session.step command).2.registry = r') ∨
    (session.step command).2.registry =
      session.registry.buildWhere fun t => command.looksAt t.name := by
  have hnone := session.registry.buildWhere_false.symm
  unfold step
  split
  · next question => exact .inr (registry_ask h question)
  · next t =>
    rcases register_cases t session with ⟨r, r', hstage, hr', -, hstage'⟩ | ⟨-, hsame⟩
    · refine .inl ⟨t, r', rfl, ?_, registry_of_stage hstage'⟩
      rwa [registry_of_stage hstage]
    · rw [hsame]
      exact .inr hnone
  · next query mutation? => exact .inr (registry_create h query mutation?)
  · next hask hregister hcreate =>
    -- the commands that are left are for schemas, and look at nothing
    have hlooks : (fun t : TypeDef σ => command.looksAt t.name) = fun _ => false := by
      funext t
      cases command with
      | ask question => exact absurd rfl (hask question)
      | create query mutation? => exact absurd rfl (hcreate query mutation?)
      | _ => rfl
    rw [hlooks, ← hnone]
    split
    · next s hs => exact .inr (registry_useSchema hs command)
    · exact .inr rfl

/-- A command that looks at a type builds it, and other commands leave it as it is. -/
theorem get?_step {session : Session σ} (h : session.Settled) {name : String} {t : TypeDef σ}
    (ht : session.registry.get? name = some t) (command : Command σ) :
    (session.step command).2.registry.get? name =
      some (if command.looksAt name then t.build else t) := by
  rcases registry_step h command with ⟨t', r', rfl, hr', hstep⟩ | hstep
  · rw [hstep]
    exact Registry.get?_register hr' ht
  · rw [hstep, Registry.get?_buildWhere, ht, Option.map_some, Registry.name_of_get? ht]

theorem settled_run {session : Session σ} (h : session.Settled) (commands : List (Command σ)) :
    (run commands session).2.Settled := by
  induction commands generalizing session with
  | nil => exact h
  | cons command rest ih => exact ih (settled_step h command)

/-- **A type is built if one of the commands looks at it**, and is what it was otherwise. -/
theorem get?_run {session : Session σ} (h : session.Settled) {name : String} {t : TypeDef σ}
    (ht : session.registry.get? name = some t) (commands : List (Command σ)) :
    (run commands session).2.registry.get? name =
      some (if commands.any (·.looksAt name) then t.build else t) := by
  induction commands generalizing session t with
  | nil => exact ht
  | cons command rest ih =>
    -- what is built stays the same when it is looked at again (`TypeDef.build_build`)
    refine (ih (settled_step h command) (get?_step h ht command)).trans ?_
    rw [List.any_cons]
    cases command.looksAt name <;> cases rest.any (·.looksAt name) <;> simp

/-- The field set that the session holds of a type. -/
def fieldSet? (session : Session σ) (name : String) : Option (FieldSet σ) :=
  (session.registry.get? name).bind TypeDef.fieldSet?

theorem settled_start (state : σ) : (start state).Settled :=
  nofun

/-- A session that has registered a type holds it, and is settled. -/
theorem registered {session : Session σ} {t : TypeDef σ} (h : (session.register t).1 = .done) :
    (session.register t).2.Settled ∧ (session.register t).2.registry.get? t.name = some t := by
  rcases register_cases t session with ⟨r, r', -, hr', -, hstage⟩ | ⟨hne, -⟩
  · refine ⟨fun r'' hr'' => ?_, ?_⟩
    · rw [hstage] at hr''
      cases hr''
    · rw [registry_of_stage hstage]
      exact Registry.get?_register_self hr'
  · exact absurd h hne

/-- A question for a field finds it among the fields that have been built. -/
theorem ask_field {session : Session σ} {t : TypeDef σ} {looked : Bool}
    (ht : session.registry.get? t.name = some (if looked then t.build else t))
    (hstage : ∀ r, session.stage ≠ .gone r) (name : String) :
    (session.ask (.field t.name name)).1 = .ofOption .field (t.build.field? name) := by
  have hbuilt : (session.registry.buildType t.name).get? t.name = some t.build := by
    rw [Registry.buildType, Registry.get?_buildWhere, ht]
    cases looked <;> simp
  unfold registry at hbuilt
  unfold ask
  split
  · next r hr =>
    rw [hr] at hbuilt
    simp only [Question.answer, hbuilt, Option.bind_some]
  · next s hs =>
    rw [hs] at hbuilt
    simp only [Question.answer, hbuilt, Option.bind_some]
  · next r hr => exact absurd hr (hstage r)

/-- A session with a schema keeps it. -/
theorem stage_step {session : Session σ} {s : Schema σ} (h : session.stage = .schema s)
    (command : Command σ) :
    ∃ s', (session.step command).2.stage = .schema s' ∧ s'.registry = s.registry := by
  unfold step
  split
  · exact ⟨s, by simp [ask, h, addTrace], rfl⟩
  · exact ⟨s, by simp [register, h], rfl⟩
  · exact ⟨s, by simp [create, h], rfl⟩
  · rw [h]
    exact stage_useSchema h command

/-- A schema has the same registry whatever it is used for. -/
theorem registry_run_of_stage {session : Session σ} {s : Schema σ} (h : session.stage = .schema s)
    (commands : List (Command σ)) : (run commands session).2.registry = s.registry := by
  induction commands generalizing session s with
  | nil => rw [run, registry, h]
  | cons command rest ih =>
    obtain ⟨s', hs', hregistry⟩ := stage_step h command
    exact (ih hs').trans hregistry

end Session

end GraphQL
