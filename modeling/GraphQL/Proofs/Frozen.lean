import GraphQL.Description
import GraphQL.Execution.Basic
import GraphQL.Proofs.Dispatch
import GraphQL.Proofs.Plain

/-!
# Field sets without their thunks

A frozen field set has lost its thunk: what has been built is there, and nothing else can be. What
comes out the same when all field sets are frozen has run no thunk. So a check looks at nothing that
it has not built before (`Registry.checkType_freeze`). In a schema all fields have been built, so it
can be frozen as a whole, and operations are bound to it (`Schema.bind_freeze`) and executed
(`Schema.execute_freeze`) as before.
-/

namespace GraphQL

variable {σ : Type}

/-! ## Freezing -/

namespace FieldSet

/-- The set without its thunk. -/
def freeze (s : FieldSet σ) : FieldSet σ :=
  { s with thunk? := none }

/-- Where fields have been built, these are given, and the set stays as it is. -/
theorem get_of_isBuilt {s : FieldSet σ} (h : s.isBuilt = true) : s.get = (s.fields, s) :=
  Prod.ext rfl (build_of_isBuilt h)

/-- Fields that have been built are there without the thunk. -/
theorem fields_freeze {s : FieldSet σ} (h : s.isBuilt = true) : s.freeze.fields = s.fields := by
  rcases s with ⟨thunk?, _ | fields, runs⟩
  · cases h
  · rfl

theorem build_freeze {s : FieldSet σ} (h : s.isBuilt = true) : s.freeze.build = s.freeze :=
  build_of_isBuilt h

end FieldSet

def ObjectType.freeze (o : ObjectType σ) : ObjectType σ :=
  o.mapFieldSet FieldSet.freeze

theorem ObjectType.field?_freeze {o : ObjectType σ} (h : o.fieldSet.isBuilt = true)
    (name : String) : o.freeze.field? name = o.field? name :=
  congrArg (List.find? _) (FieldSet.fields_freeze h)

namespace TypeDef

def freeze (t : TypeDef σ) : TypeDef σ :=
  t.mapFieldSet FieldSet.freeze

@[simp] theorem name_freeze (t : TypeDef σ) : t.freeze.name = t.name :=
  t.name_mapFieldSet _

@[simp] theorem kind_freeze (t : TypeDef σ) : t.freeze.kind = t.kind :=
  t.kind_mapFieldSet _

theorem describe_freeze (t : TypeDef σ) : t.freeze.describe = t.describe := by
  cases t <;> rfl

theorem serialize?_freeze (t : TypeDef σ) : t.freeze.serialize? = t.serialize? := by
  cases t <;> rfl

variable {t : TypeDef σ}

/-- A type that building leaves as it is has built fields. -/
theorem isBuilt_of_build_eq (h : t.build = t) {s : FieldSet σ} (hs : s ∈ t.fieldSet?) :
    s.isBuilt = true := by
  have hset := t.fieldSet?_mapFieldSet FieldSet.build
  rw [← build, h, Option.mem_def.1 hs] at hset
  rw [Option.some.inj hset]
  exact s.isBuilt_build

theorem build_freeze (h : t.build = t) : t.freeze.build = t.freeze := by
  rw [build, freeze, mapFieldSet_mapFieldSet]
  exact mapFieldSet_congr _ fun s hs => FieldSet.build_freeze (isBuilt_of_build_eq h hs)

theorem field?_freeze (h : t.build = t) (name : String) : t.freeze.field? name = t.field? name := by
  have hfields : t.freeze.fields? = t.fields? := by
    rw [fields?, fields?, freeze, fieldSet?_mapFieldSet]
    cases hs : t.fieldSet? with
    | none => rfl
    | some s => exact congrArg some (FieldSet.fields_freeze (isBuilt_of_build_eq h hs))
  rw [field?, field?, hfields]

end TypeDef

namespace Registry

/-- The registry with all field sets frozen. -/
def freeze (r : Registry σ) : Registry σ :=
  r.mapFieldSets FieldSet.freeze

theorem types_freeze (r : Registry σ) : r.freeze.types = r.types.map TypeDef.freeze :=
  r.types_mapFieldSets FieldSet.freeze

theorem get?_freeze (r : Registry σ) (name : String) :
    r.freeze.get? name = (r.get? name).map TypeDef.freeze :=
  r.get?_mapFieldSets FieldSet.freeze name

theorem object?_freeze (r : Registry σ) (name : String) :
    r.freeze.object? name = (r.object? name).map ObjectType.freeze :=
  r.object?_mapFieldSets FieldSet.freeze name

theorem describe_freeze (r : Registry σ) : r.freeze.describe = r.describe := by
  unfold describe
  rw [types_freeze, List.map_map]
  simp only [Function.comp_def, TypeDef.name_freeze, TypeDef.describe_freeze]

/-- What has been built of a type stays when it is frozen and asked for again. -/
theorem get?_buildType_freeze (r : Registry σ) (name : String) :
    ((r.buildType name).freeze.buildType name).get? name =
      ((r.buildType name).get? name).map TypeDef.freeze := by
  rw [buildType, get?_buildWhere, get?_freeze, buildType, get?_buildWhere]
  cases h : r.get? name with
  | none => rfl
  | some t => simp [name_of_get? h, TypeDef.build_freeze t.build_build]

/-! ## Registries with built fields -/

variable {r : Registry σ}

theorem build_of_mem_types (h : r.buildAll = r) {t : TypeDef σ} (ht : t ∈ r.types) :
    t.build = t := by
  have hget := get?_buildAll r t.name
  rw [h, get?_of_mem_types ht, Option.map_some] at hget
  exact (Option.some.inj hget).symm

theorem buildWhere_of_buildAll (h : r.buildAll = r) (chosen : TypeDef σ → Bool) :
    r.buildWhere chosen = r :=
  buildWhere_of_build_eq fun _ ht _ => build_of_mem_types h ht

theorem isBuilt_of_mem_types (h : r.buildAll = r) {t : TypeDef σ} (ht : t ∈ r.types)
    {s : FieldSet σ} (hs : s ∈ t.fieldSet?) : s.isBuilt = true :=
  TypeDef.isBuilt_of_build_eq (build_of_mem_types h ht) hs

theorem buildAll_freeze (h : r.buildAll = r) : r.freeze.buildAll = r.freeze := by
  rw [buildAll_eq, freeze, mapFieldSets_mapFieldSets]
  exact mapFieldSets_congr fun t ht s hs => FieldSet.build_freeze (isBuilt_of_mem_types h ht hs)

theorem violations_freeze (h : r.buildAll = r) : r.freeze.violations = r.violations :=
  violations_mapFieldSets fun _ ht _ hs => FieldSet.fields_freeze (isBuilt_of_mem_types h ht hs)

theorem plain_freeze (h : r.buildAll = r) : r.freeze.plain = r.plain := by
  rw [plain, freeze, mapFieldSets_mapFieldSets]
  refine mapFieldSets_congr fun t ht s hs => ?_
  exact congrArg (fun fields => FieldSet.eager (fields.map Field.plain))
    (FieldSet.fields_freeze (isBuilt_of_mem_types h ht hs))

/-- **A check looks at fields that it has built before.** What it finds at a type can be found
without any thunk in the registry that it leaves. -/
theorem checkType_freeze {t : TypeDef σ} (h : r.buildAll.get? t.name = some t.build) :
    ((r.checkType t).2.freeze.get? t.name).toList.flatMap (r.checkType t).2.freeze.typeViolations =
      (r.checkType t).1 := by
  obtain ⟨-, hall, hself, -⟩ := checkType_eq h
  have hlooks : ∀ name ∈ r.lookedAt t, (r.checkType t).2.BuiltAt name :=
    fun name hname => builtAt_looks hname r
  have hfound : (r.checkType t).1 =
      ((r.checkType t).2.get? t.name).toList.flatMap (r.checkType t).2.typeViolations := rfl
  rw [hfound]
  generalize (r.checkType t).2 = r' at hall hself hlooks ⊢
  have hget : r'.get? t.name = some t.build := by
    rw [hself, hall, h]
  have htypes : ∀ set ∈ t.build.fieldSet?, set.freeze.fields = set.fields :=
    fun set hset => FieldSet.fields_freeze (TypeDef.isBuilt_of_build_eq t.build_build hset)
  have hinterfaces : ∀ name ∈ r'.lookedAt t.build, ∀ i, r'.get? name = some (.interface i) →
      i.fieldSet.freeze.fields = i.fieldSet.fields := by
    intro name hname i hi
    rw [lookedAt_build hall] at hname
    have hbuilt := hlooks name hname
    rw [BuiltAt, get?_buildAll, hi] at hbuilt
    have heq : (TypeDef.interface i).build = .interface i := (Option.some.inj hbuilt).symm
    exact FieldSet.fields_freeze (TypeDef.isBuilt_of_build_eq heq rfl)
  have hdefects : r'.freeze.typeDefects t.build.freeze = r'.typeDefects t.build :=
    typeDefects_mapFieldSets htypes hinterfaces
  rw [get?_freeze, hget, Option.map_some, Option.toList_some, Option.toList_some,
    List.flatMap_singleton, List.flatMap_singleton, typeViolations, typeViolations, hdefects,
    TypeDef.name_freeze]

end Registry

/-! ## Frozen schemas -/

namespace Schema

variable (s : Schema σ)

/-- In a schema all fields have been built. -/
theorem isBuilt {name : String} {t : TypeDef σ} (ht : s.registry.get? name = some t)
    {set : FieldSet σ} (hs : set ∈ t.fieldSet?) : set.isBuilt = true :=
  Registry.isBuilt_of_mem_types s.buildAll_registry (Registry.mem_types_of_get? ht) hs

/-- The schema with all field sets frozen. -/
def freeze : Schema σ where
  registry := s.registry.freeze
  queryName := s.queryName
  mutationName? := s.mutationName?
  introspectionDisabled := s.introspectionDisabled
  buildAll_registry := Registry.buildAll_freeze s.buildAll_registry
  violations_eq_nil := (Registry.violations_freeze s.buildAll_registry).trans s.violations_eq_nil
  queryRoot_eq_nil := by
    rw [Registry.freeze, Registry.rootViolations_mapFieldSets]
    exact s.queryRoot_eq_nil
  mutationRoot_eq_nil := by
    rw [Registry.freeze, Registry.rootViolations_mapFieldSets]
    exact s.mutationRoot_eq_nil

theorem registry_freeze : s.freeze.registry = s.registry.freeze :=
  rfl

theorem describe_freeze : s.freeze.describe = s.describe := by
  rw [describe, describe, registry_freeze, Registry.describe_freeze]
  rfl

theorem freeze_resembles : s.freeze.Resembles s :=
  ⟨Registry.plain_freeze s.buildAll_registry, rfl, rfl, rfl⟩

/-- Operations are bound to the fields that have been built. -/
theorem bind_freeze : s.freeze.bind = s.bind :=
  funext s.freeze_resembles.bind_eq

theorem root?_freeze (kind : OperationKind) : s.freeze.root? kind = (s.root? kind).map .freeze := by
  have hroot : s.freeze.rootName? kind = s.rootName? kind := by
    cases kind <;> rfl
  rw [root?, root?, hroot]
  cases s.rootName? kind with
  | none => rfl
  | some name => exact s.registry.object?_freeze name

end Schema

/-! ## Jobs -/

namespace Context

variable {ctx : Context σ}

def freeze (ctx : Context σ) : Context σ :=
  { ctx with schema := ctx.schema.freeze }

/-- The job does with the frozen object types of a schema what the other does with the object types
themselves. -/
def Freezes (ctx : Context σ) (frozen object : ObjectJob σ) : Prop :=
  ∀ name o, ctx.schema.registry.get? name = some (.object o) → frozen o.freeze = object o

theorem collect_freeze {name : String} {o : ObjectType σ}
    (ho : ctx.schema.registry.get? name = some (.object o)) (selections : List Selection) :
    ctx.freeze.schema.registry.collect o.freeze selections =
      ctx.schema.registry.collect o selections := by
  refine ctx.schema.registry.collectInto_mapFieldSets (fun name => ?_) selections []
  rw [ObjectType.declares, ObjectType.declares, ← ObjectType.freeze,
    ObjectType.field?_freeze (ctx.schema.isBuilt ho rfl)]

variable {frozen object : ObjectJob σ}

theorem completeAbstract_freeze (h : ctx.Freezes frozen object) (abstract : String)
    (resolveType? : Option TypeResolver) (v : Value) (selections : List Selection) (path : Path) :
    ctx.freeze.completeAbstract frozen abstract resolveType? v selections path =
      ctx.completeAbstract object abstract resolveType? v selections path := by
  have hfrozen : ctx.freeze.schema.registry.dispatch abstract resolveType? v =
      (ctx.schema.registry.dispatch abstract resolveType? v).map ObjectType.freeze :=
    ctx.schema.registry.dispatch_mapFieldSets FieldSet.freeze abstract resolveType? v
  rw [completeAbstract, completeAbstract, hfrozen]
  cases hd : ctx.schema.registry.dispatch abstract resolveType? v with
  | error e => rfl
  | ok o =>
    obtain ⟨-, ho, -⟩ := Registry.dispatch_eq_ok_iff.1 hd
    have hjob := h _ o ho
    dsimp only [Except.map]
    rw [hjob]
    rfl

theorem completeNamed_freeze (h : ctx.Freezes frozen object) (selections : List Selection)
    (name : String) (v : Value) (path : Path) :
    ctx.freeze.completeNamed frozen selections name v path =
      ctx.completeNamed object selections name v path := by
  have hget : ctx.freeze.schema.registry.get? name =
      (ctx.schema.registry.get? name).map TypeDef.freeze := ctx.schema.registry.get?_freeze name
  rw [completeNamed, completeNamed, hget]
  cases ht : ctx.schema.registry.get? name with
  | none => rfl
  | some t =>
    cases t with
    | object o => exact congrFun (congrFun (congrFun (h name o ht) v) selections) path
    | interface i => exact completeAbstract_freeze h i.name i.resolveType? v selections path
    | union u => exact completeAbstract_freeze h u.name u.resolveType? v selections path
    | scalar s => rfl
    | enum e => rfl

theorem completeNullable_freeze (h : ctx.Freezes frozen object) (selections : List Selection)
    (type : TypeRef) (v : Value) (path : Path) :
    ctx.freeze.completeNullable frozen selections type v path =
      ctx.completeNullable object selections type v path := by
  induction type generalizing v path with
  | nonNull t ih =>
    rw [completeNullable, completeNullable]
    exact ih v path
  | list item ih =>
    cases v with
    | list items =>
      rw [completeNullable, completeNullable]
      simp only [ih]
      rfl
    | _ => rfl
  | named name =>
    cases v with
    | null => rfl
    | _ => exact completeNamed_freeze h selections name _ path

theorem completeField_freeze (h : ctx.Freezes frozen object) (nodes : List (FieldNode Selection))
    (type : TypeRef) (path : Path) :
    ctx.freeze.completeField frozen nodes type path = ctx.completeField object nodes type path := by
  funext result
  cases result with
  | error e => rfl
  | ok v =>
    rw [completeField, completeField, complete, complete, completeNullable_freeze h]
    rfl

theorem fieldJob_freeze (h : ctx.Freezes frozen object) {name : String} {o : ObjectType σ}
    (ho : ctx.schema.registry.get? name = some (.object o)) (parent : Value)
    (nodes : List (FieldNode Selection)) (path : Path) :
    ctx.freeze.fieldJob frozen o.freeze parent nodes path =
      ctx.fieldJob object o parent nodes path := by
  cases nodes with
  | nil => rfl
  | cons node rest =>
    rw [fieldJob, fieldJob, ObjectType.field?_freeze (ctx.schema.isBuilt ho rfl)]
    split
    · rfl
    · cases o.field? node.name with
      | none => rfl
      | some field =>
        have hcoerce : ctx.freeze.schema.registry.coerceArguments field node.arguments ctx.vars =
            ctx.schema.registry.coerceArguments field node.arguments ctx.vars :=
          Registry.coerceArguments_mapFieldSets _ _ rfl rfl _ _
        have hvars : ctx.freeze.vars = ctx.vars := rfl
        dsimp only
        rw [resolveField, resolveField, hvars, hcoerce, completeField_freeze h]
        rfl

theorem fieldJobs_freeze (h : ctx.Freezes frozen object) {name : String} {o : ObjectType σ}
    (ho : ctx.schema.registry.get? name = some (.object o)) (parent : Value) (groups : Groups)
    (path : Path) :
    ctx.freeze.fieldJobs frozen o.freeze parent groups path =
      ctx.fieldJobs object o parent groups path := by
  unfold fieldJobs
  simp only [fieldJob_freeze h ho]

/-- Objects are executed from the fields that have been built. -/
theorem objectJob_freeze (ctx : Context σ) (depth : Nat) :
    ctx.Freezes (ctx.freeze.objectJob depth) (ctx.objectJob depth) := by
  induction depth with
  | zero => exact fun _ _ _ => rfl
  | succ depth ih =>
    intro name o ho
    funext v selections path
    rw [objectJob, objectJob, collect_freeze ho, fieldJobs_freeze ih ho]

theorem operationJob_freeze (ctx : Context σ) (operation : Operation) (root : Value) :
    ctx.freeze.operationJob operation root = ctx.operationJob operation root := by
  have hroot : ctx.freeze.schema.root? operation.kind =
      (ctx.schema.root? operation.kind).map .freeze := ctx.schema.root?_freeze operation.kind
  rw [operationJob, operationJob, hroot]
  cases ho : ctx.schema.root? operation.kind with
  | none => rfl
  | some o =>
    obtain ⟨name, -, ho⟩ := Option.bind_eq_some_iff.1 ho
    have ho := Registry.object?_eq_some_iff.1 ho
    dsimp only [Option.map_some]
    rw [collect_freeze ho, fieldJobs_freeze (ctx.objectJob_freeze _) ho]

end Context

namespace Schema

variable (s : Schema σ)

theorem job_freeze : s.freeze.job = s.job := by
  funext index run
  have hjob : Context.operationJob ⟨index, s.freeze, run.vars⟩ run.operation run.root =
      Context.operationJob ⟨index, s, run.vars⟩ run.operation run.root :=
    Context.operationJob_freeze ⟨index, s, run.vars⟩ run.operation run.root
  unfold job
  rw [bind_freeze, hjob]

theorem answer_freeze : s.freeze.answer = s.answer := by
  funext log index run data
  unfold answer
  rw [bind_freeze]

/-- **Operations are executed from the fields that have been built**, and no thunk is left to
run. -/
theorem execute_freeze : s.freeze.execute = s.execute := by
  funext limit? run state
  unfold execute
  rw [job_freeze, answer_freeze]

theorem executeTogether_freeze : s.freeze.executeTogether = s.executeTogether := by
  funext runs state
  unfold executeTogether
  rw [job_freeze, answer_freeze]

end Schema

end GraphQL
