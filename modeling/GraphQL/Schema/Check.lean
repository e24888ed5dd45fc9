import GraphQL.Schema.Validation

/-!
# Checking builds field sets

A check goes from type to type, and a field set is built when the check looks at it: that of an
object or an interface when its turn comes, and that of an interface when an object says that it
implements it. This comes to the same as building all field sets before the check
(`Registry.check_eq`). What is found at a type depends on nothing but the fields of the types that
are looked at (`Registry.typeDefects_mapFieldSets`), and at the end all are built.
-/

namespace GraphQL

namespace Registry

variable {σ : Type}

/-- What is wrong with a type, as violations. -/
def typeViolations (r : Registry σ) (t : TypeDef σ) : List Violation :=
  (r.typeDefects t).map (⟨t.name, ·⟩)

/-- Is there an interface of the name? -/
def isInterface (r : Registry σ) (name : String) : Bool :=
  match r.get? name with
  | some (.interface _) => true
  | _ => false

/-- The types at whose fields the check of a type looks. -/
def lookedAt (r : Registry σ) : TypeDef σ → List String
  | .object o => o.name :: o.interfaces.filter r.isInterface
  | .interface i => [i.name]
  | _ => []

/-- Checks a type, and builds the fields that this looks at. -/
def checkType (r : Registry σ) (t : TypeDef σ) : List Violation × Registry σ :=
  let r := (r.lookedAt t).foldl buildType r
  ((r.get? t.name).toList.flatMap r.typeViolations, r)

/-- Checks types in turn. -/
def checkEachType : List (TypeDef σ) → Registry σ → List Violation × Registry σ
  | [], r => ([], r)
  | t :: rest, r =>
    let (found, r) := r.checkType t
    let (others, r) := checkEachType rest r
    (found ++ others, r)

/-- Checks all types. -/
def check (r : Registry σ) : List Violation × Registry σ :=
  checkEachType r.types r

/-! ## What is wrong can be seen from the fields -/

section MapFieldSets

variable (f : FieldSet σ → FieldSet σ) (r : Registry σ)

theorem referenceDefects_mapFieldSets :
    (r.mapFieldSets f).referenceDefects = r.referenceDefects := by
  funext place type
  rw [referenceDefects, referenceDefects, lookup?, lookup?, get?_mapFieldSets, Option.isNone_map]

theorem argumentDefects_mapFieldSets :
    (r.mapFieldSets f).argumentDefects = r.argumentDefects := by
  funext place arg
  have hdefault : (r.mapFieldSets f).defaultDefects = r.defaultDefects := by
    funext place type default?
    cases default? with
    | none => rfl
    | some default => rw [defaultDefects, defaultDefects, coerce_mapFieldSets]
  rw [argumentDefects, argumentDefects, referenceDefects_mapFieldSets, hdefault, lookup?, lookup?,
    get?_mapFieldSets]
  cases r.get? arg.type.innermost with
  | none => rfl
  | some t => cases t <;> rfl

theorem fieldSetDefects_mapFieldSets :
    (r.mapFieldSets f).fieldSetDefects = r.fieldSetDefects := by
  have hfield : (r.mapFieldSets f).fieldDefects = r.fieldDefects := by
    funext owner repeated f'
    rw [fieldDefects, fieldDefects, referenceDefects_mapFieldSets, argumentDefects_mapFieldSets]
  funext owner fields
  rw [fieldSetDefects, fieldSetDefects, hfield]

theorem unionDefects_mapFieldSets : (r.mapFieldSets f).unionDefects = r.unionDefects := by
  have hmember : (r.mapFieldSets f).memberDefects = r.memberDefects := by
    funext union repeated member
    rw [memberDefects, memberDefects, get?_mapFieldSets]
    cases r.get? member with
    | none => rfl
    | some t => cases t <;> rfl
  funext u
  rw [unionDefects, unionDefects, hmember]

theorem rootViolations_mapFieldSets : (r.mapFieldSets f).rootViolations = r.rootViolations := by
  funext operation name
  rw [rootViolations, rootViolations, get?_mapFieldSets]
  cases r.get? name with
  | none => rfl
  | some t => cases t <;> rfl

theorem isInterface_mapFieldSets : (r.mapFieldSets f).isInterface = r.isInterface := by
  funext name
  rw [isInterface, isInterface, get?_mapFieldSets]
  cases r.get? name with
  | none => rfl
  | some t => cases t <;> rfl

/-- A check looks at the same types whatever field sets hold. -/
theorem lookedAt_mapFieldSets (t : TypeDef σ) :
    (r.mapFieldSets f).lookedAt (t.mapFieldSet f) = r.lookedAt t := by
  cases t with
  | object o =>
    rw [TypeDef.mapFieldSet, lookedAt, lookedAt, isInterface_mapFieldSets]
    rfl
  | _ => rfl

variable {f r}

theorem interfaceDefects_mapFieldSets {o : ObjectType σ} {name : String}
    (ho : (f o.fieldSet).fields = o.fields)
    (h : ∀ i, r.get? name = some (.interface i) →
      (f i.fieldSet).fields = i.fieldSet.fields) :
    (r.mapFieldSets f).interfaceDefects (o.mapFieldSet f) name = r.interfaceDefects o name := by
  have hinherited : (r.mapFieldSets f).inheritedFieldDefects (o.mapFieldSet f) =
      r.inheritedFieldDefects o := by
    funext interface inherited
    have hfield : (o.mapFieldSet f).field? inherited.name = o.field? inherited.name :=
      congrArg (List.find? _) ho
    unfold inheritedFieldDefects
    simp only [hfield, isSubtype_mapFieldSets]
    rfl
  rw [interfaceDefects, interfaceDefects, get?_mapFieldSets, hinherited]
  cases ht : r.get? name with
  | none => rfl
  | some t =>
    cases t with
    | interface i => exact congrArg (List.flatMap _) (h i ht)
    | _ => rfl

/-- What is wrong with a type depends on nothing but the fields of the types that its check looks
at. -/
theorem typeDefects_mapFieldSets {t : TypeDef σ}
    (ht : ∀ s ∈ t.fieldSet?, (f s).fields = s.fields)
    (h : ∀ name ∈ r.lookedAt t, ∀ i, r.get? name = some (.interface i) →
      (f i.fieldSet).fields = i.fieldSet.fields) :
    (r.mapFieldSets f).typeDefects (t.mapFieldSet f) = r.typeDefects t := by
  unfold typeDefects
  cases t with
  | scalar s => rfl
  | enum e => rfl
  | union u => exact congrArg (_ ++ ·) (congrFun (unionDefects_mapFieldSets f r) u)
  | interface i =>
    have hfields : (i.mapFieldSet f).fieldSet.fields = i.fieldSet.fields := ht _ rfl
    dsimp only [TypeDef.mapFieldSet]
    rw [fieldSetDefects_mapFieldSets, hfields]
    rfl
  | object o =>
    have hfields : (o.mapFieldSet f).fields = o.fields := ht _ rfl
    have hinterfaces : o.interfaces.map ((r.mapFieldSets f).interfaceDefects (o.mapFieldSet f)) =
        o.interfaces.map (r.interfaceDefects o) := by
      refine List.map_congr_left fun name hname => interfaceDefects_mapFieldSets hfields ?_
      intro i hi
      refine h name (List.mem_cons_of_mem _ (List.mem_filter.2 ⟨hname, ?_⟩)) i hi
      rw [isInterface, hi]
    dsimp only [TypeDef.mapFieldSet]
    rw [fieldSetDefects_mapFieldSets, hfields, List.flatMap_def]
    change _ ++ (_ ++ (o.interfaces.map _).flatten) = _
    rw [hinterfaces, ← List.flatMap_def]
    rfl

/-- What is wrong with the types depends on nothing but their fields. -/
theorem violations_mapFieldSets (h : ∀ t ∈ r.types, ∀ s ∈ t.fieldSet?, (f s).fields = s.fields) :
    (r.mapFieldSets f).violations = r.violations := by
  rw [violations, violations, types_mapFieldSets, List.flatMap_map, List.flatMap_def,
    List.flatMap_def]
  refine congrArg List.flatten (List.map_congr_left fun t ht => ?_)
  rw [typeDefects_mapFieldSets (h t ht) fun name _ i hi => h _ (mem_types_of_get? hi) _ rfl,
    TypeDef.name_mapFieldSet]

end MapFieldSets

/-! ## What is built when -/

/-- If there is a type of the name, then its fields are built, as far as it has fields. -/
def BuiltAt (r : Registry σ) (name : String) : Prop :=
  r.get? name = r.buildAll.get? name

theorem builtAt_buildType (r : Registry σ) (name : String) : (r.buildType name).BuiltAt name := by
  unfold BuiltAt buildType
  rw [buildAll_buildWhere, get?_buildWhere, get?_buildAll]
  cases h : r.get? name with
  | none => rfl
  | some t => simp [name_of_get? h]

theorem BuiltAt.buildType {r : Registry σ} {name : String} (h : r.BuiltAt name) (key : String) :
    (r.buildType key).BuiltAt name := by
  unfold BuiltAt at h ⊢
  unfold Registry.buildType
  rw [buildAll_buildWhere, get?_buildWhere, h, get?_buildAll]
  cases r.get? name with
  | none => rfl
  | some t => simp

section Looks

variable {r : Registry σ}

theorem buildAll_looks (names : List String) (r : Registry σ) :
    (names.foldl Registry.buildType r).buildAll = r.buildAll := by
  induction names generalizing r with
  | nil => rfl
  | cons key rest ih => rw [List.foldl_cons, ih, Registry.buildType, buildAll_buildWhere]

theorem BuiltAt.looks {name : String} (h : r.BuiltAt name) (names : List String) :
    (names.foldl Registry.buildType r).BuiltAt name := by
  induction names generalizing r with
  | nil => exact h
  | cons key rest ih => exact ih (h.buildType key)

theorem builtAt_looks {name : String} {names : List String} (h : name ∈ names)
    (r : Registry σ) : (names.foldl Registry.buildType r).BuiltAt name := by
  induction names generalizing r with
  | nil => cases h
  | cons key rest ih =>
    rcases List.mem_cons.1 h with rfl | h
    · exact (builtAt_buildType r name).looks rest
    · exact ih h _

end Looks

/-- A check looks at the same types whatever has been built. -/
theorem lookedAt_build {r r' : Registry σ} (h : r'.buildAll = r.buildAll) (t : TypeDef σ) :
    r'.lookedAt t.build = r.lookedAt t := by
  have hr' : r'.buildAll.lookedAt t.build.build = r'.lookedAt t.build :=
    lookedAt_mapFieldSets FieldSet.build r' t.build
  rw [← hr', t.build_build, h]
  exact lookedAt_mapFieldSets FieldSet.build r t

/-! ## One type after the other -/

section Check

variable {r : Registry σ}

/-- What is wrong with a type can be seen whether its fields have been built or not. -/
theorem typeDefects_buildAll (r : Registry σ) (t : TypeDef σ) :
    r.buildAll.typeDefects t.build = r.typeDefects t :=
  typeDefects_mapFieldSets (fun s _ => s.fields_build) fun _ _ i _ => i.fieldSet.fields_build

/-- Checking a type finds what is wrong with it when all fields are built, and builds its own. -/
theorem checkType_eq {t : TypeDef σ} (h : r.buildAll.get? t.name = some t.build) :
    (r.checkType t).1 = r.buildAll.typeViolations t.build ∧
      (r.checkType t).2.buildAll = r.buildAll ∧ (r.checkType t).2.BuiltAt t.name ∧
      ∀ name, r.BuiltAt name → (r.checkType t).2.BuiltAt name := by
  have hall := buildAll_looks (r.lookedAt t) r
  have hlooks : ∀ name ∈ r.lookedAt t, ((r.lookedAt t).foldl Registry.buildType r).BuiltAt name :=
    fun name hname => builtAt_looks hname r
  have hkept : ∀ name, r.BuiltAt name →
      ((r.lookedAt t).foldl Registry.buildType r).BuiltAt name :=
    fun name hname => hname.looks _
  unfold checkType
  dsimp only
  -- of the registry that the check leaves, nothing is used from here on but these three facts
  generalize (r.lookedAt t).foldl Registry.buildType r = r' at hall hlooks hkept ⊢
  have hget : (r'.get? t.name).map TypeDef.build = some t.build := by
    rw [← get?_buildAll, hall, h]
  have hbuilt : ∀ name, r'.BuiltAt name → r'.get? name = r.buildAll.get? name := by
    intro name hname
    rw [← hall]
    exact hname
  have hself : r'.get? t.name = some t.build := by
    cases t with
    | object o => exact (hbuilt _ (hlooks o.name List.mem_cons_self)).trans h
    | interface i => exact (hbuilt _ (hlooks i.name List.mem_cons_self)).trans h
    | _ =>
      obtain ⟨t', ht', hb⟩ := Option.map_eq_some_iff.1 hget
      rw [ht', ← hb]
      cases t' <;> first | rfl | cases hb
  refine ⟨?_, hall, ?_, hkept⟩
  · have hdefects : r'.buildAll.typeDefects t.build = r'.typeDefects t.build := by
      rw [← typeDefects_buildAll r', TypeDef.build_build]
    rw [hself, Option.toList_some, List.flatMap_singleton, typeViolations, typeViolations, ← hall,
      hdefects]
  · rw [BuiltAt, hall, hself, h]

theorem checkEachType_eq {types : List (TypeDef σ)}
    (h : ∀ t ∈ types, r.buildAll.get? t.name = some t.build) :
    (checkEachType types r).1 = types.flatMap (fun t => r.buildAll.typeViolations t.build) ∧
      (checkEachType types r).2.buildAll = r.buildAll ∧
      (∀ t ∈ types, (checkEachType types r).2.BuiltAt t.name) ∧
      ∀ name, r.BuiltAt name → (checkEachType types r).2.BuiltAt name := by
  induction types generalizing r with
  | nil => exact ⟨rfl, rfl, nofun, fun _ hname => hname⟩
  | cons t rest ih =>
    obtain ⟨hfound, hall, hself, hkept⟩ := checkType_eq (h t List.mem_cons_self)
    obtain ⟨hfound', hall', hself', hkept'⟩ := ih (r := (r.checkType t).2) fun t' ht' => by
      rw [hall, h t' (List.mem_cons_of_mem _ ht')]
    rw [hall] at hfound' hall'
    refine ⟨?_, hall', ?_, fun name hname => hkept' name (hkept name hname)⟩
    · rw [List.flatMap_cons, ← hfound, ← hfound']
      rfl
    · intro t' ht'
      rcases List.mem_cons.1 ht' with rfl | ht'
      · exact hkept' _ hself
      · exact hself' t' ht'

end Check

/-- A registry whose fields are built at every name is not changed by building them. -/
theorem buildAll_of_builtAt {r : Registry σ} (h : ∀ name, r.BuiltAt name) : r.buildAll = r := by
  refine buildWhere_of_build_eq fun t ht _ => ?_
  have hbuilt := h t.name
  rw [BuiltAt, get?_buildAll, get?_of_mem_types ht] at hbuilt
  exact (Option.some.inj hbuilt).symm

/-- **A check that builds fields as it goes is the check of the registry with all fields built**,
and leaves that. -/
theorem check_eq (r : Registry σ) : r.check = (r.buildAll.violations, r.buildAll) := by
  have hget : ∀ t ∈ r.types, r.buildAll.get? t.name = some t.build := fun t ht => by
    rw [get?_buildAll, get?_of_mem_types ht, Option.map_some]
  obtain ⟨hfound, hall, hbuilt, -⟩ := checkEachType_eq hget
  have hend : (checkEachType r.types r).2.buildAll = (checkEachType r.types r).2 := by
    refine buildAll_of_builtAt fun name => ?_
    -- the check has come to every type, and where there is none, nothing has to be built
    cases ht : r.get? name with
    | none =>
      have hnone : (checkEachType r.types r).2.buildAll.get? name = none := by
        rw [hall, get?_buildAll, ht, Option.map_none]
      rw [BuiltAt, hnone]
      rwa [get?_buildAll, Option.map_eq_none_iff] at hnone
    | some t =>
      rw [← name_of_get? ht]
      exact hbuilt t (mem_types_of_get? ht)
  refine Prod.ext ?_ (hend.symm.trans hall)
  rw [check, hfound, violations, buildAll_eq, types_mapFieldSets, List.flatMap_map]
  rfl

theorem buildAll_check (r : Registry σ) : r.check.2.buildAll = r.check.2 := by
  rw [check_eq, buildAll_buildAll]

theorem violations_check (r : Registry σ) : r.check.2.violations = r.check.1 := by
  rw [check_eq]

end Registry

end GraphQL
