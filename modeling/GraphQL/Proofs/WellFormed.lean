import GraphQL.Proofs.Dispatch
import GraphQL.Schema.Basic
import Mathlib.Data.List.Nodup

/-!
# Checking accepts the well-formed registries

`Registry.WellFormed` says what the rules of schemas ask of a registry, without reference to how it
is checked: of names, of the types of fields and arguments, of defaults, of what objects owe to the
interfaces that they implement and of the members of unions. A check of a part finds nothing if and
only if the part is well-formed, rule by rule; so checking a registry finds nothing if and only if
the registry is well-formed, and a schema is made of all that are, and of no others
(`Schema.create?_ok_iff`). Rules that hide others are no exception: what a broken rule hides is
never all that is broken.
-/

namespace GraphQL

/-! ## Things by name -/

theorem of_find?_name {α : Type} {name : α → String} {xs : List α} {key : String} {x : α}
    (h : xs.find? (fun y => name y == key) = some x) : x ∈ xs ∧ name x = key := by
  have hname := List.find?_some h
  exact ⟨List.mem_of_find?_eq_some h, by simpa using hname⟩

theorem find?_name_eq_none_iff {α : Type} {name : α → String} {xs : List α} {key : String} :
    xs.find? (fun y => name y == key) = none ↔ ∀ x ∈ xs, name x ≠ key := by
  simp

/-- The first of several things with distinct names is the only one. -/
theorem find?_name_of_nodup {α : Type} {name : α → String} {xs : List α}
    (hn : (xs.map name).Nodup) {x : α} (hx : x ∈ xs) :
    xs.find? (fun y => name y == name x) = some x := by
  cases hf : xs.find? (fun y => name y == name x) with
  | none => exact absurd rfl (find?_name_eq_none_iff.1 hf x hx)
  | some y =>
    obtain ⟨hy, hname⟩ := of_find?_name hf
    rw [List.inj_on_of_nodup_map hn hy hx hname]

/-! ## Names and references -/

namespace Name

/-- A letter or an underscore. -/
def Opens (c : Char) : Prop :=
  c = '_' ∨ ('a' ≤ c ∧ c ≤ 'z') ∨ ('A' ≤ c ∧ c ≤ 'Z')

/-- A letter, a digit or an underscore. -/
def Continues (c : Char) : Prop :=
  Opens c ∨ ('0' ≤ c ∧ c ≤ '9')

/-- The text is a name that does not belong to the engine. -/
structure WellFormed (s : String) : Prop where
  pattern : ∃ first rest, s.toList = first :: rest ∧ Opens first ∧ ∀ c ∈ rest, Continues c
  unreserved : ¬ ['_', '_'] <+: s.toList

theorem isStart_iff {c : Char} : isStart c = true ↔ Opens c := by
  have hupper : c.isUpper = true ↔ 'A' ≤ c ∧ c ≤ 'Z' := decide_eq_true_iff
  have hlower : c.isLower = true ↔ 'a' ≤ c ∧ c ≤ 'z' := by
    change (decide ('a' ≤ c) && decide (c ≤ 'z')) = true ↔ _
    simp
  have halpha : c.isAlpha = (c.isUpper || c.isLower) := rfl
  rw [isStart, halpha, Bool.or_eq_true, Bool.or_eq_true, hupper, hlower, beq_iff_eq, Opens]
  tauto

theorem isPart_iff {c : Char} : isPart c = true ↔ Continues c := by
  have hdigit : c.isDigit = true ↔ '0' ≤ c ∧ c ≤ '9' := by
    change (decide ('0' ≤ c) && decide (c ≤ '9')) = true ↔ _
    simp
  have halphanum : c.isAlphanum = (c.isAlpha || c.isDigit) := rfl
  have hstart := isStart_iff (c := c)
  rw [isStart, Bool.or_eq_true] at hstart
  rw [isPart, halphanum, Bool.or_eq_true, Bool.or_eq_true, hdigit, Continues, ← hstart]
  tauto

theorem isValid_iff {s : String} :
    isValid s = true ↔ ∃ first rest, s.toList = first :: rest ∧ Opens first ∧
      ∀ c ∈ rest, Continues c := by
  unfold isValid
  cases s.toList with
  | nil => simp
  | cons first rest => simp [isStart_iff, isPart_iff]

theorem isReserved_iff {s : String} : isReserved s = true ↔ ['_', '_'] <+: s.toList := by
  unfold isReserved
  split
  · next rest heq => simp [heq]
  · next hne =>
    simp only [Bool.false_eq_true, false_iff]
    rintro ⟨rest, heq⟩
    exact hne rest heq.symm

end Name

namespace TypeRef

/-- The first reference stands within the second, or is all of it. -/
inductive Within : TypeRef → TypeRef → Prop where
  | all (type : TypeRef) : Within type type
  | list {part item : TypeRef} (h : Within part item) : Within part (.list item)
  | nonNull {part inner : TypeRef} (h : Within part inner) : Within part (.nonNull inner)

theorem isNonNull_iff {type : TypeRef} :
    type.isNonNull = true ↔ ∃ inner, type = .nonNull inner := by
  cases type <;> simp [isNonNull]

theorem hasNestedNonNull_iff {type : TypeRef} :
    type.hasNestedNonNull = true ↔ ∃ inner, Within (.nonNull (.nonNull inner)) type := by
  induction type with
  | named name =>
    simp only [hasNestedNonNull, Bool.false_eq_true, false_iff]
    rintro ⟨inner, h⟩
    cases h
  | list item ih =>
    rw [hasNestedNonNull, ih]
    constructor
    · rintro ⟨inner, h⟩
      exact ⟨inner, .list h⟩
    · rintro ⟨inner, h⟩
      cases h with
      | list h => exact ⟨inner, h⟩
  | nonNull type ih =>
    rw [hasNestedNonNull, Bool.or_eq_true, ih, isNonNull_iff]
    constructor
    · rintro (⟨inner, rfl⟩ | ⟨inner, h⟩)
      · exact ⟨inner, .all _⟩
      · exact ⟨inner, .nonNull h⟩
    · rintro ⟨inner, h⟩
      cases h with
      | all => exact .inl ⟨inner, rfl⟩
      | nonNull h => exact .inr ⟨inner, h⟩

end TypeRef

namespace Registry

variable {σ : Type} {r : Registry σ}

/-! ## The rules -/

/-- The reference has no non-null marker directly inside another one and ends in a registered
name. -/
structure WellFormedReference (r : Registry σ) (type : TypeRef) : Prop where
  nested : ∀ inner, ¬ TypeRef.Within (.nonNull (.nonNull inner)) type
  registered : type.innermost ∈ r.names

/-- The default mentions no variable and can be coerced to its type. -/
structure ValidDefault (r : Registry σ) (type : TypeRef) (default : InputValue) : Prop where
  constant : default.references = []
  coerces : ∃ v, r.coerce [] type default false = .ok v

structure WellFormedArgument (r : Registry σ) (arg : Argument) : Prop where
  name : Name.WellFormed arg.name
  type : r.WellFormedReference arg.type
  /-- The type ends in a scalar or an enum. -/
  leaf : (∃ s, r.lookup? arg.type = some (.scalar s)) ∨ ∃ e, r.lookup? arg.type = some (.enum e)
  default : ∀ default ∈ arg.default?, r.ValidDefault arg.type default

structure WellFormedField (r : Registry σ) (f : Field σ) : Prop where
  name : Name.WellFormed f.name
  type : r.WellFormedReference f.type
  distinct : (f.arguments.map Argument.name).Nodup
  arguments : ∀ arg ∈ f.arguments, r.WellFormedArgument arg

structure WellFormedFields (r : Registry σ) (fields : List (Field σ)) : Prop where
  nonempty : fields ≠ []
  distinct : (fields.map Field.name).Nodup
  each : ∀ f ∈ fields, r.WellFormedField f

/-- The object's field may stand for the interface's: its type is a subtype, it has every argument
of the interface's with the identical type, and it requires no others. -/
structure StandsFor (r : Registry σ) (own inherited : Field σ) : Prop where
  subtype : r.isSubtype own.type inherited.type = true
  declared : ∀ arg ∈ inherited.arguments,
    ∃ found ∈ own.arguments, found.name = arg.name ∧ found.type = arg.type
  required : ∀ arg ∈ own.arguments, arg.type.isNonNull = true → arg.default? = none →
    ∃ found ∈ inherited.arguments, found.name = arg.name

/-- The name is that of an interface, and the object has a field for each of its fields. -/
def Fulfils (r : Registry σ) (o : ObjectType σ) (interface : String) : Prop :=
  ∃ i, r.get? interface = some (.interface i) ∧ ∀ inherited ∈ i.fieldSet.fields,
    ∃ own ∈ o.fields, own.name = inherited.name ∧ r.StandsFor own inherited

structure WellFormedObject (r : Registry σ) (o : ObjectType σ) : Prop where
  fields : r.WellFormedFields o.fields
  interfaces : ∀ interface ∈ o.interfaces, r.Fulfils o interface

structure WellFormedEnum (e : EnumType) : Prop where
  nonempty : e.values ≠ []
  distinct : (e.values.map EnumValue.name).Nodup
  names : ∀ v ∈ e.values, Name.WellFormed v.name

structure WellFormedUnion (r : Registry σ) (u : UnionType) : Prop where
  nonempty : u.members ≠ []
  distinct : u.members.Nodup
  objects : ∀ member ∈ u.members, ∃ o, r.get? member = some (.object o)

/-- What the rules ask of a type apart from its name. -/
def WellFormedType (r : Registry σ) : TypeDef σ → Prop
  | .scalar _ => True
  | .enum e => WellFormedEnum e
  | .object o => r.WellFormedObject o
  | .interface i => r.WellFormedFields i.fieldSet.fields
  | .union u => r.WellFormedUnion u

/-- What the rules ask of a registry. -/
structure WellFormed (r : Registry σ) : Prop where
  names : ∀ t ∈ r.types, Name.WellFormed t.name
  types : ∀ t ∈ r.types, r.WellFormedType t

/-! ## A check of a part finds nothing if the part is well-formed -/

theorem ite_defect_eq_nil_iff {b : Bool} {defect : Defect} :
    (if b then [defect] else []) = [] ↔ b = false := by
  cases b <;> simp

theorem nameDefects_eq_nil_iff {role : NameRole} {name : String} :
    nameDefects role name = [] ↔ Name.WellFormed name := by
  unfold nameDefects
  constructor
  · intro h
    split at h
    · cases h
    · next hv =>
      split at h
      · cases h
      · next hr =>
        constructor
        · exact Name.isValid_iff.1 (by simpa using hv)
        · rwa [← Name.isReserved_iff]
  · rintro ⟨hp, hu⟩
    rw [← Name.isValid_iff] at hp
    rw [← Name.isReserved_iff] at hu
    simp [hp, hu]

/-- Items that are checked in turn for what they are and for names that were there before. -/
theorem checkEach_eq_nil_iff {α : Type} {name : α → String} {check : Bool → α → List Defect}
    {P : α → Prop} (hc : ∀ repeated x, check repeated x = [] ↔ repeated = false ∧ P x)
    {earlier : List String} {xs : List α} :
    checkEach name check earlier xs = [] ↔
      (xs.map name).Nodup ∧ (∀ x ∈ xs, name x ∉ earlier) ∧ ∀ x ∈ xs, P x := by
  induction xs generalizing earlier with
  | nil => simp [checkEach]
  | cons x rest ih =>
    have hx : earlier.contains (name x) = false ↔ name x ∉ earlier := by simp
    rw [checkEach, List.append_eq_nil_iff, hc, hx, ih, List.map_cons, List.nodup_cons]
    constructor
    · rintro ⟨⟨hfresh, hp⟩, hnodup, hrest, hps⟩
      refine ⟨⟨?_, hnodup⟩, ?_, ?_⟩
      · intro hm
        obtain ⟨y, hy, heq⟩ := List.mem_map.1 hm
        exact hrest y hy (heq ▸ List.mem_cons_self)
      · intro y hy
        rcases List.mem_cons.1 hy with rfl | hy
        · exact hfresh
        · exact fun hm => hrest y hy (List.mem_cons_of_mem _ hm)
      · intro y hy
        rcases List.mem_cons.1 hy with rfl | hy
        · exact hp
        · exact hps y hy
    · rintro ⟨⟨hnew, hnodup⟩, hfresh, hps⟩
      refine ⟨⟨hfresh x List.mem_cons_self, hps x List.mem_cons_self⟩, hnodup, ?_, ?_⟩
      · intro y hy hm
        rcases List.mem_cons.1 hm with heq | hm
        · exact hnew (heq ▸ List.mem_map_of_mem hy)
        · exact hfresh y (List.mem_cons_of_mem _ hy) hm
      · exact fun y hy => hps y (List.mem_cons_of_mem _ hy)

theorem checkEach_nil_eq_nil_iff {α : Type} {name : α → String} {check : Bool → α → List Defect}
    {P : α → Prop} (hc : ∀ repeated x, check repeated x = [] ↔ repeated = false ∧ P x)
    {xs : List α} :
    checkEach name check [] xs = [] ↔ (xs.map name).Nodup ∧ ∀ x ∈ xs, P x := by
  simp [checkEach_eq_nil_iff hc]

theorem exists_lookup?_iff {type : TypeRef} :
    (∃ t, r.lookup? type = some t) ↔ type.innermost ∈ r.names := by
  unfold lookup? names
  rw [List.mem_map]
  constructor
  · rintro ⟨t, ht⟩
    exact ⟨t, mem_types_of_get? ht, name_of_get? ht⟩
  · rintro ⟨t, ht, hname⟩
    have hsome : (r.types.find? (·.name == type.innermost)).isSome = true :=
      List.find?_isSome.2 ⟨t, ht, by simp [hname]⟩
    exact Option.isSome_iff_exists.1 hsome

theorem referenceDefects_eq_nil_iff {place : Place} {type : TypeRef} :
    r.referenceDefects place type = [] ↔ r.WellFormedReference type := by
  have hnested : type.hasNestedNonNull = false ↔
      ∀ inner, ¬ TypeRef.Within (.nonNull (.nonNull inner)) type := by
    rw [← not_exists, ← TypeRef.hasNestedNonNull_iff, Bool.not_eq_true]
  have hregistered : (r.lookup? type).isNone = false ↔ type.innermost ∈ r.names := by
    rw [← exists_lookup?_iff, ← Option.isSome_iff_exists, Option.isNone_eq_false_iff]
  rw [referenceDefects, List.append_eq_nil_iff, ite_defect_eq_nil_iff, ite_defect_eq_nil_iff,
    hnested, hregistered]
  constructor
  · rintro ⟨hn, hr⟩
    exact ⟨hn, hr⟩
  · rintro ⟨hn, hr⟩
    exact ⟨hn, hr⟩

theorem defaultDefects_eq_nil_iff {place : Place} {type : TypeRef} {default? : Option InputValue} :
    r.defaultDefects place type default? = [] ↔
      ∀ default ∈ default?, r.ValidDefault type default := by
  cases default? with
  | none => simp [defaultDefects]
  | some default =>
    simp only [defaultDefects, Option.mem_some, forall_eq']
    cases hr : default.references with
    | cons name rest =>
      have hne : ¬ r.ValidDefault type default := fun h => by simp [h.constant] at hr
      simp [hne]
    | nil =>
      cases hc : r.coerce [] type default false with
      | ok v => simpa using ⟨hr, v, hc⟩
      | error e =>
        have hne : ¬ r.ValidDefault type default := by
          rintro ⟨-, v, hv⟩
          rw [hv] at hc
          cases hc
        simp [hne]

/-- An unknown type, and one that is no input type, hides the default; it is a defect itself. -/
theorem argumentDefects_eq_nil_iff {place : Place} {arg : Argument} :
    r.argumentDefects place arg = [] ↔ r.WellFormedReference arg.type ∧
      ((∃ s, r.lookup? arg.type = some (.scalar s)) ∨ ∃ e, r.lookup? arg.type = some (.enum e)) ∧
      ∀ default ∈ arg.default?, r.ValidDefault arg.type default := by
  rw [argumentDefects, List.append_eq_nil_iff, referenceDefects_eq_nil_iff]
  apply and_congr_right
  intro href
  obtain ⟨t, ht⟩ := exists_lookup?_iff.2 href.registered
  rw [ht]
  cases t <;> simp [TypeDef.isInput, TypeDef.kind, TypeKind.isLeaf, defaultDefects_eq_nil_iff]

theorem fieldDefects_eq_nil_iff (owner : String) (repeated : Bool) (f : Field σ) :
    r.fieldDefects owner repeated f = [] ↔ repeated = false ∧ r.WellFormedField f := by
  have hargs : ∀ (repeated : Bool) (arg : Argument),
      nameDefects .argument arg.name ++
          (if repeated then [.duplicateArgument (.argument owner f.name arg.name)] else []) ++
          r.argumentDefects (.argument owner f.name arg.name) arg = [] ↔
        repeated = false ∧ r.WellFormedArgument arg := by
    intro repeated arg
    rw [List.append_eq_nil_iff, List.append_eq_nil_iff, nameDefects_eq_nil_iff,
      ite_defect_eq_nil_iff, argumentDefects_eq_nil_iff]
    constructor
    · rintro ⟨⟨hn, hr⟩, ht, hl, hd⟩
      exact ⟨hr, hn, ht, hl, hd⟩
    · rintro ⟨hr, hn, ht, hl, hd⟩
      exact ⟨⟨hn, hr⟩, ht, hl, hd⟩
  unfold fieldDefects
  rw [List.append_eq_nil_iff, List.append_eq_nil_iff, List.append_eq_nil_iff,
    nameDefects_eq_nil_iff, ite_defect_eq_nil_iff, referenceDefects_eq_nil_iff,
    checkEach_nil_eq_nil_iff hargs]
  constructor
  · rintro ⟨⟨⟨hn, hr⟩, ht⟩, hd, ha⟩
    exact ⟨hr, hn, ht, hd, ha⟩
  · rintro ⟨hr, hn, ht, hd, ha⟩
    exact ⟨⟨⟨hn, hr⟩, ht⟩, hd, ha⟩

theorem fieldSetDefects_eq_nil_iff {owner : String} {fields : List (Field σ)} :
    r.fieldSetDefects owner fields = [] ↔ r.WellFormedFields fields := by
  unfold fieldSetDefects
  rw [List.append_eq_nil_iff, ite_defect_eq_nil_iff, List.isEmpty_eq_false_iff,
    checkEach_nil_eq_nil_iff (fieldDefects_eq_nil_iff owner)]
  constructor
  · rintro ⟨hn, hd, he⟩
    exact ⟨hn, hd, he⟩
  · rintro ⟨hn, hd, he⟩
    exact ⟨hn, hd, he⟩

/-! ## What objects owe to interfaces -/

theorem inheritedArgumentDefects_eq_nil_iff {object interface : String} {inherited own : Field σ}
    (hown : (own.arguments.map Argument.name).Nodup) {arg : Argument} :
    inheritedArgumentDefects object interface inherited own arg = [] ↔
      ∃ found ∈ own.arguments, found.name = arg.name ∧ found.type = arg.type := by
  unfold inheritedArgumentDefects Field.argument?
  cases hf : own.arguments.find? (·.name == arg.name) with
  | none =>
    have hnone := find?_name_eq_none_iff.1 hf
    simp only [List.cons_ne_nil, false_iff]
    rintro ⟨found, hmem, hname, -⟩
    exact hnone found hmem hname
  | some found =>
    obtain ⟨hmem, hname⟩ := of_find?_name hf
    simp only [ite_eq_left_iff, List.cons_ne_nil, imp_false, not_not]
    constructor
    · intro htype
      exact ⟨found, hmem, hname, htype⟩
    · rintro ⟨other, hother, hname', htype⟩
      obtain rfl := List.inj_on_of_nodup_map hown hother hmem (hname'.trans hname.symm)
      exact htype

theorem extraArgumentDefects_eq_nil_iff {object interface : String} {inherited own : Field σ}
    {arg : Argument} :
    extraArgumentDefects object interface inherited own arg = [] ↔
      (arg.type.isNonNull = true → arg.default? = none →
        ∃ found ∈ inherited.arguments, found.name = arg.name) := by
  have hmissing : (inherited.argument? arg.name).isNone = false ↔
      ∃ found ∈ inherited.arguments, found.name = arg.name := by
    rw [Option.isNone_eq_false_iff, Field.argument?, List.find?_isSome]
    simp
  rw [extraArgumentDefects, ite_defect_eq_nil_iff, ← hmissing]
  cases arg.type.isNonNull <;> cases arg.default? <;> simp

theorem inheritedFieldDefects_eq_nil_iff {o : ObjectType σ} (ho : r.WellFormedFields o.fields)
    {interface : String} {inherited : Field σ} :
    r.inheritedFieldDefects o interface inherited = [] ↔
      ∃ own ∈ o.fields, own.name = inherited.name ∧ r.StandsFor own inherited := by
  unfold inheritedFieldDefects ObjectType.field?
  cases hf : o.fields.find? (·.name == inherited.name) with
  | none =>
    have hnone := find?_name_eq_none_iff.1 hf
    simp only [List.cons_ne_nil, false_iff]
    rintro ⟨own, hmem, hname, -⟩
    exact hnone own hmem hname
  | some own =>
    obtain ⟨hmem, hname⟩ := of_find?_name hf
    have hdistinct := (ho.each own hmem).distinct
    simp only [List.append_eq_nil_iff, List.flatMap_eq_nil_iff, ite_eq_left_iff, List.cons_ne_nil,
      imp_false, not_not, inheritedArgumentDefects_eq_nil_iff hdistinct,
      extraArgumentDefects_eq_nil_iff]
    constructor
    · rintro ⟨⟨hs, hd⟩, hr⟩
      exact ⟨own, hmem, hname, hs, hd, hr⟩
    · rintro ⟨other, hother, hname', hs, hd, hr⟩
      obtain rfl := List.inj_on_of_nodup_map ho.distinct hother hmem (hname'.trans hname.symm)
      exact ⟨⟨hs, hd⟩, hr⟩

/-- A name that is not one of an interface hides what is missed of it; it is a defect itself. -/
theorem interfaceDefects_eq_nil_iff {o : ObjectType σ} (ho : r.WellFormedFields o.fields)
    {interface : String} : r.interfaceDefects o interface = [] ↔ r.Fulfils o interface := by
  unfold interfaceDefects Fulfils
  cases hg : r.get? interface with
  | none => simp
  | some t => cases t <;> simp [List.flatMap_eq_nil_iff, inheritedFieldDefects_eq_nil_iff ho]

/-! ## Types and registries -/

theorem enumDefects_eq_nil_iff {e : EnumType} : enumDefects e = [] ↔ WellFormedEnum e := by
  have hvalues : ∀ (repeated : Bool) (v : EnumValue),
      nameDefects .enumValue v.name ++
          (if repeated then [.duplicateEnumValue e.name v.name] else []) = [] ↔
        repeated = false ∧ Name.WellFormed v.name := by
    intro repeated v
    rw [List.append_eq_nil_iff, nameDefects_eq_nil_iff, ite_defect_eq_nil_iff, and_comm]
  unfold enumDefects
  rw [List.append_eq_nil_iff, ite_defect_eq_nil_iff, List.isEmpty_eq_false_iff,
    checkEach_nil_eq_nil_iff hvalues]
  constructor
  · rintro ⟨hn, hd, he⟩
    exact ⟨hn, hd, he⟩
  · rintro ⟨hn, hd, he⟩
    exact ⟨hn, hd, he⟩

theorem memberDefects_eq_nil_iff (union : String) (repeated : Bool) (member : String) :
    r.memberDefects union repeated member = [] ↔
      repeated = false ∧ ∃ o, r.get? member = some (.object o) := by
  rw [memberDefects, List.append_eq_nil_iff, ite_defect_eq_nil_iff]
  apply and_congr_right
  intro _
  cases hg : r.get? member with
  | none => simp
  | some t => cases t <;> simp

theorem unionDefects_eq_nil_iff {u : UnionType} :
    r.unionDefects u = [] ↔ r.WellFormedUnion u := by
  unfold unionDefects
  rw [List.append_eq_nil_iff, ite_defect_eq_nil_iff, List.isEmpty_eq_false_iff,
    checkEach_nil_eq_nil_iff (memberDefects_eq_nil_iff u.name), List.map_id]
  constructor
  · rintro ⟨hn, hd, he⟩
    exact ⟨hn, hd, he⟩
  · rintro ⟨hn, hd, he⟩
    exact ⟨hn, hd, he⟩

theorem typeDefects_eq_nil_iff {t : TypeDef σ} :
    r.typeDefects t = [] ↔ Name.WellFormed t.name ∧ r.WellFormedType t := by
  unfold typeDefects
  rw [List.append_eq_nil_iff, nameDefects_eq_nil_iff]
  apply and_congr_right
  intro _
  cases t with
  | scalar s => simp [WellFormedType]
  | enum e => exact enumDefects_eq_nil_iff
  | interface i => exact fieldSetDefects_eq_nil_iff
  | union u => exact unionDefects_eq_nil_iff
  | object o =>
    rw [List.append_eq_nil_iff, fieldSetDefects_eq_nil_iff, List.flatMap_eq_nil_iff]
    constructor
    · rintro ⟨hf, hi⟩
      exact ⟨hf, fun interface hm => (interfaceDefects_eq_nil_iff hf).1 (hi interface hm)⟩
    · rintro ⟨hf, hi⟩
      exact ⟨hf, fun interface hm => (interfaceDefects_eq_nil_iff hf).2 (hi interface hm)⟩

/-- **Checking a registry finds nothing if and only if it is well-formed.** -/
theorem violations_eq_nil_iff : r.violations = [] ↔ r.WellFormed := by
  simp only [violations, List.flatMap_eq_nil_iff, List.map_eq_nil_iff, typeDefects_eq_nil_iff]
  constructor
  · intro h
    exact ⟨fun t ht => (h t ht).1, fun t ht => (h t ht).2⟩
  · rintro ⟨hn, ht⟩ t hm
    exact ⟨hn t hm, ht t hm⟩

theorem rootViolations_eq_nil_iff (operation : OperationKind) {name : String} :
    r.rootViolations operation name = [] ↔ ∃ o, r.get? name = some (.object o) := by
  unfold rootViolations
  cases hg : r.get? name with
  | none => simp
  | some t => cases t <;> simp

end Registry

namespace Schema

variable {σ : Type}

/-- **Schemas are made of the well-formed registries.** Whatever the registry is, checking it with
its fields built finds nothing if and only if it is well-formed, and it becomes a schema if and only
if its roots are registered objects as well. -/
theorem create?_ok_iff (r : Registry σ) (query : String) (mutation? : Option String) :
    (r.buildAll.violations = [] ↔ r.buildAll.WellFormed) ∧
    ((∃ s, create? r query mutation? = .ok s) ↔
      r.buildAll.WellFormed ∧ (∃ o, r.buildAll.get? query = some (.object o)) ∧
        ∀ name ∈ mutation?, ∃ o, r.buildAll.get? name = some (.object o)) := by
  have hmutation : mutationViolations r.buildAll mutation? = [] ↔
      ∀ name ∈ mutation?, ∃ o, r.buildAll.get? name = some (.object o) := by
    cases mutation? with
    | none => simp [mutationViolations]
    | some name => simp [mutationViolations, Registry.rootViolations_eq_nil_iff]
  refine ⟨Registry.violations_eq_nil_iff, ?_⟩
  rw [← Registry.violations_eq_nil_iff, ← Registry.rootViolations_eq_nil_iff .query, ← hmutation]
  unfold create?
  simp only [Registry.check_eq]
  split
  · next h => simp [h]
  · next h => simpa using h

end Schema

end GraphQL
