import GraphQL.Proofs.Overlap
import GraphQL.Proofs.Selections

/-!
# What offends in an operation

A selection stands on a static type, and by that alone it is in order or offends
(`Schema.Offends`): a field that the type lacks, a selection set where there should be none or none
where there should be one, a `__typename` with a selection set or one that is not allowed, and a
fragment whose condition does not fit. `Schema.Inside` says what the static type is inside a
selection. Binding a selection lists its faults if it offends, and otherwise goes on inside
(`Schema.binds`).
-/

namespace GraphQL

namespace Selection

/-- What is selected inside a selection: below a field, or in a fragment. -/
def inside : Selection → List Selection
  | .field node => node.children
  | .fragment _ selections => selections

/-- The response key of a field; fragments have none. -/
def key? : Selection → Option String
  | .field node => some node.responseKey
  | .fragment _ _ => none

end Selection

theorem TypeKind.isComposite_eq (kind : TypeKind) : kind.isComposite = !kind.isLeaf := by
  cases kind <;> rfl

/-- The type declares the field itself. -/
def TypeDef.Has {σ : Type} (t : TypeDef σ) (f : Field σ) : Prop :=
  ∃ fields, t.fields? = some fields ∧ f ∈ fields

namespace Schema

variable {σ : Type} {s : Schema σ} {t : TypeDef σ} {name : String}

/-! ## Declarations -/

/-- Neither the type declares a field of the name nor, if it is abstract, any of its possible
types. -/
structure Lacks (s : Schema σ) (t : TypeDef σ) (name : String) : Prop where
  own : ∀ f, t.Has f → f.name ≠ name
  possible : t.kind.isAbstract = true →
    ∀ o ∈ s.registry.possibleTypes t.name, ∀ f ∈ o.fields, f.name ≠ name

/-- The declaration that a field name has on a type: the type's own, or else that of the first
possible type of an abstract type that has one. -/
inductive Declares (s : Schema σ) (t : TypeDef σ) (name : String) : Field σ → Prop where
  | own {f} (h : t.Has f) (hn : f.name = name) : Declares s t name f
  | possible {f before o after} (hown : ∀ f, t.Has f → f.name ≠ name)
    (ha : t.kind.isAbstract = true)
    (ho : s.registry.possibleTypes t.name = before ++ o :: after)
    (hbefore : ∀ earlier ∈ before, ∀ f ∈ earlier.fields, f.name ≠ name) (h : f ∈ o.fields)
    (hn : f.name = name) : Declares s t name f

theorem field?_eq_none_iff : t.field? name = none ↔ ∀ f, t.Has f → f.name ≠ name := by
  unfold TypeDef.field? TypeDef.Has
  cases t.fields? with
  | none => simp
  | some fields =>
    rw [Option.bind_some, find?_name_eq_none_iff]
    constructor
    · rintro h f ⟨fields', heq, hf⟩
      obtain rfl := Option.some.inj heq
      exact h f hf
    · intro h f hf
      exact h f ⟨fields, rfl, hf⟩

theorem field?_eq_some_iff (ht : s.registry.get? t.name = some t) {f : Field σ} :
    t.field? name = some f ↔ t.Has f ∧ f.name = name := by
  constructor
  · intro h
    obtain ⟨fields, hfields, hf⟩ := Option.bind_eq_some_iff.1 h
    obtain ⟨hm, hn⟩ := Field.of_find? hf
    exact ⟨⟨fields, hfields, hm⟩, hn⟩
  · rintro ⟨⟨fields, hfields, hm⟩, rfl⟩
    have hdistinct := (s.wellFormedFields ht hfields).distinct
    exact Option.bind_eq_some_iff.2 ⟨fields, hfields, find?_name_of_nodup hdistinct hm⟩

theorem fieldFor?_eq_none_iff : s.fieldFor? t name = none ↔ s.Lacks t name := by
  unfold fieldFor?
  cases hf : t.field? name with
  | some f =>
    have hsome : ¬ s.Lacks t name := by
      intro h
      have hnone := field?_eq_none_iff.2 h.own
      rw [hf] at hnone
      nomatch hnone
    simp [hsome]
  | none =>
    have hown := field?_eq_none_iff.1 hf
    cases ha : t.kind.isAbstract with
    | false =>
      simp only [Bool.false_eq_true, if_false, true_iff]
      exact ⟨hown, fun h => absurd (ha.symm.trans h) nofun⟩
    | true =>
      simp only [if_true, List.findSome?_eq_none_iff]
      constructor
      · intro h
        exact ⟨hown, fun _ o ho => find?_name_eq_none_iff.1 (h o ho)⟩
      · intro h o ho
        exact find?_name_eq_none_iff.2 (h.possible ha o ho)

theorem fieldFor?_eq_some_iff (ht : s.registry.get? t.name = some t) {f : Field σ} :
    s.fieldFor? t name = some f ↔ s.Declares t name f := by
  have hobject : ∀ {o : ObjectType σ}, o ∈ s.registry.possibleTypes t.name →
      (o.field? name = some f ↔ f ∈ o.fields ∧ f.name = name) := by
    intro o ho
    have hget := Registry.get?_of_mem_possibleTypes ho
    constructor
    · exact Field.of_find?
    · rintro ⟨hm, rfl⟩
      exact find?_name_of_nodup (s.wellFormedObject hget).fields.distinct hm
  unfold fieldFor?
  constructor
  · intro h
    split at h
    · next f' hf =>
      obtain rfl := Option.some.inj h
      obtain ⟨hm, hn⟩ := (field?_eq_some_iff ht).1 hf
      exact .own hm hn
    · next hnone =>
      split at h
      · next ha =>
        obtain ⟨before, o, after, ho, hf, hbefore⟩ := List.findSome?_eq_some_iff.1 h
        obtain ⟨hm, hn⟩ := (hobject (ho ▸ List.mem_append_right _ List.mem_cons_self)).1 hf
        refine .possible (field?_eq_none_iff.1 hnone) ha ho ?_ hm hn
        intro earlier he
        exact find?_name_eq_none_iff.1 (hbefore earlier he)
      · nomatch h
  · intro h
    cases h with
    | own h hn =>
      have hf := (field?_eq_some_iff ht).2 ⟨h, hn⟩
      rw [hf]
    | @possible before o after hown ha ho hbefore h hn =>
      have hnone := field?_eq_none_iff.2 hown
      have hf := (hobject (ho ▸ List.mem_append_right _ List.mem_cons_self)).2 ⟨h, hn⟩
      simp only [hnone, ha, if_true]
      refine List.findSome?_eq_some_iff.2 ⟨before, o, after, ho, hf, ?_⟩
      intro earlier he
      exact find?_name_eq_none_iff.2 (hbefore earlier he)

/-! ## Offences -/

/-- Values of the first type may be of the second: they are the same, or some object is of both. -/
def Overlaps (s : Schema σ) (a b : TypeDef σ) : Prop :=
  a = b ∨ ∃ o, s.registry.get? o.name = some (.object o) ∧
    s.registry.fragmentApplies a.name o.name = true ∧
    s.registry.fragmentApplies b.name o.name = true

/-- A selection that stands on the type cannot be bound, and why. -/
inductive Offends (s : Schema σ) (t : TypeDef σ) : Selection → BindingFault → Prop where
  | introspection {node} (hn : node.name = "__typename") (hd : s.introspectionDisabled = true) :
    Offends s t (.field node) .introspectionDisabled
  | typename {node selections} (hn : node.name = "__typename")
    (hs : node.selections? = some selections) : Offends s t (.field node) .selectionOnTypename
  | unknown {node} (hn : node.name ≠ "__typename") (hl : s.Lacks t node.name) :
    Offends s t (.field node) (.unknownField node.name t.name)
  | leaf {node f target selections} (hn : node.name ≠ "__typename")
    (hf : s.Declares t node.name f) (ht : s.registry.lookup? f.type = some target)
    (hk : target.kind.isLeaf = true) (hs : node.selections? = some selections) :
    Offends s t (.field node) (.selectionOnLeaf node.name f.type)
  | composite {node f target} (hn : node.name ≠ "__typename")
    (hf : s.Declares t node.name f) (ht : s.registry.lookup? f.type = some target)
    (hk : target.kind.isComposite = true) (hs : node.selections? = none) :
    Offends s t (.field node) (.missingSelection node.name f.type)
  | unregistered {condition selections} (hc : s.registry.get? condition = none) :
    Offends s t (.fragment (some condition) selections) (.unknownCondition condition)
  | nonComposite {condition selections target} (hc : s.registry.get? condition = some target)
    (hk : target.kind.isComposite = false) :
    Offends s t (.fragment (some condition) selections) (.nonCompositeCondition condition)
  | impossible {condition selections target} (hc : s.registry.get? condition = some target)
    (hk : target.kind.isComposite = true) (ho : ¬ s.Overlaps t target) :
    Offends s t (.fragment (some condition) selections) (.impossibleCondition t.name condition)

/-- The static type inside a selection that stands on the first type is the second. -/
inductive Inside (s : Schema σ) (t : TypeDef σ) : Selection → TypeDef σ → Prop where
  | field {node f target} (hf : s.Declares t node.name f)
    (ht : s.registry.lookup? f.type = some target) : Inside s t (.field node) target
  | fragment {selections} : Inside s t (.fragment none selections) t
  | condition {condition selections target} (hc : s.registry.get? condition = some target) :
    Inside s t (.fragment (some condition) selections) target

theorem Inside.unique (ht : s.registry.get? t.name = some t) {selection : Selection}
    {a b : TypeDef σ} (ha : s.Inside t selection a) (hb : s.Inside t selection b) : a = b := by
  cases ha with
  | field hf hl =>
    cases hb with
    | field hf' hl' =>
      rw [← fieldFor?_eq_some_iff ht] at hf hf'
      obtain rfl := Option.some.inj (hf.symm.trans hf')
      exact Option.some.inj (hl.symm.trans hl')
  | fragment =>
    cases hb
    rfl
  | condition hc =>
    cases hb with
    | condition hc' => exact Option.some.inj (hc.symm.trans hc')

theorem Inside.get? (ht : s.registry.get? t.name = some t) {selection : Selection}
    {target : TypeDef σ} (h : s.Inside t selection target) :
    s.registry.get? target.name = some target := by
  cases h with
  | field _ hl => exact Registry.get?_name hl
  | fragment => exact ht
  | condition hc => exact Registry.get?_name hc

/-! ## Offences of one kind of selection -/

theorem offends_typename_iff {node : FieldNode Selection} (hn : node.name = "__typename")
    {fault : BindingFault} :
    s.Offends t (.field node) fault ↔
      s.introspectionDisabled = true ∧ fault = .introspectionDisabled ∨
        node.selections?.isSome = true ∧ fault = .selectionOnTypename := by
  constructor
  · intro h
    cases h with
    | introspection _ hd => exact .inl ⟨hd, rfl⟩
    | typename _ hs => exact .inr ⟨by rw [hs, Option.isSome_some], rfl⟩
    | unknown hn' => exact absurd hn hn'
    | leaf hn' => exact absurd hn hn'
    | composite hn' => exact absurd hn hn'
  · rintro (⟨hd, rfl⟩ | ⟨hs, rfl⟩)
    · exact .introspection hn hd
    · obtain ⟨selections, hs⟩ := Option.isSome_iff_exists.1 hs
      exact .typename hn hs

theorem offends_iff_of_lacks (ht : s.registry.get? t.name = some t) {node : FieldNode Selection}
    (hn : node.name ≠ "__typename") (hl : s.Lacks t node.name) {fault : BindingFault} :
    s.Offends t (.field node) fault ↔ fault = .unknownField node.name t.name := by
  have hnone : ∀ f, ¬ s.Declares t node.name f := by
    intro f hf
    rw [← fieldFor?_eq_some_iff ht, fieldFor?_eq_none_iff.2 hl] at hf
    nomatch hf
  constructor
  · intro h
    cases h with
    | introspection hn' => exact absurd hn' hn
    | typename hn' => exact absurd hn' hn
    | unknown => rfl
    | leaf _ hf => exact absurd hf (hnone _)
    | composite _ hf => exact absurd hf (hnone _)
  · rintro rfl
    exact .unknown hn hl

theorem offends_iff_of_declares (ht : s.registry.get? t.name = some t)
    {node : FieldNode Selection} (hn : node.name ≠ "__typename") {f : Field σ}
    (hf : s.Declares t node.name f) {target : TypeDef σ}
    (hl : s.registry.lookup? f.type = some target) {fault : BindingFault} :
    s.Offends t (.field node) fault ↔
      target.kind.isLeaf = true ∧ node.selections?.isSome = true ∧
          fault = .selectionOnLeaf node.name f.type ∨
        target.kind.isLeaf = false ∧ node.selections? = none ∧
          fault = .missingSelection node.name f.type := by
  have hunique : ∀ f', s.Declares t node.name f' → f' = f := by
    intro f' hf'
    rw [← fieldFor?_eq_some_iff ht] at hf hf'
    exact Option.some.inj (hf'.symm.trans hf)
  constructor
  · intro h
    cases h with
    | introspection hn' => exact absurd hn' hn
    | typename hn' => exact absurd hn' hn
    | unknown _ hlacks =>
      rw [← fieldFor?_eq_some_iff ht, fieldFor?_eq_none_iff.2 hlacks] at hf
      nomatch hf
    | leaf _ hf' hl' hk hs =>
      obtain rfl := hunique _ hf'
      obtain rfl := Option.some.inj (hl.symm.trans hl')
      exact .inl ⟨hk, by rw [hs, Option.isSome_some], rfl⟩
    | composite _ hf' hl' hk hs =>
      obtain rfl := hunique _ hf'
      obtain rfl := Option.some.inj (hl.symm.trans hl')
      rw [TypeKind.isComposite_eq, Bool.not_eq_true'] at hk
      exact .inr ⟨hk, hs, rfl⟩
  · rintro (⟨hk, hs, rfl⟩ | ⟨hk, hs, rfl⟩)
    · obtain ⟨selections, hs⟩ := Option.isSome_iff_exists.1 hs
      exact .leaf hn hf hl hk hs
    · exact .composite hn hf hl (by rw [TypeKind.isComposite_eq, hk, Bool.not_false]) hs

theorem offends_iff_of_unregistered {condition : String}
    (hc : s.registry.get? condition = none) {selections : List Selection} {fault : BindingFault} :
    s.Offends t (.fragment (some condition) selections) fault ↔
      fault = .unknownCondition condition := by
  constructor
  · intro h
    cases h with
    | unregistered => rfl
    | nonComposite hc' => nomatch hc.symm.trans hc'
    | impossible hc' => nomatch hc.symm.trans hc'
  · rintro rfl
    exact .unregistered hc

theorem offends_iff_of_registered {condition : String} {target : TypeDef σ}
    (hc : s.registry.get? condition = some target) {selections : List Selection}
    {fault : BindingFault} :
    s.Offends t (.fragment (some condition) selections) fault ↔
      target.kind.isComposite = false ∧ fault = .nonCompositeCondition condition ∨
        target.kind.isComposite = true ∧ ¬ s.Overlaps t target ∧
          fault = .impossibleCondition t.name condition := by
  constructor
  · intro h
    cases h with
    | unregistered hc' => nomatch hc.symm.trans hc'
    | nonComposite hc' hk =>
      obtain rfl := Option.some.inj (hc.symm.trans hc')
      exact .inl ⟨hk, rfl⟩
    | impossible hc' hk ho =>
      obtain rfl := Option.some.inj (hc.symm.trans hc')
      exact .inr ⟨hk, ho, rfl⟩
  · rintro (⟨hk, rfl⟩ | ⟨hk, ho, rfl⟩)
    · exact .nonComposite hc hk
    · exact .impossible hc hk ho

/-! ## Binding a selection -/

/-- The one order in which a selection can have two faults. -/
def FaultBefore (a b : BindingFault) : Prop :=
  a = .introspectionDisabled ∧ b = .selectionOnTypename

/-- The faults of the selection on the type, in order. -/
structure Faults (s : Schema σ) (t : TypeDef σ) (selection : Selection)
    (faults : List BindingFault) : Prop where
  mem_iff : ∀ fault, fault ∈ faults ↔ s.Offends t selection fault
  ordered : faults.Pairwise FaultBefore

theorem Faults.of_eq {selection : Selection} {fault : BindingFault}
    (h : ∀ fault', s.Offends t selection fault' ↔ fault' = fault) :
    s.Faults t selection [fault] :=
  ⟨fun fault' => by rw [List.mem_singleton, h], List.pairwise_singleton _ _⟩

theorem bindSelection_field_eq (node : FieldNode Selection) (path : List String) :
    s.bindSelection t path (.field node) =
      match s.bindField t node.name node.selections?.isSome with
      | .faulty faults => faults.map (⟨path ++ [node.responseKey], ·⟩)
      | .composite target => s.bindAll target (path ++ [node.responseKey]) node.children
      | .leaf => [] := by
  obtain ⟨alias?, name, arguments, selections?⟩ := node
  cases selections? with
  | none =>
    rw [bindSelection]
    cases hb : s.bindField t name false <;>
      simp [hb, FieldNode.responseKey, FieldNode.children, bindAll]
  | some selections =>
    rw [bindSelection]
    cases hb : s.bindField t name true <;> simp [hb, FieldNode.responseKey, FieldNode.children]

/-- What binding a selection comes to: its faults, each at the keys around it and its own, or else
what is wrong inside it, if anything is selected there, on the static type that it leads to. -/
inductive Binds (s : Schema σ) (t : TypeDef σ) (path : List String) (selection : Selection)
    (errors : List BindingError) : Prop where
  | faulty {faults} (hne : faults ≠ []) (h : s.Faults t selection faults)
    (he : errors = faults.map fun fault => ⟨path ++ selection.key?.toList, fault⟩)
  | nothing (hn : ∀ fault, ¬ s.Offends t selection fault) (hi : selection.inside = [])
    (he : errors = [])
  | inside {target} (hn : ∀ fault, ¬ s.Offends t selection fault)
    (hi : s.Inside t selection target)
    (he : errors = s.bindAll target (path ++ selection.key?.toList) selection.inside)

theorem binds_typename {node : FieldNode Selection} (hn : node.name = "__typename")
    (path : List String) :
    s.Binds t path (.field node) (s.bindSelection t path (.field node)) := by
  have hoffends : ∀ fault, s.Offends t (.field node) fault ↔ _ :=
    fun _ => offends_typename_iff hn
  rw [bindSelection_field_eq, bindField, if_pos hn]
  cases hd : s.introspectionDisabled with
  | true =>
    cases hs : node.selections? with
    | none =>
      refine .faulty (by simp) ⟨fun fault => ?_, by simp⟩ rfl
      simp [hoffends, hd, hs]
    | some selections =>
      refine .faulty (by simp) ⟨fun fault => ?_, by simp [FaultBefore]⟩ rfl
      simp [hoffends, hd, hs]
  | false =>
    cases hs : node.selections? with
    | none =>
      refine .nothing (fun fault => ?_) ?_ rfl
      · simp [hoffends, hd, hs]
      · simp [Selection.inside, FieldNode.children, hs]
    | some selections =>
      refine .faulty (by simp) ⟨fun fault => ?_, by simp⟩ rfl
      simp [hoffends, hd, hs]

theorem binds_field (ht : s.registry.get? t.name = some t) {node : FieldNode Selection}
    (hn : node.name ≠ "__typename") (path : List String) :
    s.Binds t path (.field node) (s.bindSelection t path (.field node)) := by
  rw [bindSelection_field_eq, bindField, if_neg hn]
  cases hf : s.fieldFor? t node.name with
  | none =>
    have hlacks := fieldFor?_eq_none_iff.1 hf
    exact .faulty (by simp) (.of_eq fun _ => offends_iff_of_lacks ht hn hlacks) rfl
  | some f =>
    obtain ⟨target, hl⟩ := (validField_of_fieldFor? ht hf).refers.registered
    have hdeclares := (fieldFor?_eq_some_iff ht).1 hf
    have hoffends : ∀ fault, s.Offends t (.field node) fault ↔ _ :=
      fun _ => offends_iff_of_declares ht hn hdeclares hl
    simp only [hl]
    -- a set on a leaf and a composite type without one are the faults
    cases hs : node.selections? with
    | none =>
      cases hk : target.kind.isLeaf with
      | true =>
        refine .nothing (fun fault => ?_) ?_ rfl
        · simp [hoffends, hs, hk]
        · simp [Selection.inside, FieldNode.children, hs]
      | false =>
        refine .faulty (by simp) (.of_eq fun fault => ?_) rfl
        simp [hoffends, hs, hk]
    | some selections =>
      cases hk : target.kind.isLeaf with
      | true =>
        refine .faulty (by simp) (.of_eq fun fault => ?_) rfl
        simp [hoffends, hs, hk]
      | false =>
        refine .inside (fun fault => ?_) (.field hdeclares hl) rfl
        simp [hoffends, hs, hk]

theorem binds_condition (ht : s.registry.get? t.name = some t) (condition : String)
    (selections : List Selection) (path : List String) :
    s.Binds t path (.fragment (some condition) selections)
      (s.bindSelection t path (.fragment (some condition) selections)) := by
  rw [bindSelection]
  cases hc : s.registry.get? condition with
  | none =>
    refine .faulty (by simp) (.of_eq fun _ => offends_iff_of_unregistered hc) ?_
    simp [bindCondition, hc, Selection.key?]
  | some target =>
    have hoffends : ∀ fault, s.Offends t (.fragment (some condition) selections) fault ↔ _ :=
      fun _ => offends_iff_of_registered hc
    have hoverlap : s.registry.typesOverlap t target = true ↔ s.Overlaps t target :=
      Registry.typesOverlap_iff (Registry.mem_types_of_get? ht) (Registry.mem_types_of_get? hc)
    cases hk : target.kind.isComposite with
    | false =>
      have hfaults : s.Faults t (.fragment (some condition) selections)
          [.nonCompositeCondition condition] := .of_eq fun fault => by simp [hoffends, hk]
      exact .faulty (by simp) hfaults (by simp [bindCondition, hc, hk, Selection.key?])
    | true =>
      cases ho : s.registry.typesOverlap t target with
      | false =>
        have hfaults : s.Faults t (.fragment (some condition) selections)
            [.impossibleCondition t.name condition] :=
          .of_eq fun fault => by simp [hoffends, hk, ← hoverlap, ho]
        exact .faulty (by simp) hfaults (by simp [bindCondition, hc, hk, ho, Selection.key?])
      | true =>
        refine .inside (fun fault => ?_) (.condition hc) ?_
        · simp [hoffends, hk, ← hoverlap, ho]
        · simp [bindCondition, hc, hk, ho, Selection.key?, Selection.inside]

/-- **Binding a selection lists its faults or goes on inside.** -/
theorem binds (ht : s.registry.get? t.name = some t) (path : List String)
    (selection : Selection) : s.Binds t path selection (s.bindSelection t path selection) := by
  cases selection with
  | field node =>
    by_cases hn : node.name = "__typename"
    · exact binds_typename hn path
    · exact binds_field ht hn path
  | fragment condition? selections =>
    cases condition? with
    | none =>
      refine .inside (fun fault h => nomatch h) .fragment ?_
      rw [bindSelection]
      simp [bindCondition, Selection.key?, Selection.inside]
    | some condition => exact binds_condition ht condition selections path

end Schema

end GraphQL
