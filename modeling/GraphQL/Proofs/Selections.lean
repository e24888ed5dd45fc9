import GraphQL.Proofs.Lookups
import GraphQL.Proofs.Subtype

/-!
# Selections and the types they are bound on

An operation is bound before it runs, each selection on the static type around it. `Schema.Occurs`
says which selections stand in an operation and on which static types, and in an operation that can
be bound every one of them is bound there (`Schema.Occurs.bound`). So a field has a selection set
just if the declaration that it was bound to ends in a composite type (`Schema.Occurs.fits`), and
whatever an execution comes to stands in the operation (`Schema.Visits.within`).
-/

namespace GraphQL

namespace Registry

variable {σ : Type} {r : Registry σ} {o : ObjectType σ} {P : Selection → Prop}
  {node : FieldNode Selection}

mutual

theorem of_mem_flattenSelection
    (hP : ∀ condition? selections,
      (∀ condition ∈ condition?, r.fragmentApplies condition o.name = true) →
      P (.fragment condition? selections) → ∀ x ∈ selections, P x) :
    (selection : Selection) → P selection → node ∈ r.flattenSelection o selection → P (.field node)
  | .field node', h, hm => by
    rw [flattenSelection] at hm
    split at hm
    · rw [List.mem_singleton] at hm
      exact hm ▸ h
    · nomatch hm
  | .fragment none selections, h, hm => by
    rw [flattenSelection] at hm
    exact of_mem_flatten hP selections (hP none selections (by simp) h) hm
  | .fragment (some condition) selections, h, hm => by
    rw [flattenSelection] at hm
    split at hm
    · next ha => exact of_mem_flatten hP selections (hP _ _ (by simpa using ha) h) hm
    · nomatch hm

/-- What holds of selections and of everything in those of their fragments that apply holds of the
nodes among them. -/
theorem of_mem_flatten
    (hP : ∀ condition? selections,
      (∀ condition ∈ condition?, r.fragmentApplies condition o.name = true) →
      P (.fragment condition? selections) → ∀ x ∈ selections, P x) :
    (selections : List Selection) → (∀ x ∈ selections, P x) → node ∈ r.flatten o selections →
    P (.field node)
  | [], _, hm => by
    rw [flatten] at hm
    nomatch hm
  | selection :: rest, h, hm => by
    rw [flatten, List.mem_append] at hm
    rcases hm with hm | hm
    · exact of_mem_flattenSelection hP selection (h selection List.mem_cons_self) hm
    · exact of_mem_flatten hP rest (fun x hx => h x (List.mem_cons_of_mem _ hx)) hm

end

end Registry

theorem FieldNode.isSome_of_mem_children {node : FieldNode Selection} {selection : Selection}
    (h : selection ∈ node.children) : node.selections?.isSome = true := by
  rw [children] at h
  cases hs : node.selections? with
  | none => simp [hs] at h
  | some selections => rfl

namespace Schema

variable {σ : Type} {s : Schema σ} {owner : TypeDef σ} {path : List String}

/-! ## Binding one selection -/

theorem bindSelection_of_mem {selections : List Selection} {selection : Selection}
    (h : s.bindAll owner path selections = []) (hm : selection ∈ selections) :
    s.bindSelection owner path selection = [] := by
  induction selections with
  | nil => nomatch hm
  | cons first rest ih =>
    rw [bindAll, List.append_eq_nil_iff] at h
    rcases List.mem_cons.1 hm with rfl | hm
    · exact h.1
    · exact ih h.2 hm

theorem get?_of_bindCondition_some {condition : String} {t : TypeDef σ}
    (h : s.bindCondition owner (some condition) = .ok t) :
    s.registry.get? condition = some t := by
  unfold bindCondition at h
  dsimp only at h
  split at h
  · nomatch h
  · next t' ht =>
    split at h
    · nomatch h
    · split at h
      · nomatch h
      · have heq : t' = t := Except.ok.inj h
        exact heq ▸ ht

theorem name_of_bindCondition {condition : String} {t : TypeDef σ}
    (h : s.bindCondition owner (some condition) = .ok t) : t.name = condition :=
  Registry.name_of_get? (get?_of_bindCondition_some h)

theorem get?_of_bindCondition {condition? : Option String} {t : TypeDef σ}
    (ho : s.registry.get? owner.name = some owner) (h : s.bindCondition owner condition? = .ok t) :
    s.registry.get? t.name = some t := by
  cases condition? with
  | none =>
    have heq : owner = t := Except.ok.inj h
    exact heq ▸ ho
  | some condition => exact Registry.get?_name (get?_of_bindCondition_some h)

theorem bindSelection_fragment {condition? : Option String} {selections : List Selection}
    (h : s.bindSelection owner path (.fragment condition? selections) = []) :
    ∃ t, s.bindCondition owner condition? = .ok t ∧ s.bindAll t path selections = [] := by
  rw [bindSelection] at h
  split at h
  · next t ht => exact ⟨t, ht, h⟩
  · cases h

/-- The declaration that a field is bound to belongs to a registered type. -/
theorem validField_of_fieldFor? {key : String} {declared : Field σ}
    (ho : s.registry.get? owner.name = some owner) (h : s.fieldFor? owner key = some declared) :
    s.registry.ValidField declared := by
  unfold fieldFor? at h
  split at h
  · next f hf =>
    obtain ⟨fields, hfields, hf⟩ := Option.bind_eq_some_iff.1 hf
    have heq : f = declared := Option.some.inj h
    exact heq ▸ s.validField ho hfields (List.mem_of_find?_eq_some hf)
  · split at h
    · obtain ⟨o, hm, hf⟩ := List.exists_of_findSome?_eq_some h
      exact s.validField_of_field? (Registry.get?_of_mem_possibleTypes hm) hf
    · nomatch h

/-- A field that is bound without a fault has a declaration, and a selection set just if that ends
in a composite type. -/
theorem bindField_eq {key : String} {hasSelections : Bool}
    (ho : s.registry.get? owner.name = some owner) (hn : key ≠ "__typename")
    (h : ∀ faults, s.bindField owner key hasSelections = .faulty faults → faults = []) :
    ∃ declared target, s.fieldFor? owner key = some declared ∧
      s.registry.lookup? declared.type = some target ∧ hasSelections = target.kind.isComposite ∧
      s.bindField owner key hasSelections = if hasSelections then .composite target else .leaf := by
  unfold bindField at h ⊢
  rw [if_neg hn] at h ⊢
  cases hf : s.fieldFor? owner key with
  | none =>
    rw [hf] at h
    exact absurd (h _ rfl) (by simp)
  | some declared =>
    obtain ⟨target, ht⟩ := (validField_of_fieldFor? ho hf).refers.registered
    rw [hf] at h
    simp only [ht] at h ⊢
    refine ⟨declared, target, rfl, ht, ?_⟩
    -- a set on a leaf and a composite type without one are the faults
    cases hasSelections <;> cases hk : target.kind <;>
      simp_all [TypeKind.isLeaf, TypeKind.isComposite]

theorem bindSelection_field {node : FieldNode Selection}
    (h : s.bindSelection owner path (.field node) = []) :
    (∀ faults, s.bindField owner node.name node.selections?.isSome = .faulty faults →
      faults = []) ∧
    ∀ t, s.bindField owner node.name node.selections?.isSome = .composite t →
      s.bindAll t (path ++ [node.responseKey]) node.children = [] := by
  obtain ⟨alias?, name, arguments, selections?⟩ := node
  cases selections? with
  | none =>
    rw [bindSelection] at h
    constructor
    · intro faults hb
      have hb : s.bindField owner name false = .faulty faults := hb
      rw [hb] at h
      exact List.map_eq_nil_iff.1 h
    · intro t hb
      rfl
  | some selections =>
    rw [bindSelection] at h
    constructor
    · intro faults hb
      have hb : s.bindField owner name true = .faulty faults := hb
      rw [hb] at h
      exact List.map_eq_nil_iff.1 h
    · intro t hb
      have hb : s.bindField owner name true = .composite t := hb
      rw [hb] at h
      exact h

/-! ## Selections and the static types around them -/

/-- The selection stands in the operation, and the type is the static type around it. -/
inductive Occurs (s : Schema σ) (operation : Operation) : TypeDef σ → Selection → Prop where
  | root {name root selection} (hn : s.rootName? operation.kind = some name)
    (hr : s.registry.get? name = some root) (hm : selection ∈ operation.selections) :
    Occurs s operation root selection
  | fragment {owner t condition? selections selection}
    (h : Occurs s operation owner (.fragment condition? selections))
    (ht : s.bindCondition owner condition? = .ok t) (hm : selection ∈ selections) :
    Occurs s operation t selection
  | child {owner t node selection} (h : Occurs s operation owner (.field node))
    (ht : s.bindField owner node.name node.selections?.isSome = .composite t)
    (hm : selection ∈ node.children) : Occurs s operation t selection

namespace Occurs

variable {operation : Operation} {selection : Selection}

theorem get?_owner (h : s.Occurs operation owner selection) :
    s.registry.get? owner.name = some owner := by
  induction h with
  | root _ hr _ => exact Registry.get?_name hr
  | fragment _ ht _ ih => exact get?_of_bindCondition ih ht
  | child _ ht _ _ =>
    -- only a type that was looked up is one to select from
    unfold bindField at ht
    split at ht
    · nomatch ht
    · split at ht
      · nomatch ht
      · split at ht
        · nomatch ht
        · next target hl =>
          split at ht
          · nomatch ht
          · nomatch ht
          · obtain rfl := FieldBinding.composite.inj ht
            exact Registry.get?_name hl
          · nomatch ht

/-- In an operation that can be bound, every selection is, on the static type around it. -/
theorem bound (hb : s.bind operation = []) (h : s.Occurs operation owner selection) :
    ∃ path, s.bindSelection owner path selection = [] := by
  induction h with
  | root hn hr hm =>
    unfold bind at hb
    rw [hn, Option.bind_some, hr] at hb
    exact ⟨[], bindSelection_of_mem hb hm⟩
  | fragment h ht hm ih =>
    obtain ⟨path, hpath⟩ := ih
    obtain ⟨t', ht', hall⟩ := bindSelection_fragment hpath
    rw [ht, Except.ok.injEq] at ht'
    exact ⟨path, bindSelection_of_mem (ht' ▸ hall) hm⟩
  | child h ht hm ih =>
    obtain ⟨path, hpath⟩ := ih
    exact ⟨_, bindSelection_of_mem ((bindSelection_field hpath).2 _ ht) hm⟩

/-- A field has a selection set just if the declaration that it was bound to ends in a composite
type. -/
theorem fits {node : FieldNode Selection} (hb : s.bind operation = [])
    (h : s.Occurs operation owner (.field node)) (hn : node.name ≠ "__typename") :
    ∃ declared, s.fieldFor? owner node.name = some declared ∧
      node.selections?.isSome = s.registry.isComposite declared.type := by
  obtain ⟨path, hpath⟩ := h.bound hb
  obtain ⟨declared, target, hf, ht, hk, -⟩ :=
    bindField_eq h.get?_owner hn (bindSelection_field hpath).1
  refine ⟨declared, hf, ?_⟩
  rw [hk, Registry.isComposite, ht, Option.any_some]

/-- What stands in a fragment is bound on the type inside it. -/
theorem inside (hb : s.bind operation = []) {condition? : Option String}
    {selections : List Selection} (h : s.Occurs operation owner (.fragment condition? selections)) :
    ∃ t, s.bindCondition owner condition? = .ok t ∧ ∀ x ∈ selections, s.Occurs operation t x := by
  obtain ⟨path, hpath⟩ := h.bound hb
  obtain ⟨t, ht, -⟩ := bindSelection_fragment hpath
  exact ⟨t, ht, fun x hm => .fragment h ht hm⟩

/-- A field with a selection set is declared, and its selections are bound on the type in which the
declaration ends. -/
theorem children (hb : s.bind operation = []) {node : FieldNode Selection}
    (h : s.Occurs operation owner (.field node)) (hs : node.selections?.isSome = true) :
    node.name ≠ "__typename" ∧ ∃ declared target, s.fieldFor? owner node.name = some declared ∧
      s.registry.lookup? declared.type = some target ∧ target.kind.isComposite = true ∧
      ∀ x ∈ node.children, s.Occurs operation target x := by
  obtain ⟨path, hpath⟩ := h.bound hb
  obtain ⟨hfaults, -⟩ := bindSelection_field hpath
  have hn : node.name ≠ "__typename" := by
    intro hn
    have hnil := hfaults _ (by rw [bindField, if_pos hn])
    simp [hs] at hnil
  obtain ⟨declared, target, hf, ht, hk, hbind⟩ := bindField_eq h.get?_owner hn hfaults
  rw [if_pos hs] at hbind
  exact ⟨hn, declared, target, hf, ht, hk ▸ hs, fun x hm => .child h hbind hm⟩

end Occurs

/-! ## Executing keeps to the operation -/

/-- The selection stands somewhere in the operation. -/
def Contains (s : Schema σ) (operation : Operation) (selection : Selection) : Prop :=
  ∃ owner, s.Occurs operation owner selection

variable {operation : Operation}

theorem Contains.of_fragment (hb : s.bind operation = []) {condition? : Option String}
    {selections : List Selection} (h : s.Contains operation (.fragment condition? selections)) :
    ∀ selection ∈ selections, s.Contains operation selection := by
  obtain ⟨owner, ho⟩ := h
  obtain ⟨t, -, hall⟩ := ho.inside hb
  exact fun selection hm => ⟨t, hall selection hm⟩

theorem Contains.of_children (hb : s.bind operation = []) {node : FieldNode Selection}
    (h : s.Contains operation (.field node)) :
    ∀ selection ∈ node.children, s.Contains operation selection := by
  intro selection hm
  obtain ⟨owner, ho⟩ := h
  obtain ⟨-, _, target, -, -, -, hall⟩ := ho.children hb (FieldNode.isSome_of_mem_children hm)
  exact ⟨target, hall selection hm⟩

end Schema

/-- Everything that is selected at a position stands in the operation. -/
def Spot.Within {σ : Type} (s : Schema σ) (operation : Operation) : Spot σ → Prop
  | .field _ _ nodes => ∀ node ∈ nodes, s.Contains operation (.field node)
  | .value _ _ selections => ∀ selection ∈ selections, s.Contains operation selection
  | .object _ _ _ selections => ∀ selection ∈ selections, s.Contains operation selection

/-- One step of an execution goes on within the operation. -/
theorem Spot.Within.step {σ : Type} {ctx : Context σ} {operation : Operation}
    (hb : ctx.schema.bind operation = []) {a b : Spot σ} {p : Path} (hs : ctx.Step a p b)
    (h : a.Within ctx.schema operation) : b.Within ctx.schema operation := by
  cases hs with
  | resolve =>
    intro selection hm
    obtain ⟨node, hnode, hm⟩ := List.mem_flatMap.1 hm
    exact (h node hnode).of_children hb selection hm
  | item => exact h
  | belong => exact h
  | select hn =>
    intro node hm
    obtain ⟨rfl, -⟩ := Registry.mem_collect_iff.1 hn
    exact Registry.of_mem_flatten (fun _ _ _ => Schema.Contains.of_fragment hb) _ h
      (List.mem_of_mem_filter hm)

theorem Schema.Visits.within {σ : Type} {s : Schema σ} {run : Run}
    (hb : s.bind run.operation = []) {p : Path} {spot : Spot σ} (h : s.Visits run p spot) :
    spot.Within s run.operation := by
  obtain ⟨root, hroot, hl⟩ := h
  obtain ⟨name, hname, ho⟩ := Option.bind_eq_some_iff.1 hroot
  refine hl.invariant (Spot.Within.step hb) ?_
  intro selection hm
  exact ⟨.object root, .root hname (Registry.object?_eq_some_iff.1 ho) hm⟩

end GraphQL
