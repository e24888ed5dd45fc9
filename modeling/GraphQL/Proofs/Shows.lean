import GraphQL.Proofs.Lookups
import GraphQL.Proofs.Stateless
import GraphQL.Proofs.Subtype

/-!
# What data shows

`Context.Shows` says which data shows a position as it was reached: `null` where the value is, the
response literal of a leaf, the items of a list one by one, and the fields of an object that are
selected for its object type. It has no rule for a position that failed, so only where nothing did
does data show all that was reached (`Yields.exists_shown`). Where resolvers compute functions there
is one value to reach at each position, and data shows it there (`Shows.exists_of_leads`).
-/

namespace GraphQL

namespace Outcome

/-- No position has an error. -/
def Clean (o : Outcome) : Prop :=
  ∀ p o', o.at? p = some o' → o'.error? = none

theorem Clean.child {o child : Outcome} (h : o.Clean) {segment : PathSegment}
    (hc : o.child? segment = some child) : child.Clean := by
  intro p o' ha
  exact h (segment :: p) o' (at?_cons_eq_some_iff.2 ⟨child, hc, ha⟩)

theorem Clean.errors_eq_nil {o : Outcome} (h : o.Clean) (hk : o.DistinctKeys) (path : Path) :
    o.errors path = [] := by
  rw [List.eq_nil_iff_forall_not_mem]
  intro e he
  obtain ⟨p, o', -, ha, herror⟩ := (mem_errors_iff hk).1 he
  rw [h p o' ha] at herror
  simp at herror

end Outcome

/-- The data that shows a leaf: `null` for `null`, and otherwise what the type that is named makes
of the value. -/
inductive Registry.Serializes {σ : Type} (r : Registry σ) : TypeRef → Value → Value → Prop where
  | null {type} : Serializes r type .null .null
  | leaf {type name v t serialize literal} (hv : v ≠ .null) (hn : type.nullable = .named name)
    (ht : r.get? name = some t) (hs : t.serialize? = some serialize)
    (h : serialize v = .ok literal) : Serializes r type v literal

theorem Registry.shape_of_nullable {σ : Type} {r : Registry σ} {type : TypeRef} {name : String}
    (h : type.nullable = .named name) (v : Value) : r.shape type v = r.shapeNamed name v := by
  cases type with
  | named name' =>
    have hn : name' = name := TypeRef.named.inj h
    rw [Registry.shape, hn]
  | list item => simp [TypeRef.nullable] at h
  | nonNull t =>
    have ht : t = .named name := h
    rw [ht, Registry.shape, Registry.shape]

theorem Registry.ne_object_of_isLeaf {σ : Type} {r : Registry σ} {name : String} {t : TypeDef σ}
    (ht : r.get? name = some t) (hk : t.kind.isLeaf = true) {v : Value} {o : ObjectType σ} :
    r.shapeNamed name v ≠ .ok (.object o) := by
  intro h
  have hcomposite : t.kind.isComposite = true := by
    obtain ⟨ho, hn | hp⟩ := object_of_shapeNamed h
    · rw [← hn, ho, Option.some.injEq] at ht
      exact ht ▸ rfl
    · obtain ⟨t', ht', hk'⟩ := exists_composite_of_isPossible hp
      rw [ht, Option.some.injEq] at ht'
      exact ht' ▸ hk'
  cases t <;> simp [TypeDef.kind, TypeKind.isLeaf, TypeKind.isComposite] at hk hcomposite

namespace Context

variable {σ : Type} {ctx : Context σ}

/-- The data that shows a position as it was reached. -/
inductive Shows (ctx : Context σ) : Spot σ → Value → Prop where
  | typename {o parent node rest} (hn : node.name = "__typename") :
    Shows ctx (.field o parent (node :: rest)) (.string o.name)
  | resolved {o parent node rest field arguments v r} (hn : node.name ≠ "__typename")
    (hf : o.field? node.name = some field)
    (ha : ctx.schema.registry.coerceArguments field node.arguments ctx.vars = .ok arguments)
    (hr : field.Gives parent arguments (.ok v))
    (h : Shows ctx (.value field.type v ((node :: rest).flatMap FieldNode.children)) r) :
    Shows ctx (.field o parent (node :: rest)) r
  | null {type selections} : Shows ctx (.value type .null selections) .null
  | leaf {type v selections literal} (hv : v ≠ .null)
    (hs : ctx.schema.registry.shape type v = .ok (.leaf literal)) :
    Shows ctx (.value type v selections) literal
  | list {type v selections item vs rs} (hv : v ≠ .null)
    (hs : ctx.schema.registry.shape type v = .ok (.list item vs)) (hl : rs.length = vs.length)
    (h : ∀ (i : Nat) (w r : Value), vs[i]? = some w → rs[i]? = some r →
      Shows ctx (.value item w selections) r) :
    Shows ctx (.value type v selections) (.list rs)
  | belong {type v selections o r} (hv : v ≠ .null)
    (hs : ctx.schema.registry.shape type v = .ok (.object o))
    (h : Shows ctx (.object type o v selections) r) : Shows ctx (.value type v selections) r
  | fields {type o v selections entries}
    (hk : Keyed.keys entries = Keyed.keys (ctx.schema.registry.collect o selections))
    (h : ∀ key nodes r, (key, nodes) ∈ ctx.schema.registry.collect o selections →
      (key, r) ∈ entries → Shows ctx (.field o v nodes) r) :
    Shows ctx (.object type o v selections) (.object entries)

/-! ## Data shows outcomes without errors -/

theorem exists_shown_items {item : TypeRef} {vs : List Value} {selections : List Selection}
    {items : List Outcome} (hl : items.length = vs.length)
    (h : ∀ (i : Nat) (w : Value) (o : Outcome), vs[i]? = some w → items[i]? = some o →
      ∃ r, o.completion = some r ∧ ctx.Shows (.value item w selections) r) :
    ∃ rs, Outcome.values? items = some rs ∧ rs.length = vs.length ∧
      ∀ (i : Nat) (w r : Value), vs[i]? = some w → rs[i]? = some r →
        ctx.Shows (.value item w selections) r := by
  cases hvalues : Outcome.values? items with
  | none =>
    obtain ⟨i, o, ho, hnone⟩ := Outcome.exists_of_values?_eq_none hvalues
    have hlt : i < vs.length := by
      have := (List.getElem?_eq_some_iff.1 ho).1
      omega
    obtain ⟨r, hsome, -⟩ := h i _ o (List.getElem?_eq_getElem hlt) ho
    simp [hnone] at hsome
  | some rs =>
    refine ⟨rs, rfl, (Outcome.length_of_values? hvalues).trans hl, ?_⟩
    intro i w r hw hr
    obtain ⟨o, ho, hcompletion⟩ := Outcome.getElem?_of_values? hvalues hr
    obtain ⟨r', hr', hshows⟩ := h i w o hw ho
    rw [hcompletion, Option.some.injEq] at hr'
    exact hr' ▸ hshows

theorem exists_shown_fields {o : ObjectType σ} {v : Value} {selections : List Selection}
    {fields : Outcome.Fields}
    (hk : Keyed.keys fields = Keyed.keys (ctx.schema.registry.collect o selections))
    (h : ∀ key nodes call? child, (key, nodes) ∈ ctx.schema.registry.collect o selections →
      (key, call?, child) ∈ fields →
      ∃ r, child.completion = some r ∧ ctx.Shows (.field o v nodes) r) :
    ∃ entries, Outcome.entries? fields = some entries ∧
      Keyed.keys entries = Keyed.keys (ctx.schema.registry.collect o selections) ∧
      ∀ key nodes r, (key, nodes) ∈ ctx.schema.registry.collect o selections →
        (key, r) ∈ entries → ctx.Shows (.field o v nodes) r := by
  cases hentries : Outcome.entries? fields with
  | none =>
    obtain ⟨key, call?, child, hm, hnone⟩ := Outcome.exists_of_entries?_eq_none hentries
    obtain ⟨nodes, hn⟩ := Keyed.exists_mem_of_keys_eq hk hm
    obtain ⟨r, hsome, -⟩ := h key nodes call? child hn hm
    simp [hnone] at hsome
  | some entries =>
    refine ⟨entries, rfl, by rw [Outcome.keys_of_entries? hentries, hk], ?_⟩
    intro key nodes r hn hm
    obtain ⟨call?, child, hchild, hcompletion⟩ := Outcome.mem_of_entries? hentries hm
    obtain ⟨r', hr', hshows⟩ := h key nodes call? child hn hchild
    rw [hcompletion, Option.some.injEq] at hr'
    exact hr' ▸ hshows

/-- **Where nothing failed, there is data that shows everything.** -/
theorem Yields.exists_shown {spot : Spot σ} {path : Path} {o : Outcome}
    (h : ctx.Yields spot path o) (hc : o.Clean) :
    ∃ r, o.completion = some r ∧ ctx.Shows spot r := by
  induction h with
  | typename hn => exact ⟨_, rfl, .typename hn⟩
  | refused => exact absurd (hc [] _ rfl) (by simp [Outcome.error?])
  | unresolved => exact absurd (hc [] _ rfl) (by simp [Outcome.error?])
  | misfit => exact absurd (hc [] _ rfl) (by simp [Outcome.error?])
  | resolved hn hf ha hr _ ih =>
    obtain ⟨r, hcompletion, hshows⟩ := ih hc
    exact ⟨r, hcompletion, .resolved hn hf ha hr hshows⟩
  | @null type =>
    have hown := hc [] _ rfl
    have hn : type.isNonNull = false := by
      by_contra hn
      simp [Outcome.error?, hn] at hown
    refine ⟨.null, ?_, .null⟩
    rw [Outcome.completion, TypeRef.settled_eq_null_iff]
    exact ⟨hn, .inr rfl⟩
  | @leaf type v _ _ literal hv hs =>
    refine ⟨literal, ?_, .leaf hv hs⟩
    rw [Outcome.completion]
    by_cases hl : literal = .null
    · subst hl
      have hown := hc [] _ rfl
      rw [TypeRef.settled_eq_null_iff]
      refine ⟨?_, .inr rfl⟩
      by_contra hn
      simp [Outcome.error?, hn, Value.isNull] at hown
    · exact TypeRef.settled_of_ne_null type hl
  | @list type _ _ _ _ _ items hv hs hl _ ih =>
    obtain ⟨rs, hrs, hlength, hshows⟩ := exists_shown_items hl fun i w o hw ho => by
      have hchild : (Outcome.list type items).child? (.index i) = some o := ho
      exact ih i w o hw ho (hc.child hchild)
    refine ⟨.list rs, ?_, .list hv hs hlength hshows⟩
    rw [Outcome.completion, hrs]
    rfl
  | object hv hs _ ih =>
    obtain ⟨r, hcompletion, hshows⟩ := ih hc
    exact ⟨r, hcompletion, .belong hv hs hshows⟩
  | @fields type o v selections path fields hk _ h ih =>
    have hnodup : (Keyed.keys fields).Nodup := by
      rw [hk]
      exact Registry.nodup_keys_collect ..
    obtain ⟨entries, hentries, hkeys, hshows⟩ :=
        exists_shown_fields hk fun key nodes call? child hn hm => by
      have hchild : (Outcome.object type o.name fields).child? (.field key) = some child :=
        (Outcome.child?_object_eq_some_iff hnodup).2 ⟨key, call?, rfl, hm⟩
      exact ih key nodes call? child hn hm (hc.child hchild)
    refine ⟨.object entries, ?_, .fields hkeys hshows⟩
    rw [Outcome.completion, hentries]
    rfl

/-- Data shows a leaf by its serialization. -/
theorem Shows.serializes {type : TypeRef} {v r : Value} {selections : List Selection}
    (h : ctx.Shows (.value type v selections) r) {name : String}
    (hn : type.nullable = .named name) {t : TypeDef σ}
    (ht : ctx.schema.registry.get? name = some t) (hk : t.kind.isLeaf = true) :
    ctx.schema.registry.Serializes type v r := by
  cases h with
  | null => exact .null
  | leaf hv hs =>
    rw [Registry.shape_of_nullable hn] at hs
    obtain ⟨t', serialize, ht', hserialize, hw⟩ := Registry.serialize_of_shapeNamed hs
    exact .leaf hv hn ht' hserialize hw
  | list hv hs =>
    rw [Registry.shape_of_nullable hn] at hs
    exact absurd hs Registry.shapeNamed_ne_list
  | belong hv hs =>
    rw [Registry.shape_of_nullable hn] at hs
    exact absurd hs (Registry.ne_object_of_isLeaf ht hk)

/-! ## Data shows what is reached, where it is -/

variable {computation? : String → String → Option Computation} {a b : Spot σ} {p : Path}
  {r : Value}

/-- Where resolvers compute functions, data that shows a position shows the ones right below. -/
theorem Shows.exists_of_step (hc : ctx.schema.Computes computation?) (h : ctx.Shows a r)
    (hf : ctx.Finds a) (hs : ctx.Step a p b) : ∃ r', r.at? p = some r' ∧ ctx.Shows b r' := by
  cases hs with
  | resolve hn hfield ha hr =>
    cases h with
    | typename hn' => exact absurd hn' hn
    | resolved _ hfield' ha' hr' h =>
      rw [hfield, Option.some.injEq] at hfield'
      subst hfield'
      rw [ha, Except.ok.injEq] at ha'
      subst ha'
      have hcomputes := hc _ _ hf.get?_of_field _ (List.mem_of_find?_eq_some hfield)
      have hv := (hcomputes.eq_of_gives hr).trans (hcomputes.eq_of_gives hr').symm
      obtain rfl := Except.ok.inj hv
      exact ⟨r, rfl, h⟩
  | item hv hs hi =>
    cases h with
    | null => exact absurd rfl hv
    | leaf _ hs' => simp [hs] at hs'
    | belong _ hs' _ => simp [hs] at hs'
    | list _ hs' hl h =>
      rw [hs, Except.ok.injEq, Shape.list.injEq] at hs'
      obtain ⟨rfl, rfl⟩ := hs'
      have hlt := hl ▸ (List.getElem?_eq_some_iff.1 hi).1
      have hr := List.getElem?_eq_getElem hlt
      refine ⟨_, ?_, h _ _ _ hi hr⟩
      exact Value.at?_cons_eq_some_iff.2 ⟨_, hr, rfl⟩
  | belong hv hs =>
    cases h with
    | null => exact absurd rfl hv
    | leaf _ hs' => simp [hs] at hs'
    | list _ hs' _ _ => simp [hs] at hs'
    | belong _ hs' h =>
      rw [hs, Except.ok.injEq, Shape.object.injEq] at hs'
      subst hs'
      exact ⟨r, rfl, h⟩
  | select hm =>
    cases h with
    | @fields _ o _ selections entries hk h =>
      have hnodup : (Keyed.keys entries).Nodup := by
        rw [hk]
        exact Registry.nodup_keys_collect ..
      obtain ⟨r, hr⟩ := Keyed.exists_mem_of_keys_eq hk.symm hm
      refine ⟨r, ?_, h _ _ r hm hr⟩
      exact Value.at?_cons_eq_some_iff.2 ⟨r, (Keyed.get?_eq_some_iff hnodup).2 hr, rfl⟩

/-- Where resolvers compute functions, data shows what steps lead to at the end of their path. -/
theorem Shows.exists_of_leads (hc : ctx.schema.Computes computation?) (h : ctx.Shows a r)
    (hf : ctx.Finds a) (hl : ctx.Leads a p b) : ∃ r', r.at? p = some r' ∧ ctx.Shows b r' := by
  induction hl generalizing r with
  | here => exact ⟨r, rfl, h⟩
  | step hs _ ih =>
    obtain ⟨r₁, hr₁, h₁⟩ := h.exists_of_step hc hf hs
    obtain ⟨r₂, hr₂, h₂⟩ := ih h₁ (hf.step hs)
    refine ⟨r₂, ?_, h₂⟩
    rw [Value.at?_append, hr₁, Option.bind_some, hr₂]

end Context

end GraphQL
