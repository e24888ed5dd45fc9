import GraphQL.Proofs.ScheduleIndependence
import GraphQL.Proofs.Selections
import GraphQL.Proofs.Shows

/-!
# Well-typed values

A value is well-typed if nothing that is asked of it can go wrong: leaves can be serialized, items
are well-typed, values of abstract types name a possible type, and whatever the fields of an object
give is well-typed again. Resolvers may go on for ever, so that is the largest such relation
(`Schema.WellTyped`); to show that values are well-typed is to give a relation that is kept
(`Schema.Fits`). Executing keeps to well-typed values (`Context.wellTyped_of_step`) and meets no
error there (`Yields.error?_eq_none`), so if the arguments can be coerced, an execution that starts
from well-typed fields records no error and its data shows what was reached
(`execute_of_wellTyped`).

It is the fields of the root that have to be well-typed, not the root value: the fields of an
operation are resolved even on `null`, which is well-typed by itself
(`Required.not_execute_of_wellTyped`).
-/

namespace GraphQL

namespace Registry

variable {σ : Type} {r : Registry σ}

/-- A value of the abstract type names one of the possible types of it. -/
inductive Names (r : Registry σ) (v : Value) : String → ObjectType σ → Prop where
  | interface {name i o} (hi : r.get? name = some (.interface i))
    (hn : v.objectName? i.resolveType? = some o.name) (ho : o ∈ r.possibleTypes name) :
    Names r v name o
  | union {name u o} (hu : r.get? name = some (.union u))
    (hn : v.objectName? u.resolveType? = some o.name) (ho : o ∈ r.possibleTypes name) :
    Names r v name o

theorem dispatch_of_mem_possibleTypes {abstract : String} {resolveType? : Option TypeResolver}
    {v : Value} {o : ObjectType σ} (hn : v.objectName? resolveType? = some o.name)
    (ho : o ∈ r.possibleTypes abstract) : r.dispatch abstract resolveType? v = .ok o :=
  dispatch_eq_ok_iff.2 ⟨hn, mem_possibleTypes_iff.1 ho⟩

/-- A value is of the object type that it names. -/
theorem Names.shapeNamed_eq {v : Value} {name : String} {o : ObjectType σ} (h : r.Names v name o) :
    r.shapeNamed name v = .ok (.object o) ∧ r.get? o.name = some (.object o) := by
  cases h with
  | @interface i _ hi hn ho =>
    refine ⟨?_, get?_of_mem_possibleTypes ho⟩
    have hname : i.name = name := name_of_get? hi
    have hdispatch : r.dispatch i.name i.resolveType? v = .ok o :=
      dispatch_of_mem_possibleTypes hn (hname.symm ▸ ho)
    unfold Registry.shapeNamed
    simp only [hi, hdispatch]
    rfl
  | @union u _ hu hn ho =>
    refine ⟨?_, get?_of_mem_possibleTypes ho⟩
    have hname : u.name = name := name_of_get? hu
    have hdispatch : r.dispatch u.name u.resolveType? v = .ok o :=
      dispatch_of_mem_possibleTypes hn (hname.symm ▸ ho)
    unfold Registry.shapeNamed
    simp only [hu, hdispatch]
    rfl

end Registry

/-! ## What types ask for -/

/-- Whatever the fields of an object type give for a value is of their types by the relation. -/
def ObjectType.FieldsFit {σ : Type} (o : ObjectType σ) (R : TypeRef → Value → Prop) (v : Value) :
    Prop :=
  ∀ field ∈ o.fields, ∀ arguments result, field.Gives v arguments result →
    ∃ w, result = .ok w ∧ R field.type w

theorem ObjectType.FieldsFit.mono {σ : Type} {o : ObjectType σ} {R R' : TypeRef → Value → Prop}
    {v : Value} (h : o.FieldsFit R v) (hR : ∀ type v, R type v → R' type v) :
    o.FieldsFit R' v := by
  intro field hf arguments result hg
  obtain ⟨w, hw, hr⟩ := h field hf arguments result hg
  exact ⟨w, hw, hR _ _ hr⟩

namespace Schema

variable {σ : Type}

/-- What a type asks of a value, where `R` says which values are of which types further down. -/
inductive Fits (s : Schema σ) (R : TypeRef → Value → Prop) : TypeRef → Value → Prop where
  | null {type} (ht : type.isNonNull = false) : Fits s R type .null
  | nonNull {t v} (hv : v ≠ .null) (h : R t v) : Fits s R (.nonNull t) v
  | list {item vs} (h : ∀ v ∈ vs, R item v) : Fits s R (.list item) (.list vs)
  | leaf {name v t serialize literal} (ht : s.registry.get? name = some t)
    (hs : t.serialize? = some serialize) (hv : serialize v = .ok literal) (hn : literal ≠ .null) :
    Fits s R (.named name) v
  | object {name v o} (ho : s.registry.get? name = some (.object o)) (h : o.FieldsFit R v) :
    Fits s R (.named name) v
  | abstract {name v o} (hn : s.registry.Names v name o) (h : R (.named o.name) v) :
    Fits s R (.named name) v

/-- The value is well-typed: some relation that keeps to what types ask for holds of it. -/
def WellTyped (s : Schema σ) (type : TypeRef) (v : Value) : Prop :=
  ∃ R : TypeRef → Value → Prop, (∀ type v, R type v → s.Fits R type v) ∧ R type v

variable {s : Schema σ} {R R' : TypeRef → Value → Prop} {type : TypeRef} {v : Value}

theorem Fits.mono (h : s.Fits R type v) (hR : ∀ type v, R type v → R' type v) :
    s.Fits R' type v := by
  cases h with
  | null ht => exact .null ht
  | nonNull hv h => exact .nonNull hv (hR _ _ h)
  | list h => exact .list fun v hv => hR _ _ (h v hv)
  | leaf ht hs hv hn => exact .leaf ht hs hv hn
  | object ho h => exact .object ho (h.mono hR)
  | abstract hn h => exact .abstract hn (hR _ _ h)

/-- Being well-typed is what types ask for, all the way down. -/
theorem WellTyped.fits (h : s.WellTyped type v) : s.Fits s.WellTyped type v := by
  obtain ⟨R, hR, hr⟩ := h
  exact (hR type v hr).mono fun type v hr => ⟨R, hR, hr⟩

theorem Fits.wellTyped (h : s.Fits s.WellTyped type v) : s.WellTyped type v :=
  ⟨s.Fits s.WellTyped, fun _ _ h => h.mono fun _ _ hw => hw.fits, h⟩

/-! ## What well-typed values are -/

/-- What a well-typed value is by its type has nothing wrong with it. -/
def ShapeFits (s : Schema σ) (v : Value) : Shape σ → Prop
  | .leaf literal => literal ≠ .null
  | .list item vs => ∀ w ∈ vs, s.WellTyped item w
  | .object o => o.FieldsFit s.WellTyped v

theorem WellTyped.isNonNull_eq_false (h : s.WellTyped type .null) : type.isNonNull = false := by
  cases h.fits with
  | null ht => exact ht
  | nonNull hv _ => exact absurd rfl hv
  | leaf => rfl
  | object => rfl
  | abstract => rfl

theorem WellTyped.fieldsFit {o : ObjectType σ} (h : s.WellTyped (.named o.name) v)
    (hv : v ≠ .null) (ho : s.registry.get? o.name = some (.object o)) :
    o.FieldsFit s.WellTyped v := by
  cases h.fits with
  | null => exact absurd rfl hv
  | leaf ht hs =>
    rw [ho, Option.some.injEq] at ht
    subst ht
    simp [TypeDef.serialize?] at hs
  | object ho' h =>
    rw [ho, Option.some.injEq, TypeDef.object.injEq] at ho'
    exact ho' ▸ h
  | abstract hn =>
    cases hn with
    | interface hi => simp [ho] at hi
    | union hu => simp [ho] at hu

theorem WellTyped.exists_shape (h : s.WellTyped type v) (hv : v ≠ .null) :
    ∃ shape, s.registry.shape type v = .ok shape ∧ s.ShapeFits v shape := by
  induction type with
  | nonNull t ih =>
    cases h.fits with
    | null => exact absurd rfl hv
    | nonNull _ h => exact ih h
  | list item ih =>
    cases h.fits with
    | null => exact absurd rfl hv
    | list hitems => exact ⟨_, rfl, hitems⟩
  | named name =>
    cases h.fits with
    | null => exact absurd rfl hv
    | @leaf _ _ t serialize literal ht hs hw hn =>
      refine ⟨.leaf literal, ?_, hn⟩
      unfold Registry.shape Registry.shapeNamed
      cases t with
      | scalar t =>
        obtain rfl := Option.some.inj hs
        simp only [ht, hw]
        rfl
      | enum e =>
        obtain rfl := Option.some.inj hs
        simp only [ht, hw]
        rfl
      | _ => simp [TypeDef.serialize?] at hs
    | @object _ _ o ho h =>
      refine ⟨.object o, ?_, h⟩
      unfold Registry.shape Registry.shapeNamed
      rw [ho]
    | @abstract _ _ o hn h =>
      obtain ⟨hshape, ho⟩ := hn.shapeNamed_eq
      exact ⟨.object o, hshape, h.fieldsFit hv ho⟩

end Schema

/-! ## Executing keeps to well-typed values -/

/-- What is done at the position starts from well-typed values. -/
def Spot.WellTyped {σ : Type} (s : Schema σ) : Spot σ → Prop
  | .field o parent _ => o.FieldsFit s.WellTyped parent
  | .value type v _ => s.WellTyped type v
  | .object _ o v _ => o.FieldsFit s.WellTyped v

namespace Context

variable {σ : Type} {ctx : Context σ}

/-- **Where values are well-typed, they are one step further.** -/
theorem wellTyped_of_step {a b : Spot σ} {p : Path} (hs : ctx.Step a p b)
    (h : a.WellTyped ctx.schema) : b.WellTyped ctx.schema := by
  cases hs with
  | resolve _ hf _ hr =>
    obtain ⟨w, hw, ht⟩ := h _ (List.mem_of_find?_eq_some hf) _ _ hr
    exact Except.ok.inj hw ▸ ht
  | item hv hs hi =>
    obtain ⟨shape, hshape, hfits⟩ := Schema.WellTyped.exists_shape h hv
    rw [hs, Except.ok.injEq] at hshape
    subst hshape
    exact hfits _ (List.mem_of_getElem? hi)
  | belong hv hs =>
    obtain ⟨shape, hshape, hfits⟩ := Schema.WellTyped.exists_shape h hv
    rw [hs, Except.ok.injEq] at hshape
    subst hshape
    exact hfits
  | select => exact h

/-- The arguments of a field that is resolved here can be coerced. -/
def Coerces (ctx : Context σ) : Spot σ → Prop
  | .field o _ (node :: _) => ∀ field, node.name ≠ "__typename" → o.field? node.name = some field →
    ∃ arguments,
      ctx.schema.registry.coerceArguments field node.arguments ctx.vars = .ok arguments
  | _ => True

/-- **A position with well-typed values does not fail**, if its arguments can be coerced. -/
theorem Yields.error?_eq_none {spot : Spot σ} {path : Path} {o : Outcome}
    (h : ctx.Yields spot path o) (ht : spot.WellTyped ctx.schema) (hc : ctx.Coerces spot) :
    o.error? = none := by
  induction h with
  | typename => rfl
  | list => rfl
  | fields => rfl
  | refused hn hf ha =>
    obtain ⟨arguments, hok⟩ := hc _ hn hf
    simp [ha] at hok
  | unresolved _ hf _ hr =>
    obtain ⟨w, hw, -⟩ := ht _ (List.mem_of_find?_eq_some hf) _ _ hr
    simp at hw
  -- only fields have arguments, so nothing is asked of their values
  | resolved hn hf ha hr _ ih => exact ih (wellTyped_of_step (.resolve hn hf ha hr) ht) trivial
  | null =>
    have hn := Schema.WellTyped.isNonNull_eq_false ht
    simp [Outcome.error?, hn]
  | misfit hv hs =>
    obtain ⟨shape, hshape, -⟩ := Schema.WellTyped.exists_shape ht hv
    simp [hs] at hshape
  | @leaf _ _ _ _ literal hv hs =>
    obtain ⟨shape, hshape, hfits⟩ := Schema.WellTyped.exists_shape ht hv
    rw [hs, Except.ok.injEq] at hshape
    subst hshape
    cases literal with
    | null => exact absurd rfl hfits
    | _ => simp [Outcome.error?, Value.isNull]
  | object hv hs _ ih => exact ih (wellTyped_of_step (.belong hv hs) ht) trivial

end Context

namespace Schema

variable {σ : Type} {s : Schema σ} {run : Run} {root : ObjectType σ}

/-- The arguments of all fields that executing the operation may come to can be coerced. -/
def Coerces (s : Schema σ) (run : Run) : Prop :=
  ∀ p spot, s.Visits run p spot → Context.Coerces ⟨0, s, run.vars⟩ spot

theorem Visits.leads {p : Path} {spot : Spot σ} (h : s.Visits run p spot)
    (hroot : s.root? run.operation.kind = some root) :
    Context.Leads ⟨0, s, run.vars⟩
      (.object (.named root.name) root run.root run.operation.selections) p spot := by
  obtain ⟨root', hroot', hl⟩ := h
  rw [hroot, Option.some.injEq] at hroot'
  exact hroot' ▸ hl

theorem Visits.wellTyped {p : Path} {spot : Spot σ} (h : s.Visits run p spot)
    (hroot : s.root? run.operation.kind = some root)
    (ht : root.FieldsFit s.WellTyped run.root) : spot.WellTyped s :=
  (h.leads hroot).invariant Context.wellTyped_of_step ht

theorem Yields.clean {o : Outcome} (h : s.Yields run o)
    (hroot : s.root? run.operation.kind = some root)
    (ht : root.FieldsFit s.WellTyped run.root) (hc : s.Coerces run) : o.Clean := by
  intro p o' ha
  obtain ⟨spot, hv, hy⟩ := h.exists_visits ha
  exact hy.error?_eq_none (hv.wellTyped hroot ht) (hc p spot hv)

/-- Where no field takes arguments and none are passed, all arguments can be coerced. -/
theorem coerces_of_no_arguments (hb : s.bind run.operation = [])
    (hf : ∀ name o, s.registry.get? name = some (.object o) → ∀ field ∈ o.fields,
      field.arguments = [])
    (hn : ∀ owner node, s.Occurs run.operation owner (.field node) → node.arguments = []) :
    s.Coerces run := by
  intro p spot hv
  cases spot with
  | value => trivial
  | object => trivial
  | field o parent nodes =>
    cases nodes with
    | nil => trivial
    | cons node rest =>
      intro field _ hfield
      -- the node stands in the operation, the field on a registered type
      have hdeclared := hf _ o hv.finds.get?_of_field field (List.mem_of_find?_eq_some hfield)
      obtain ⟨owner, howner⟩ := hv.within hb node List.mem_cons_self
      refine ⟨[], ?_⟩
      rw [hn owner node howner, Registry.coerceArguments, hdeclared]
      rfl

/-- However it is interleaved, an execution that starts from well-typed fields has no errors, and
its data shows what was reached. -/
theorem EndsWith.shows_of_wellTyped {state : σ} {log : List Entry} {out : Output}
    (h : s.EndsWith run state log out) (hroot : s.root? run.operation.kind = some root)
    (ht : root.FieldsFit s.WellTyped run.root) (hc : s.Coerces run) :
    out.errors = [] ∧ Context.Shows ⟨0, s, run.vars⟩
      (.object (.named root.name) root run.root run.operation.selections) out.data := by
  obtain ⟨o, hr⟩ := h.exists_outcome
  have hclean := hr.yields.clean hroot ht hc
  constructor
  · have hperm := hr.errors
    rw [hclean.errors_eq_nil hr.yields.distinctKeys] at hperm
    exact hperm.eq_nil
  · obtain ⟨root', hroot', hy⟩ := hr.yields
    rw [hroot, Option.some.injEq] at hroot'
    subst hroot'
    obtain ⟨r, hcompletion, hshows⟩ := hy.exists_shown hclean
    rw [hr.completion, Option.some.injEq] at hcompletion
    exact hcompletion ▸ hshows

/-- **Nothing goes wrong with well-typed values.** Let the fields of the root be well-typed, and the
arguments that an operation passes such that they can be coerced. Then executing the operation
records no error, and its data shows what was reached; it comes to its end if promises are kept.
Where resolvers compute functions, the data holds at each position of a leaf type the serialization
of the value that the fields on the path lead to. -/
theorem execute_of_wellTyped (hb : s.bind run.operation = [])
    (hroot : s.root? run.operation.kind = some root)
    (ht : root.FieldsFit s.WellTyped run.root) (hc : s.Coerces run) :
    (∀ limit? state out, (s.execute limit? run state).ending = .ok (.ok out) →
      out.errors = [] ∧
      Context.Shows ⟨0, s, run.vars⟩
        (.object (.named root.name) root run.root run.operation.selections) out.data ∧
      ∀ computation?, s.Computes computation? → ∀ p type v selections name t,
        s.Visits run p (.value type v selections) → type.nullable = .named name →
        s.registry.get? name = some t → t.kind.isLeaf = true →
        ∃ literal, out.data.at? p = some literal ∧ s.registry.Serializes type v literal) ∧
    (s.KeepsPromises → ∀ state, ∃ out, (s.execute none run state).ending = .ok (.ok out)) := by
  refine ⟨?_, fun hkeeps state => exists_output_execute hkeeps hb state⟩
  intro limit? state out hend
  obtain ⟨herrors, hshows⟩ := (endsWith_execute hend).shows_of_wellTyped hroot ht hc
  refine ⟨herrors, hshows, ?_⟩
  intro computation? hcomputes p type v selections name t hv hn hget hk
  have hfinds : Context.Finds ⟨0, s, run.vars⟩
      (.object (.named root.name) root run.root run.operation.selections) :=
    Visits.finds ⟨root, hroot, .here⟩
  obtain ⟨literal, hat, hliteral⟩ := hshows.exists_of_leads hcomputes hfinds (hv.leads hroot)
  exact ⟨literal, hat, hliteral.serializes hn hget hk⟩

end Schema

/-! ## Values that go on for ever -/

namespace Circular

/-- Values of the type give themselves as the next one. -/
def ring : ObjectType Unit :=
  ⟨"Ring", none, .eager
    [⟨"next", none, [], .nonNull (.named "Ring"), .current,
        some fun parent _ state => (.ready (.ok parent), state)⟩,
      ⟨"label", none, [], .nonNull (.named "String"), .current, none⟩], []⟩

def root : ObjectType Unit :=
  ⟨"Query", none, .eager [⟨"ring", none, [], .named "Ring", .current, none⟩], []⟩

def schema : Schema Unit :=
  ⟨⟨[.object ring, .object root], by
      change ["String", "Int", "Float", "Boolean", "ID", "Ring", "Query"].Nodup
      decide⟩,
    "Query", none, false, rfl, rfl, rfl, by simp⟩

def value : Value :=
  .object [("label", .string "a")]

def label : Selection :=
  Sample.field "label" []

def next : Selection :=
  Sample.field "next" [label]

/-- Goes round once. -/
def run : Run :=
  ⟨⟨.query, none, [Sample.field "ring" [next]]⟩, .object [("ring", value)], []⟩

def computation? (type field : String) : Option Computation :=
  if type = "Ring" ∧ field = "next" then some fun parent _ => .ok parent else none

theorem eq_ring_or_root {name : String} {o : ObjectType Unit}
    (h : schema.registry.get? name = some (.object o)) : o = ring ∨ o = root := by
  have hm := Registry.mem_types_of_get? h
  simpa [Registry.types, schema, TypeDef.builtins, ScalarType.builtins] using hm

theorem computes_schema : schema.Computes computation? := by
  intro name o ho field hf
  have hn : o.name = name := Registry.name_of_get? ho
  subst hn
  rcases eq_ring_or_root ho with rfl | rfl
  · rcases List.mem_cons.1 hf with rfl | hf
    · exact fun parent arguments state => rfl
    · rw [List.mem_singleton.1 hf]
      exact trivial
  · rw [List.mem_singleton.1 hf]
    exact trivial

theorem coerces_run : schema.Coerces run := by
  refine Schema.coerces_of_no_arguments rfl ?_ ?_
  · intro name o ho field hf
    rcases eq_ring_or_root ho with rfl | rfl
    · rcases List.mem_cons.1 hf with rfl | hf
      · rfl
      · rw [List.mem_singleton.1 hf]
    · rw [List.mem_singleton.1 hf]
  · have only : ∀ owner selection, schema.Occurs run.operation owner selection →
        selection = Sample.field "ring" [next] ∨ selection = next ∨ selection = label := by
      intro owner selection h
      induction h with
      | root _ _ hm => exact .inl (List.mem_singleton.1 hm)
      | fragment _ _ _ ih => simp [Sample.field, next, label] at ih
      | child _ _ hm ih =>
        rcases ih with ih | ih | ih
        · obtain rfl := Selection.field.inj ih
          exact .inr (.inl (List.mem_singleton.1 hm))
        · obtain rfl := Selection.field.inj ih
          exact .inr (.inr (List.mem_singleton.1 hm))
        · obtain rfl := Selection.field.inj ih
          simp [FieldNode.children] at hm
    intro owner node h
    rcases only owner _ h with h | h | h
    · rw [Selection.field.inj h]
    · rw [Selection.field.inj h]
    · rw [Selection.field.inj h]

/-- The value is of its type however often one goes round, and its label is a string. -/
def Holds (type : TypeRef) (v : Value) : Prop :=
  (type.nullable = .named "Ring" ∧ v = value) ∨
    (type.nullable = .named "String" ∧ v = .string "a")

theorem fieldsFit_ring : ring.FieldsFit Holds value := by
  intro field hf arguments result hg
  rcases List.mem_cons.1 hf with rfl | hf
  · obtain ⟨state, hg⟩ := hg
    exact ⟨value, hg.symm, .inl ⟨rfl, rfl⟩⟩
  · obtain rfl := List.mem_singleton.1 hf
    exact ⟨.string "a", hg, .inr ⟨rfl, rfl⟩⟩

theorem Holds.fits {type : TypeRef} {v : Value} (h : Holds type v) : schema.Fits Holds type v := by
  rcases h with ⟨hn, rfl⟩ | ⟨hn, rfl⟩
  · cases type with
    | list item => simp [TypeRef.nullable] at hn
    | named name =>
      obtain rfl := TypeRef.named.inj hn
      exact .object rfl fieldsFit_ring
    | nonNull t =>
      have ht : t = .named "Ring" := hn
      exact .nonNull (by simp [value]) (.inl ⟨by rw [ht]; rfl, rfl⟩)
  · cases type with
    | list item => simp [TypeRef.nullable] at hn
    | named name =>
      obtain rfl := TypeRef.named.inj hn
      exact .leaf rfl rfl rfl (by simp)
    | nonNull t =>
      have ht : t = .named "String" := hn
      exact .nonNull (by simp) (.inr ⟨by rw [ht]; rfl, rfl⟩)

theorem fieldsFit_root : root.FieldsFit schema.WellTyped run.root := by
  intro field hf arguments result hg
  obtain rfl := List.mem_singleton.1 hf
  exact ⟨value, hg, Holds, fun type v => Holds.fits, .inl ⟨rfl, rfl⟩⟩

/-- The label of the next value is in the data. -/
theorem execute_of_wellTyped_sample :
    schema.bind run.operation = [] ∧ root.FieldsFit schema.WellTyped run.root ∧
      schema.Coerces run ∧ schema.Computes computation? ∧
      ∃ out, (schema.execute none run ()).ending = .ok (.ok out) ∧ out.errors = [] ∧
        ∃ literal, out.data.at? [.field "ring", .field "next", .field "label"] = some literal ∧
          schema.registry.Serializes (.nonNull (.named "String")) (.string "a") literal := by
  have hb : schema.bind run.operation = [] := rfl
  have hroot : schema.root? run.operation.kind = some root := rfl
  obtain ⟨hright, hends⟩ := Schema.execute_of_wellTyped hb hroot fieldsFit_root coerces_run
  obtain ⟨out, hout⟩ := hends computes_schema.keepsPromises ()
  obtain ⟨herrors, -, hleaves⟩ := hright none () out hout
  have hne : value ≠ .null := by simp [value]
  have hleads : Context.Leads ⟨0, schema, []⟩
      (.object (.named "Query") root run.root run.operation.selections)
      ([.field "ring"] ++ ([] ++ ([] ++ ([.field "next"] ++ ([] ++ ([] ++ ([.field "label"] ++
        ([] ++ []))))))))
      (.value (.nonNull (.named "String")) (.string "a") []) := by
    refine .step (.select (.head _)) (.step (.resolve (by decide) rfl rfl rfl) ?_)
    refine .step (.belong hne rfl) (.step (.select (.head _)) ?_)
    refine .step (.resolve (by decide) rfl rfl ⟨(), rfl⟩) ?_
    refine .step (.belong hne rfl) (.step (.select (.head _)) ?_)
    exact .step (.resolve (by decide) rfl rfl rfl) .here
  have hleaf := hleaves computation? computes_schema _ _ _ _ "String" _ ⟨root, rfl, hleads⟩ rfl rfl
    rfl
  exact ⟨hb, fieldsFit_root, coerces_run, computes_schema, out, hout, herrors, hleaf⟩

end Circular

/-! ## A root value that is `null` -/

namespace Required

/-- A root with a field that must not be `null`. -/
def root : ObjectType Unit :=
  ⟨"Query", none, .eager [⟨"x", none, [], .nonNull (.named "Int"), .current, none⟩], []⟩

def schema : Schema Unit :=
  ⟨⟨[.object root], by
      change ["String", "Int", "Float", "Boolean", "ID", "Query"].Nodup
      decide⟩,
    "Query", none, false, rfl, rfl, rfl, by simp⟩

def run : Run :=
  ⟨⟨.query, none, [Sample.field "x" []]⟩, .null, []⟩

theorem coerces_run : schema.Coerces run := by
  refine Schema.coerces_of_no_arguments rfl ?_ ?_
  · intro name o ho field hf
    have hm := Registry.mem_types_of_get? ho
    obtain rfl : o = root := by
      simpa [Registry.types, schema, TypeDef.builtins, ScalarType.builtins] using hm
    rw [List.mem_singleton.1 hf]
  · have only : ∀ owner selection, schema.Occurs run.operation owner selection →
        selection = Sample.field "x" [] := by
      intro owner selection h
      induction h with
      | root _ _ hm => exact List.mem_singleton.1 hm
      | fragment _ _ _ ih => simp [Sample.field] at ih
      | child _ _ hm ih =>
        obtain rfl := Selection.field.inj ih
        simp [FieldNode.children] at hm
    intro owner node h
    rw [Selection.field.inj (only owner _ h)]

/-- **A root value that is well-typed by itself is not enough.** The root value is `null`, and the
root type allows that; its field is resolved all the same. -/
theorem not_execute_of_wellTyped :
    schema.bind run.operation = [] ∧ schema.Coerces run ∧
      schema.WellTyped (.named "Query") run.root ∧
      (schema.execute none run ()).ending = .ok (.ok ⟨.null,
        [⟨[.field "x"], .ofFault (.nullInNonNull (.nonNull (.named "Int")))⟩]⟩) ∧
      ¬ ∀ (run : Run) (root : ObjectType Unit) (state : Unit) (out : Output),
        schema.bind run.operation = [] → schema.Coerces run →
        schema.root? run.operation.kind = some root →
        schema.WellTyped (.named root.name) run.root →
        (schema.execute none run state).ending = .ok (.ok out) → out.errors = [] := by
  have hwelltyped : schema.WellTyped (.named "Query") run.root :=
    Schema.Fits.wellTyped (.null rfl)
  have hend : (schema.execute none run ()).ending = .ok (.ok ⟨.null, LocatedError.sorted
      [⟨[.field "x"], .ofFault (.nullInNonNull (.nonNull (.named "Int")))⟩]⟩) :=
    Schema.ending_execute rfl 40 rfl
  rw [LocatedError.sorted, List.mergeSort_singleton] at hend
  refine ⟨rfl, coerces_run, hwelltyped, hend, ?_⟩
  intro h
  have hnil := h run root () _ rfl coerces_run rfl hwelltyped hend
  simp at hnil

end Required

end GraphQL
