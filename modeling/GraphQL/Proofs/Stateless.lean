import GraphQL.Proofs.Outcome.Leads
import GraphQL.Proofs.Plain

/-!
# Stateless schemas have one outcome

The resolvers of a schema compute functions if each gives what its function says of the parent value
and the arguments, at once or after a delay, in whatever state (`Schema.Computes`). Two schemas that
resemble one another are compared position by position: a relation of outcomes that goes from parts
to wholes (`Context.Composes`) holds of the outcomes of both wherever fields give the same
(`Context.Composes.of_yields`). So schemas that compute the same functions have the same outcomes at
the same positions (`Context.Yields.unique`).
-/

namespace GraphQL

variable {σ τ : Type}

/-- What a resolver computes from the parent value and the arguments. -/
abbrev Computation :=
  Value → Arguments → Except FieldError Value

/-- What a field comes to: the function of its resolver says so, or the entry of its name in the
parent value. -/
def resultOf (computation? : Option Computation) (field : String) : Computation :=
  fun parent arguments =>
    match computation? with
    | some computation => computation parent arguments
    | none => .ok ((parent.entry? field).getD .null)

/-- The result, at once or after a delay that comes to an end. -/
def Resolution.Comes (resolution : Resolution σ) (result : Except FieldError Value) : Prop :=
  match resolution with
  | .ready result' => result' = result
  | .pending delay? finish => delay?.isSome ∧ ∀ state, (finish state).1 = result

/-- The resolver of a field computes the function, or the field has neither. -/
def Field.Computes (field : Field σ) (computation? : Option Computation) : Prop :=
  match field.resolver?, computation? with
  | some resolver, some computation => ∀ parent arguments state,
    (resolver parent arguments state).1.Comes (computation parent arguments)
  | none, none => True
  | _, _ => False

/-- The resolvers of a schema compute functions, which are given by the names of types and
fields. -/
def Schema.Computes (s : Schema σ) (computation? : String → String → Option Computation) : Prop :=
  ∀ name o, s.registry.get? name = some (.object o) →
    ∀ field ∈ o.fields, field.Computes (computation? name field.name)

theorem Resolution.Comes.eq_of_gives {resolution : Resolution σ}
    {result result' : Except FieldError Value} (h : resolution.Comes result)
    (hg : resolution.Gives result') : result' = result := by
  cases resolution with
  | ready r => exact hg.symm.trans h
  | pending delay? finish =>
    obtain ⟨state, hs⟩ := hg
    rw [← hs, h.2 state]

theorem Field.Computes.resolver?_isSome {field : Field σ} {computation? : Option Computation}
    (h : field.Computes computation?) : field.resolver?.isSome = computation?.isSome := by
  unfold Field.Computes at h
  cases hr : field.resolver? <;> cases hc : computation? <;> simp_all

theorem Field.Computes.eq_of_gives {field : Field σ} {computation? : Option Computation}
    (h : field.Computes computation?) {parent : Value} {arguments : Arguments}
    {result : Except FieldError Value} (hg : field.Gives parent arguments result) :
    result = resultOf computation? field.name parent arguments := by
  unfold Field.Computes at h
  unfold Field.Gives at hg
  cases hr : field.resolver? with
  | none =>
    rw [hr] at h hg
    cases computation? with
    | none => exact hg
    | some computation => exact h.elim
  | some resolver =>
    rw [hr] at h hg
    cases computation? with
    | none => exact h.elim
    | some computation =>
      obtain ⟨state, hs⟩ := hg
      exact (h parent arguments state).eq_of_gives hs

/-! ## What a value is does not depend on resolvers -/

def Shape.plain : Shape σ → Shape Empty
  | .leaf v => .leaf v
  | .list item items => .list item items
  | .object o => .object o.plain

namespace Registry

theorem shapeNamed_plain (r : Registry σ) (name : String) (v : Value) :
    r.plain.shapeNamed name v = (r.shapeNamed name v).map Shape.plain := by
  have dispatched : ∀ abstract resolveType?,
      (r.plain.dispatch abstract resolveType? v).map Shape.object =
        ((r.dispatch abstract resolveType? v).map Shape.object).map Shape.plain := by
    intro abstract resolveType?
    rw [dispatch_plain]
    cases r.dispatch abstract resolveType? v <;> rfl
  have serialized : ∀ serialize : Value → Except FieldError Value,
      ((serialize v).mapError (·.orKind .serialization)).map (Shape.leaf (σ := Empty)) =
        (((serialize v).mapError (·.orKind .serialization)).map (Shape.leaf (σ := σ))).map
          Shape.plain := by
    intro serialize
    cases serialize v <;> rfl
  rw [shapeNamed, shapeNamed, get?_plain]
  cases r.get? name with
  | none => rfl
  | some t =>
    cases t with
    | object o => rfl
    | interface i => exact dispatched i.name i.resolveType?
    | union u => exact dispatched u.name u.resolveType?
    | scalar s => exact serialized s.serialize
    | enum e => exact serialized e.serialize

theorem shape_plain (r : Registry σ) (type : TypeRef) (v : Value) :
    r.plain.shape type v = (r.shape type v).map Shape.plain := by
  induction type with
  | nonNull t ih => exact ih
  | list item => cases v <;> rfl
  | named name => exact r.shapeNamed_plain name v

end Registry

/-! ## Outcomes of schemas that resemble one another -/

/-- The same is done in two schemas: fields of the object types of one name are resolved or
selected, or values are completed. -/
inductive Spot.Alike (s : Schema σ) (t : Schema τ) : Spot σ → Spot τ → Prop where
  | field {name a b parent nodes} (ha : s.registry.get? name = some (.object a))
    (hb : t.registry.get? name = some (.object b)) :
    Alike s t (.field a parent nodes) (.field b parent nodes)
  | value {type v selections} : Alike s t (.value type v selections) (.value type v selections)
  | object {name a b type v selections} (ha : s.registry.get? name = some (.object a))
    (hb : t.registry.get? name = some (.object b)) :
    Alike s t (.object type a v selections) (.object type b v selections)

namespace Schema.Resembles

variable {s : Schema σ} {t : Schema τ}

theorem symm (h : s.Resembles t) : t.Resembles s :=
  ⟨h.registry.symm, h.queryName.symm, h.mutationName?.symm, h.introspectionDisabled.symm⟩

theorem plain_eq (h : s.Resembles t) {name : String} {a : ObjectType σ} {b : ObjectType τ}
    (ha : s.registry.get? name = some (.object a))
    (hb : t.registry.get? name = some (.object b)) : a.plain = b.plain := by
  have hg := h.get? name
  rw [ha, hb] at hg
  exact TypeDef.object.inj (Option.some.inj hg)

theorem collect (h : s.Resembles t) {a : ObjectType σ} {b : ObjectType τ}
    (hab : a.plain = b.plain) (selections : List Selection) :
    s.registry.collect a selections = t.registry.collect b selections := by
  rw [← Registry.collect_plain, hab, h.registry, Registry.collect_plain]

theorem coerceArguments (h : s.Resembles t) {f : Field σ} {g : Field τ} (hfg : f.plain = g.plain)
    (provided : Keyed InputValue) (vars : Variables) :
    s.registry.coerceArguments f provided vars = t.registry.coerceArguments g provided vars := by
  rw [← Registry.coerceArguments_plain, hfg, h.registry, Registry.coerceArguments_plain]

theorem shape (h : s.Resembles t) (type : TypeRef) (v : Value) :
    (s.registry.shape type v).map Shape.plain = (t.registry.shape type v).map Shape.plain := by
  rw [← Registry.shape_plain, ← Registry.shape_plain, h.registry]

theorem shape_eq_error (h : s.Resembles t) {type : TypeRef} {v : Value} {e : FieldError}
    (hs : s.registry.shape type v = .error e) : t.registry.shape type v = .error e := by
  have hshape := h.shape type v
  rw [hs] at hshape
  cases ht : t.registry.shape type v with
  | error e' =>
    rw [ht] at hshape
    simpa [Except.map] using hshape.symm
  | ok shape =>
    rw [ht] at hshape
    simp [Except.map] at hshape

theorem exists_shape (h : s.Resembles t) {type : TypeRef} {v : Value} {shape : Shape σ}
    (hs : s.registry.shape type v = .ok shape) :
    ∃ shape', t.registry.shape type v = .ok shape' ∧ shape.plain = shape'.plain := by
  have hshape := h.shape type v
  rw [hs] at hshape
  cases ht : t.registry.shape type v with
  | error e =>
    rw [ht] at hshape
    simp [Except.map] at hshape
  | ok shape' =>
    rw [ht] at hshape
    exact ⟨shape', rfl, by simpa [Except.map] using hshape⟩

end Schema.Resembles

/-- The declarations of a field in two object types that differ in resolvers only. -/
theorem ObjectType.exists_field? {a : ObjectType σ} {b : ObjectType τ} (hab : a.plain = b.plain)
    {name : String} {f : Field σ} (hf : a.field? name = some f) :
    ∃ g, b.field? name = some g ∧ f.plain = g.plain := by
  have hfield : (a.field? name).map Field.plain = (b.field? name).map Field.plain := by
    rw [← field?_plain, ← field?_plain, hab]
  rw [hf, Option.map_some] at hfield
  obtain ⟨g, hg, heq⟩ := Option.map_eq_some_iff.1 hfield.symm
  exact ⟨g, hg, heq.symm⟩

namespace Context

/-- What resolving a field may give: the error of its arguments, or what its resolver gives. -/
def Answers (ctx : Context σ) (field : Field σ) (parent : Value) (node : FieldNode Selection)
    (answer : Except FieldError Value) : Prop :=
  match ctx.schema.registry.coerceArguments field node.arguments ctx.vars with
  | .error e => answer = .error e
  | .ok arguments => field.Gives parent arguments answer

/-- The outcomes that a field of a type may have by what resolving it gave. -/
def YieldsOf (ctx : Context σ) (type : TypeRef) (selections : List Selection) (path : Path)
    (outcome : Outcome) : Except FieldError Value → Prop
  | .error e => outcome = .failed type e
  | .ok v => ctx.Yields (.value type v selections) path outcome

theorem Yields.of_field {ctx : Context σ} {o : ObjectType σ} {parent : Value}
    {node : FieldNode Selection} {rest : List (FieldNode Selection)} {path : Path}
    {outcome : Outcome} (hn : node.name ≠ "__typename")
    (h : ctx.Yields (.field o parent (node :: rest)) path outcome) :
    ∃ field answer, o.field? node.name = some field ∧ ctx.Answers field parent node answer ∧
      ctx.YieldsOf field.type ((node :: rest).flatMap FieldNode.children) path outcome answer := by
  cases h with
  | typename hn' => exact absurd hn' hn
  | @refused _ _ _ _ _ field error _ hf ha =>
    refine ⟨field, .error error, hf, ?_, rfl⟩
    rw [Answers, ha]
  | @unresolved _ _ _ _ _ field arguments error _ hf ha hr =>
    refine ⟨field, .error error, hf, ?_, rfl⟩
    rw [Answers, ha]
    exact hr
  | @resolved _ _ _ _ _ field arguments v _ _ hf ha hr h =>
    refine ⟨field, .ok v, hf, ?_, h⟩
    rw [Answers, ha]
    exact hr

/-- The outcome of a value that is not `null` is that of its shape. -/
theorem Yields.of_value {ctx : Context σ} {type : TypeRef} {v : Value}
    {selections : List Selection} {path : Path} {outcome : Outcome} (hv : v ≠ .null)
    (h : ctx.Yields (.value type v selections) path outcome) :
    match ctx.schema.registry.shape type v with
    | .error e => outcome = .failed type e
    | .ok (.leaf literal) => outcome = .leaf type literal
    | .ok (.list item vs) => ∃ items, outcome = .list type items ∧ items.length = vs.length ∧
      ∀ (i : Nat) (v : Value) (o : Outcome), vs[i]? = some v → items[i]? = some o →
        ctx.Yields (.value item v selections) (path.index i) o
    | .ok (.object o) => ctx.Yields (.object type o v selections) path outcome := by
  cases h with
  | null => exact absurd rfl hv
  | misfit _ hs => rw [hs]
  | leaf _ hs => rw [hs]
  | list _ hs hl h =>
    rw [hs]
    exact ⟨_, rfl, hl, h⟩
  | object _ hs h =>
    rw [hs]
    exact h

theorem Answers.of_error {ctx : Context σ} {f : Field σ} {parent : Value}
    {node : FieldNode Selection} {error : FieldError}
    (ha : ctx.schema.registry.coerceArguments f node.arguments ctx.vars = .error error) :
    ctx.Answers f parent node (.error error) := by
  rw [Answers, ha]

theorem Answers.of_gives {ctx : Context σ} {f : Field σ} {parent : Value}
    {node : FieldNode Selection} {arguments : Arguments} {answer : Except FieldError Value}
    (ha : ctx.schema.registry.coerceArguments f node.arguments ctx.vars = .ok arguments)
    (hg : f.Gives parent arguments answer) : ctx.Answers f parent node answer := by
  rw [Answers, ha]
  exact hg

variable {s : Schema σ} {t : Schema τ} {run : Nat} {vars : Variables}
  {computation? : String → String → Option Computation}

section Alike

variable {name : String} {a : ObjectType σ} {b : ObjectType τ}

/-- A field of an object type computes the same function in both schemas. -/
theorem exists_field_computes (hr : s.Resembles t) (hs : s.Computes computation?)
    (ht : t.Computes computation?) (ha : s.registry.get? name = some (.object a))
    (hb : t.registry.get? name = some (.object b)) {key : String} {f : Field σ}
    (hf : a.field? key = some f) :
    ∃ g c?, b.field? key = some g ∧ f.plain = g.plain ∧ f.Computes c? ∧ g.Computes c? := by
  obtain ⟨g, hg, hfg⟩ := ObjectType.exists_field? (hr.plain_eq ha hb) hf
  have hname : f.name = g.name := congrArg Field.name hfg
  refine ⟨g, computation? name f.name, hg, hfg, ?_, ?_⟩
  · exact hs name a ha f (List.mem_of_find?_eq_some hf)
  · rw [hname]
    exact ht name b hb g (List.mem_of_find?_eq_some hg)

/-- The same call is made, or none. -/
theorem call?_eq (hr : s.Resembles t) (hs : s.Computes computation?) (ht : t.Computes computation?)
    (ha : s.registry.get? name = some (.object a)) (hb : t.registry.get? name = some (.object b))
    (parent : Value) (nodes : List (FieldNode Selection)) (path : Path) :
    Context.call? ⟨run, s, vars⟩ a parent nodes path =
      Context.call? ⟨run, t, vars⟩ b parent nodes path := by
  have hplain := hr.plain_eq ha hb
  have hname : a.name = b.name := congrArg ObjectType.name hplain
  unfold Context.call?
  cases nodes with
  | nil => rfl
  | cons node rest =>
    dsimp only
    split
    · rfl
    · cases hf : a.field? node.name with
      | none =>
        have hg : b.field? node.name = none := by
          have hfield := b.field?_plain node.name
          rw [← hplain, ObjectType.field?_plain, hf] at hfield
          exact Option.map_eq_none_iff.1 hfield.symm
        rw [hg]
      | some f =>
        obtain ⟨g, c?, hg, hfg, hfc, hgc⟩ := exists_field_computes hr hs ht ha hb hf
        have hfield : f.name = g.name := congrArg Field.name hfg
        have hresolver : f.resolver?.isSome = g.resolver?.isSome := by
          rw [hfc.resolver?_isSome, hgc.resolver?_isSome]
        rw [hg]
        dsimp only
        rw [hr.coerceArguments hfg]
        cases t.registry.coerceArguments g node.arguments vars with
        | error e => rfl
        | ok arguments =>
          cases hfr : f.resolver? <;> cases hgr : g.resolver? <;> simp_all

end Alike

/-! ## Two executions side by side -/

/-- If a field is resolved, whatever it gives is the same in both schemas. -/
def GivesSame (s : Schema σ) (t : Schema τ) (a : Spot σ) : Prop :=
  ∀ name o o' parent node rest f g, a = .field o parent (node :: rest) →
    s.registry.get? name = some (.object o) → t.registry.get? name = some (.object o') →
    o.field? node.name = some f → o'.field? node.name = some g → f.plain = g.plain →
    ∀ arguments result result', f.Gives parent arguments result →
      g.Gives parent arguments result' → result = result'

theorem givesSame_of_computes (hs : s.Computes computation?) (ht : t.Computes computation?)
    (a : Spot σ) : GivesSame s t a := by
  rintro name o o' parent node rest f g rfl ha hb hf hg hfg arguments result result' hgives hgives'
  have hname : f.name = g.name := congrArg Field.name hfg
  have hfc := hs name o ha f (List.mem_of_find?_eq_some hf)
  have hgc := ht name o' hb g (List.mem_of_find?_eq_some hg)
  rw [hfc.eq_of_gives hgives, hgc.eq_of_gives hgives', hname]

section Sides

variable {name : String} {a : ObjectType σ} {b : ObjectType τ} {parent : Value}
  {node : FieldNode Selection} {rest : List (FieldNode Selection)} {path : Path}
  {outcome : Outcome}

/-- What a field answers in one schema decides its outcome in the other. -/
theorem Yields.of_answer (hr : s.Resembles t)
    (hsame : GivesSame s t (.field a parent (node :: rest)))
    (ha : s.registry.get? name = some (.object a)) (hb : t.registry.get? name = some (.object b))
    {f : Field σ} {answer : Except FieldError Value} (hn : node.name ≠ "__typename")
    (hf : a.field? node.name = some f) (hans : Answers ⟨run, s, vars⟩ f parent node answer)
    (h : Yields ⟨run, t, vars⟩ (.field b parent (node :: rest)) path outcome) :
    YieldsOf ⟨run, t, vars⟩ f.type ((node :: rest).flatMap FieldNode.children) path outcome
      answer := by
  obtain ⟨g, hg, hfg⟩ := ObjectType.exists_field? (hr.plain_eq ha hb) hf
  obtain ⟨g', answer', hg', hans', hout⟩ := Yields.of_field hn h
  rw [hg, Option.some.injEq] at hg'
  subst hg'
  have htype : f.type = g.type := congrArg Field.type hfg
  have hanswer : answer = answer' := by
    unfold Answers at hans hans'
    dsimp only at hans hans'
    rw [hr.coerceArguments hfg] at hans
    cases hargs : t.registry.coerceArguments g node.arguments vars with
    | error e =>
      rw [hargs] at hans hans'
      rw [hans, hans']
    | ok arguments =>
      rw [hargs] at hans hans'
      exact hsame _ _ _ _ _ _ _ _ rfl ha hb hf hg hfg arguments _ _ hans hans'
  rw [hanswer, htype]
  exact hout

/-- The shape that a value has in one schema decides its outcome in the other. -/
theorem Yields.of_shape (hr : s.Resembles t) {type : TypeRef} {v : Value}
    {selections : List Selection} {shape : Shape σ} (hv : v ≠ .null)
    (hshape : s.registry.shape type v = .ok shape)
    (h : Yields ⟨run, t, vars⟩ (.value type v selections) path outcome) :
    match shape with
    | .leaf literal => outcome = .leaf type literal
    | .list item vs => ∃ items, outcome = .list type items ∧ items.length = vs.length ∧
      ∀ (i : Nat) (w : Value) (o : Outcome), vs[i]? = some w → items[i]? = some o →
        Yields ⟨run, t, vars⟩ (.value item w selections) (path.index i) o
    | .object a => ∃ b, s.registry.get? a.name = some (.object a) ∧
      t.registry.get? a.name = some (.object b) ∧
      Yields ⟨run, t, vars⟩ (.object type b v selections) path outcome := by
  obtain ⟨shape', hshape', hplain⟩ := hr.exists_shape hshape
  have hout := Yields.of_value hv h
  rw [hshape'] at hout
  cases shape with
  | leaf literal =>
    cases shape' with
    | leaf literal' =>
      obtain rfl := Shape.leaf.inj hplain
      exact hout
    | _ => cases hplain
  | list item vs =>
    cases shape' with
    | list item' vs' =>
      obtain ⟨rfl, rfl⟩ := Shape.list.inj hplain
      exact hout
    | _ => cases hplain
  | object a =>
    cases shape' with
    | object b =>
      have hname : a.name = b.name := congrArg ObjectType.name (Shape.object.inj hplain)
      exact ⟨b, Registry.get?_of_shape hshape, hname ▸ Registry.get?_of_shape hshape', hout⟩
    | _ => cases hplain

/-- The fields that are collected in one schema decide the outcome of an object in the other. -/
theorem Yields.of_collected (hr : s.Resembles t)
    (ha : s.registry.get? name = some (.object a)) (hb : t.registry.get? name = some (.object b))
    {type : TypeRef} {v : Value} {selections : List Selection}
    (h : Yields ⟨run, t, vars⟩ (.object type b v selections) path outcome) :
    ∃ fields, outcome = .object type a.name fields ∧
      Keyed.keys fields = Keyed.keys (s.registry.collect a selections) ∧
      ∀ key nodes c o, (key, nodes) ∈ s.registry.collect a selections → (key, c, o) ∈ fields →
        c = call? ⟨run, t, vars⟩ b v nodes (path.field key) ∧
        Yields ⟨run, t, vars⟩ (.field b v nodes) (path.field key) o := by
  have hplain := hr.plain_eq ha hb
  have hname : a.name = b.name := congrArg ObjectType.name hplain
  rw [hr.collect hplain selections, hname]
  cases h with
  | @fields _ _ _ _ _ fields hk hc h =>
    refine ⟨fields, rfl, hk, ?_⟩
    intro key nodes c o hn hm
    exact ⟨hc key nodes c o hn hm, h key nodes c o hn hm⟩

end Sides

/-- A relation between the outcomes that a spot has in two schemas goes from parts to wholes: it
holds of equal outcomes, and of those whose parts, one step below the spot, it holds of. -/
structure Composes (s : Schema σ) (t : Schema τ) (run : Nat) (vars : Variables)
    (R : Spot σ → Outcome → Outcome → Prop) : Prop where
  same : ∀ a o, R a o o
  below : ∀ a a' o o', Step ⟨run, s, vars⟩ a [] a' → R a' o o' → R a o o'
  list : ∀ a type items items', items.length = items'.length →
    (∀ i o o', items[i]? = some o → items'[i]? = some o' →
      ∃ a', Step ⟨run, s, vars⟩ a [.index i] a' ∧ R a' o o') →
    R a (.list type items) (.list type items')
  object : ∀ name a b type v selections (path : Path) fields fields',
    s.registry.get? name = some (.object a) → t.registry.get? name = some (.object b) →
    Keyed.keys fields = Keyed.keys fields' →
    (∀ key c c' o o', (key, c, o) ∈ fields → (key, c', o') ∈ fields' →
      ∃ nodes, (key, nodes) ∈ s.registry.collect a selections ∧
        c = call? ⟨run, s, vars⟩ a v nodes (path.field key) ∧
        c' = call? ⟨run, t, vars⟩ b v nodes (path.field key) ∧ R (.field a v nodes) o o') →
    R (.object type a v selections) (.object type a.name fields) (.object type a.name fields')

namespace Composes

variable {R : Spot σ → Outcome → Outcome → Prop}

/-- A field that fails in one schema fails in the other. -/
theorem of_failed (hR : Composes s t run vars R) (hr : s.Resembles t) {name : String}
    {a : ObjectType σ} {b : ObjectType τ} {parent : Value} {node : FieldNode Selection}
    {rest : List (FieldNode Selection)} {path : Path} {outcome : Outcome}
    (hsame : GivesSame s t (.field a parent (node :: rest)) ∨
      ∀ o o', R (.field a parent (node :: rest)) o o')
    (ha : s.registry.get? name = some (.object a)) (hb : t.registry.get? name = some (.object b))
    {f : Field σ} {error : FieldError} (hn : node.name ≠ "__typename")
    (hf : a.field? node.name = some f)
    (hans : Answers ⟨run, s, vars⟩ f parent node (.error error))
    (h : Yields ⟨run, t, vars⟩ (.field b parent (node :: rest)) path outcome) :
    R (.field a parent (node :: rest)) (.failed f.type error) outcome := by
  rcases hsame with hsame | hall
  · have hout : outcome = .failed f.type error := Yields.of_answer hr hsame ha hb hn hf hans h
    rw [hout]
    exact hR.same _ _
  · exact hall _ _

/-- The relation holds of the outcomes that two executions have at a spot if, wherever a field gives
something else, it holds of any two outcomes. -/
theorem of_yields (hR : Composes s t run vars R) (hr : s.Resembles t)
    (hsame : ∀ a, GivesSame s t a ∨ ∀ o o', R a o o') {a : Spot σ} {b : Spot τ} {path : Path}
    {outcome outcome' : Outcome} (h : Yields ⟨run, s, vars⟩ a path outcome) (hab : a.Alike s t b)
    (h' : Yields ⟨run, t, vars⟩ b path outcome') : R a outcome outcome' := by
  -- by the rule of the first outcome; what it is about decides the second one as well
  induction h generalizing b outcome' with
  | @typename o _ _ _ hn =>
    cases hab with
    | @field _ _ o' _ _ ha hb =>
      cases h' with
      | typename =>
        have hname : o.name = o'.name := congrArg ObjectType.name (hr.plain_eq ha hb)
        rw [hname]
        exact hR.same _ _
      | _ => contradiction
  | refused hn hf hargs =>
    cases hab with
    | field ha hb => exact hR.of_failed hr (hsame _) ha hb hn hf (.of_error hargs) h'
  | unresolved hn hf hargs hgives =>
    cases hab with
    | field ha hb => exact hR.of_failed hr (hsame _) ha hb hn hf (.of_gives hargs hgives) h'
  | resolved hn hf hargs hgives _ ih =>
    cases hab with
    | field ha hb =>
      rcases hsame _ with hsame | hall
      · have hout := Yields.of_answer hr hsame ha hb hn hf (.of_gives hargs hgives) h'
        exact hR.below _ _ _ _ (.resolve hn hf hargs hgives) (ih .value hout)
      · exact hall _ _
  | null =>
    cases hab with
    | value =>
      cases h' with
      | null => exact hR.same _ _
      | _ => contradiction
  | misfit hv hshape =>
    cases hab with
    | value =>
      have hout := Yields.of_value hv h'
      rw [hr.shape_eq_error hshape] at hout
      rw [hout]
      exact hR.same _ _
  | leaf hv hshape =>
    cases hab with
    | value =>
      rw [Yields.of_shape hr hv hshape h']
      exact hR.same _ _
  | @list _ _ _ _ _ vs items hv hshape hl _ ih =>
    cases hab with
    | value =>
      obtain ⟨items', rfl, hl', hitems⟩ := Yields.of_shape hr hv hshape h'
      refine hR.list _ _ _ _ (hl.trans hl'.symm) ?_
      intro i o o' ho ho'
      have hlt : i < vs.length := by
        rw [← hl]
        exact (List.getElem?_eq_some_iff.1 ho).1
      have hw : vs[i]? = some vs[i] := List.getElem?_eq_getElem hlt
      exact ⟨_, .item hv hshape hw, ih i _ o hw ho .value (hitems i _ o' hw ho')⟩
  | object hv hshape _ ih =>
    cases hab with
    | value =>
      obtain ⟨b, ha, hb, hout⟩ := Yields.of_shape hr hv hshape h'
      exact hR.below _ _ _ _ (.belong hv hshape) (ih (.object ha hb) hout)
  | @fields _ _ _ _ path _ hk hc _ ih =>
    cases hab with
    | object ha hb =>
      obtain ⟨fields', rfl, hk', hfields⟩ := Yields.of_collected hr ha hb h'
      refine hR.object _ _ _ _ _ _ path _ _ ha hb (hk.trans hk'.symm) ?_
      intro key c c' o o' hm hm'
      obtain ⟨nodes, hn⟩ := Keyed.exists_mem_of_keys_eq hk hm
      obtain ⟨hc', hy⟩ := hfields key nodes c' o' hn hm'
      exact ⟨nodes, hn, hc key nodes c o hn hm, hc', ih key nodes c o hn hm (.field ha hb) hy⟩

end Composes

/-- Outcomes that are equal part by part, with the same calls, are equal. -/
theorem composes_eq (hr : s.Resembles t) (hs : s.Computes computation?)
    (ht : t.Computes computation?) : Composes s t run vars fun _ o o' => o = o' where
  same _ _ := rfl
  below _ _ _ _ _ h := h
  list := by
    intro a type items items' hl h
    refine congrArg (Outcome.list type) (List.ext_getElem hl ?_)
    intro i h₁ h₂
    obtain ⟨a', -, heq⟩ :=
      h i _ _ (List.getElem?_eq_getElem h₁) (List.getElem?_eq_getElem h₂)
    exact heq
  object := by
    intro name a b type v selections path fields fields' ha hb hk h
    refine congrArg (Outcome.object type a.name) (Keyed.eq_of_keys_eq hk ?_)
    rintro key ⟨c, o⟩ ⟨c', o'⟩ hm hm'
    obtain ⟨nodes, -, rfl, rfl, rfl⟩ := h key c c' o o' hm hm'
    rw [call?_eq hr hs ht ha hb v nodes _]

/-- **Stateless schemas that resemble one another have one outcome at a position.** -/
theorem Yields.unique (hr : s.Resembles t) (hs : s.Computes computation?)
    (ht : t.Computes computation?) {spot : Spot σ} {spot' : Spot τ} {path : Path}
    {outcome outcome' : Outcome} (h : Yields ⟨run, s, vars⟩ spot path outcome)
    (hspot : spot.Alike s t spot') (h' : Yields ⟨run, t, vars⟩ spot' path outcome') :
    outcome = outcome' :=
  (composes_eq hr hs ht).of_yields hr (fun a => .inl (givesSame_of_computes hs ht a)) h hspot h'

end Context

end GraphQL
