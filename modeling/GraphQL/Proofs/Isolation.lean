import GraphQL.Proofs.Agreement
import GraphQL.Proofs.Lookups
import GraphQL.Proofs.ScheduleIndependence

/-!
# A field does not disturb its siblings

Two stateless schemas may differ in what one field of one object type computes and in nothing else
(`Schema.DiffersOnlyAt`). Executing an operation on both takes the same steps until it comes to the
field (`Step.exists_alike`), so the positions that no path through the field leads to come out alike
(`Yields.alike`). Their errors are the same and their data is alike, unless an error below the field
made `null` of them or of something above (`execute_isolates`).
-/

namespace GraphQL

variable {σ τ : Type}

namespace Schema

/-- Whatever a field gives is what a function, chosen by the names of its type and itself, says. -/
def Follows (s : Schema σ) (c : String → String → Computation) : Prop :=
  ∀ name o, s.registry.get? name = some (.object o) → ∀ field ∈ o.fields,
    ∀ parent arguments result, field.Gives parent arguments result →
      result = c name field.name parent arguments

theorem Computes.follows {s : Schema σ} {computation? : String → String → Option Computation}
    (h : s.Computes computation?) :
    s.Follows fun type field => resultOf (computation? type field) field := by
  intro name o ho field hf parent arguments result hg
  exact (h name o ho field hf).eq_of_gives hg

/-- Two stateless schemas are the same, but for what one field of one object type computes. -/
structure DiffersOnlyAt (s : Schema σ) (t : Schema τ) (type field : String) : Prop where
  resembles : s.Resembles t
  computations : ∃ c c', s.Follows c ∧ t.Follows c' ∧
    ∀ type' field', (type', field') ≠ (type, field) → c type' field' = c' type' field'

variable {s : Schema σ} {t : Schema τ} {type field : String}

theorem DiffersOnlyAt.symm (h : s.DiffersOnlyAt t type field) : t.DiffersOnlyAt s type field := by
  obtain ⟨c, c', hs, ht, hc⟩ := h.computations
  refine ⟨h.resembles.symm, c', c, ht, hs, ?_⟩
  intro type' field' hne
  exact (hc type' field' hne).symm

/-- Any other field gives the same in both schemas. -/
theorem DiffersOnlyAt.eq_of_gives (h : s.DiffersOnlyAt t type field) {name : String}
    {a : ObjectType σ} {b : ObjectType τ} (ha : s.registry.get? name = some (.object a))
    (hb : t.registry.get? name = some (.object b)) {f : Field σ} {g : Field τ} (hf : f ∈ a.fields)
    (hg : g ∈ b.fields) (hfg : f.plain = g.plain) (hne : (name, f.name) ≠ (type, field))
    {parent : Value} {arguments : Arguments} {result result' : Except FieldError Value}
    (hgives : f.Gives parent arguments result) (hgives' : g.Gives parent arguments result') :
    result = result' := by
  obtain ⟨c, c', hs, ht, hc⟩ := h.computations
  have hname : f.name = g.name := congrArg Field.name hfg
  rw [hs name a ha f hf _ _ _ hgives, ht name b hb g hg _ _ _ hgives', ← hname, hc _ _ hne]

end Schema

/-- Whatever its state, a resolver gives something. -/
theorem Field.exists_gives (field : Field σ) (parent : Value) (arguments : Arguments) (state : σ) :
    ∃ result, field.Gives parent arguments result := by
  unfold Field.Gives
  cases field.resolver? with
  | none => exact ⟨_, rfl⟩
  | some resolver =>
    cases hr : (resolver parent arguments state).1 with
    | ready result => exact ⟨result, state, by rw [hr]; rfl⟩
    | pending delay? finish => exact ⟨(finish state).1, state, by rw [hr]; exact ⟨state, rfl⟩⟩

/-- A field of the name is resolved on the object type of the name. -/
def Spot.IsAt (type field : String) : Spot σ → Prop
  | .field o _ (node :: _) => o.name = type ∧ node.name = field
  | _ => False

/-- What is resolved is of another type or has another name, if it is not the field. -/
theorem Spot.ne_of_not_isAt {r : Registry σ} {type field name : String} {o : ObjectType σ}
    {parent : Value} {node : FieldNode Selection} {rest : List (FieldNode Selection)} {f : Field σ}
    (h : ¬ (Spot.field o parent (node :: rest)).IsAt type field)
    (ho : r.get? name = some (.object o)) (hf : o.field? node.name = some f) :
    (name, f.name) ≠ (type, field) := by
  intro heq
  obtain ⟨rfl, rfl⟩ := Prod.mk.inj heq
  exact h ⟨Registry.name_of_get? ho, (Field.of_find? hf).2.symm⟩

namespace Context

variable {ctx : Context σ} {type field : String} {a b : Spot σ} {p q : Path}

/-- On the way to the path, or at its end, the field of the object type is resolved. -/
def Passes (ctx : Context σ) (type field : String) (a : Spot σ) (p : Path) : Prop :=
  ∃ q b, q <+: p ∧ ctx.Leads a q b ∧ b.IsAt type field

theorem Passes.of_isAt (h : a.IsAt type field) : ctx.Passes type field a p :=
  ⟨[], a, List.nil_prefix, .here, h⟩

theorem Passes.step (hs : ctx.Step a p b) (h : ctx.Passes type field b q) :
    ctx.Passes type field a (p ++ q) := by
  obtain ⟨r, c, hr, hl, hc⟩ := h
  exact ⟨p ++ r, c, (List.prefix_append_right_inj p).2 hr, .step hs hl, hc⟩

theorem Passes.mono (hpq : p <+: q) (h : ctx.Passes type field a p) :
    ctx.Passes type field a q := by
  obtain ⟨r, c, hr, hl, hc⟩ := h
  exact ⟨r, c, hr.trans hpq, hl, hc⟩

end Context

/-! ## Stateless executions take all steps -/

namespace Context

variable {ctx : Context σ} {c : String → String → Computation} {a b : Spot σ} {path p : Path}
  {o : Outcome}

/-- An execution takes every step that there is: what the step leads to has an outcome. -/
theorem Yields.of_step (hc : ctx.schema.Follows c) (hfinds : ctx.Finds a) (hs : ctx.Step a p b)
    (h : ctx.Yields a path o) : ∃ o', o.at? p = some o' ∧ ctx.Yields b (path ++ p) o' := by
  cases hs with
  | resolve hn hf hargs hg =>
    obtain ⟨field, answer, hf', hans, hout⟩ := Yields.of_field hn h
    rw [hf, Option.some.injEq] at hf'
    subst hf'
    rw [Answers, hargs] at hans
    have hfield := List.mem_of_find?_eq_some hf
    have hanswer := hc _ _ hfinds.get?_of_field _ hfield _ _ _ hans
    rw [← hc _ _ hfinds.get?_of_field _ hfield _ _ _ hg] at hanswer
    subst hanswer
    exact ⟨o, rfl, by rwa [List.append_nil]⟩
  | @item _ _ _ _ vs i w hv hshape hi =>
    have hout := Yields.of_value hv h
    rw [hshape] at hout
    obtain ⟨items, rfl, hl, hitems⟩ := hout
    have hlt : i < items.length := by
      rw [hl]
      exact (List.getElem?_eq_some_iff.1 hi).1
    have ho : items[i]? = some items[i] := List.getElem?_eq_getElem hlt
    refine ⟨items[i], ?_, hitems i w _ hi ho⟩
    exact Outcome.at?_cons_eq_some_iff.2 ⟨_, ho, rfl⟩
  | belong hv hshape =>
    have hout := Yields.of_value hv h
    rw [hshape] at hout
    exact ⟨o, rfl, by rwa [List.append_nil]⟩
  | select hn =>
    obtain ⟨child, hchild, hy⟩ := h.exists_selected hn
    exact ⟨child, Outcome.at?_cons_eq_some_iff.2 ⟨child, hchild, rfl⟩, hy⟩

theorem Yields.of_leads (hc : ctx.schema.Follows c) (hfinds : ctx.Finds a) (hl : ctx.Leads a p b)
    (h : ctx.Yields a path o) : ∃ o', o.at? p = some o' ∧ ctx.Yields b (path ++ p) o' := by
  induction hl generalizing path o with
  | here => exact ⟨o, rfl, by rwa [List.append_nil]⟩
  | step hs _ ih =>
    obtain ⟨o₁, ha₁, hy₁⟩ := h.of_step hc hfinds hs
    obtain ⟨o₂, ha₂, hy₂⟩ := ih (hfinds.step hs) hy₁
    refine ⟨o₂, ?_, by rwa [← List.append_assoc]⟩
    rw [Outcome.at?_append ha₁, ha₂]

end Context

/-! ## The same steps until the field -/

namespace Context

variable {s : Schema σ} {t : Schema τ} {type field : String} {run : Nat} {vars : Variables}

/-- If a field is resolved, it gives the same values in both schemas. -/
def GivesAlike (s : Schema σ) (t : Schema τ) (vars : Variables) (a : Spot σ) : Prop :=
  ∀ name o o' parent node rest f g arguments v, a = .field o parent (node :: rest) →
    s.registry.get? name = some (.object o) → t.registry.get? name = some (.object o') →
    node.name ≠ "__typename" → o.field? node.name = some f → o'.field? node.name = some g →
    f.plain = g.plain → s.registry.coerceArguments f node.arguments vars = .ok arguments →
    f.Gives parent arguments (.ok v) → g.Gives parent arguments (.ok v)

/-- A step is taken in both schemas if what it resolves gives the same. -/
theorem Step.exists_alike_of_gives (hr : s.Resembles t) {a a' : Spot σ} {b : Spot τ} {p : Path}
    (hs : Step ⟨run, s, vars⟩ a p a') (hab : a.Alike s t b) (hgives : GivesAlike s t vars a) :
    ∃ b', Step ⟨run, t, vars⟩ b p b' ∧ a'.Alike s t b' := by
  cases hs with
  | @resolve o parent node rest f arguments v hn hf hargs hg =>
    cases hab with
    | @field name _ o' _ _ ha hb =>
      obtain ⟨g, hg', hfg⟩ := ObjectType.exists_field? (hr.plain_eq ha hb) hf
      have hgives' : g.Gives parent arguments (.ok v) :=
        hgives name o o' parent node rest f g arguments v rfl ha hb hn hf hg' hfg hargs hg
      have htype : f.type = g.type := congrArg Field.type hfg
      have hargs' : t.registry.coerceArguments g node.arguments vars = .ok arguments := by
        rw [← hr.coerceArguments hfg]
        exact hargs
      refine ⟨_, .resolve hn hg' hargs' hgives', ?_⟩
      rw [htype]
      exact .value
  | item hv hshape hi =>
    cases hab with
    | value =>
      obtain ⟨shape, hshape', hplain⟩ := hr.exists_shape hshape
      cases shape with
      | list item vs =>
        obtain ⟨rfl, rfl⟩ := Shape.list.inj hplain
        exact ⟨_, .item hv hshape' hi, .value⟩
      | _ => nomatch hplain
  | @belong _ _ _ o hv hshape =>
    cases hab with
    | value =>
      obtain ⟨shape, hshape', hplain⟩ := hr.exists_shape hshape
      cases shape with
      | object o' =>
        have hname : o.name = o'.name := congrArg ObjectType.name (Shape.object.inj hplain)
        have ha := Registry.get?_of_shape hshape
        exact ⟨_, .belong hv hshape', .object (hname ▸ ha) (Registry.get?_of_shape hshape')⟩
      | _ => nomatch hplain
  | select hn =>
    cases hab with
    | object ha hb =>
      have hcollect := hr.collect (hr.plain_eq ha hb)
      exact ⟨_, .select (hcollect _ ▸ hn), .field ha hb⟩

variable (hd : s.DiffersOnlyAt t type field)

theorem isAt_of_alike {a : Spot σ} {b : Spot τ} (hr : s.Resembles t) (hab : a.Alike s t b)
    (h : a.IsAt type field) : b.IsAt type field := by
  cases hab with
  | @field name o o' parent nodes ha hb =>
    cases nodes with
    | nil => exact h
    | cons node rest =>
      have hname : o.name = o'.name := congrArg ObjectType.name (hr.plain_eq ha hb)
      exact ⟨hname ▸ h.1, h.2⟩
  | value => exact h
  | object => exact h

include hd

/-- Fields other than the one that differs give the same. -/
theorem givesSame_of_not_isAt {a : Spot σ} (hno : ¬ a.IsAt type field) : GivesSame s t a := by
  rintro name o o' parent node rest f g rfl ha hb hf hg hfg arguments result result' hgives hgives'
  have hne : (name, f.name) ≠ (type, field) := Spot.ne_of_not_isAt hno ha hf
  exact hd.eq_of_gives ha hb (List.mem_of_find?_eq_some hf) (List.mem_of_find?_eq_some hg) hfg hne
    hgives hgives'

/-- A step that does not resolve the field that differs is taken in both schemas. -/
theorem Step.exists_alike (state : τ) {a a' : Spot σ} {b : Spot τ} {p : Path}
    (hs : Step ⟨run, s, vars⟩ a p a') (hab : a.Alike s t b) (hno : ¬ a.IsAt type field) :
    ∃ b', Step ⟨run, t, vars⟩ b p b' ∧ a'.Alike s t b' := by
  refine hs.exists_alike_of_gives hd.resembles hab ?_
  rintro name o o' parent node rest f g arguments v rfl ha hb - hf hg hfg - hgives
  obtain ⟨result, hgives'⟩ := g.exists_gives parent arguments state
  have hresult : .ok v = result := givesSame_of_not_isAt hd hno _ _ _ _ _ _ _ _ rfl ha hb hf hg hfg
    arguments _ _ hgives hgives'
  exact hresult ▸ hgives'

/-- A path passes through the field in both schemas or in neither. -/
theorem Passes.of_alike (state : τ) {a : Spot σ} {b : Spot τ} {p : Path}
    (h : Passes ⟨run, s, vars⟩ type field a p) (hab : a.Alike s t b) :
    Passes ⟨run, t, vars⟩ type field b p := by
  obtain ⟨q, c, hq, hl, hc⟩ := h
  refine Passes.mono hq ?_
  clear hq
  induction hl generalizing b with
  | here => exact .of_isAt (isAt_of_alike hd.resembles hab hc)
  | @step a₁ a₂ _ _ _ hs _ ih =>
    by_cases hat : a₁.IsAt type field
    · exact .of_isAt (isAt_of_alike hd.resembles hab hat)
    · obtain ⟨b', hs', hab'⟩ := Step.exists_alike hd state hs hab hat
      exact .step hs' (ih hab' hc)

/-! ## Positions come out alike -/

omit hd in
/-- Outcomes come out alike, off the paths through the field, if they do so part by part. -/
theorem composes_alike : Composes s t run vars fun a o o' =>
    ∀ p, ¬ Passes ⟨run, s, vars⟩ type field a p →
      Option.Rel Outcome.Alike (o.at? p) (o'.at? p) where
  same a o p _ := Outcome.rel_of_eq rfl p
  below := by
    intro a a' o o' hs h p hp
    refine h p ?_
    intro hpass
    exact hp (hpass.step hs)
  list := by
    intro a type items items' hl h p hp
    refine Outcome.rel_list hl ?_
    rintro i q o o' rfl ho ho'
    obtain ⟨a', hs, hrel⟩ := h i o o' ho ho'
    refine hrel q ?_
    intro hpass
    exact hp (hpass.step hs)
  object := by
    intro name a b type v selections path fields fields' _ _ hk h p hp
    refine Outcome.rel_object hk ?_
    rintro key q ⟨c, o⟩ ⟨c', o'⟩ rfl hf hf'
    obtain ⟨nodes, hn, -, -, hrel⟩ :=
      h key c c' o o' (Keyed.mem_of_get?_eq_some hf) (Keyed.mem_of_get?_eq_some hf')
    refine hrel q ?_
    intro hpass
    exact hp (hpass.step (.select hn))

/-- **Positions that no path through the field leads to come out alike**, or are reached in neither
execution. -/
theorem Yields.alike {a : Spot σ} {b : Spot τ} {path : Path} {outcome outcome' : Outcome}
    (h : Yields ⟨run, s, vars⟩ a path outcome) (hab : a.Alike s t b)
    (h' : Yields ⟨run, t, vars⟩ b path outcome') {p : Path}
    (hp : ¬ Passes ⟨run, s, vars⟩ type field a p) :
    Option.Rel Outcome.Alike (outcome.at? p) (outcome'.at? p) := by
  refine composes_alike.of_yields hd.resembles ?_ h hab h' p hp
  intro spot
  by_cases hat : spot.IsAt type field
  · exact .inr fun _ _ _ hno => (hno (.of_isAt hat)).elim
  · exact .inl (givesSame_of_not_isAt hd hat)

end Context

namespace Schema

variable {s : Schema σ} {t : Schema τ} {run : Run} {type field : String}

/-- Executing the operation resolves the field of the object type on the way to the path, or at its
end. -/
def Passes (s : Schema σ) (run : Run) (type field : String) (p : Path) : Prop :=
  ∃ q spot, q <+: p ∧ s.Visits run q spot ∧ spot.IsAt type field

theorem passes_iff {root : ObjectType σ} (hroot : s.root? run.operation.kind = some root)
    {p : Path} : s.Passes run type field p ↔
      Context.Passes ⟨0, s, run.vars⟩ type field
        (.object (.named root.name) root run.root run.operation.selections) p := by
  constructor
  · rintro ⟨q, spot, hq, ⟨root', hroot', hl⟩, hat⟩
    rw [hroot, Option.some.injEq] at hroot'
    exact ⟨q, spot, hq, hroot' ▸ hl, hat⟩
  · rintro ⟨q, spot, hq, hl, hat⟩
    exact ⟨q, spot, hq, ⟨root, hroot, hl⟩, hat⟩

/-- A position is `null` because of an error on a path through the field. -/
def NulledThrough (s : Schema σ) (run : Run) (type field : String) (out : Output) (o : Outcome)
    (p : Path) : Prop :=
  out.data.at? p = some .null ∧
    ∃ e ∈ out.errors, s.Passes run type field e.path ∧ o.ClosestNullable e.path p

theorem Reaches.nulledThrough {log : List Entry} {out : Output} {o : Outcome}
    (hr : s.Reaches run log out o) {p : Path}
    (h : Outcome.Nulled (fun p => ¬ s.Passes run type field p) o out.data p) :
    s.NulledThrough run type field out o p := by
  obtain ⟨hnull, e, he, hpass, hclosest⟩ := h
  exact ⟨hnull, e, hr.errors.mem_iff.2 he, not_not.1 hpass, hclosest⟩

/-- The outcome has every position that executing the operation may come to. -/
def Exhausts (s : Schema σ) (run : Run) (o : Outcome) : Prop :=
  ∀ p spot, s.Visits run p spot → ∃ o', o.at? p = some o'

theorem Follows.exhausts {c : String → String → Computation} (hc : s.Follows c) {o : Outcome}
    (h : s.Yields run o) : s.Exhausts run o := by
  rintro p spot ⟨root, hroot, hl⟩
  obtain ⟨root', hroot', hy⟩ := h
  rw [hroot, Option.some.injEq] at hroot'
  subst hroot'
  have hfinds := Visits.finds ⟨root, hroot, .here⟩
  obtain ⟨o', ha, -⟩ := hy.of_leads hc hfinds hl
  exact ⟨o', ha⟩

variable {state : σ} {state' : τ} {log log' : List Entry} {out out' : Output}

/-- A path passes through the field in both executions or in neither. -/
theorem DiffersOnlyAt.passes_iff (hd : s.DiffersOnlyAt t type field) (state : σ) (state' : τ)
    {root : ObjectType σ} {root' : ObjectType τ}
    (hroot : s.root? run.operation.kind = some root)
    (hroot' : t.root? run.operation.kind = some root') (p : Path) :
    s.Passes run type field p ↔ t.Passes run type field p := by
  rw [Schema.passes_iff hroot, Schema.passes_iff hroot']
  constructor
  · intro h
    exact h.of_alike hd state' (hd.resembles.alike_root hroot hroot')
  · intro h
    exact h.of_alike hd.symm state (hd.symm.resembles.alike_root hroot' hroot)

/-- Outcomes of both schemas agree on the positions whose paths do not pass through the field. -/
theorem DiffersOnlyAt.agree (hd : s.DiffersOnlyAt t type field) {o o' : Outcome}
    (h : s.Yields run o) (h' : t.Yields run o') :
    Outcome.Agree (fun p => ¬ s.Passes run type field p) o o' := by
  obtain ⟨root, hroot, hy⟩ := h
  obtain ⟨root', hroot', hy'⟩ := h'
  constructor
  · rintro p q hqp hp ⟨r, spot, hr, hspot⟩
    exact hp ⟨r, spot, hr.trans hqp, hspot⟩
  · intro p hp
    rw [Schema.passes_iff hroot] at hp
    exact hy.alike hd (hd.resembles.alike_root hroot hroot') hy' hp

open Classical in
/-- What two executions have in common if only a field of an object type differs: the paths through
the field; the errors elsewhere; and the positions elsewhere, each of which came out alike and has
data that is alike, unless a position at or above it is `null` because of an error on a path through
the field. Both executions came to every position that there is to come to. -/
structure Isolates (s : Schema σ) (t : Schema τ) (run : Run) (type field : String)
    (log log' : List Entry) (out out' : Output) : Prop where
  passes : ∀ p, s.Passes run type field p ↔ t.Passes run type field p
  errors : (out.errors.filter fun e => ¬ s.Passes run type field e.path) =
    out'.errors.filter fun e => ¬ s.Passes run type field e.path
  positions : ∃ o o', s.Reaches run log out o ∧ t.Reaches run log' out' o' ∧
    s.Exhausts run o ∧ t.Exhausts run o' ∧ ∀ p, ¬ s.Passes run type field p →
      Option.Rel Outcome.Alike (o.at? p) (o'.at? p) ∧
      (Option.Rel Value.Alike (out.data.at? p) (out'.data.at? p) ∨
        ∃ b, b <+: p ∧ (s.NulledThrough run type field out o b ∨
          t.NulledThrough run type field out' o' b))

open Classical in
/-- However the executions are interleaved, a field does not disturb its siblings. -/
theorem EndsWith.isolates (hd : s.DiffersOnlyAt t type field) (h : s.EndsWith run state log out)
    (h' : t.EndsWith run state' log' out') : s.Isolates t run type field log log' out out' := by
  obtain ⟨o, hreach⟩ := h.exists_outcome
  obtain ⟨o', hreach'⟩ := h'.exists_outcome
  have hagree := hd.agree hreach.yields hreach'.yields
  have hk := hreach.yields.distinctKeys
  have hk' := hreach'.yields.distinctKeys
  have hpasses : ∀ p, s.Passes run type field p ↔ t.Passes run type field p := by
    obtain ⟨root, hroot, -⟩ := hreach.yields
    obtain ⟨root', hroot', -⟩ := hreach'.yields
    exact hd.passes_iff state state' hroot hroot'
  obtain ⟨c, c', hs, ht, -⟩ := hd.computations
  have hall := hs.exhausts hreach.yields
  have hall' := ht.exhausts hreach'.yields
  refine ⟨hpasses, ?_, o, o', hreach, hreach', hall, hall', ?_⟩
  · refine LocatedError.eq_of_mem_iff (h.pairwise_lt.filter _) (h'.pairwise_lt.filter _) ?_
    intro e
    rw [List.mem_filter, List.mem_filter, hreach.errors.mem_iff, hreach'.errors.mem_iff,
      decide_eq_true_iff]
    exact and_congr_left (hagree.mem_errors_iff_mem hk hk')
  · intro p hp
    refine ⟨hagree.alike hp, ?_⟩
    rcases hagree.data hk hk' hreach.completion hreach'.completion hp with hv | ⟨b, hb, hn | hn⟩
    · exact .inl hv
    · exact .inr ⟨b, hb, .inl (hreach.nulledThrough hn)⟩
    · refine .inr ⟨b, hb, .inr (hreach'.nulledThrough ?_)⟩
      obtain ⟨hnull, e, he, hpass, hclosest⟩ := hn
      exact ⟨hnull, e, he, fun hfree => hpass fun hs => hfree ((hpasses e.path).1 hs), hclosest⟩

/-- **A field does not disturb its siblings.** Two stateless schemas that differ in nothing but what
one field of one object type computes execute an operation to the same errors and to data that is
alike, everywhere but on the paths through the field and where its errors go as `null`. That is so
of every interleaving that comes to its end, and where promises are kept, both executions do. -/
theorem execute_isolates (hd : s.DiffersOnlyAt t type field) (run : Run)
    (hb : s.bind run.operation = []) (state : σ) (state' : τ) :
    (∀ log log' out out', s.EndsWith run state log out → t.EndsWith run state' log' out' →
      s.Isolates t run type field log log' out out') ∧
    (s.KeepsPromises → t.KeepsPromises → ∃ out out',
      (s.execute none run state).ending = .ok (.ok out) ∧
      (t.execute none run state').ending = .ok (.ok out') ∧
      s.Isolates t run type field (s.execute none run state).log (t.execute none run state').log
        out out') := by
  constructor
  · intro log log' out out' h h'
    exact h.isolates hd h'
  · intro hkeeps hkeeps'
    have hb' : t.bind run.operation = [] := by
      rw [← hd.resembles.bind_eq, hb]
    obtain ⟨out, hout⟩ := exists_output_execute hkeeps hb state
    obtain ⟨out', hout'⟩ := exists_output_execute hkeeps' hb' state'
    exact ⟨out, out', hout, hout', (endsWith_execute hout).isolates hd (endsWith_execute hout')⟩

end Schema

namespace Sample

def refusal : FieldError :=
  ⟨"refused", .resolver, .null⟩

/-- Fails at once. -/
def refuse : Resolver Unit := fun _ _ state =>
  (.ready (.error refusal), state)

def refusingSchema : Schema Unit :=
  ⟨registry refuse, "Query", none, false, rfl, rfl, rfl, by simp⟩

theorem differsOnlyAt_refusing : schema.DiffersOnlyAt refusingSchema "Query" "found" := by
  have hs : schema.Computes _ := computes_of_comes rfl fun _ _ _ => ⟨rfl, fun _ => rfl⟩
  have ht : refusingSchema.Computes _ := computes_of_comes rfl fun _ _ _ => rfl
  refine ⟨⟨rfl, rfl, rfl, rfl⟩, _, _, hs.follows, ht.follows, ?_⟩
  intro type field hne
  have hne : ¬ (type = "Query" ∧ field = "found") := fun h => hne (by rw [h.1, h.2])
  simp only [if_neg hne]

/-- The item of the root fails in the same way whether or not something is found. -/
theorem execute_isolates_sample :
    schema.DiffersOnlyAt refusingSchema "Query" "found" ∧ schema.bind run.operation = [] ∧
      ∃ out', (refusingSchema.execute none run ()).ending = .ok (.ok out') ∧
        schema.Isolates refusingSchema run "Query" "found" (schema.execute none run ()).log
          (refusingSchema.execute none run ()).log ⟨data, LocatedError.sorted errors⟩ out' := by
  have hrefused : (refusingSchema.execute none run ()).ending =
      .ok (.ok ⟨.object [("found", .null), ("item", .null)], LocatedError.sorted
        [⟨[.field "found"], refusal⟩,
          ⟨[.field "item", .field "name"],
            .ofFault (.nullInNonNull (.nonNull (.named "String")))⟩]⟩) :=
    Schema.ending_execute rfl 40 rfl
  have hends := Schema.endsWith_execute ending_execute
  have hrefusedEnds := Schema.endsWith_execute hrefused
  have hisolates := (Schema.execute_isolates differsOnlyAt_refusing run rfl () ()).1
  exact ⟨differsOnlyAt_refusing, rfl, _, hrefused, hisolates _ _ _ _ hends hrefusedEnds⟩

end Sample

end GraphQL
