import GraphQL.Proofs.Acyclic
import GraphQL.Proofs.Echo

/-!
# Variables and literals agree

Variables that do not lead back to themselves can be replaced in a literal beforehand
(`Variables.Replaces`): by their values at any depth, and by `null` without a value. What is left
mentions no variable, and there is one such literal only. At a type that ends in a built-in scalar
or an enum it is coerced to the same value, or fails for a reason of the same kind
(`Registry.coerce_replaced`). Where the type ends in an enum, a string that came from a variable
has to become the enum value of that name, for no variable has an enum literal.
-/

namespace GraphQL

/-- Lists are equal whose items are determined, place by place, by those of a third one. -/
theorem eq_of_forall_zip {α β : Type} {xs : List α} {ys zs : List β} (hy : xs.length = ys.length)
    (hz : xs.length = zs.length)
    (h : ∀ x y z, (x, y) ∈ xs.zip ys → (x, z) ∈ xs.zip zs → y = z) : ys = zs := by
  refine List.ext_getElem (hy.symm.trans hz) ?_
  intro i hi hi'
  have hx : i < xs.length := hy ▸ hi
  refine h xs[i] ys[i] zs[i] ?_ ?_
  · rw [← List.getElem_zip (h := by simp; omega)]
    exact List.getElem_mem _
  · rw [← List.getElem_zip (h := by simp; omega)]
    exact List.getElem_mem _

theorem exists_forall₂ {α β : Type} {P : α → β → Prop} {xs : List α}
    (h : ∀ x ∈ xs, ∃ y, P x y) : ∃ ys, List.Forall₂ P xs ys := by
  induction xs with
  | nil => exact ⟨[], .nil⟩
  | cons x rest ih =>
    obtain ⟨y, hy⟩ := h x List.mem_cons_self
    obtain ⟨ys, hys⟩ := ih fun x hx => h x (List.mem_cons_of_mem _ hx)
    exact ⟨y :: ys, .cons hy hys⟩

/-! ## Replacing variables -/

namespace Variables

/-- A leaf as it would be written in place of the variable that it came from. -/
def leaf (enums fromVariable : Bool) (s : Scalar) : InputValue :=
  match s with
  | .string name => if enums && fromVariable then .enum name else .scalar (.string name)
  | s => .scalar s

/-- The second literal is the first one with its variables replaced. The flags say whether strings
from variables name enum values, and whether the literal came from a variable. -/
inductive Replaces (vars : Variables) (enums : Bool) : Bool → InputValue → InputValue → Prop
  | null {fromVariable} : Replaces vars enums fromVariable .null .null
  | scalar {fromVariable} (s) :
    Replaces vars enums fromVariable (.scalar s) (leaf enums fromVariable s)
  | enum {fromVariable} (name) : Replaces vars enums fromVariable (.enum name) (.enum name)
  | value {fromVariable name v given} (hv : Keyed.get? vars name = some v)
    (h : Replaces vars enums true v given) : Replaces vars enums fromVariable (.var name) given
  | absent {fromVariable name} (hv : Keyed.get? vars name = none) :
    Replaces vars enums fromVariable (.var name) .null
  | list {fromVariable items givens} (hl : items.length = givens.length)
    (h : ∀ item given, (item, given) ∈ items.zip givens →
      Replaces vars enums fromVariable item given) :
    Replaces vars enums fromVariable (.list items) (.list givens)

variable {vars : Variables} {enums fromVariable flag : Bool}
  {literal found given other : InputValue}

theorem leaf_eq (enums fromVariable : Bool) (s : Scalar) :
    leaf enums fromVariable s = .scalar s ∨
      ∃ name, s = .string name ∧ enums = true ∧ fromVariable = true ∧
        leaf enums fromVariable s = .enum name := by
  cases s with
  | string name => cases enums <;> cases fromVariable <;> simp [leaf]
  | _ => exact .inl rfl

namespace Replaces

theorem unique (h : vars.Replaces enums fromVariable literal given)
    (h' : vars.Replaces enums fromVariable literal other) : given = other := by
  induction h generalizing other with
  | null =>
    cases h'
    rfl
  | scalar s =>
    cases h'
    rfl
  | enum name =>
    cases h'
    rfl
  | value hv _ ih =>
    cases h' with
    | value hv' h' =>
      obtain rfl := Option.some.inj (hv.symm.trans hv')
      exact ih h'
    | absent hv' => simp [hv] at hv'
  | absent hv =>
    cases h' with
    | value hv' _ => simp [hv] at hv'
    | absent => rfl
  | list hl _ ih =>
    cases h' with
    | list hl' h' =>
      have heq := eq_of_forall_zip hl hl' fun item given other hm hm' =>
        ih item given hm (h' item other hm')
      rw [heq]

/-- What is no variable keeps its form, save that a string may become an enum value. -/
theorem shape (h : vars.Replaces enums fromVariable found given) (hv : found.isVar = false) :
    (found = .null ∧ given = .null) ∨ (found ≠ .null ∧ given ≠ .null ∧
      ((∃ items givens, found = .list items ∧ given = .list givens ∧
          List.Forall₂ (vars.Replaces enums fromVariable) items givens) ∨
        ((∀ items, found ≠ .list items) ∧ ∀ givens, given ≠ .list givens))) := by
  cases h with
  | value | absent => cases hv
  | null => exact .inl ⟨rfl, rfl⟩
  | enum name => exact .inr ⟨nofun, nofun, .inr ⟨nofun, nofun⟩⟩
  | scalar s =>
    rcases leaf_eq enums fromVariable s with h | ⟨name, -, -, -, h⟩ <;> rw [h] <;>
      exact .inr ⟨nofun, nofun, .inr ⟨nofun, nofun⟩⟩
  | @list _ items givens hl hitems =>
    have hforall := List.forall₂_iff_zip.2 ⟨hl, fun {item given} hm => hitems item given hm⟩
    exact .inr ⟨nofun, nofun, .inl ⟨items, givens, rfl, rfl, hforall⟩⟩

/-- Nothing is left to replace. -/
theorem references_eq_nil (h : vars.Replaces enums fromVariable literal given) :
    given.references = [] := by
  induction h with
  | scalar s => rcases leaf_eq enums _ s with h | ⟨_, _, _, _, h⟩ <;> rw [h] <;> rfl
  | value _ _ ih => exact ih
  | @list _ items givens hl _ ih =>
    refine InputValue.referencesItems_eq_nil_iff.2 ?_
    intro given hgiven
    rw [← List.map_snd_zip hl.ge] at hgiven
    obtain ⟨⟨item, given⟩, hm, rfl⟩ := List.mem_map.1 hgiven
    exact ih item given hm
  | _ => rfl

end Replaces

/-- Variables that do not lead back to themselves can be replaced: the value of a variable mentions
variables of smaller ranks only. -/
theorem Acyclic.exists_replaces (h : vars.Acyclic) (enums : Bool) (bound : Nat)
    (literal : InputValue) (fromVariable : Bool)
    (hbound : ∀ name ∈ literal.references, vars.rank name ≤ bound) :
    ∃ given, vars.Replaces enums fromVariable literal given := by
  match literal with
  | .null => exact ⟨_, .null⟩
  | .scalar s => exact ⟨_, .scalar s⟩
  | .enum name => exact ⟨_, .enum name⟩
  | .var name =>
    cases hv : Keyed.get? vars name with
    | none => exact ⟨_, .absent hv⟩
    | some v =>
      -- The value is no part of the literal: it is the bound on ranks that gets smaller here.
      have hle := hbound name (List.mem_singleton.2 rfl)
      have hpos := rank_pos hv
      have hvalue : ∀ name' ∈ v.references, vars.rank name' ≤ bound - 1 := by
        intro name' hm
        have hlt := h.rank_lt_of_mentions ⟨v, hv, hm⟩
        omega
      obtain ⟨given, hg⟩ := h.exists_replaces enums (bound - 1) v true hvalue
      exact ⟨given, .value hv hg⟩
  | .list items =>
    have hitems : ∀ item ∈ items, ∃ given, vars.Replaces enums fromVariable item given := by
      intro item hm
      refine h.exists_replaces enums bound item fromVariable ?_
      intro name hname
      exact hbound name (InputValue.mem_referencesItems_iff.2 ⟨item, hm, hname⟩)
    obtain ⟨givens, hg⟩ := exists_forall₂ hitems
    obtain ⟨hl, hzip⟩ := List.forall₂_iff_zip.1 hg
    exact ⟨.list givens, .list hl fun item given hm => hzip hm⟩
termination_by (bound, sizeOf literal)

/-- What a literal stands for is replaced by the same. -/
theorem Replaces.exists_follow (hr : vars.Replaces enums fromVariable literal given)
    (h : vars.Acyclic) : ∃ found flag, vars.follow literal fromVariable = (found, flag) ∧
      vars.Replaces enums flag found given := by
  induction hr with
  | null => exact ⟨_, _, follow_of_not_isVar rfl _ _, .null⟩
  | scalar s => exact ⟨_, _, follow_of_not_isVar rfl _ _, .scalar s⟩
  | enum name => exact ⟨_, _, follow_of_not_isVar rfl _ _, .enum name⟩
  | value hv _ ih =>
    rw [h.follow_var, hv]
    exact ih
  | absent hv =>
    rw [h.follow_var, hv]
    exact ⟨_, _, rfl, .null⟩
  | list hl hr _ => exact ⟨_, _, follow_of_not_isVar rfl _ _, .list hl hr⟩

end Variables

/-! ## Coercing what is left -/

section Kinds

variable {α β : Type} {x y : Except FieldError α}

theorem mapError_map (x : Except FieldError α) (f : α → β) :
    (x.map f).mapError FieldError.kind = (x.mapError FieldError.kind).map f := by
  cases x <;> rfl

/-- Results that agree in values and in kinds of errors both are a value or both an error. -/
theorem agree_of_mapError_eq
    (h : x.mapError FieldError.kind = y.mapError FieldError.kind) :
    (∃ v, x = .ok v ∧ y = .ok v) ∨ ∃ e e', x = .error e ∧ y = .error e' ∧ e.kind = e'.kind := by
  cases x with
  | ok v =>
    cases y with
    | ok w => exact .inl ⟨v, rfl, congrArg _ (Except.ok.inj h).symm⟩
    | error e' => cases h
  | error e =>
    cases y with
    | ok w => cases h
    | error e' => exact .inr ⟨e, e', rfl, rfl, Except.error.inj h⟩

theorem mapM_mapError_congr {γ : Type} {f : α → Except FieldError γ} {g : β → Except FieldError γ}
    {xs : List α} {ys : List β} (h : List.Forall₂
      (fun x y => (f x).mapError FieldError.kind = (g y).mapError FieldError.kind) xs ys) :
    (xs.mapM f).mapError FieldError.kind = (ys.mapM g).mapError FieldError.kind := by
  induction h with
  | nil => rfl
  | @cons x y xs ys hxy _ ih =>
    rw [List.mapM_cons, List.mapM_cons]
    rcases agree_of_mapError_eq hxy with ⟨v, hx, hy⟩ | ⟨e, e', hx, hy, hk⟩
    · rw [hx, hy]
      rcases agree_of_mapError_eq ih with ⟨vs, hxs, hys⟩ | ⟨e, e', hxs, hys, hk⟩
      · rw [hxs, hys]
      · rw [hxs, hys]
        exact congrArg Except.error hk
    · rw [hx, hy]
      exact congrArg Except.error hk

end Kinds

/-- A built-in scalar makes nothing of a list. -/
theorem ScalarType.exists_parse_list {s : ScalarType} (hs : s ∈ builtins)
    (items : List InputValue) : ∃ message, s.parse (.list items) = .error (.resolver message) := by
  simp only [builtins, List.mem_cons, List.not_mem_nil, or_false] at hs
  rcases hs with rfl | rfl | rfl | rfl | rfl <;> exact ⟨_, rfl⟩

namespace Registry

variable {σ : Type} {r : Registry σ} {vars : Variables} {type : TypeRef} {enums : Bool}
  {literal found given : InputValue} {fromVariable flag : Bool}

/-- The type ends in a built-in scalar or, as the flag says, in an enum. -/
inductive EndsPlainly (r : Registry σ) (type : TypeRef) : (enums : Bool) → Prop
  | scalar {s} (hs : s ∈ ScalarType.builtins) (ht : r.lookup? type = some (.scalar s)) :
    EndsPlainly r type false
  | enum {e} (ht : r.lookup? type = some (.enum e)) : EndsPlainly r type true

theorem EndsPlainly.nonNull (h : r.EndsPlainly (.nonNull type) enums) :
    r.EndsPlainly type enums := by
  cases h with
  | scalar hs ht => exact .scalar hs ht
  | enum ht => exact .enum ht

theorem EndsPlainly.list (h : r.EndsPlainly (.list type) enums) : r.EndsPlainly type enums := by
  cases h with
  | scalar hs ht => exact .scalar hs ht
  | enum ht => exact .enum ht

/-- At a named type, what a literal is replaced by is as good as the literal. -/
theorem coerceNamed_replaced {name : String} (he : r.EndsPlainly (.named name) enums)
    (hr : vars.Replaces enums flag found given) (hv : found.isVar = false) :
    (r.coerceNamed name found flag).mapError FieldError.kind =
      (r.coerceNamed name given false).mapError FieldError.kind := by
  cases he with
  | @scalar s hs ht =>
    have ht : r.get? name = some (.scalar s) := ht
    unfold coerceNamed
    rw [ht]
    cases hr with
    | value | absent => cases hv
    | null | enum => rfl
    | scalar leaf =>
      cases leaf <;> rfl
    | @list _ items givens hl h =>
      obtain ⟨message, hm⟩ := ScalarType.exists_parse_list hs items
      obtain ⟨message', hm'⟩ := ScalarType.exists_parse_list hs givens
      dsimp only
      rw [hm, hm']
      rfl
  | @enum e ht =>
    have ht : r.get? name = some (.enum e) := ht
    unfold coerceNamed
    rw [ht]
    cases hr with
    | value | absent => cases hv
    | null | enum | list => rfl
    | scalar leaf =>
      cases leaf <;> cases flag <;> rfl

theorem coerce_of_replaces {type : TypeRef} {literal given : InputValue} {fromVariable : Bool}
    (h : vars.Acyclic) (he : r.EndsPlainly type enums)
    (hr : vars.Replaces enums fromVariable literal given) :
    (r.coerce vars type literal fromVariable).mapError FieldError.kind =
      (r.coerce [] type given false).mapError FieldError.kind := by
  obtain ⟨found, flag, hf, hfound⟩ := hr.exists_follow h
  have hvar := vars.isVar_follow literal fromVariable
  rw [hf] at hvar
  have hgiven := InputValue.isVar_of_references hr.references_eq_nil
  have hg := Variables.follow_of_not_isVar hgiven [] false
  -- What the literal stands for and its replacement have one form, so both go the same way.
  rcases hfound.shape hvar with ⟨rfl, rfl⟩ | ⟨hn, hn', hlists⟩
  · rw [coerce_null hf, coerce_null hg]
  · cases type with
    | named name =>
      rw [coerce_named name hf hn, coerce_named name hg hn']
      exact coerceNamed_replaced he hfound hvar
    | nonNull inner =>
      rw [coerce_nonNull inner hf hn, coerce_nonNull inner hg hn']
      exact coerce_of_replaces h he.nonNull hfound
    | list item =>
      rcases hlists with ⟨items, givens, rfl, rfl, hitems⟩ | ⟨hl, hl'⟩
      · have hagree := hitems.imp fun _ _ hr => coerce_of_replaces h he.list hr
        rw [coerce_items item hf, coerce_items item hg, mapError_map, mapError_map,
          mapM_mapError_congr hagree]
      · rw [coerce_single item hf hn hl, coerce_single item hg hn' hl', mapError_map,
          mapError_map, coerce_of_replaces h he.list hfound]

/-- **Variables and literals agree.** Where no variable leads back to itself and the type ends in a
built-in scalar or an enum, there is exactly one literal that a literal is replaced by; it mentions
no variable, and without variables it is coerced to the same value or fails for a reason of the
same kind. -/
theorem coerce_replaced (h : vars.Acyclic) (he : r.EndsPlainly type enums) (literal : InputValue)
    (fromVariable : Bool) :
    ∃ given, (∀ other, vars.Replaces enums fromVariable literal other ↔ other = given) ∧
      given.references = [] ∧
      ((∃ v, r.coerce vars type literal fromVariable = .ok v ∧
          r.coerce [] type given false = .ok v) ∨
        ∃ e e', r.coerce vars type literal fromVariable = .error e ∧
          r.coerce [] type given false = .error e' ∧ e.kind = e'.kind) := by
  have hbound : ∀ name ∈ literal.references, vars.rank name ≤ vars.length :=
    fun name _ => vars.rank_le_length name
  obtain ⟨given, hr⟩ := h.exists_replaces enums vars.length literal fromVariable hbound
  refine ⟨given, ?_, hr.references_eq_nil, agree_of_mapError_eq (coerce_of_replaces h he hr)⟩
  intro other
  constructor
  · intro hother
    exact hother.unique hr
  · rintro rfl
    exact hr

end Registry

namespace Ranking

/-- The best rank is given by way of another variable. -/
def chained : Variables :=
  [("best", .var "name"), ("name", .scalar (.string "TOP"))]

def pair : InputValue :=
  .list [.var "best", .enum "LAST"]

theorem acyclic_chained : chained.Acyclic := by
  refine Variables.acyclic_of_decreasing (fun name => if name = "best" then 1 else 0) ?_
  rintro name name' ⟨v, hv, hm⟩
  have hentry := Keyed.mem_of_get?_eq_some hv
  simp only [chained, List.mem_cons, List.not_mem_nil, or_false, Prod.mk.injEq] at hentry
  rcases hentry with ⟨rfl, rfl⟩ | ⟨rfl, rfl⟩
  · obtain rfl := List.mem_singleton.1 hm
    decide
  · cases hm

theorem replaces_pair :
    chained.Replaces true false pair (.list [.enum "TOP", .enum "LAST"]) := by
  refine .list rfl ?_
  intro item given hm
  simp only [List.zip_cons_cons, List.zip_nil_left, List.mem_cons, List.not_mem_nil, or_false,
    Prod.mk.injEq] at hm
  rcases hm with ⟨rfl, rfl⟩ | ⟨rfl, rfl⟩
  · exact .value (v := .var "name") rfl (.value (v := .scalar (.string "TOP")) rfl (.scalar _))
  · exact .enum _

/-- With its variable replaced, which is a string, the pair names two enum values. -/
theorem coerce_replaced_sample :
    chained.Acyclic ∧ schema.registry.EndsPlainly ranks true ∧
      schema.registry.coerce [] ranks (.list [.enum "TOP", .enum "LAST"]) false =
        .ok (.list [.int 1, .int 9]) ∧
      schema.registry.coerce chained ranks pair false = .ok (.list [.int 1, .int 9]) := by
  have hends : schema.registry.EndsPlainly ranks true := .enum (e := rank) rfl
  obtain ⟨given, hgiven, -, hagree⟩ :=
    Registry.coerce_replaced acyclic_chained hends pair false
  obtain rfl := (hgiven _).1 replaces_pair
  have hc : schema.registry.coerce [] ranks (.list [.enum "TOP", .enum "LAST"]) false =
      .ok (.list [.int 1, .int 9]) := rfl
  refine ⟨acyclic_chained, hends, hc, ?_⟩
  rcases hagree with ⟨v, hv, hv'⟩ | ⟨e, e', -, he', -⟩
  · rw [hv, ← hv', hc]
  · rw [hc] at he'
    cases he'

end Ranking

end GraphQL
