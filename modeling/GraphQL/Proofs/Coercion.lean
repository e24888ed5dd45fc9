import GraphQL.Proofs.Lookups
import Mathlib.Data.List.Forall2

/-!
# What literals come to

`Registry.Denotes` says which value a literal stands for at a type: `null` where the type allows it,
the items of a list one by one, a single literal as a list of one, and at a named type what the
scalar makes of the literal or what the enum value stands for. Where no leaf type makes `null` of
anything (`Registry.NullFree`), a literal is coerced to what it denotes and fails if it denotes
nothing (`Registry.coerce_eq_ok_iff`); so no value is `null` at a non-null type, at any depth.
-/

namespace GraphQL

namespace InputValue

theorem isVar_of_references {v : InputValue} (h : v.references = []) : v.isVar = false := by
  cases v with
  | var name => simp [references] at h
  | _ => rfl

theorem mem_referencesItems_iff {items : List InputValue} {name : String} :
    name ∈ referencesItems items ↔ ∃ v ∈ items, name ∈ v.references := by
  induction items with
  | nil => simp [referencesItems]
  | cons item rest ih => simp [referencesItems, ih]

theorem referencesItems_eq_nil_iff {items : List InputValue} :
    referencesItems items = [] ↔ ∀ v ∈ items, v.references = [] := by
  induction items with
  | nil => simp [referencesItems]
  | cons item rest ih => simp [referencesItems, ih]

/-- The literal spells the name of an enum value. Variables have no enum literals, so what comes
from one may be a string. -/
def Spells (literal : InputValue) (fromVariable : Bool) (name : String) : Prop :=
  literal = .enum name ∨ (literal = .scalar (.string name) ∧ fromVariable = true)

end InputValue

theorem EnumType.coerce_of_spells {e : EnumType} {literal : InputValue} {fromVariable : Bool}
    {name : String} (h : literal.Spells fromVariable name) {found : EnumValue}
    (hv : e.value? name = some found) : e.coerce literal fromVariable = .ok found.value := by
  rcases h with rfl | ⟨rfl, rfl⟩ <;> simp [coerce, hv]

theorem EnumType.exists_spells_of_coerce {e : EnumType} {literal : InputValue}
    {fromVariable : Bool} {v : Value} (h : e.coerce literal fromVariable = .ok v) :
    ∃ name found, literal.Spells fromVariable name ∧ e.value? name = some found ∧
      v = found.value := by
  have named : ∀ name, e.coerce (.enum name) false = .ok v →
      ∃ found, e.value? name = some found ∧ v = found.value := by
    intro name h
    unfold coerce at h
    dsimp only at h
    split at h
    · next found hv => exact ⟨found, hv, (Except.ok.inj h).symm⟩
    · nomatch h
  cases literal with
  | enum name =>
    obtain ⟨found, hv⟩ := named name h
    exact ⟨name, found, .inl rfl, hv⟩
  | scalar s =>
    cases s with
    | string name =>
      cases fromVariable with
      | true =>
        obtain ⟨found, hv⟩ := named name h
        exact ⟨name, found, .inr ⟨rfl, rfl⟩, hv⟩
      | false => nomatch h
    | _ => nomatch h
  | _ => nomatch h

namespace Variables

variable {vars : Variables} {literal given : InputValue} {fromVariable flag : Bool}

/-- What is no variable stands for itself. -/
theorem follow_of_not_isVar (h : literal.isVar = false) (vars : Variables)
    (fromVariable : Bool) : vars.follow literal fromVariable = (literal, fromVariable) := by
  unfold follow
  cases literal with
  | var name => nomatch h
  | _ => cases vars.length <;> rfl

/-- Following what a literal stands for leads no further. -/
theorem follow_follow (h : vars.follow literal fromVariable = (given, flag)) :
    vars.follow given flag = (given, flag) := by
  have hvar := vars.isVar_follow literal fromVariable
  rw [h] at hvar
  exact follow_of_not_isVar hvar vars flag

end Variables

theorem mapM_eq_ok_iff {α β : Type} {f : α → Except FieldError β} {xs : List α} {ys : List β} :
    xs.mapM f = .ok ys ↔ List.Forall₂ (fun x y => f x = .ok y) xs ys := by
  induction xs generalizing ys with
  | nil => cases ys <;> simp [pure, Except.pure]
  | cons x rest ih =>
    rw [List.mapM_cons]
    cases hx : f x with
    | error e => cases ys <;> simp [bind, Except.bind, hx]
    | ok y =>
      cases hrest : rest.mapM f with
      | error e => cases ys <;> simp [bind, Except.bind, hx, ← ih, hrest]
      | ok rest' => cases ys <;> simp [bind, Except.bind, pure, Except.pure, hx, ← ih, hrest]

/-- What is mapped is what comes out. -/
theorem map_eq_ok_iff {α β : Type} {f : α → β} {x : Except FieldError α} {b : β} :
    x.map f = .ok b ↔ ∃ a, x = .ok a ∧ f a = b := by
  cases x <;> simp [Except.map]

namespace Registry

variable {σ : Type}

/-! ## What a literal denotes -/

/-- No leaf type makes `null` of a literal. -/
structure NullFree (r : Registry σ) : Prop where
  scalar : ∀ name s, r.get? name = some (.scalar s) → ∀ literal, s.parse literal ≠ .ok .null
  enum : ∀ name e, r.get? name = some (.enum e) → ∀ candidate ∈ e.values, candidate.value ≠ .null

/-- The value that a literal stands for at a type. Variables are looked through wherever a literal
may stand. -/
inductive Denotes (r : Registry σ) (vars : Variables) : TypeRef → InputValue → Bool → Value → Prop
  | nonNull {inner literal fromVariable given flag v}
    (hf : vars.follow literal fromVariable = (given, flag)) (hn : given ≠ .null) (hv : v ≠ .null)
    (h : Denotes r vars inner given flag v) :
    Denotes r vars (.nonNull inner) literal fromVariable v
  | null {type literal fromVariable flag} (ht : type.isNonNull = false)
    (hf : vars.follow literal fromVariable = (.null, flag)) :
    Denotes r vars type literal fromVariable .null
  | list {item literal fromVariable items flag vs}
    (hf : vars.follow literal fromVariable = (.list items, flag)) (hl : items.length = vs.length)
    (h : ∀ given v, (given, v) ∈ items.zip vs → Denotes r vars item given flag v) :
    Denotes r vars (.list item) literal fromVariable (.list vs)
  | single {item literal fromVariable given flag v}
    (hf : vars.follow literal fromVariable = (given, flag)) (hn : given ≠ .null)
    (hl : ∀ items, given ≠ .list items) (h : Denotes r vars item given flag v) :
    Denotes r vars (.list item) literal fromVariable (.list [v])
  | scalar {name literal fromVariable given flag s v}
    (hf : vars.follow literal fromVariable = (given, flag)) (hn : given ≠ .null)
    (hs : r.get? name = some (.scalar s)) (hp : s.parse given = .ok v) :
    Denotes r vars (.named name) literal fromVariable v
  | enum {name literal fromVariable given flag e key found}
    (hf : vars.follow literal fromVariable = (given, flag)) (hn : given ≠ .null)
    (he : r.get? name = some (.enum e)) (hk : given.Spells flag key)
    (hv : e.value? key = some found) :
    Denotes r vars (.named name) literal fromVariable found.value

variable {r : Registry σ} {vars : Variables} {type : TypeRef} {literal given : InputValue}
  {fromVariable flag : Bool} {v : Value}

/-! ## Coercion by what the literal stands for -/

theorem coerce_of_follow (hf : vars.follow literal fromVariable = (given, flag)) :
    r.coerce vars type literal fromVariable = r.coerce vars type given flag := by
  cases type <;> rw [coerce, coerce, hf, Variables.follow_follow hf]

theorem coerce_null (hf : vars.follow literal fromVariable = (.null, flag)) :
    r.coerce vars type literal fromVariable =
      if type.isNonNull then .error (.ofFault (.nullArgument type)) else .ok .null := by
  cases type <;> simp [coerce, hf, TypeRef.isNonNull]

theorem coerce_nonNull (inner : TypeRef) (hf : vars.follow literal fromVariable = (given, flag))
    (hn : given ≠ .null) :
    r.coerce vars (.nonNull inner) literal fromVariable = r.coerce vars inner given flag := by
  rw [coerce, hf]
  cases given with
  | null => exact absurd rfl hn
  | _ => rfl

theorem coerce_items (item : TypeRef) {items : List InputValue}
    (hf : vars.follow literal fromVariable = (.list items, flag)) :
    r.coerce vars (.list item) literal fromVariable =
      (items.mapM fun literal => r.coerce vars item literal flag).map .list := by
  rw [coerce, hf]

theorem coerce_single (item : TypeRef) (hf : vars.follow literal fromVariable = (given, flag))
    (hn : given ≠ .null) (hl : ∀ items, given ≠ .list items) :
    r.coerce vars (.list item) literal fromVariable =
      (r.coerce vars item given flag).map fun v => .list [v] := by
  rw [coerce, hf]
  cases given with
  | null => exact absurd rfl hn
  | list items => exact absurd rfl (hl items)
  | _ => rfl

theorem coerce_named (name : String) (hf : vars.follow literal fromVariable = (given, flag))
    (hn : given ≠ .null) :
    r.coerce vars (.named name) literal fromVariable = r.coerceNamed name given flag := by
  rw [coerce, hf]
  cases given with
  | null => exact absurd rfl hn
  | _ => rfl

/-- A literal without variables is coerced to the same whatever the variables are. -/
theorem coerce_of_references (h : literal.references = []) (vars vars' : Variables)
    (type : TypeRef) (fromVariable : Bool) :
    r.coerce vars type literal fromVariable = r.coerce vars' type literal fromVariable := by
  induction type generalizing literal fromVariable with
  | named name =>
    have hvar := InputValue.isVar_of_references h
    have hf := Variables.follow_of_not_isVar hvar vars fromVariable
    have hf' := Variables.follow_of_not_isVar hvar vars' fromVariable
    rw [coerce, coerce, hf, hf']
  | nonNull inner ih =>
    have hvar := InputValue.isVar_of_references h
    have hf := Variables.follow_of_not_isVar hvar vars fromVariable
    have hf' := Variables.follow_of_not_isVar hvar vars' fromVariable
    by_cases hn : literal = .null
    · subst hn
      rw [coerce_null hf, coerce_null hf']
    · rw [coerce_nonNull inner hf hn, coerce_nonNull inner hf' hn, ih h]
  | list item ih =>
    have hvar := InputValue.isVar_of_references h
    have hf := Variables.follow_of_not_isVar hvar vars fromVariable
    have hf' := Variables.follow_of_not_isVar hvar vars' fromVariable
    by_cases hn : literal = .null
    · subst hn
      rw [coerce_null hf, coerce_null hf']
    · by_cases hl : ∃ items, literal = .list items
      · obtain ⟨items, rfl⟩ := hl
        rw [coerce_items item hf, coerce_items item hf']
        refine congrArg (Except.map Value.list) (mapM_congr ?_)
        intro v hv
        exact ih (InputValue.referencesItems_eq_nil_iff.1 h _ hv) fromVariable
      · have hl := not_exists.1 hl
        rw [coerce_single item hf hn hl, coerce_single item hf' hn hl, ih h]

/-! ## What is coerced is what is denoted -/

theorem coerceNamed_eq_ok {name : String} (h : r.coerceNamed name given flag = .ok v) :
    (∃ s, r.get? name = some (.scalar s) ∧ s.parse given = .ok v) ∨
    ∃ e, r.get? name = some (.enum e) ∧ e.coerce given flag = .ok v := by
  unfold coerceNamed at h
  split at h
  · next s hs =>
    left
    refine ⟨s, hs, ?_⟩
    cases hp : s.parse given with
    | ok w =>
      rw [hp] at h
      exact h
    | error e =>
      rw [hp] at h
      cases h
  · next e he => exact .inr ⟨e, he, h⟩
  · nomatch h
  · nomatch h

/-- The built-in scalars make `null` of nothing. -/
theorem parse_ne_null_of_mem_builtins {s : ScalarType} (h : s ∈ ScalarType.builtins)
    (literal : InputValue) : s.parse literal ≠ .ok .null := by
  simp only [ScalarType.builtins, List.mem_cons, List.not_mem_nil, or_false] at h
  rcases h with rfl | rfl | rfl | rfl | rfl <;> cases literal with
  | scalar leaf => cases leaf <;> nofun
  | _ => nofun

/-- Only scalars of a schema's own and enums may make `null` of a literal. -/
theorem nullFree_of_declared
    (hs : ∀ s, TypeDef.scalar s ∈ r.declared → ∀ literal, s.parse literal ≠ .ok .null)
    (he : ∀ e, TypeDef.enum e ∈ r.declared → ∀ candidate ∈ e.values, candidate.value ≠ .null) :
    r.NullFree := by
  constructor
  · intro name s hg literal
    rcases List.mem_append.1 (mem_types_of_get? hg) with hb | hd
    · obtain ⟨s', hs', heq⟩ := List.mem_map.1 hb
      exact TypeDef.scalar.inj heq ▸ parse_ne_null_of_mem_builtins hs' literal
    · exact hs s hd literal
  · intro name e hg
    rcases List.mem_append.1 (mem_types_of_get? hg) with hb | hd
    · obtain ⟨s', -, heq⟩ := List.mem_map.1 hb
      nomatch heq
    · exact he e hd

theorem NullFree.ne_null_of_coerceNamed (h : r.NullFree) {name : String}
    (hc : r.coerceNamed name given flag = .ok v) : v ≠ .null := by
  rcases coerceNamed_eq_ok hc with ⟨s, hs, hp⟩ | ⟨e, he, hc⟩
  · rintro rfl
    exact h.scalar name s hs given hp
  · obtain ⟨key, found, -, hv, rfl⟩ := EnumType.exists_spells_of_coerce hc
    exact h.enum name e he found (List.mem_of_find?_eq_some hv)

/-- Only `null` is coerced to `null`. -/
theorem NullFree.ne_null_of_coerce (h : r.NullFree) (hg : given ≠ .null)
    (hf : vars.follow literal fromVariable = (given, flag))
    (hc : r.coerce vars type literal fromVariable = .ok v) : v ≠ .null := by
  induction type generalizing literal fromVariable with
  | named name =>
    rw [coerce_named name hf hg] at hc
    exact h.ne_null_of_coerceNamed hc
  | nonNull inner ih =>
    rw [coerce_nonNull inner hf hg] at hc
    exact ih (Variables.follow_follow hf) hc
  | list item =>
    by_cases hl : ∃ items, given = .list items
    · obtain ⟨items, rfl⟩ := hl
      rw [coerce_items item hf] at hc
      obtain ⟨vs, -, rfl⟩ := map_eq_ok_iff.1 hc
      nofun
    · rw [coerce_single item hf hg (not_exists.1 hl)] at hc
      obtain ⟨w, -, rfl⟩ := map_eq_ok_iff.1 hc
      nofun

theorem denotes_of_coerce (h : r.NullFree)
    (hc : r.coerce vars type literal fromVariable = .ok v) :
    r.Denotes vars type literal fromVariable v := by
  induction type generalizing literal fromVariable v with
  | named name =>
    cases hf : vars.follow literal fromVariable with
    | mk given flag =>
      by_cases hn : given = .null
      · subst hn
        rw [coerce_null hf] at hc
        obtain rfl := Except.ok.inj hc
        exact .null rfl hf
      · rw [coerce_named name hf hn] at hc
        rcases coerceNamed_eq_ok hc with ⟨s, hs, hp⟩ | ⟨e, he, hc⟩
        · exact .scalar hf hn hs hp
        · obtain ⟨key, found, hk, hv, rfl⟩ := EnumType.exists_spells_of_coerce hc
          exact .enum hf hn he hk hv
  | nonNull inner ih =>
    cases hf : vars.follow literal fromVariable with
    | mk given flag =>
      by_cases hn : given = .null
      · subst hn
        rw [coerce_null hf] at hc
        nomatch hc
      · rw [coerce_nonNull inner hf hn] at hc
        have hv := h.ne_null_of_coerce hn (Variables.follow_follow hf) hc
        exact .nonNull hf hn hv (ih hc)
  | list item ih =>
    cases hf : vars.follow literal fromVariable with
    | mk given flag =>
      by_cases hn : given = .null
      · subst hn
        rw [coerce_null hf] at hc
        obtain rfl := Except.ok.inj hc
        exact .null rfl hf
      · by_cases hl : ∃ items, given = .list items
        · obtain ⟨items, rfl⟩ := hl
          rw [coerce_items item hf] at hc
          obtain ⟨vs, hm, rfl⟩ := map_eq_ok_iff.1 hc
          obtain ⟨hlength, hzip⟩ := List.forall₂_iff_zip.1 (mapM_eq_ok_iff.1 hm)
          exact .list hf hlength fun given v hg => ih (hzip hg)
        · have hl := not_exists.1 hl
          rw [coerce_single item hf hn hl] at hc
          obtain ⟨w, hw, rfl⟩ := map_eq_ok_iff.1 hc
          exact .single hf hn hl (ih hw)

theorem coerce_of_denotes (h : r.Denotes vars type literal fromVariable v) :
    r.coerce vars type literal fromVariable = .ok v := by
  induction h with
  | nonNull hf hn _ _ ih => rw [coerce_nonNull _ hf hn, ih]
  | null ht hf => simp [coerce_null hf, ht]
  | list hf hl _ ih =>
    rw [coerce_items _ hf]
    refine map_eq_ok_iff.2 ⟨_, mapM_eq_ok_iff.2 (List.forall₂_iff_zip.2 ⟨hl, ?_⟩), rfl⟩
    intro given v hg
    exact ih given v hg
  | single hf hn hl _ ih => rw [coerce_single _ hf hn hl, ih, Except.map]
  | scalar hf hn hs hp => simp [coerce_named _ hf hn, coerceNamed, hs, hp, Except.mapError]
  | enum hf hn he hk hv =>
    simp [coerce_named _ hf hn, coerceNamed, he, EnumType.coerce_of_spells hk hv]

/-- **A literal is coerced to what it denotes.** -/
theorem coerce_eq_ok_iff (h : r.NullFree) :
    r.coerce vars type literal fromVariable = .ok v ↔
      r.Denotes vars type literal fromVariable v :=
  ⟨denotes_of_coerce h, coerce_of_denotes⟩

end Registry

end GraphQL
