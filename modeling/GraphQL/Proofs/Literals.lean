import GraphQL.Proofs.Arguments
import GraphQL.Script.Conversions

/-!
# What scalars are given to parse

Coercing the arguments of a call hands literals to named types (`Field.Hands`); what a scalar parses
are these literals and no others (`Registry.coerceArguments_parses`). None of them is a variable:
variables are looked through wherever a literal may stand. But lists are taken apart only as far as
the type of the argument is one of lists, and what a scalar is given beyond that is the list as it
stands in the request, with the variables inside it. So scalars see variables if a request has
variables inside lists, and else none.
-/

namespace GraphQL

namespace InputValue

/-- No variable stands inside a list: the literal is a variable itself, or it has none. -/
def Unmixed (literal : InputValue) : Prop :=
  literal.isVar = true ∨ literal.references = []

theorem exists_list_of_references {literal : InputValue} (hv : literal.isVar = false)
    (h : literal.references ≠ []) : ∃ items, literal = .list items := by
  cases literal with
  | list items => exact ⟨items, rfl⟩
  | var name => cases hv
  | _ => exact absurd rfl h

end InputValue

namespace Variables

variable {vars : Variables} {type : TypeRef} {literal given : InputValue} {fromVariable flag : Bool}
  {name : String}

theorem references_followFor (hvars : ∀ key v, Keyed.get? vars key = some v → v.Unmixed)
    (steps : Nat) (fromVariable : Bool) (h : literal.Unmixed) :
    (vars.followFor steps literal fromVariable).1.references = [] := by
  induction steps generalizing literal fromVariable with
  | zero =>
    cases literal with
    | var name => rfl
    | _ => exact h.resolve_left Bool.false_ne_true
  | succ n ih =>
    cases literal with
    | var name =>
      rw [followFor]
      split
      · next v hget => exact ih true (hvars name v hget)
      · rfl
    | _ => exact h.resolve_left Bool.false_ne_true

/-- What stands behind a literal has no variables if no variable stands inside a list. -/
theorem references_of_follow (hvars : ∀ key v, Keyed.get? vars key = some v → v.Unmixed)
    (h : literal.Unmixed) (hf : vars.follow literal fromVariable = (given, flag)) :
    given.references = [] := by
  have hr := references_followFor hvars vars.length fromVariable h
  rw [follow] at hf
  rwa [hf] at hr

namespace Hands

/-- Variables and `null` are handed to no type. -/
theorem isVar_and_ne_null (h : vars.Hands type literal fromVariable name given flag) :
    given.isVar = false ∧ given ≠ .null := by
  induction h with
  | nonNull _ _ _ ih => exact ih
  | item _ _ _ ih => exact ih
  | single _ _ _ _ ih => exact ih
  | @named name literal flag given flag' hf hn =>
    have hvar := vars.isVar_follow literal flag
    rw [hf] at hvar
    exact ⟨hvar, hn⟩

/-- Where no variable stands inside a list, every literal is handed on without variables. -/
theorem references_eq_nil (hvars : ∀ key v, Keyed.get? vars key = some v → v.Unmixed)
    (h : vars.Hands type literal fromVariable name given flag) (hl : literal.Unmixed) :
    given.references = [] := by
  induction h with
  | nonNull hf _ _ ih => exact ih (.inr (references_of_follow hvars hl hf))
  | item hf hi _ ih =>
    have hitems := references_of_follow hvars hl hf
    exact ih (.inr (InputValue.referencesItems_eq_nil_iff.1 hitems _ hi))
  | single hf _ _ _ ih => exact ih (.inr (references_of_follow hvars hl hf))
  | named hf _ => exact references_of_follow hvars hl hf

end Hands

end Variables

namespace Field

variable {σ : Type} {field : Field σ} {provided : Keyed InputValue} {vars : Variables}
  {given : InputValue} {flag : Bool} {name : String} {arg : Argument}

/-- Coercing the arguments of a call hands the literal to the named type. -/
def Hands (field : Field σ) (provided : Keyed InputValue) (vars : Variables) (name : String)
    (given : InputValue) (flag : Bool) : Prop :=
  ∃ arg ∈ field.arguments, ∃ literal fromVariable,
    arg.literal? provided vars = some (literal, fromVariable) ∧
      vars.Hands arg.type literal fromVariable name given flag

/-- No variable stands inside a list of the request, of the values of variables or of a default. -/
structure Unmixed (field : Field σ) (provided : Keyed InputValue) (vars : Variables) : Prop where
  provided : ∀ name literal, Keyed.get? provided name = some literal → literal.Unmixed
  vars : ∀ name literal, Keyed.get? vars name = some literal → literal.Unmixed
  defaults : ∀ arg ∈ field.arguments, ∀ literal, arg.default? = some literal → literal.Unmixed

namespace Unmixed

theorem of_literal? {literal : InputValue} {fromVariable : Bool} (h : field.Unmixed provided vars)
    (harg : arg ∈ field.arguments)
    (hl : arg.literal? provided vars = some (literal, fromVariable)) : literal.Unmixed := by
  rcases Option.or_eq_some_iff.1 hl with hg | ⟨-, hd⟩
  · unfold Registry.givenLiteral? at hg
    split at hg
    · obtain ⟨found, hfound, heq⟩ := Option.map_eq_some_iff.1 hg
      cases heq
      exact h.vars _ _ hfound
    · next found _ hfound =>
      cases hg
      exact h.provided _ _ hfound
    · cases hg
  · obtain ⟨default, hdefault, heq⟩ := Option.map_eq_some_iff.1 hd
    cases heq
    exact h.defaults arg harg _ hdefault

theorem references_eq_nil (h : field.Unmixed provided vars)
    (hg : field.Hands provided vars name given flag) : given.references = [] := by
  obtain ⟨arg, harg, literal, fromVariable, hl, hg⟩ := hg
  have hliteral := h.of_literal? harg hl
  exact hg.references_eq_nil h.vars hliteral

end Unmixed

end Field

namespace Registry

variable {σ : Type} {r r' : Registry σ} {field : Field σ} {provided : Keyed InputValue}
  {vars : Variables} {type : TypeRef} {literal given : InputValue} {fromVariable flag : Bool}
  {name : String} {arg : Argument} {args : List Argument}

/-! ## What is handed on is all that counts -/

theorem coerceArgument_eq_of_hands
    (h : ∀ literal fromVariable, arg.literal? provided vars = some (literal, fromVariable) →
      ∀ name given flag, vars.Hands arg.type literal fromVariable name given flag →
        r.coerceNamed name given flag = r'.coerceNamed name given flag) :
    r.coerceArgument field provided vars arg = r'.coerceArgument field provided vars arg := by
  cases hl : arg.literal? provided vars with
  | none => rw [coerceArgument_of_literal?_eq_none hl, coerceArgument_of_literal?_eq_none hl]
  | some source =>
    have hc := coerce_eq_of_hands (h source.1 source.2 hl)
    rw [coerceArgument_of_literal? hl, coerceArgument_of_literal? hl, hc]

theorem coerceDeclared_congr
    (h : ∀ arg ∈ args,
      r.coerceArgument field provided vars arg = r'.coerceArgument field provided vars arg) :
    r.coerceDeclared field provided vars args = r'.coerceDeclared field provided vars args := by
  induction args with
  | nil => rfl
  | cons arg rest ih =>
    have harg := h arg List.mem_cons_self
    have hrest := ih fun arg harg => h arg (List.mem_cons_of_mem _ harg)
    rw [coerceDeclared, coerceDeclared, harg, hrest]

/-- Coercion of arguments does nothing with a registry but coerce what it hands to named types. -/
theorem coerceArguments_eq_of_hands
    (h : ∀ name given flag, field.Hands provided vars name given flag →
      r.coerceNamed name given flag = r'.coerceNamed name given flag) :
    r.coerceArguments field provided vars = r'.coerceArguments field provided vars := by
  have hdeclared : r.coerceDeclared field provided vars field.arguments =
      r'.coerceDeclared field provided vars field.arguments := by
    apply coerceDeclared_congr
    intro arg harg
    apply coerceArgument_eq_of_hands
    intro literal fromVariable hl name given flag hg
    exact h name given flag ⟨arg, harg, literal, fromVariable, hl, hg⟩
  rw [coerceArguments, coerceArguments, hdeclared]

/-! ## What is handed on has been taken -/

theorem exists_ok_of_mapM {α β : Type} {f : α → Except FieldError β} {xs : List α} {ys : List β}
    (h : xs.mapM f = .ok ys) {x : α} (hx : x ∈ xs) : ∃ y, f x = .ok y := by
  obtain ⟨hlength, hzip⟩ := List.forall₂_iff_zip.1 (mapM_eq_ok_iff.1 h)
  obtain ⟨i, hi, rfl⟩ := List.getElem_of_mem hx
  have hmem : (xs[i], ys[i]) ∈ xs.zip ys := by
    rw [← List.getElem_zip (h := by simp; omega)]
    exact List.getElem_mem _
  exact ⟨ys[i], hzip hmem⟩

/-- Where a literal is coerced, so is all that it hands on. -/
theorem exists_coerceNamed_of_hands (h : vars.Hands type literal fromVariable name given flag)
    {v : Value} (hc : r.coerce vars type literal fromVariable = .ok v) :
    ∃ w, r.coerceNamed name given flag = .ok w := by
  induction h generalizing v with
  | nonNull hf hn _ ih =>
    rw [coerce_nonNull _ hf hn] at hc
    exact ih hc
  | item hf hi _ ih =>
    rw [coerce_items _ hf] at hc
    obtain ⟨vs, hm, -⟩ := map_eq_ok_iff.1 hc
    obtain ⟨w, hw⟩ := exists_ok_of_mapM hm hi
    exact ih hw
  | single hf hn hl _ ih =>
    rw [coerce_single _ hf hn hl] at hc
    obtain ⟨w, hw, -⟩ := map_eq_ok_iff.1 hc
    exact ih hw
  | named hf hn =>
    rw [coerce_named _ hf hn] at hc
    exact ⟨v, hc⟩

theorem exists_coerceNamed_of_field_hands (h : field.Hands provided vars name given flag)
    {values : Arguments} (hc : r.coerceArguments field provided vars = .ok values) :
    ∃ w, r.coerceNamed name given flag = .ok w := by
  obtain ⟨arg, harg, literal, fromVariable, hl, hg⟩ := h
  obtain ⟨v?, hv⟩ := (coerced_of_coerceArguments hc).exists_ok harg
  rw [coerceArgument_of_literal? hl] at hv
  cases hliteral : r.coerce vars arg.type literal fromVariable with
  | error e =>
    rw [hliteral] at hv
    cases hv
  | ok v => exact exists_coerceNamed_of_hands hg hliteral

/-! ## What scalars are given -/

/-- **Scalars parse what is handed to them, and only lists of it may have variables.** The arguments
of a call depend on what named types make of the literals that are handed to them and on nothing
else of a registry, and a call that is taken has coerced all of them. None is `null` or a variable,
and none that is no list has a variable inside. A list that reaches a named type keeps the variables
inside it; where no variable stands inside a list, no literal that is handed on has any. -/
theorem coerceArguments_parses (r : Registry σ) (field : Field σ) (provided : Keyed InputValue)
    (vars : Variables) :
    (∀ r' : Registry σ, (∀ name given flag, field.Hands provided vars name given flag →
        r.coerceNamed name given flag = r'.coerceNamed name given flag) →
      r.coerceArguments field provided vars = r'.coerceArguments field provided vars) ∧
    (∀ values, r.coerceArguments field provided vars = .ok values →
      ∀ name given flag, field.Hands provided vars name given flag →
        ∃ v, r.coerceNamed name given flag = .ok v) ∧
    (∀ name given flag, field.Hands provided vars name given flag →
      given.isVar = false ∧ given ≠ .null ∧
        (given.references = [] ∨ ∃ items, given = .list items)) ∧
    (field.Unmixed provided vars → ∀ name given flag,
      field.Hands provided vars name given flag → given.references = []) := by
  refine ⟨fun r' => coerceArguments_eq_of_hands, ?_, ?_, ?_⟩
  · intro values hc name given flag hg
    exact exists_coerceNamed_of_field_hands hg hc
  · intro name given flag hg
    obtain ⟨arg, -, literal, fromVariable, -, hg⟩ := hg
    obtain ⟨hvar, hnull⟩ := hg.isVar_and_ne_null
    refine ⟨hvar, hnull, ?_⟩
    by_cases hr : given.references = []
    · exact .inl hr
    · exact .inr (InputValue.exists_list_of_references hvar hr)
  · intro hu name given flag hg
    exact hu.references_eq_nil hg

end Registry

/-! ## A scalar that sees a variable -/

namespace Echoed

/-- A field with an argument of a scalar that takes every literal as it is. -/
def echo : Field Unit :=
  ⟨"echo", none, [⟨"x", none, .named "Any", none⟩], .named "Any", .current, none⟩

def root : ObjectType Unit :=
  ⟨"Query", none, .eager [echo], []⟩

def registry : Registry Unit :=
  ⟨[.scalar (Script.Codec.any.scalarType "Any" none), .object root], by
    change ["String", "Int", "Float", "Boolean", "ID", "Any", "Query"].Nodup
    decide⟩

/-- **A variable inside a list is not replaced by its value before a scalar parses the list.** -/
theorem not_references_of_hands :
    registry.coerceArguments echo [("x", .list [.var "v"])] [("v", .scalar (.int 1))] =
        .ok [("x", .list [.string "$v"])] ∧
      ¬ ∀ (provided : Keyed InputValue) (vars : Variables) (name : String) (given : InputValue)
          (flag : Bool), echo.Hands provided vars name given flag → given.references = [] := by
  refine ⟨rfl, ?_⟩
  intro h
  have hn : InputValue.list [.var "v"] ≠ .null := nofun
  have hhands : Variables.Hands [("v", .scalar (.int 1))] (.named "Any") (.list [.var "v"]) false
      "Any" (.list [.var "v"]) false := .named rfl hn
  have hr := h [("x", .list [.var "v"])] [("v", .scalar (.int 1))] "Any" _ false
    ⟨_, .head _, _, false, rfl, hhands⟩
  simp [InputValue.references, InputValue.referencesItems] at hr

end Echoed

end GraphQL
