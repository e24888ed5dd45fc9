import GraphQL.Proofs.Calls
import GraphQL.Proofs.InterfaceCalls

/-!
# Defaults never fail

The rules of schemas let a default stand only if it has no variables and can be coerced to its type.
So it comes to the same value in every call, whatever the variables are, and a call that leaves its
argument out never fails for that argument (`Schema.coerceArguments_default`).
-/

namespace GraphQL

/-- No value is given for the argument: it is left out, or bound to a variable without a value. -/
def Argument.Omitted (arg : Argument) (provided : Keyed InputValue) (vars : Variables) : Prop :=
  Keyed.get? provided arg.name = none ∨
    ∃ name, Keyed.get? provided arg.name = some (.var name) ∧ Keyed.get? vars name = none

namespace Registry

variable {σ : Type} {r : Registry σ} {field : Field σ} {provided : Keyed InputValue}
  {vars : Variables} {arg : Argument} {default : InputValue} {v : Value} {error : FieldError}
  {name : String}

theorem givenLiteral?_eq_none_of_omitted (h : arg.Omitted provided vars) :
    givenLiteral? provided vars arg.name = none := by
  rcases h with hnone | ⟨name, hvar, hnone⟩
  · rw [givenLiteral?, hnone]
  · rw [givenLiteral?, hvar]
    dsimp only
    rw [hnone, Option.map_none]

/-- A default stands for the same value in every call. -/
theorem ValidDefault.exists_coerce (h : r.ValidDefault arg.type default) :
    ∃ v, ∀ vars, r.coerce vars arg.type default false = .ok v := by
  obtain ⟨v, hv⟩ := h.coerces
  refine ⟨v, ?_⟩
  intro vars
  rw [coerce_of_references h.constant vars [], hv]

/-- An argument that is left out has the value of its default. -/
theorem coerceArgument_of_omitted (hd : arg.default? = some default)
    (hv : r.coerce vars arg.type default false = .ok v) (h : arg.Omitted provided vars) :
    r.coerceArgument field provided vars arg = .ok (some v) := by
  refine coerceArgument_eq_some_iff.2 ⟨(default, false), ?_, hv⟩
  rw [Argument.literal?, givenLiteral?_eq_none_of_omitted h, hd]
  rfl

/-- No error is about a declared argument that can be coerced. -/
theorem Blames.ne_name (h : r.Blames field provided vars error name) (hf : r.ValidArguments field)
    (harg : arg ∈ field.arguments) {v? : Option Value}
    (hv : r.coerceArgument field provided vars arg = .ok v?) : name ≠ arg.name := by
  cases h with
  | undeclared h =>
    rintro rfl
    have hnone := List.find?_some h
    simp [argument?_of_mem hf harg] at hnone
  | @declared before blamed after _ _ hargs _ he =>
    intro hname
    have hblamed : blamed ∈ field.arguments := by
      rw [hargs]
      exact List.mem_append_right _ List.mem_cons_self
    obtain rfl := List.inj_on_of_nodup_map hf.nodup hblamed harg hname
    rw [hv] at he
    cases he

end Registry

namespace Schema

variable {σ : Type} {s : Schema σ}

/-- **A default never fails and always comes to the same value.** It can be coerced as it could when
the schema was checked, whatever the variables are. If a call leaves its argument out, or binds it
to a variable without a value, then an error of the call is about another argument, and without an
error the argument has that value. -/
theorem coerceArguments_default {name : String} {t : TypeDef σ}
    (ht : s.registry.get? name = some t) {fields : List (Field σ)}
    (hfields : t.fields? = some fields) {field : Field σ} (hf : field ∈ fields) {arg : Argument}
    (harg : arg ∈ field.arguments) {default : InputValue} (hd : arg.default? = some default) :
    ∃ v, s.registry.coerce [] arg.type default false = .ok v ∧
      (∀ vars, s.registry.coerce vars arg.type default false = .ok v) ∧
      ∀ provided vars, arg.Omitted provided vars →
        (∀ error, s.registry.coerceArguments field provided vars = .error error →
          (∃ blamed, s.registry.Blames field provided vars error blamed) ∧
            ∀ blamed, s.registry.Blames field provided vars error blamed → blamed ≠ arg.name) ∧
        ∀ values, s.registry.coerceArguments field provided vars = .ok values →
          Keyed.get? values arg.name = some v := by
  have hvalid := s.validArguments ht hfields hf
  obtain ⟨v, hv⟩ := (hvalid.defaults arg harg default hd).exists_coerce
  refine ⟨v, hv [], hv, ?_⟩
  intro provided vars homitted
  have hcoerced : s.registry.coerceArgument field provided vars arg = .ok (some v) :=
    Registry.coerceArgument_of_omitted hd (hv vars) homitted
  refine ⟨?_, ?_⟩
  · intro error herror
    refine ⟨Registry.coerceArguments_eq_error_iff.1 herror, ?_⟩
    intro blamed hblamed
    exact hblamed.ne_name hvalid harg hcoerced
  · intro values hvalues
    exact (Registry.coerced_of_coerceArguments hvalues).get?_name hvalid.nodup harg hcoerced

end Schema

namespace Searching

/-- The limit of a search is 10 unless something else is given. -/
def limit : Argument :=
  ⟨"limit", none, .nonNull (.named "Int"), some (.scalar (.int 10))⟩

/-- Binding the limit to a variable without a value is no error, though the limit may not be `null`;
to give nothing to search for is one, and it is not about the limit. -/
theorem coerceArguments_default_sample :
    schema.registry.get? "Query" = some (.object root) ∧ search ∈ root.fields ∧
      limit ∈ search.arguments ∧ limit.default? = some (.scalar (.int 10)) ∧
      (∃ values, schema.registry.coerceArguments search
          [("terms", .scalar (.string "a")), ("limit", .var "l")] [("o", .null)] = .ok values ∧
        Keyed.get? values "limit" = some (.int 10)) ∧
      ∃ error blamed, schema.registry.coerceArguments search [("limit", .var "l")] [] =
          .error error ∧
        schema.registry.Blames search [("limit", .var "l")] [] error blamed ∧
          blamed ≠ "limit" := by
  have hget : schema.registry.get? "Query" = some (.object root) := rfl
  have hsearch : search ∈ root.fields := .head _
  have hlimit : limit ∈ search.arguments := .tail _ (.head _)
  have hdefault : limit.default? = some (.scalar (.int 10)) := rfl
  obtain ⟨v, hv, -, hcalls⟩ :=
    Schema.coerceArguments_default hget rfl hsearch hlimit hdefault
  obtain rfl : Value.int 10 = v := Except.ok.inj hv
  have htaken := hcalls [("terms", .scalar (.string "a")), ("limit", .var "l")] [("o", .null)]
    (.inr ⟨"l", rfl, rfl⟩)
  have hrefused := hcalls [("limit", .var "l")] [] (.inr ⟨"l", rfl, rfl⟩)
  have hmissing : schema.registry.coerceArguments search [("limit", .var "l")] [] =
      .error (.ofFault (.missingArgument "search" "terms"
        (.nonNull (.list (.nonNull (.named "String")))))) := rfl
  obtain ⟨⟨blamed, hblamed⟩, hne⟩ := hrefused.1 _ hmissing
  refine ⟨hget, hsearch, hlimit, hdefault, ?_, ?_⟩
  · exact ⟨[("terms", .list [.string "a"]), ("limit", .int 10)], rfl, htaken.2 _ rfl⟩
  · exact ⟨_, blamed, hmissing, hblamed, hne blamed hblamed⟩

end Searching

end GraphQL
