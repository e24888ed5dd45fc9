import GraphQL.Proofs.Coercion
import GraphQL.Proofs.Declarations

/-!
# The arguments of a call

At most one literal counts for a declared argument: the one that is given, or else the default
(`Argument.literal?`). An argument without one is absent, and missing if its type is non-null. A
resolver gets the arguments that are not absent, in the order of their declaration
(`Registry.Coerced`). Each argument is coerced by itself, so a call fails by its first argument that
fails (`Registry.coerceDeclared_ok_or_error`), and that is the one that its error is about
(`Registry.Blames`). What a resolver may rely on in the arguments of a call that does not fail is
`Registry.Prepared`.
-/

namespace GraphQL

/-- The literal that counts for an argument, and whether it came from a variable. -/
def Argument.literal? (arg : Argument) (provided : Keyed InputValue) (vars : Variables) :
    Option (InputValue × Bool) :=
  (Registry.givenLiteral? provided vars arg.name).or (arg.default?.map fun default =>
    (default, false))

namespace Registry

variable {σ : Type}

/-- The values of declared arguments, those left out that are absent. -/
inductive Coerced (r : Registry σ) (field : Field σ) (provided : Keyed InputValue)
    (vars : Variables) : List Argument → Arguments → Prop
  | nil : Coerced r field provided vars [] []
  | absent {arg rest values} (h : r.coerceArgument field provided vars arg = .ok none)
    (hr : Coerced r field provided vars rest values) :
    Coerced r field provided vars (arg :: rest) values
  | present {arg rest values v} (h : r.coerceArgument field provided vars arg = .ok (some v))
    (hr : Coerced r field provided vars rest values) :
    Coerced r field provided vars (arg :: rest) ((arg.name, v) :: values)

variable {r : Registry σ} {field : Field σ} {provided : Keyed InputValue} {vars : Variables}
  {arg : Argument} {args : List Argument} {values : Arguments}

/-! ## One argument -/

theorem mem_keys_of_givenLiteral? {name : String} {given : InputValue × Bool}
    (h : givenLiteral? provided vars name = some given) : name ∈ Keyed.keys provided := by
  by_contra hn
  rw [givenLiteral?, Keyed.get?_eq_none_iff.2 hn] at h
  nomatch h

theorem coerceArgument_of_literal? {literal : InputValue} {fromVariable : Bool}
    (h : arg.literal? provided vars = some (literal, fromVariable)) :
    r.coerceArgument field provided vars arg =
      ((r.coerce vars arg.type literal fromVariable).map some).mapError
        (·.inArgument arg.name) := by
  unfold Argument.literal? at h
  unfold coerceArgument
  cases hg : givenLiteral? provided vars arg.name with
  | some given =>
    rw [hg, Option.some_or, Option.some.injEq] at h
    subst h
    rfl
  | none =>
    rw [hg, Option.none_or] at h
    obtain ⟨default, hd, heq⟩ := Option.map_eq_some_iff.1 h
    rw [Prod.mk.injEq] at heq
    obtain ⟨rfl, rfl⟩ := heq
    rw [hd]

theorem coerceArgument_of_literal?_eq_none (h : arg.literal? provided vars = none) :
    r.coerceArgument field provided vars arg =
      if arg.type.isNonNull then
        .error (.ofFault (.missingArgument field.name arg.name arg.type))
      else .ok none := by
  obtain ⟨hg, hd⟩ := Option.or_eq_none_iff.1 h
  rw [Option.map_eq_none_iff] at hd
  rw [coerceArgument, hg, hd]

/-- An argument has the value that its literal is coerced to. -/
theorem coerceArgument_eq_some_iff {v : Value} :
    r.coerceArgument field provided vars arg = .ok (some v) ↔
      ∃ given, arg.literal? provided vars = some given ∧
        r.coerce vars arg.type given.1 given.2 = .ok v := by
  cases hl : arg.literal? provided vars with
  | none =>
    rw [coerceArgument_of_literal?_eq_none hl]
    split <;> simp
  | some given =>
    rw [coerceArgument_of_literal? hl]
    cases hc : r.coerce vars arg.type given.1 given.2 <;>
      simp [Except.map, Except.mapError, hc]

/-- An argument is absent if no literal counts for it and it may be `null`. -/
theorem coerceArgument_eq_none_iff :
    r.coerceArgument field provided vars arg = .ok none ↔
      arg.literal? provided vars = none ∧ arg.type.isNonNull = false := by
  cases hl : arg.literal? provided vars with
  | none =>
    rw [coerceArgument_of_literal?_eq_none hl]
    split <;> simp_all
  | some given =>
    rw [coerceArgument_of_literal? hl]
    cases r.coerce vars arg.type given.1 given.2 <;> simp [Except.map, Except.mapError]

/-! ## All arguments of a field -/

theorem coerced_of_coerceDeclared
    (h : r.coerceDeclared field provided vars args = .ok values) :
    r.Coerced field provided vars args values := by
  induction args generalizing values with
  | nil =>
    obtain rfl := Except.ok.inj h
    exact .nil
  | cons arg rest ih =>
    rw [coerceDeclared] at h
    cases ha : r.coerceArgument field provided vars arg with
    | error e => simp [ha] at h
    | ok v? =>
      cases hr : r.coerceDeclared field provided vars rest with
      | error e => simp [ha, hr] at h
      | ok values' =>
        cases v? with
        | none =>
          simp only [ha, hr, Except.ok.injEq] at h
          exact h ▸ .absent ha (ih hr)
        | some v =>
          simp only [ha, hr, Except.ok.injEq] at h
          exact h ▸ .present ha (ih hr)

/-- If each argument can be coerced or fails in a certain way, so do they all: a call fails in the
way of the first argument that does. -/
theorem coerceDeclared_ok_or_error {Fails : Argument → FieldError → Prop}
    (h : ∀ arg ∈ args, (∃ v?, r.coerceArgument field provided vars arg = .ok v?) ∨
      ∃ e, r.coerceArgument field provided vars arg = .error e ∧ Fails arg e) :
    (∃ values, r.coerceDeclared field provided vars args = .ok values) ∨
      ∃ arg ∈ args, ∃ e, r.coerceDeclared field provided vars args = .error e ∧ Fails arg e := by
  induction args with
  | nil => exact .inl ⟨[], rfl⟩
  | cons arg rest ih =>
    have hrest := ih fun arg harg => h arg (List.mem_cons_of_mem _ harg)
    rcases h arg List.mem_cons_self with ⟨v?, ha⟩ | ⟨e, ha, hf⟩
    · rcases hrest with ⟨values, hr⟩ | ⟨arg', harg, e, hr, hf⟩
      · left
        exact ⟨_, by rw [coerceDeclared, ha, hr]⟩
      · right
        exact ⟨arg', List.mem_cons_of_mem _ harg, e, by rw [coerceDeclared, ha, hr], hf⟩
    · right
      exact ⟨arg, List.mem_cons_self, e, by rw [coerceDeclared, ha], hf⟩

theorem coerceDeclared_cons_eq_error_iff {rest : List Argument} {error : FieldError} :
    r.coerceDeclared field provided vars (arg :: rest) = .error error ↔
      r.coerceArgument field provided vars arg = .error error ∨
        (∃ v?, r.coerceArgument field provided vars arg = .ok v?) ∧
          r.coerceDeclared field provided vars rest = .error error := by
  rw [coerceDeclared]
  cases r.coerceArgument field provided vars arg with
  | error e => simp
  | ok v? => cases r.coerceDeclared field provided vars rest <;> simp

/-- A call fails by its first declared argument that cannot be coerced. -/
theorem coerceDeclared_eq_error_iff {error : FieldError} :
    r.coerceDeclared field provided vars args = .error error ↔
      ∃ before arg after, args = before ++ arg :: after ∧
        (∀ earlier ∈ before, ∃ v?, r.coerceArgument field provided vars earlier = .ok v?) ∧
        r.coerceArgument field provided vars arg = .error error := by
  induction args with
  | nil => simp [coerceDeclared]
  | cons arg rest ih =>
    rw [coerceDeclared_cons_eq_error_iff, ih]
    constructor
    · rintro (ha | ⟨hv, before, found, after, rfl, hbefore, herror⟩)
      · exact ⟨[], arg, rest, rfl, by simp, ha⟩
      · exact ⟨arg :: before, found, after, rfl, List.forall_mem_cons.2 ⟨hv, hbefore⟩, herror⟩
    · rintro ⟨before, found, after, hargs, hbefore, herror⟩
      cases before with
      | nil =>
        obtain ⟨rfl, rfl⟩ := List.cons.inj hargs
        exact .inl herror
      | cons earlier before =>
        obtain ⟨rfl, rfl⟩ := List.cons.inj hargs
        obtain ⟨hv, hbefore⟩ := List.forall_mem_cons.1 hbefore
        exact .inr ⟨hv, before, found, after, rfl, hbefore, herror⟩

theorem coerceArguments_of_declares
    (h : ∀ name ∈ Keyed.keys provided, ∃ arg, field.argument? name = some arg) :
    r.coerceArguments field provided vars =
      r.coerceDeclared field provided vars field.arguments := by
  have hnone : ((Keyed.keys provided).find? fun name => (field.argument? name).isNone) = none := by
    refine List.find?_eq_none.2 ?_
    intro name hn
    obtain ⟨arg, ha⟩ := h name hn
    simp [ha]
  rw [coerceArguments, hnone]

/-- A call that a field takes gives declared arguments only. -/
theorem declares_of_coerceArguments (h : r.coerceArguments field provided vars = .ok values) :
    ∀ name ∈ Keyed.keys provided, ∃ arg, field.argument? name = some arg := by
  intro name hn
  unfold coerceArguments at h
  split at h
  · nomatch h
  · next hnone =>
    have hsome := List.find?_eq_none.1 hnone name hn
    exact Option.ne_none_iff_exists'.1 (by simpa using hsome)

/-- The argument of a call that an error is about: the first one given that the field does not
declare, or else the first declared one that cannot be coerced. -/
inductive Blames (r : Registry σ) (field : Field σ) (provided : Keyed InputValue)
    (vars : Variables) : FieldError → String → Prop
  | undeclared {name}
    (h : ((Keyed.keys provided).find? fun name => (field.argument? name).isNone) = some name) :
    Blames r field provided vars (.ofFault (.unknownArgument name field.name)) name
  | declared {before arg after error}
    (hk : ∀ name ∈ Keyed.keys provided, ∃ arg, field.argument? name = some arg)
    (hargs : field.arguments = before ++ arg :: after)
    (hb : ∀ earlier ∈ before, ∃ v?, r.coerceArgument field provided vars earlier = .ok v?)
    (he : r.coerceArgument field provided vars arg = .error error) :
    Blames r field provided vars error arg.name

/-- A call that fails does so for one of its arguments. -/
theorem coerceArguments_eq_error_iff {error : FieldError} :
    r.coerceArguments field provided vars = .error error ↔
      ∃ name, r.Blames field provided vars error name := by
  constructor
  · intro h
    unfold coerceArguments at h
    split at h
    · next name hname =>
      cases h
      exact ⟨name, .undeclared hname⟩
    · next hnone =>
      obtain ⟨before, arg, after, hargs, hbefore, herror⟩ := coerceDeclared_eq_error_iff.1 h
      refine ⟨arg.name, .declared ?_ hargs hbefore herror⟩
      intro name hn
      have hsome := List.find?_eq_none.1 hnone name hn
      exact Option.ne_none_iff_exists'.1 (by simpa using hsome)
  · rintro ⟨name, h⟩
    cases h with
    | undeclared h => rw [coerceArguments, h]
    | declared hk hargs hb he =>
      rw [coerceArguments_of_declares hk]
      exact coerceDeclared_eq_error_iff.2 ⟨_, _, _, hargs, hb, he⟩

theorem coerced_of_coerceArguments (h : r.coerceArguments field provided vars = .ok values) :
    r.Coerced field provided vars field.arguments values := by
  rw [coerceArguments_of_declares (declares_of_coerceArguments h)] at h
  exact coerced_of_coerceDeclared h

namespace Coerced

/-- Every declared argument has been coerced. -/
theorem exists_ok (h : r.Coerced field provided vars args values) (harg : arg ∈ args) :
    ∃ v?, r.coerceArgument field provided vars arg = .ok v? := by
  induction h with
  | nil => nomatch harg
  | absent ha _ ih =>
    rcases List.mem_cons.1 harg with rfl | harg
    · exact ⟨_, ha⟩
    · exact ih harg
  | present ha _ ih =>
    rcases List.mem_cons.1 harg with rfl | harg
    · exact ⟨_, ha⟩
    · exact ih harg

/-- The arguments stand in the order of their declaration. -/
theorem sublist_keys (h : r.Coerced field provided vars args values) :
    (Keyed.keys values).Sublist (args.map Argument.name) := by
  induction h with
  | nil => exact .slnil
  | absent _ _ ih => exact ih.cons _
  | present _ _ ih => exact ih.cons_cons _

theorem mem_iff (h : r.Coerced field provided vars args values) {name : String} {v : Value} :
    (name, v) ∈ values ↔
      ∃ arg ∈ args, arg.name = name ∧ r.coerceArgument field provided vars arg = .ok (some v) := by
  induction h with
  | nil => simp
  | absent ha _ ih => simp [ih, ha]
  | present ha _ ih =>
    simp only [List.mem_cons, Prod.mk.injEq, ih, exists_eq_or_imp, ha, Except.ok.injEq,
      Option.some.injEq]
    exact or_congr_left ⟨fun ⟨hn, hv⟩ => ⟨hn.symm, hv.symm⟩, fun ⟨hn, hv⟩ => ⟨hn.symm, hv.symm⟩⟩

/-- Where names are distinct, only the argument itself is found under its name. -/
theorem mem_name_iff (h : r.Coerced field provided vars args values)
    (hn : (args.map Argument.name).Nodup) (harg : arg ∈ args) {v : Value} :
    (arg.name, v) ∈ values ↔ r.coerceArgument field provided vars arg = .ok (some v) := by
  rw [h.mem_iff]
  constructor
  · rintro ⟨found, hfound, hname, hv⟩
    rwa [List.inj_on_of_nodup_map hn hfound harg hname] at hv
  · intro hv
    exact ⟨arg, harg, rfl, hv⟩

theorem get?_name (h : r.Coerced field provided vars args values)
    (hn : (args.map Argument.name).Nodup) (harg : arg ∈ args) {v : Value}
    (ha : r.coerceArgument field provided vars arg = .ok (some v)) :
    Keyed.get? values arg.name = some v :=
  (Keyed.get?_eq_some_iff (h.sublist_keys.nodup hn)).2 ((h.mem_name_iff hn harg).2 ha)

end Coerced

/-! ## What a resolver may rely on -/

/-- The arguments that a resolver gets, if all arguments of the call can be coerced: those that are
given, that have a default or that may not be `null`, each with a value that its literal denotes. -/
structure Prepared (r : Registry σ) (field : Field σ) (provided : Keyed InputValue)
    (vars : Variables) (arguments : Arguments) : Prop where
  coerced : ∀ arg ∈ field.arguments, ∃ v?, r.coerceArgument field provided vars arg = .ok v?
  declared : ∀ name ∈ Keyed.keys provided, ∃ arg, field.argument? name = some arg
  ordered : (Keyed.keys arguments).Sublist (field.arguments.map Argument.name)
  present : ∀ arg ∈ field.arguments, arg.name ∈ Keyed.keys arguments ↔
    (givenLiteral? provided vars arg.name).isSome = true ∨ arg.default?.isSome = true
  required : ∀ arg ∈ field.arguments, arg.type.isNonNull = true →
    arg.name ∈ Keyed.keys arguments
  denotes : ∀ arg ∈ field.arguments, ∀ v, (arg.name, v) ∈ arguments →
    ∃ given, arg.literal? provided vars = some given ∧
      r.Denotes vars arg.type given.1 given.2 v

theorem mem_keys_iff {m : Arguments} {name : String} :
    name ∈ Keyed.keys m ↔ ∃ v, (name, v) ∈ m := by
  simp [Keyed.keys]

/-- **Arguments that have been coerced are prepared.** -/
theorem prepared_of_coerceArguments (hn : r.NullFree) (hf : r.ValidArguments field)
    (h : r.coerceArguments field provided vars = .ok values) :
    r.Prepared field provided vars values := by
  have hcoerced := coerced_of_coerceArguments h
  have hpresent : ∀ arg ∈ field.arguments,
      arg.name ∈ Keyed.keys values ↔ (arg.literal? provided vars).isSome = true := by
    intro arg harg
    obtain ⟨v?, hv⟩ := hcoerced.exists_ok harg
    simp only [mem_keys_iff, hcoerced.mem_name_iff hf.nodup harg, hv]
    cases v? with
    | none => simp [(coerceArgument_eq_none_iff.1 hv).1]
    | some v =>
      obtain ⟨given, hgiven, -⟩ := coerceArgument_eq_some_iff.1 hv
      simp [hgiven]
  constructor
  · intro arg harg
    exact hcoerced.exists_ok harg
  · exact declares_of_coerceArguments h
  · exact hcoerced.sublist_keys
  · intro arg harg
    rw [hpresent arg harg, Argument.literal?, Option.isSome_or, Option.isSome_map,
      Bool.or_eq_true]
  · intro arg harg hnonNull
    rw [hpresent arg harg]
    by_contra hnone
    have hliteral := Option.not_isSome_iff_eq_none.1 hnone
    obtain ⟨v?, hv⟩ := hcoerced.exists_ok harg
    rw [coerceArgument_of_literal?_eq_none hliteral, if_pos hnonNull] at hv
    nomatch hv
  · intro arg harg v hv
    obtain ⟨given, hgiven, hc⟩ :=
      coerceArgument_eq_some_iff.1 ((hcoerced.mem_name_iff hf.nodup harg).1 hv)
    exact ⟨given, hgiven, denotes_of_coerce hn hc⟩

end Registry

end GraphQL
