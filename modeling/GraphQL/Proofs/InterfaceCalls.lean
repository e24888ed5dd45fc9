import GraphQL.Proofs.Arguments

/-!
# Calls through an interface

A call that an interface field takes is taken by the field of every object that implements the
interface, and what is given comes to the same there (`Schema.coerceArguments_of_interface`). There
is one exception. Objects inherit the arguments of an interface field but not their defaults, so a
call may leave out an argument that only the object's field requires
(`Paged.not_coerceArguments_of_interface`); then that is what the object's field says.
-/

namespace GraphQL

namespace Registry

variable {σ : Type}

/-- The call leaves out an argument that the field requires, and the interface field has a default
for it. -/
structure LosesDefault (inherited : Field σ) (provided : Keyed InputValue) (vars : Variables)
    (arg : Argument) : Prop where
  required : arg.type.isNonNull = true
  no_default : arg.default? = none
  omitted : givenLiteral? provided vars arg.name = none
  inherited : ∃ declared, inherited.argument? arg.name = some declared ∧
    declared.default?.isSome = true

variable {r : Registry σ} {own inherited : Field σ} {provided : Keyed InputValue}
  {vars : Variables} {values : Arguments} {arg declared : Argument}

theorem coerceArgument_of_losesDefault (h : LosesDefault inherited provided vars arg) :
    r.coerceArgument own provided vars arg =
      .error (.ofFault (.missingArgument own.name arg.name arg.type)) := by
  have hliteral : arg.literal? provided vars = none := by
    rw [Argument.literal?, h.omitted, h.no_default]
    rfl
  rw [coerceArgument_of_literal?_eq_none hliteral, if_pos h.required]

/-- What is given for an argument is coerced by its name and its type. -/
theorem coerceArgument_congr (hn : arg.name = declared.name) (ht : arg.type = declared.type)
    (hg : (givenLiteral? provided vars arg.name).isSome = true) :
    r.coerceArgument own provided vars arg = r.coerceArgument inherited provided vars declared := by
  obtain ⟨given, hg⟩ := Option.isSome_iff_exists.1 hg
  have harg : arg.literal? provided vars = some given := by
    rw [Argument.literal?, hg, Option.some_or]
  have hdeclared : declared.literal? provided vars = some given := by
    rw [Argument.literal?, ← hn, hg, Option.some_or]
  rw [coerceArgument_of_literal? harg, coerceArgument_of_literal? hdeclared, hn, ht]

theorem argument?_of_mem {f : Field σ} (hf : r.ValidArguments f) (harg : arg ∈ f.arguments) :
    f.argument? arg.name = some arg :=
  find?_name_of_nodup hf.nodup harg

theorem of_argument? {f : Field σ} {name : String} (h : f.argument? name = some arg) :
    arg ∈ f.arguments ∧ arg.name = name := by
  have hname := List.find?_some h
  exact ⟨List.mem_of_find?_eq_some h, by simpa using hname⟩

/-- Arguments of one name have one type in both fields. -/
theorem type_eq_of_takes (ht : own.Takes inherited) (ho : r.ValidArguments own)
    (harg : arg ∈ own.arguments) (hd : inherited.argument? arg.name = some declared) :
    arg.type = declared.type := by
  obtain ⟨hmem, hname⟩ := of_argument? hd
  obtain ⟨found, hfound, htype⟩ := ht.declared declared hmem
  rw [hname, argument?_of_mem ho harg, Option.some.injEq] at hfound
  rw [hfound, htype]

/-- An argument of the object's field can be coerced in a call that the interface field takes,
unless its default is lost. -/
theorem exists_coerceArgument_or_losesDefault (ht : own.Takes inherited)
    (ho : r.ValidArguments own) (h : r.coerceArguments inherited provided vars = .ok values)
    (harg : arg ∈ own.arguments) :
    (∃ v?, r.coerceArgument own provided vars arg = .ok v?) ∨
      LosesDefault inherited provided vars arg := by
  have hcoerced := coerced_of_coerceArguments h
  cases hg : givenLiteral? provided vars arg.name with
  | some given =>
    left
    obtain ⟨declared, hd⟩ := declares_of_coerceArguments h _ (mem_keys_of_givenLiteral? hg)
    obtain ⟨hmem, hname⟩ := of_argument? hd
    have htype := type_eq_of_takes ht ho harg hd
    rw [coerceArgument_congr hname.symm htype (by simp [hg])]
    exact hcoerced.exists_ok hmem
  | none =>
    cases hd : arg.default? with
    | some default =>
      -- defaults are constants of their type, so the variables do not matter
      left
      have hvalid := ho.defaults arg harg default hd
      obtain ⟨v, hv⟩ := hvalid.coerces
      rw [coerce_of_references hvalid.constant [] vars] at hv
      refine ⟨some v, coerceArgument_eq_some_iff.2 ⟨(default, false), ?_, hv⟩⟩
      rw [Argument.literal?, hg, hd]
      rfl
    | none =>
      by_cases hn : arg.type.isNonNull = true
      · right
        obtain ⟨declared, hdeclared⟩ := ht.required arg harg hn hd
        refine ⟨hn, hd, hg, declared, hdeclared, ?_⟩
        obtain ⟨hmem, hname⟩ := of_argument? hdeclared
        have htype := type_eq_of_takes ht ho harg hdeclared
        obtain ⟨v?, hv⟩ := hcoerced.exists_ok hmem
        by_contra hdefault
        have hliteral : declared.literal? provided vars = none := by
          rw [Argument.literal?, hname, hg, Option.not_isSome_iff_eq_none.1 hdefault]
          rfl
        simp [coerceArgument_of_literal?_eq_none hliteral, ← htype, hn] at hv
      · left
        refine ⟨none, coerceArgument_eq_none_iff.2 ⟨?_, by simpa using hn⟩⟩
        rw [Argument.literal?, hg, hd]
        rfl

/-- What is given comes to the same in both fields. -/
theorem exists_get?_of_given (ht : own.Takes inherited) (ho : r.ValidArguments own)
    (hi : r.ValidArguments inherited) (h : r.coerceArguments inherited provided vars = .ok values)
    {values' : Arguments} (h' : r.coerceArguments own provided vars = .ok values') {name : String}
    (hg : (givenLiteral? provided vars name).isSome = true) :
    ∃ v, Keyed.get? values name = some v ∧ Keyed.get? values' name = some v := by
  have hcoerced := coerced_of_coerceArguments h
  have hcoerced' := coerced_of_coerceArguments h'
  obtain ⟨given, hgiven⟩ := Option.isSome_iff_exists.1 hg
  obtain ⟨declared, hd⟩ := declares_of_coerceArguments h _ (mem_keys_of_givenLiteral? hgiven)
  obtain ⟨arg, ha⟩ := declares_of_coerceArguments h' _ (mem_keys_of_givenLiteral? hgiven)
  obtain ⟨hdmem, rfl⟩ := of_argument? hd
  obtain ⟨hamem, hname⟩ := of_argument? ha
  have htype := type_eq_of_takes ht ho hamem (hname ▸ hd)
  have hsame : r.coerceArgument own provided vars arg =
      r.coerceArgument inherited provided vars declared :=
    coerceArgument_congr hname htype (hname ▸ hg)
  obtain ⟨v?, hv⟩ := hcoerced.exists_ok hdmem
  cases v? with
  | none =>
    have hnone := (coerceArgument_eq_none_iff.1 hv).1
    simp [Argument.literal?, hgiven] at hnone
  | some v =>
    refine ⟨v, hcoerced.get?_name hi.nodup hdmem hv, ?_⟩
    rw [← hname]
    exact hcoerced'.get?_name ho.nodup hamem (hsame.trans hv)

end Registry

namespace Schema

variable {σ : Type} (s : Schema σ)

/-- **A call that an interface field takes is taken by every object that implements the interface.**
What is given comes to the same there. The one exception is a call that leaves out an argument whose
default is lost: it fails because the argument is missing. -/
theorem coerceArguments_of_interface {object interface : String} {o : ObjectType σ}
    {i : InterfaceType σ} (ho : s.registry.get? object = some (.object o))
    (hi : s.registry.get? interface = some (.interface i)) (hm : interface ∈ o.interfaces)
    {inherited : Field σ} (hf : inherited ∈ i.fieldSet.fields) {provided : Keyed InputValue}
    {vars : Variables} {values : Arguments}
    (h : s.registry.coerceArguments inherited provided vars = .ok values) :
    ∃ own, o.field? inherited.name = some own ∧
      (((∀ arg ∈ own.arguments, ¬ Registry.LosesDefault inherited provided vars arg) ∧
        ∃ values', s.registry.coerceArguments own provided vars = .ok values' ∧
          ∀ name, (Registry.givenLiteral? provided vars name).isSome = true →
            ∃ v, Keyed.get? values name = some v ∧ Keyed.get? values' name = some v) ∨
      ∃ arg ∈ own.arguments, Registry.LosesDefault inherited provided vars arg ∧
        s.registry.coerceArguments own provided vars =
          .error (.ofFault (.missingArgument own.name arg.name arg.type))) := by
  obtain ⟨own, hown, ht⟩ := s.exists_takes ho hi hm hf
  have hvalid := s.validArguments ho rfl (List.mem_of_find?_eq_some hown)
  have hvalid' := s.validArguments hi rfl hf
  refine ⟨own, hown, ?_⟩
  have hdeclares : ∀ name ∈ Keyed.keys provided, ∃ arg, own.argument? name = some arg := by
    intro name hn
    obtain ⟨declared, hd⟩ := Registry.declares_of_coerceArguments h name hn
    obtain ⟨hmem, rfl⟩ := Registry.of_argument? hd
    obtain ⟨found, hfound, -⟩ := ht.declared declared hmem
    exact ⟨found, hfound⟩
  have heq : s.registry.coerceArguments own provided vars =
      s.registry.coerceDeclared own provided vars own.arguments :=
    Registry.coerceArguments_of_declares hdeclares
  have hall : ∀ arg ∈ own.arguments,
      (∃ v?, s.registry.coerceArgument own provided vars arg = .ok v?) ∨
      ∃ e, s.registry.coerceArgument own provided vars arg = .error e ∧
        Registry.LosesDefault inherited provided vars arg ∧
        e = .ofFault (.missingArgument own.name arg.name arg.type) := by
    intro arg harg
    refine (Registry.exists_coerceArgument_or_losesDefault ht hvalid h harg).imp_right ?_
    intro hlost
    exact ⟨_, Registry.coerceArgument_of_losesDefault hlost, hlost, rfl⟩
  rw [heq]
  rcases Registry.coerceDeclared_ok_or_error hall with ⟨values', hok⟩ | ⟨arg, harg, e, he, hl, rfl⟩
  · left
    constructor
    · intro arg harg hlost
      obtain ⟨v?, hv⟩ := (Registry.coerced_of_coerceDeclared hok).exists_ok harg
      rw [Registry.coerceArgument_of_losesDefault hlost] at hv
      nomatch hv
    · refine ⟨values', hok, ?_⟩
      intro name hg
      exact Registry.exists_get?_of_given ht hvalid hvalid' h (heq.trans hok) hg
  · exact .inr ⟨arg, harg, hl, he⟩

end Schema

/-! ## A default that objects do not inherit -/

namespace Paged

/-- A field with pages, of which an interface fixes the size, and where to begin. -/
def pages (size? after? : Option InputValue) : Field Unit :=
  ⟨"pages", none,
    [⟨"size", none, .nonNull (.named "Int"), size?⟩, ⟨"after", none, .named "ID", after?⟩],
    .named "String", .current, none⟩

def pager : InterfaceType Unit :=
  ⟨"Pager", none, .eager [pages (some (.scalar (.int 10))) none], none⟩

def book : ObjectType Unit :=
  ⟨"Book", none, .eager [pages none (some (.scalar (.string "cover")))], ["Pager"]⟩

def root : ObjectType Unit :=
  ⟨"Query", none, .eager [⟨"pager", none, [], .named "Pager", .current, none⟩], []⟩

def schema : Schema Unit :=
  ⟨⟨[.interface pager, .object book, .object root], by
      change ["String", "Int", "Float", "Boolean", "ID", "Pager", "Book", "Query"].Nodup
      decide⟩,
    "Query", none, false, rfl, rfl, rfl, by simp⟩

/-- The object takes the call that the interface takes, with the size that the variable gives. -/
theorem coerceArguments_of_interface_sample :
    schema.registry.coerceArguments (pages (some (.scalar (.int 10))) none) [("size", .var "n")]
        [("n", .scalar (.int 5))] = .ok [("size", .int 5)] ∧
      ∃ own values', book.field? "pages" = some own ∧
        schema.registry.coerceArguments own [("size", .var "n")] [("n", .scalar (.int 5))] =
          .ok values' ∧ Keyed.get? values' "size" = some (.int 5) := by
  have hcall : schema.registry.coerceArguments (pages (some (.scalar (.int 10))) none)
      [("size", .var "n")] [("n", .scalar (.int 5))] = .ok [("size", .int 5)] := rfl
  have hbook : schema.registry.get? "Book" = some (.object book) := rfl
  have hpager : schema.registry.get? "Pager" = some (.interface pager) := rfl
  obtain ⟨own, hown, ⟨-, values', hv, hsame⟩ | ⟨arg, harg, hlost, -⟩⟩ :=
    schema.coerceArguments_of_interface hbook hpager (.head _) (.head _) hcall
  · obtain ⟨v, hget, hget'⟩ := hsame "size" rfl
    obtain rfl : Value.int 5 = v := Option.some.inj hget
    exact ⟨hcall, own, values', hown, hv, hget'⟩
  · -- the size is given, and the other argument is not required
    obtain rfl : pages none (some (.scalar (.string "cover"))) = own := Option.some.inj hown
    have homitted := hlost.omitted
    have hrequired := hlost.required
    simp only [pages, List.mem_cons, List.not_mem_nil, or_false] at harg
    rcases harg with rfl | rfl
    · nomatch homitted
    · nomatch hrequired

/-- **Objects do not inherit the default of an argument.** A call without the size is taken by the
interface and not by the object. -/
theorem not_coerceArguments_of_interface :
    schema.registry.coerceArguments (pages (some (.scalar (.int 10))) none) [] [] =
        .ok [("size", .int 10)] ∧
      schema.registry.coerceArguments (pages none (some (.scalar (.string "cover")))) [] [] =
        .error (.ofFault (.missingArgument "pages" "size" (.nonNull (.named "Int")))) ∧
      ¬ ∀ (inherited own : Field Unit) (provided : Keyed InputValue) (vars : Variables)
          (values : Arguments), inherited ∈ pager.fieldSet.fields →
        book.field? inherited.name = some own →
        schema.registry.coerceArguments inherited provided vars = .ok values →
        ∃ values', schema.registry.coerceArguments own provided vars = .ok values' := by
  refine ⟨rfl, rfl, ?_⟩
  intro h
  obtain ⟨values', hv⟩ := h _ _ [] [] _ (.head _) rfl rfl
  nomatch hv

end Paged

end GraphQL
