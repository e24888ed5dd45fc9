import GraphQL.Proofs.Validity

/-!
# What the rules say of arguments and enum values

The rest of the rules, read back: names of arguments and of enum values are not used twice
(`Schema.validArguments`, `Schema.nodup_enumValues`), defaults are constants of their type, and the
field of an object takes the arguments of the interface field that it stands for
(`Schema.exists_takes`). No rule relates the defaults of the two fields.
-/

namespace GraphQL

/-- A field takes the arguments of an interface field that it stands for, and requires no others. -/
structure Field.Takes {σ : Type} (own inherited : Field σ) : Prop where
  declared : ∀ arg ∈ inherited.arguments,
    ∃ found, own.argument? arg.name = some found ∧ found.type = arg.type
  required : ∀ arg ∈ own.arguments, arg.type.isNonNull = true → arg.default? = none →
    ∃ found, inherited.argument? arg.name = some found

namespace Registry

variable {σ : Type} {r : Registry σ}

/-- What the rules say of the arguments of a field together, and of their defaults. -/
structure ValidArguments (r : Registry σ) (f : Field σ) : Prop where
  nodup : (f.arguments.map Argument.name).Nodup
  defaults : ∀ arg ∈ f.arguments, ∀ default ∈ arg.default?, r.ValidDefault arg.type default

theorem WellFormedField.validArguments {f : Field σ} (h : r.WellFormedField f) :
    r.ValidArguments f :=
  ⟨h.distinct, fun arg harg => (h.arguments arg harg).default⟩

theorem StandsFor.takes {own inherited : Field σ} (h : r.StandsFor own inherited)
    (hown : (own.arguments.map Argument.name).Nodup)
    (hinherited : (inherited.arguments.map Argument.name).Nodup) : own.Takes inherited := by
  constructor
  · intro arg harg
    obtain ⟨found, hfound, hname, htype⟩ := h.declared arg harg
    exact ⟨found, hname ▸ find?_name_of_nodup hown hfound, htype⟩
  · intro arg harg hn hdefault
    obtain ⟨found, hfound, hname⟩ := h.required arg harg hn hdefault
    exact ⟨found, hname ▸ find?_name_of_nodup hinherited hfound⟩

end Registry

namespace Schema

variable {σ : Type} (s : Schema σ) {name : String}

/-! ## Nothing is wrong with a schema -/

theorem validArguments {t : TypeDef σ} (h : s.registry.get? name = some t)
    {fields : List (Field σ)} (hfields : t.fields? = some fields) {f : Field σ} (hf : f ∈ fields) :
    s.registry.ValidArguments f :=
  ((s.wellFormedFields h hfields).each f hf).validArguments

/-- For each field of an interface, an object that implements it has one that takes the same
arguments. -/
theorem exists_takes {o : ObjectType σ} {i : InterfaceType σ} {interface : String}
    (ho : s.registry.get? name = some (.object o))
    (hi : s.registry.get? interface = some (.interface i)) (hm : interface ∈ o.interfaces)
    {inherited : Field σ} (hf : inherited ∈ i.fieldSet.fields) :
    ∃ own, o.field? inherited.name = some own ∧ own.Takes inherited := by
  obtain ⟨i', hi', hall⟩ := (s.wellFormedObject ho).interfaces interface hm
  rw [hi] at hi'
  cases hi'
  obtain ⟨own, hown, hname, hstands⟩ := hall inherited hf
  have hfields := s.wellFormedFields ho rfl
  refine ⟨own, hname ▸ find?_name_of_nodup hfields.distinct hown, ?_⟩
  have hinherited := (s.wellFormedFields hi rfl).each inherited hf
  exact hstands.takes (hfields.each own hown).distinct hinherited.distinct

theorem nodup_enumValues {e : EnumType} (h : s.registry.get? name = some (.enum e)) :
    (e.values.map EnumValue.name).Nodup := by
  have he : Registry.WellFormedEnum e := s.wellFormedType h
  exact he.distinct

end Schema

end GraphQL
