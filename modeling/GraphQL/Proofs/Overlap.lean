import GraphQL.Binding
import GraphQL.Execution.Collection
import GraphQL.Proofs.Validity

/-!
# The check of fragments is exact

Whether a fragment may stand in a selection on a type is decided from the lists of the possible
types of both; whether its contents are collected for an object is asked of the object and of the
condition alone. The lists name exactly the objects to which a fragment on the type applies
(`mem_possibleNames_iff`), so two types overlap if and only if they are the same or some object is
of both (`typesOverlap_exact`): what is refused could never have been collected, and what is bound
is collected for some object.
-/

namespace GraphQL

namespace Registry

variable {σ : Type} {r : Registry σ}

theorem mem_map_possibleTypes_iff {abstract name : String} :
    name ∈ (r.possibleTypes abstract).map ObjectType.name ↔
      ∃ o, r.get? name = some (.object o) ∧ r.isPossible abstract name = true := by
  constructor
  · intro h
    obtain ⟨o, ho, rfl⟩ := List.mem_map.1 h
    exact ⟨o, mem_possibleTypes_iff.1 ho⟩
  · rintro ⟨o, ho, hp⟩
    obtain rfl : o.name = name := name_of_get? ho
    exact List.mem_map_of_mem (mem_possibleTypes_iff.2 ⟨ho, hp⟩)

/-- A fragment on an object type applies to that type alone. -/
theorem fragmentApplies_object {o : ObjectType σ} (ho : r.get? o.name = some (.object o))
    {name : String} : r.fragmentApplies o.name name = true ↔ o.name = name := by
  rw [fragmentApplies, isPossible_object ho, Bool.or_false, beq_iff_eq]

/-- A fragment on another type applies to the objects that are possible for the type. -/
theorem fragmentApplies_eq_isPossible {t : TypeDef σ} (ht : r.get? t.name = some t)
    (hkind : t.kind ≠ .object) {name : String} {o : ObjectType σ}
    (ho : r.get? name = some (.object o)) :
    r.fragmentApplies t.name name = r.isPossible t.name name := by
  have hne : t.name ≠ name := by
    rintro rfl
    obtain rfl := Option.some.inj (ht.symm.trans ho)
    exact hkind rfl
  simp [fragmentApplies, hne]

/-- The names of the possible types of a type are those of the objects to which a fragment on it
applies. -/
theorem mem_possibleNames_iff {t : TypeDef σ} (ht : t ∈ r.types) {name : String} :
    name ∈ r.possibleNames t ↔
      ∃ o, r.get? name = some (.object o) ∧ r.fragmentApplies t.name name = true := by
  have hget := get?_of_mem_types ht
  have habstract : t.kind ≠ .object → (name ∈ (r.possibleTypes t.name).map ObjectType.name ↔
      ∃ o, r.get? name = some (.object o) ∧ r.fragmentApplies t.name name = true) := by
    intro hkind
    rw [mem_map_possibleTypes_iff]
    refine exists_congr fun o => and_congr_right fun ho => ?_
    rw [fragmentApplies_eq_isPossible hget hkind ho]
  cases t with
  | object o =>
    have happlies : r.fragmentApplies o.name name = true ↔ o.name = name :=
      fragmentApplies_object hget
    constructor
    · intro h
      obtain rfl := List.mem_singleton.1 h
      exact ⟨o, hget, happlies.2 rfl⟩
    · rintro ⟨-, -, ha⟩
      exact List.mem_singleton.2 (happlies.1 ha).symm
  | scalar s => exact habstract nofun
  | enum e => exact habstract nofun
  | interface i => exact habstract nofun
  | union u => exact habstract nofun

/-- Types overlap if they are the same or a fragment on either applies to some object. -/
theorem typesOverlap_iff {a b : TypeDef σ} (ha : a ∈ r.types) (hb : b ∈ r.types) :
    r.typesOverlap a b = true ↔ a = b ∨ ∃ o, r.get? o.name = some (.object o) ∧
      r.fragmentApplies a.name o.name = true ∧ r.fragmentApplies b.name o.name = true := by
  have hsame : a.name = b.name ↔ a = b := by
    constructor
    · intro h
      exact List.inj_on_of_nodup_map r.nodup_names ha hb h
    · rintro rfl
      rfl
  rw [typesOverlap, Bool.or_eq_true, beq_iff_eq, hsame, List.any_eq_true]
  refine or_congr_right ?_
  constructor
  · rintro ⟨name, hna, hnb⟩
    obtain ⟨o, ho, hfa⟩ := (mem_possibleNames_iff ha).1 hna
    obtain ⟨-, -, hfb⟩ := (mem_possibleNames_iff hb).1 (List.contains_iff_mem.1 hnb)
    obtain rfl : o.name = name := name_of_get? ho
    exact ⟨o, ho, hfa, hfb⟩
  · rintro ⟨o, ho, hfa, hfb⟩
    refine ⟨o.name, (mem_possibleNames_iff ha).2 ⟨o, ho, hfa⟩, ?_⟩
    exact List.contains_iff_mem.2 ((mem_possibleNames_iff hb).2 ⟨o, ho, hfb⟩)

end Registry

namespace Schema

variable {σ : Type} {s : Schema σ}

/-- What binding a condition means for the type that it names. -/
theorem typesOverlap_of_bindCondition {parent t : TypeDef σ} {condition : String}
    (h : s.bindCondition parent (some condition) = .ok t) :
    s.registry.get? condition = some t ∧ s.registry.typesOverlap parent t = true := by
  rw [bindCondition] at h
  cases hg : s.registry.get? condition with
  | none => simp [hg] at h
  | some t' =>
    simp only [hg] at h
    split at h
    · nomatch h
    · split at h
      · nomatch h
      · next ho =>
        obtain rfl := Except.ok.inj h
        exact ⟨rfl, by simpa using ho⟩

theorem typesOverlap_of_impossibleCondition {parent : TypeDef σ} {condition : String}
    (h : s.bindCondition parent (some condition) =
      .error (.impossibleCondition parent.name condition)) :
    ∃ t, s.registry.get? condition = some t ∧ s.registry.typesOverlap parent t = false := by
  rw [bindCondition] at h
  cases hg : s.registry.get? condition with
  | none => simp [hg] at h
  | some t' =>
    simp only [hg] at h
    split at h
    · simp at h
    · split at h
      · next ho => exact ⟨t', rfl, by simpa using ho⟩
      · nomatch h

end Schema

namespace Registry

variable {σ : Type}

/-- **The check of fragments is exact.** Two registered types overlap if and only if they are the
same or some object is of both. So from a fragment that is refused because values of the type around
it can never be of its own type, nothing would be collected for any object of the type around it;
and one that is bound, on another type, is collected for some object of the type around it. -/
theorem typesOverlap_exact (r : Registry σ) :
    (∀ a ∈ r.types, ∀ b ∈ r.types, r.typesOverlap a b = true ↔
      a = b ∨ ∃ o, r.get? o.name = some (.object o) ∧
        r.fragmentApplies a.name o.name = true ∧ r.fragmentApplies b.name o.name = true) ∧
    ∀ s : Schema σ, s.registry = r → ∀ parent ∈ r.types, ∀ condition,
      (s.bindCondition parent (some condition) =
          .error (.impossibleCondition parent.name condition) →
        ∀ o, r.get? o.name = some (.object o) → r.fragmentApplies parent.name o.name = true →
          ∀ groups selections,
            r.collectSelection o groups (.fragment (some condition) selections) = groups) ∧
      ∀ t, s.bindCondition parent (some condition) = .ok t → parent ≠ t →
        ∃ o, r.get? o.name = some (.object o) ∧ r.fragmentApplies parent.name o.name = true ∧
          ∀ groups selections,
            r.collectSelection o groups (.fragment (some condition) selections) =
              r.collectInto o groups selections := by
  refine ⟨fun a ha b hb => typesOverlap_iff ha hb, ?_⟩
  rintro s rfl parent hp condition
  constructor
  · intro hbind o ho happlies groups selections
    obtain ⟨t, ht, hoverlap⟩ := Schema.typesOverlap_of_impossibleCondition hbind
    have hname : t.name = condition := name_of_get? ht
    have hnot : s.registry.fragmentApplies condition o.name ≠ true := by
      intro hc
      have hboth := (typesOverlap_iff hp (mem_types_of_get? ht)).2
        (.inr ⟨o, ho, happlies, hname ▸ hc⟩)
      exact Bool.false_ne_true (hoverlap.symm.trans hboth)
    rw [collectSelection, if_neg hnot]
  · intro t hbind hne
    obtain ⟨ht, hoverlap⟩ := Schema.typesOverlap_of_bindCondition hbind
    have hname : t.name = condition := name_of_get? ht
    rcases (typesOverlap_iff hp (mem_types_of_get? ht)).1 hoverlap with heq | ⟨o, ho, hfp, hft⟩
    · exact absurd heq hne
    · refine ⟨o, ho, hfp, ?_⟩
      intro groups selections
      rw [collectSelection, if_pos (hname ▸ hft)]

end Registry

namespace Spreading

def nameField : Field Unit :=
  ⟨"name", none, [], .named "String", .current, none⟩

def pet : InterfaceType Unit :=
  ⟨"Pet", none, .eager [nameField], none⟩

def dog : ObjectType Unit :=
  ⟨"Dog", none, .eager [nameField], ["Pet"]⟩

def robot : ObjectType Unit :=
  ⟨"Robot", none, .eager [nameField], []⟩

/-- A union of a pet and something that is none. -/
def companion : UnionType :=
  ⟨"Companion", none, ["Robot", "Dog"], none⟩

def root : ObjectType Unit :=
  ⟨"Query", none, .eager [⟨"pet", none, [], .named "Pet", .current, none⟩], []⟩

def schema : Schema Unit :=
  ⟨⟨[.interface pet, .object dog, .object robot, .union companion, .object root], by
      change ["String", "Int", "Float", "Boolean", "ID", "Pet", "Dog", "Robot", "Companion",
        "Query"].Nodup
      decide⟩,
    "Query", none, false, rfl, rfl, rfl, by simp⟩

/-- Companions may be asked for among pets, since a dog is both; robots may not, and nothing would
be collected from a dog if they were. -/
theorem typesOverlap_exact_pet :
    schema.registry.typesOverlap (.interface pet) (.union companion) = true ∧
      (∃ o, schema.registry.get? o.name = some (.object o) ∧
        schema.registry.fragmentApplies "Pet" o.name = true ∧
        schema.registry.fragmentApplies "Companion" o.name = true) ∧
      schema.bindCondition (.interface pet) (some "Robot") =
        .error (.impossibleCondition "Pet" "Robot") ∧
      schema.registry.collectSelection dog []
        (.fragment (some "Robot") [.field ⟨none, "name", [], none⟩]) = [] := by
  have hget : schema.registry.get? "Pet" = some (.interface pet) := rfl
  have hget' : schema.registry.get? "Companion" = some (.union companion) := rfl
  have hpet := Registry.mem_types_of_get? hget
  have hcompanion := Registry.mem_types_of_get? hget'
  have hrefused : schema.bindCondition (.interface pet) (some "Robot") =
      .error (.impossibleCondition "Pet" "Robot") := rfl
  obtain ⟨hiff, hspread⟩ := Registry.typesOverlap_exact schema.registry
  have hoverlap : schema.registry.typesOverlap (.interface pet) (.union companion) = true := rfl
  refine ⟨hoverlap, ?_, hrefused, ?_⟩
  · rcases (hiff _ hpet _ hcompanion).1 hoverlap with heq | hboth
    · nomatch heq
    · exact hboth
  · exact (hspread schema rfl _ hpet "Robot").1 hrefused dog rfl rfl [] _

end Spreading

end GraphQL
