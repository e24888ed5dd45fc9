import GraphQL.Proofs.Binding.Offences

/-!
# Binding reports exactly what offends

A selection stands at a place in an operation (`Selection.At`), which tells how places follow one
another in the document and which selections are around it; these lead to the static type on which
it stands (`Schema.StaticType`). What there is to report are the selections that offend and stand in
none that does (`Schema.Reportable`). Binding lists these, in document order, each once for each
fault, at the response keys that lead to it (`Schema.bind_exact`).
-/

namespace GraphQL

namespace Selection

/-- The selection stands at a place in the selections. Indices lead there from the outside in, and
the selections around it come outermost first. -/
inductive At : List Selection → List Nat → List Selection → Selection → Prop where
  | here {selections i selection} (h : selections[i]? = some selection) :
    At selections [i] [] selection
  | inside {selections i outer place around selection} (ho : selections[i]? = some outer)
    (h : At outer.inside place around selection) :
    At selections (i :: place) (outer :: around) selection

theorem not_at_nil {place : List Nat} {around : List Selection} {selection : Selection} :
    ¬ At [] place around selection := by
  intro h
  cases h with
  | here h => simp at h
  | inside ho => simp at ho

end Selection

/-- A fault, the place where it is, and the response keys on the way there. -/
structure Finding where
  place : List Nat
  path : List String
  fault : BindingFault

namespace Finding

def error (x : Finding) : BindingError :=
  ⟨x.path, x.fault⟩

/-- The finding as seen from around the selection in which it is. -/
def into (x : Finding) (i : Nat) (key? : Option String) : Finding :=
  ⟨i :: x.place, key?.toList ++ x.path, x.fault⟩

/-- Earlier places come first in the document, and the faults of one place in order. -/
def Before (x y : Finding) : Prop :=
  x.place < y.place ∨ x.place = y.place ∧ Schema.FaultBefore x.fault y.fault

theorem Before.into {x y : Finding} (h : x.Before y) (i : Nat) (key? : Option String) :
    (x.into i key?).Before (y.into i key?) := by
  rcases h with hlt | ⟨heq, hfault⟩
  · exact .inl (List.cons_lt_cons_iff.2 (.inr ⟨rfl, hlt⟩))
  · exact .inr ⟨congrArg (i :: ·) heq, hfault⟩

end Finding

namespace Schema

variable {σ : Type} {s : Schema σ} {t : TypeDef σ}

/-! ## What there is to report -/

/-- Going into the selections in turn leads from the first static type to the second. -/
inductive StaticType (s : Schema σ) : TypeDef σ → List Selection → TypeDef σ → Prop where
  | outermost {a} : StaticType s a [] a
  | inside {a b c outer around} (hi : s.Inside a outer b) (h : StaticType s b around c) :
    StaticType s a (outer :: around) c

/-- None of the selections around offends where it stands. -/
def Clear (s : Schema σ) (t : TypeDef σ) (around : List Selection) : Prop :=
  ∀ before outer t' fault, before ++ [outer] <+: around → s.StaticType t before t' →
    ¬ s.Offends t' outer fault

/-- The selection at the place has the fault, and none of those around it offends. The path is made
of the response keys of the fields from the outermost to the selection itself. -/
def Reportable (s : Schema σ) (t : TypeDef σ) (selections : List Selection) (x : Finding) : Prop :=
  ∃ around selection t', Selection.At selections x.place around selection ∧
    s.StaticType t around t' ∧ s.Offends t' selection x.fault ∧ s.Clear t around ∧
    x.path = (around ++ [selection]).filterMap Selection.key?

theorem clear_nil : s.Clear t [] := by
  intro before outer t' fault hpre
  simp at hpre

theorem clear_cons_iff (ht : s.registry.get? t.name = some t) {outer : Selection}
    {around : List Selection} {inner : TypeDef σ} (hi : s.Inside t outer inner) :
    s.Clear t (outer :: around) ↔
      (∀ fault, ¬ s.Offends t outer fault) ∧ s.Clear inner around := by
  constructor
  · intro h
    constructor
    · intro fault
      exact h [] outer t fault (by simp) .outermost
    · intro before outer' t' fault hpre hst
      exact h (outer :: before) outer' t' fault (by simpa using hpre) (.inside hi hst)
  · rintro ⟨hn, hc⟩ before outer' t' fault hpre hst
    cases hst with
    | outermost =>
      obtain rfl : outer' = outer := by simpa using hpre
      exact hn fault
    | inside hi' hst =>
      rw [List.cons_append, List.cons_prefix_cons] at hpre
      obtain ⟨rfl, hpre⟩ := hpre
      obtain rfl := hi.unique ht hi'
      exact hc _ outer' t' fault hpre hst

/-- What there is to report of one selection: its own faults, or else what is inside it. -/
inductive ReportableAt (s : Schema σ) (t : TypeDef σ) (i : Nat) (selection : Selection) :
    Finding → Prop where
  | own {fault} (h : s.Offends t selection fault) :
    ReportableAt s t i selection ⟨[i], selection.key?.toList, fault⟩
  | inside {inner x} (hn : ∀ fault, ¬ s.Offends t selection fault)
    (hi : s.Inside t selection inner) (h : s.Reportable inner selection.inside x) :
    ReportableAt s t i selection (x.into i selection.key?)

theorem reportableAt_iff_of_offends {i : Nat} {selection : Selection} {fault : BindingFault}
    (h : s.Offends t selection fault) {x : Finding} :
    s.ReportableAt t i selection x ↔
      ∃ fault, s.Offends t selection fault ∧ ⟨[i], selection.key?.toList, fault⟩ = x := by
  constructor
  · intro hx
    cases hx with
    | own ho => exact ⟨_, ho, rfl⟩
    | inside hn => exact absurd h (hn fault)
  · rintro ⟨fault, ho, rfl⟩
    exact .own ho

theorem reportableAt_iff_of_inside (ht : s.registry.get? t.name = some t) {i : Nat}
    {selection : Selection} (hn : ∀ fault, ¬ s.Offends t selection fault) {inner : TypeDef σ}
    (hi : s.Inside t selection inner) {x : Finding} :
    s.ReportableAt t i selection x ↔
      ∃ y, s.Reportable inner selection.inside y ∧ y.into i selection.key? = x := by
  constructor
  · intro hx
    cases hx with
    | own ho => exact absurd ho (hn _)
    | inside _ hi' h =>
      obtain rfl := hi.unique ht hi'
      exact ⟨_, h, rfl⟩
  · rintro ⟨y, hy, rfl⟩
    exact .inside hn hi hy

theorem reportable_iff (ht : s.registry.get? t.name = some t) {selections : List Selection}
    {x : Finding} :
    s.Reportable t selections x ↔
      ∃ i selection, selections[i]? = some selection ∧ s.ReportableAt t i selection x := by
  constructor
  · rintro ⟨around, selection, t', hat, hst, hoff, hclear, hpath⟩
    obtain ⟨place, path, fault⟩ := x
    subst hpath
    cases hat with
    | @here _ i _ h =>
      cases hst
      refine ⟨i, selection, h, ?_⟩
      have hown := ReportableAt.own (i := i) hoff
      cases hk : selection.key? <;> simpa [hk] using hown
    | @inside _ i outer place around _ ho h =>
      cases hst with
      | inside hi hst =>
        obtain ⟨hn, hclear⟩ := (clear_cons_iff ht hi).1 hclear
        have hinside : s.Reportable _ outer.inside
            ⟨place, (around ++ [selection]).filterMap Selection.key?, fault⟩ :=
          ⟨around, selection, t', h, hst, hoff, hclear, rfl⟩
        refine ⟨i, outer, ho, ?_⟩
        have hin := ReportableAt.inside (i := i) hn hi hinside
        cases hk : outer.key? <;> simpa [hk, Finding.into] using hin
  · rintro ⟨i, selection, hs, hr⟩
    cases hr with
    | own h =>
      refine ⟨[], selection, t, .here hs, .outermost, h, clear_nil, ?_⟩
      cases hk : selection.key? <;> simp [hk]
    | inside hn hi h =>
      obtain ⟨around, inner, t', hat, hst, hoff, hclear, hpath⟩ := h
      refine ⟨selection :: around, inner, t', .inside hs hat, .inside hi hst, hoff,
        (clear_cons_iff ht hi).2 ⟨hn, hclear⟩, ?_⟩
      cases hk : selection.key? <;> simp [hk, hpath, Finding.into]

/-! ## Binding lists what there is to report -/

/-- Binding the selections, the first of which has the index, lists what there is to report of
them in document order. -/
def Lists (s : Schema σ) (t : TypeDef σ) (path : List String) (start : Nat)
    (selections : List Selection) : Prop :=
  ∃ findings : List Finding,
    s.bindAll t path selections = findings.map (fun x => ⟨path ++ x.path, x.fault⟩) ∧
    findings.Pairwise Finding.Before ∧
    ∀ x, x ∈ findings ↔ ∃ i selection, selections[i]? = some selection ∧
      s.ReportableAt t (start + i) selection x

/-- A selection is listed if what is inside it is. -/
theorem exists_findings_of_inside (ht : s.registry.get? t.name = some t) {selection : Selection}
    (hinside : ∀ inner, s.registry.get? inner.name = some inner → ∀ path,
      s.Lists inner path 0 selection.inside) (path : List String) (i : Nat) :
    ∃ findings : List Finding,
      s.bindSelection t path selection =
        findings.map (fun x => ⟨path ++ x.path, x.fault⟩) ∧
      findings.Pairwise Finding.Before ∧ ∀ x, x ∈ findings ↔ s.ReportableAt t i selection x := by
  cases s.binds ht path selection with
  | @faulty faults hne h he =>
    obtain ⟨fault, hfault⟩ := List.exists_mem_of_ne_nil faults hne
    refine ⟨faults.map fun fault => ⟨[i], selection.key?.toList, fault⟩, ?_, ?_, ?_⟩
    · rw [he, List.map_map]
      rfl
    · rw [List.pairwise_map]
      exact h.ordered.imp fun hfault => .inr ⟨rfl, hfault⟩
    · intro x
      rw [reportableAt_iff_of_offends ((h.mem_iff fault).1 hfault), List.mem_map]
      simp only [h.mem_iff]
  | nothing hn hi he =>
    refine ⟨[], by rw [he, List.map_nil], .nil, ?_⟩
    intro x
    simp only [List.not_mem_nil, false_iff]
    intro hx
    cases hx with
    | own ho => exact hn _ ho
    | inside _ _ h =>
      obtain ⟨_, _, _, hat, -⟩ := h
      rw [hi] at hat
      exact Selection.not_at_nil hat
  | @inside inner hn hi he =>
    have hinner := hi.get? ht
    obtain ⟨findings, hbind, hordered, hmem⟩ :=
      hinside inner hinner (path ++ selection.key?.toList)
    refine ⟨findings.map fun x => x.into i selection.key?, ?_, ?_, ?_⟩
    · rw [he, hbind, List.map_map]
      simp [Finding.into, Function.comp_def]
    · rw [List.pairwise_map]
      exact hordered.imp fun hb => hb.into i selection.key?
    · intro x
      simp only [Nat.zero_add, ← reportable_iff hinner] at hmem
      rw [reportableAt_iff_of_inside ht hn hi, List.mem_map]
      simp only [hmem]

theorem lists_nil (path : List String) (start : Nat) : s.Lists t path start [] := by
  refine ⟨[], by rw [bindAll, List.map_nil], .nil, ?_⟩
  simp

/-- The places of what is listed begin with the index of the selection. -/
theorem ReportableAt.exists_place {i : Nat} {selection : Selection} {x : Finding}
    (h : s.ReportableAt t i selection x) : ∃ place, x.place = i :: place := by
  cases h with
  | own => exact ⟨[], rfl⟩
  | inside => exact ⟨_, rfl⟩

theorem lists_cons (ht : s.registry.get? t.name = some t) {selection : Selection}
    {rest : List Selection} {path : List String} {start : Nat}
    (hinside : ∀ inner, s.registry.get? inner.name = some inner → ∀ path,
      s.Lists inner path 0 selection.inside)
    (hrest : s.Lists t path (start + 1) rest) : s.Lists t path start (selection :: rest) := by
  obtain ⟨first, hbind, hordered, hmem⟩ := exists_findings_of_inside ht hinside path start
  obtain ⟨others, hbind', hordered', hmem'⟩ := hrest
  refine ⟨first ++ others, ?_, ?_, ?_⟩
  · rw [bindAll, hbind, hbind', List.map_append]
  · rw [List.pairwise_append]
    refine ⟨hordered, hordered', ?_⟩
    intro x hx y hy
    obtain ⟨place, hplace⟩ := ((hmem x).1 hx).exists_place
    obtain ⟨i, _, -, hr⟩ := (hmem' y).1 hy
    obtain ⟨place', hplace'⟩ := hr.exists_place
    have hlt : start < start + 1 + i := by omega
    rw [Finding.Before, hplace, hplace']
    exact .inl (List.cons_lt_cons_iff.2 (.inl hlt))
  · intro x
    rw [List.mem_append, hmem, hmem']
    constructor
    · rintro (hx | ⟨i, next, hn, hx⟩)
      · exact ⟨0, selection, rfl, hx⟩
      · refine ⟨i + 1, next, hn, ?_⟩
        rwa [Nat.add_right_comm, Nat.add_assoc] at hx
    · rintro ⟨i, next, hn, hx⟩
      cases i with
      | zero =>
        obtain rfl := Option.some.inj hn
        exact .inl hx
      | succ i =>
        refine .inr ⟨i, next, hn, ?_⟩
        rwa [Nat.add_right_comm, Nat.add_assoc]

mutual

theorem lists_inside : (selection : Selection) → ∀ t : TypeDef σ,
    s.registry.get? t.name = some t → ∀ path, s.Lists t path 0 selection.inside
  | .field ⟨_, _, _, none⟩, _, _, path => lists_nil path 0
  | .field ⟨_, _, _, some selections⟩, t, ht, path => lists selections t ht path 0
  | .fragment _ selections, t, ht, path => lists selections t ht path 0

/-- **Binding lists what there is to report of selections.** -/
theorem lists : (selections : List Selection) → ∀ t : TypeDef σ,
    s.registry.get? t.name = some t → ∀ path start, s.Lists t path start selections
  | [], _, _, path, start => lists_nil path start
  | selection :: rest, t, ht, path, start =>
    lists_cons ht (lists_inside selection) (lists rest t ht path (start + 1))

end

/-! ## What offends is reported, or is inside something that is -/

theorem exists_reportable (ht : s.registry.get? t.name = some t) {selections : List Selection}
    {place : List Nat} {around : List Selection} {selection : Selection}
    (hat : Selection.At selections place around selection) {t' : TypeDef σ}
    (hst : s.StaticType t around t') {fault : BindingFault}
    (hoff : s.Offends t' selection fault) : ∃ x, s.Reportable t selections x := by
  induction hat generalizing t with
  | here h =>
    cases hst
    exact ⟨_, (reportable_iff ht).2 ⟨_, _, h, .own hoff⟩⟩
  | @inside _ i outer _ _ _ ho _ ih =>
    cases hst with
    | inside hi hst =>
      by_cases hn : ∃ fault, s.Offends t outer fault
      · obtain ⟨fault, h⟩ := hn
        exact ⟨_, (reportable_iff ht).2 ⟨i, outer, ho, .own h⟩⟩
      · obtain ⟨x, hx⟩ := ih (hi.get? ht) hst hoff
        exact ⟨_, (reportable_iff ht).2 ⟨i, outer, ho, .inside (not_exists.1 hn) hi hx⟩⟩

/-- Where nothing offends, every selection stands on a static type. -/
theorem exists_staticType (ht : s.registry.get? t.name = some t) {selections : List Selection}
    (hnone : ∀ place around selection t' fault, Selection.At selections place around selection →
      s.StaticType t around t' → ¬ s.Offends t' selection fault)
    {place : List Nat} {around : List Selection} {selection : Selection}
    (hat : Selection.At selections place around selection) : ∃ t', s.StaticType t around t' := by
  induction hat generalizing t with
  | here => exact ⟨t, .outermost⟩
  | @inside _ i outer _ _ _ ho h ih =>
    have hn : ∀ fault, ¬ s.Offends t outer fault :=
      fun fault => hnone _ _ outer t fault (.here ho) .outermost
    cases s.binds ht [] outer with
    | @faulty faults hne hfaults =>
      obtain ⟨fault, hm⟩ := List.exists_mem_of_ne_nil faults hne
      exact absurd ((hfaults.mem_iff fault).1 hm) (hn fault)
    | nothing _ hi =>
      rw [hi] at h
      exact absurd h Selection.not_at_nil
    | inside _ hi =>
      obtain ⟨t', hst⟩ := ih (hi.get? ht) fun _ _ selection t' fault hat hst =>
        hnone _ _ selection t' fault (.inside ho hat) (.inside hi hst)
      exact ⟨t', .inside hi hst⟩

theorem bind_eq_bindAll {operation : Operation} {root : ObjectType σ}
    (h : s.root? operation.kind = some root) :
    s.bind operation = s.bindAll (.object root) [] operation.selections ∧
      s.registry.get? root.name = some (.object root) := by
  obtain ⟨name, hname, hobject⟩ := Option.bind_eq_some_iff.1 h
  have hget := Registry.object?_eq_some_iff.1 hobject
  constructor
  · rw [bind, hname, Option.bind_some, hget]
  · exact Registry.get?_name hget

/-- **Binding reports exactly what offends.** In an operation with a root, the errors are those of
the selections that offend and stand inside none that does, one for each of their faults and in
document order, each with the response keys of the fields from the root down to the selection. So
there are none if and only if nothing offends; then every selection stands on a static type and,
where introspection is disabled, none is `__typename`. -/
theorem bind_exact (s : Schema σ) (operation : Operation) {root : ObjectType σ}
    (hroot : s.root? operation.kind = some root) :
    (∃ findings : List Finding, s.bind operation = findings.map Finding.error ∧
      findings.Pairwise Finding.Before ∧
      ∀ x, x ∈ findings ↔ s.Reportable (.object root) operation.selections x) ∧
    (s.bind operation = [] ↔ ∀ place around selection t fault,
      Selection.At operation.selections place around selection →
      s.StaticType (.object root) around t → ¬ s.Offends t selection fault) ∧
    (s.bind operation = [] → ∀ place around selection,
      Selection.At operation.selections place around selection →
      ∃ t, s.StaticType (.object root) around t) ∧
    (s.introspectionDisabled = true → s.bind operation = [] → ∀ place around node,
      Selection.At operation.selections place around (.field node) →
      node.name ≠ "__typename") := by
  obtain ⟨hbind, hget⟩ := bind_eq_bindAll hroot
  obtain ⟨findings, heq, hordered, hmem⟩ := lists operation.selections (.object root) hget [] 0
  have herrors : s.bind operation = findings.map Finding.error := by
    rw [hbind, heq]
    rfl
  have hreports : ∀ x, x ∈ findings ↔ s.Reportable (.object root) operation.selections x := by
    intro x
    rw [hmem, reportable_iff hget]
    simp only [Nat.zero_add]
  have hempty : s.bind operation = [] ↔ ∀ place around selection t fault,
      Selection.At operation.selections place around selection →
      s.StaticType (.object root) around t → ¬ s.Offends t selection fault := by
    rw [herrors, List.map_eq_nil_iff, List.eq_nil_iff_forall_not_mem]
    constructor
    · intro h place around selection t fault hat hst hoff
      obtain ⟨x, hx⟩ := exists_reportable hget hat hst hoff
      exact h x ((hreports x).2 hx)
    · intro h x hx
      obtain ⟨around, selection, t, hat, hst, hoff, -⟩ := (hreports x).1 hx
      exact h x.place around selection t x.fault hat hst hoff
  have htyped : s.bind operation = [] → ∀ place around selection,
      Selection.At operation.selections place around selection →
      ∃ t, s.StaticType (.object root) around t := by
    intro h place around selection hat
    exact exists_staticType hget (hempty.1 h) hat
  refine ⟨⟨findings, herrors, hordered, hreports⟩, hempty, htyped, ?_⟩
  intro hd h place around node hat hn
  obtain ⟨t, hst⟩ := htyped h place around (.field node) hat
  exact hempty.1 h place around (.field node) t _ hat hst (.introspection hn hd)

end Schema

namespace Spreading

/-- What is asked of a pet, with faults at three depths. -/
def faulty : Operation :=
  ⟨.query, none, [
    .field ⟨some "p", "pet", [], some [
      .field ⟨none, "name", [], some [.field ⟨none, "length", [], none⟩]⟩,
      .fragment (some "Dog") [.field ⟨none, "bark", [], none⟩],
      .fragment (some "Robot") [.field ⟨none, "name", [], none⟩]]⟩,
    .field ⟨none, "pet", [], none⟩]⟩

/-- Nothing is said of what is inside the faulty selection of names and the faulty fragment on
robots, and the field of the dog has the keys around the fragment before its own. -/
theorem bind_exact_faulty :
    schema.root? faulty.kind = some root ∧
      schema.bind faulty = [⟨["p", "name"], .selectionOnLeaf "name" (.named "String")⟩,
        ⟨["p", "bark"], .unknownField "bark" "Dog"⟩, ⟨["p"], .impossibleCondition "Pet" "Robot"⟩,
        ⟨["pet"], .missingSelection "pet" (.named "Pet")⟩] ∧
      ∃ findings : List Finding, schema.bind faulty = findings.map Finding.error ∧
        findings.Pairwise Finding.Before ∧
        ∀ x, x ∈ findings ↔ schema.Reportable (.object root) faulty.selections x := by
  have hroot : schema.root? faulty.kind = some root := rfl
  exact ⟨hroot, rfl, (Schema.bind_exact schema faulty hroot).1⟩

end Spreading

end GraphQL
