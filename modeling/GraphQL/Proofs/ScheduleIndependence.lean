import GraphQL.Proofs.ErrorOrder
import GraphQL.Proofs.Liveness
import GraphQL.Proofs.Stateless

/-!
# Schedules make no difference

Which resolvers answer at once, how long the promises of the others take, and in which order
everything goes on: none of it shows in the output of a stateless schema. All executions of an
operation have the same outcome (`Context.Yields.unique`), and the outcome decides the output, the
order of keys, items and errors included (`EndsWith.errors_eq_of_reaches`). Where delays come to an
end, so do executions (`execute_independent_of_schedule`).
-/

namespace GraphQL

namespace Schema

variable {σ τ : Type} {s : Schema σ} {t : Schema τ} {run : Run}
  {computation? : String → String → Option Computation}

/-! ## Outcomes decide outputs -/

/-- Operations start at the same root in schemas that resemble one another. -/
theorem Resembles.alike_root (hr : s.Resembles t) {kind : OperationKind} {root : ObjectType σ}
    {root' : ObjectType τ} (hroot : s.root? kind = some root) (hroot' : t.root? kind = some root')
    {v : Value} {selections : List Selection} :
    Spot.Alike s t (.object (.named root.name) root v selections)
      (.object (.named root'.name) root' v selections) := by
  obtain ⟨name, hn, ha⟩ := Option.bind_eq_some_iff.1 hroot
  obtain ⟨name', hn', hb⟩ := Option.bind_eq_some_iff.1 hroot'
  rw [← hr.rootName?, hn, Option.some.injEq] at hn'
  subst hn'
  rw [Registry.object?_eq_some_iff] at ha hb
  have hname : root.name = root'.name := congrArg ObjectType.name (hr.plain_eq ha hb)
  rw [← hname]
  exact .object ha hb

theorem EndsWith.errors_eq_of_reaches {state : σ} {log : List Entry} {out : Output} {o : Outcome}
    (h : s.EndsWith run state log out) (hr : s.Reaches run log out o) :
    out.errors = LocatedError.sorted (o.errors []) := by
  have hperm : (Entry.errors log 0).Perm (o.errors []) := by
    refine (LocatedError.perm_sorted (Entry.errors log 0)).symm.trans ?_
    rw [← h.errors_eq]
    exact hr.errors
  have hapart := Outcome.pairwise_apart_errors hr.yields.distinctKeys []
  rw [h.errors_eq]
  exact (LocatedError.sorted_eq_of_perm hperm.symm hapart).symm

/-- Executions that have the same outcome have the same output. -/
theorem EndsWith.eq_of_reaches {run' : Run} {state : σ} {state' : τ} {log log' : List Entry}
    {out out' : Output} {o : Outcome} (h : s.EndsWith run state log out)
    (hreach : s.Reaches run log out o) (h' : t.EndsWith run' state' log' out')
    (hreach' : t.Reaches run' log' out' o) : out = out' := by
  have hdata : out.data = out'.data := by
    have hcompletion := hreach.completion
    rw [hreach'.completion, Option.some.injEq] at hcompletion
    exact hcompletion.symm
  have herrors : out.errors = out'.errors := by
    rw [h.errors_eq_of_reaches hreach, h'.errors_eq_of_reaches hreach']
  obtain ⟨data, errors⟩ := out
  obtain ⟨data', errors'⟩ := out'
  exact congrArg₂ Output.mk hdata herrors

/-- Operations have one outcome on stateless schemas that resemble one another. -/
theorem Yields.unique (hr : s.Resembles t) (hs : s.Computes computation?)
    (ht : t.Computes computation?) {o o' : Outcome} (h : s.Yields run o) (h' : t.Yields run o') :
    o = o' := by
  obtain ⟨root, hroot, hy⟩ := h
  obtain ⟨root', hroot', hy'⟩ := h'
  exact hy.unique hr hs ht (hr.alike_root hroot hroot') hy'

/-- Ends of executions on stateless schemas that resemble one another are the same. -/
theorem EndsWith.unique (hr : s.Resembles t) (hs : s.Computes computation?)
    (ht : t.Computes computation?) {state : σ} {state' : τ} {log log' : List Entry}
    {out out' : Output} (h : s.EndsWith run state log out)
    (h' : t.EndsWith run state' log' out') : out = out' := by
  obtain ⟨o, hreach⟩ := h.exists_outcome
  obtain ⟨o', hreach'⟩ := h'.exists_outcome
  obtain rfl : o = o' := hreach.yields.unique hr hs ht hreach'.yields
  exact h.eq_of_reaches hreach h' hreach'

/-! ## Stateless executions end -/

theorem Computes.keepsPromises (h : s.Computes computation?) : s.KeepsPromises := by
  intro name o ho field hf resolver hr parent arguments state
  have hc := h name o ho field hf
  unfold Field.Computes at hc
  rw [Option.mem_def.1 hr] at hc
  cases hcomputation : computation? name field.name with
  | none =>
    rw [hcomputation] at hc
    exact hc.elim
  | some computation =>
    rw [hcomputation] at hc
    have hcomes := hc parent arguments state
    cases hres : (resolver parent arguments state).1 with
    | ready result => exact trivial
    | pending delay? finish =>
      rw [hres] at hcomes
      exact hcomes.1

/-- **The output of a stateless schema does not depend on the schedule.** Two schemas that differ in
nothing but when their resolvers answer execute an operation to the same output, and so does every
interleaving. -/
theorem execute_independent_of_schedule (hr : s.Resembles t) (hs : s.Computes computation?)
    (ht : t.Computes computation?) (run : Run) (hb : s.bind run.operation = []) (state : σ)
    (state' : τ) :
    ∃ out, (s.execute none run state).ending = .ok (.ok out) ∧
      (t.execute none run state').ending = .ok (.ok out) ∧
      (∀ log out', s.EndsWith run state log out' → out' = out) ∧
      (∀ log out', t.EndsWith run state' log out' → out' = out) := by
  have hb' : t.bind run.operation = [] := by
    rw [← hr.bind_eq, hb]
  obtain ⟨out, hout⟩ := exists_output_execute hs.keepsPromises hb state
  obtain ⟨out', hout'⟩ := exists_output_execute ht.keepsPromises hb' state'
  have heq : out = out' := (endsWith_execute hout).unique hr hs ht (endsWith_execute hout')
  refine ⟨out, hout, heq ▸ hout', ?_, ?_⟩
  · intro log out₁ h
    rw [heq]
    exact h.unique hr hs ht (endsWith_execute hout')
  · intro log out₁ h
    exact ((endsWith_execute hout).unique hr hs ht h).symm

end Schema

namespace Sample

/-- Gives at once what `findLate` gives later. -/
def findNow : Resolver Unit := fun _ _ state =>
  (.ready (.ok found), state)

def promptSchema : Schema Unit :=
  ⟨registry findNow, "Query", none, false, rfl, rfl, rfl, by simp⟩

def computation? (type field : String) : Option Computation :=
  if type = "Query" ∧ field = "found" then some fun _ _ => .ok found else none

theorem eq_item_or_root {resolver : Resolver Unit} {name : String} {o : ObjectType Unit}
    (h : (registry resolver).get? name = some (.object o)) : o = item ∨ o = root resolver := by
  have hm := Registry.mem_types_of_get? h
  simpa [Registry.types, registry, TypeDef.builtins, ScalarType.builtins] using hm

/-- The sample computes a function if its only resolver does. -/
theorem computes_of_comes {s : Schema Unit} {resolver : Resolver Unit}
    {result : Except FieldError Value} (hs : s.registry = registry resolver)
    (h : ∀ parent arguments state, (resolver parent arguments state).1.Comes result) :
    s.Computes fun type field =>
      if type = "Query" ∧ field = "found" then some fun _ _ => result else none := by
  intro name o ho field hf
  have hn : o.name = name := Registry.name_of_get? ho
  subst hn
  rw [hs] at ho
  rcases eq_item_or_root ho with rfl | rfl
  · have hresolver : field.resolver? = none := by
      rcases List.mem_cons.1 hf with rfl | hf
      · rfl
      · rw [List.mem_singleton.1 hf]
    simp [Field.Computes, hresolver, item]
  · rcases List.mem_cons.1 hf with rfl | hf
    · exact h
    · rw [List.mem_singleton.1 hf]
      exact trivial

/-- The sample has the same output if its resolver answers at once. -/
theorem execute_independent_of_schedule_sample :
    schema.Resembles promptSchema ∧ schema.bind run.operation = [] ∧
      ∃ out, (schema.execute none run ()).ending = .ok (.ok out) ∧
        (promptSchema.execute none run ()).ending = .ok (.ok out) := by
  have hr : schema.Resembles promptSchema := ⟨rfl, rfl, rfl, rfl⟩
  have hs : schema.Computes computation? :=
    computes_of_comes rfl fun _ _ _ => ⟨rfl, fun _ => rfl⟩
  have ht : promptSchema.Computes computation? := computes_of_comes rfl fun _ _ _ => rfl
  obtain ⟨out, hout, hout', -, -⟩ :=
    Schema.execute_independent_of_schedule hr hs ht run rfl () ()
  exact ⟨hr, rfl, out, hout, hout'⟩

end Sample

end GraphQL
