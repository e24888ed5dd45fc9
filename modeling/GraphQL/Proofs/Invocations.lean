import GraphQL.Proofs.Execution.Evaluation
import GraphQL.Proofs.Outcome.Calls
import GraphQL.Proofs.Outcome.Recounts

/-!
# Each resolver is called exactly once

A call is owed to every object that an execution comes to and every response key that is collected
for it, if the first node of the key names a field with a resolver and its arguments can be coerced
(`Schema.Owes`). Nothing else matters: not how often the key is asked for, nor what became of the
object or of its other fields. An execution that has come to its end has made the calls that it
owed, each of them once, and no others (`Schema.execute_calls_once`).
-/

namespace GraphQL

namespace Context

variable {σ : Type} {ctx : Context σ}

theorem call?_eq_some_iff {o : ObjectType σ} {parent : Value} {nodes : List (FieldNode Selection)}
    {path : Path} {c : Call} : ctx.call? o parent nodes path = some c ↔
      ∃ node rest field arguments, nodes = node :: rest ∧ node.name ≠ "__typename" ∧
        o.field? node.name = some field ∧ field.resolver?.isSome = true ∧
        ctx.schema.registry.coerceArguments field node.arguments ctx.vars = .ok arguments ∧
        c = ⟨ctx.run, o.name, field.name, path, parent, arguments⟩ := by
  constructor
  · intro h
    unfold call? at h
    split at h
    · cases h
    · next node rest =>
      split at h
      · cases h
      · next hn =>
        split at h
        · cases h
        · next field hf =>
          split at h
          · cases h
          · next arguments ha =>
            obtain ⟨resolver, hr, rfl⟩ := Option.map_eq_some_iff.1 h
            exact ⟨node, rest, field, arguments, rfl, hn, hf, by rw [hr]; rfl, ha, rfl⟩
  · rintro ⟨node, rest, field, arguments, rfl, hn, hf, hr, ha, rfl⟩
    obtain ⟨resolver, hr⟩ := Option.isSome_iff_exists.1 hr
    simp [call?, hn, hf, ha, hr]

end Context

namespace Schema

variable {σ : Type} {s : Schema σ} {run : Run} {state : σ} {log : List Entry} {out : Output}
  {results : Results} {o : Outcome}

/-- The calls that are owed: for an object that the execution comes to, with its value as parent,
and for a response key that is collected for it, with the arguments of the first node. -/
inductive Owes (s : Schema σ) (run : Run) (results : Results) : Call → Prop where
  | call {p type o v selections key node rest field arguments}
    (hp : s.ComesTo run results p (.object type o v selections))
    (hk : (key, node :: rest) ∈ s.registry.collect o selections)
    (hn : node.name ≠ "__typename") (hf : o.field? node.name = some field)
    (hr : field.resolver?.isSome = true)
    (ha : s.registry.coerceArguments field node.arguments run.vars = .ok arguments) :
    Owes s run results ⟨0, o.name, field.name, p.field key, v, arguments⟩

namespace Recounts

/-- What was called for a field of the outcome was owed, and it was called for its position. -/
theorem owes_of_invokes (h : s.Recounts run log out results o) {p : Path} {o' : Outcome}
    {key : String} {c : Call} (ha : o.at? p = some o') (hi : o'.Invokes key c) :
    s.Owes run results c ∧ c.path = p.field key := by
  obtain ⟨spot, hcomes, hspot⟩ := h.exists_comesTo ha
  cases hi with
  | field hm =>
    obtain ⟨object, v, selections, hobject, hspot⟩ := hspot.exists_object
    cases hspot with
    | fields hkeys hcalls _ =>
      obtain ⟨nodes, hn⟩ := Keyed.exists_mem_of_keys_eq hkeys hm
      have hcall := hcalls key nodes _ _ hn hm
      obtain ⟨node, rest, field, arguments, rfl, hname, hf, hr, harguments, rfl⟩ :=
        Context.call?_eq_some_iff.1 hcall.symm
      exact ⟨.call (hcomes.stay hobject) hn hname hf hr harguments, rfl⟩

theorem exists_invokes_of_owes (h : s.Recounts run log out results o) {c : Call}
    (hc : s.Owes run results c) : ∃ p o' key, o.at? p = some o' ∧ o'.Invokes key c := by
  obtain ⟨hp, hk, hn, hf, hr, ha⟩ := hc
  obtain ⟨o', hat, hspot⟩ := h.exists_at? hp
  cases hspot with
  | fields hkeys hcalls _ =>
    obtain ⟨⟨call?, child⟩, hm⟩ := Keyed.exists_mem_of_keys_eq hkeys.symm hk
    have hcall := hcalls _ _ call? child hk hm
    rw [Context.call?_eq_some_iff.2 ⟨_, _, _, _, rfl, hn, hf, hr, ha, rfl⟩] at hcall
    exact ⟨_, _, _, hat, .field (hcall ▸ hm)⟩

theorem callsInPlace (h : s.Recounts run log out results o) : o.CallsInPlace [] := by
  intro p o' key c ha hi
  exact (h.owes_of_invokes ha hi).2

/-- The calls in the log are those that are owed. -/
theorem mem_calls_iff (h : s.Recounts run log out results o) {c : Call} :
    c ∈ Entry.calls log 0 ↔ s.Owes run results c := by
  rw [h.reaches.calls.mem_iff, Outcome.mem_calls_iff h.reaches.yields.distinctKeys]
  constructor
  · rintro ⟨p, o', key, ha, hi⟩
    exact (h.owes_of_invokes ha hi).1
  · exact h.exists_invokes_of_owes

/-- No two calls in the log are for the same position. -/
theorem nodup_calls (h : s.Recounts run log out results o) :
    ((Entry.calls log 0).map Call.path).Nodup := by
  rw [(h.reaches.calls.map Call.path).nodup_iff, List.Nodup, List.pairwise_map]
  exact Outcome.pairwise_calls h.reaches.yields.distinctKeys h.callsInPlace

end Recounts

/-- **Each resolver is called exactly once.** An execution that has come to its end calls resolvers
for the objects that it came to and the response keys that were collected for them, once for each,
and it calls no others. -/
theorem execute_calls_once (h : s.EndsWith run state log out) :
    ∃ results o, s.Recounts run log out results o ∧
      ((Entry.calls log 0).map Call.path).Nodup ∧
      ∀ c, c ∈ Entry.calls log 0 ↔ s.Owes run results c := by
  obtain ⟨results, o, hr⟩ := h.exists_recounts
  exact ⟨results, o, hr, hr.nodup_calls, fun c => hr.mem_calls_iff⟩

end Schema

/-! ## A sample -/

namespace Labels

/-- Labels an item by the name that its value has. -/
def label : Field Unit :=
  ⟨"label", none, [⟨"prefix", none, .named "String", none⟩], .named "String", .current,
    some fun parent _ state => (.ready (.ok ((parent.entry? "name").getD .null)), state)⟩

def item : ObjectType Unit :=
  ⟨"Item", none,
    .eager [label, ⟨"name", none, [], .nonNull (.named "String"), .current, none⟩], []⟩

def root : ObjectType Unit :=
  ⟨"Query", none, .eager [⟨"items", none, [], .list (.named "Item"), .current, none⟩], []⟩

def schema : Schema Unit :=
  ⟨⟨[.object item, .object root], by
      change ["String", "Int", "Float", "Boolean", "ID", "Item", "Query"].Nodup
      decide⟩,
    "Query", none, false, rfl, rfl, rfl, by simp⟩

/-- Asks for the label of each item twice, once with an argument. -/
def selections : List Selection :=
  [.field ⟨none, "label", [], none⟩, .fragment (some "Item") [
    .field ⟨none, "label", [("prefix", .scalar (.string "x"))], none⟩],
    .field ⟨none, "name", [], none⟩]

/-- The second item has no name, so it will be `null`. -/
def run : Run :=
  ⟨⟨.query, none, [.field ⟨none, "items", [], some selections⟩]⟩,
    .object [("items", .list [.object [("name", .string "a")], .object []])], []⟩

def data : Value :=
  .object [("items", .list [.object [("label", .string "a"), ("name", .string "a")], .null])]

def error : LocatedError :=
  ⟨[.field "items", .index 1, .field "name"],
    .ofFault (.nullInNonNull (.nonNull (.named "String")))⟩

/-- The call for the label of an item. -/
def call (i : Nat) (item : Value) : Call :=
  ⟨0, "Item", "label", [.field "items", .index i, .field "label"], item, []⟩

theorem ending_execute : (schema.execute none run ()).ending =
    .ok (.ok ⟨data, LocatedError.sorted [error]⟩) :=
  Schema.ending_execute rfl 60 rfl

/-- The labels of both items are resolved once, also that of the item that comes to nothing. -/
theorem execute_calls_once_sample :
    schema.EndsWith run () (schema.execute none run ()).log
        ⟨data, LocatedError.sorted [error]⟩ ∧
      Entry.calls (schema.execute none run ()).log 0 =
        [call 0 (.object [("name", .string "a")]), call 1 (.object [])] ∧
      ∃ results, ∀ c, schema.Owes run results c ↔
        c = call 0 (.object [("name", .string "a")]) ∨ c = call 1 (.object []) := by
  have hends := Schema.endsWith_execute ending_execute
  have hcalls : Entry.calls (schema.execute none run ()).log 0 =
      [call 0 (.object [("name", .string "a")]), call 1 (.object [])] := by
    rw [Schema.log_execute 60 rfl]
    rfl
  obtain ⟨results, o, -, -, howes⟩ := Schema.execute_calls_once hends
  refine ⟨hends, hcalls, results, ?_⟩
  intro c
  rw [← howes, hcalls]
  simp

end Labels

end GraphQL
