import GraphQL.Proofs.Execution.Interleaving

/-!
# Evaluating executions

`Job.drive` goes on for as long as there is something to do, which no evaluation can unfold.
`Job.driveWithin?` does the same within a number of steps; what it comes to is what `drive` comes to
(`drive_of_driveWithin?`), so an execution on a fixed schema can be computed
(`Schema.ending_execute`).
-/

namespace GraphQL

namespace Job

variable {σ : Type}

/-- Drives a job as `drive` does, for a number of steps at most. -/
def driveWithin? (limit? : Option Nat) : (steps : Nat) → Job σ → Machine σ →
    Option (Except Unfinished Completion × Machine σ)
  | 0, _, _ => none
  | steps + 1, job, m =>
    match job.act m with
    | (.done completion, m, _) => some (.ok completion, m)
    | (job', m, .goesOn) | (job', m, .asks) => driveWithin? limit? steps job' m
    | (job', m, _) =>
      match Wait.next? job'.waits with
      | none => some (.error .stuck, m)
      | some (ticket, due) =>
        if limit?.any (· < due) then some (.error .cancelled, m)
        else
          match job'.keep? ticket { m with now := due } with
          | none => some (.error .stuck, m)
          | some (kept, m) => driveWithin? limit? steps kept m

theorem drive_of_driveWithin? {limit? : Option Nat} {steps : Nat} {job : Job σ} {m : Machine σ}
    {r : Except Unfinished Completion × Machine σ} (h : job.driveWithin? limit? steps m = some r) :
    job.drive limit? m = r := by
  fun_induction drive limit? job m generalizing steps with
  | case1 job m completion m₁ turn hact =>
    cases steps <;> simp_all [driveWithin?]
  | case2 job m job₁ m₁ hd hact ih =>
    cases steps with
    | zero => cases h
    | succ steps => exact ih (by simpa only [driveWithin?, hact] using h)
  | case3 job m job₁ m₁ hd hact ih =>
    cases steps with
    | zero => cases h
    | succ steps => exact ih (by simpa only [driveWithin?, hact] using h)
  | case4 job m job₁ m₁ turn hd hg ha hact hn =>
    cases steps <;> simp_all [driveWithin?]
  | case5 job m job₁ m₁ turn hd hg ha hact ticket due hn hl =>
    cases steps <;> simp_all [driveWithin?]
  | case6 job m job₁ m₁ turn hd hg ha hact ticket due hn hl hk =>
    cases steps <;> simp_all [driveWithin?]
  | case7 job m job₁ m₁ turn hd hg ha hact ticket due hn hl kept m₂ hkept ih =>
    cases steps with
    | zero => cases h
    | succ steps =>
      rw [driveWithin?, hact] at h
      simp only [hn, if_neg hl, hkept] at h
      exact ih h

end Job

namespace Schema

variable {σ : Type}

/-- An execution ends with the data that is computed and the errors that are recorded on the way. -/
theorem ending_execute {s : Schema σ} {limit? : Option Nat} {run : Run} {state : σ}
    (hb : s.bind run.operation = []) (steps : Nat) {data : Value} {errors : List LocatedError}
    (h : ((s.job 0 run).driveWithin? limit? steps (.start state)).map
      (fun r => (r.1, Entry.errors r.2.log 0)) = some (.ok (some data), errors)) :
    (s.execute limit? run state).ending = .ok (.ok ⟨data, LocatedError.sorted errors⟩) := by
  obtain ⟨⟨ending, m⟩, hr, heq⟩ := Option.map_eq_some_iff.1 h
  simp only [Prod.mk.injEq] at heq
  obtain ⟨rfl, rfl⟩ := heq
  unfold execute Job.report
  rw [Job.drive_of_driveWithin? hr]
  simp [Except.map, answer, hb]

/-- An execution logs what is logged within so many steps. -/
theorem log_execute {s : Schema σ} {limit? : Option Nat} {run : Run} {state : σ} (steps : Nat)
    {log : List Entry}
    (h : ((s.job 0 run).driveWithin? limit? steps (.start state)).map (fun r => r.2.log) =
      some log) : (s.execute limit? run state).log = log := by
  obtain ⟨r, hr, rfl⟩ := Option.map_eq_some_iff.1 h
  unfold execute Job.report
  rw [Job.drive_of_driveWithin? hr]

end Schema

/-! ## A sample -/

namespace Sample

/-- An object type with a name that must not be `null` and with parts of its own type. -/
def item : ObjectType Unit :=
  ⟨"Item", none, .eager
    [⟨"name", none, [], .nonNull (.named "String"), .current, none⟩,
      ⟨"parts", none, [], .list (.nonNull (.named "Item")), .current, none⟩], ["Named"]⟩

/-- The interface of everything that has a name. -/
def named : InterfaceType Unit :=
  ⟨"Named", none, .eager [⟨"name", none, [], .named "String", .current, none⟩], none⟩

/-- A root with something named, which a resolver gives, and an item, which the root value holds. -/
def root (resolver : Resolver Unit) : ObjectType Unit :=
  ⟨"Query", none, .eager
    [⟨"found", none, [], .named "Named", .current, some resolver⟩,
      ⟨"item", none, [], .named "Item", .current, none⟩], []⟩

def registry (resolver : Resolver Unit) : Registry Unit :=
  ⟨[.object item, .interface named, .object (root resolver)], by
    change ["String", "Int", "Float", "Boolean", "ID", "Item", "Named", "Query"].Nodup
    decide⟩

/-- What is found: an item with a part that has no name. -/
def found : Value :=
  .object [("__typename", .string "Item"), ("name", .string "a"),
    ("parts", .list [.object [("name", .string "b")], .object []])]

/-- Gives what is found after two ticks of the clock. -/
def findLate : Resolver Unit := fun _ _ state =>
  (.pending (some 2) fun state => (.ok found, state), state)

def schema : Schema Unit :=
  ⟨registry findLate, "Query", none, false, rfl, rfl, rfl, by simp⟩

/-- Asks for a field with a selection. -/
def field (name : String) (selections : List Selection) : Selection :=
  .field ⟨none, name, [], if selections.isEmpty then none else some selections⟩

/-- Asks for something named, for its parts if it is an item, and for the item of the root. -/
def operation : Operation :=
  ⟨.query, none,
    [field "found" [field "__typename" [], field "name" [],
      .fragment (some "Item") [field "parts" [field "name" []]]],
      field "item" [field "name" []]]⟩

/-- The item of the root has no name. -/
def run : Run :=
  ⟨operation, .object [("item", .object [])], []⟩

/-- The part without a name makes the list of parts `null`, the item without one itself. -/
def data : Value :=
  .object [("found", .object [("__typename", .string "Item"), ("name", .string "a"),
    ("parts", .null)]), ("item", .null)]

/-- The errors in the order in which they are recorded. -/
def errors : List LocatedError :=
  [⟨[.field "item", .field "name"], .ofFault (.nullInNonNull (.nonNull (.named "String")))⟩,
    ⟨[.field "found", .field "parts", .index 1, .field "name"],
      .ofFault (.nullInNonNull (.nonNull (.named "String")))⟩]

theorem ending_execute :
    (schema.execute none run ()).ending = .ok (.ok ⟨data, LocatedError.sorted errors⟩) :=
  Schema.ending_execute rfl 40 rfl

end Sample

end GraphQL
