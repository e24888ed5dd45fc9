import GraphQL.Proofs.Execution.Sequence
import GraphQL.Proofs.Execution.Timing

/-!
# Going on with the clock and the tickets of before

Resolvers do not see the clock, nor the tickets of promises. So a job that is driven from where
another one left the machine does what it does on a machine that starts in the same state: only the
times are later and the tickets higher (`drive_after`).
-/

namespace GraphQL

variable {σ : Type}

/-- The entry, made that much later. -/
def Entry.later (delay : Nat) (entry : Entry) : Entry :=
  { entry with time := delay + entry.time }

namespace Machine

/-- The machine that goes on where `base` stands: clock and tickets run on, and so does the log. -/
def after (base m : Machine σ) : Machine σ :=
  ⟨base.now + m.now, base.tickets + m.tickets, m.state,
    base.log ++ m.log.map (Entry.later base.now)⟩

theorem after_start (base : Machine σ) : base.after (.start base.state) = base := by
  simp [after, start]

theorem record_after (base m : Machine σ) (run : Nat) (event : Event) :
    (base.after m).record run event = base.after (m.record run event) := by
  simp [after, record, Entry.later]

end Machine

/-- The promise of a job that goes on. -/
def Wait.after (base : Machine σ) (w : Wait) : Wait :=
  ⟨base.tickets + w.ticket, w.due?.map (base.now + ·)⟩

theorem Wait.next?_after (base : Machine σ) (waits : List Wait) :
    next? (waits.map (Wait.after base)) =
      (next? waits).map fun (ticket, due) => (base.tickets + ticket, base.now + due) := by
  induction waits with
  | nil => rfl
  | cons w rest ih =>
    obtain ⟨ticket, due?⟩ := w
    cases due? with
    | none => exact ih
    | some due =>
      simp only [List.map_cons, Wait.after, Option.map_some, next?, ih]
      cases next? rest with
      | none => rfl
      | some earliest =>
        obtain ⟨ticket', due'⟩ := earliest
        simp only [Option.map_some, Nat.add_lt_add_iff_left, Nat.add_left_cancel_iff]
        split <;> rfl

namespace Job

mutual

/-- The job on a machine that goes on where `base` stands. -/
def after (base : Machine σ) : Job σ → Job σ
  | .done completion => .done completion
  | .emit run event next => .emit run event (after base next)
  | .call c resolver next => .call c resolver fun result => after base (next result)
  | .await ticket due? c finish next =>
    .await (base.tickets + ticket) (due?.map (base.now + ·)) c finish fun result =>
      after base (next result)
  | .join turns members next =>
    .join turns (afterAll base members) fun completions => after base (next completions)

/-- The jobs on a machine that goes on where `base` stands. -/
def afterAll (base : Machine σ) : List (Job σ) → List (Job σ)
  | [] => []
  | job :: rest => after base job :: afterAll base rest

end

variable {base : Machine σ}

theorem completions?_afterAll (jobs : List (Job σ)) :
    completions? (afterAll base jobs) = completions? jobs := by
  induction jobs with
  | nil => rfl
  | cons job rest ih => cases job <;> simp [afterAll, after, completions?, completion?, ih]

mutual

theorem waits_after : (job : Job σ) → (job.after base).waits = job.waits.map (Wait.after base)
  | .done _ => rfl
  | .emit .. => rfl
  | .call .. => rfl
  | .await .. => rfl
  | .join _ members _ => waitsAll_after members

theorem waitsAll_after : (jobs : List (Job σ)) →
    waitsAll (afterAll base jobs) = (waitsAll jobs).map (Wait.after base)
  | [] => rfl
  | job :: rest => by
    rw [afterAll, waitsAll, waitsAll, List.map_append, waits_after job, waitsAll_after rest]

end

/-! ## Acting -/

mutual

theorem act_after : (job : Job σ) → (m : Machine σ) → (job.after base).act (base.after m) =
    ((job.act m).1.after base, base.after (job.act m).2.1, (job.act m).2.2)
  | .done completion, m => rfl
  | .emit run event next, m => by
    rw [after, act, act, Machine.record_after]
    exact act_after next _
  | .call c resolver next, m => by
    rw [after, act, act, Machine.record_after]
    have hstate : (base.after (m.record c.run (.called c))).state =
      (m.record c.run (.called c)).state := rfl
    simp only [hstate]
    cases resolver (m.record c.run (.called c)).state with
    | mk resolution state =>
      cases resolution with
      | ready result =>
        exact act_after (next result) { m.record c.run (.called c) with state := state }
      | pending delay? finish =>
        cases delay? with
        | none => rfl
        | some delay => simp [after, Machine.after, Machine.record, Nat.add_assoc]
  | .await ticket due? c finish next, m => rfl
  | .join turns members next, m => by
    rw [after, act, act]
    cases turns.current? with
    | some i =>
      simp only [actAt_after i members m]
      rfl
    | none =>
      simp only [completions?_afterAll]
      cases completions? members with
      | some completions => exact act_after (next completions) m
      | none => rfl

theorem actAt_after : (i : Nat) → (jobs : List (Job σ)) → (m : Machine σ) →
    actAt i (afterAll base jobs) (base.after m) =
      (afterAll base (actAt i jobs m).1, base.after (actAt i jobs m).2.1, (actAt i jobs m).2.2)
  | _, [], m => by
    rw [afterAll, actAt, actAt]
    rfl
  | 0, job :: rest, m => by
    rw [afterAll, actAt, actAt, act_after job m]
    rfl
  | i + 1, job :: rest, m => by
    rw [afterAll, actAt, actAt, actAt_after i rest m]
    rfl

end

/-! ## Keeping promises -/

mutual

theorem keep?_after {ticket : Nat} : (job : Job σ) → (m : Machine σ) →
    (job.after base).keep? (base.tickets + ticket) (base.after m) =
      (job.keep? ticket m).map fun (kept, m) => (kept.after base, base.after m)
  | .done _, _ => rfl
  | .emit .., _ => rfl
  | .call .., _ => rfl
  | .await ticket' due? c finish next, m => by
    rw [after, keep?, keep?]
    simp only [Nat.add_left_cancel_iff, Machine.record_after]
    split <;> rfl
  | .join turns members next, m => by
    rw [after, keep?, keep?, keepAny?_after members m]
    cases keepAny? ticket members m <;> rfl

theorem keepAny?_after {ticket : Nat} : (jobs : List (Job σ)) → (m : Machine σ) →
    keepAny? (base.tickets + ticket) (afterAll base jobs) (base.after m) =
      (keepAny? ticket jobs m).map fun (i, kept, m) => (i, afterAll base kept, base.after m)
  | [], _ => rfl
  | job :: rest, m => by
    rw [afterAll, keepAny?, keepAny?, keep?_after job m]
    cases job.keep? ticket m with
    | some kept => rfl
    | none =>
      simp only [Option.map_none, keepAny?_after rest m]
      cases keepAny? ticket rest m <;> rfl

end

/-! ## Driving -/

theorem IsOpen.after {job : Job σ} (h : job.IsOpen) : (job.after base).IsOpen := by
  intro completion heq
  cases job with
  | done completion => exact h completion rfl
  | _ => cases heq

/-- **A job does the same wherever it begins**, but later. -/
theorem drive_after (job : Job σ) (m : Machine σ) :
    (job.after base).drive none (base.after m) =
      ((job.drive none m).1, base.after (job.drive none m).2) := by
  fun_induction drive none job m with
  | case1 job m completion m₁ turn hact =>
    rw [drive_eq_driveOn, act_after, hact]
    rfl
  | case2 job m job₁ m₁ hd hact ih =>
    rw [drive_eq_driveOn, act_after, hact, driveOn_of_goesOn (IsOpen.after hd) _ (.inl rfl)]
    exact ih
  | case3 job m job₁ m₁ hd hact ih =>
    rw [drive_eq_driveOn, act_after, hact, driveOn_of_goesOn (IsOpen.after hd) _ (.inr rfl)]
    exact ih
  | case4 job m job₁ m₁ turn hd hg ha hact hn =>
    rw [drive_eq_driveOn, act_after, hact, driveOn_of_rests (IsOpen.after hd) _ hg ha,
      waits_after, Wait.next?_after, hn]
    rfl
  | case5 job m job₁ m₁ turn hd hg ha hact ticket due hn hl => simp at hl
  | case6 job m job₁ m₁ turn hd hg ha hact ticket due hn hl hk =>
    rw [drive_eq_driveOn, act_after, hact, driveOn_of_rests (IsOpen.after hd) _ hg ha,
      waits_after, Wait.next?_after, hn]
    have hkept : (job₁.after base).keep? (base.tickets + ticket)
        { base.after m₁ with now := base.now + due } = none :=
      (keep?_after job₁ { m₁ with now := due }).trans (by rw [hk]; rfl)
    simp [hkept]
  | case7 job m job₁ m₁ turn hd hg ha hact ticket due hn hl kept m₂ hkept ih =>
    rw [drive_eq_driveOn, act_after, hact, driveOn_of_rests (IsOpen.after hd) _ hg ha,
      waits_after, Wait.next?_after, hn]
    have hkept' : (job₁.after base).keep? (base.tickets + ticket)
        { base.after m₁ with now := base.now + due } = some (kept.after base, base.after m₂) :=
      (keep?_after job₁ { m₁ with now := due }).trans (by rw [hkept]; rfl)
    simp only [Option.map_some, Option.any_none, Bool.false_eq_true, if_false, hkept']
    exact ih

/-! ## Jobs that have not begun -/

theorem Silent.after_eq {job : Job σ} (h : job.Silent) : job.after base = job := by
  induction h with
  | done => rfl
  | emit _ _ ih => rw [after, ih]

theorem afterAll_eq {jobs : List (Job σ)} (h : ∀ job ∈ jobs, job.after base = job) :
    afterAll base jobs = jobs := by
  induction jobs with
  | nil => rfl
  | cons job rest ih =>
    rw [List.forall_mem_cons] at h
    rw [afterAll, h.1, ih h.2]

/-- A job that waits for nothing is the same on every machine. -/
theorem Unbegun.after_eq {job : Job σ} (h : job.Unbegun) : job.after base = job := by
  induction h with
  | done => rfl
  | emit _ _ ih => rw [after, ih]
  | call _ ih => simp only [after, ih]
  | @join turns members next _ hn ih =>
    have hnext : ∀ completions, (next completions).after base = next completions := by
      intro completions
      exact (hn completions).after_eq
    simp only [after, afterAll_eq ih, hnext]

/-- **A job that has not begun can be driven on its own**: on a machine that starts in the same
state it comes to the same, and its log is what it adds to that of any other machine. -/
theorem Unbegun.drive_eq {job : Job σ} (h : job.Unbegun) (m : Machine σ) :
    job.drive none m =
      ((job.drive none (.start m.state)).1, m.after (job.drive none (.start m.state)).2) := by
  have hdrive : (job.after m).drive none (m.after (.start m.state)) = _ :=
    drive_after job (.start m.state)
  rwa [h.after_eq, m.after_start] at hdrive

end Job

end GraphQL
