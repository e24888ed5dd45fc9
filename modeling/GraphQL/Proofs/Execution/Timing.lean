import GraphQL.Proofs.Execution.Calls
import GraphQL.Proofs.Execution.Liveness

/-!
# When a job calls its resolvers

`Job.Starts time job es`: if the job goes on at the time, its calls and their completions may be the
entries `es`, each at its time. A member of a group starts when the group does, whatever the other
members do; what follows on a call starts when the call is answered, which is at once, or when its
promise is due, or never. Nothing is said of turns. For jobs that call no resolver after a group is
done (`Job.Underway`), the schedule makes all calls at these times (`exists_starts_drive`): the
clock stands still until all that is left waits, and what waits starts at the time at which its
promise is due.
-/

namespace GraphQL

/-- The calls of resolvers and their completions, with their times. -/
def Machine.calls {σ : Type} (m : Machine σ) : List Entry :=
  m.log.filter (·.event.isCall)

theorem Machine.calls_record {σ : Type} (m : Machine σ) (run : Nat) {event : Event}
    (h : event.isCall = true) : (m.record run event).calls = m.calls ++ [⟨run, m.now, event⟩] := by
  simp [calls, record, h]

theorem Machine.calls_record_of_not_isCall {σ : Type} (m : Machine σ) (run : Nat) {event : Event}
    (h : event.isCall = false) : (m.record run event).calls = m.calls := by
  simp [calls, record, h]

namespace Job

variable {σ : Type}

mutual

/-- Going on at the time, the job may make the calls, and see their completions, at the times. -/
inductive Starts : Nat → Job σ → List Entry → Prop where
  | done {time completion} : Starts time (.done completion) []
  | emit {time run event next es} (h : Starts time next es) :
    Starts time (.emit run event next) es
  | answer {time c resolver next es result} {state state' : σ}
    (hr : resolver state = (.ready result, state')) (h : Starts time (next result) es) :
    Starts time (.call c resolver next) (⟨c.run, time, .called c⟩ :: es)
  | promise {time c resolver next es delay? finish} {state state' : σ} (ticket : Nat)
    (hr : resolver state = (.pending delay? finish, state'))
    (h : Starts time (.await ticket (delay?.map (time + ·)) c finish next) es) :
    Starts time (.call c resolver next) (⟨c.run, time, .called c⟩ :: es)
  | keep {time ticket due c finish next es result} {state : σ} (hr : (finish state).1 = result)
    (h : Starts due (next result) es) :
    Starts time (.await ticket (some due) c finish next) (⟨c.run, due, .completed c⟩ :: es)
  | never {time ticket c finish next} : Starts time (.await ticket none c finish next) []
  | join {time turns members next es} (h : StartsAll time members es) :
    Starts time (.join turns members next) es

/-- Going on at the time, the jobs may make the calls, one job's after the other's. -/
inductive StartsAll : Nat → List (Job σ) → List Entry → Prop where
  | nil {time} : StartsAll time [] []
  | cons {time job rest es es'} (h : Starts time job es) (hr : StartsAll time rest es') :
    StartsAll time (job :: rest) (es ++ es')

end

/-- The job records events and ends. -/
inductive Silent : Job σ → Prop where
  | done {completion} : Silent (.done completion)
  | emit {run event next} (he : event.isCall = false) (h : Silent next) :
    Silent (.emit run event next)

/-- Nothing of the job has begun, and it calls no resolver after a group is done. -/
inductive Unbegun : Job σ → Prop where
  | done {completion} : Unbegun (.done completion)
  | emit {run event next} (he : event.isCall = false) (h : Unbegun next) :
    Unbegun (.emit run event next)
  | call {c resolver next} (h : ∀ result, Unbegun (next result)) :
    Unbegun (.call c resolver next)
  | join {turns members next} (hm : ∀ job ∈ members, Unbegun job)
    (hn : ∀ completions, Silent (next completions)) : Unbegun (.join turns members next)

/-- What is left of the job, apart from what it waits for, has not begun. -/
inductive Underway : Job σ → Prop where
  | unbegun {job} (h : Unbegun job) : Underway job
  | await {ticket due? c finish next} (h : ∀ result, Unbegun (next result)) :
    Underway (.await ticket due? c finish next)
  | join {turns members next} (hm : ∀ job ∈ members, Underway job)
    (hn : ∀ completions, Silent (next completions)) : Underway (.join turns members next)

/-! ## Jobs stay under way -/

theorem Silent.unbegun {job : Job σ} (h : job.Silent) : job.Unbegun := by
  induction h with
  | done => exact .done
  | emit he _ ih => exact .emit he ih

theorem Silent.callsOnly {P : Call → Prop} {job : Job σ} (h : job.Silent) : job.CallsOnly P := by
  induction h with
  | done => exact .done
  | emit he _ ih => exact .emit (by simp [Event.subject?_eq_none he]) ih

mutual

theorem Unbegun.waits_eq_nil : (job : Job σ) → job.Unbegun → job.waits = []
  | .done _, _ => rfl
  | .emit .., _ => rfl
  | .call .., _ => rfl
  | .await .., h => nomatch h
  | .join _ members _, .join hm _ => Unbegun.waitsAll_eq_nil members hm

theorem Unbegun.waitsAll_eq_nil : (jobs : List (Job σ)) → (∀ job ∈ jobs, job.Unbegun) →
    waitsAll jobs = []
  | [], _ => rfl
  | job :: rest, h => by
    rw [List.forall_mem_cons] at h
    rw [waitsAll, waits_eq_nil job h.1, waitsAll_eq_nil rest h.2, List.append_nil]

end

theorem Underway.of_emit {run : Nat} {event : Event} {next : Job σ}
    (h : Underway (.emit run event next)) : event.isCall = false ∧ next.Unbegun := by
  cases h with
  | unbegun h =>
    cases h with
    | emit he h => exact ⟨he, h⟩

theorem Underway.of_call {c : Call} {resolver : σ → Resolution σ × σ}
    {next : Except FieldError Value → Job σ} (h : Underway (.call c resolver next)) :
    ∀ result, (next result).Unbegun := by
  cases h with
  | unbegun h =>
    cases h with
    | call h => exact h

theorem Underway.of_await {ticket : Nat} {due? : Option Nat} {c : Call}
    {finish : σ → Except FieldError Value × σ} {next : Except FieldError Value → Job σ}
    (h : Underway (.await ticket due? c finish next)) : ∀ result, (next result).Unbegun := by
  cases h with
  | unbegun h => cases h
  | await h => exact h

theorem Underway.of_join {turns : Turns} {members : List (Job σ)}
    {next : List Completion → Job σ} (h : Underway (.join turns members next)) :
    (∀ job ∈ members, job.Underway) ∧ ∀ completions, (next completions).Silent := by
  cases h with
  | unbegun h =>
    cases h with
    | join hm hn => exact ⟨fun job hj => .unbegun (hm job hj), hn⟩
  | join hm hn => exact ⟨hm, hn⟩

mutual

theorem underway_of_move {job job' : Job σ} {m m' : Machine σ} (hm : Move (job, m) (job', m'))
    (h : job.Underway) : job'.Underway := by
  cases hm with
  | tick now => exact h
  | emit => exact .unbegun h.of_emit.2
  | answer hr => exact .unbegun (h.of_call _)
  | promise hr => exact .await h.of_call
  | keep hf => exact .unbegun (h.of_await _)
  | member turns' hm =>
    obtain ⟨hmembers, hn⟩ := h.of_join
    exact .join (underway_of_moveAny hm hmembers) hn
  | turn turns' =>
    obtain ⟨hmembers, hn⟩ := h.of_join
    exact .join hmembers hn
  | join hc => exact .unbegun (h.of_join.2 _).unbegun

theorem underway_of_moveAny {jobs jobs' : List (Job σ)} {m m' : Machine σ}
    (hm : MoveAny (jobs, m) (jobs', m')) (h : ∀ job ∈ jobs, job.Underway) :
    ∀ job ∈ jobs', job.Underway := by
  cases hm with
  | head hm =>
    rw [List.forall_mem_cons] at h
    exact List.forall_mem_cons.2 ⟨underway_of_move hm h.1, h.2⟩
  | tail hm =>
    rw [List.forall_mem_cons] at h
    exact List.forall_mem_cons.2 ⟨h.1, underway_of_moveAny hm h.2⟩

end

/-! ## Tickets tell promises apart -/

/-- What is left has not begun, and every promise that the job waits for has a ticket of its own
among those given out. -/
structure Orderly (job : Job σ) (m : Machine σ) : Prop where
  underway : job.Underway
  issued : ∀ w ∈ job.waits, w.ticket < m.tickets
  unique : ∀ w ∈ job.waits, ∀ w' ∈ job.waits, w.ticket = w'.ticket → w = w'

theorem Unbegun.orderly {job : Job σ} (h : job.Unbegun) (m : Machine σ) : job.Orderly m := by
  refine ⟨.unbegun h, ?_, ?_⟩ <;> simp [Unbegun.waits_eq_nil job h]

/-- Tickets have been given out since, and the jobs wait for one more promise at most: the one that
got the first of them. -/
def WaitsFrom (m m' : Machine σ) (waits waits' : List Wait) : Prop :=
  m.tickets ≤ m'.tickets ∧
    ∃ due?, ∀ w ∈ waits', w ∈ waits ∨ (w = ⟨m.tickets, due?⟩ ∧ m.tickets < m'.tickets)

theorem WaitsFrom.of_subset {m m' : Machine σ} {waits waits' : List Wait}
    (hm : m.tickets ≤ m'.tickets) (h : waits' ⊆ waits) : WaitsFrom m m' waits waits' :=
  ⟨hm, none, fun _ hw => .inl (h hw)⟩

theorem WaitsFrom.append {m m' : Machine σ} {waits waits' : List Wait}
    (h : WaitsFrom m m' waits waits') (before after : List Wait) :
    WaitsFrom m m' (before ++ (waits ++ after)) (before ++ (waits' ++ after)) := by
  obtain ⟨hm, due?, h⟩ := h
  refine ⟨hm, due?, ?_⟩
  intro w hw
  simp only [List.mem_append] at hw ⊢
  rcases hw with hw | hw | hw
  · exact .inl (.inl hw)
  · exact (h w hw).imp (fun hw => .inr (.inl hw)) id
  · exact .inl (.inr (.inr hw))

mutual

theorem waitsFrom_of_move {job job' : Job σ} {m m' : Machine σ} (hm : Move (job, m) (job', m'))
    (h : job.Underway) : WaitsFrom m m' job.waits job'.waits := by
  have unbegun : ∀ {next : Job σ}, next.Unbegun → next.waits ⊆ job.waits := by
    intro next hn
    rw [Unbegun.waits_eq_nil next hn]
    exact List.nil_subset _
  cases hm with
  | tick now => exact .of_subset (Nat.le_refl _) (List.Subset.refl _)
  | emit => exact .of_subset (Nat.le_refl _) (unbegun h.of_emit.2)
  | answer hr => exact .of_subset (Nat.le_refl _) (unbegun (h.of_call _))
  | @promise _ _ _ _ delay? _ _ hr =>
    refine ⟨Nat.le_succ _, delay?.map (m.now + ·), ?_⟩
    intro w hw
    rw [waits, List.mem_singleton] at hw
    exact .inr ⟨hw, Nat.lt_succ_self _⟩
  | keep hf => exact .of_subset (Nat.le_refl _) (unbegun (h.of_await _))
  | member turns' hm => exact waitsFrom_of_moveAny hm h.of_join.1
  | turn turns' => exact .of_subset (Nat.le_refl _) (List.Subset.refl _)
  | join hc => exact .of_subset (Nat.le_refl _) (unbegun (h.of_join.2 _).unbegun)

theorem waitsFrom_of_moveAny {jobs jobs' : List (Job σ)} {m m' : Machine σ}
    (hm : MoveAny (jobs, m) (jobs', m')) (h : ∀ job ∈ jobs, job.Underway) :
    WaitsFrom m m' (waitsAll jobs) (waitsAll jobs') := by
  cases hm with
  | @head _ rest _ _ _ hm =>
    rw [List.forall_mem_cons] at h
    exact (waitsFrom_of_move hm h.1).append [] (waitsAll rest)
  | @tail job _ _ _ _ hm =>
    rw [List.forall_mem_cons] at h
    simpa [waitsAll] using (waitsFrom_of_moveAny hm h.2).append job.waits []

end

theorem Orderly.of_move {job job' : Job σ} {m m' : Machine σ} (h : job.Orderly m)
    (hm : Move (job, m) (job', m')) : job'.Orderly m' := by
  obtain ⟨hle, due?, hw⟩ := waitsFrom_of_move hm h.underway
  refine ⟨underway_of_move hm h.underway, ?_, ?_⟩
  · intro w hw'
    rcases hw w hw' with hold | ⟨rfl, hlt⟩
    · exact Nat.lt_of_lt_of_le (h.issued w hold) hle
    · exact hlt
  · intro w₁ h₁ w₂ h₂ heq
    rcases hw w₁ h₁ with hold₁ | ⟨rfl, -⟩
    · rcases hw w₂ h₂ with hold₂ | ⟨rfl, -⟩
      · exact h.unique w₁ hold₁ w₂ hold₂ heq
      · exact absurd heq (Nat.ne_of_lt (h.issued w₁ hold₁))
    · rcases hw w₂ h₂ with hold₂ | ⟨rfl, -⟩
      · exact absurd heq.symm (Nat.ne_of_lt (h.issued w₂ hold₂))
      · rfl

theorem Orderly.of_interleaves {job job' : Job σ} {m m' : Machine σ} (h : job.Orderly m)
    (hi : Interleaves (job, m) (job', m')) : job'.Orderly m' := by
  suffices hs : ∀ snap : Snapshot σ, Interleaves (job, m) snap → snap.1.Orderly snap.2 from
    hs (job', m') hi
  intro snap hi
  induction hi with
  | refl => exact h
  | tail _ hm ih => exact ih.of_move hm

/-! ## Acting makes the calls that are due at once -/

mutual

theorem now_act : (job : Job σ) → (m : Machine σ) → (job.act m).2.1.now = m.now
  | .done _, _ => by
    rw [act]
  | .emit run event next, m => by
    rw [act]
    exact now_act next _
  | .call c resolver next, m => by
    rw [act]
    cases resolver (m.record c.run (.called c)).state with
    | mk resolution state =>
      cases resolution with
      | ready result => exact now_act (next result) _
      | pending delay? finish => rfl
  | .await .., _ => by
    rw [act]
  | .join turns members next, m => by
    rw [act]
    split
    · next i _ => exact now_actAt i members m
    · split
      · next completions _ => exact now_act (next completions) m
      · rfl

theorem now_actAt : (i : Nat) → (jobs : List (Job σ)) → (m : Machine σ) →
    (actAt i jobs m).2.1.now = m.now
  | _, [], _ => by
    rw [actAt]
  | 0, job :: _, m => by
    rw [actAt]
    exact now_act job m
  | i + 1, _ :: rest, m => by
    rw [actAt]
    exact now_actAt i rest m

end

/-- A job that is silent calls nothing, and is done when it has acted. -/
theorem Silent.act {job : Job σ} (h : job.Silent) (m : Machine σ) :
    (∃ completion, (job.act m).1 = .done completion) ∧ (job.act m).2.1.calls = m.calls := by
  induction h generalizing m with
  | done =>
    rw [Job.act]
    exact ⟨⟨_, rfl⟩, rfl⟩
  | @emit run _ _ he _ ih =>
    rw [Job.act]
    obtain ⟨hd, hc⟩ := ih (m.record run _)
    exact ⟨hd, hc.trans (m.calls_record_of_not_isCall run he)⟩

theorem startsAll_of_completions? {time : Nat} {jobs : List (Job σ)}
    {completions : List Completion} (h : completions? jobs = some completions) :
    StartsAll time jobs [] := by
  induction jobs generalizing completions with
  | nil => exact .nil
  | cons job rest ih =>
    cases job with
    | done completion =>
      obtain ⟨completions', hc, -⟩ := Option.map_eq_some_iff.1 h
      exact .cons .done (ih hc)
    | _ => cases h

/-- The machine has logged some calls since, and with those that are still to come, they are the
entries. -/
def Calls (m m' : Machine σ) (es es' : List Entry) : Prop :=
  ∃ new, m'.calls = m.calls ++ new ∧ es'.Perm (new ++ es)

theorem Calls.refl (m : Machine σ) (es : List Entry) : Calls m m es es :=
  ⟨[], (List.append_nil _).symm, .refl _⟩

theorem Calls.head {m m₁ m' : Machine σ} {e : Entry} {es es' : List Entry}
    (hc : m₁.calls = m.calls ++ [e]) (h : Calls m₁ m' es es') : Calls m m' es (e :: es') := by
  obtain ⟨new, hnew, hp⟩ := h
  refine ⟨e :: new, ?_, hp.cons e⟩
  rw [hnew, hc, List.append_assoc, List.singleton_append]

theorem Calls.append_right {m m' : Machine σ} {es es' : List Entry} (h : Calls m m' es es')
    (more : List Entry) : Calls m m' (es ++ more) (es' ++ more) := by
  obtain ⟨new, hnew, hp⟩ := h
  refine ⟨new, hnew, ?_⟩
  rw [← List.append_assoc]
  exact hp.append_right more

theorem Calls.append_left {m m' : Machine σ} {es es' : List Entry} (h : Calls m m' es es')
    (more : List Entry) : Calls m m' (more ++ es) (more ++ es') := by
  obtain ⟨new, hnew, hp⟩ := h
  refine ⟨new, hnew, (hp.append_left more).trans ?_⟩
  rw [← List.append_assoc, ← List.append_assoc]
  exact List.perm_append_comm.append_right es

mutual

/-- What the job may do from now on is what it does when it acts, and then what is left may do. -/
theorem exists_starts_act : (job : Job σ) → (m : Machine σ) → job.Underway → {es : List Entry} →
    Starts m.now (job.act m).1 es → ∃ es', Starts m.now job es' ∧ Calls m (job.act m).2.1 es es'
  | .done completion, m, _, es, hs => by
    rw [act] at hs ⊢
    exact ⟨es, hs, .refl m es⟩
  | .emit run event next, m, h, es, hs => by
    obtain ⟨he, hn⟩ := h.of_emit
    rw [act] at hs ⊢
    obtain ⟨es', hs', new, hc, hp⟩ := exists_starts_act next (m.record run event) (.unbegun hn) hs
    rw [m.calls_record_of_not_isCall run he] at hc
    exact ⟨es', .emit hs', new, hc, hp⟩
  | .call c resolver next, m, h, es, hs => by
    have hnew : (m.record c.run (.called c)).calls = m.calls ++ [⟨c.run, m.now, .called c⟩] :=
      m.calls_record c.run rfl
    rw [act] at hs ⊢
    cases hr : resolver m.state with
    | mk resolution state =>
      have hr' : resolver (m.record c.run (.called c)).state = (resolution, state) := hr
      rw [hr'] at hs ⊢
      cases resolution with
      | ready result =>
        have hn : (next result).Underway := .unbegun (h.of_call result)
        obtain ⟨es', hs', hc⟩ :=
          exists_starts_act (next result) { m.record c.run (.called c) with state := state } hn hs
        exact ⟨_, .answer hr hs', hc.head hnew⟩
      | pending delay? finish => exact ⟨_, .promise _ hr hs, (Calls.refl _ es).head hnew⟩
  | .await ticket due? c finish next, m, _, es, hs => by
    rw [act] at hs ⊢
    exact ⟨es, hs, .refl m es⟩
  | .join turns members next, m, h, es, hs => by
    obtain ⟨hm, hn⟩ := h.of_join
    rw [act] at hs ⊢
    cases hi : turns.current? with
    | some i =>
      rw [hi] at hs
      cases hs with
      | join hs =>
        obtain ⟨es', hs', hc⟩ := exists_startsAll_actAt i members m hm hs
        exact ⟨es', .join hs', hc⟩
    | none =>
      rw [hi] at hs
      cases hc : completions? members with
      | some completions =>
        rw [hc] at hs
        -- all members are done, and what follows on a group calls nothing
        obtain ⟨⟨completion, hd⟩, hcalls⟩ := (hn completions).act m
        dsimp only at hs ⊢
        rw [hd] at hs
        cases hs
        exact ⟨[], .join (startsAll_of_completions? hc), [], by simpa using hcalls, .refl _⟩
      | none =>
        rw [hc] at hs
        cases hs with
        | join hs => exact ⟨es, .join hs, .refl m es⟩

theorem exists_startsAll_actAt : (i : Nat) → (jobs : List (Job σ)) → (m : Machine σ) →
    (∀ job ∈ jobs, job.Underway) → {es : List Entry} → StartsAll m.now (actAt i jobs m).1 es →
    ∃ es', StartsAll m.now jobs es' ∧ Calls m (actAt i jobs m).2.1 es es'
  | _, [], m, _, es, hs => by
    rw [actAt] at hs ⊢
    exact ⟨es, hs, .refl m es⟩
  | 0, job :: rest, m, h, es, hs => by
    rw [List.forall_mem_cons] at h
    rw [actAt] at hs ⊢
    cases hs with
    | cons hs hrest =>
      obtain ⟨es', hs', hc⟩ := exists_starts_act job m h.1 hs
      exact ⟨_, .cons hs' hrest, hc.append_right _⟩
  | i + 1, job :: rest, m, h, es, hs => by
    rw [List.forall_mem_cons] at h
    rw [actAt] at hs ⊢
    cases hs with
    | cons hs hrest =>
      obtain ⟨es', hs', hc⟩ := exists_startsAll_actAt i rest m h.2 hrest
      exact ⟨_, .cons hs hs', hc.append_left _⟩

end

/-! ## What waits starts when its promise is due -/

theorem StartsAll.imp {time time' : Nat} {jobs : List (Job σ)} {es : List Entry}
    (hi : ∀ job ∈ jobs, ∀ es, Starts time job es → Starts time' job es)
    (h : StartsAll time jobs es) : StartsAll time' jobs es := by
  induction jobs generalizing es with
  | nil =>
    cases h
    exact .nil
  | cons job rest ih =>
    rw [List.forall_mem_cons] at hi
    cases h with
    | cons h hr => exact .cons (hi.1 _ h) (ih hi.2 hr)

/-- What a job does that rests does not depend on when it is next looked at. -/
theorem Rests.starts {time time' : Nat} {job : Job σ} {es : List Entry} (h : job.Rests)
    (hs : Starts time job es) : Starts time' job es := by
  induction h generalizing es with
  | done =>
    cases hs
    exact .done
  | await =>
    cases hs with
    | keep hr hs => exact .keep hr hs
    | never => exact .never
  | join _ _ ih =>
    cases hs with
    | join hs => exact .join (hs.imp fun job hj es hs => ih job hj hs)

/-- A job that rests does nothing any more if no promise is ever kept. -/
theorem Rests.starts_nil {time : Nat} {job : Job σ} (h : job.Rests)
    (hd : ∀ w ∈ job.waits, w.due? = none) : Starts time job [] := by
  induction h with
  | done => exact .done
  | await =>
    rw [waits, List.forall_mem_singleton] at hd
    subst hd
    exact .never
  | @join turns members next _ _ ih =>
    refine .join ?_
    rw [waits] at hd
    clear * - ih hd
    induction members with
    | nil => exact .nil
    | cons job rest ihm =>
      rw [waitsAll, List.forall_mem_append] at hd
      rw [List.forall_mem_cons] at ih
      exact .cons (ih.1 hd.1) (ihm ih.2 hd.2)

mutual

theorem now_keep {ticket : Nat} : (job : Job σ) → (m : Machine σ) → {kept : Snapshot σ} →
    job.keep? ticket m = some kept → kept.2.now = m.now
  | .done _, _, _, h => by simp [keep?] at h
  | .emit .., _, _, h => by simp [keep?] at h
  | .call .., _, _, h => by simp [keep?] at h
  | .await ticket' due? c finish next, m, kept, h => by
    rw [keep?] at h
    split at h
    · simp only [Option.some.injEq] at h
      subst h
      rfl
    · cases h
  | .join turns members next, m, kept, h => by
    rw [keep?] at h
    split at h
    · next heq =>
      simp only [Option.some.injEq] at h
      subst h
      have hnow := now_keepAny members m heq
      exact hnow
    · cases h

theorem now_keepAny {ticket : Nat} : (jobs : List (Job σ)) → (m : Machine σ) →
    {kept : Nat × List (Job σ) × Machine σ} → keepAny? ticket jobs m = some kept →
    kept.2.2.now = m.now
  | [], _, _, h => by simp [keepAny?] at h
  | job :: rest, m, kept, h => by
    rw [keepAny?] at h
    split at h
    · next heq =>
      simp only [Option.some.injEq] at h
      subst h
      exact now_keep job m heq
    · split at h
      · next heq =>
        simp only [Option.some.injEq] at h
        subst h
        have hnow := now_keepAny rest m heq
        exact hnow
      · cases h

end

mutual

/-- When a promise is kept at the time at which it is due, what waits for it may start, and the
other members of its groups do not change. -/
theorem exists_starts_keep {ticket : Nat} : (job : Job σ) → (m : Machine σ) →
    {kept : Snapshot σ} → job.keep? ticket m = some kept →
    (∀ w ∈ job.waits, w.ticket = ticket → w.due? = some m.now) → {es : List Entry} →
    Starts m.now kept.1 es → ∃ es', Starts m.now job es' ∧ Calls m kept.2 es es'
  | .done _, _, _, h, _, _, _ => by simp [keep?] at h
  | .emit .., _, _, h, _, _, _ => by simp [keep?] at h
  | .call .., _, _, h, _, _, _ => by simp [keep?] at h
  | .await ticket' due? c finish next, m, kept, h, hd, es, hs => by
    rw [keep?] at h
    split at h
    · next ht =>
      simp only [Option.some.injEq] at h
      subst h
      have hdue : due? = some m.now := hd ⟨ticket', due?⟩ (by simp [waits]) ht
      subst hdue
      have hnew : (m.record c.run (.completed c)).calls =
          m.calls ++ [⟨c.run, m.now, .completed c⟩] := m.calls_record c.run rfl
      exact ⟨_, .keep rfl hs, (Calls.refl _ es).head hnew⟩
    · cases h
  | .join turns members next, m, kept, h, hd, es, hs => by
    rw [keep?] at h
    split at h
    · next heq =>
      simp only [Option.some.injEq] at h
      subst h
      cases hs with
      | join hs =>
        obtain ⟨es', hs', hc⟩ := exists_startsAll_keepAny members m heq hd hs
        exact ⟨es', .join hs', hc⟩
    · cases h

theorem exists_startsAll_keepAny {ticket : Nat} : (jobs : List (Job σ)) → (m : Machine σ) →
    {kept : Nat × List (Job σ) × Machine σ} → keepAny? ticket jobs m = some kept →
    (∀ w ∈ waitsAll jobs, w.ticket = ticket → w.due? = some m.now) → {es : List Entry} →
    StartsAll m.now kept.2.1 es → ∃ es', StartsAll m.now jobs es' ∧ Calls m kept.2.2 es es'
  | [], _, _, h, _, _, _ => by simp [keepAny?] at h
  | job :: rest, m, kept, h, hd, es, hs => by
    rw [waitsAll, List.forall_mem_append] at hd
    rw [keepAny?] at h
    split at h
    · next heq =>
      simp only [Option.some.injEq] at h
      subst h
      cases hs with
      | cons hs hrest =>
        obtain ⟨es', hs', hc⟩ := exists_starts_keep job m heq hd.1 hs
        exact ⟨_, .cons hs' hrest, hc.append_right _⟩
    · split at h
      · next heq =>
        simp only [Option.some.injEq] at h
        subst h
        cases hs with
        | cons hs hrest =>
          obtain ⟨es', hs', hc⟩ := exists_startsAll_keepAny rest m heq hd.2 hrest
          exact ⟨_, .cons hs hs', hc.append_left _⟩
      · cases h

end

/-! ## The schedule makes all calls in time -/

/-- What is left after acting tells what the job may do at first. -/
theorem exists_starts_of_act {job job₁ : Job σ} {m m₁ : Machine σ} {turn : Turn}
    (hact : job.act m = (job₁, m₁, turn)) (hu : job.Underway) {es calls : List Entry}
    (hs : Starts m₁.now job₁ es) (hp : calls.Perm (m₁.calls ++ es)) :
    ∃ es', Starts m.now job es' ∧ calls.Perm (m.calls ++ es') := by
  have hnow := now_act job m
  have hback : Starts m.now (job.act m).1 es →
      ∃ es', Starts m.now job es' ∧ Calls m (job.act m).2.1 es es' := exists_starts_act job m hu
  rw [hact] at hnow hback
  dsimp only at hnow hback
  obtain ⟨es', hs', new, hnew, hp'⟩ := hback (hnow ▸ hs)
  refine ⟨es', hs', hp.trans ?_⟩
  rw [hnew, List.append_assoc]
  exact hp'.symm.append_left _

/-- **The schedule makes the calls that the job may make, at the times at which it may.** -/
theorem exists_starts_drive {job : Job σ} {m : Machine σ} (ht : job.Tended False)
    (ho : job.Orderly m) :
    ∃ es, Starts m.now job es ∧ (job.drive none m).2.calls.Perm (m.calls ++ es) := by
  fun_induction drive none job m with
  | case1 job m completion m₁ turn hact =>
    exact exists_starts_of_act hact ho.underway .done (by simp)
  | case2 job m job₁ m₁ hd hact ih =>
    obtain ⟨es, hs, hp⟩ := ih (turned_of_act hact ht).tended
      (ho.of_interleaves (interleaves_of_act hact))
    exact exists_starts_of_act hact ho.underway hs hp
  | case3 job m job₁ m₁ hd hact ih =>
    obtain ⟨es, hs, hp⟩ := ih (turned_of_act hact ht).tended
      (ho.of_interleaves (interleaves_of_act hact))
    exact exists_starts_of_act hact ho.underway hs hp
  | case4 job m job₁ m₁ turn hd hg ha hact hn =>
    obtain ⟨hr, -⟩ := (turned_of_act hact ht).rests hd hg ha
    have hs : Starts m₁.now job₁ [] := hr.starts_nil (Wait.due?_of_next? hn)
    exact exists_starts_of_act hact ho.underway hs (by simp)
  | case5 job m job₁ m₁ turn hd hg ha hact ticket due hn hl => simp at hl
  | case6 job m job₁ m₁ turn hd hg ha hact ticket due hn hl hk =>
    obtain ⟨kept, hs⟩ := exists_keep job₁ { m₁ with now := due } ⟨_, Wait.mem_of_next? hn, rfl⟩
    rw [hk] at hs
    cases hs
  | case7 job m job₁ m₁ turn hd hg ha hact ticket due hn hl kept m₂ hkept ih =>
    have ht₁ := turned_of_act hact ht
    have ho₁ : job₁.Orderly m₁ := ho.of_interleaves (interleaves_of_act hact)
    have hkeep : Interleaves (job₁, m₁) (kept, m₂) :=
      .head (.tick due) (interleaves_keep job₁ _ hkept)
    obtain ⟨es, hs, hp⟩ := ih (tended_keep job₁ _ hkept ht₁.tended) (ho₁.of_interleaves hkeep)
    have hnow : m₂.now = due := now_keep job₁ _ hkept
    rw [hnow] at hs
    -- the promise that is kept is the only one with its ticket, so it is due now
    have hdue : ∀ w ∈ job₁.waits, w.ticket = ticket → w.due? = some due := by
      intro w hw heq
      rw [ho₁.unique w hw _ (Wait.mem_of_next? hn) heq]
    obtain ⟨es₁, hs₁, new, hnew, hp₁⟩ :=
      exists_starts_keep job₁ { m₁ with now := due } hkept hdue hs
    have hcalls : m₂.calls = m₁.calls ++ new := hnew
    -- what waits does not depend on when the clock was last looked at
    have hs₁' : Starts m₁.now job₁ es₁ := (ht₁.rests hd hg ha).1.starts hs₁
    refine exists_starts_of_act hact ho.underway hs₁' (hp.trans ?_)
    rw [hcalls, List.append_assoc]
    exact hp₁.symm.append_left _

/-! ## Taking jobs apart -/

theorem Unbegun.bind {job : Job σ} {next : Completion → Job σ} (h : job.Unbegun)
    (hn : ∀ completion, (next completion).Silent) : (job.bind next).Unbegun := by
  induction h with
  | done => exact (hn _).unbegun
  | emit he _ ih => exact .emit he ih
  | call _ ih => exact .call ih
  | @join turns members job hm hj _ =>
    refine .join hm ?_
    intro completions
    have hsilent := hj completions
    generalize job completions = job' at hsilent
    induction hsilent with
    | done => exact hn _
    | emit he _ ih => exact .emit he ih

theorem Silent.starts {time : Nat} {job : Job σ} {es : List Entry} (h : job.Silent)
    (hs : Starts time job es) : es = [] := by
  induction h with
  | done =>
    cases hs
    rfl
  | emit _ _ ih =>
    cases hs with
    | emit hs => exact ih hs

/-- What calls nothing when a job is done does not add to its calls. -/
theorem Starts.of_bind {next : Completion → Job σ} (hn : ∀ completion, (next completion).Silent) :
    (job : Job σ) → {time : Nat} → {es : List Entry} → Starts time (job.bind next) es →
    Starts time job es
  | .done completion, _, _, h => by
    rw [(hn completion).starts h]
    exact .done
  | .emit run event job, _, _, h => by
    cases h with
    | emit h => exact .emit (of_bind hn job h)
  | .call c resolver job, time, _, h => by
    cases h with
    | answer hr h => exact .answer hr (of_bind hn _ h)
    | @promise _ _ _ _ _ delay? _ _ _ ticket hr h =>
      refine .promise ticket hr ?_
      generalize delay?.map (time + ·) = due? at h ⊢
      cases h with
      | keep hf h => exact .keep hf (of_bind hn _ h)
      | never => exact .never
  | .await ticket due? c finish job, _, _, h => by
    cases h with
    | keep hf h => exact .keep hf (of_bind hn _ h)
    | never => exact .never
  | .join turns members job, _, _, h => by
    cases h with
    | join h => exact .join h

theorem Starts.of_row {next : List Completion → Job σ} {jobs : List (Job σ)} {time : Nat}
    {es : List Entry} (h : Starts time (row next jobs) es) : StartsAll time jobs es := by
  unfold row at h
  split at h
  · cases h with
    | join h => exact h
  · cases h with
    | join h => exact h

end Job

end GraphQL
