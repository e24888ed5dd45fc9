import GraphQL.Proofs.Execution.Stages
import GraphQL.Proofs.Execution.Timing

/-!
# A promise is kept or waited for

Where a resolver promises its result, the call of it stays among those that are waited for until the
log says that it is completed (`accounted_of_interleaves`). So a promise that is never kept is
waited for ever after.
-/

namespace GraphQL

variable {σ : Type}

/-- The result will be there later, if ever. -/
def Resolution.IsPending : Resolution σ → Prop
  | .ready _ => False
  | .pending .. => True

/-- If the call has been made, it has been completed or is waited for. -/
def Call.Accounted (c : Call) (log : List Entry) (awaited : List Call) : Prop :=
  (∃ e ∈ log, e.event = .called c) → (∃ e ∈ log, e.event = .completed c) ∨ c ∈ awaited

/-- A step makes the call only to wait for it, and waits no more only when it is completed. -/
def Call.Carried (c : Call) (m : Machine σ) (awaited : List Call) (m' : Machine σ)
    (awaited' : List Call) : Prop :=
  ∃ new, m'.log = m.log ++ new ∧ ((∃ e ∈ new, e.event = .called c) → c ∈ awaited') ∧
    (c ∈ awaited → c ∈ awaited' ∨ ∃ e ∈ new, e.event = .completed c)

namespace Call

variable {c : Call} {m m' : Machine σ} {awaited awaited' : List Call}

theorem Carried.of_log_eq (h : m'.log = m.log) (ha : c ∈ awaited → c ∈ awaited') :
    c.Carried m awaited m' awaited' :=
  ⟨[], by simp [h], by simp, fun hc => .inl (ha hc)⟩

theorem Carried.append (h : c.Carried m awaited m' awaited') (before after : List Call) :
    c.Carried m (before ++ awaited ++ after) m' (before ++ awaited' ++ after) := by
  obtain ⟨new, hlog, hcalled, hkept⟩ := h
  refine ⟨new, hlog, fun he => ?_, fun hc => ?_⟩
  · simp [hcalled he]
  · simp only [List.mem_append] at hc ⊢
    obtain (hc | hc) | hc := hc
    · exact .inl (.inl (.inl hc))
    · exact (hkept hc).imp (fun hc => .inl (.inr hc)) id
    · exact .inl (.inr hc)

theorem Accounted.of_carried (h : c.Accounted m.log awaited)
    (hc : c.Carried m awaited m' awaited') : c.Accounted m'.log awaited' := by
  obtain ⟨new, hlog, hcalled, hkept⟩ := hc
  rintro ⟨e, he, heq⟩
  simp only [hlog, List.mem_append] at he ⊢
  obtain he | he := he
  · obtain ⟨e', he', heq'⟩ | ha := h ⟨e, he, heq⟩
    · exact .inl ⟨e', .inl he', heq'⟩
    · obtain ha' | ⟨e', he', heq'⟩ := hkept ha
      · exact .inr ha'
      · exact .inl ⟨e', .inr he', heq'⟩
  · exact .inr (hcalled ⟨e, he, heq⟩)

end Call

namespace Job

/-- Whenever the job makes the call, the resolver promises something. -/
inductive Promises (c : Call) : Job σ → Prop where
  | done {completion} : Promises c (.done completion)
  | emit {run event next} (he : event.isCall = false) (h : Promises c next) :
    Promises c (.emit run event next)
  | call {c' resolver next} (hc : c' = c → ∀ state, (resolver state).1.IsPending)
    (h : ∀ result, Promises c (next result)) : Promises c (.call c' resolver next)
  | await {ticket due? c' finish next} (h : ∀ result, Promises c (next result)) :
    Promises c (.await ticket due? c' finish next)
  | join {turns members next} (hm : ∀ job ∈ members, Promises c job)
    (hn : ∀ completions, Promises c (next completions)) : Promises c (.join turns members next)

variable {c : Call}

theorem awaitedAll_eq_nil {jobs : List (Job σ)} {completions : List Completion}
    (h : completions? jobs = some completions) : awaitedAll jobs = [] := by
  induction jobs generalizing completions with
  | nil => rfl
  | cons job rest ih =>
    cases job with
    | done completion =>
      simp only [completions?, completion?, Option.map_eq_some_iff] at h
      obtain ⟨completions, hc, -⟩ := h
      exact ih hc
    | _ => simp [completions?, completion?] at h

mutual

theorem promises_of_move {job job' : Job σ} {m m' : Machine σ} (hm : Move (job, m) (job', m'))
    (h : Promises c job) : Promises c job' ∧ c.Carried m job.awaited m' job'.awaited := by
  cases hm with
  | tick now => exact ⟨h, .of_log_eq rfl id⟩
  | @emit run event _ _ =>
    cases h with
    | emit he h =>
      refine ⟨h, _, rfl, ?_, nofun⟩
      rintro ⟨e, hm, heq⟩
      obtain rfl := List.mem_singleton.1 hm
      rw [show event = .called c from heq] at he
      cases he
  | @answer c' _ _ _ result state hr =>
    cases h with
    | call hc h =>
      refine ⟨h result, _, rfl, ?_, nofun⟩
      rintro ⟨e, hm, heq⟩
      obtain rfl := List.mem_singleton.1 hm
      have hpending := hc (Event.called.inj heq) m.state
      rw [hr] at hpending
      exact hpending.elim
  | @promise c' _ _ _ delay? finish state hr =>
    cases h with
    | call hc h =>
      refine ⟨.await h, _, rfl, ?_, nofun⟩
      rintro ⟨e, hm, heq⟩
      obtain rfl := List.mem_singleton.1 hm
      exact List.mem_singleton.2 (Event.called.inj heq).symm
  | @keep _ _ c' _ _ _ result _ hf =>
    cases h with
    | await h =>
      refine ⟨h result, _, rfl, ?_, ?_⟩
      · rintro ⟨e, hm, heq⟩
        obtain rfl := List.mem_singleton.1 hm
        cases heq
      · intro hc
        obtain rfl := List.mem_singleton.1 hc
        exact .inr ⟨_, List.mem_singleton_self _, rfl⟩
  | member turns' hm =>
    cases h with
    | join hmembers hn =>
      obtain ⟨hmembers', hcarried⟩ := promises_of_moveAny hm hmembers
      exact ⟨.join hmembers' hn, hcarried⟩
  | turn turns' =>
    cases h with
    | join hmembers hn => exact ⟨.join hmembers hn, .of_log_eq rfl id⟩
  | join hc =>
    cases h with
    | join hmembers hn =>
      refine ⟨hn _, .of_log_eq rfl ?_⟩
      rw [awaited, awaitedAll_eq_nil hc]
      exact nofun

theorem promises_of_moveAny {jobs jobs' : List (Job σ)} {m m' : Machine σ}
    (hm : MoveAny (jobs, m) (jobs', m')) (h : ∀ job ∈ jobs, Promises c job) :
    (∀ job ∈ jobs', Promises c job) ∧ c.Carried m (awaitedAll jobs) m' (awaitedAll jobs') := by
  cases hm with
  | @head _ rest _ _ _ hm =>
    rw [List.forall_mem_cons] at h
    obtain ⟨h', hcarried⟩ := promises_of_move hm h.1
    exact ⟨List.forall_mem_cons.2 ⟨h', h.2⟩, hcarried.append [] (awaitedAll rest)⟩
  | @tail job _ _ _ _ hm =>
    rw [List.forall_mem_cons] at h
    obtain ⟨h', hcarried⟩ := promises_of_moveAny hm h.2
    refine ⟨List.forall_mem_cons.2 ⟨h.1, h'⟩, ?_⟩
    simpa [awaitedAll] using hcarried.append job.awaited []

end

/-- **A promise is kept or waited for**, however a job is interleaved. -/
theorem accounted_of_interleaves {job : Job σ} (h : Promises c job) (state : σ)
    {snap : Snapshot σ} (hi : Interleaves (job, .start state) snap) :
    c.Accounted snap.2.log snap.1.awaited := by
  suffices hs : Promises c snap.1 ∧ c.Accounted snap.2.log snap.1.awaited from hs.2
  induction hi with
  | refl => exact ⟨h, by rintro ⟨e, he, -⟩; cases he⟩
  | tail _ hm ih =>
    obtain ⟨h', hcarried⟩ := promises_of_move hm ih.1
    exact ⟨h', ih.2.of_carried hcarried⟩

/-! ## Jobs are put together from jobs -/

theorem Silent.promises {job : Job σ} (h : job.Silent) : job.Promises c := by
  induction h with
  | done => exact .done
  | emit he _ ih => exact .emit he ih

theorem Promises.bind {job : Job σ} {next : Completion → Job σ} (h : job.Promises c)
    (hn : ∀ completion, (next completion).Promises c) : (job.bind next).Promises c := by
  induction h with
  | done => exact hn _
  | emit he _ ih => exact .emit he ih
  | call hc _ ih => exact .call hc ih
  | await _ ih => exact .await ih
  | join hm _ _ ih => exact .join hm ih

theorem Promises.inTurn {next : List Completion → Job σ} {jobs : List (Job σ)}
    (h : ∀ job ∈ jobs, job.Promises c) (hn : ∀ completions, (next completions).Promises c) :
    (inTurn next jobs).Promises c := by
  induction jobs generalizing next with
  | nil => exact hn []
  | cons job rest ih =>
    rw [List.forall_mem_cons] at h
    refine h.1.bind ?_
    intro completion
    exact ih h.2 fun completions => hn _

end Job

end GraphQL
