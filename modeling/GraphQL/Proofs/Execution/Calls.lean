import GraphQL.Proofs.Execution.Runs

/-!
# The calls that a job makes

`Job.CallsOnly P`: whatever its resolvers answer, the job calls resolvers only where `P` holds of
the call. Every step of a job keeps that, and what it adds to the log is about such calls
(`callsOnly_of_move`). So is the whole log of an execution, whether the execution finishes or not
(`logged_drive`).
-/

namespace GraphQL

namespace Event

/-- Is it the call of a resolver, or its completion? -/
def isCall : Event → Bool
  | .called _ | .completed _ => true
  | _ => false

/-- The call that is made, or that is completed. -/
def subject? : Event → Option Call
  | .called c | .completed c => some c
  | _ => none

theorem subject?_eq_none {event : Event} (h : event.isCall = false) : event.subject? = none := by
  cases event with
  | called => cases h
  | completed => cases h
  | _ => rfl

end Event

/-- The log has grown, and the property holds of all calls that the new entries are about. -/
def Machine.Adds {σ : Type} (P : Call → Prop) (m m' : Machine σ) : Prop :=
  ∃ new, m'.log = m.log ++ new ∧ ∀ entry ∈ new, ∀ c ∈ entry.event.subject?, P c

namespace Machine.Adds

variable {σ : Type} {P : Call → Prop} {m m₁ m' : Machine σ}

theorem of_log_eq (h : m'.log = m.log) : m.Adds P m' :=
  ⟨[], by simp [h], by simp⟩

theorem record (m : Machine σ) (run : Nat) {event : Event} (h : ∀ c ∈ event.subject?, P c) :
    m.Adds P (m.record run event) := by
  refine ⟨[⟨run, m.now, event⟩], rfl, ?_⟩
  intro entry he c hc
  obtain rfl := List.mem_singleton.1 he
  exact h c hc

theorem trans (h : m.Adds P m₁) (h' : m₁.Adds P m') : m.Adds P m' := by
  obtain ⟨new, hlog, hnew⟩ := h
  obtain ⟨new', hlog', hnew'⟩ := h'
  refine ⟨new ++ new', by rw [hlog', hlog, List.append_assoc], ?_⟩
  intro entry he
  rcases List.mem_append.1 he with he | he
  · exact hnew entry he
  · exact hnew' entry he

end Machine.Adds

namespace Job

variable {σ : Type}

/-- Whatever its resolvers answer, the job calls them only where the property holds. -/
inductive CallsOnly (P : Call → Prop) : Job σ → Prop where
  | done {completion} : CallsOnly P (.done completion)
  | emit {run event next} (he : ∀ c ∈ event.subject?, P c) (h : CallsOnly P next) :
    CallsOnly P (.emit run event next)
  | call {c resolver next} (hc : P c)
    (h : ∀ state result, (resolver state).1.Gives result → CallsOnly P (next result)) :
    CallsOnly P (.call c resolver next)
  | await {ticket due? c finish next} (hc : P c)
    (h : ∀ state, CallsOnly P (next (finish state).1)) :
    CallsOnly P (.await ticket due? c finish next)
  | join {turns members next} (hm : ∀ job ∈ members, CallsOnly P job)
    (hn : ∀ completions, CallsOnly P (next completions)) :
    CallsOnly P (.join turns members next)

variable {P : Call → Prop}

mutual

/-- A step of a job logs nothing but what is about calls that the job may make, and leaves no
others. -/
theorem callsOnly_of_move {job job' : Job σ} {m m' : Machine σ} (hm : Move (job, m) (job', m'))
    (h : CallsOnly P job) : CallsOnly P job' ∧ m.Adds P m' := by
  cases hm with
  | tick now => exact ⟨h, .of_log_eq rfl⟩
  | emit =>
    cases h with
    | emit he h => exact ⟨h, .record m _ he⟩
  | @answer c _ _ _ result state hr =>
    cases h with
    | call hc h =>
      refine ⟨h m.state result ?_, .record m _ fun c heq => Option.some.inj heq ▸ hc⟩
      rw [hr]
      rfl
  | @promise c _ _ _ delay? finish state hr =>
    cases h with
    | call hc h =>
      refine ⟨.await hc ?_, .record m _ fun c heq => Option.some.inj heq ▸ hc⟩
      intro state'
      refine h m.state _ ?_
      rw [hr]
      exact ⟨state', rfl⟩
  | keep hf =>
    cases h with
    | await hc h =>
      refine ⟨?_, .record m _ fun c heq => Option.some.inj heq ▸ hc⟩
      have hresult := h m.state
      rwa [hf] at hresult
  | member turns' hm =>
    cases h with
    | join hmembers hn =>
      obtain ⟨hmembers', hadds⟩ := callsOnly_of_moveAny hm hmembers
      exact ⟨.join hmembers' hn, hadds⟩
  | turn turns' =>
    cases h with
    | join hmembers hn => exact ⟨.join hmembers hn, .of_log_eq rfl⟩
  | join hc =>
    cases h with
    | join hmembers hn => exact ⟨hn _, .of_log_eq rfl⟩

theorem callsOnly_of_moveAny {jobs jobs' : List (Job σ)} {m m' : Machine σ}
    (hm : MoveAny (jobs, m) (jobs', m')) (h : ∀ job ∈ jobs, CallsOnly P job) :
    (∀ job ∈ jobs', CallsOnly P job) ∧ m.Adds P m' := by
  cases hm with
  | head hm =>
    rw [List.forall_mem_cons] at h
    obtain ⟨h', hadds⟩ := callsOnly_of_move hm h.1
    exact ⟨List.forall_mem_cons.2 ⟨h', h.2⟩, hadds⟩
  | tail hm =>
    rw [List.forall_mem_cons] at h
    obtain ⟨h', hadds⟩ := callsOnly_of_moveAny hm h.2
    exact ⟨List.forall_mem_cons.2 ⟨h.1, h'⟩, hadds⟩

end

theorem callsOnly_of_interleaves {job : Job σ} {m : Machine σ} (h : CallsOnly P job)
    {snap : Snapshot σ} (hi : Interleaves (job, m) snap) :
    CallsOnly P snap.1 ∧ m.Adds P snap.2 := by
  induction hi with
  | refl => exact ⟨h, .of_log_eq rfl⟩
  | tail _ hm ih =>
    obtain ⟨h', hadds⟩ := callsOnly_of_move hm ih.1
    exact ⟨h', ih.2.trans hadds⟩

/-- Whether a job is driven to its end or not, it makes no other calls. -/
theorem logged_drive {job : Job σ} (h : CallsOnly P job) (limit? : Option Nat) (state : σ) :
    ∀ entry ∈ (job.drive limit? (.start state)).2.log, ∀ c ∈ entry.event.subject?, P c := by
  obtain ⟨job', hi, -⟩ := exists_interleaves_drive limit? job (.start state)
  obtain ⟨-, new, hlog, hnew⟩ := callsOnly_of_interleaves h hi
  obtain rfl : _ = new := hlog
  exact hnew

/-! ## Jobs are put together from jobs -/

theorem CallsOnly.mono {Q : Call → Prop} {job : Job σ} (h : CallsOnly P job)
    (hPQ : ∀ c, P c → Q c) : CallsOnly Q job := by
  induction h with
  | done => exact .done
  | emit he _ ih => exact .emit (fun c hc => hPQ c (he c hc)) ih
  | call hc _ ih => exact .call (hPQ _ hc) ih
  | await hc _ ih => exact .await (hPQ _ hc) ih
  | join _ _ ihm ihn => exact .join ihm ihn

theorem CallsOnly.bind {job : Job σ} {next : Completion → Job σ} (h : CallsOnly P job)
    (hn : ∀ completion, CallsOnly P (next completion)) : CallsOnly P (job.bind next) := by
  induction h with
  | done => exact hn _
  | emit he _ ih => exact .emit he ih
  | call hc _ ih => exact .call hc ih
  | await hc _ ih => exact .await hc ih
  | join hm _ _ ih => exact .join hm ih

theorem CallsOnly.inTurn {next : List Completion → Job σ} {jobs : List (Job σ)}
    (h : ∀ job ∈ jobs, CallsOnly P job) (hn : ∀ completions, CallsOnly P (next completions)) :
    CallsOnly P (inTurn next jobs) := by
  induction jobs generalizing next with
  | nil => exact hn []
  | cons job rest ih =>
    rw [List.forall_mem_cons] at h
    refine h.1.bind ?_
    intro completion
    exact ih h.2 fun completions => hn _

theorem CallsOnly.row {next : List Completion → Job σ} {jobs : List (Job σ)}
    (h : ∀ job ∈ jobs, CallsOnly P job) (hn : ∀ completions, CallsOnly P (next completions)) :
    CallsOnly P (row next jobs) := by
  unfold Job.row
  split
  · exact .join h hn
  · exact .join h hn

theorem CallsOnly.emitAll {run : Nat} {events : List Event} {job : Job σ}
    (he : ∀ event ∈ events, ∀ c ∈ event.subject?, P c) (h : CallsOnly P job) :
    CallsOnly P (emitAll run events job) := by
  unfold Job.emitAll
  induction events with
  | nil => exact h
  | cons event rest ih =>
    rw [List.forall_mem_cons] at he
    exact .emit he.1 (ih he.2)

end Job

end GraphQL
