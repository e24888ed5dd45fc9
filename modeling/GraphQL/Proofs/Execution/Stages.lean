import GraphQL.Proofs.Execution.Calls
import GraphQL.Proofs.Execution.Sequence
import Mathlib.Data.List.Forall2
import Mathlib.Data.List.Pairwise

/-!
# Jobs in turn do not overlap

However the members of groups are interleaved, what comes next after a job begins when all of the
job is done (`of_interleaves_bind`). So where jobs run in turn, each with calls of its own, nothing
of a later job happens before something of an earlier one, nor while an earlier one waits for a
promise (`staged_of_interleaves`).
-/

namespace GraphQL

variable {σ : Type}

/-- Is it a call with the property, or the completion of one? -/
def Event.Concerns (P : Call → Prop) (event : Event) : Prop :=
  ∃ c ∈ event.subject?, P c

/-- Calls with an earlier one of several properties are over before there are any with a later
one. -/
structure Staged (stages : List (Call → Prop)) (log : List Entry) (awaited : List Call) :
    Prop where
  /-- Nothing of a later stage happens before something of an earlier one. -/
  ordered : stages.Pairwise fun P Q =>
    log.Pairwise fun e e' => e.event.Concerns Q → ¬ e'.event.Concerns P
  /-- While a promise of an earlier stage is waited for, nothing of a later one has happened. -/
  joined : stages.Pairwise fun P Q =>
    (∃ c ∈ awaited, P c) → ∀ e ∈ log, ¬ e.event.Concerns Q

namespace Staged

variable {P : Call → Prop} {stages : List (Call → Prop)} {log log' : List Entry}
  {awaited : List Call}

/-- As long as nothing but the first stage has happened, there is no order to keep. -/
theorem first (h : ∀ Q ∈ stages, ∀ e ∈ log, ¬ e.event.Concerns Q) :
    Staged (P :: stages) log awaited where
  ordered := by
    have hpairs : ∀ Q ∈ stages, ∀ P : Call → Prop,
        log.Pairwise fun e e' => e.event.Concerns Q → ¬ e'.event.Concerns P := by
      intro Q hQ P
      refine List.pairwise_of_forall_mem_list ?_
      intro e he e' _ hc
      exact absurd hc (h Q hQ e he)
    refine List.pairwise_cons.2 ⟨fun Q hQ => hpairs Q hQ P, ?_⟩
    exact List.pairwise_of_forall_mem_list fun Q _ Q' hQ' => hpairs Q' hQ' Q
  joined := by
    refine List.pairwise_cons.2 ⟨fun Q hQ _ => h Q hQ, ?_⟩
    exact List.pairwise_of_forall_mem_list fun Q _ Q' hQ' _ => h Q' hQ'

/-- What the later stages keep among themselves is kept after a first stage that is over. -/
theorem cons (h : Staged stages log' awaited)
    (hlog : ∀ Q ∈ stages, ∀ e ∈ log, ¬ e.event.Concerns Q)
    (hlog' : ∀ e ∈ log', ¬ e.event.Concerns P) (ha : ∀ c ∈ awaited, ¬ P c) :
    Staged (P :: stages) (log ++ log') awaited where
  ordered := by
    have happend : ∀ Q ∈ stages, ∀ P : Call → Prop,
        (log'.Pairwise fun e e' => e.event.Concerns Q → ¬ e'.event.Concerns P) →
        (log ++ log').Pairwise fun e e' => e.event.Concerns Q → ¬ e'.event.Concerns P := by
      intro Q hQ P hpairs
      refine List.pairwise_append.2 ⟨?_, hpairs, fun e he _ _ hc => absurd hc (hlog Q hQ e he)⟩
      exact List.pairwise_of_forall_mem_list fun e he _ _ hc => absurd hc (hlog Q hQ e he)
    refine List.pairwise_cons.2 ⟨?_, ?_⟩
    · intro Q hQ
      apply happend Q hQ P
      exact List.pairwise_of_forall_mem_list fun _ _ e' he' _ => hlog' e' he'
    · exact h.ordered.imp_of_mem fun _ hQ' hpairs => happend _ hQ' _ hpairs
  joined := by
    refine List.pairwise_cons.2 ⟨?_, ?_⟩
    · rintro Q - ⟨c, hc, hP⟩
      exact absurd hP (ha c hc)
    · refine h.joined.imp_of_mem ?_
      intro Q Q' _ hQ' hjoined hw e he
      rcases List.mem_append.1 he with he | he
      · exact hlog Q' hQ' e he
      · exact hjoined hw e he

end Staged

namespace Job

mutual

/-- The calls whose promises a job waits for. -/
def awaited : Job σ → List Call
  | .await _ _ c _ _ => [c]
  | .join _ members _ => awaitedAll members
  | _ => []

/-- The calls whose promises jobs wait for. -/
def awaitedAll : List (Job σ) → List Call
  | [] => []
  | job :: rest => job.awaited ++ awaitedAll rest

end

theorem mem_awaitedAll_iff {jobs : List (Job σ)} {c : Call} :
    c ∈ awaitedAll jobs ↔ ∃ job ∈ jobs, c ∈ job.awaited := by
  induction jobs with
  | nil => simp [awaitedAll]
  | cons job rest ih => simp [awaitedAll, ih]

theorem CallsOnly.of_mem_awaited {P : Call → Prop} {job : Job σ} (h : CallsOnly P job) {c : Call}
    (hc : c ∈ job.awaited) : P c := by
  induction h with
  | done => cases hc
  | emit => cases hc
  | call => cases hc
  | await hP _ _ => exact List.mem_singleton.1 hc ▸ hP
  | join hm hn ih _ =>
    obtain ⟨job, hj, hc⟩ := mem_awaitedAll_iff.1 hc
    exact ih job hj hc

/-! ## What comes next begins when all is done -/

/-- As long as a job is not done, the steps are its own. -/
theorem exists_move_of_bind {job : Job σ} (h : job.IsOpen) {next : Completion → Job σ}
    {m : Machine σ} {snap : Snapshot σ} (hm : Move (job.bind next, m) snap) :
    ∃ job', snap.1 = job'.bind next ∧ Move (job, m) (job', snap.2) := by
  cases job with
  | done completion => exact (h completion rfl).elim
  | emit run event job =>
    rw [Job.bind] at hm
    cases hm with
    | tick now => exact ⟨.emit run event job, rfl, .tick now⟩
    | emit => exact ⟨job, rfl, .emit⟩
  | call c resolver job =>
    rw [Job.bind] at hm
    cases hm with
    | tick now => exact ⟨.call c resolver job, rfl, .tick now⟩
    | answer hr => exact ⟨_, rfl, .answer hr⟩
    | @promise _ _ _ _ delay? finish _ hr =>
      exact ⟨.await m.tickets (delay?.map (m.now + ·)) c finish job, rfl, .promise hr⟩
  | await ticket due? c finish job =>
    rw [Job.bind] at hm
    cases hm with
    | tick now => exact ⟨.await ticket due? c finish job, rfl, .tick now⟩
    | keep hf => exact ⟨_, rfl, .keep hf⟩
  | join turns members job =>
    rw [Job.bind] at hm
    cases hm with
    | tick now => exact ⟨.join turns members job, rfl, .tick now⟩
    | @member _ _ _ _ members' _ turns' hm =>
      exact ⟨.join turns' members' job, rfl, .member turns' hm⟩
    | turn turns' => exact ⟨.join turns' members job, rfl, .turn turns'⟩
    | join hc => exact ⟨_, rfl, .join hc⟩

theorem isOpen_or_exists_done (job : Job σ) :
    job.IsOpen ∨ ∃ completion, job = .done completion := by
  cases job with
  | done completion => exact .inr ⟨completion, rfl⟩
  | _ => exact .inl nofun

/-- **What comes next begins when all of a job is done**, however the job is interleaved. -/
theorem of_interleaves_bind {job : Job σ} {next : Completion → Job σ} {m : Machine σ}
    {snap : Snapshot σ} (h : Interleaves (job.bind next, m) snap) :
    (∃ job', job'.IsOpen ∧ snap.1 = job'.bind next ∧ Interleaves (job, m) (job', snap.2)) ∨
      ∃ completion m', Interleaves (job, m) (.done completion, m') ∧
        Interleaves (next completion, m') snap := by
  induction h with
  | refl =>
    obtain hopen | ⟨completion, rfl⟩ := job.isOpen_or_exists_done
    · exact .inl ⟨job, hopen, rfl, .refl⟩
    · exact .inr ⟨completion, m, .refl, .refl⟩
  | @tail before snap _ hm ih =>
    obtain ⟨job₁, hopen, heq, hi⟩ | ⟨completion, m', hi, hnext⟩ := ih
    · obtain ⟨job₂, heq', hm'⟩ := exists_move_of_bind hopen (m := before.2) (by rwa [← heq])
      obtain hopen' | ⟨completion, rfl⟩ := job₂.isOpen_or_exists_done
      · exact .inl ⟨job₂, hopen', heq', hi.tail hm'⟩
      · refine .inr ⟨completion, snap.2, hi.tail hm', ?_⟩
        have hsnap : snap = (next completion, snap.2) := Prod.ext heq' rfl
        rw [← hsnap]
    · exact .inr ⟨completion, m', hi, hnext.tail hm⟩

/-! ## Jobs in turn -/

variable {next : List Completion → Job σ} {stages : List (Call → Prop)} {jobs : List (Job σ)}

theorem callsOnly_inTurn (hj : List.Forall₂ CallsOnly stages jobs)
    (hn : ∀ completions, CallsOnly (fun _ => False) (next completions)) :
    CallsOnly (fun c => ∃ P ∈ stages, P c) (inTurn next jobs) := by
  refine .inTurn ?_ fun completions => (hn completions).mono fun _ h => h.elim
  intro job hm
  obtain ⟨i, hi, rfl⟩ := List.getElem_of_mem hm
  have hlength := hj.length_eq
  refine (hj.get (by omega) hi).mono ?_
  intro c hP
  exact ⟨_, List.getElem_mem _, hP⟩

/-- **Jobs in turn do not overlap**, however each of them is interleaved: what an earlier one
calls is over before a later one calls anything. -/
theorem staged_of_interleaves (hs : stages.Pairwise fun P Q => ∀ c, P c → ¬ Q c)
    (hj : List.Forall₂ CallsOnly stages jobs)
    (hn : ∀ completions, CallsOnly (fun _ => False) (next completions)) {m : Machine σ}
    {snap : Snapshot σ} (hi : Interleaves (inTurn next jobs, m) snap) :
    ∃ new, snap.2.log = m.log ++ new ∧ Staged stages new snap.1.awaited := by
  induction hj generalizing next m with
  | nil =>
    obtain ⟨-, new, hlog, -⟩ := callsOnly_of_interleaves (hn []) hi
    exact ⟨new, hlog, .nil, .nil⟩
  | @cons P job stages jobs hjob hrest ih =>
    rw [List.pairwise_cons] at hs
    have hfirst : ∀ {new : List Entry}, (∀ e ∈ new, ∀ c ∈ e.event.subject?, P c) →
        ∀ Q ∈ stages, ∀ e ∈ new, ¬ e.event.Concerns Q := by
      rintro new hnew Q hQ e he ⟨c, hc, hQc⟩
      exact hs.1 Q hQ c (hnew e he c hc) hQc
    obtain ⟨job', hopen, heq, hi⟩ | ⟨completion, m', hi, hi'⟩ := of_interleaves_bind hi
    · -- nothing but the first job has begun
      obtain ⟨-, new, hlog, hnew⟩ := callsOnly_of_interleaves hjob hi
      exact ⟨new, hlog, .first (hfirst hnew)⟩
    · obtain ⟨-, new, hlog, hnew⟩ := callsOnly_of_interleaves hjob hi
      obtain ⟨new', hlog', hstaged⟩ := ih hs.2 (fun completions => hn _) hi'
      obtain ⟨hcalls, rest, hlog'', hrest'⟩ :=
        callsOnly_of_interleaves (callsOnly_inTurn hrest fun completions => hn _) hi'
      obtain rfl : rest = new' := List.append_cancel_left (hlog''.symm.trans hlog')
      refine ⟨new ++ rest, by rw [hlog', hlog, List.append_assoc], ?_⟩
      refine hstaged.cons (hfirst hnew) ?_ ?_
      · rintro e he ⟨c, hc, hP⟩
        obtain ⟨Q, hQ, hQc⟩ := hrest' e he c hc
        exact hs.1 Q hQ c hP hQc
      · intro c hc hP
        obtain ⟨Q, hQ, hQc⟩ := hcalls.of_mem_awaited hc
        exact hs.1 Q hQ c hP hQc

end Job

end GraphQL
