import GraphQL.Proofs.Execution.Timing

/-!
# What resolvers answer in the course of a schedule

`Job.Obtains job m c a`: driving the job on the machine makes the call `c`, and the resolver that is
called answers `a`. These are the calls in the log and no others (`called_drive`). So it can be told
of one run alone whether the resolvers that it calls answer: if they do, the run ends
(`exists_drive_eq_ok_of_obtains`), whatever the same resolvers would do at other times, and whatever
those do that are not called.
-/

namespace GraphQL

namespace Machine

variable {σ : Type} {m m₁ m' : Machine σ} {P Q : Call → Prop}

/-- Since the first machine, these calls have been made, and no others. -/
def Called (m m' : Machine σ) (P : Call → Prop) : Prop :=
  ∃ new, m'.log = m.log ++ new ∧ ∀ c, (∃ e ∈ new, e.event = .called c) ↔ P c

namespace Called

theorem of_log_eq (h : m'.log = m.log) (hn : ∀ c, ¬ P c) : m.Called m' P :=
  ⟨[], by rw [h, List.append_nil], fun c => by simp [hn c]⟩

theorem record (m : Machine σ) (run : Nat) (event : Event) :
    m.Called (m.record run event) fun c => event = .called c :=
  ⟨_, rfl, fun c => by simp⟩

theorem congr (h : m.Called m' P) (hpq : ∀ c, P c ↔ Q c) : m.Called m' Q := by
  obtain ⟨new, hlog, hcalls⟩ := h
  exact ⟨new, hlog, fun c => (hcalls c).trans (hpq c)⟩

theorem trans (h : m.Called m₁ P) (h' : m₁.Called m' Q) : m.Called m' fun c => P c ∨ Q c := by
  obtain ⟨new, hlog, hcalls⟩ := h
  obtain ⟨new', hlog', hcalls'⟩ := h'
  refine ⟨new ++ new', by rw [hlog', hlog, List.append_assoc], fun c => ?_⟩
  refine Iff.trans ?_ (or_congr (hcalls c) (hcalls' c))
  simp only [List.mem_append, or_and_right, exists_or]

end Called

end Machine

namespace Job

variable {σ : Type}

/-- Acting makes the call, and its resolver answers this. -/
inductive ActObtains : Job σ → Machine σ → Call → Resolution σ → Prop where
  | here {c resolver next m} : ActObtains (.call c resolver next) m c (resolver m.state).1
  | emit {run event next m c a} (h : ActObtains next (m.record run event) c a) :
    ActObtains (.emit run event next) m c a
  | answered {c resolver next m result state c' a} (hr : resolver m.state = (.ready result, state))
    (h : ActObtains (next result) { m.record c.run (.called c) with state := state } c' a) :
    ActObtains (.call c resolver next) m c' a
  | member {turns members next m i job c a} (hi : turns.current? = some i)
    (hj : members[i]? = some job) (h : ActObtains job m c a) :
    ActObtains (.join turns members next) m c a
  | joined {turns members next m completions c a} (hi : turns.current? = none)
    (hc : completions? members = some completions) (h : ActObtains (next completions) m c a) :
    ActObtains (.join turns members next) m c a

/-- Driving without a limit makes the call, and its resolver answers this. -/
inductive Obtains : Job σ → Machine σ → Call → Resolution σ → Prop where
  | act {job m c a} (h : ActObtains job m c a) : Obtains job m c a
  | turn {job m job' m' turn c a} (hact : job.act m = (job', m', turn))
    (ht : turn = .goesOn ∨ turn = .asks) (h : Obtains job' m' c a) : Obtains job m c a
  | keep {job m job' m' turn ticket due kept m'' c a} (hact : job.act m = (job', m', turn))
    (hg : turn ≠ .goesOn) (ha : turn ≠ .asks) (hn : Wait.next? job'.waits = some (ticket, due))
    (hk : job'.keep? ticket { m' with now := due } = some (kept, m''))
    (h : Obtains kept m'' c a) : Obtains job m c a

/-- The job records no calls but those that it makes; and if it is to be `live`, all promises that
it waits for will be kept, now and whatever resolvers answer. -/
inductive Faithful (live : Prop) : Job σ → Prop where
  | done {completion} : Faithful live (.done completion)
  | emit {run event next} (he : event.isCall = false) (h : Faithful live next) :
    Faithful live (.emit run event next)
  | call {c resolver next} (h : ∀ result, Faithful live (next result)) :
    Faithful live (.call c resolver next)
  | await {ticket due? c finish next} (hd : live → due?.isSome = true)
    (h : ∀ result, Faithful live (next result)) :
    Faithful live (.await ticket due? c finish next)
  | join {turns members next} (hm : ∀ job ∈ members, Faithful live job)
    (hn : ∀ completions, Faithful live (next completions)) :
    Faithful live (.join turns members next)

variable {live : Prop}

/-! ## Jobs stay faithful while they are answered -/

theorem Faithful.waits {job : Job σ} (h : job.Faithful True) :
    ∀ w ∈ job.waits, w.due?.isSome = true := by
  induction h with
  | await hd => simpa [Job.waits] using hd
  | join _ _ ih =>
    intro w hw
    obtain ⟨job, hj, hw⟩ := mem_waitsAll_iff.1 hw
    exact ih job hj w hw
  | _ => simp [Job.waits]

mutual

theorem faithful_act : (job : Job σ) → (m : Machine σ) → job.Faithful live →
    (live → ∀ c a, job.ActObtains m c a → a.IsKept) → (job.act m).1.Faithful live
  | .done _, m, h, _ => by
    rw [act]
    exact h
  | .emit run event next, m, .emit _ h, ha => by
    rw [act]
    exact faithful_act next _ h fun hl c a hc => ha hl c a (.emit hc)
  | .call c resolver next, m, .call h, ha => by
    rw [act]
    cases hr : resolver m.state with
    | mk resolution state =>
      have hr' : resolver (m.record c.run (.called c)).state = (resolution, state) := hr
      rw [hr']
      cases resolution with
      | ready result =>
        exact faithful_act (next result) _ (h result) fun hl c a hc => ha hl c a (.answered hr hc)
      | pending delay? finish =>
        refine .await ?_ h
        intro hl
        have hkept := ha hl c _ .here
        rw [hr] at hkept
        rwa [Option.isSome_map]
  | .await .., m, h, _ => by
    rw [act]
    exact h
  | .join turns members next, m, .join hm hn, ha => by
    rw [act]
    cases hi : turns.current? with
    | some i =>
      have hat := faithful_actAt i members m hm fun hl job hj c a hc => ha hl c a (.member hi hj hc)
      exact .join hat hn
    | none =>
      cases hc : completions? members with
      | some completions =>
        exact faithful_act (next completions) m (hn completions) fun hl c a h =>
          ha hl c a (.joined hi hc h)
      | none => exact .join hm hn

theorem faithful_actAt : (i : Nat) → (jobs : List (Job σ)) → (m : Machine σ) →
    (∀ job ∈ jobs, job.Faithful live) →
    (live → ∀ job, jobs[i]? = some job → ∀ c a, job.ActObtains m c a → a.IsKept) →
    ∀ job ∈ (actAt i jobs m).1, job.Faithful live
  | _, [], m, h, _ => by
    rw [actAt]
    exact h
  | 0, job :: rest, m, h, ha => by
    rw [List.forall_mem_cons] at h
    rw [actAt]
    exact List.forall_mem_cons.2 ⟨faithful_act job m h.1 fun hl => ha hl job rfl, h.2⟩
  | i + 1, job :: rest, m, h, ha => by
    rw [List.forall_mem_cons] at h
    rw [actAt]
    exact List.forall_mem_cons.2 ⟨h.1, faithful_actAt i rest m h.2 ha⟩

end

mutual

theorem faithful_keep {ticket : Nat} : (job : Job σ) → (m : Machine σ) → {kept : Snapshot σ} →
    job.keep? ticket m = some kept → job.Faithful live → kept.1.Faithful live
  | .done _, _, _, h, _ => by simp [keep?] at h
  | .emit .., _, _, h, _ => by simp [keep?] at h
  | .call .., _, _, h, _ => by simp [keep?] at h
  | .await ticket' due? c finish next, m, kept, h, .await _ hn => by
    rw [keep?] at h
    split at h
    · simp only [Option.some.injEq] at h
      subst h
      exact hn _
    · cases h
  | .join turns members next, m, kept, h, .join hm hn => by
    rw [keep?] at h
    split at h
    · next heq =>
      simp only [Option.some.injEq] at h
      subst h
      exact .join (faithful_keepAny members m heq hm) hn
    · cases h

theorem faithful_keepAny {ticket : Nat} : (jobs : List (Job σ)) → (m : Machine σ) →
    {kept : Nat × List (Job σ) × Machine σ} → keepAny? ticket jobs m = some kept →
    (∀ job ∈ jobs, job.Faithful live) → ∀ job ∈ kept.2.1, job.Faithful live
  | [], _, _, h, _ => by simp [keepAny?] at h
  | job :: rest, m, kept, h, hf => by
    rw [List.forall_mem_cons] at hf
    rw [keepAny?] at h
    split at h
    · next heq =>
      simp only [Option.some.injEq] at h
      subst h
      exact List.forall_mem_cons.2 ⟨faithful_keep job m heq hf.1, hf.2⟩
    · split at h
      · next heq =>
        simp only [Option.some.injEq] at h
        subst h
        exact List.forall_mem_cons.2 ⟨hf.1, faithful_keepAny rest m heq hf.2⟩
      · cases h

end

theorem faithful_of_act {job job' : Job σ} {m m' : Machine σ} {turn : Turn}
    (hact : job.act m = (job', m', turn)) (h : job.Faithful live)
    (ha : live → ∀ c a, job.Obtains m c a → a.IsKept) : job'.Faithful live := by
  have hfaithful := faithful_act job m h fun hl c a hc => ha hl c a (.act hc)
  rwa [hact] at hfaithful

/-! ## Runs whose resolvers answer -/

/-- **If the resolvers that a run calls answer, the run ends.** -/
theorem exists_drive_eq_ok_of_obtains {job : Job σ} {m : Machine σ} (ht : job.Tended False)
    (hf : job.Faithful True) (ha : ∀ c a, job.Obtains m c a → a.IsKept) :
    ∃ completion m', job.drive none m = (.ok completion, m') := by
  fun_induction drive none job m with
  | case1 job m completion m₁ turn hact => exact ⟨completion, m₁, rfl⟩
  | case2 job m job₁ m₁ _ hact ih =>
    have hf₁ := faithful_of_act hact hf fun _ => ha
    exact ih (turned_of_act hact ht).tended hf₁ fun c a hc => ha c a (.turn hact (.inl rfl) hc)
  | case3 job m job₁ m₁ _ hact ih =>
    have hf₁ := faithful_of_act hact hf fun _ => ha
    exact ih (turned_of_act hact ht).tended hf₁ fun c a hc => ha c a (.turn hact (.inr rfl) hc)
  | case4 job m job₁ m₁ turn hdone hgoes hasks hact hn =>
    have hf₁ := faithful_of_act hact hf fun _ => ha
    obtain ⟨hrests, hopen⟩ := (turned_of_act hact ht).rests hdone hgoes hasks
    obtain ⟨ticket, due, hs⟩ := Wait.exists_next? (hrests.waits_ne_nil hopen) hf₁.waits
    rw [hn] at hs
    cases hs
  | case5 job m job₁ m₁ turn _ _ _ hact ticket due hn hl => simp at hl
  | case6 job m job₁ m₁ turn _ _ _ hact ticket due hn _ hk =>
    obtain ⟨kept, hs⟩ := exists_keep job₁ { m₁ with now := due } ⟨_, Wait.mem_of_next? hn, rfl⟩
    rw [hk] at hs
    cases hs
  | case7 job m job₁ m₁ turn _ hgoes hasks hact ticket due hn _ kept m₂ hkept ih =>
    have hf₁ := faithful_of_act hact hf fun _ => ha
    exact ih (tended_keep job₁ _ hkept (turned_of_act hact ht).tended)
      (faithful_keep job₁ _ hkept hf₁) fun c a hc => ha c a (.keep hact hgoes hasks hn hkept hc)

theorem isKept_of_actObtains {job : Job σ} {m : Machine σ} {c : Call} {a : Resolution σ}
    (h : job.ActObtains m c a) (hl : job.Live) : a.IsKept := by
  induction h with
  | here =>
    cases hl with
    | call hr => exact hr trivial _
  | emit _ ih =>
    cases hl with
    | emit hl => exact ih hl
  | answered _ _ ih =>
    cases hl with
    | call _ hn => exact ih (hn _)
  | member _ hj _ ih =>
    cases hl with
    | join _ hm => exact ih (hm _ (List.mem_of_getElem? hj))
  | joined _ _ _ ih =>
    cases hl with
    | join _ _ hn => exact ih (hn _)

/-- Of a live job, all resolvers that are called answer. -/
theorem isKept_of_obtains {job : Job σ} {m : Machine σ} {c : Call} {a : Resolution σ}
    (h : job.Obtains m c a) (hl : job.Live) : a.IsKept := by
  induction h with
  | act h => exact isKept_of_actObtains h hl
  | turn hact _ _ ih => exact ih (turned_of_act hact hl).tended
  | keep hact _ _ _ hk _ ih => exact ih (tended_keep _ _ hk (turned_of_act hact hl).tended)

/-! ## The log tells the calls that are made -/

section Inversion

variable {m : Machine σ} {a : Resolution σ} {resolver : σ → Resolution σ × σ}
  {next : Except FieldError Value → Job σ} {turns : Turns} {members : List (Job σ)}
  {after : List Completion → Job σ}

theorem actObtains_emit_iff {run : Nat} {event : Event} {next : Job σ} {c : Call} :
    ActObtains (.emit run event next) m c a ↔ ActObtains next (m.record run event) c a := by
  constructor
  · intro h
    cases h with
    | emit h => exact h
  · exact .emit

/-- A call that is answered at once is made, and what its answer leads to may make others. -/
theorem actObtains_ready_iff {result : Except FieldError Value} {state : σ} {c c' : Call}
    (hr : resolver m.state = (.ready result, state)) :
    ActObtains (.call c resolver next) m c' a ↔ (c = c' ∧ .ready result = a) ∨
      ActObtains (next result) { m.record c.run (.called c) with state := state } c' a := by
  constructor
  · intro h
    cases h with
    | here => exact .inl ⟨rfl, by rw [hr]⟩
    | answered hr' h =>
      rw [hr] at hr'
      cases hr'
      exact .inr h
  · rintro (⟨rfl, rfl⟩ | h)
    · have hanswer : (resolver m.state).1 = .ready result := by rw [hr]
      exact hanswer ▸ .here
    · exact .answered hr h

/-- Where a promise is given, acting makes no other call. -/
theorem actObtains_pending_iff {delay? : Option Nat} {finish : σ → Except FieldError Value × σ}
    {state : σ} {c c' : Call} (hr : resolver m.state = (.pending delay? finish, state)) :
    ActObtains (.call c resolver next) m c' a ↔ c = c' ∧ .pending delay? finish = a := by
  constructor
  · intro h
    cases h with
    | here => exact ⟨rfl, by rw [hr]⟩
    | answered hr' =>
      rw [hr] at hr'
      cases hr'
  · rintro ⟨rfl, rfl⟩
    have hanswer : (resolver m.state).1 = .pending delay? finish := by rw [hr]
    exact hanswer ▸ .here

theorem actObtains_member_iff {i : Nat} {c : Call} (hi : turns.current? = some i) :
    ActObtains (.join turns members after) m c a ↔
      ∃ job, members[i]? = some job ∧ job.ActObtains m c a := by
  constructor
  · intro h
    cases h with
    | member hi' hj h =>
      rw [hi] at hi'
      cases hi'
      exact ⟨_, hj, h⟩
    | joined hi' =>
      rw [hi] at hi'
      cases hi'
  · rintro ⟨job, hj, h⟩
    exact .member hi hj h

/-- A group in which it is nobody's turn makes calls only if it is done. -/
theorem actObtains_joined_iff {c : Call} (hi : turns.current? = none) :
    ActObtains (.join turns members after) m c a ↔
      ∃ completions, completions? members = some completions ∧
        (after completions).ActObtains m c a := by
  constructor
  · intro h
    cases h with
    | member hi' =>
      rw [hi] at hi'
      cases hi'
    | joined _ hc h => exact ⟨_, hc, h⟩
  · rintro ⟨completions, hc, h⟩
    exact .joined hi hc h

end Inversion

mutual

theorem called_act : (job : Job σ) → (m : Machine σ) → job.Faithful live →
    m.Called (job.act m).2.1 fun c => ∃ a, job.ActObtains m c a
  | .done _, m, _ => by
    rw [act]
    refine .of_log_eq rfl ?_
    rintro c ⟨a, h⟩
    cases h
  | .emit run event next, m, .emit he hn => by
    have hevent : ∀ c, event ≠ .called c := by
      rintro c rfl
      cases he
    rw [act]
    refine ((Machine.Called.record m run event).trans (called_act next _ hn)).congr fun c => ?_
    simp only [hevent, false_or, actObtains_emit_iff]
  | .call c resolver next, m, .call hn => by
    rw [act]
    cases hr : resolver m.state with
    | mk resolution state =>
      have hr' : resolver (m.record c.run (.called c)).state = (resolution, state) := hr
      have hrecord := Machine.Called.record m c.run (.called c)
      rw [hr']
      cases resolution with
      | ready result =>
        have hnext := called_act (next result) { m.record c.run (.called c) with state := state }
          (hn result)
        refine (hrecord.trans hnext).congr fun c' => ?_
        simp only [actObtains_ready_iff hr, exists_or, exists_and_left, exists_eq', and_true,
          Event.called.injEq]
      | pending delay? finish =>
        refine hrecord.congr fun c' => ?_
        simp only [actObtains_pending_iff hr, exists_and_left, exists_eq', and_true,
          Event.called.injEq]
  | .await .., m, _ => by
    rw [act]
    refine .of_log_eq rfl ?_
    rintro c ⟨a, h⟩
    cases h
  | .join turns members next, m, .join hm hn => by
    rw [act]
    cases hi : turns.current? with
    | some i =>
      refine (called_actAt i members m hm).congr fun c => ?_
      simp only [actObtains_member_iff hi]
    | none =>
      cases hc : completions? members with
      | some completions =>
        refine (called_act (next completions) m (hn completions)).congr fun c => ?_
        simp only [actObtains_joined_iff hi, hc, Option.some.injEq, exists_eq_left']
      | none =>
        refine .of_log_eq rfl fun c => ?_
        simp only [actObtains_joined_iff hi, hc, reduceCtorEq, false_and, exists_false,
          not_false_eq_true]

theorem called_actAt : (i : Nat) → (jobs : List (Job σ)) → (m : Machine σ) →
    (∀ job ∈ jobs, job.Faithful live) →
    m.Called (actAt i jobs m).2.1 fun c => ∃ a job, jobs[i]? = some job ∧ job.ActObtains m c a
  | _, [], m, _ => by
    rw [actAt]
    refine .of_log_eq rfl ?_
    rintro c ⟨a, job, hj, -⟩
    cases hj
  | 0, job :: rest, m, hf => by
    rw [List.forall_mem_cons] at hf
    rw [actAt]
    refine (called_act job m hf.1).congr fun c => ?_
    simp only [List.getElem?_cons_zero, Option.some.injEq, exists_eq_left']
  | i + 1, job :: rest, m, hf => by
    rw [List.forall_mem_cons] at hf
    rw [actAt]
    exact called_actAt i rest m hf.2

end

mutual

/-- Keeping a promise makes no calls. -/
theorem called_keep {ticket : Nat} : (job : Job σ) → (m : Machine σ) → {kept : Snapshot σ} →
    job.keep? ticket m = some kept → m.Called kept.2 fun _ => False
  | .done _, _, _, h => by simp [keep?] at h
  | .emit .., _, _, h => by simp [keep?] at h
  | .call .., _, _, h => by simp [keep?] at h
  | .await ticket' due? c finish next, m, kept, h => by
    rw [keep?] at h
    split at h
    · simp only [Option.some.injEq] at h
      subst h
      exact (Machine.Called.record m c.run (.completed c)).congr fun c' => by simp
    · cases h
  | .join turns members next, m, kept, h => by
    rw [keep?] at h
    split at h
    · next heq =>
      simp only [Option.some.injEq] at h
      subst h
      exact called_keepAny members m heq
    · cases h

theorem called_keepAny {ticket : Nat} : (jobs : List (Job σ)) → (m : Machine σ) →
    {kept : Nat × List (Job σ) × Machine σ} → keepAny? ticket jobs m = some kept →
    m.Called kept.2.2 fun _ => False
  | [], _, _, h => by simp [keepAny?] at h
  | job :: rest, m, kept, h => by
    rw [keepAny?] at h
    split at h
    · next heq =>
      simp only [Option.some.injEq] at h
      subst h
      exact called_keep job m heq
    · split at h
      · next heq =>
        simp only [Option.some.injEq] at h
        subst h
        have hrest := called_keepAny rest m heq
        exact hrest
      · cases h

end

theorem called_of_act {job job' : Job σ} {m m' : Machine σ} {turn : Turn}
    (hact : job.act m = (job', m', turn)) (hf : job.Faithful live) :
    m.Called m' fun c => ∃ a, job.ActObtains m c a := by
  have hcalls := called_act job m hf
  rwa [hact] at hcalls

theorem not_obtains_done {completion : Completion} {m : Machine σ} {c : Call} {a : Resolution σ} :
    ¬ Obtains (.done completion) m c a := by
  intro h
  cases h with
  | act h => cases h
  | turn hact ht =>
    rw [act] at hact
    cases hact
    simp at ht
  | keep hact _ _ hn =>
    rw [act] at hact
    cases hact
    cases hn

/-- Where it is known how acting leaves a job, it is known how driving goes on. -/
theorem Obtains.cases_act {job job' : Job σ} {m m' : Machine σ} {turn : Turn} {c : Call}
    {a : Resolution σ} (h : job.Obtains m c a) (hact : job.act m = (job', m', turn)) :
    job.ActObtains m c a ∨ ((turn = .goesOn ∨ turn = .asks) ∧ job'.Obtains m' c a) ∨
      (turn ≠ .goesOn ∧ turn ≠ .asks ∧ ∃ ticket due kept m'',
        Wait.next? job'.waits = some (ticket, due) ∧
        job'.keep? ticket { m' with now := due } = some (kept, m'') ∧ kept.Obtains m'' c a) := by
  cases h with
  | act h => exact .inl h
  | turn hact' ht h =>
    rw [hact] at hact'
    cases hact'
    exact .inr (.inl ⟨ht, h⟩)
  | keep hact' hg ha hn hk h =>
    rw [hact] at hact'
    cases hact'
    exact .inr (.inr ⟨hg, ha, _, _, _, _, hn, hk, h⟩)

/-- Where nothing follows on acting, only acting makes calls. -/
theorem exists_obtains_iff_of_stops {job job' : Job σ} {m m' : Machine σ} {turn : Turn}
    (hact : job.act m = (job', m', turn))
    (hgoes : (turn = .goesOn ∨ turn = .asks) → ∀ c a, ¬ job'.Obtains m' c a)
    (hkeeps : ∀ ticket due kept m'', Wait.next? job'.waits = some (ticket, due) →
      job'.keep? ticket { m' with now := due } ≠ some (kept, m'')) (c : Call) :
    (∃ a, job.ActObtains m c a) ↔ ∃ a, job.Obtains m c a := by
  constructor
  · rintro ⟨a, h⟩
    exact ⟨a, .act h⟩
  · rintro ⟨a, h⟩
    rcases h.cases_act hact with h | ⟨ht, h⟩ | ⟨-, -, ticket, due, kept, m'', hn, hk, -⟩
    · exact ⟨a, h⟩
    · exact absurd h (hgoes ht c a)
    · exact absurd hk (hkeeps ticket due kept m'' hn)

/-- Where the turn goes on or is asked for, driving what is left makes the other calls. -/
theorem exists_obtains_iff_of_turn {job job' : Job σ} {m m' : Machine σ} {turn : Turn}
    (hact : job.act m = (job', m', turn)) (ht : turn = .goesOn ∨ turn = .asks) (c : Call) :
    (∃ a, job.ActObtains m c a) ∨ (∃ a, job'.Obtains m' c a) ↔ ∃ a, job.Obtains m c a := by
  constructor
  · rintro (⟨a, h⟩ | ⟨a, h⟩)
    · exact ⟨a, .act h⟩
    · exact ⟨a, .turn hact ht h⟩
  · rintro ⟨a, h⟩
    rcases h.cases_act hact with h | ⟨-, h⟩ | ⟨hg, ha, -⟩
    · exact .inl ⟨a, h⟩
    · exact .inr ⟨a, h⟩
    · exact absurd ht (not_or.2 ⟨hg, ha⟩)

/-- Where a promise is kept, driving what is left then makes the other calls. -/
theorem exists_obtains_iff_of_keep {job job' kept : Job σ} {m m' m'' : Machine σ} {turn : Turn}
    {ticket due : Nat} (hact : job.act m = (job', m', turn)) (hg : turn ≠ .goesOn)
    (ha : turn ≠ .asks) (hn : Wait.next? job'.waits = some (ticket, due))
    (hk : job'.keep? ticket { m' with now := due } = some (kept, m'')) (c : Call) :
    (∃ a, job.ActObtains m c a) ∨ (∃ a, kept.Obtains m'' c a) ↔ ∃ a, job.Obtains m c a := by
  constructor
  · rintro (⟨a, h⟩ | ⟨a, h⟩)
    · exact ⟨a, .act h⟩
    · exact ⟨a, .keep hact hg ha hn hk h⟩
  · rintro ⟨a, h⟩
    rcases h.cases_act hact with h | ⟨ht, -⟩ | ⟨-, -, ticket', due', kept', m₁, hn', hk', h⟩
    · exact .inl ⟨a, h⟩
    · exact absurd ht (not_or.2 ⟨hg, ha⟩)
    · rw [hn] at hn'
      cases hn'
      rw [hk] at hk'
      cases hk'
      exact .inr ⟨a, h⟩

/-- **A run makes the calls that the log tells, and no others.** -/
theorem called_drive {job : Job σ} {m : Machine σ} (hf : job.Faithful False) :
    m.Called (job.drive none m).2 fun c => ∃ a, job.Obtains m c a := by
  fun_induction drive none job m with
  | case1 job m completion m₁ turn hact =>
    refine (called_of_act hact hf).congr (exists_obtains_iff_of_stops hact ?_ ?_)
    · exact fun _ c a => not_obtains_done
    · intro ticket due kept m'' hn
      cases hn
  | case2 job m job₁ m₁ _ hact ih =>
    have hrest := ih (faithful_of_act hact hf False.elim)
    exact ((called_of_act hact hf).trans hrest).congr
      (exists_obtains_iff_of_turn hact (.inl rfl))
  | case3 job m job₁ m₁ _ hact ih =>
    have hrest := ih (faithful_of_act hact hf False.elim)
    exact ((called_of_act hact hf).trans hrest).congr
      (exists_obtains_iff_of_turn hact (.inr rfl))
  | case4 job m job₁ m₁ turn _ hgoes hasks hact hn =>
    refine (called_of_act hact hf).congr (exists_obtains_iff_of_stops hact ?_ ?_)
    · intro ht
      exact absurd ht (not_or.2 ⟨hgoes, hasks⟩)
    · intro ticket due kept m'' hn'
      rw [hn] at hn'
      cases hn'
  | case5 job m job₁ m₁ turn _ _ _ hact ticket due hn hl => simp at hl
  | case6 job m job₁ m₁ turn _ hgoes hasks hact ticket due hn _ hk =>
    refine (called_of_act hact hf).congr (exists_obtains_iff_of_stops hact ?_ ?_)
    · intro ht
      exact absurd ht (not_or.2 ⟨hgoes, hasks⟩)
    · intro ticket' due' kept m'' hn' hk'
      rw [hn] at hn'
      cases hn'
      rw [hk] at hk'
      cases hk'
  | case7 job m job₁ m₁ turn _ hgoes hasks hact ticket due hn _ kept m₂ hkept ih =>
    have hrest := ih (faithful_keep job₁ _ hkept (faithful_of_act hact hf False.elim))
    have hnone : m₁.Called m₂ fun _ => False := called_keep job₁ _ hkept
    refine (((called_of_act hact hf).trans hnone).trans hrest).congr fun c => ?_
    rw [or_false]
    exact exists_obtains_iff_of_keep hact hgoes hasks hn hkept c

/-! ## Jobs are put together from jobs -/

theorem Silent.faithful {job : Job σ} (h : job.Silent) : job.Faithful live := by
  induction h with
  | done => exact .done
  | emit he _ ih => exact .emit he ih

theorem Faithful.bind {job : Job σ} {next : Completion → Job σ} (h : job.Faithful live)
    (hn : ∀ completion, (next completion).Faithful live) : (job.bind next).Faithful live := by
  induction h with
  | done => exact hn _
  | emit he _ ih => exact .emit he ih
  | call _ ih => exact .call ih
  | await hd _ ih => exact .await hd ih
  | join hm _ _ ih => exact .join hm ih

theorem Faithful.inTurn {next : List Completion → Job σ} {jobs : List (Job σ)}
    (h : ∀ job ∈ jobs, job.Faithful live) (hn : ∀ completions, (next completions).Faithful live) :
    (inTurn next jobs).Faithful live := by
  induction jobs generalizing next with
  | nil => exact hn []
  | cons job rest ih =>
    rw [List.forall_mem_cons] at h
    refine h.1.bind ?_
    intro completion
    exact ih h.2 fun completions => hn _

end Job

end GraphQL
