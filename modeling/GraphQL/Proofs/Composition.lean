import GraphQL.Proofs.ErrorOrder
import GraphQL.Proofs.Execution.Shift

/-!
# Executions one after the other

`Schema.executeInTurn` executes operations one after the other, each in the state that the one
before left. A job that runs several jobs in turn does what the executions of these jobs do in turn:
it leaves the same state, the same happens, and it ends with what they end with
(`Schema.execute_of_parts`).
-/

namespace GraphQL

variable {σ : Type}

/-! ## Putting executions together -/

/-- Is it something that happens between the start of an execution and its end? -/
def Event.isWork : Event → Bool
  | .started .. | .executed => false
  | _ => true

/-- What has happened between the starts and the ends of executions, the times aside. -/
def Entry.work (log : List Entry) : List Happening :=
  (log.filter (·.event.isWork)).map fun entry => (entry.run, entry.event)

/-- The object with the entries of all parts; `null` if one of the parts is. -/
def Value.merged (parts : List Value) : Value :=
  if parts.any Value.isNull then .null
  else .object (parts.flatMap fun part => part.asObject?.getD [])

/-- The parts of an output put together. -/
def Output.together (parts : List Output) : Output :=
  ⟨Value.merged (parts.map Output.data), LocatedError.sorted (parts.flatMap Output.errors)⟩

/-- The outputs of executions put together, if none was refused. -/
def Answer.together (answers : List Answer) : Answer :=
  (answers.mapM id).map Output.together

/-- Executes operations one after the other, each in the state that the one before left, until one
does not end. -/
def Schema.executeInTurn (s : Schema σ) : List Run → σ → Report σ (List Answer)
  | [], state => ⟨.ok [], state, []⟩
  | run :: rest, state =>
    let first := s.execute none run state
    match first.ending with
    | .error reason => ⟨.error reason, first.state, first.log⟩
    | .ok answer =>
      let others := s.executeInTurn rest first.state
      ⟨others.ending.map (answer :: ·), others.state, first.log ++ others.log⟩

namespace Entry

@[simp] theorem work_append (log log' : List Entry) :
    work (log ++ log') = work log ++ work log' := by
  simp [work]

@[simp] theorem work_map_later (delay : Nat) (log : List Entry) :
    work (log.map (later delay)) = work log := by
  unfold work
  rw [List.filter_map, List.map_map]
  rfl

@[simp] theorem work_record_started (m : Machine σ) (run : Nat) (kind : OperationKind)
    (name? : Option String) : work (m.record run (.started kind name?)).log = work m.log := by
  simp [Machine.record, work, Event.isWork]

@[simp] theorem work_record_executed (m : Machine σ) (run : Nat) :
    work (m.record run .executed).log = work m.log := by
  simp [Machine.record, work, Event.isWork]

/-- Errors belong to the work of an execution. -/
theorem errors_eq_errorsOf_work (log : List Entry) (run : Nat) :
    errors log run = errorsOf run (work log) := by
  unfold errors errorsOf work
  rw [List.filterMap_map, List.filterMap_filter]
  refine List.filterMap_congr ?_
  rintro ⟨run', time, event⟩ -
  cases event <;> simp [Event.isWork, Event.error?]

end Entry

theorem Answer.together_map_ok (parts : List Output) :
    Answer.together (parts.map .ok) = .ok (Output.together parts) := by
  have hparts : (parts.map .ok : List Answer).mapM id = .ok parts := by
    induction parts with
    | nil => rfl
    | cons out rest ih =>
      rw [List.map_cons, List.mapM_cons, ih]
      rfl
  unfold Answer.together
  rw [hparts]
  rfl

namespace Value

theorem merged_null_cons (parts : List Value) : merged (.null :: parts) = .null := rfl

theorem merged_cons_of_eq_null {parts : List Value} (h : merged parts = .null) (part : Value) :
    merged (part :: parts) = .null := by
  unfold merged at h ⊢
  split at h
  · next hany => simp [hany]
  · cases h

theorem merged_object_cons {parts : List Value} {entries : Object}
    (h : merged parts = .object entries) (entries' : Object) :
    merged (.object entries' :: parts) = .object (entries' ++ entries) := by
  unfold merged at h ⊢
  split at h
  · cases h
  · next hany =>
    obtain rfl := Value.object.inj h
    simp [hany, isNull, asObject?]

end Value

/-! ## What jobs in turn end with -/

namespace Job

/-- The data of an operation whose root keys have ended so. -/
def rootData (keys : List String) (completions : List Completion) : Value :=
  ((values? completions).map fun values => .object (keys.zip values)).getD .null

/-- The data of an operation is what the data of its root keys are together. -/
theorem rootData_eq_merged {keys : List String} {completions : List Completion}
    (h : completions.length = keys.length) :
    rootData keys completions = .merged
      (List.zipWith (fun key completion => rootData [key] [completion]) keys completions) := by
  induction keys generalizing completions with
  | nil =>
    obtain rfl := List.length_eq_zero_iff.1 h
    rfl
  | cons key keys ih =>
    cases completions with
    | nil => simp at h
    | cons completion completions =>
      have ih := ih (Nat.succ.inj h)
      rw [List.zipWith_cons_cons]
      cases completion with
      | none => exact (Value.merged_null_cons _).symm
      | some v =>
        have hv : rootData [key] [some v] = .object [(key, v)] := rfl
        rw [hv]
        cases hvalues : values? completions with
        | none =>
          have hnull : rootData keys completions = .null := by simp [rootData, hvalues]
          rw [Value.merged_cons_of_eq_null (ih.symm.trans hnull)]
          simp [rootData, values?, hvalues]
        | some values =>
          have hobject : rootData keys completions = .object (keys.zip values) := by
            simp [rootData, hvalues]
          rw [Value.merged_object_cons (ih.symm.trans hobject)]
          simp [rootData, values?, hvalues]

/-- The job of an execution that does the jobs of its root keys in turn. -/
def serial (name? : Option String) (keys : List String) (jobs : List (Job σ)) : Job σ :=
  .emit 0 (.started .mutation name?) ((inTurn (.assembleObject keys) jobs).bind fun completion =>
    .emit 0 .executed (.done (some (completion.getD .null))))

theorem drive_emit (run : Nat) (event : Event) (next : Job σ) (m : Machine σ) :
    (Job.emit run event next).drive none m = next.drive none (m.record run event) := by
  rw [drive_eq_driveOn, drive_eq_driveOn, act]

theorem drive_done (completion : Completion) (m : Machine σ) :
    (Job.done completion).drive none m = (.ok completion, m) := by
  rw [drive_eq_driveOn]
  rfl

theorem drive_serial (name? : Option String) (keys : List String) (jobs : List (Job σ))
    (state : σ) : (serial name? keys jobs).drive none (.start state) =
      match driveInTurn none jobs ((Machine.start state).record 0 (.started .mutation name?)) with
      | (.ok completions, m) => (.ok (some (rootData keys completions)), m.record 0 .executed)
      | (.error reason, m) => (.error reason, m) := by
  unfold serial
  rw [drive_emit, drive_bind, drive_inTurn]
  cases driveInTurn none jobs ((Machine.start state).record 0 (.started .mutation name?)) with
  | mk ending m =>
    cases ending with
    | error reason => rfl
    | ok completions =>
      simp only [assembleObject, drive_done, drive_emit]
      rfl

end Job

/-! ## Parts -/

namespace Schema

variable {s : Schema σ}

/-- An operation that is accepted and has the job of one root key to do. -/
structure Does (s : Schema σ) (run : Run) (key : String) (job : Job σ) : Prop where
  bound : s.bind run.operation = []
  serial : ∃ name?, s.job 0 run = .serial name? [key] [job]
  unbegun : job.Unbegun

/-- What the execution of an operation comes to that does jobs in turn. -/
theorem execute_serial {run : Run} (hb : s.bind run.operation = []) {name? : Option String}
    {keys : List String} {jobs : List (Job σ)} (hj : s.job 0 run = .serial name? keys jobs)
    (state : σ) :
    ∃ m ending, Job.driveInTurn none jobs
        ((Machine.start state).record 0 (.started .mutation name?)) = (ending, m) ∧
      (s.execute none run state).state = m.state ∧
      Entry.work (s.execute none run state).log = Entry.work m.log ∧
      (s.execute none run state).ending = ending.map fun completions => .ok
        ⟨Job.rootData keys completions,
          LocatedError.sorted (errorsOf 0 (Entry.work m.log))⟩ := by
  unfold execute Job.report answer
  rw [hj, Job.drive_serial, hb]
  cases Job.driveInTurn none jobs
      ((Machine.start state).record 0 (.started .mutation name?)) with
  | mk ending m =>
    refine ⟨m, ending, rfl, ?_⟩
    cases ending with
    | error reason => exact ⟨rfl, rfl, rfl⟩
    | ok completions =>
      refine ⟨rfl, Entry.work_record_executed m 0, ?_⟩
      simp [Except.map, Entry.errors_eq_errorsOf_work]

/-- Alone, the job of a root key comes to what it comes to from where another one left the
machine. -/
theorem Does.execute {run : Run} {key : String} {job : Job σ} (h : s.Does run key job)
    (m : Machine σ) :
    ∃ ending m', job.drive none m = (ending, m.after m') ∧
      (s.execute none run m.state).state = m'.state ∧
      Entry.work (s.execute none run m.state).log = Entry.work m'.log ∧
      (s.execute none run m.state).ending = ending.map fun completion => .ok
        ⟨Job.rootData [key] [completion],
          LocatedError.sorted (errorsOf 0 (Entry.work m'.log))⟩ := by
  obtain ⟨name?, hjob⟩ := h.serial
  obtain ⟨m₁, ending₁, hd, hstate, hwork, hending⟩ := execute_serial h.bound hjob m.state
  let m₀ := (Machine.start m.state).record 0 (.started .mutation name?)
  obtain ⟨ending, m', hdriven⟩ : ∃ ending m', job.drive none (.start m.state) = (ending, m') :=
    ⟨_, _, rfl⟩
  have hdrive := h.unbegun.drive_eq m
  have hdrive₀ : job.drive none m₀ = ((job.drive none (.start m.state)).1,
      m₀.after (job.drive none (.start m.state)).2) := h.unbegun.drive_eq m₀
  have hwork₀ : Entry.work m₀.log = [] := rfl
  have hwork' : Entry.work (m₀.after m').log = Entry.work m'.log := by
    simp [Machine.after, hwork₀]
  rw [hdriven] at hdrive hdrive₀
  rw [Job.driveInTurn, hdrive₀] at hd
  refine ⟨ending, m', hdrive, ?_⟩
  cases ending with
  | error reason =>
    obtain ⟨rfl, rfl⟩ := Prod.mk.inj hd
    exact ⟨hstate, hwork.trans hwork', hending⟩
  | ok completion =>
    obtain ⟨rfl, rfl⟩ := Prod.mk.inj hd
    rw [hwork'] at hwork hending
    exact ⟨hstate, hwork, hending⟩

/-! ## All parts -/

/-- Jobs in turn end with what the executions of these jobs in turn end with. -/
inductive EndsAs (keys : List String) (errors : List LocatedError) :
    Except Unfinished (List Completion) → Except Unfinished (List Answer) → Prop where
  | unfinished (reason : Unfinished) : EndsAs keys errors (.error reason) (.error reason)
  | ended {completions : List Completion} {outs : List Output}
    (hlength : completions.length = keys.length)
    (hdata : outs.map Output.data =
      List.zipWith (fun key completion => Job.rootData [key] [completion]) keys completions)
    (herrors : (outs.flatMap Output.errors).Perm errors) :
    EndsAs keys errors (.ok completions) (.ok (outs.map .ok))

theorem EndsAs.cons {keys : List String} {errors : List LocatedError}
    {ending : Except Unfinished (List Completion)} {answers : Except Unfinished (List Answer)}
    (h : EndsAs keys errors ending answers) (key : String) (completion : Completion)
    (errors' : List LocatedError) :
    EndsAs (key :: keys) (errors' ++ errors) (ending.map (completion :: ·))
      (answers.map (.ok ⟨Job.rootData [key] [completion], LocatedError.sorted errors'⟩ :: ·)) := by
  cases h with
  | unfinished reason => exact .unfinished reason
  | @ended completions outs hlength hdata herrors =>
    let out : Output := ⟨Job.rootData [key] [completion], LocatedError.sorted errors'⟩
    have houts : (out :: outs).map Output.data = List.zipWith
        (fun key completion => Job.rootData [key] [completion]) (key :: keys)
        (completion :: completions) := congrArg (out.data :: ·) hdata
    have hlength' : (completion :: completions).length = (key :: keys).length :=
      congrArg Nat.succ hlength
    refine EndsAs.ended hlength' houts ?_
    exact (LocatedError.perm_sorted errors').append herrors

/-- The answers together are the answer of what has the data of all and their errors. -/
theorem EndsAs.map_together {keys : List String} {errors : List LocatedError}
    {ending : Except Unfinished (List Completion)} {answers : Except Unfinished (List Answer)}
    (h : EndsAs keys errors ending answers)
    (hp : ∀ completions, ending = .ok completions →
      errors.Pairwise fun a b => a.path.Apart b.path) :
    ending.map (fun completions => .ok
      ⟨Job.rootData keys completions, LocatedError.sorted errors⟩) =
      answers.map Answer.together := by
  cases h with
  | unfinished reason => rfl
  | @ended completions outs hlength hdata herrors =>
    have hsorted := LocatedError.sorted_eq_of_perm herrors.symm (hp completions rfl)
    simp only [Except.map, Answer.together_map_ok, Output.together, hdata,
      Job.rootData_eq_merged hlength, hsorted]

/-- What ends has an output for each key: its entry, or `null`. -/
theorem EndsAs.exists_outs {keys : List String} {errors : List LocatedError}
    {completions : List Completion} {answers : Except Unfinished (List Answer)}
    (h : EndsAs keys errors (.ok completions) answers) :
    ∃ outs, answers = .ok (outs.map .ok) ∧ List.Forall₂
      (fun key out => out.data = .null ∨ ∃ v, out.data = .object [(key, v)]) keys outs := by
  cases h with
  | @ended _ outs hlength hdata herrors =>
    refine ⟨outs, rfl, ?_⟩
    clear herrors
    induction keys generalizing completions outs with
    | nil =>
      obtain rfl := List.length_eq_zero_iff.1 hlength
      obtain rfl := List.map_eq_nil_iff.1 hdata
      exact .nil
    | cons key keys ih =>
      cases completions with
      | nil => cases hlength
      | cons completion completions =>
        obtain ⟨out, outs, rfl, hout, houts⟩ := List.map_eq_cons_iff.1 hdata
        refine .cons ?_ (ih (Nat.succ.inj hlength) houts)
        rw [hout]
        cases completion with
        | none => exact .inl rfl
        | some v => exact .inr ⟨v, rfl⟩

/-- **Jobs in turn do what the executions of these jobs do in turn**, from wherever they begin. -/
theorem exists_endsAs_of_parts {parts : List (Run × String × Job σ)}
    (h : ∀ part ∈ parts, s.Does part.1 part.2.1 part.2.2) (m : Machine σ) :
    ∃ ending m', Job.driveInTurn none (parts.map (·.2.2)) m = (ending, m') ∧
      (s.executeInTurn (parts.map (·.1)) m.state).state = m'.state ∧
      Entry.work m'.log =
        Entry.work m.log ++ Entry.work (s.executeInTurn (parts.map (·.1)) m.state).log ∧
      EndsAs (parts.map (·.2.1))
        (errorsOf 0 (Entry.work (s.executeInTurn (parts.map (·.1)) m.state).log)) ending
        (s.executeInTurn (parts.map (·.1)) m.state).ending := by
  induction parts generalizing m with
  | nil =>
    have hends : EndsAs [] [] (.ok []) (.ok (([] : List Output).map .ok)) :=
      .ended rfl rfl (.refl [])
    exact ⟨.ok [], m, rfl, rfl, by simp [executeInTurn, Entry.work], hends⟩
  | cons part parts ih =>
    obtain ⟨run, key, job⟩ := part
    rw [List.forall_mem_cons] at h
    obtain ⟨ending, m₁, hdrive, hstate, hwork, hending⟩ := h.1.execute m
    have hwork₁ : Entry.work (m.after m₁).log = Entry.work m.log ++ Entry.work m₁.log := by
      simp [Machine.after]
    simp only [List.map_cons, Job.driveInTurn, hdrive, executeInTurn, hending]
    cases ending with
    | error reason =>
      refine ⟨.error reason, m.after m₁, rfl, hstate, ?_, .unfinished reason⟩
      exact hwork₁.trans (by rw [← hwork]; rfl)
    | ok completion =>
      obtain ⟨ending', m', hdrive', hstate', hwork', hends⟩ := ih h.2 (m.after m₁)
      have hsame : (m.after m₁).state = (s.execute none run m.state).state := hstate.symm
      rw [hsame] at hstate' hwork' hends
      simp only [hdrive']
      refine ⟨_, m', rfl, hstate', ?_, ?_⟩
      · simp [hwork', hwork₁, hwork, Except.map]
      · simp only [Except.map, Entry.work_append, errorsOf_append, hwork]
        exact hends.cons key completion _

/-- **An operation that does the jobs of other operations in turn is executed as these are**, one
after the other. -/
theorem execute_of_parts {run : Run} (hb : s.bind run.operation = []) {name? : Option String}
    {parts : List (Run × String × Job σ)}
    (hj : s.job 0 run = .serial name? (parts.map (·.2.1)) (parts.map (·.2.2)))
    (h : ∀ part ∈ parts, s.Does part.1 part.2.1 part.2.2) (state : σ) :
    (s.execute none run state).state = (s.executeInTurn (parts.map (·.1)) state).state ∧
      Entry.work (s.execute none run state).log =
        Entry.work (s.executeInTurn (parts.map (·.1)) state).log ∧
      (s.execute none run state).ending =
        (s.executeInTurn (parts.map (·.1)) state).ending.map Answer.together ∧
      ∀ out, (s.execute none run state).ending = .ok (.ok out) → ∃ outs,
        (s.executeInTurn (parts.map (·.1)) state).ending = .ok (outs.map .ok) ∧ List.Forall₂
          (fun key out => out.data = .null ∨ ∃ v, out.data = .object [(key, v)])
          (parts.map (·.2.1)) outs := by
  obtain ⟨m, ending, hd, hstate, hwork, hending⟩ := execute_serial hb hj state
  let m₀ := (Machine.start state).record 0 (.started .mutation name?)
  obtain ⟨ending', m', hdrive, hstate', hwork', hends⟩ := exists_endsAs_of_parts h m₀
  obtain ⟨rfl, rfl⟩ := Prod.mk.inj (hd.symm.trans hdrive)
  have hlog : Entry.work m.log =
      Entry.work (s.executeInTurn (parts.map (·.1)) state).log := hwork'
  rw [hlog] at hwork hending
  refine ⟨hstate.trans hstate'.symm, hwork, ?_, ?_⟩
  · rw [hending]
    refine hends.map_together ?_
    rintro completions rfl
    obtain ⟨outcome, hreaches⟩ := (endsWith_execute hending).exists_outcome
    exact ((LocatedError.perm_sorted _).pairwise_iff Path.Apart.symm).1 hreaches.pairwise_apart
  · intro out hout
    rw [hending] at hout
    cases ending with
    | error reason => cases hout
    | ok completions => exact hends.exists_outs

end Schema

end GraphQL
