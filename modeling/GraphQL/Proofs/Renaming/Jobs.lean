import GraphQL.Proofs.Execution.Sequence
import GraphQL.Proofs.Outcome.Runs
import GraphQL.Proofs.Renaming.Requests
import Mathlib.Algebra.Group.Prod
import Mathlib.Algebra.Order.Group.Multiset

/-!
# Jobs that do the same under other response keys

`Job.Mirrors` relates two jobs that call the same resolvers and record the same events in step, but
for the keys in paths. What they end with need not be the same, as results hold response keys: a
goal says what holds of the two completions, and of the errors and calls that were recorded on the
way. The members of a group may go on in any order, so a goal sees errors and calls as multisets.

Jobs that mirror each other are driven in step to the end (`Mirrors.drive`), and they are put
together from jobs that do (`Mirrors.bind`, `Mirrors.inTurn`, `Mirrors.row`).
-/

namespace GraphQL

variable {σ : Type} {ρ : String → String} {run : Nat}

/-! ## Renamed events -/

def PathSegment.rename (ρ : String → String) : PathSegment → PathSegment
  | .field key => .field (ρ key)
  | .index i => .index i

namespace Path

/-- The position under renamed response keys. -/
def rename (ρ : String → String) (path : Path) : Path :=
  path.map (PathSegment.rename ρ)

theorem rename_field (path : Path) (key : String) :
    (path.field key).rename ρ = (path.rename ρ).field (ρ key) := by
  simp [rename, field, PathSegment.rename]

theorem rename_index (path : Path) (i : Nat) :
    (path.index i).rename ρ = (path.rename ρ).index i := by
  simp [rename, index, PathSegment.rename]

end Path

def LocatedError.rename (ρ : String → String) (e : LocatedError) : LocatedError :=
  { e with path := e.path.rename ρ }

def Call.rename (ρ : String → String) (c : Call) : Call :=
  { c with path := c.path.rename ρ }

/-- The event with the keys in its path renamed; what resolvers see stays. -/
def Event.rename (ρ : String → String) : Event → Event
  | .unbound e => .unbound (e.rename ρ)
  | .called c => .called (c.rename ρ)
  | .completed c => .completed (c.rename ρ)
  | .failed e => .failed (e.rename ρ)
  | .refused faults => .refused faults
  | .started kind name? => .started kind name?
  | .asked abstract => .asked abstract
  | .dispatched abstract concrete => .dispatched abstract concrete
  | .executed => .executed

def Entry.rename (ρ : String → String) (entry : Entry) : Entry :=
  { entry with event := entry.event.rename ρ }

theorem Entry.errors_rename (log : List Entry) (run : Nat) :
    errors (log.map (rename ρ)) run = (errors log run).map (LocatedError.rename ρ) := by
  rw [errors, errors, List.filterMap_map, List.map_filterMap]
  refine List.filterMap_congr ?_
  intro entry _
  obtain ⟨run', time, event⟩ := entry
  by_cases hr : run' = run
  · cases event <;> simp [rename, Event.rename, Event.error?, hr]
  · simp [rename, hr]

theorem Entry.calls_rename (log : List Entry) (run : Nat) :
    calls (log.map (rename ρ)) run = (calls log run).map (Call.rename ρ) := by
  rw [calls, calls, List.filterMap_map, List.map_filterMap]
  refine List.filterMap_congr ?_
  intro entry _
  obtain ⟨run', time, event⟩ := entry
  by_cases hr : run' = run
  · cases event <;> simp [rename, Event.rename, Event.call?, hr]
  · simp [rename, hr]

/-- The machine with the keys in its log renamed. -/
def Machine.rename (ρ : String → String) (m : Machine σ) : Machine σ :=
  { m with log := m.log.map (Entry.rename ρ) }

theorem Machine.record_rename (m : Machine σ) (run : Nat) (event : Event) :
    (m.rename ρ).record run (event.rename ρ) = (m.record run event).rename ρ := by
  simp [rename, record, Entry.rename]

/-! ## The gist of what happens -/

/-- Errors and calls, in whatever order. -/
abbrev Gist := Multiset LocatedError × Multiset Call

/-- The gist of these errors and calls. -/
def Gist.of (errors : List LocatedError) (calls : List Call) : Gist :=
  (errors, calls)

theorem Gist.of_append (errors errors' : List LocatedError) (calls calls' : List Call) :
    of (errors ++ errors') (calls ++ calls') = of errors calls + of errors' calls' := by
  simp [of]

/-- The error or the call that the event is, if any. -/
def Event.gist (event : Event) : Gist :=
  .of event.error?.toList event.call?.toList

/-- The errors and the calls of an execution so far. -/
def Machine.gist (m : Machine σ) (run : Nat) : Gist :=
  .of (Entry.errors m.log run) (Entry.calls m.log run)

theorem Machine.gist_record (m : Machine σ) (run : Nat) (event : Event) :
    (m.record run event).gist run = m.gist run + event.gist := by
  rw [gist, gist, Event.gist, errors_log, calls_log, errors_log, calls_log, happenings_record,
    errorsOf_append, callsOf_append, errorsOf_cons, callsOf_cons, errorsOf_nil, callsOf_nil,
    List.append_nil, List.append_nil, Gist.of_append]

/-- What is left of a goal when some of the gist is there already. -/
def Gist.before {α : Type} (g : Gist) (G : Gist → α) : Gist → α :=
  fun rest => G (g + rest)

@[simp] theorem Gist.zero_before {α : Type} (G : Gist → α) : (0 : Gist).before G = G := by
  funext rest
  rw [before, zero_add]

@[simp] theorem Gist.before_before {α : Type} (g h : Gist) (G : Gist → α) :
    h.before (g.before G) = (g + h).before G := by
  funext rest
  rw [before, before, before, add_assoc]

namespace Job

/-! ## Jobs in step -/

mutual

/-- The jobs go the same way, the second with the keys in its events renamed. Whatever resolvers
give both, what one of them records and what the two end with meets the goal. -/
inductive Mirrors (ρ : String → String) (run : Nat) :
    (Gist → Completion → Completion → Prop) → Job σ → Job σ → Prop where
  | done {G completion completion'} (h : G 0 completion completion') :
    Mirrors ρ run G (.done completion) (.done completion')
  | emit {G run' event next next'} (hr : run' = run)
    (h : Mirrors ρ run (event.gist.before G) next next') :
    Mirrors ρ run G (.emit run' event next) (.emit run' (event.rename ρ) next')
  | call {G c resolver next next'} (hc : c.run = run)
    (h : ∀ state result, (resolver state).1.Gives result →
      Mirrors ρ run ((Event.called c).gist.before G) (next result) (next' result)) :
    Mirrors ρ run G (.call c resolver next) (.call (c.rename ρ) resolver next')
  | await {G ticket due? c finish next next'} (hc : c.run = run)
    (h : ∀ state, Mirrors ρ run G (next (finish state).1) (next' (finish state).1)) :
    Mirrors ρ run G (.await ticket due? c finish next)
      (.await ticket due? (c.rename ρ) finish next')
  | join {G Q turns members members' next next'} (hm : MirrorsAll ρ run Q members members')
    (h : ∀ g completions completions', Q g completions completions' →
      Mirrors ρ run (g.before G) (next completions) (next' completions')) :
    Mirrors ρ run G (.join turns members next) (.join turns members' next')

/-- The jobs go the same way one by one, and all together they meet the goal. -/
inductive MirrorsAll (ρ : String → String) (run : Nat) :
    (Gist → List Completion → List Completion → Prop) → List (Job σ) → List (Job σ) → Prop where
  | nil {Q} (h : Q 0 [] []) : MirrorsAll ρ run Q [] []
  | cons {Q R G job job' rest rest'} (h : Mirrors ρ run G job job')
    (hr : MirrorsAll ρ run R rest rest')
    (hq : ∀ g gs completion completion' completions completions', G g completion completion' →
      R gs completions completions' →
      Q (g + gs) (completion :: completions) (completion' :: completions')) :
    MirrorsAll ρ run Q (job :: rest) (job' :: rest')

end

variable {G : Gist → Completion → Completion → Prop}
  {Q : Gist → List Completion → List Completion → Prop}

theorem MirrorsAll.length_eq {jobs jobs' : List (Job σ)} (h : MirrorsAll ρ run Q jobs jobs') :
    jobs'.length = jobs.length := by
  induction jobs generalizing Q jobs' with
  | nil =>
    cases h with
    | nil => rfl
  | cons job rest ih =>
    cases h with
    | cons h hr => rw [List.length_cons, List.length_cons, ih hr]

/-- Jobs that mirror each other are done at the same time. -/
theorem MirrorsAll.completions? {jobs jobs' : List (Job σ)} (h : MirrorsAll ρ run Q jobs jobs') :
    (Job.completions? jobs = none ∧ Job.completions? jobs' = none) ∨
      ∃ completions completions', Job.completions? jobs = some completions ∧
        Job.completions? jobs' = some completions' ∧ Q 0 completions completions' := by
  induction jobs generalizing Q jobs' with
  | nil =>
    cases h with
    | nil h => exact .inr ⟨[], [], rfl, rfl, h⟩
  | cons job rest ih =>
    cases h with
    | cons h hr hq =>
      cases h with
      | @done _ completion completion' h =>
        rcases ih hr with ⟨hn, hn'⟩ | ⟨completions, completions', hs, hs', hR⟩
        · left
          simp [Job.completions?, completion?, hn, hn']
        · right
          have hQ := hq 0 0 _ _ _ _ h hR
          rw [add_zero] at hQ
          refine ⟨completion :: completions, completion' :: completions', ?_, ?_, hQ⟩
          · simp [Job.completions?, completion?, hs]
          · simp [Job.completions?, completion?, hs']
      | _ => exact .inl ⟨rfl, rfl⟩

mutual

theorem Mirrors.waits : (job : Job σ) → {G : Gist → Completion → Completion → Prop} →
    {job' : Job σ} → Mirrors ρ run G job job' → job'.waits = job.waits
  | .done _, _, _, h => by
    cases h
    rfl
  | .emit .., _, _, h => by
    cases h
    rfl
  | .call .., _, _, h => by
    cases h
    rfl
  | .await .., _, _, h => by
    cases h
    rfl
  | .join turns members next, _, _, h => by
    cases h with
    | join hm => exact MirrorsAll.waits members hm

theorem MirrorsAll.waits : (jobs : List (Job σ)) →
    {Q : Gist → List Completion → List Completion → Prop} → {jobs' : List (Job σ)} →
    MirrorsAll ρ run Q jobs jobs' → waitsAll jobs' = waitsAll jobs
  | [], _, _, h => by
    cases h
    rfl
  | job :: rest, _, _, h => by
    cases h with
    | cons h hr => rw [waitsAll, waitsAll, Mirrors.waits job h, MirrorsAll.waits rest hr]

end

theorem Mirrors.isOpen {job job' : Job σ} (h : Mirrors ρ run G job job') (ho : job.IsOpen) :
    job'.IsOpen := by
  intro completion heq
  subst heq
  cases h with
  | done => exact ho _ rfl

/-! ## Acting in step -/

mutual

theorem Mirrors.act : (job : Job σ) → (m : Machine σ) →
    {G : Gist → Completion → Completion → Prop} → {job' : Job σ} → Mirrors ρ run G job job' →
    ∃ g left', job'.act (m.rename ρ) = (left', (job.act m).2.1.rename ρ, (job.act m).2.2) ∧
      (job.act m).2.1.gist run = m.gist run + g ∧ Mirrors ρ run (g.before G) (job.act m).1 left'
  | .done completion, m, G, _, h => by
    cases h with
    | done h => exact ⟨0, _, rfl, (add_zero _).symm, (Gist.zero_before G).symm ▸ .done h⟩
  | .emit run' event next, m, G, _, h => by
    cases h with
    | emit hr h =>
      obtain ⟨g, left', heq, hg, h⟩ := Mirrors.act next (m.record run' event) h
      rw [Gist.before_before] at h
      rw [Job.act, Job.act, Machine.record_rename]
      refine ⟨event.gist + g, left', heq, ?_, h⟩
      rw [hg, hr, Machine.gist_record, add_assoc]
  | .call c resolver next, m, G, _, h => by
    cases h with
    | @call _ _ _ _ next' hc h =>
      have hrecord : (m.rename ρ).record (c.rename ρ).run (.called (c.rename ρ)) =
        (m.record c.run (.called c)).rename ρ := m.record_rename c.run (.called c)
      have hstate : ((m.record c.run (.called c)).rename ρ).state =
        (m.record c.run (.called c)).state := rfl
      have hgist : (m.record c.run (.called c)).gist run = m.gist run + (Event.called c).gist := by
        rw [hc, Machine.gist_record]
      have hgives := h (m.record c.run (.called c)).state
      rw [Job.act, Job.act, hrecord]
      simp only [hstate]
      cases hres : resolver (m.record c.run (.called c)).state with
      | mk resolution state =>
        rw [hres] at hgives
        cases resolution with
        | ready result =>
          obtain ⟨g, left', heq, hg, h⟩ := Mirrors.act (next result)
            { m.record c.run (.called c) with state := state } (hgives result rfl)
          rw [Gist.before_before] at h
          refine ⟨(Event.called c).gist + g, left', heq, hg.trans ?_, h⟩
          rw [← add_assoc, ← hgist]
          rfl
        | pending delay? finish =>
          refine ⟨(Event.called c).gist, _, rfl, hgist, .await hc ?_⟩
          exact fun state => hgives _ ⟨state, rfl⟩
  | .await ticket due? c finish next, m, G, _, h => by
    cases h with
    | await hc h =>
      exact ⟨0, _, rfl, (add_zero _).symm, (Gist.zero_before G).symm ▸ .await hc h⟩
  | .join turns members next, m, G, _, h => by
    cases h with
    | @join _ Q _ _ members' _ next' hm h =>
      rw [Job.act, Job.act]
      cases turns.current? with
      | some i =>
        obtain ⟨g, left', heq, hg, hm⟩ := MirrorsAll.actAt i members m hm
        refine ⟨g, .join (turns.after i (Job.actAt i members m).2.2).1 left' next', ?_, hg, ?_⟩
        · simp only [heq]
        · refine .join hm ?_
          intro gs completions completions' hQ
          rw [Gist.before_before]
          exact h _ _ _ hQ
      | none =>
        rcases hm.completions? with ⟨hn, hn'⟩ | ⟨completions, completions', hs, hs', hQ⟩
        · simp only [hn, hn']
          exact ⟨0, _, rfl, (add_zero _).symm, (Gist.zero_before G).symm ▸ .join hm h⟩
        · simp only [hs, hs']
          have hnext := h 0 _ _ hQ
          rw [Gist.zero_before] at hnext
          exact Mirrors.act (next completions) m hnext

theorem MirrorsAll.actAt : (i : Nat) → (jobs : List (Job σ)) → (m : Machine σ) →
    {Q : Gist → List Completion → List Completion → Prop} → {jobs' : List (Job σ)} →
    MirrorsAll ρ run Q jobs jobs' →
    ∃ g left', Job.actAt i jobs' (m.rename ρ) =
        (left', (Job.actAt i jobs m).2.1.rename ρ, (Job.actAt i jobs m).2.2) ∧
      (Job.actAt i jobs m).2.1.gist run = m.gist run + g ∧
      MirrorsAll ρ run (g.before Q) (Job.actAt i jobs m).1 left'
  | _, [], m, Q, _, h => by
    cases h with
    | nil h =>
      rw [Job.actAt, Job.actAt]
      exact ⟨0, [], rfl, (add_zero _).symm, (Gist.zero_before Q).symm ▸ .nil h⟩
  | 0, job :: rest, m, Q, _, h => by
    cases h with
    | @cons _ _ _ _ _ _ rest' h hr hq =>
      obtain ⟨g, left', heq, hg, h⟩ := Mirrors.act job m h
      rw [Job.actAt, Job.actAt, heq]
      refine ⟨g, left' :: rest', rfl, hg, .cons h hr ?_⟩
      intro g₁ gs _ _ _ _ hG hR
      rw [Gist.before, ← add_assoc]
      exact hq _ _ _ _ _ _ hG hR
  | i + 1, job :: rest, m, Q, _, h => by
    cases h with
    | @cons _ _ _ _ job' _ _ h hr hq =>
      obtain ⟨g, left', heq, hg, hr⟩ := MirrorsAll.actAt i rest m hr
      rw [Job.actAt, Job.actAt, heq]
      refine ⟨g, job' :: left', rfl, hg, .cons h hr ?_⟩
      intro g₁ gs _ _ _ _ hG hR
      rw [Gist.before, add_left_comm]
      exact hq _ _ _ _ _ _ hG hR

end

theorem Mirrors.exists_turn {job job' job₁ : Job σ} {m m₁ : Machine σ} {turn : Turn}
    (h : Mirrors ρ run G job job') (hact : job.act m = (job₁, m₁, turn)) :
    ∃ g left', job'.act (m.rename ρ) = (left', m₁.rename ρ, turn) ∧
      m₁.gist run = m.gist run + g ∧ Mirrors ρ run (g.before G) job₁ left' := by
  have hturn := Mirrors.act job m h
  rwa [hact] at hturn

/-! ## Keeping promises in step -/

mutual

theorem Mirrors.keep? {ticket : Nat} : (job : Job σ) → (m : Machine σ) →
    {G : Gist → Completion → Completion → Prop} → {job' : Job σ} → Mirrors ρ run G job job' →
    (job.keep? ticket m = none ∧ job'.keep? ticket (m.rename ρ) = none) ∨
      ∃ kept m₁ kept', job.keep? ticket m = some (kept, m₁) ∧
        job'.keep? ticket (m.rename ρ) = some (kept', m₁.rename ρ) ∧
        m₁.gist run = m.gist run ∧ Mirrors ρ run G kept kept'
  | .done _, _, _, _, h => by
    cases h
    exact .inl ⟨rfl, rfl⟩
  | .emit .., _, _, _, h => by
    cases h
    exact .inl ⟨rfl, rfl⟩
  | .call .., _, _, _, h => by
    cases h
    exact .inl ⟨rfl, rfl⟩
  | .await ticket' due? c finish next, m, _, _, h => by
    cases h with
    | await hc h =>
      have hrecord : (m.rename ρ).record (c.rename ρ).run (.completed (c.rename ρ)) =
        (m.record c.run (.completed c)).rename ρ := m.record_rename c.run (.completed c)
      rw [Job.keep?, Job.keep?, hrecord]
      by_cases ht : ticket' = ticket
      · rw [if_pos ht, if_pos ht]
        refine .inr ⟨_, _, _, rfl, rfl, ?_, h m.state⟩
        have hgist : (m.record c.run (.completed c)).gist run = m.gist run + 0 := by
          rw [hc]
          exact m.gist_record run (.completed c)
        exact hgist.trans (add_zero _)
      · rw [if_neg ht, if_neg ht]
        exact .inl ⟨rfl, rfl⟩
  | .join turns members next, m, _, _, h => by
    cases h with
    | join hm h =>
      rw [Job.keep?, Job.keep?]
      rcases MirrorsAll.keepAny? members m hm with ⟨hn, hn'⟩ | ⟨i, kept, m₁, kept', hs, hs', hg, hk⟩
      · rw [hn, hn']
        exact .inl ⟨rfl, rfl⟩
      · rw [hs, hs']
        exact .inr ⟨_, _, _, rfl, rfl, hg, .join hk h⟩

theorem MirrorsAll.keepAny? {ticket : Nat} : (jobs : List (Job σ)) → (m : Machine σ) →
    {Q : Gist → List Completion → List Completion → Prop} → {jobs' : List (Job σ)} →
    MirrorsAll ρ run Q jobs jobs' →
    (Job.keepAny? ticket jobs m = none ∧ Job.keepAny? ticket jobs' (m.rename ρ) = none) ∨
      ∃ i kept m₁ kept', Job.keepAny? ticket jobs m = some (i, kept, m₁) ∧
        Job.keepAny? ticket jobs' (m.rename ρ) = some (i, kept', m₁.rename ρ) ∧
        m₁.gist run = m.gist run ∧ MirrorsAll ρ run Q kept kept'
  | [], _, _, _, h => by
    cases h
    exact .inl ⟨rfl, rfl⟩
  | job :: rest, m, _, _, h => by
    cases h with
    | cons h hr hq =>
      rw [Job.keepAny?, Job.keepAny?]
      rcases Mirrors.keep? job m h with ⟨hn, hn'⟩ | ⟨kept, m₁, kept', hs, hs', hg, hk⟩
      · rw [hn, hn']
        dsimp only
        rcases MirrorsAll.keepAny? rest m hr with ⟨hn, hn'⟩ | ⟨i, kept, m₁, kept', hs, hs', hg, hk⟩
        · rw [hn, hn']
          exact .inl ⟨rfl, rfl⟩
        · rw [hs, hs']
          exact .inr ⟨_, _, _, _, rfl, rfl, hg, .cons h hk hq⟩
      · rw [hs, hs']
        exact .inr ⟨_, _, _, _, rfl, rfl, hg, .cons hk hr hq⟩

end

/-! ## Driven in step -/

/-- What becomes of two jobs that are driven: the second leaves the renamed log and the same state,
and both come to an end that meets the goal, or neither does, for the same reason. -/
def DrivenAlike (ρ : String → String) (run : Nat) (G : Gist → Completion → Completion → Prop)
    (m : Machine σ) (driven driven' : Except Unfinished Completion × Machine σ) : Prop :=
  driven'.2 = driven.2.rename ρ ∧ ∃ g, driven.2.gist run = m.gist run + g ∧
    match driven.1, driven'.1 with
    | .ok completion, .ok completion' => G g completion completion'
    | .error reason, .error reason' => reason = reason'
    | _, _ => False

theorem DrivenAlike.of_error (m : Machine σ) {m₁ : Machine σ} {g : Gist}
    (hg : m₁.gist run = m.gist run + g) (reason : Unfinished) :
    DrivenAlike ρ run G m (.error reason, m₁) (.error reason, m₁.rename ρ) :=
  ⟨rfl, g, hg, rfl⟩

/-- What is recorded first counts towards the goal. -/
theorem DrivenAlike.of_before {m m₁ : Machine σ}
    {driven driven' : Except Unfinished Completion × Machine σ} {g : Gist}
    (hg : m₁.gist run = m.gist run + g) (h : DrivenAlike ρ run (g.before G) m₁ driven driven') :
    DrivenAlike ρ run G m driven driven' := by
  obtain ⟨hm, g', hg', hend⟩ := h
  refine ⟨hm, g + g', ?_, hend⟩
  rw [hg', hg, add_assoc]

/-- **Jobs that mirror each other are driven in step.** -/
theorem Mirrors.drive {job job' : Job σ} (h : Mirrors ρ run G job job') (limit? : Option Nat)
    (m : Machine σ) :
    DrivenAlike ρ run G m (job.drive limit? m) (job'.drive limit? (m.rename ρ)) := by
  fun_induction Job.drive limit? job m generalizing G job' with
  | case1 job m completion m₁ turn hact =>
    obtain ⟨g, left', heq, hg, h⟩ := h.exists_turn hact
    cases h with
    | done h =>
      rw [drive_eq_driveOn job', heq]
      exact ⟨rfl, g, hg, add_zero g ▸ h⟩
  | case2 job m job₁ m₁ hd hact ih =>
    obtain ⟨g, left', heq, hg, h⟩ := h.exists_turn hact
    rw [drive_eq_driveOn job', heq, driveOn_of_goesOn (h.isOpen hd) _ (.inl rfl)]
    exact .of_before hg (ih h)
  | case3 job m job₁ m₁ hd hact ih =>
    obtain ⟨g, left', heq, hg, h⟩ := h.exists_turn hact
    rw [drive_eq_driveOn job', heq, driveOn_of_goesOn (h.isOpen hd) _ (.inr rfl)]
    exact .of_before hg (ih h)
  | case4 job m job₁ m₁ turn hd ht ha hact hn =>
    obtain ⟨g, left', heq, hg, h⟩ := h.exists_turn hact
    rw [drive_eq_driveOn job', heq, driveOn_of_rests (h.isOpen hd) _ ht ha,
      Mirrors.waits job₁ h, hn]
    exact .of_error m hg _
  | case5 job m job₁ m₁ turn hd ht ha hact ticket due hn hl =>
    obtain ⟨g, left', heq, hg, h⟩ := h.exists_turn hact
    rw [drive_eq_driveOn job', heq, driveOn_of_rests (h.isOpen hd) _ ht ha,
      Mirrors.waits job₁ h, hn]
    simp only [hl, if_true]
    exact .of_error m hg _
  | case6 job m job₁ m₁ turn hd ht ha hact ticket due hn hl hk =>
    obtain ⟨g, left', heq, hg, h⟩ := h.exists_turn hact
    rw [drive_eq_driveOn job', heq, driveOn_of_rests (h.isOpen hd) _ ht ha,
      Mirrors.waits job₁ h, hn]
    rcases Mirrors.keep? job₁ { m₁ with now := due } h with ⟨-, hk'⟩ | ⟨kept, _, _, hk', -⟩
    · have hk' : left'.keep? ticket { m₁.rename ρ with now := due } = none := hk'
      simp only [hl, hk']
      exact .of_error m hg _
    · rw [hk] at hk'
      cases hk'
  | case7 job m job₁ m₁ turn hd ht ha hact ticket due hn hl kept m₂ hkept ih =>
    obtain ⟨g, left', heq, hg, h⟩ := h.exists_turn hact
    rw [drive_eq_driveOn job', heq, driveOn_of_rests (h.isOpen hd) _ ht ha,
      Mirrors.waits job₁ h, hn]
    rcases Mirrors.keep? job₁ { m₁ with now := due } h with
      ⟨hk, -⟩ | ⟨_, _, kept', hk, hk', hg', h⟩
    · rw [hkept] at hk
      cases hk
    · rw [hkept, Option.some.injEq, Prod.mk.injEq] at hk
      obtain ⟨rfl, rfl⟩ := hk
      have hk' : left'.keep? ticket { m₁.rename ρ with now := due } =
        some (kept', m₂.rename ρ) := hk'
      simp only [hl, hk']
      exact .of_before (hg'.trans hg) (ih h)

/-! ## Jobs are put together from jobs -/

theorem Mirrors.imp : (job : Job σ) →
    {G H : Gist → Completion → Completion → Prop} → {job' : Job σ} → Mirrors ρ run G job job' →
    (∀ g completion completion', G g completion completion' → H g completion completion') →
    Mirrors ρ run H job job'
  | .done _, _, _, _, h, himp => by
    cases h with
    | done h => exact .done (himp _ _ _ h)
  | .emit run' event next, _, _, _, h, himp => by
    cases h with
    | emit hr h => exact .emit hr (Mirrors.imp next h fun _ _ _ hG => himp _ _ _ hG)
  | .call c resolver next, _, _, _, h, himp => by
    cases h with
    | call hc h =>
      refine .call hc fun state result hres => ?_
      exact Mirrors.imp (next result) (h state result hres) fun _ _ _ hG => himp _ _ _ hG
  | .await ticket due? c finish next, _, _, _, h, himp => by
    cases h with
    | await hc h => exact .await hc fun state => Mirrors.imp (next _) (h state) himp
  | .join turns members next, _, _, _, h, himp => by
    cases h with
    | join hm h =>
      refine .join hm fun g completions completions' hQ => ?_
      exact Mirrors.imp (next completions) (h _ _ _ hQ) fun _ _ _ hG => himp _ _ _ hG

/-- A job and what comes next meet a goal if what comes next meets what the job leaves of it. -/
theorem Mirrors.bind {next next' : Completion → Job σ} : (job : Job σ) →
    {G H : Gist → Completion → Completion → Prop} → {job' : Job σ} → Mirrors ρ run G job job' →
    (∀ g completion completion', G g completion completion' →
      Mirrors ρ run (g.before H) (next completion) (next' completion')) →
    Mirrors ρ run H (job.bind next) (job'.bind next')
  | .done _, _, H, _, h, hn => by
    cases h with
    | done h =>
      have hnext := hn 0 _ _ h
      rw [Gist.zero_before] at hnext
      exact hnext
  | .emit run' event job, G, H, _, h, hn => by
    cases h with
    | emit hr h =>
      refine .emit hr (Mirrors.bind job h ?_)
      intro g completion completion' hG
      rw [Gist.before_before]
      exact hn _ _ _ hG
  | .call c resolver job, G, H, _, h, hn => by
    cases h with
    | call hc h =>
      refine .call hc ?_
      intro state result hres
      refine Mirrors.bind (job result) (h state result hres) ?_
      intro g completion completion' hG
      rw [Gist.before_before]
      exact hn _ _ _ hG
  | .await ticket due? c finish job, _, _, _, h, hn => by
    cases h with
    | await hc h => exact .await hc fun state => Mirrors.bind (job _) (h state) hn
  | .join turns members job, _, _, _, h, hn => by
    cases h with
    | join hm h =>
      refine .join hm ?_
      intro g completions completions' hQ
      refine Mirrors.bind (job completions) (h _ _ _ hQ) ?_
      intro g completion completion' hG
      rw [Gist.before_before]
      exact hn _ _ _ hG

/-- Events that are neither errors nor calls, and have no path, may be recorded by both jobs. -/
theorem Mirrors.emitAll {events : List Event} {job job' : Job σ}
    (he : ∀ event ∈ events, event.gist = 0 ∧ event.rename ρ = event)
    (h : Mirrors ρ run G job job') :
    Mirrors ρ run G (Job.emitAll run events job) (Job.emitAll run events job') := by
  unfold Job.emitAll
  induction events with
  | nil => exact h
  | cons event rest ih =>
    rw [List.forall_mem_cons] at he
    obtain ⟨⟨hgist, hrename⟩, hrest⟩ := he
    have hnext : Mirrors ρ run (event.gist.before G) (rest.foldr (.emit run) job)
        (rest.foldr (.emit run) job') := by
      rw [hgist, Gist.zero_before]
      exact ih hrest
    have hemit : Mirrors ρ run G (.emit run event _) (.emit run (event.rename ρ) _) :=
      .emit rfl hnext
    rwa [hrename] at hemit

theorem Mirrors.inTurn {next next' : List Completion → Job σ} {jobs jobs' : List (Job σ)}
    (h : MirrorsAll ρ run Q jobs jobs')
    (hn : ∀ g completions completions', Q g completions completions' →
      Mirrors ρ run (g.before G) (next completions) (next' completions')) :
    Mirrors ρ run G (Job.inTurn next jobs) (Job.inTurn next' jobs') := by
  induction jobs generalizing Q G next next' jobs' with
  | nil =>
    cases h with
    | nil h =>
      have hnext := hn 0 _ _ h
      rw [Gist.zero_before] at hnext
      exact hnext
  | cons job rest ih =>
    cases h with
    | cons h hr hq =>
      refine Mirrors.bind job h ?_
      intro g completion completion' hG
      refine ih hr ?_
      intro gs completions completions' hR
      rw [Gist.before_before]
      exact hn _ _ _ (hq _ _ _ _ _ _ hG hR)

theorem Mirrors.sideBySide {next next' : List Completion → Job σ} {jobs jobs' : List (Job σ)}
    (h : MirrorsAll ρ run Q jobs jobs')
    (hn : ∀ g completions completions', Q g completions completions' →
      Mirrors ρ run (g.before G) (next completions) (next' completions')) :
    Mirrors ρ run G (Job.sideBySide next jobs) (Job.sideBySide next' jobs') := by
  unfold Job.sideBySide
  rw [h.length_eq]
  exact .join h hn

theorem Mirrors.row {next next' : List Completion → Job σ} {jobs jobs' : List (Job σ)}
    (h : MirrorsAll ρ run Q jobs jobs')
    (hn : ∀ g completions completions', Q g completions completions' →
      Mirrors ρ run (g.before G) (next completions) (next' completions')) :
    Mirrors ρ run G (Job.row next jobs) (Job.row next' jobs') := by
  unfold Job.row
  rw [h.length_eq]
  split
  · exact .join h hn
  · exact .sideBySide h hn

end Job

end GraphQL
