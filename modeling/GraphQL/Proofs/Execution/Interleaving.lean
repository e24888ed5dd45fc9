import GraphQL.Execution.Basic
import Mathlib.Logic.Relation

/-!
# Interleavings of a job

A job may go on at any of the places where something is left to do, in any order, and promises may
be kept at any time. `Move` is one such step, with all that it does to the machine: the state of the
resolvers and the log. It leaves the books of the groups open, so no order of turns is built in. The
schedule is one of the interleavings (`interleaves_drive`); what holds of all of them holds of it.
-/

namespace GraphQL

/-- A job and the machine on which it goes on. -/
abbrev Snapshot (σ : Type) := Job σ × Machine σ

namespace Job

variable {σ : Type}

mutual

/-- A step of a job at one of its places. The clock and the books of groups may change at will. -/
inductive Move : Job σ × Machine σ → Job σ × Machine σ → Prop where
  | tick {job m} (now : Nat) : Move (job, m) (job, { m with now := now })
  | emit {run event next m} : Move (.emit run event next, m) (next, m.record run event)
  | answer {c resolver next m result state} (h : resolver m.state = (.ready result, state)) :
    Move (.call c resolver next, m)
      (next result, { m.record c.run (.called c) with state := state })
  | promise {c resolver next m delay? finish state}
    (h : resolver m.state = (.pending delay? finish, state)) :
    Move (.call c resolver next, m)
      (.await m.tickets (delay?.map (m.now + ·)) c finish next,
        { m.record c.run (.called c) with state := state, tickets := m.tickets + 1 })
  | keep {ticket due? c finish next m result state} (h : finish m.state = (result, state)) :
    Move (.await ticket due? c finish next, m)
      (next result, { m.record c.run (.completed c) with state := state })
  | member {turns members next m members' m'} (turns') (h : MoveAny (members, m) (members', m')) :
    Move (.join turns members next, m) (.join turns' members' next, m')
  | turn {turns members next m} (turns') :
    Move (.join turns members next, m) (.join turns' members next, m)
  | join {turns members next m completions} (h : completions? members = some completions) :
    Move (.join turns members next, m) (next completions, m)

/-- A step of one of several jobs. -/
inductive MoveAny : List (Job σ) × Machine σ → List (Job σ) × Machine σ → Prop where
  | head {job rest m job' m'} (h : Move (job, m) (job', m')) :
    MoveAny (job :: rest, m) (job' :: rest, m')
  | tail {job rest m rest' m'} (h : MoveAny (rest, m) (rest', m')) :
    MoveAny (job :: rest, m) (job :: rest', m')

end

/-- Steps at any places, in any order. -/
abbrev Interleaves : Snapshot σ → Snapshot σ → Prop :=
  Relation.ReflTransGen Move

/-- Steps of any members of a group, in any order. -/
abbrev InterleavesAll : List (Job σ) × Machine σ → List (Job σ) × Machine σ → Prop :=
  Relation.ReflTransGen MoveAny

/-! ## Steps of members are steps of the group -/

theorem Interleaves.cons {job job' : Job σ} {m m' : Machine σ}
    (h : Interleaves (job, m) (job', m')) (rest : List (Job σ)) :
    InterleavesAll (job :: rest, m) (job' :: rest, m') := by
  refine Relation.ReflTransGen.lift (fun snap : Snapshot σ => (snap.1 :: rest, snap.2)) ?_ _ _ h
  intro _ _ hm
  exact MoveAny.head hm

theorem InterleavesAll.cons {rest rest' : List (Job σ)} {m m' : Machine σ}
    (h : InterleavesAll (rest, m) (rest', m')) (job : Job σ) :
    InterleavesAll (job :: rest, m) (job :: rest', m') := by
  refine Relation.ReflTransGen.lift
    (fun snap : List (Job σ) × Machine σ => (job :: snap.1, snap.2)) ?_ _ _ h
  intro _ _ hm
  exact MoveAny.tail hm

theorem InterleavesAll.join {members members' : List (Job σ)} {m m' : Machine σ}
    (h : InterleavesAll (members, m) (members', m')) (turns turns' : Turns)
    (next : List Completion → Job σ) :
    Interleaves (.join turns members next, m) (.join turns' members' next, m') := by
  have hm : Interleaves (.join turns members next, m) (.join turns members' next, m') := by
    refine Relation.ReflTransGen.lift
      (fun snap : List (Job σ) × Machine σ => (Job.join turns snap.1 next, snap.2)) ?_ _ _ h
    intro _ _ hm
    exact Move.member turns hm
  exact hm.tail (.turn turns')

/-! ## The schedule interleaves -/

mutual

theorem interleaves_act : (job : Job σ) → (m : Machine σ) →
    Interleaves (job, m) ((job.act m).1, (job.act m).2.1)
  | .done _, _ => by
    rw [act]
  | .emit run event next, m => by
    rw [act]
    exact .head .emit (interleaves_act next _)
  | .call c resolver next, m => by
    rw [act]
    cases hr : resolver m.state with
    | mk resolution state =>
      have hr' : resolver (m.record c.run (.called c)).state = (resolution, state) := hr
      simp only [hr']
      cases resolution with
      | ready result => exact .head (.answer hr) (interleaves_act (next result) _)
      | pending delay? finish => exact .single (.promise hr)
  | .await ticket due? c finish next, m => by
    rw [act]
  | .join turns members next, m => by
    rw [act]
    split
    · next i _ => exact (interleaves_actAt i members m).join _ _ _
    · split
      · next completions hc => exact .head (.join hc) (interleaves_act (next completions) _)
      · exact .single (.turn _)

theorem interleaves_actAt : (i : Nat) → (jobs : List (Job σ)) → (m : Machine σ) →
    InterleavesAll (jobs, m) ((actAt i jobs m).1, (actAt i jobs m).2.1)
  | _, [], m => by
    rw [actAt]
  | 0, job :: rest, m => by
    rw [actAt]
    exact (interleaves_act job m).cons rest
  | i + 1, job :: rest, m => by
    rw [actAt]
    exact (interleaves_actAt i rest m).cons job

end

mutual

theorem interleaves_keep {ticket : Nat} : (job : Job σ) → (m : Machine σ) →
    {kept : Snapshot σ} → job.keep? ticket m = some kept → Interleaves (job, m) kept
  | .done _, _, _, h => by simp [keep?] at h
  | .emit .., _, _, h => by simp [keep?] at h
  | .call .., _, _, h => by simp [keep?] at h
  | .await ticket' due? c finish next, m, kept, h => by
    rw [keep?] at h
    split at h
    · simp only [Option.some.injEq] at h
      subst h
      exact .single (.keep rfl)
    · nomatch h
  | .join turns members next, m, kept, h => by
    rw [keep?] at h
    split at h
    · next heq =>
      simp only [Option.some.injEq] at h
      subst h
      exact (interleaves_keepAny members m heq).join _ _ _
    · nomatch h

theorem interleaves_keepAny {ticket : Nat} : (jobs : List (Job σ)) → (m : Machine σ) →
    {kept : Nat × List (Job σ) × Machine σ} → keepAny? ticket jobs m = some kept →
      InterleavesAll (jobs, m) kept.2
  | [], _, _, h => by simp [keepAny?] at h
  | job :: rest, m, kept, h => by
    rw [keepAny?] at h
    split at h
    · next heq =>
      simp only [Option.some.injEq] at h
      subst h
      exact (interleaves_keep job m heq).cons rest
    · split at h
      · next heq =>
        simp only [Option.some.injEq] at h
        subst h
        exact (interleaves_keepAny rest m heq).cons job
      · nomatch h

end

theorem interleaves_of_act {job job' : Job σ} {m m' : Machine σ} {turn : Turn}
    (h : job.act m = (job', m', turn)) : Interleaves (job, m) (job', m') := by
  have := interleaves_act job m
  rwa [h] at this

/-- However the schedule ends, an interleaving has led to where it leaves the machine. -/
theorem exists_interleaves_drive (limit? : Option Nat) (job : Job σ) (m : Machine σ) :
    ∃ job', Interleaves (job, m) (job', (job.drive limit? m).2) ∧
      ∀ completion, (job.drive limit? m).1 = .ok completion → job' = .done completion := by
  fun_induction drive limit? job m with
  | case1 job m completion m₁ turn hact =>
    exact ⟨_, interleaves_of_act hact, fun _ h => congrArg done (Except.ok.inj h)⟩
  | case2 job m job₁ m₁ _ hact ih =>
    obtain ⟨job', hi, hd⟩ := ih
    exact ⟨job', (interleaves_of_act hact).trans hi, hd⟩
  | case3 job m job₁ m₁ _ hact ih =>
    obtain ⟨job', hi, hd⟩ := ih
    exact ⟨job', (interleaves_of_act hact).trans hi, hd⟩
  | case4 job m job₁ m₁ turn _ _ _ hact => exact ⟨_, interleaves_of_act hact, nofun⟩
  | case5 job m job₁ m₁ turn _ _ _ hact => exact ⟨_, interleaves_of_act hact, nofun⟩
  | case6 job m job₁ m₁ turn _ _ _ hact => exact ⟨_, interleaves_of_act hact, nofun⟩
  | case7 job m job₁ m₁ turn _ _ _ hact ticket due _ _ kept m₂ hkept ih =>
    obtain ⟨job', hi, hd⟩ := ih
    -- the clock moves on to the promise, then the promise is kept
    have hkeep : Interleaves (job₁, m₁) (kept, m₂) :=
      .head (.tick due) (interleaves_keep job₁ _ hkept)
    exact ⟨job', ((interleaves_of_act hact).trans hkeep).trans hi, hd⟩

/-- What the schedule drives a job to is reached by an interleaving. -/
theorem interleaves_drive {limit? : Option Nat} (job : Job σ) (m : Machine σ)
    {m' : Machine σ} {completion : Completion}
    (h : job.drive limit? m = (.ok completion, m')) :
    Interleaves (job, m) (.done completion, m') := by
  obtain ⟨job', hi, hd⟩ := exists_interleaves_drive limit? job m
  rw [h] at hi hd
  rwa [hd completion rfl] at hi

end Job

end GraphQL
