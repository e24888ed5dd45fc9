import GraphQL.Proofs.Execution.Interleaving

/-!
# Driving one job after the other

What goes on after a job begins when the job is done, all of its groups included: driving
`job.bind next` is driving the job and then what comes next (`drive_bind`). So jobs in turn are
driven one by one, each from where the one before left the machine, and the first that does not end
is the last (`drive_inTurn`).
-/

namespace GraphQL.Job

variable {σ : Type} {limit? : Option Nat}

/-! ## From one turn to the next -/

/-- Is there something left to do? -/
def IsOpen (job : Job σ) : Prop :=
  ∀ completion, job = .done completion → False

/-- Drives a job on from where a turn has led. -/
def driveOn (limit? : Option Nat) : Job σ × Machine σ × Turn →
    Except Unfinished Completion × Machine σ
  | (.done completion, m, _) => (.ok completion, m)
  | (job, m, .goesOn) | (job, m, .asks) => job.drive limit? m
  | (job, m, _) =>
    match Wait.next? job.waits with
    | none => (.error .stuck, m)
    | some (ticket, due) =>
      if limit?.any (· < due) then (.error .cancelled, m)
      else
        match job.keep? ticket { m with now := due } with
        | none => (.error .stuck, m)
        | some (kept, m) => kept.drive limit? m

theorem drive_eq_driveOn (job : Job σ) (m : Machine σ) :
    job.drive limit? m = driveOn limit? (job.act m) := by
  fun_cases drive limit? job m <;> simp_all [driveOn]

theorem driveOn_of_goesOn {job : Job σ} (h : job.IsOpen) (m : Machine σ) {turn : Turn}
    (ht : turn = .goesOn ∨ turn = .asks) :
    driveOn limit? (job, m, turn) = job.drive limit? m := by
  cases job with
  | done completion => exact (h completion rfl).elim
  | _ => rcases ht with rfl | rfl <;> rfl

/-- When a turn is over for want of work, the clock moves to the next promise that is due. -/
theorem driveOn_of_rests {job : Job σ} (h : job.IsOpen) (m : Machine σ) {turn : Turn}
    (hg : turn ≠ .goesOn) (ha : turn ≠ .asks) :
    driveOn limit? (job, m, turn) = match Wait.next? job.waits with
      | none => (.error .stuck, m)
      | some (ticket, due) =>
        if limit?.any (· < due) then (.error .cancelled, m)
        else
          match job.keep? ticket { m with now := due } with
          | none => (.error .stuck, m)
          | some (kept, m) => kept.drive limit? m := by
  cases job with
  | done completion => exact (h completion rfl).elim
  | _ => cases turn <;> first | rfl | contradiction

/-! ## A job and what comes next -/

/-- Goes on with what comes next, if a turn has led to the end of the job before it. -/
def actNext (next : Completion → Job σ) : Job σ × Machine σ × Turn → Job σ × Machine σ × Turn
  | (.done completion, m, _) => (next completion).act m
  | (job, m, turn) => (job.bind next, m, turn)

theorem actNext_of_isOpen {job : Job σ} (h : job.IsOpen) (next : Completion → Job σ)
    (m : Machine σ) (turn : Turn) : actNext next (job, m, turn) = (job.bind next, m, turn) := by
  cases job with
  | done completion => exact (h completion rfl).elim
  | _ => rfl

theorem IsOpen.bind {job : Job σ} (h : job.IsOpen) (next : Completion → Job σ) :
    (job.bind next).IsOpen := by
  intro completion heq
  cases job with
  | done completion => exact h completion rfl
  | _ => cases heq

theorem IsOpen.waits_bind {job : Job σ} (h : job.IsOpen) (next : Completion → Job σ) :
    (job.bind next).waits = job.waits := by
  cases job with
  | done completion => exact (h completion rfl).elim
  | _ => rfl

theorem IsOpen.keep?_bind {job : Job σ} (h : job.IsOpen) (next : Completion → Job σ) (ticket : Nat)
    (m : Machine σ) :
    (job.bind next).keep? ticket m = (job.keep? ticket m).map fun (kept, m) =>
      (kept.bind next, m) := by
  cases job with
  | done completion => exact (h completion rfl).elim
  | emit => rfl
  | call => rfl
  | await ticket' due? c finish job =>
    rw [Job.bind, keep?, keep?]
    split <;> rfl
  | join turns members job =>
    rw [Job.bind, keep?, keep?]
    cases keepAny? ticket members m <;> rfl

/-- The turn of a job that is done is the turn of what comes next. -/
theorem act_bind (next : Completion → Job σ) (job : Job σ) (m : Machine σ) :
    (job.bind next).act m = actNext next (job.act m) := by
  induction job using bind.induct generalizing m with
  | case1 completion =>
    rw [bind, act.eq_1 m completion]
    rfl
  | case2 run event job ih =>
    rw [bind, act, act]
    exact ih _
  | case3 c resolver job ih =>
    rw [bind, act, act]
    cases resolver (m.record c.run (.called c)).state with
    | mk resolution state =>
      cases resolution with
      | ready result => exact ih result _
      | pending delay? finish => rfl
  | case4 ticket due? c finish job ih =>
    rw [bind, act, act]
    rfl
  | case5 turns members job ih =>
    rw [bind, act, act]
    cases turns.current? with
    | some i => rfl
    | none =>
      cases completions? members with
      | some completions => exact ih completions m
      | none => rfl

/-- **A job is driven to its end before what comes next begins.** -/
theorem drive_bind (next : Completion → Job σ) (job : Job σ) (m : Machine σ) :
    (job.bind next).drive limit? m = match job.drive limit? m with
      | (.ok completion, m) => (next completion).drive limit? m
      | (.error reason, m) => (.error reason, m) := by
  fun_induction drive limit? job m with
  | case1 job m completion m₁ turn hact =>
    rw [drive_eq_driveOn, act_bind, hact]
    exact (drive_eq_driveOn (next completion) m₁).symm
  | case2 job m job₁ m₁ hd hact ih =>
    rw [drive_eq_driveOn, act_bind, hact, actNext_of_isOpen hd,
      driveOn_of_goesOn (IsOpen.bind hd next) m₁ (.inl rfl)]
    exact ih
  | case3 job m job₁ m₁ hd hact ih =>
    rw [drive_eq_driveOn, act_bind, hact, actNext_of_isOpen hd,
      driveOn_of_goesOn (IsOpen.bind hd next) m₁ (.inr rfl)]
    exact ih
  | case4 job m job₁ m₁ turn hd hg ha hact hn =>
    rw [drive_eq_driveOn, act_bind, hact, actNext_of_isOpen hd,
      driveOn_of_rests (IsOpen.bind hd next) m₁ hg ha, IsOpen.waits_bind hd, hn]
  | case5 job m job₁ m₁ turn hd hg ha hact ticket due hn hl =>
    rw [drive_eq_driveOn, act_bind, hact, actNext_of_isOpen hd,
      driveOn_of_rests (IsOpen.bind hd next) m₁ hg ha, IsOpen.waits_bind hd, hn]
    simp only [hl, if_true]
  | case6 job m job₁ m₁ turn hd hg ha hact ticket due hn hl hk =>
    rw [drive_eq_driveOn, act_bind, hact, actNext_of_isOpen hd,
      driveOn_of_rests (IsOpen.bind hd next) m₁ hg ha, IsOpen.waits_bind hd, hn]
    simp only [hl, IsOpen.keep?_bind hd, hk]
    rfl
  | case7 job m job₁ m₁ turn hd hg ha hact ticket due hn hl kept m₂ hkept ih =>
    rw [drive_eq_driveOn, act_bind, hact, actNext_of_isOpen hd,
      driveOn_of_rests (IsOpen.bind hd next) m₁ hg ha, IsOpen.waits_bind hd, hn]
    simp only [hl, IsOpen.keep?_bind hd, hkept]
    exact ih

/-! ## Jobs in turn -/

theorem bind_bind (next next' : Completion → Job σ) (job : Job σ) :
    (job.bind next).bind next' = job.bind fun completion => (next completion).bind next' := by
  induction job using bind.induct with
  | case1 completion => rfl
  | case2 run event job ih => simp only [bind, ih]
  | case3 c resolver job ih => simp only [bind, ih]
  | case4 ticket due? c finish job ih => simp only [bind, ih]
  | case5 turns members job ih => simp only [bind, ih]

theorem inTurn_bind (next : List Completion → Job σ) (next' : Completion → Job σ)
    (jobs : List (Job σ)) :
    (inTurn next jobs).bind next' =
      inTurn (fun completions => (next completions).bind next') jobs := by
  induction jobs generalizing next with
  | nil => rfl
  | cons job rest ih => simp only [inTurn, bind_bind, ih]

/-- Drives jobs one after the other, whatever they end with, until one does not end. -/
def driveInTurn (limit? : Option Nat) : List (Job σ) → Machine σ →
    Except Unfinished (List Completion) × Machine σ
  | [], m => (.ok [], m)
  | job :: rest, m =>
    match job.drive limit? m with
    | (.ok completion, m) =>
      let (ending, m) := driveInTurn limit? rest m
      (ending.map (completion :: ·), m)
    | (.error reason, m) => (.error reason, m)

/-- **Jobs in turn are driven one by one**, each from where the one before left the machine. -/
theorem drive_inTurn (next : List Completion → Job σ) (jobs : List (Job σ)) (m : Machine σ) :
    (inTurn next jobs).drive limit? m = match driveInTurn limit? jobs m with
      | (.ok completions, m) => (next completions).drive limit? m
      | (.error reason, m) => (.error reason, m) := by
  induction jobs generalizing next m with
  | nil => rfl
  | cons job rest ih =>
    rw [inTurn, drive_bind, driveInTurn]
    cases job.drive limit? m with
    | mk ending m₁ =>
      cases ending with
      | error reason => rfl
      | ok completion =>
        dsimp only
        rw [ih]
        cases driveInTurn limit? rest m₁ with
        | mk ending m₂ => cases ending <;> rfl

end GraphQL.Job
