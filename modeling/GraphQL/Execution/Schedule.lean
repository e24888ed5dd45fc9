import GraphQL.Execution.Job

/-!
# The schedule

One virtual clock drives a job. The members of its groups have turns until all that is left waits
for promises. Then the clock jumps to the time at which the earliest promise is due, of several the
one that was given first; that promise is kept, and the members of groups that waited for it are
put down for a turn.
-/

namespace GraphQL

/-- The clock, the number of promises given so far, the state that resolvers share, and what has
happened. -/
structure Machine (σ : Type) where
  now : Nat
  tickets : Nat
  state : σ
  log : List Entry

namespace Machine

variable {σ : Type}

/-- The machine at the start of executions. -/
def start (state : σ) : Machine σ :=
  ⟨0, 0, state, []⟩

/-- Logs an event of one of the executions at the present time. -/
def record (m : Machine σ) (run : Nat) (event : Event) : Machine σ :=
  { m with log := m.log ++ [⟨run, m.now, event⟩] }

end Machine

/-- A promise that is still to be kept. -/
structure Wait where
  ticket : Nat
  due? : Option Nat

namespace Job

variable {σ : Type}

/-! ## Turns -/

mutual

/-- Goes on with a job to the next point at which a turn begins or ends, its own or one within a
group, and says what has become of its own. -/
def act : Job σ → Machine σ → Job σ × Machine σ × Turn
  | .done completion, m => (.done completion, m, .done)
  | .emit run event next, m => next.act (m.record run event)
  | .call c resolver next, m =>
    let m := m.record c.run (.called c)
    match resolver m.state with
    | (.ready result, state) => (next result).act { m with state := state }
    | (.pending delay? finish, state) =>
      (.await m.tickets (delay?.map (m.now + ·)) c finish next,
        { m with state := state, tickets := m.tickets + 1 }, .waits)
  | .await ticket due? c finish next, m => (.await ticket due? c finish next, m, .waits)
  | .join turns members next, m =>
    match turns.current? with
    | some i =>
      let (members, m, turn) := actAt i members m
      let (turns, turn) := turns.after i turn
      (.join turns members next, m, turn)
    | none =>
      match completions? members with
      | some completions => (next completions).act m
      | none =>
        let (turns, turn) := turns.pass
        (.join turns members next, m, turn)

/-- Goes on with the job at a position. -/
def actAt : Nat → List (Job σ) → Machine σ → List (Job σ) × Machine σ × Turn
  | _, [], m => ([], m, .done)
  | 0, job :: rest, m =>
    let (job, m, turn) := job.act m
    (job :: rest, m, turn)
  | i + 1, job :: rest, m =>
    let (rest, m, turn) := actAt i rest m
    (job :: rest, m, turn)

end

/-! ## Promises -/

mutual

/-- The promises that a job waits for. -/
def waits : Job σ → List Wait
  | .await ticket due? _ _ _ => [⟨ticket, due?⟩]
  | .join _ members _ => waitsAll members
  | _ => []

/-- The promises that jobs wait for, in order. -/
def waitsAll : List (Job σ) → List Wait
  | [] => []
  | job :: rest => job.waits ++ waitsAll rest

end

mutual

/-- Keeps the promise that a ticket stands for, if the job waits for it. The member that it reaches
is put down for a turn in every group on the way. -/
def keep? (ticket : Nat) : Job σ → Machine σ → Option (Job σ × Machine σ)
  | .await ticket' _ c finish next, m =>
    if ticket' = ticket then
      let m := m.record c.run (.completed c)
      let (result, state) := finish m.state
      some (next result, { m with state := state })
    else none
  | .join turns members next, m =>
    match keepAny? ticket members m with
    | some (i, members, m) => some (.join (turns.wake i) members next, m)
    | none => none
  | _, _ => none

/-- Keeps the promise that a ticket stands for, if one of the jobs waits for it, and tells the
position of that job. -/
def keepAny? (ticket : Nat) : List (Job σ) → Machine σ → Option (Nat × List (Job σ) × Machine σ)
  | [], _ => none
  | job :: rest, m =>
    match job.keep? ticket m with
    | some (job, m) => some (0, job :: rest, m)
    | none =>
      match keepAny? ticket rest m with
      | some (i, rest, m) => some (i + 1, job :: rest, m)
      | none => none

end

end Job

namespace Wait

/-- The ticket and the time of the promise that is kept next: the earliest, of several the one given
first. Promises that are never kept are passed over. -/
def next? : List Wait → Option (Nat × Nat)
  | [] => none
  | ⟨_, none⟩ :: rest => next? rest
  | ⟨ticket, some due⟩ :: rest =>
    match next? rest with
    | none => some (ticket, due)
    | some (ticket', due') =>
      if due' < due ∨ (due' = due ∧ ticket' < ticket) then some (ticket', due')
      else some (ticket, due)

end Wait

end GraphQL
