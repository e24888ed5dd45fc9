/-!
# Taking turns

Jobs that run side by side take turns. A job keeps its turn until it is done, or waits for a
promise, or asks for another turn so that others may come first. `Turns` is the book that a group
keeps on its members: whose turn it is, who comes next, and when the group has to end its own turn.

Every entry of the book is crossed out in the end: unless a member asks for another turn, what
happens at a turn makes `Turns.work` less (`work_after_lt`, `work_pass_lt`).
-/

namespace GraphQL

/-- What has become of a turn. -/
inductive Turn where
  | goesOn
  /-- The job is done. -/
  | done
  /-- The job waits, and needs no turn before a promise is kept. -/
  | waits
  /-- The job wants to go on after others had a turn. -/
  | asks
deriving DecidableEq, Repr

/-- How the members of a group take turns. -/
inductive Discipline where
  /-- In a turn of the group every member that can go on has one turn, in order of position. -/
  | sweep
  /-- Members have turns in the order in which they ask. The group ends its own turn and asks for
  another one when, since a member was last done, two members have asked or all have had a turn. -/
  | fair
deriving DecidableEq, Repr

/-- The turns of the members of a group. Members are named by their positions. -/
structure Turns where
  discipline : Discipline
  /-- How many members are not done. -/
  left : Nat
  /-- Who is to have a turn in this turn of the group, in order. -/
  queue : List Nat
  /-- Who is to have a turn in the next turn of the group, in order. -/
  later : List Nat
  current? : Option Nat
  /-- How many turns of members are over since a member was last done, in this turn of the group. -/
  had : Nat
  /-- How many of these ended with a request for another one. -/
  asks : Nat
  /-- Has a member asked for another turn in this turn of the group? -/
  asked : Bool
deriving DecidableEq, Repr

namespace Turns

/-- The turns of `size` members that have not begun: all are to have one, in order. -/
def start (discipline : Discipline) (size : Nat) : Turns :=
  ⟨discipline, size, List.range size, [], none, 0, 0, false⟩

/-- The group ends its turn. -/
def rest (t : Turns) : Turns :=
  { t with queue := t.queue ++ t.later, later := [], had := 0, asks := 0, asked := false }

/-- Puts a member down for another turn. -/
def requeue (t : Turns) (i : Nat) : Turns :=
  match t.discipline with
  | .sweep => { t with later := t.later ++ [i] }
  | .fair => { t with queue := t.queue ++ [i] }

/-- Puts down a member for which a promise has been kept. -/
def wake (t : Turns) (i : Nat) : Turns :=
  { t with queue := t.queue ++ [i] }

/-- Does the group have to let others go on? -/
def isTired (t : Turns) : Bool :=
  t.discipline = .fair && (2 ≤ t.asks || t.had = t.left)

/-- Ends the turn of the group if it has to let others go on. -/
def giveWay (t : Turns) : Turns × Turn :=
  if t.isTired then (t.rest, .asks) else (t, .goesOn)

/-- What becomes of the turn of the group by what becomes of the turn of the member `i`. -/
def after (t : Turns) (i : Nat) : Turn → Turns × Turn
  | .goesOn => (t, .goesOn)
  | .done => ({ t with left := t.left - 1, current? := none, had := 0, asks := 0 }, .goesOn)
  | .waits => { t with current? := none, had := t.had + 1 }.giveWay
  | .asks =>
    { t.requeue i with
      current? := none, had := t.had + 1, asks := t.asks + 1, asked := true }.giveWay

/-- Gives the turn to the next member. Without one the turn of the group is over; the group asks for
another one if a member has. -/
def pass (t : Turns) : Turns × Turn :=
  match t.queue with
  | i :: queue => ({ t with queue := queue, current? := some i }, .goesOn)
  | [] => (t.rest, if t.asked then .asks else .waits)

/-! ## Turns come to an end -/

/-- An upper bound for how often the book can change before a member asks for another turn. -/
def work (t : Turns) : Nat :=
  3 * t.queue.length + 4 * t.later.length + 2 * t.current?.isSome.toNat + t.asked.toNat +
    t.had + t.asks

theorem work_rest_le (t : Turns) : t.rest.work ≤ t.work := by
  simp only [work, rest, List.length_append, List.length_nil, Bool.toNat_false]
  omega

theorem rest_eq_or_work_rest_lt (t : Turns) : t.rest = t ∨ t.rest.work < t.work := by
  obtain ⟨discipline, left, queue, later, current?, had, asks, asked⟩ := t
  cases later with
  | cons i later =>
    right
    simp only [work, rest, List.length_append, List.length_cons, List.length_nil, Bool.toNat_false]
    omega
  | nil =>
    by_cases h : had = 0 ∧ asks = 0 ∧ asked = false
    · obtain ⟨rfl, rfl, rfl⟩ := h
      simp [rest]
    · right
      cases asked
      · simp only [and_true] at h
        simp only [work, rest, List.append_nil, Bool.toNat_false]
        omega
      · simp only [work, rest, List.append_nil, Bool.toNat_false, Bool.toNat_true]
        omega

theorem work_giveWay_le (t : Turns) : t.giveWay.1.work ≤ t.work := by
  unfold giveWay
  split
  · exact t.work_rest_le
  · exact Nat.le_refl _

/-- When the turn of a member is over and it does not ask for another one, less is left to do. -/
theorem work_after_lt {t : Turns} {i : Nat} (h : t.current? = some i) {turn : Turn}
    (ht : turn = .done ∨ turn = .waits) : (t.after i turn).1.work < t.work := by
  rcases ht with rfl | rfl
  · simp only [after, work, h, Option.isSome_none, Option.isSome_some, Bool.toNat_false,
      Bool.toNat_true]
    omega
  · refine Nat.lt_of_le_of_lt (work_giveWay_le _) ?_
    simp only [work, h, Option.isSome_none, Option.isSome_some, Bool.toNat_false,
      Bool.toNat_true]
    omega

/-- Giving the turn to the next member leaves less to do; so does ending the turn of the group,
unless nothing has happened in it. -/
theorem work_pass_lt {t : Turns} (h : t.current? = none) :
    t.pass.1.work < t.work ∨ t.pass = (t, .waits) := by
  unfold pass
  split
  · next i queue hq =>
    left
    simp only [work, h, hq, Option.isSome_none, Option.isSome_some, Bool.toNat_false,
      Bool.toNat_true, List.length_cons]
    omega
  · rcases t.rest_eq_or_work_rest_lt with heq | hlt
    · have : t.asked = false := by
        have := congrArg asked heq
        simpa [rest] using this.symm
      right
      simp [heq, this]
    · exact .inl hlt

end Turns

end GraphQL
