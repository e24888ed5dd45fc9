import GraphQL.Input
import GraphQL.Proofs.Numbers

/-!
# Values that are the same as themselves

Values are compared by what their numbers are, and objects by their keys, so a value is the same as
itself if it holds no NaN and its objects use no key twice (`Value.same_self`).
-/

namespace GraphQL

def Scalar.IsNaN : Scalar → Prop
  | .float x => x.isNaN = true
  | _ => False

/-- The leaf is no floating-point number, or a finite one. -/
def Scalar.IsFinite : Scalar → Prop
  | .float x => x.isFinite = true
  | _ => True

theorem Scalar.same_self {s : Scalar} (h : ¬ s.IsNaN) : s.same s = true := by
  cases s with
  | float x => exact Numbers.beq_self_of_not_isNaN (Bool.eq_false_iff.2 h)
  | _ => simp [Scalar.same]

theorem Scalar.IsFinite.not_isNaN {s : Scalar} (h : s.IsFinite) : ¬ s.IsNaN := by
  cases s with
  | float x =>
    rw [IsNaN, Numbers.not_isNaN_of_isFinite h]
    simp
  | _ => exact id

namespace Value

mutual

/-- No leaf in the value is a NaN. -/
def NaNFree : Value → Prop
  | .null => True
  | .scalar s => ¬ s.IsNaN
  | .list items => NaNFreeItems items
  | .object entries => NaNFreeEntries entries

def NaNFreeItems : List Value → Prop
  | [] => True
  | v :: rest => v.NaNFree ∧ NaNFreeItems rest

def NaNFreeEntries : List (String × Value) → Prop
  | [] => True
  | (_, v) :: rest => v.NaNFree ∧ NaNFreeEntries rest

end

mutual

/-- **A value without a NaN is the same as itself.** -/
theorem same_self : (v : Value) → v.NaNFree → v.DistinctKeys → v.same v = true
  | .null, _, _ => rfl
  | .scalar _, hn, _ => Scalar.same_self hn
  | .list items, hn, hk => sameItems_self items hn hk
  | .object entries, hn, hk => by
    rw [same, beq_self_eq_true, Bool.true_and]
    exact sameEntries_self entries entries hn hk.2 hk.1 fun _ h => h

theorem sameItems_self : (items : List Value) → NaNFreeItems items → DistinctKeysItems items →
    sameItems items items = true
  | [], _, _ => rfl
  | v :: rest, hn, hk => by
    rw [sameItems, same_self v hn.1 hk.1, sameItems_self rest hn.2 hk.2]
    rfl

/-- Each entry of an object is found under its key in the whole object. -/
theorem sameEntries_self (whole : List (String × Value)) : (part : List (String × Value)) →
    NaNFreeEntries part → DistinctKeysEntries part → (Keyed.keys whole).Nodup →
    (∀ e ∈ part, e ∈ whole) → sameEntries part whole = true
  | [], _, _, _, _ => rfl
  | (key, v) :: rest, hn, hk, hw, hm => by
    have hget := (Keyed.get?_eq_some_iff hw).2 (hm _ List.mem_cons_self)
    have hrest := sameEntries_self whole rest hn.2 hk.2 hw fun e he =>
      hm e (List.mem_cons_of_mem _ he)
    rw [sameEntries, hget, hrest, Bool.and_true]
    exact same_self v hn.1 hk.1

end

end Value

namespace InputValue

mutual

/-- All numbers in the literal are finite. -/
def FiniteFloats : InputValue → Prop
  | .scalar s => s.IsFinite
  | .list items => FiniteFloatsItems items
  | _ => True

def FiniteFloatsItems : List InputValue → Prop
  | [] => True
  | v :: rest => v.FiniteFloats ∧ FiniteFloatsItems rest

end

theorem FiniteFloats.of_mem {items : List InputValue} (h : FiniteFloats (.list items))
    {v : InputValue} (hv : v ∈ items) : v.FiniteFloats := by
  change FiniteFloatsItems items at h
  induction items with
  | nil => nomatch hv
  | cons item rest ih =>
    rcases List.mem_cons.1 hv with rfl | hv
    · exact h.1
    · exact ih hv h.2

end InputValue

namespace Variables

/-- All numbers in the values of variables are finite. -/
def FiniteFloats (vars : Variables) : Prop :=
  ∀ name v, Keyed.get? vars name = some v → v.FiniteFloats

/-- What a literal stands for has finite numbers if the literal and the variables have. -/
theorem FiniteFloats.follow {vars : Variables} (h : vars.FiniteFloats) {literal : InputValue}
    (hl : literal.FiniteFloats) (fromVariable : Bool) :
    (vars.follow literal fromVariable).1.FiniteFloats := by
  unfold Variables.follow
  generalize vars.length = steps
  induction steps generalizing literal fromVariable with
  | zero =>
    cases literal with
    | var _ => trivial
    | _ => exact hl
  | succ steps ih =>
    cases literal with
    | var name =>
      rw [followFor]
      split
      · next v hv => exact ih (h name v hv) true
      · trivial
    | _ => exact hl

end Variables

end GraphQL
