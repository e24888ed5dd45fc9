import GraphQL.Input
import Mathlib.Data.Finset.Card
import Mathlib.Logic.Relation

/-!
# Variables without cycles

The value of a variable may mention other variables. Where none leads back to itself
(`Variables.Acyclic`), a variable has a `rank`: how many variables with a value it leads to. Each
mention has a smaller rank, and no rank exceeds the number of variables, so looking through a chain
of variables comes to its end (`Acyclic.follow_var`).
-/

namespace GraphQL

namespace Variables

variable {vars : Variables} {name name' : String}

/-- The value of the first variable mentions the second one, at any depth. -/
def Mentions (vars : Variables) (name name' : String) : Prop :=
  ∃ v, Keyed.get? vars name = some v ∧ name' ∈ v.references

/-- No variable leads back to itself. -/
def Acyclic (vars : Variables) : Prop :=
  ∀ name, ¬ Relation.TransGen vars.Mentions name name

open Classical in
/-- The variables with a value that a variable leads to, itself included. -/
noncomputable def reachable (vars : Variables) (name : String) : Finset String :=
  {key ∈ (Keyed.keys vars).toFinset | Relation.ReflTransGen vars.Mentions name key}

/-- How many variables with a value a variable leads to, itself included. -/
noncomputable def rank (vars : Variables) (name : String) : Nat :=
  (vars.reachable name).card

theorem mem_reachable_iff {key : String} : key ∈ vars.reachable name ↔
    key ∈ Keyed.keys vars ∧ Relation.ReflTransGen vars.Mentions name key := by
  simp [reachable]

theorem mem_reachable_self {v : InputValue} (h : Keyed.get? vars name = some v) :
    name ∈ vars.reachable name := by
  have hkey : name ∈ Keyed.keys vars := List.mem_map_of_mem (Keyed.mem_of_get?_eq_some h)
  exact mem_reachable_iff.2 ⟨hkey, .refl⟩

theorem rank_pos {v : InputValue} (h : Keyed.get? vars name = some v) : 0 < vars.rank name :=
  Finset.card_pos.2 ⟨name, mem_reachable_self h⟩

theorem rank_le_length (vars : Variables) (name : String) : vars.rank name ≤ vars.length := by
  have hsubset : vars.reachable name ⊆ (Keyed.keys vars).toFinset := by
    intro key hkey
    exact List.mem_toFinset.2 (mem_reachable_iff.1 hkey).1
  calc vars.rank name
      ≤ (Keyed.keys vars).toFinset.card := Finset.card_le_card hsubset
    _ ≤ (Keyed.keys vars).length := List.toFinset_card_le _
    _ = vars.length := List.length_map ..

/-- Any ranking that decreases with every mention will do. -/
theorem acyclic_of_decreasing (rank : String → Nat)
    (h : ∀ {name name'}, vars.Mentions name name' → rank name' < rank name) : vars.Acyclic := by
  intro name hloop
  have hlt : ∀ {name'}, Relation.TransGen vars.Mentions name name' → rank name' < rank name := by
    intro name' hleads
    induction hleads with
    | single hm => exact h hm
    | tail _ hm ih => exact (h hm).trans ih
  exact (hlt hloop).false

namespace Acyclic

/-- What the value of a variable mentions has a smaller rank. -/
theorem rank_lt_of_mentions (h : vars.Acyclic) (hm : vars.Mentions name name') :
    vars.rank name' < vars.rank name := by
  have hself : name ∈ vars.reachable name := by
    obtain ⟨v, hv, -⟩ := hm
    exact mem_reachable_self hv
  refine Finset.card_lt_card ((Finset.ssubset_iff_of_subset ?_).2 ⟨name, hself, ?_⟩)
  · intro key hkey
    obtain ⟨hkey, hleads⟩ := mem_reachable_iff.1 hkey
    exact mem_reachable_iff.2 ⟨hkey, .head hm hleads⟩
  · intro hback
    exact h name (.head' hm (mem_reachable_iff.1 hback).2)

/-- Looking through a chain of variables takes no more steps than the rank says. -/
theorem followFor_eq (h : vars.Acyclic) {literal : InputValue} {steps steps' : Nat}
    (hsteps : ∀ name, literal = .var name → vars.rank name ≤ steps)
    (hsteps' : ∀ name, literal = .var name → vars.rank name ≤ steps') (fromVariable : Bool) :
    vars.followFor steps literal fromVariable = vars.followFor steps' literal fromVariable := by
  induction steps generalizing literal steps' fromVariable with
  | zero =>
    cases literal with
    | var name =>
      have hnone : Keyed.get? vars name = none := by
        by_contra hne
        obtain ⟨v, hv⟩ := Option.ne_none_iff_exists'.1 hne
        have hpos := rank_pos hv
        have hle := hsteps name rfl
        omega
      cases steps' with
      | zero => rfl
      | succ steps' => rw [followFor, followFor, hnone]
    | _ => cases steps' <;> rfl
  | succ steps ih =>
    cases literal with
    | var name =>
      rw [followFor]
      cases hv : Keyed.get? vars name with
      | none => cases steps' <;> simp [followFor, hv]
      | some v =>
        have hpos := rank_pos hv
        have hle := hsteps name rfl
        have hle' := hsteps' name rfl
        cases steps' with
        | zero => omega
        | succ steps' =>
          rw [followFor, hv]
          -- Both counts go down by one, the rank by no less.
          have hfewer : ∀ name', v = .var name' →
              vars.rank name' ≤ steps ∧ vars.rank name' ≤ steps' := by
            rintro name' rfl
            have hlt := h.rank_lt_of_mentions ⟨_, hv, List.mem_singleton.2 rfl⟩
            omega
          exact ih (fun name' hn => (hfewer name' hn).1) (fun name' hn => (hfewer name' hn).2) true
    | _ => cases steps' <;> rfl

/-- A variable stands for what its value stands for, and for `null` without a value. -/
theorem follow_var (h : vars.Acyclic) (name : String) (fromVariable : Bool) :
    vars.follow (.var name) fromVariable =
      match Keyed.get? vars name with
      | some v => vars.follow v true
      | none => (.null, fromVariable) := by
  have hmore : vars.follow (.var name) fromVariable =
      vars.followFor (vars.length + 1) (.var name) fromVariable := by
    apply h.followFor_eq
    · intro name' _
      exact vars.rank_le_length name'
    · intro name' _
      have hle := vars.rank_le_length name'
      omega
  rw [hmore, followFor]
  rfl

end Acyclic

end Variables

end GraphQL
