import GraphQL.Json.Basic
import Mathlib.Data.String.Basic
import Mathlib.Order.Compare

/-!
# Members sorted by key

Writing members in turn into sorted ones keeps them sorted (`Json.ascending_sortMembers`), and where
no key comes twice a key holds what it held before (`Json.get?_sortMembers`). Ascending members are
known by what their keys hold (`Json.eq_of_ascending`), so sorting leaves them as they are
(`Json.sortMembers_of_ascending`) and nothing but these two facts is needed of it.
-/

namespace GraphQL.Json

variable {α : Type}

/-- The keys ascend, so none of them comes twice. -/
def Ascending (members : List (String × α)) : Prop :=
  (Keyed.keys members).Pairwise (· < ·)

theorem ascending_nil : Ascending ([] : List (String × α)) :=
  List.Pairwise.nil

theorem Ascending.nodup {members : List (String × α)} (h : Ascending members) :
    (Keyed.keys members).Nodup :=
  List.Pairwise.imp ne_of_lt h

theorem Ascending.tail {e : String × α} {rest : List (String × α)} (h : Ascending (e :: rest)) :
    Ascending rest :=
  (List.pairwise_cons.1 h).2

/-- The first key is before all others. -/
theorem Ascending.head_lt {key : String} {a : α} {rest : List (String × α)}
    (h : Ascending ((key, a) :: rest)) : ∀ k ∈ Keyed.keys rest, key < k :=
  (List.pairwise_cons.1 h).1

theorem Ascending.filter {members : List (String × α)} (h : Ascending members)
    (p : String × α → Bool) : Ascending (members.filter p) :=
  List.Pairwise.sublist (List.filter_sublist.map Prod.fst) h

/-- Putting something else under each key leaves the keys as they are. -/
theorem keys_map {β : Type} (f : α → β) (members : List (String × α)) :
    Keyed.keys (members.map fun e => (e.1, f e.2)) = Keyed.keys members := by
  simp [Keyed.keys, Function.comp_def]

/-! ## Writing one member -/

theorem get?_insertMember (key : String) (a : α) (members : List (String × α)) (k : String) :
    Keyed.get? (insertMember key a members) k =
      if key = k then some a else Keyed.get? members k := by
  induction members with
  | nil => rw [insertMember, Keyed.get?_cons]
  | cons e rest ih =>
    obtain ⟨key', b⟩ := e
    rw [insertMember]
    cases h : compare key key' with
    | lt => exact Keyed.get?_cons ..
    | eq =>
      have heq : key = key' := compare_eq_iff_eq.1 h
      subst heq
      by_cases hk : key = k <;> simp [Keyed.get?_cons, hk]
    | gt =>
      have hne : key' ≠ key := ne_of_lt (compare_gt_iff_gt.1 h)
      dsimp only
      rw [Keyed.get?_cons, Keyed.get?_cons, ih]
      by_cases hk : key' = k
      · subst hk
        simp [Ne.symm hne]
      · simp [hk]

theorem mem_keys_insertMember {key : String} {a : α} {members : List (String × α)} {k : String} :
    k ∈ Keyed.keys (insertMember key a members) ↔ k = key ∨ k ∈ Keyed.keys members := by
  have h : ∀ m : Keyed α, k ∈ Keyed.keys m ↔ Keyed.get? m k ≠ none := fun m =>
    not_iff_not.1 (by simp [Keyed.get?_eq_none_iff])
  rw [h, h, get?_insertMember]
  by_cases hk : key = k
  · simp [hk]
  · simp [hk, Ne.symm hk]

theorem ascending_insertMember {members : List (String × α)} (h : Ascending members)
    (key : String) (a : α) : Ascending (insertMember key a members) := by
  induction members with
  | nil => exact List.pairwise_singleton ..
  | cons e rest ih =>
    obtain ⟨key', b⟩ := e
    have hlt := h.head_lt
    rw [insertMember]
    cases hc : compare key key' with
    | lt =>
      have hkey : key < key' := compare_lt_iff_lt.1 hc
      refine List.pairwise_cons.2 ⟨?_, h⟩
      intro k hk
      rcases List.mem_cons.1 hk with rfl | hk
      · exact hkey
      · exact hkey.trans (hlt k hk)
    | eq =>
      have heq : key = key' := compare_eq_iff_eq.1 hc
      subst heq
      exact List.pairwise_cons.2 ⟨hlt, h.tail⟩
    | gt =>
      have hkey : key' < key := compare_gt_iff_gt.1 hc
      refine List.pairwise_cons.2 ⟨?_, ih h.tail⟩
      intro k hk
      rcases mem_keys_insertMember.1 hk with rfl | hk
      · exact hkey
      · exact hlt k hk

/-! ## Writing all members -/

theorem ascending_foldl {sorted : List (String × α)} (h : Ascending sorted)
    (members : List (String × α)) :
    Ascending (members.foldl (fun sorted e => insertMember e.1 e.2 sorted) sorted) := by
  induction members generalizing sorted with
  | nil => exact h
  | cons e rest ih => exact ih (ascending_insertMember h e.1 e.2)

theorem get?_foldl {members : List (String × α)} (h : (Keyed.keys members).Nodup)
    (sorted : List (String × α)) (key : String) :
    Keyed.get? (members.foldl (fun sorted e => insertMember e.1 e.2 sorted) sorted) key =
      (Keyed.get? members key).or (Keyed.get? sorted key) := by
  induction members generalizing sorted with
  | nil => rfl
  | cons e rest ih =>
    obtain ⟨k, a⟩ := e
    obtain ⟨hk, hrest⟩ := List.nodup_cons.1 h
    rw [List.foldl_cons, ih hrest, get?_insertMember, Keyed.get?_cons]
    by_cases heq : k = key
    · subst heq
      simp [Keyed.get?_eq_none_iff.2 hk]
    · simp [heq]

theorem ascending_sortMembers (members : List (String × α)) : Ascending (sortMembers members) :=
  ascending_foldl ascending_nil members

theorem get?_sortMembers {members : List (String × α)} (h : (Keyed.keys members).Nodup)
    (key : String) : Keyed.get? (sortMembers members) key = Keyed.get? members key :=
  (get?_foldl h [] key).trans (Option.or_none ..)

theorem mem_insertMember {key : String} {a : α} {members : List (String × α)} {e : String × α}
    (h : e ∈ insertMember key a members) : e = (key, a) ∨ e ∈ members := by
  induction members with
  | nil => exact .inl (List.mem_singleton.1 h)
  | cons e' rest ih =>
    obtain ⟨k, b⟩ := e'
    rw [insertMember] at h
    split at h
    · exact List.mem_cons.1 h
    · exact (List.mem_cons.1 h).imp_right (List.mem_cons_of_mem _)
    · rcases List.mem_cons.1 h with rfl | h
      · exact .inr List.mem_cons_self
      · exact (ih h).imp_right (List.mem_cons_of_mem _)

theorem mem_sortMembers {members : List (String × α)} {e : String × α}
    (h : e ∈ sortMembers members) : e ∈ members := by
  suffices hs : ∀ sorted : List (String × α),
      e ∈ members.foldl (fun sorted e => insertMember e.1 e.2 sorted) sorted →
        e ∈ members ∨ e ∈ sorted from (hs [] h).resolve_right (List.not_mem_nil)
  clear h
  induction members with
  | nil => exact fun _ h => .inr h
  | cons e' rest ih =>
    intro sorted h
    rcases ih _ h with h | h
    · exact .inl (List.mem_cons_of_mem _ h)
    · rcases mem_insertMember h with rfl | h
      · exact .inl List.mem_cons_self
      · exact .inr h

/-! ## What keys hold settles ascending members -/

/-- Maps without repeated keys that hold something under the same keys have the same keys, in some
order. -/
theorem keys_perm {β : Type} {m : Keyed α} {m' : Keyed β} (hm : (Keyed.keys m).Nodup)
    (hm' : (Keyed.keys m').Nodup)
    (h : ∀ key, Keyed.get? m key = none ↔ Keyed.get? m' key = none) :
    (Keyed.keys m).Perm (Keyed.keys m') := by
  refine (List.perm_ext_iff_of_nodup hm hm').2 fun key => ?_
  rw [← not_iff_not, ← Keyed.get?_eq_none_iff, ← Keyed.get?_eq_none_iff, h]

theorem eq_of_ascending {m m' : List (String × α)} (hm : Ascending m) (hm' : Ascending m')
    (h : ∀ key, Keyed.get? m key = Keyed.get? m' key) : m = m' := by
  refine Keyed.eq_of_get?_eq hm.nodup ?_ h
  refine List.Perm.eq_of_pairwise ?_ hm hm' (keys_perm hm.nodup hm'.nodup fun key => by rw [h])
  intro a b _ _ hab hba
  exact absurd hab (lt_asymm hba)

theorem sortMembers_of_ascending {members : List (String × α)} (h : Ascending members) :
    sortMembers members = members :=
  eq_of_ascending (ascending_sortMembers members) h (get?_sortMembers h.nodup)

/-- Sorting goes along with leaving keys out. -/
theorem sortMembers_filter {members : List (String × α)} (h : (Keyed.keys members).Nodup)
    (p : String → Bool) :
    sortMembers (members.filter fun e => p e.1) = (sortMembers members).filter fun e => p e.1 := by
  have hfilter : (Keyed.keys (members.filter fun e => p e.1)).Nodup :=
    h.sublist (List.filter_sublist.map Prod.fst)
  refine eq_of_ascending (ascending_sortMembers _) ((ascending_sortMembers _).filter _) fun key => ?_
  rw [get?_sortMembers hfilter, Keyed.get?_filter, Keyed.get?_filter, get?_sortMembers h]

theorem length_sortMembers {members : List (String × α)} (h : (Keyed.keys members).Nodup) :
    (sortMembers members).length = members.length := by
  have hp : (Keyed.keys (sortMembers members)).Perm (Keyed.keys members) :=
    keys_perm (ascending_sortMembers members).nodup h fun key => by rw [get?_sortMembers h]
  simpa [Keyed.keys] using hp.length_eq

end GraphQL.Json
