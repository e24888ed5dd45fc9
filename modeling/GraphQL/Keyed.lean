/-!
# Keyed lists

An ordered map is the list of its entries in the order in which their keys first came. Looking up
takes the first entry with the key, and writing to a key that is present changes its entry in
place, so keys stay distinct (`nodup_keys_update`) and in order (`keys_update_of_mem`,
`keys_update_of_not_mem`), however many are written (`nodup_keys_writes`, `keys_writes`).
-/

namespace GraphQL

/-- Entries by key, in the order in which the keys first came. -/
abbrev Keyed (α : Type) := List (String × α)

namespace Keyed

variable {α : Type}

/-- The keys in order. -/
def keys (m : Keyed α) : List String :=
  m.map Prod.fst

/-- What the first entry with the key holds. -/
def get? (m : Keyed α) (key : String) : Option α :=
  m.lookup key

/-- Is there an entry with the key? -/
def contains (m : Keyed α) (key : String) : Bool :=
  (get? m key).isSome

/-- Writes `f` of what the key holds, in place if the key is present and at the end otherwise. -/
def update (key : String) (f : Option α → α) : Keyed α → Keyed α
  | [] => [(key, f none)]
  | (k, a) :: rest => if k = key then (k, f (some a)) :: rest else (k, a) :: update key f rest

/-- Writes a value, whatever the key holds. -/
def set (m : Keyed α) (key : String) (a : α) : Keyed α :=
  update key (fun _ => a) m

/-- The map that writing the pairs one after the other makes. -/
def ofPairs (pairs : List (String × α)) : Keyed α :=
  pairs.foldl (fun m (key, a) => set m key a) []

/-! ## Looking up after writing -/

@[simp] theorem get?_nil (key : String) : get? ([] : Keyed α) key = none := rfl

theorem get?_cons (k key : String) (a : α) (m : Keyed α) :
    get? ((k, a) :: m) key = if k = key then some a else get? m key := by
  rw [get?, List.lookup_cons]
  by_cases h : k = key
  · simp [h]
  · have h' : (key == k) = false := by simp [Ne.symm h]
    simp [h', h, get?]

theorem get?_update (key k : String) (f : Option α → α) (m : Keyed α) :
    get? (update key f m) k = if key = k then some (f (get? m key)) else get? m k := by
  induction m with
  | nil => rw [update, get?_cons]; rfl
  | cons e m ih =>
    obtain ⟨k', a⟩ := e
    by_cases h : k' = key
    · subst h
      by_cases hk : k' = k <;> simp [update, get?_cons, hk]
    · by_cases hk : key = k
      · subst hk
        simp [update, get?_cons, h, ih]
      · by_cases hk' : k' = k
        · subst hk'
          simp [update, get?_cons, h, hk]
        · simp [update, get?_cons, h, ih, hk, hk']

theorem get?_eq_none_iff {m : Keyed α} {key : String} : get? m key = none ↔ key ∉ keys m := by
  induction m with
  | nil => simp [keys]
  | cons e m ih =>
    obtain ⟨k, a⟩ := e
    by_cases h : k = key
    · subst h; simp [get?_cons, keys]
    · simp only [get?_cons, h, if_false, ih, keys, List.map_cons, List.mem_cons, not_or]
      exact ⟨fun hm => ⟨Ne.symm h, hm⟩, fun hm => hm.2⟩

theorem mem_of_get?_eq_some {m : Keyed α} {key : String} {a : α} (h : get? m key = some a) :
    (key, a) ∈ m := by
  induction m with
  | nil => simp at h
  | cons e m ih =>
    obtain ⟨k, b⟩ := e
    rw [get?_cons] at h
    by_cases hk : k = key
    · rw [if_pos hk, Option.some.injEq] at h
      simp [hk, h]
    · rw [if_neg hk] at h
      exact List.mem_cons_of_mem _ (ih h)

theorem get?_append (m m' : Keyed α) (key : String) :
    get? (m ++ m') key = (get? m key).or (get? m' key) :=
  List.lookup_append

theorem get?_map {β : Type} (f : String → α → β) (m : Keyed α) (key : String) :
    get? (m.map fun e => (e.1, f e.1 e.2)) key = (get? m key).map (f key) := by
  induction m with
  | nil => rfl
  | cons e m ih =>
    obtain ⟨k, a⟩ := e
    rw [List.map_cons, get?_cons, get?_cons, ih]
    by_cases h : k = key <;> simp [h]

theorem get?_filter (p : String → Bool) (m : Keyed α) (key : String) :
    get? (m.filter fun e => p e.1) key = if p key then get? m key else none := by
  induction m with
  | nil => simp
  | cons e m ih =>
    obtain ⟨k, a⟩ := e
    rw [List.filter_cons, get?_cons]
    by_cases h : k = key
    · subst h
      by_cases hp : p k
      · simp [hp, get?_cons]
      · simp [hp, ih]
    · by_cases hp : p k
      · simp [hp, get?_cons, h, ih]
      · simp [hp, h, ih]

/-- Maps with the same keys are equal if what they hold under each key is. -/
theorem eq_of_keys_eq {m m' : Keyed α} (hk : keys m = keys m')
    (h : ∀ key a b, (key, a) ∈ m → (key, b) ∈ m' → a = b) : m = m' := by
  induction m generalizing m' with
  | nil =>
    cases m' with
    | nil => rfl
    | cons e m' => simp [keys] at hk
  | cons e m ih =>
    cases m' with
    | nil => simp [keys] at hk
    | cons e' m' =>
      obtain ⟨key, a⟩ := e
      obtain ⟨key', b⟩ := e'
      simp only [keys, List.map_cons, List.cons.injEq] at hk
      obtain ⟨rfl, hk⟩ := hk
      rw [h key a b List.mem_cons_self List.mem_cons_self]
      rw [ih hk fun key a b ha hb =>
        h key a b (List.mem_cons_of_mem _ ha) (List.mem_cons_of_mem _ hb)]

/-- Maps with the same keys hold something under the same keys. -/
theorem exists_mem_of_keys_eq {β : Type} {m : Keyed α} {m' : Keyed β} (h : keys m = keys m')
    {key : String} {a : α} (hm : (key, a) ∈ m) : ∃ b, (key, b) ∈ m' := by
  have hk : key ∈ keys m' := by
    rw [← h]
    exact List.mem_map_of_mem (f := Prod.fst) hm
  obtain ⟨⟨key', b⟩, hb, rfl⟩ := List.mem_map.1 hk
  exact ⟨b, hb⟩

/-- What holds of the values that two maps hold under their common first key, and under each other
key, holds under each key, as the first one does not come again. -/
theorem forall_shared_cons {β : Type} {m : Keyed α} {m' : Keyed β} {key : String} {a : α} {b : β}
    {P : String → α → β → Prop} (hkey : key ∉ keys m) (hk : keys m' = keys m) (h : P key a b)
    (hr : ∀ key a b, (key, a) ∈ m → (key, b) ∈ m' → P key a b) :
    ∀ key' a' b', (key', a') ∈ (key, a) :: m → (key', b') ∈ (key, b) :: m' → P key' a' b' := by
  intro key' a' b' ha hb
  rcases List.mem_cons.1 ha with heq | ha
  · obtain ⟨rfl, rfl⟩ := Prod.mk.inj heq
    rcases List.mem_cons.1 hb with heq | hb
    · obtain ⟨-, rfl⟩ := Prod.mk.inj heq
      exact h
    · have hm : key' ∈ keys m' := List.mem_map_of_mem (f := Prod.fst) hb
      exact absurd (hk ▸ hm) hkey
  · rcases List.mem_cons.1 hb with heq | hb
    · have hm : key' ∈ keys m := List.mem_map_of_mem (f := Prod.fst) ha
      exact absurd ((Prod.mk.inj heq).1 ▸ hm) hkey
    · exact hr key' a' b' ha hb

/-- Where keys are distinct, looking up a key finds its only entry. -/
theorem get?_eq_some_iff {m : Keyed α} (hn : (keys m).Nodup) {key : String} {a : α} :
    get? m key = some a ↔ (key, a) ∈ m := by
  refine ⟨mem_of_get?_eq_some, fun h => ?_⟩
  induction m with
  | nil => simp at h
  | cons e m ih =>
    obtain ⟨k, b⟩ := e
    simp only [keys, List.map_cons, List.nodup_cons] at hn
    rw [get?_cons]
    rcases List.mem_cons.1 h with heq | hm
    · simp only [Prod.mk.injEq] at heq
      simp [heq.1, heq.2]
    · have hk : k ≠ key := by
        intro hk
        exact hn.1 (hk ▸ List.mem_map_of_mem (f := Prod.fst) hm)
      rw [if_neg hk]
      exact ih hn.2 hm

/-- Maps with the same keys, each but once, are equal if looking up finds the same in both. -/
theorem eq_of_get?_eq {m m' : Keyed α} (hn : (keys m).Nodup) (hk : keys m = keys m')
    (h : ∀ key, get? m key = get? m' key) : m = m' := by
  refine eq_of_keys_eq hk ?_
  intro key a b ha hb
  have ha := (get?_eq_some_iff hn).2 ha
  have hb := (get?_eq_some_iff (hk ▸ hn)).2 hb
  rw [h, hb] at ha
  exact (Option.some.inj ha).symm

/-! ## The keys after writing -/

theorem keys_update_of_mem {m : Keyed α} {key : String} (h : key ∈ keys m) (f : Option α → α) :
    keys (update key f m) = keys m := by
  induction m with
  | nil => simp [keys] at h
  | cons e m ih =>
    obtain ⟨k, a⟩ := e
    by_cases hk : k = key
    · simp [update, keys, hk]
    · have : key ∈ keys m := by
        simpa [keys, Ne.symm hk] using h
      have ih := ih this
      simp only [keys] at ih
      simp [update, keys, hk, ih]

theorem update_of_not_mem {m : Keyed α} {key : String} (h : key ∉ keys m) (f : Option α → α) :
    update key f m = m ++ [(key, f none)] := by
  induction m with
  | nil => rfl
  | cons e m ih =>
    obtain ⟨k, a⟩ := e
    simp only [keys, List.map_cons, List.mem_cons, not_or] at h
    rw [update, if_neg (Ne.symm h.1), ih h.2, List.cons_append]

theorem keys_update_of_not_mem {m : Keyed α} {key : String} (h : key ∉ keys m)
    (f : Option α → α) : keys (update key f m) = keys m ++ [key] := by
  rw [update_of_not_mem h]
  simp [keys]

theorem nodup_keys_update {m : Keyed α} (h : (keys m).Nodup) (key : String) (f : Option α → α) :
    (keys (update key f m)).Nodup := by
  by_cases hm : key ∈ keys m
  · rwa [keys_update_of_mem hm]
  · rw [keys_update_of_not_mem hm, List.nodup_append]
    refine ⟨h, by simp, ?_⟩
    intro a ha b hb
    simp only [List.mem_singleton] at hb
    subst hb
    intro e
    exact hm (e ▸ ha)

theorem mem_update {m : Keyed α} {key : String} {f : Option α → α} {e : String × α}
    (h : e ∈ update key f m) : e ∈ m ∨ e = (key, f (get? m key)) := by
  induction m with
  | nil => simpa [update] using h
  | cons e' m ih =>
    obtain ⟨k, a⟩ := e'
    rw [update] at h
    rw [get?_cons]
    by_cases hk : k = key
    · simp only [hk, if_true, List.mem_cons] at h ⊢
      rcases h with rfl | h
      · exact Or.inr rfl
      · exact Or.inl (Or.inr h)
    · simp only [hk, if_false, List.mem_cons] at h ⊢
      rcases h with rfl | h
      · exact Or.inl (Or.inl rfl)
      · rcases ih h with hm | rfl
        · exact Or.inl (Or.inr hm)
        · exact Or.inr rfl

/-! ## Writing in turn -/

section Writes

variable {β : Type} (key : β → String) (f : β → Option α → α)

theorem nodup_keys_writes (xs : List β) {m : Keyed α} (h : (keys m).Nodup) :
    (keys (xs.foldl (fun m x => update (key x) (f x) m) m)).Nodup := by
  induction xs generalizing m with
  | nil => exact h
  | cons x rest ih => exact ih (nodup_keys_update h _ _)

/-- Keys that are new stand behind the others, in the order in which they first come. -/
theorem keys_writes (xs : List β) (m : Keyed α) :
    keys (xs.foldl (fun m x => update (key x) (f x) m) m) =
      keys m ++ ((xs.map key).removeAll (keys m)).eraseDups := by
  induction xs generalizing m with
  | nil => simp [List.removeAll]
  | cons x rest ih =>
    rw [List.foldl_cons, ih]
    by_cases h : key x ∈ keys m
    · rw [keys_update_of_mem h]
      simp [List.removeAll, h]
    · rw [keys_update_of_not_mem h]
      simp only [List.removeAll, List.append_assoc, List.map_cons, List.elem_eq_mem, h,
        List.filter_cons, decide_false, Bool.not_false, if_true, List.eraseDups_cons,
        List.filter_filter, List.singleton_append, List.mem_append, List.mem_singleton]
      congr 3
      refine List.filter_congr ?_
      intro k _
      by_cases hk : k = key x <;> simp [hk]

end Writes

end Keyed

end GraphQL
