import GraphQL.Value.Object
import Mathlib.Data.Set.List

/-!
# Writing is merging

Objects are built pair by pair, each pair merged into what its key holds by then. `Value.merge` says
what becomes of two values at once: of two objects it keeps the first one's entries where they are,
merged with the second's, and puts the second's other entries behind them; of any other two values
the second is left. Where no object uses a key twice, writing is merging
(`Value.overwrite_eq_merge`), so a key ends up with the merge of all that was written to it
(`Object.addAll_laws`).

Merging is not associative: `null` and then an object throw away what was there before, the merge of
the two does not. Still, writing the same pairs again changes nothing (`Object.addAll_addAll`). If
one of the values for a key is no object, it does not matter what the key held before
(`Value.afterWrites?_cons_of_mem`); if all are objects, then together they are one list of pairs,
nested less deep (`Value.exists_afterWrites?_objects`).
-/

namespace GraphQL

/-! ## Merging at once -/

/-- The entries of the first object with what the second holds under their keys, if it holds
something, and behind them the entries of the second under other keys. -/
def Object.overlay (old new : Object) : Object :=
  old.map (fun e => (e.1, (Keyed.get? new e.1).getD e.2)) ++
    new.filter fun e => !(Keyed.keys old).contains e.1

mutual

/-- The right-biased deep merge of two values. -/
def Value.merge (old : Value) : (new : Value) → Value
  | .null => .null
  | .scalar s => .scalar s
  | .list items => .list items
  | .object new =>
    match old with
    | .object entries => .object (Object.overlay entries (Object.mergeEach entries new))
    | _ => .object new

/-- The pairs, each merged with what the object holds under its key. -/
def Object.mergeEach (entries : Object) : List (String × Value) → List (String × Value)
  | [] => []
  | (key, v) :: rest =>
    (key, match Keyed.get? entries key with | none => v | some old => old.merge v) ::
      Object.mergeEach entries rest

end

/-- What a place holds after values were written to it, `write old new` being what a place with
`old` holds after `new`; nothing if there are no values. -/
def Value.afterWrites? (write : Value → Value → Value) : List Value → Option Value
  | [] => none
  | v :: rest => some (rest.foldl write v)

/-- The values that the pairs have for a key, in order. -/
def Object.writesTo (key : String) (pairs : List (String × Value)) : List Value :=
  (pairs.filter (·.1 == key)).map Prod.snd

namespace Object

theorem keys_mergeEach (entries : Object) (pairs : List (String × Value)) :
    Keyed.keys (mergeEach entries pairs) = Keyed.keys pairs := by
  induction pairs with
  | nil => rw [mergeEach]
  | cons e rest ih =>
    obtain ⟨key, v⟩ := e
    rw [mergeEach, Keyed.keys, List.map_cons, ← Keyed.keys, ih]
    rfl

theorem get?_mergeEach (entries : Object) (pairs : List (String × Value)) (key : String) :
    Keyed.get? (mergeEach entries pairs) key = (Keyed.get? pairs key).map fun v =>
      (Keyed.get? entries key).elim v (·.merge v) := by
  induction pairs with
  | nil => rw [mergeEach]; rfl
  | cons e rest ih =>
    obtain ⟨k, v⟩ := e
    rw [mergeEach, Keyed.get?_cons, Keyed.get?_cons, ih]
    by_cases h : k = key
    · subst h
      cases Keyed.get? entries k <;> simp
    · simp [h]

theorem keys_overlay (old new : Object) :
    Keyed.keys (overlay old new) =
      Keyed.keys old ++ (Keyed.keys new).removeAll (Keyed.keys old) := by
  simp [overlay, Keyed.keys, List.removeAll, List.filter_map, Function.comp_def]

theorem get?_overlay (old new : Object) (key : String) :
    Keyed.get? (overlay old new) key = (Keyed.get? new key).or (Keyed.get? old key) := by
  rw [overlay, Keyed.get?_append, Keyed.get?_map fun k v => (Keyed.get? new k).getD v,
    Keyed.get?_filter fun k => !(Keyed.keys old).contains k]
  cases h : Keyed.get? old key with
  | none => simp [Keyed.get?_eq_none_iff.1 h]
  | some v => cases Keyed.get? new key <;> simp

end Object

/-! ## Objects onto objects, and all else -/

namespace Value

/-- Both values are objects, so the one is merged into the other. -/
def Merges (old new : Value) : Prop :=
  ∃ entries entries', old = .object entries ∧ new = .object entries'

theorem overwrite_object (entries new : Object) :
    (object entries).overwrite (object new) = object (Object.addAll entries new) := by
  rw [overwrite]

theorem overwrite_of_not_merges {old new : Value} (h : ¬ Merges old new) :
    old.overwrite new = new := by
  cases new with
  | object new =>
    cases old with
    | object entries => exact absurd ⟨entries, new, rfl, rfl⟩ h
    | _ => rw [overwrite]; intro _ h; cases h
  | _ => rw [overwrite]

theorem merge_object (entries new : Object) :
    (object entries).merge (object new) =
      object (Object.overlay entries (Object.mergeEach entries new)) := by
  rw [merge]

theorem merge_of_not_merges {old new : Value} (h : ¬ Merges old new) : old.merge new = new := by
  cases new with
  | object new =>
    cases old with
    | object entries => exact absurd ⟨entries, new, rfl, rfl⟩ h
    | _ => rw [merge]; intro _ h; cases h
  | _ => rw [merge]

-- so it matters which of three values are merged first
example (a b : Object) :
    ((object a).merge .null).merge (object b) = object b ∧
      (object a).merge (Value.null.merge (object b)) = (object a).merge (object b) :=
  ⟨rfl, rfl⟩

end Value

namespace Object

/-! ## Writing pair by pair -/

theorem addAll_eq_foldl (entries : Object) (pairs : List (String × Value)) :
    addAll entries pairs = pairs.foldl (fun o e => add o e.1 e.2) entries := by
  induction pairs generalizing entries with
  | nil => rw [addAll_nil, List.foldl_nil]
  | cons e rest ih =>
    obtain ⟨key, v⟩ := e
    rw [addAll_cons, ih, List.foldl_cons]

/-- New keys stand behind the others, in the order in which they first come. -/
theorem keys_addAll (entries : Object) (pairs : List (String × Value)) :
    Keyed.keys (addAll entries pairs) = Keyed.keys entries ++
      ((pairs.map Prod.fst).removeAll (Keyed.keys entries)).eraseDups := by
  rw [addAll_eq_foldl]
  exact Keyed.keys_writes Prod.fst _ pairs entries

theorem mem_keys_addAll {entries : Object} {pairs : List (String × Value)} {key : String} :
    key ∈ Keyed.keys (addAll entries pairs) ↔
      key ∈ Keyed.keys entries ∨ key ∈ pairs.map Prod.fst := by
  rw [keys_addAll, List.mem_append, List.mem_eraseDups, List.removeAll, List.mem_filter]
  by_cases h : key ∈ Keyed.keys entries <;> simp [h]

theorem get?_add (entries : Object) (key : String) (v : Value) (k : String) :
    Keyed.get? (add entries key v) k =
      if key = k then some ((Keyed.get? entries key).elim v (·.overwrite v))
      else Keyed.get? entries k := by
  rw [add, Keyed.get?_update]
  cases Keyed.get? entries key <;> rfl

theorem mem_writesTo {key : String} {pairs : List (String × Value)} {v : Value} :
    v ∈ writesTo key pairs ↔ (key, v) ∈ pairs := by
  simp [writesTo]

theorem writesTo_cons (key k : String) (v : Value) (rest : List (String × Value)) :
    writesTo key ((k, v) :: rest) =
      if k = key then v :: writesTo key rest else writesTo key rest := by
  by_cases h : k = key <;> simp [writesTo, h]

/-- Pairs that have a key but once have one value for it. -/
theorem writesTo_eq_toList {pairs : List (String × Value)} (h : (Keyed.keys pairs).Nodup)
    (key : String) : writesTo key pairs = (Keyed.get? pairs key).toList := by
  induction pairs with
  | nil => rfl
  | cons e rest ih =>
    obtain ⟨k, v⟩ := e
    simp only [Keyed.keys, List.map_cons, List.nodup_cons] at h
    rw [writesTo_cons, Keyed.get?_cons, ih h.2]
    by_cases hk : k = key
    · subst hk
      simp [Keyed.get?_eq_none_iff.2 h.1]
    · simp [hk]

/-- A key holds what comes of its own value and those that the pairs have for it. -/
theorem get?_addAll (entries : Object) (pairs : List (String × Value)) (key : String) :
    Keyed.get? (addAll entries pairs) key =
      Value.afterWrites? Value.overwrite
        ((Keyed.get? entries key).toList ++ writesTo key pairs) := by
  induction pairs generalizing entries with
  | nil =>
    rw [addAll_nil]
    cases Keyed.get? entries key <;> rfl
  | cons e rest ih =>
    obtain ⟨k, v⟩ := e
    rw [addAll_cons, ih, get?_add, writesTo_cons]
    by_cases h : k = key
    · subst h
      simp only [if_true]
      cases Keyed.get? entries k <;> rfl
    · simp only [h, if_false]

end Object

/-! ## Keys stay distinct -/

namespace Value

theorem distinctKeysEntries_iff {entries : List (String × Value)} :
    DistinctKeysEntries entries ↔ ∀ e ∈ entries, e.2.DistinctKeys := by
  induction entries with
  | nil => simp [DistinctKeysEntries]
  | cons e rest ih =>
    obtain ⟨key, v⟩ := e
    rw [DistinctKeysEntries, ih]
    simp

theorem DistinctKeys.of_get? {entries : Object} (h : (object entries).DistinctKeys) {key : String}
    {v : Value} (hv : Keyed.get? entries key = some v) : v.DistinctKeys :=
  distinctKeysEntries_iff.1 h.2 _ (Keyed.mem_of_get?_eq_some hv)

theorem DistinctKeys.update {entries : Object} (h : (object entries).DistinctKeys) {key : String}
    {f : Option Value → Value} (hf : (f (Keyed.get? entries key)).DistinctKeys) :
    (object (Keyed.update key f entries)).DistinctKeys := by
  refine ⟨Keyed.nodup_keys_update h.1 key f, distinctKeysEntries_iff.2 ?_⟩
  intro e he
  rcases Keyed.mem_update he with he | rfl
  · exact distinctKeysEntries_iff.1 h.2 e he
  · exact hf

mutual

theorem DistinctKeys.overwrite {old : Value} (ho : old.DistinctKeys) : (new : Value) →
    new.DistinctKeys → (old.overwrite new).DistinctKeys
  | .null, hn => by rwa [Value.overwrite]
  | .scalar _, hn => by rwa [Value.overwrite]
  | .list _, hn => by rwa [Value.overwrite]
  | .object new, hn => by
    by_cases h : Merges old (.object new)
    · obtain ⟨entries, _, rfl, -⟩ := h
      rw [overwrite_object]
      exact DistinctKeys.addAll ho new hn.2
    · rwa [overwrite_of_not_merges h]

theorem DistinctKeys.addAll {entries : Object} (he : (object entries).DistinctKeys) :
    (pairs : List (String × Value)) → DistinctKeysEntries pairs →
    (object (Object.addAll entries pairs)).DistinctKeys
  | [], _ => by rwa [Object.addAll_nil]
  | (key, v) :: rest, hp => by
    rw [Object.addAll_cons]
    refine DistinctKeys.addAll (he.update ?_) rest hp.2
    split
    · exact hp.1
    · next old h => exact DistinctKeys.overwrite (he.of_get? h) v hp.1

end

end Value

/-! ## Writing is merging -/

theorem eraseDups_of_nodup {keys : List String} (h : keys.Nodup) : keys.eraseDups = keys := by
  induction keys with
  | nil => rfl
  | cons key rest ih =>
    obtain ⟨hkey, hrest⟩ := List.nodup_cons.1 h
    have hf : rest.filter (fun k => !k == key) = rest := by
      refine List.filter_eq_self.2 ?_
      intro k hk
      have : k ≠ key := fun h => hkey (h ▸ hk)
      simp [this]
    rw [List.eraseDups_cons, hf, ih hrest]

theorem Object.addAll_eq_overlay {entries new : Object} (he : (Value.object entries).DistinctKeys)
    (hn : (Keyed.keys new).Nodup)
    (h : ∀ e ∈ new, ∀ old : Value, old.DistinctKeys → old.overwrite e.2 = old.merge e.2) :
    addAll entries new = overlay entries (mergeEach entries new) := by
  refine Keyed.eq_of_get?_eq ?_ ?_ ?_
  · rw [addAll_eq_foldl]
    exact Keyed.nodup_keys_writes Prod.fst _ new he.1
  · rw [keys_addAll, keys_overlay, keys_mergeEach]
    have hr : ((Keyed.keys new).removeAll (Keyed.keys entries)).Nodup := hn.filter _
    exact congrArg (Keyed.keys entries ++ ·) (eraseDups_of_nodup hr)
  · intro key
    rw [get?_addAll, writesTo_eq_toList hn, get?_overlay, get?_mergeEach]
    cases hv : Keyed.get? new key with
    | none => cases Keyed.get? entries key <;> rfl
    | some v =>
      have hm : (key, v) ∈ new := Keyed.mem_of_get?_eq_some hv
      cases ho : Keyed.get? entries key with
      | none => rfl
      | some old => exact congrArg some (h _ hm old (he.of_get? ho))

namespace Value

mutual

/-- **Writing a value onto another merges the two**, where no object uses a key twice. -/
theorem overwrite_eq_merge : (new : Value) → new.DistinctKeys → (old : Value) →
    old.DistinctKeys → old.overwrite new = old.merge new
  | .null, _, _, _ => by rw [overwrite, merge]
  | .scalar _, _, _, _ => by rw [overwrite, merge]
  | .list _, _, _, _ => by rw [overwrite, merge]
  | .object new, hn, old, ho => by
    by_cases h : Merges old (.object new)
    · obtain ⟨entries, _, rfl, -⟩ := h
      rw [overwrite_object, merge_object]
      exact congrArg object (Object.addAll_eq_overlay ho hn.1 (overwrite_eq_merge_of_mem new hn.2))
    · rw [overwrite_of_not_merges h, merge_of_not_merges h]

theorem overwrite_eq_merge_of_mem : (entries : List (String × Value)) →
    DistinctKeysEntries entries → ∀ e ∈ entries, ∀ old : Value, old.DistinctKeys →
      old.overwrite e.2 = old.merge e.2
  | [], _, _, h => by cases h
  | (key, v) :: rest, hk, e, h => by
    rcases List.mem_cons.1 h with rfl | h
    · exact overwrite_eq_merge v hk.1
    · exact overwrite_eq_merge_of_mem rest hk.2 e h

end

theorem afterWrites?_overwrite {vs : List Value} (h : ∀ v ∈ vs, v.DistinctKeys) :
    afterWrites? overwrite vs = afterWrites? merge vs := by
  cases vs with
  | nil => rfl
  | cons v rest =>
    obtain ⟨hv, hr⟩ := List.forall_mem_cons.1 h
    clear h
    refine congrArg some ?_
    induction rest generalizing v with
    | nil => rfl
    | cons u rest ih =>
      obtain ⟨hu, hr⟩ := List.forall_mem_cons.1 hr
      rw [List.foldl_cons, List.foldl_cons, ← overwrite_eq_merge u hu v hv]
      exact ih _ (hv.overwrite u hu) hr

end Value

/-! ## Rebuilding -/

namespace Object

/-- Pairs under distinct new keys are put behind the others as they are. -/
theorem addAll_eq_append {entries : Object} {pairs : List (String × Value)}
    (h : (Keyed.keys (entries ++ pairs)).Nodup) : addAll entries pairs = entries ++ pairs := by
  induction pairs generalizing entries with
  | nil => rw [addAll_nil, List.append_nil]
  | cons e rest ih =>
    obtain ⟨key, v⟩ := e
    have hk : key ∉ Keyed.keys entries := by
      intro hm
      simp only [Keyed.keys, List.map_append, List.nodup_append, List.map_cons] at h
      exact h.2.2 _ hm _ List.mem_cons_self rfl
    rw [List.append_cons] at h ⊢
    rw [addAll_cons, add, Keyed.update_of_not_mem hk]
    exact ih h

theorem ofPairs_self {entries : Object} (h : (Keyed.keys entries).Nodup) :
    ofPairs entries = entries :=
  addAll_eq_append h

end Object

/-! ## Writing the same again -/

mutual

/-- How deep objects are nested in one another. -/
def Value.depth : Value → Nat
  | .null => 0
  | .scalar _ => 0
  | .list _ => 0
  | .object entries => Object.depth entries + 1

def Object.depth : List (String × Value) → Nat
  | [] => 0
  | (_, v) :: rest => max v.depth (Object.depth rest)

end

theorem Object.depth_le_iff {entries : List (String × Value)} {n : Nat} :
    Object.depth entries ≤ n ↔ ∀ e ∈ entries, e.2.depth ≤ n := by
  induction entries with
  | nil => simp [depth]
  | cons e rest ih =>
    obtain ⟨key, v⟩ := e
    rw [depth, Nat.max_le, ih]
    simp

/-- What the objects written to a key hold is nested less deep than the pairs. -/
theorem Object.depth_flatten_lt {pairs : List (String × Value)} {objects : List Object}
    (hne : objects ≠ []) (h : ∀ o ∈ objects, ∃ key, (key, Value.object o) ∈ pairs) :
    Object.depth objects.flatten < Object.depth pairs := by
  have hlt : ∀ o ∈ objects, Object.depth o < Object.depth pairs := by
    intro o ho
    obtain ⟨key, hm⟩ := h o ho
    have hd := depth_le_iff.1 (Nat.le_refl (Object.depth pairs)) _ hm
    rw [Value.depth] at hd
    omega
  obtain ⟨o, ho⟩ := List.exists_mem_of_ne_nil objects hne
  have ho := hlt o ho
  suffices hd : Object.depth objects.flatten ≤ Object.depth pairs - 1 by omega
  refine depth_le_iff.2 ?_
  intro e he
  obtain ⟨o, ho, he⟩ := List.mem_flatten.1 he
  have ho := hlt o ho
  have he := depth_le_iff.1 (Nat.le_refl (Object.depth o)) e he
  omega

namespace Value

/-- What was written before a value that is no object does not matter. -/
theorem afterWrites?_cons_of_mem {vs : List Value}
    (h : ∃ v ∈ vs, v.asObject? = none) (old : Value) :
    afterWrites? overwrite (old :: vs) = afterWrites? overwrite vs := by
  induction vs generalizing old with
  | nil => obtain ⟨_, hm, -⟩ := h; cases hm
  | cons v rest ih =>
    by_cases hv : v.asObject? = none
    · have hn : ¬ Merges old v := by
        rintro ⟨_, _, -, rfl⟩
        cases hv
      rw [afterWrites?, List.foldl_cons, overwrite_of_not_merges hn, afterWrites?]
    · have hr : ∃ v ∈ rest, v.asObject? = none := by
        obtain ⟨u, hu, hn⟩ := h
        rcases List.mem_cons.1 hu with rfl | hu
        · exact absurd hn hv
        · exact ⟨u, hu, hn⟩
      calc afterWrites? overwrite (old :: v :: rest)
        _ = afterWrites? overwrite (old.overwrite v :: rest) := rfl
        _ = afterWrites? overwrite rest := ih hr _
        _ = afterWrites? overwrite (v :: rest) := (ih hr v).symm

/-- Objects written to one place are one list of pairs written to the first of them. -/
theorem afterWrites?_objects (entries : Object) (objects : List Object) :
    afterWrites? overwrite (object entries :: objects.map object) =
      some (object (Object.addAll entries objects.flatten)) := by
  induction objects generalizing entries with
  | nil =>
    rw [List.flatten_nil, Object.addAll_nil]
    rfl
  | cons new rest ih =>
    calc afterWrites? overwrite (object entries :: object new :: rest.map object)
      _ = afterWrites? overwrite ((object entries).overwrite (object new) :: rest.map object) := rfl
      _ = some (object (Object.addAll (Object.addAll entries new) rest.flatten)) := by
        rw [overwrite_object, ih]
      _ = some (object (Object.addAll entries (new :: rest).flatten)) := by
        rw [List.flatten_cons, Object.addAll_append]

/-- Objects written to any place leave an object to which their pairs were written. -/
theorem exists_afterWrites?_objects {old? : Option Value} (ho : ∀ old ∈ old?, old.DistinctKeys)
    {objects : List Object} (hne : objects ≠ []) (hd : ∀ o ∈ objects, (object o).DistinctKeys) :
    ∃ entries, (object entries).DistinctKeys ∧
      afterWrites? overwrite (old?.toList ++ objects.map object) =
        some (object (Object.addAll entries objects.flatten)) := by
  cases objects with
  | nil => exact absurd rfl hne
  | cons new rest =>
    -- the first object is what writing its pairs to an empty one makes
    have hfresh : afterWrites? overwrite (object new :: rest.map object) =
        some (object (Object.addAll [] (new :: rest).flatten)) := by
      have hnew : Object.addAll [] new = new := Object.ofPairs_self (hd new List.mem_cons_self).1
      rw [afterWrites?_objects, List.flatten_cons, Object.addAll_append, hnew]
    have hnil : (object []).DistinctKeys := ⟨List.nodup_nil, trivial⟩
    cases old? with
    | none => exact ⟨[], hnil, hfresh⟩
    | some old =>
      by_cases h : Merges old (object new)
      · obtain ⟨entries, _, rfl, -⟩ := h
        exact ⟨entries, ho _ rfl, afterWrites?_objects entries (new :: rest)⟩
      · refine ⟨[], hnil, ?_⟩
        calc afterWrites? overwrite (old :: object new :: rest.map object)
          _ = afterWrites? overwrite (old.overwrite (object new) :: rest.map object) := rfl
          _ = some (object (Object.addAll [] (new :: rest).flatten)) := by
            rw [overwrite_of_not_merges h, hfresh]

/-- Values written once more to a place leave it as it is, if the pairs of the objects among them
do so with every object. -/
theorem afterWrites?_again {old? : Option Value} (ho : ∀ old ∈ old?, old.DistinctKeys)
    {vs : List Value} (hv : ∀ v ∈ vs, v.DistinctKeys)
    (h : ∀ objects : List Object, objects ≠ [] → (∀ o ∈ objects, object o ∈ vs) →
      ∀ entries : Object, (object entries).DistinctKeys →
        (entries.addAll objects.flatten).addAll objects.flatten =
          entries.addAll objects.flatten) :
    afterWrites? overwrite ((afterWrites? overwrite (old?.toList ++ vs)).toList ++ vs) =
      afterWrites? overwrite (old?.toList ++ vs) := by
  by_cases hn : ∃ v ∈ vs, v.asObject? = none
  · have hany : ∀ any? : Option Value,
        afterWrites? overwrite (any?.toList ++ vs) = afterWrites? overwrite vs := by
      intro any?
      cases any? with
      | none => rfl
      | some old => exact afterWrites?_cons_of_mem hn old
    rw [hany, hany]
  · obtain ⟨objects, rfl⟩ : vs ∈ Set.range (List.map object) := by
      rw [Set.range_list_map]
      intro v hm
      cases v with
      | object entries => exact ⟨entries, rfl⟩
      | _ => exact absurd ⟨_, hm, rfl⟩ hn
    by_cases hne : objects = []
    · subst hne
      cases old? <;> rfl
    · have hmem : ∀ o ∈ objects, object o ∈ objects.map object := fun o ho =>
        List.mem_map_of_mem ho
      obtain ⟨entries, he, heq⟩ :=
        exists_afterWrites?_objects ho hne fun o ho => hv _ (hmem o ho)
      rw [heq]
      exact (afterWrites?_objects _ objects).trans
        (congrArg (fun o => some (object o)) (h objects hne hmem entries he))

end Value

namespace Object

/-- **Writing the same pairs a second time changes nothing.** -/
theorem addAll_addAll (pairs : List (String × Value)) (hp : Value.DistinctKeysEntries pairs)
    (entries : Object) (he : (Value.object entries).DistinctKeys) :
    addAll (addAll entries pairs) pairs = addAll entries pairs := by
  have hp' := Value.distinctKeysEntries_iff.1 hp
  refine Keyed.eq_of_get?_eq ((he.addAll pairs hp).addAll pairs hp).1 ?_ ?_
  · have hnew : (pairs.map Prod.fst).removeAll (Keyed.keys (addAll entries pairs)) = [] := by
      refine List.filter_eq_nil_iff.2 ?_
      intro key hk
      have : key ∈ Keyed.keys (addAll entries pairs) := mem_keys_addAll.2 (Or.inr hk)
      simp [this]
    rw [keys_addAll (addAll entries pairs), hnew, List.eraseDups_nil, List.append_nil]
  · intro key
    rw [get?_addAll (addAll entries pairs), get?_addAll entries]
    refine Value.afterWrites?_again (fun old ho => he.of_get? ho)
      (fun v hv => hp' _ (mem_writesTo.1 hv)) ?_
    intro objects hne hmem entries' he'
    have hlt : Object.depth objects.flatten < Object.depth pairs :=
      depth_flatten_lt hne fun o ho => ⟨key, mem_writesTo.1 (hmem o ho)⟩
    refine addAll_addAll objects.flatten (Value.distinctKeysEntries_iff.2 ?_) entries' he'
    intro e hm
    obtain ⟨o, ho, hm⟩ := List.mem_flatten.1 hm
    have hd : (Value.object o).DistinctKeys := hp' _ (mem_writesTo.1 (hmem o ho))
    exact Value.distinctKeysEntries_iff.1 hd.2 e hm
termination_by Object.depth pairs

/-- What writing throws away is what the key holds, unless the value is merged into it. -/
theorem replaced?_eq_some_iff {entries : Object} {key : String} {v old : Value} :
    replaced? entries key v = some old ↔
      Keyed.get? entries key = some old ∧ ¬ old.Merges v := by
  unfold replaced?
  split
  · next held new hget =>
    rw [hget]
    constructor
    · intro h
      cases h
    · rintro ⟨heq, hn⟩
      cases heq
      exact absurd ⟨held, new, rfl, rfl⟩ hn
  · next hnot =>
    refine ⟨fun h => ⟨h, ?_⟩, And.left⟩
    rintro ⟨held, new, rfl, rfl⟩
    exact hnot held new h rfl

/-- **Objects are built by merging.** Where no object uses a key twice, an object to which pairs
are written uses none twice, at any depth; its keys stand in the order in which they first came. A
second time the pairs change nothing, and an object built from its own entries is the same object.
Under each key there is the right-biased deep merge of all values that the key had; the write of a
value throws away what the key held before exactly if the two are not merged. -/
theorem addAll_laws {entries : Object} (he : (Value.object entries).DistinctKeys)
    {pairs : List (String × Value)} (hp : Value.DistinctKeysEntries pairs) :
    (Value.object (addAll entries pairs)).DistinctKeys ∧
      Keyed.keys (addAll entries pairs) = Keyed.keys entries ++
        ((pairs.map Prod.fst).removeAll (Keyed.keys entries)).eraseDups ∧
      addAll (addAll entries pairs) pairs = addAll entries pairs ∧
      ofPairs entries = entries ∧
      (∀ key, Keyed.get? (addAll entries pairs) key =
        Value.afterWrites? Value.merge
          ((Keyed.get? entries key).toList ++ writesTo key pairs)) ∧
      ∀ key v old, replaced? entries key v = some old ↔
        Keyed.get? entries key = some old ∧ ¬ old.Merges v := by
  refine ⟨he.addAll pairs hp, keys_addAll entries pairs, addAll_addAll pairs hp entries he,
    ofPairs_self he.1, ?_, fun _ _ _ => replaced?_eq_some_iff⟩
  intro key
  rw [get?_addAll, Value.afterWrites?_overwrite]
  intro v hv
  rcases List.mem_append.1 hv with hv | hv
  · exact he.of_get? (Option.mem_toList.1 hv)
  · exact Value.distinctKeysEntries_iff.1 hp _ (mem_writesTo.1 hv)

end Object

namespace Writing

def droid : Object :=
  [("name", .string "R2-D2"), ("model", .object [("series", .int 2)])]

/-- The model is written four times, once as `null`. -/
def updates : List (String × Value) :=
  [("model", .object [("line", .string "astromech")]), ("id", .int 2001), ("model", .null),
    ("model", .object [("line", .string "R2"), ("shell", .object [("colour", .string "blue")])]),
    ("model", .object [("shell", .object [("colour", .null), ("height", .int 1)])])]

/-- The `null` throws away the model that the droid had and what was merged into it; the objects
behind it are merged, at both levels. -/
theorem addAll_laws_droid :
    (Value.object droid).DistinctKeys ∧ Value.DistinctKeysEntries updates ∧
      Keyed.keys (Object.addAll droid updates) = ["name", "model", "id"] ∧
      Object.addAll (Object.addAll droid updates) updates = Object.addAll droid updates ∧
      Keyed.get? (Object.addAll droid updates) "model" = some (.object [("line", .string "R2"),
        ("shell", .object [("colour", .null), ("height", .int 1)])]) := by
  have hd : (Value.object droid).DistinctKeys := by
    simp [droid, Value.DistinctKeys, Value.DistinctKeysEntries, Keyed.keys]
  have hu : Value.DistinctKeysEntries updates := by
    simp [updates, Value.DistinctKeys, Value.DistinctKeysEntries, Keyed.keys]
  obtain ⟨-, hkeys, hagain, -, hget, -⟩ := Object.addAll_laws hd hu
  exact ⟨hd, hu, hkeys, hagain, hget "model"⟩

end Writing

end GraphQL
