import GraphQL.Proofs.Outcome.Positions

/-!
# The calls of an outcome, by position

The calls of an outcome are those that were made for the fields of its objects (`mem_calls_iff`).
Where each is a call for the position of its field (`CallsInPlace`), no two are for the same
position (`pairwise_calls`).
-/

namespace GraphQL

namespace Outcome

/-- The position is an object, and the call was made for its field under the response key. -/
inductive Invokes : Outcome → String → Call → Prop where
  | field {type name fields key c child} (h : (key, some c, child) ∈ fields) :
    Invokes (.object type name fields) key c

theorem mem_itemCalls_iff {items : List Outcome} {c : Call} :
    c ∈ itemCalls items ↔ ∃ o ∈ items, c ∈ o.calls := by
  induction items with
  | nil => simp [itemCalls]
  | cons o rest ih => simp [itemCalls, ih]

theorem mem_fieldCalls_iff {fields : Fields} {c : Call} :
    c ∈ fieldCalls fields ↔
      ∃ key call? o, (key, call?, o) ∈ fields ∧ (call? = some c ∨ c ∈ o.calls) := by
  induction fields with
  | nil => simp [fieldCalls]
  | cons f rest ih =>
    obtain ⟨key, call?, o⟩ := f
    rw [fieldCalls, List.mem_append, List.mem_append, Option.mem_toList, ih]
    constructor
    · rintro (h | ⟨key', call?', o', hm, h⟩)
      · exact ⟨key, call?, o, List.mem_cons_self, h⟩
      · exact ⟨key', call?', o', List.mem_cons_of_mem _ hm, h⟩
    · rintro ⟨key', call?', o', hm, h⟩
      rcases List.mem_cons.1 hm with heq | hm
      · simp only [Prod.mk.injEq] at heq
        obtain ⟨rfl, rfl, rfl⟩ := heq
        exact .inl h
      · exact .inr ⟨key', call?', o', hm, h⟩

/-- A call was made for a field of the position itself or below one of the positions right below. -/
theorem mem_calls_iff_child {o : Outcome} (hk : o.DistinctKeys) {c : Call} :
    c ∈ o.calls ↔ (∃ key, o.Invokes key c) ∨
      ∃ segment child, o.child? segment = some child ∧ c ∈ child.calls := by
  cases hk with
  | @list type items h =>
    rw [calls, mem_itemCalls_iff]
    constructor
    · rintro ⟨o, ho, h⟩
      obtain ⟨i, hi⟩ := List.getElem?_of_mem ho
      exact .inr ⟨.index i, o, hi, h⟩
    · rintro (⟨key, ⟨⟩⟩ | ⟨segment, o, hs, h⟩)
      obtain ⟨i, rfl, hi⟩ := child?_list_eq_some_iff.1 hs
      exact ⟨o, List.mem_of_getElem? hi, h⟩
  | @object type name fields hn h =>
    rw [calls, mem_fieldCalls_iff]
    constructor
    · rintro ⟨key, call?, o, hm, rfl | h⟩
      · exact .inl ⟨key, .field hm⟩
      · exact .inr ⟨.field key, o, (child?_object_eq_some_iff hn).2 ⟨key, call?, rfl, hm⟩, h⟩
    · rintro (⟨key, ⟨hm⟩⟩ | ⟨segment, o, hs, h⟩)
      · exact ⟨key, some c, _, hm, .inl rfl⟩
      · obtain ⟨key, call?, rfl, hm⟩ := (child?_object_eq_some_iff hn).1 hs
        exact ⟨key, call?, o, hm, .inr h⟩
  | _ =>
    constructor
    · intro h
      cases h
    · rintro (⟨key, ⟨⟩⟩ | ⟨segment, o, hs, h⟩)
      simp [child?] at hs

/-- **The calls are those that were made for the fields of objects.** -/
theorem mem_calls_iff {o : Outcome} (hk : o.DistinctKeys) {c : Call} :
    c ∈ o.calls ↔ ∃ p o' key, o.at? p = some o' ∧ o'.Invokes key c := by
  constructor
  · intro h
    induction hk using DistinctKeys.induction_below with
    | step o hk ih =>
      rcases (mem_calls_iff_child hk).1 h with ⟨key, hi⟩ | ⟨segment, child, hc, h⟩
      · exact ⟨[], o, key, rfl, hi⟩
      · obtain ⟨p, o', key, ha, hi⟩ := ih segment child hc h
        exact ⟨segment :: p, o', key, at?_cons_eq_some_iff.2 ⟨child, hc, ha⟩, hi⟩
  · rintro ⟨p, o', key, ha, hi⟩
    induction p generalizing o with
    | nil =>
      simp only [at?_nil, Option.some.injEq] at ha
      subst ha
      exact (mem_calls_iff_child hk).2 (.inl ⟨key, hi⟩)
    | cons segment p ih =>
      obtain ⟨child, hc, ha⟩ := at?_cons_eq_some_iff.1 ha
      exact (mem_calls_iff_child hk).2 (.inr ⟨segment, child, hc, ih (hk.child hc) ha⟩)

/-- Every call is one for the position of its field. -/
def CallsInPlace (o : Outcome) (path : Path) : Prop :=
  ∀ p o' key c, o.at? p = some o' → o'.Invokes key c → c.path = (path ++ p).field key

theorem CallsInPlace.child {o child : Outcome} {path : Path} (h : o.CallsInPlace path)
    {segment : PathSegment} (hc : o.child? segment = some child) :
    child.CallsInPlace (path ++ [segment]) := by
  intro p o' key c ha hi
  rw [List.append_assoc, List.singleton_append]
  exact h _ o' key c (at?_cons_eq_some_iff.2 ⟨child, hc, ha⟩) hi

/-- The field of a call lies below the position that it was made below. -/
theorem CallsInPlace.exists_path_eq {o : Outcome} {path : Path} (h : o.CallsInPlace path)
    (hk : o.DistinctKeys) {c : Call} (hc : c ∈ o.calls) :
    ∃ p key, c.path = (path ++ p).field key := by
  obtain ⟨p, o', key, ha, hi⟩ := (mem_calls_iff hk).1 hc
  exact ⟨p, key, h p o' key c ha hi⟩

theorem pairwise_itemCalls {items : List Outcome} {path : Path} {i : Nat}
    (h : ∀ (j : Nat) o, items[j]? = some o → o.calls.Pairwise (fun a b => a.path ≠ b.path) ∧
      ∀ c ∈ o.calls, path.index (i + j) <+: c.path) :
    (itemCalls items).Pairwise fun a b => a.path ≠ b.path := by
  induction items generalizing i with
  | nil => exact .nil
  | cons o rest ih =>
    rw [itemCalls, List.pairwise_append]
    refine ⟨(h 0 o rfl).1, ?_, ?_⟩
    · refine ih (i := i + 1) ?_
      intro j o' hj
      rw [Nat.add_right_comm, Nat.add_assoc]
      exact h (j + 1) o' hj
    · intro a ha b hb
      obtain ⟨o', ho', hb⟩ := mem_itemCalls_iff.1 hb
      obtain ⟨j, hj⟩ := List.getElem?_of_mem ho'
      have hpa := (h 0 o rfl).2 a ha
      have hpb := (h (j + 1) o' hj).2 b hb
      exact (Path.apart_of_ne (by simp) hpa hpb).ne

theorem pairwise_fieldCalls {fields : Fields} (path : Path) (hn : (Keyed.keys fields).Nodup)
    (h : ∀ key call? o, (key, call?, o) ∈ fields →
      (call?.toList ++ o.calls).Pairwise (fun a b => a.path ≠ b.path) ∧
        ∀ c ∈ call?.toList ++ o.calls, path.field key <+: c.path) :
    (fieldCalls fields).Pairwise fun a b => a.path ≠ b.path := by
  induction fields with
  | nil => exact .nil
  | cons f rest ih =>
    obtain ⟨key, call?, o⟩ := f
    simp only [Keyed.keys, List.map_cons, List.nodup_cons] at hn
    obtain ⟨hpairwise, hbelow⟩ := h key call? o List.mem_cons_self
    rw [fieldCalls, List.pairwise_append]
    refine ⟨hpairwise, ?_, ?_⟩
    · exact ih hn.2 fun key call? o ho => h key call? o (List.mem_cons_of_mem _ ho)
    · intro a ha b hb
      obtain ⟨key', call?', o', hm, hb⟩ := mem_fieldCalls_iff.1 hb
      have hb : b ∈ call?'.toList ++ o'.calls := by
        rw [List.mem_append, Option.mem_toList]
        exact hb
      have hpb := (h key' call?' o' (List.mem_cons_of_mem _ hm)).2 b hb
      refine (Path.apart_of_ne ?_ (hbelow a ha) hpb).ne
      simp only [ne_eq, PathSegment.field.injEq]
      rintro rfl
      exact hn.1 (List.mem_map_of_mem (f := Prod.fst) hm)

/-- **No two calls are for the same position.** -/
theorem pairwise_calls {o : Outcome} (hk : o.DistinctKeys) {path : Path}
    (h : o.CallsInPlace path) : o.calls.Pairwise fun a b => a.path ≠ b.path := by
  induction hk generalizing path with
  | @list type items hi ih =>
    have hitem : ∀ (j : Nat) o, items[j]? = some o →
        o.calls.Pairwise (fun a b => a.path ≠ b.path) ∧
          ∀ c ∈ o.calls, path.index (0 + j) <+: c.path := by
      intro j o hj
      have ho := List.mem_of_getElem? hj
      have hget : (list type items).child? (.index j) = some o := hj
      have hchild : o.CallsInPlace (path.index j) := h.child hget
      refine ⟨ih o ho hchild, ?_⟩
      intro c hc
      rw [Nat.zero_add]
      obtain ⟨p, key, hp⟩ := hchild.exists_path_eq (hi o ho) hc
      exact ⟨p ++ [.field key], by rw [hp, ← List.append_assoc]; rfl⟩
    exact pairwise_itemCalls hitem
  | @object type name fields hn hf ih =>
    refine pairwise_fieldCalls path hn ?_
    intro key call? o ho
    have hget : (object type name fields).child? (.field key) = some o :=
      (child?_object_eq_some_iff hn).2 ⟨key, call?, rfl, ho⟩
    have hchild : o.CallsInPlace (path.field key) := h.child hget
    have hbelow : ∀ c ∈ o.calls, ∃ p key', c.path = (path.field key ++ p).field key' :=
      fun c hc => hchild.exists_path_eq (hf key call? o ho) hc
    -- The call for the field itself is at the position, those below it are further down.
    have hown : ∀ c, call? = some c → c.path = path.field key := by
      rintro c rfl
      simpa using h [] _ key c rfl (.field ho)
    refine ⟨?_, ?_⟩
    · rw [List.pairwise_append]
      refine ⟨?_, ih key call? o ho hchild, ?_⟩
      · cases call? <;> simp
      · intro a ha b hb
        obtain ⟨p, key', hp⟩ := hbelow b hb
        rw [hown a (Option.mem_toList.1 ha), hp]
        intro heq
        have hlength := congrArg List.length heq
        simp [Path.field] at hlength
    · intro c hc
      rcases List.mem_append.1 hc with hc | hc
      · rw [hown c (Option.mem_toList.1 hc)]
      · obtain ⟨p, key', hp⟩ := hbelow c hc
        exact ⟨p ++ [.field key'], by rw [hp, ← List.append_assoc]; rfl⟩
  | _ => exact .nil

end Outcome

end GraphQL
