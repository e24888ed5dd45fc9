import GraphQL.Proofs.NullPropagation
import Mathlib.Data.List.Induction
import Mathlib.Data.Option.Basic

/-!
# Outcomes that agree on part of their positions

Two outcomes agree on a set of positions, closed upwards, if each of the positions came out alike in
both or was reached in neither (`Outcome.Agree`). Then they record the same errors there
(`Agree.mem_errors_iff`), and their results are alike there, unless something at or above a position
is `null` because of an error outside of the set (`Agree.data`).
-/

namespace GraphQL

theorem none_or_some_of_rel {α β : Type} {r : α → β → Prop} {a? : Option α} {b? : Option β}
    (h : Option.Rel r a? b?) :
    (a? = none ∧ b? = none) ∨ ∃ a b, a? = some a ∧ b? = some b ∧ r a b := by
  cases h with
  | none => exact .inl ⟨rfl, rfl⟩
  | some h => exact .inr ⟨_, _, rfl, rfl, h⟩

/-! ## Alike at one position -/

/-- Two values are alike, what they hold aside: the same leaf, lists of the same length, objects
with the same keys. -/
inductive Value.Alike : Value → Value → Prop where
  | null : Alike .null .null
  | scalar {x} : Alike (.scalar x) (.scalar x)
  | list {xs ys} (h : xs.length = ys.length) : Alike (.list xs) (.list ys)
  | object {xs ys} (h : Keyed.keys xs = Keyed.keys ys) : Alike (.object xs) (.object ys)

namespace Value

theorem Alike.refl (v : Value) : v.Alike v := by
  cases v with
  | null => exact .null
  | scalar x => exact .scalar
  | list xs => exact .list rfl
  | object xs => exact .object rfl

theorem at?_concat (v : Value) (p : Path) (segment : PathSegment) :
    v.at? (p ++ [segment]) = (v.at? p).bind (·.child? segment) := by
  rw [at?_append]
  congr 1
  funext w
  rw [at?]
  cases w.child? segment <;> rfl

end Value

namespace Outcome

theorem at?_concat (o : Outcome) (p : Path) (segment : PathSegment) :
    o.at? (p ++ [segment]) = (o.at? p).bind (·.child? segment) := by
  induction p generalizing o with
  | nil =>
    simp only [List.nil_append, at?, Option.bind_some]
    cases o.child? segment <;> rfl
  | cons first p ih =>
    rw [List.cons_append, at?, at?]
    cases o.child? first with
    | none => rfl
    | some child => exact ih child

theorem exists_list_of_completion {type : TypeRef} {items : List Outcome} {v : Value}
    (hv : (list type items).completion = some v) (hne : v ≠ .null) :
    ∃ vs, values? items = some vs ∧ v = .list vs := by
  rw [completion] at hv
  have hv := ((TypeRef.eq_or_of_settled_eq_some hv).resolve_right fun h => hne h.1).1
  obtain ⟨vs, hvs, heq⟩ := Option.map_eq_some_iff.1 hv
  exact ⟨vs, hvs, heq.symm⟩

theorem exists_entries_of_completion {type : TypeRef} {name : String} {fields : Fields}
    {v : Value} (hv : (object type name fields).completion = some v) (hne : v ≠ .null) :
    ∃ entries, entries? fields = some entries ∧ v = .object entries := by
  rw [completion] at hv
  have hv := ((TypeRef.eq_or_of_settled_eq_some hv).resolve_right fun h => hne h.1).1
  obtain ⟨entries, he, heq⟩ := Option.map_eq_some_iff.1 hv
  exact ⟨entries, he, heq.symm⟩

theorem IsPlainNull.eq_null {o : Outcome} {v : Value} (hn : o.IsPlainNull)
    (hv : o.completion = some v) : v = .null := by
  have settled : ∀ type : TypeRef, type.settled (some .null) = some v → v = .null := by
    intro type hv
    rcases TypeRef.eq_or_of_settled_eq_some hv with ⟨heq, -⟩ | ⟨heq, -⟩
    · exact (Option.some.inj heq).symm
    · exact heq
  rcases hn with ⟨type, rfl⟩ | ⟨type, rfl⟩
  · exact settled type hv
  · exact settled type hv

/-- Two positions came out alike, what lies below them aside. -/
inductive Alike : Outcome → Outcome → Prop where
  | same {o} : Alike o o
  | list {type items items'} (h : items.length = items'.length) :
    Alike (.list type items) (.list type items')
  | object {type name fields fields'} (h : Keyed.keys fields = Keyed.keys fields') :
    Alike (.object type name fields) (.object type name fields')

namespace Alike

variable {o o' : Outcome}

theorem symm (h : o.Alike o') : o'.Alike o := by
  cases h with
  | same => exact .same
  | list h => exact .list h.symm
  | object h => exact .object h.symm

theorem isNullable_eq (h : o.Alike o') : o.isNullable = o'.isNullable := by
  cases h <;> rfl

theorem error?_eq (h : o.Alike o') : o.error? = o'.error? := by
  cases h <;> rfl

theorem isPlainNull (h : o.Alike o') (hn : o.IsPlainNull) : o'.IsPlainNull := by
  cases h with
  | same => exact hn
  | list => rcases hn with ⟨_, hn⟩ | ⟨_, hn⟩ <;> nomatch hn
  | object => rcases hn with ⟨_, hn⟩ | ⟨_, hn⟩ <;> nomatch hn

section Results

variable {v v' : Value}

/-- The results of positions that came out alike are alike, unless one is `null`. -/
theorem value (h : o.Alike o') (hv : o.completion = some v) (hv' : o'.completion = some v')
    (hne : v ≠ .null) (hne' : v' ≠ .null) : v.Alike v' := by
  cases h with
  | same =>
    rw [hv, Option.some.injEq] at hv'
    exact hv' ▸ Value.Alike.refl v
  | list h =>
    obtain ⟨vs, hvs, rfl⟩ := exists_list_of_completion hv hne
    obtain ⟨vs', hvs', rfl⟩ := exists_list_of_completion hv' hne'
    refine .list ?_
    rw [length_of_values? hvs, length_of_values? hvs', h]
  | object h =>
    obtain ⟨entries, he, rfl⟩ := exists_entries_of_completion hv hne
    obtain ⟨entries', he', rfl⟩ := exists_entries_of_completion hv' hne'
    refine .object ?_
    rw [keys_of_entries? he, keys_of_entries? he', h]

/-- Where nothing was reached below positions that came out alike, their results hold the same: what
is inside a leaf, or nothing. -/
theorem child?_eq (h : o.Alike o') (hv : o.completion = some v) (hv' : o'.completion = some v')
    (hne : v ≠ .null) (hne' : v' ≠ .null) {segment : PathSegment}
    (hc : o.child? segment = none) : v.child? segment = v'.child? segment := by
  cases h with
  | same =>
    rw [hv, Option.some.injEq] at hv'
    rw [hv']
  | list h =>
    obtain ⟨vs, hvs, rfl⟩ := exists_list_of_completion hv hne
    obtain ⟨vs', hvs', rfl⟩ := exists_list_of_completion hv' hne'
    cases segment with
    | field key => rfl
    | index i =>
      have hlen := length_of_values? hvs
      have hlen' := length_of_values? hvs'
      have hi := List.getElem?_eq_none_iff.1 hc
      have hnone : vs[i]? = none := List.getElem?_eq_none_iff.2 (by omega)
      have hnone' : vs'[i]? = none := List.getElem?_eq_none_iff.2 (by omega)
      rw [Value.child?, Value.child?, hnone, hnone']
  | object h =>
    obtain ⟨entries, he, rfl⟩ := exists_entries_of_completion hv hne
    obtain ⟨entries', he', rfl⟩ := exists_entries_of_completion hv' hne'
    cases segment with
    | index i => rfl
    | field key =>
      have hk := Keyed.get?_eq_none_iff.1 (Option.map_eq_none_iff.1 hc)
      have hnone : Keyed.get? entries key = none := by
        rw [Keyed.get?_eq_none_iff, keys_of_entries? he]
        exact hk
      have hnone' : Keyed.get? entries' key = none := by
        rw [Keyed.get?_eq_none_iff, keys_of_entries? he', ← h]
        exact hk
      rw [Value.child?, Value.child?, hnone, hnone']

end Results

end Alike

/-! ## Alike at all positions below -/

theorem rel_of_eq {o o' : Outcome} (h : o = o') (p : Path) :
    Option.Rel Alike (o.at? p) (o'.at? p) := by
  subst h
  cases o.at? p with
  | none => exact .none
  | some oc => exact .some .same

/-- Lists of the same length come out alike at a position if their items do. -/
theorem rel_list {type : TypeRef} {items items' : List Outcome}
    (hl : items.length = items'.length) {p : Path}
    (h : ∀ i q o o', p = .index i :: q → items[i]? = some o → items'[i]? = some o' →
      Option.Rel Alike (o.at? q) (o'.at? q)) :
    Option.Rel Alike ((list type items).at? p) ((list type items').at? p) := by
  cases p with
  | nil => exact .some (.list hl)
  | cons segment q =>
    cases segment with
    | field key => exact .none
    | index i =>
      rw [at?, at?, child?, child?]
      by_cases hi : i < items.length
      · have ho : items[i]? = some items[i] := List.getElem?_eq_getElem hi
        have ho' : items'[i]? = some items'[i] := List.getElem?_eq_getElem (hl ▸ hi)
        rw [ho, ho']
        exact h i q _ _ rfl ho ho'
      · have hi' : ¬ i < items'.length := by omega
        rw [List.getElem?_eq_none (by omega), List.getElem?_eq_none (by omega)]
        exact .none

/-- Objects with the same keys come out alike at a position if their fields do. -/
theorem rel_object {type : TypeRef} {name : String} {fields fields' : Fields}
    (hk : Keyed.keys fields = Keyed.keys fields') {p : Path}
    (h : ∀ key q f f', p = .field key :: q → Keyed.get? fields key = some f →
      Keyed.get? fields' key = some f' → Option.Rel Alike (f.2.at? q) (f'.2.at? q)) :
    Option.Rel Alike ((object type name fields).at? p) ((object type name fields').at? p) := by
  cases p with
  | nil => exact .some (.object hk)
  | cons segment q =>
    cases segment with
    | index i => exact .none
    | field key =>
      rw [at?, at?, child?, child?]
      cases hf : Keyed.get? fields key with
      | none =>
        have hkey : key ∉ Keyed.keys fields' := hk ▸ Keyed.get?_eq_none_iff.1 hf
        rw [Keyed.get?_eq_none_iff.2 hkey]
        exact .none
      | some f =>
        cases hf' : Keyed.get? fields' key with
        | none =>
          have hkey : key ∉ Keyed.keys fields := hk ▸ Keyed.get?_eq_none_iff.1 hf'
          rw [Keyed.get?_eq_none_iff.2 hkey] at hf
          cases hf
        | some f' => exact h key q f f' rfl hf hf'

/-! ## Agreement -/

/-- Each of the positions came out alike in both outcomes, or was reached in neither. With a
position, those above it belong to them. -/
structure Agree (free : Path → Prop) (o o' : Outcome) : Prop where
  closed : ∀ {p q}, q <+: p → free p → free q
  alike : ∀ {p}, free p → Option.Rel Alike (o.at? p) (o'.at? p)

/-- A position is `null` because of an error that is not at one of the positions. -/
def Nulled (free : Path → Prop) (o : Outcome) (v : Value) (p : Path) : Prop :=
  v.at? p = some .null ∧ ∃ e ∈ o.errors [], ¬ free e.path ∧ o.ClosestNullable e.path p

/-- Two results are alike at a position, and the same where the outcome did not reach it. -/
structure Matches (o : Outcome) (v v' : Value) (p : Path) : Prop where
  same : o.at? p = none → v.at? p = v'.at? p
  alike : Option.Rel Value.Alike (v.at? p) (v'.at? p)

theorem Matches.of_eq {o : Outcome} {v v' : Value} {p : Path} (h : v.at? p = v'.at? p) :
    Matches o v v' p := by
  refine ⟨fun _ => h, ?_⟩
  rw [h]
  cases v'.at? p with
  | none => exact .none
  | some w => exact .some (Value.Alike.refl w)

theorem ClosestNullable.unique {o : Outcome} {p a b : Path} (ha : o.ClosestNullable p a)
    (hb : o.ClosestNullable p b) : a = b := by
  have hle := ha.longest b hb.above hb.nullable
  have hle' := hb.longest a ha.above ha.nullable
  have hprefix := List.prefix_of_prefix_length_le ha.above hb.above hle'
  exact hprefix.eq_of_length (by omega)

namespace Agree

variable {free : Path → Prop} {o o' : Outcome} {p : Path}

theorem symm (h : Agree free o o') : Agree free o' o := by
  refine ⟨h.closed, ?_⟩
  intro p hp
  rcases none_or_some_of_rel (h.alike hp) with ⟨ha, ha'⟩ | ⟨oc, oc', ha, ha', halike⟩
  · rw [ha, ha']
    exact .none
  · rw [ha, ha']
    exact .some halike.symm

/-- What was reached at one of the positions was reached in the other outcome, and came out
alike. -/
theorem exists_at? (h : Agree free o o') (hp : free p) {oc : Outcome} (ha : o.at? p = some oc) :
    ∃ oc', o'.at? p = some oc' ∧ oc.Alike oc' := by
  rcases none_or_some_of_rel (h.alike hp) with ⟨hnone, -⟩ | ⟨oc₁, oc', ha₁, ha', halike⟩
  · rw [ha] at hnone
    nomatch hnone
  · rw [ha, Option.some.injEq] at ha₁
    exact ⟨oc', ha', ha₁ ▸ halike⟩

theorem nullableAt (h : Agree free o o') (hp : free p) (hn : o.NullableAt p) :
    o'.NullableAt p := by
  obtain ⟨oc, ha, hn⟩ := hn
  obtain ⟨oc', ha', halike⟩ := h.exists_at? hp ha
  exact ⟨oc', ha', halike.isNullable_eq ▸ hn⟩

theorem closestNullable (h : Agree free o o') (hp : free p) {a : Path}
    (ha : o.ClosestNullable p a) : o'.ClosestNullable p a := by
  refine ⟨ha.above, h.nullableAt (h.closed ha.above hp) ha.nullable, ?_⟩
  intro b hb hn
  exact ha.longest b hb (h.symm.nullableAt (h.closed hb hp) hn)

section Errors

variable (hk : o.DistinctKeys) (hk' : o'.DistinctKeys)

include hk hk'

theorem mem_errors (h : Agree free o o') {e : LocatedError} (hp : free e.path)
    (he : e ∈ o.errors []) : e ∈ o'.errors [] := by
  obtain ⟨p, oc, hpath, ha, herror⟩ := (mem_errors_iff hk).1 he
  rw [List.nil_append] at hpath
  obtain ⟨oc', ha', halike⟩ := h.exists_at? (hpath ▸ hp) ha
  refine (mem_errors_iff hk').2 ⟨p, oc', hpath, ha', ?_⟩
  rw [← halike.error?_eq, herror]

/-- Outcomes record the same errors at the positions on which they agree. -/
theorem mem_errors_iff_mem (h : Agree free o o') {e : LocatedError} (hp : free e.path) :
    e ∈ o.errors [] ↔ e ∈ o'.errors [] :=
  ⟨h.mem_errors hk hk' hp, h.symm.mem_errors hk' hk hp⟩

/-! ## Results agree -/

variable {v v' : Value} (hv : o.completion = some v) (hv' : o'.completion = some v')

include hv hv'

/-- A position that is `null` in one result is so in the other, if it is there and the `null` is not
due to an error elsewhere. -/
theorem eq_null (h : Agree free o o') (hp : free p) {oc : Outcome} (ha : o.at? p = some oc)
    (hnull : v.at? p = some .null) (hclean : ¬ Nulled free o v p) {w : Value}
    (hw : v'.at? p = some w) : w = .null := by
  obtain ⟨oc', ha', halike⟩ := h.exists_at? hp ha
  have hcompletion := completion_of_at? hv' ha' hw
  obtain ⟨-, hplain | ⟨e, he, hclosest⟩⟩ := isPlainNull_or_closest hk hv ha hnull
  · exact (halike.isPlainNull hplain).eq_null hcompletion
  · have hpe : free e.path := by
      by_contra hpe
      exact hclean ⟨hnull, e, he, hpe, hclosest⟩
    -- the other outcome has the error too, and it is closest to the same position
    have he' := h.mem_errors hk hk' hpe he
    obtain ⟨q, oe, hpath, hae, herror⟩ := (mem_errors_iff hk').1 he'
    rw [List.nil_append] at hpath
    obtain ⟨a, hclosest', b, hb, hat⟩ := null_at_or_above_closest hv' hae (by simp [herror])
    rw [← hpath] at hclosest'
    obtain rfl := hclosest'.unique (h.closestNullable hpe hclosest)
    obtain ⟨r, rfl⟩ := hb
    rw [Value.at?_append, hat, Option.bind_some] at hw
    cases r with
    | nil => exact (Option.some.inj hw).symm
    | cons segment r => nomatch hw

/-- What the results hold at a position that was reached is alike. -/
theorem alike_of_at? (h : Agree free o o') (hp : free p) {oc : Outcome} (ha : o.at? p = some oc)
    {w w' : Value} (hw : v.at? p = some w) (hw' : v'.at? p = some w')
    (hclean : ¬ Nulled free o v p) (hclean' : ¬ Nulled free o' v' p) : w.Alike w' := by
  obtain ⟨oc', ha', halike⟩ := h.exists_at? hp ha
  by_cases hn : w = .null
  · subst hn
    rw [h.eq_null hk hk' hv hv' hp ha hw hclean hw']
    exact .null
  · by_cases hn' : w' = .null
    · subst hn'
      exact absurd (h.symm.eq_null hk' hk hv' hv hp ha' hw' hclean' hw) hn
    · exact halike.value (completion_of_at? hv ha hw) (completion_of_at? hv' ha' hw') hn hn'

/-- One segment below results that are there and not `null`, what was reached came out in both. -/
theorem matches_child (h : Agree free o o') {segment : PathSegment} (hp : free (p ++ [segment]))
    {oc : Outcome} (ha : o.at? p = some oc) {w w' : Value} (hw : v.at? p = some w)
    (hw' : v'.at? p = some w') (hn : w ≠ .null) (hn' : w' ≠ .null)
    (hclean : ¬ Nulled free o v (p ++ [segment]))
    (hclean' : ¬ Nulled free o' v' (p ++ [segment])) : Matches o v v' (p ++ [segment]) := by
  obtain ⟨oc', ha', hoc⟩ := h.exists_at? (h.closed (List.prefix_append p [segment]) hp) ha
  have hc := completion_of_at? hv ha hw
  have hc' := completion_of_at? hv' ha' hw'
  have hat : v.at? (p ++ [segment]) = w.child? segment := by
    rw [Value.at?_concat, hw, Option.bind_some]
  have hat' : v'.at? (p ++ [segment]) = w'.child? segment := by
    rw [Value.at?_concat, hw', Option.bind_some]
  cases hchild : oc.child? segment with
  | none =>
    refine .of_eq ?_
    rw [hat, hat', hoc.child?_eq hc hc' hn hn' hchild]
  | some child =>
    have hreached : o.at? (p ++ [segment]) = some child := by
      rw [at?_concat, ha, Option.bind_some, hchild]
    obtain ⟨child', hreached', -⟩ := h.exists_at? hp hreached
    have hchild' : oc'.child? segment = some child' := by
      rwa [at?_concat, ha', Option.bind_some] at hreached'
    obtain ⟨x, -, hx⟩ := exists_child_of_completion hc hn hchild
    obtain ⟨x', -, hx'⟩ := exists_child_of_completion hc' hn' hchild'
    have halike := h.alike_of_at? hk hk' hv hv' hp hreached (hat.trans hx) (hat'.trans hx')
      hclean hclean'
    constructor
    · intro hnone
      rw [hreached] at hnone
      nomatch hnone
    · rw [hat, hat', hx, hx']
      exact .some halike

/-- The results match at a position if no error elsewhere makes it or one above it `null`. -/
theorem matches_of_clean (h : Agree free o o') (hp : free p)
    (hclean : ∀ b, b <+: p → ¬ Nulled free o v b ∧ ¬ Nulled free o' v' b) :
    Matches o v v' p := by
  induction p using List.reverseRecOn with
  | nil =>
    obtain ⟨hc, hc'⟩ := hclean [] (List.prefix_refl _)
    exact ⟨nofun, .some (h.alike_of_at? hk hk' hv hv' hp (at?_nil o) rfl rfl hc hc')⟩
  | append_singleton p segment ih =>
    have hprefix : p <+: p ++ [segment] := List.prefix_append p [segment]
    have hm := ih (h.closed hprefix hp) fun b hb => hclean b (hb.trans hprefix)
    cases ha : o.at? p with
    | none =>
      refine .of_eq ?_
      rw [Value.at?_append, Value.at?_append, hm.same ha]
    | some oc =>
      rcases none_or_some_of_rel hm.alike with ⟨hw, hw'⟩ | ⟨w, w', hw, hw', hww⟩
      · refine .of_eq ?_
        rw [Value.at?_concat, Value.at?_concat, hw, hw']
      · obtain ⟨hclean₀, hclean₀'⟩ := hclean _ (List.prefix_refl _)
        have below := h.matches_child hk hk' hv hv' hp ha hw hw'
        cases hww with
        | null =>
          -- there is nothing below `null`
          refine .of_eq ?_
          rw [Value.at?_concat, Value.at?_concat, hw, hw']
        | scalar => exact below nofun nofun hclean₀ hclean₀'
        | list => exact below nofun nofun hclean₀ hclean₀'
        | object => exact below nofun nofun hclean₀ hclean₀'

/-- **The results of outcomes that agree are alike where they agree**, unless a position or one
above it is `null` because of an error elsewhere. -/
theorem data (h : Agree free o o') (hp : free p) :
    Option.Rel Value.Alike (v.at? p) (v'.at? p) ∨
      ∃ b, b <+: p ∧ (Nulled free o v b ∨ Nulled free o' v' b) := by
  by_cases hnulled : ∃ b, b <+: p ∧ (Nulled free o v b ∨ Nulled free o' v' b)
  · exact .inr hnulled
  · refine .inl (h.matches_of_clean hk hk' hv hv' hp ?_).alike
    intro b hb
    constructor
    · intro hn
      exact hnulled ⟨b, hb, .inl hn⟩
    · intro hn
      exact hnulled ⟨b, hb, .inr hn⟩

end Errors

end Agree

end Outcome

end GraphQL
