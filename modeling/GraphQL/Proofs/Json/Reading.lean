import GraphQL.Json.Reader
import GraphQL.Proofs.Json.Documents

/-!
# Reading without objects

A reader that refuses objects stops at the first one, before it looks at what follows. Still it
reads exactly the documents without objects that the reader of all documents reads
(`Json.refusesObjects_read`). What readers do is told by `Json.Reads`, which forgets the proof that
less of the text is left; for each way of building readers there is one equivalence.
-/

namespace GraphQL.Json

variable {α : Type}

/-- The reader reads something from the front of the text and leaves the rest. -/
def Reads (reader : Reader α) (s : List Char) (a : α) (rest : List Char) : Prop :=
  ∃ h, reader s = .ok (a, ⟨rest, h⟩)

/-- The first reader reads what the second does and what has the property besides. -/
def Narrows (P : α → Prop) (narrow wide : Reader α) : Prop :=
  ∀ s a rest, Reads narrow s a rest ↔ Reads wide s a rest ∧ P a

theorem Reads.length_lt {reader : Reader α} {s : List Char} {a : α} {rest : List Char}
    (h : Reads reader s a rest) : rest.length < s.length :=
  h.elim fun hlt _ => hlt

theorem not_reads_of_eq_error {reader : Reader α} {s : List Char} {e : ReadError}
    (h : reader s = .error e) {a : α} {rest : List Char} : ¬ Reads reader s a rest := by
  rintro ⟨_, hok⟩
  rw [h] at hok
  cases hok

/-! ## How readers are built -/

theorem reads_spaced_iff {reader : Reader α} {s : List Char} {a : α} {rest : List Char} :
    Reads (spaced reader) s a rest ↔ Reads reader (skipSpace s) a rest := by
  unfold Reads spaced
  cases h : reader (skipSpace s) with
  | error e => simp
  | ok r =>
    obtain ⟨b, rest', hlt⟩ := r
    have hle := length_skipSpace_le s
    constructor
    · rintro ⟨_, heq⟩
      cases heq
      exact ⟨hlt, rfl⟩
    · rintro ⟨_, heq⟩
      cases heq
      exact ⟨Nat.lt_of_lt_of_le hlt hle, rfl⟩

theorem reads_items_iff {item : Reader α} {close : Char} {s : List Char} {items : List α}
    {rest : List Char} :
    Reads (readItems item close) s items rest ↔ ∃ a left c after, Reads item s a left ∧
      skipSpace left = c :: after ∧
        if c = close then items = [a] ∧ rest = after
        else c = ',' ∧ ∃ items', Reads (readItems item close) after items' rest ∧
          items = a :: items' := by
  constructor
  · rintro ⟨hlt, h⟩
    rw [readItems] at h
    split at h
    · cases h
    · next a left hleft hitem =>
      refine ⟨a, left, ?_⟩
      split at h
      · cases h
      · next c after hs =>
        refine ⟨c, after, ⟨hleft, hitem⟩, hs, ?_⟩
        split at h
        · next hc =>
          cases h
          rw [if_pos hc]
          exact ⟨rfl, rfl⟩
        · next hc =>
          rw [if_neg hc]
          split at h
          · next hcomma =>
            split at h
            · cases h
            · next items' rest' hr hitems =>
              cases h
              exact ⟨hcomma, items', ⟨hr, hitems⟩, rfl⟩
          · cases h
  · rintro ⟨a, left, c, after, ⟨hleft, hitem⟩, hs, h⟩
    have hafter : after.length < s.length := by
      have hle := length_skipSpace_le left
      rw [hs, List.length_cons] at hle
      omega
    unfold Reads
    rw [readItems, hitem]
    dsimp only
    split
    · next hnil =>
      rw [hs] at hnil
      cases hnil
    · next c' after' hcons =>
      rw [hs] at hcons
      obtain ⟨rfl, rfl⟩ := List.cons.inj hcons
      by_cases hc : c = close
      · rw [if_pos hc] at h ⊢
        obtain ⟨rfl, rfl⟩ := h
        exact ⟨hafter, rfl⟩
      · rw [if_neg hc] at h ⊢
        obtain ⟨hcomma, items', ⟨hlt, hitems⟩, rfl⟩ := h
        rw [if_pos hcomma, hitems]
        exact ⟨Nat.lt_trans hlt hafter, rfl⟩

theorem reads_bracketed_iff {item : Reader α} {close : Char} {s : List Char} {items : List α}
    {rest : List Char} :
    Reads (readBracketed item close) s items rest ↔ ∃ c after, skipSpace s = c :: after ∧
      if c = close then items = [] ∧ rest = after
      else Reads (readItems item close) s items rest := by
  unfold Reads readBracketed
  constructor
  · rintro ⟨hlt, h⟩
    split at h
    · cases h
    · next c after hs =>
      refine ⟨c, after, hs, ?_⟩
      split at h
      · next hc =>
        cases h
        rw [if_pos hc]
        exact ⟨rfl, rfl⟩
      · next hc =>
        rw [if_neg hc]
        exact ⟨hlt, h⟩
  · rintro ⟨c, after, hs, h⟩
    split
    · next hnil =>
      rw [hs] at hnil
      cases hnil
    · next c' after' hcons =>
      rw [hs] at hcons
      obtain ⟨rfl, rfl⟩ := List.cons.inj hcons
      by_cases hc : c = close
      · rw [if_pos hc] at h ⊢
        obtain ⟨rfl, rfl⟩ := h
        have hle := length_skipSpace_le s
        rw [hs, List.length_cons] at hle
        exact ⟨by omega, rfl⟩
      · rw [if_neg hc] at h ⊢
        exact h

/-! ## Narrowing is kept -/

namespace Narrows

variable {P : α → Prop} {narrow wide : Reader α}

theorem spaced (h : Narrows P narrow wide) : Narrows P (spaced narrow) (spaced wide) := by
  intro s a rest
  rw [reads_spaced_iff, reads_spaced_iff]
  exact h _ a rest

/-- Items are read one after the other, so as far as they have the property. -/
theorem items (h : Narrows P narrow wide) (close : Char) :
    Narrows (∀ a ∈ ·, P a) (readItems narrow close) (readItems wide close) := by
  intro s
  -- on how much is left of the text, for the items behind a comma come from a shorter one
  induction hn : s.length using Nat.strongRecOn generalizing s with
  | _ n ih =>
    intro items rest
    have hafter : ∀ {a : α} {left after : List Char} {c : Char}, Reads wide s a left →
        skipSpace left = c :: after → ∀ items rest, Reads (readItems narrow close) after items rest ↔
          Reads (readItems wide close) after items rest ∧ ∀ a ∈ items, P a := by
      intro a left after c hitem hs
      have hle := length_skipSpace_le left
      have hlt := hitem.length_lt
      rw [hs, List.length_cons] at hle
      exact ih after.length (by omega) after rfl
    rw [reads_items_iff, reads_items_iff]
    constructor
    · rintro ⟨a, left, c, after, hitem, hs, hrest⟩
      obtain ⟨hitem, hP⟩ := (h s a left).1 hitem
      split at hrest
      · next hc =>
        obtain ⟨rfl, rfl⟩ := hrest
        refine ⟨⟨a, left, c, _, hitem, hs, ?_⟩, by simpa using hP⟩
        rw [if_pos hc]
        exact ⟨rfl, rfl⟩
      · next hc =>
        obtain ⟨hcomma, items', hitems, rfl⟩ := hrest
        obtain ⟨hitems, hPs⟩ := (hafter hitem hs items' rest).1 hitems
        refine ⟨⟨a, left, c, after, hitem, hs, ?_⟩, List.forall_mem_cons.2 ⟨hP, hPs⟩⟩
        rw [if_neg hc]
        exact ⟨hcomma, items', hitems, rfl⟩
    · rintro ⟨⟨a, left, c, after, hitem, hs, hrest⟩, hPs⟩
      split at hrest
      · next hc =>
        obtain ⟨rfl, rfl⟩ := hrest
        refine ⟨a, left, c, _, (h s a left).2 ⟨hitem, hPs a List.mem_cons_self⟩, hs, ?_⟩
        rw [if_pos hc]
        exact ⟨rfl, rfl⟩
      · next hc =>
        obtain ⟨hcomma, items', hitems, rfl⟩ := hrest
        obtain ⟨hP, hPs⟩ := List.forall_mem_cons.1 hPs
        refine ⟨a, left, c, after, (h s a left).2 ⟨hitem, hP⟩, hs, ?_⟩
        rw [if_neg hc]
        exact ⟨hcomma, items', (hafter hitem hs items' rest).2 ⟨hitems, hPs⟩, rfl⟩

theorem bracketed (h : Narrows P narrow wide) (close : Char) :
    Narrows (∀ a ∈ ·, P a) (readBracketed narrow close) (readBracketed wide close) := by
  intro s items rest
  rw [reads_bracketed_iff, reads_bracketed_iff]
  constructor
  · rintro ⟨c, after, hs, hrest⟩
    split at hrest
    · next hc =>
      obtain ⟨rfl, rfl⟩ := hrest
      refine ⟨⟨c, _, hs, ?_⟩, by simp⟩
      rw [if_pos hc]
      exact ⟨rfl, rfl⟩
    · next hc =>
      obtain ⟨hitems, hPs⟩ := (h.items close s items rest).1 hrest
      refine ⟨⟨c, after, hs, ?_⟩, hPs⟩
      rwa [if_neg hc]
  · rintro ⟨⟨c, after, hs, hrest⟩, hPs⟩
    refine ⟨c, after, hs, ?_⟩
    split at hrest
    · next hc =>
      rw [if_pos hc]
      exact hrest
    · next hc =>
      rw [if_neg hc]
      exact (h.items close s items rest).2 ⟨hrest, hPs⟩

end Narrows

/-! ## Whole documents -/

theorem behind_eq_ok_iff {c : Char} {s : List Char}
    {r : Except ReadError (α × { rest : List Char // rest.length < s.length })} {a : α}
    {rest : List Char} :
    (∃ h, behind (c := c) r = .ok (a, ⟨rest, h⟩)) ↔ ∃ h, r = .ok (a, ⟨rest, h⟩) := by
  cases r with
  | error e =>
    constructor <;> rintro ⟨_, h⟩ <;> cases h
  | ok r =>
    obtain ⟨b, rest', hlt⟩ := r
    constructor
    · rintro ⟨_, h⟩
      cases h
      exact ⟨hlt, rfl⟩
    · rintro ⟨_, h⟩
      cases h
      exact ⟨Nat.lt_succ_of_lt hlt, rfl⟩

theorem objectFree_of_readWord {s : List Char} {j : Json} {rest : List Char}
    (h : Reads readWord s j rest) : j.ObjectFree := by
  obtain ⟨_, h⟩ := h
  unfold readWord at h
  split at h <;> cases h <;> trivial

theorem objectFree_of_readNumber {s : List Char} {j : Json} {rest : List Char}
    (h : Reads readNumber s j rest) : j.ObjectFree := by
  obtain ⟨_, h⟩ := h
  unfold readNumber at h
  split at h <;> cases h
  trivial

theorem objectFree_of_readLeaf {s : List Char} {j : Json} {rest : List Char}
    (h : Reads readLeaf s j rest) : j.ObjectFree := by
  obtain ⟨hlt, h⟩ := h
  unfold readLeaf at h
  split at h
  · next body =>
    cases hr : readString ('"' :: body) with
    | error e =>
      rw [hr] at h
      cases h
    | ok r =>
      obtain ⟨text, rest', _⟩ := r
      rw [hr] at h
      cases h
      trivial
  · next c s _ =>
    split at h
    · exact objectFree_of_readNumber ⟨hlt, h⟩
    · exact objectFree_of_readWord ⟨hlt, h⟩
  · cases h

section Front

variable {objects : Bool} {inner : Reader Json} {s : List Char} {j : Json} {rest : List Char}

/-- What is neither an array nor an object is read without a reader of what stands inside. -/
theorem readFront_eq_readLeaf {inner? : Option (Reader Json)}
    (h : inner? = none ∨ ∀ t, s ≠ '[' :: t ∧ s ≠ '\x7b' :: t) :
    readFront objects inner? s = readLeaf s := by
  unfold readFront
  split
  · simp_all
  · simp_all
  · rfl

/-- Behind an opening bracket there are the items of an array. -/
theorem reads_array_iff : Reads (readFront objects (some inner)) ('[' :: s) j rest ↔
    ∃ items, Reads (readBracketed inner ']') s items rest ∧ j = .array items := by
  refine behind_eq_ok_iff.trans ?_
  cases hr : readBracketed inner ']' s with
  | error e =>
    constructor
    · rintro ⟨_, h⟩
      cases h
    · rintro ⟨_, h, -⟩
      exact absurd h (not_reads_of_eq_error hr)
  | ok r =>
    obtain ⟨items, rest', hlt⟩ := r
    constructor
    · rintro ⟨_, h⟩
      cases h
      exact ⟨items, ⟨hlt, hr⟩, rfl⟩
    · rintro ⟨items', ⟨_, h⟩, rfl⟩
      rw [hr] at h
      cases h
      exact ⟨hlt, rfl⟩

theorem not_objectFree_of_reads_object
    (h : Reads (readFront true (some inner)) ('\x7b' :: s) j rest) : ¬ j.ObjectFree := by
  obtain ⟨_, h⟩ := behind_eq_ok_iff.1 h
  cases hr : readBracketed (readMember inner) '\x7d' s with
  | error e =>
    rw [hr] at h
    cases h
  | ok r =>
    obtain ⟨members, rest', hlt⟩ := r
    rw [hr] at h
    cases h
    exact id

end Front

/-- What refuses objects inside refuses them here. -/
theorem narrows_readWith {narrow wide : Reader Json} (h : Narrows ObjectFree narrow wide) :
    Narrows ObjectFree (readWith false (some narrow)) (readWith true (some wide)) := by
  refine Narrows.spaced fun s j rest => ?_
  -- the first character decides; only behind a bracket is anything read by the readers given
  by_cases harray : ∃ t, s = '[' :: t
  · obtain ⟨t, rfl⟩ := harray
    rw [reads_array_iff, reads_array_iff]
    constructor
    · rintro ⟨items, hitems, rfl⟩
      obtain ⟨hitems, hfree⟩ := (h.bracketed ']' t items rest).1 hitems
      exact ⟨⟨items, hitems, rfl⟩, objectFreeItems_iff.2 hfree⟩
    · rintro ⟨⟨items, hitems, rfl⟩, hfree⟩
      exact ⟨items, (h.bracketed ']' t items rest).2 ⟨hitems, objectFreeItems_iff.1 hfree⟩, rfl⟩
  by_cases hobject : ∃ t, s = '\x7b' :: t
  · obtain ⟨t, rfl⟩ := hobject
    constructor
    · exact fun hreads => absurd hreads (not_reads_of_eq_error rfl)
    · exact fun hreads => absurd hreads.2 (not_objectFree_of_reads_object hreads.1)
  · have hleaf : ∀ objects inner, Reads (readFront objects (some inner)) s j rest ↔
        Reads readLeaf s j rest := by
      intro objects inner
      unfold Reads
      rw [readFront_eq_readLeaf (.inr fun t => ⟨fun ht => harray ⟨t, ht⟩, fun ht => hobject ⟨t, ht⟩⟩)]
    rw [hleaf, hleaf]
    exact ⟨fun hreads => ⟨hreads, objectFree_of_readLeaf hreads⟩, fun hreads => hreads.1⟩

theorem narrows_readValue (depth : Nat) :
    Narrows ObjectFree (readValue false depth) (readValue true depth) := by
  induction depth with
  | zero =>
    refine Narrows.spaced fun s j rest => ?_
    have hleaf : ∀ objects, Reads (readFront objects none) s j rest ↔ Reads readLeaf s j rest := by
      intro objects
      unfold Reads
      rw [readFront_eq_readLeaf (.inl rfl)]
    rw [hleaf, hleaf]
    exact ⟨fun hreads => ⟨hreads, objectFree_of_readLeaf hreads⟩, fun hreads => hreads.1⟩
  | succ depth ih => exact narrows_readWith ih

theorem read_eq_ok_iff {objects : Bool} {text : String} {j : Json} :
    read objects text = .ok j ↔ ∃ rest, Reads (readValue objects maxDepth) text.toList j rest ∧
      (skipSpace rest).isEmpty := by
  unfold read Reads
  constructor
  · intro h
    split at h
    · cases h
    · next j' rest hlt hread =>
      split at h
      · next hempty =>
        cases h
        exact ⟨rest, ⟨hlt, hread⟩, hempty⟩
      · cases h
  · rintro ⟨rest, ⟨hlt, hread⟩, hempty⟩
    rw [hread]
    exact if_pos hempty

/-- When it is told to refuse objects, the reader reads the documents without objects, and these as
it reads them otherwise. -/
def TextReader.RefusesObjects (reader : TextReader) : Prop :=
  ∀ text j, reader false text = .ok j ↔ reader true text = .ok j ∧ j.ObjectFree

theorem refusesObjects_read : TextReader.RefusesObjects read := by
  intro text j
  rw [read_eq_ok_iff, read_eq_ok_iff]
  constructor
  · rintro ⟨rest, hreads, hempty⟩
    obtain ⟨hreads, hfree⟩ := (narrows_readValue maxDepth _ j rest).1 hreads
    exact ⟨⟨rest, hreads, hempty⟩, hfree⟩
  · rintro ⟨⟨rest, hreads, hempty⟩, hfree⟩
    exact ⟨rest, (narrows_readValue maxDepth _ j rest).2 ⟨hreads, hfree⟩, hempty⟩

end GraphQL.Json
