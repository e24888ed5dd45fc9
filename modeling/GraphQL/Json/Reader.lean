import GraphQL.Decimal.Reader
import GraphQL.Json.Basic
import GraphQL.Text.Basic

/-!
# Reading documents

Reads a document by recursion on how deep arrays and objects may still be nested. Each reader
returns what is left of the text together with the proof that this is shorter, so rows of items end.
A reader may refuse objects; then it stops at the first one, before it looks at the rest of the
text.
-/

namespace GraphQL.Json

/-- Why a text is not read. -/
inductive ReadError where
  | malformed
  /-- There is an object where none may be. -/
  | object
deriving DecidableEq, Repr

/-- Reads something from the front of a text. -/
abbrev Reader (α : Type) :=
  (s : List Char) → Except ReadError (α × { rest : List Char // rest.length < s.length })

/-- The blanks that may stand between the parts of a document. -/
def isSpace (c : Char) : Bool :=
  c == ' ' || c == '\t' || c == '\n' || c == '\r'

/-- The text without the blanks at its front. -/
def skipSpace (s : List Char) : List Char :=
  s.dropWhile isSpace

theorem length_dropWhile_le {α : Type} (p : α → Bool) (l : List α) :
    (l.dropWhile p).length ≤ l.length := by
  induction l with
  | nil => simp
  | cons a l ih =>
    rw [List.dropWhile_cons]
    split
    · simp only [List.length_cons]; omega
    · exact Nat.le_refl _

theorem length_skipSpace_le (s : List Char) : (skipSpace s).length ≤ s.length :=
  length_dropWhile_le isSpace s

/-! ## Strings -/

/-- The character behind a backslash escape of one letter. -/
def unescape? : Char → Option Char
  | '"' => some '"'
  | '\\' => some '\\'
  | '/' => some '/'
  | 'b' => some '\x08'
  | 'f' => some '\x0c'
  | 'n' => some '\n'
  | 'r' => some '\r'
  | 't' => some '\t'
  | _ => none

/-- The character that two halves of a surrogate pair stand for. -/
def pair? (high low : Nat) : Option Char :=
  if 0xD800 ≤ high ∧ high < 0xDC00 ∧ 0xDC00 ≤ low ∧ low < 0xE000 then
    some (Char.ofNat (0x10000 + (high - 0xD800) * 0x400 + (low - 0xDC00)))
  else none

/-- Reads the rest of a string up to its closing quote, and what follows. Half of a surrogate pair
alone is no character. -/
def stringBody? : List Char → Option (List Char × List Char)
  | [] => none
  | '"' :: rest => some ([], rest)
  | '\\' :: 'u' :: a :: b :: c :: d :: rest =>
    match Text.hex4? a b c d with
    | none => none
    | some n =>
      if n < 0xD800 ∨ 0xE000 ≤ n then
        (stringBody? rest).map fun (cs, rest) => (Char.ofNat n :: cs, rest)
      else match rest with
        | '\\' :: 'u' :: a :: b :: c :: d :: rest =>
          match (Text.hex4? a b c d).bind (pair? n) with
          | none => none
          | some ch => (stringBody? rest).map fun (cs, rest) => (ch :: cs, rest)
        | _ => none
  | '\\' :: c :: rest =>
    match unescape? c with
    | none => none
    | some ch => (stringBody? rest).map fun (cs, rest) => (ch :: cs, rest)
  | c :: rest =>
    if c.toNat < 0x20 ∨ c = '\\' then none
    else (stringBody? rest).map fun (cs, rest) => (c :: cs, rest)

theorem length_of_stringBody? {s cs rest : List Char} (h : stringBody? s = some (cs, rest)) :
    rest.length < s.length := by
  fun_induction stringBody? s generalizing cs rest <;>
    simp_all only [Option.map_eq_some_iff, Prod.mk.injEq, Option.some.injEq, reduceCtorEq,
      List.length_cons, Prod.exists] <;>
    grind

/-- Reads a string with its quotes. -/
def readString : Reader String := fun s =>
  match s with
  | '"' :: body =>
    match h : stringBody? body with
    | some (cs, rest) => .ok (String.ofList cs, ⟨rest, by
        have := length_of_stringBody? h
        simp only [List.length_cons]; omega⟩)
    | none => .error .malformed
  | _ => .error .malformed

/-! ## Numbers -/

/-- A number, from its digits: whole numbers within 64 bits are integers, other numbers are
floats; minus zero is a float. Numbers that round to infinity are refused. -/
def numberOf? (negative : Bool) (whole fraction : List Char) (exponent? : Option Int) :
    Option JsonNumber :=
  let n := Decimal.ofDigits whole
  if fraction.isEmpty ∧ exponent?.isNone ∧ ¬negative ∧ n < UInt64.size then some (.integer n)
  else if fraction.isEmpty ∧ exponent?.isNone ∧ negative ∧ n ≠ 0 ∧
      n ≤ Int64.minValue.toInt.natAbs then
    some (.integer (-n))
  else
    let x := Decimal.toFloat (Decimal.ofDigits (whole ++ fraction))
      (exponent?.getD 0 - fraction.length)
    if x.isFinite then some (.float (if negative then -x else x)) else none

/-- The digits of a fraction, if there is one, and what follows. -/
def fractionPart? : List Char → Option (List Char × List Char)
  | '.' :: s =>
    if (Decimal.leadingDigits s).isEmpty then none
    else some (Decimal.leadingDigits s, Decimal.afterDigits s)
  | s => some ([], s)

/-- The exponent, if there is one, and what follows. -/
def exponentPart? : List Char → Option (Option Int × List Char)
  | [] => some (none, [])
  | c :: s =>
    if c = 'e' ∨ c = 'E' then
      let digits := Decimal.leadingDigits (Decimal.afterSign s)
      if digits.isEmpty then none
      else some (some (Decimal.ofSigned (Decimal.isNegative s) digits),
        Decimal.afterDigits (Decimal.afterSign s))
    else some (none, c :: s)

/-- An unsigned number and what follows. A zero in front of another digit is no number. -/
def unsigned? (negative : Bool) (s : List Char) : Option (JsonNumber × List Char) :=
  let whole := Decimal.leadingDigits s
  if whole.isEmpty ∨ (whole.head? = some '0' ∧ whole.length ≠ 1) then none
  else match fractionPart? (Decimal.afterDigits s) with
    | none => none
    | some (fraction, rest) =>
      match exponentPart? rest with
      | none => none
      | some (exponent?, rest) =>
        (numberOf? negative whole fraction exponent?).map fun n => (n, rest)

/-- A number and what follows. -/
def number? : List Char → Option (JsonNumber × List Char)
  | '-' :: s => unsigned? true s
  | s => unsigned? false s

theorem length_afterDigits_le (s : List Char) : (Decimal.afterDigits s).length ≤ s.length :=
  length_dropWhile_le _ s

theorem length_afterSign_le (s : List Char) : (Decimal.afterSign s).length ≤ s.length := by
  unfold Decimal.afterSign
  split <;> simp

theorem length_of_fractionPart? {s digits rest : List Char}
    (h : fractionPart? s = some (digits, rest)) : rest.length ≤ s.length := by
  unfold fractionPart? at h
  split at h
  · next s =>
    split at h
    · simp at h
    · simp only [Option.some.injEq, Prod.mk.injEq] at h
      have := length_afterDigits_le s
      rw [← h.2, List.length_cons]
      omega
  · simp only [Option.some.injEq, Prod.mk.injEq] at h
    exact h.2 ▸ Nat.le_refl _

theorem length_of_exponentPart? {s rest : List Char} {e? : Option Int}
    (h : exponentPart? s = some (e?, rest)) : rest.length ≤ s.length := by
  unfold exponentPart? at h
  split at h
  · simp only [Option.some.injEq, Prod.mk.injEq] at h
    exact h.2 ▸ Nat.le_refl _
  · next c s =>
    split at h
    · simp only at h
      split at h
      · simp at h
      · simp only [Option.some.injEq, Prod.mk.injEq] at h
        have := length_afterDigits_le (Decimal.afterSign s)
        have := length_afterSign_le s
        rw [← h.2, List.length_cons]
        omega
    · simp only [Option.some.injEq, Prod.mk.injEq] at h
      exact h.2 ▸ Nat.le_refl _

theorem length_afterDigits_lt {s : List Char} (h : (Decimal.leadingDigits s).isEmpty = false) :
    (Decimal.afterDigits s).length < s.length := by
  have hs := congrArg List.length (Decimal.leadingDigits_append_afterDigits s)
  rw [List.length_append] at hs
  have : (Decimal.leadingDigits s).length ≠ 0 := by
    intro h0
    simp [List.length_eq_zero_iff.1 h0] at h
  omega

theorem length_of_unsigned? {negative : Bool} {s rest : List Char} {n : JsonNumber}
    (h : unsigned? negative s = some (n, rest)) : rest.length < s.length := by
  simp only [unsigned?] at h
  split at h
  · simp at h
  · next hw =>
    split at h
    · simp at h
    · next hf =>
      split at h
      · simp at h
      · next he =>
        simp only [Option.map_eq_some_iff, Prod.mk.injEq] at h
        obtain ⟨_, _, _, rfl⟩ := h
        have := length_of_fractionPart? hf
        have := length_of_exponentPart? he
        have := length_afterDigits_lt (s := s) (by
          cases hd : (Decimal.leadingDigits s).isEmpty
          · rfl
          · exact absurd (.inl hd) hw)
        omega

theorem length_of_number? {s rest : List Char} {n : JsonNumber} (h : number? s = some (n, rest)) :
    rest.length < s.length := by
  unfold number? at h
  split at h
  · have := length_of_unsigned? h
    simp only [List.length_cons]; omega
  · exact length_of_unsigned? h

/-- Reads a number. -/
def readNumber : Reader Json := fun s =>
  match h : number? s with
  | some (n, rest) => .ok (.number n, ⟨rest, length_of_number? h⟩)
  | none => .error .malformed

/-! ## Arrays and objects -/

/-- Reads items with commas between them up to a closing bracket. -/
def readItems {α : Type} (item : Reader α) (close : Char) (s : List Char) :
    Except ReadError (List α × { rest : List Char // rest.length < s.length }) :=
  match item s with
  | .error e => .error e
  | .ok (a, ⟨rest, hi⟩) =>
    match hs : skipSpace rest with
    | [] => .error .malformed
    | c :: after =>
      have ha : after.length < s.length := by
        have := length_skipSpace_le rest
        rw [hs, List.length_cons] at this
        omega
      if c = close then .ok ([a], ⟨after, ha⟩)
      else if c = ',' then
        match readItems item close after with
        | .error e => .error e
        | .ok (items, ⟨rest, hr⟩) => .ok (a :: items, ⟨rest, Nat.lt_trans hr ha⟩)
      else .error .malformed
termination_by s.length

/-- Reads what stands behind an opening bracket. -/
def readBracketed {α : Type} (item : Reader α) (close : Char) : Reader (List α) := fun s =>
  match hs : skipSpace s with
  | [] => .error .malformed
  | c :: rest =>
    if c = close then .ok ([], ⟨rest, by
      have := length_skipSpace_le s
      rw [hs, List.length_cons] at this
      omega⟩)
    else readItems item close s

/-- Reads something behind blanks. -/
def spaced {α : Type} (item : Reader α) : Reader α := fun s =>
  match item (skipSpace s) with
  | .error e => .error e
  | .ok (a, ⟨rest, h⟩) => .ok (a, ⟨rest, Nat.lt_of_lt_of_le h (length_skipSpace_le s)⟩)

/-- Reads a key, a colon and a value. -/
def readMember (value : Reader Json) : Reader (String × Json) := fun s =>
  match spaced readString s with
  | .error e => .error e
  | .ok (key, ⟨rest, hk⟩) =>
    match hs : skipSpace rest with
    | [] => .error .malformed
    | c :: after =>
      if c = ':' then
        match value after with
        | .error e => .error e
        | .ok (j, ⟨rest', hv⟩) => .ok ((key, j), ⟨rest', by
            have := length_skipSpace_le rest
            rw [hs, List.length_cons] at this
            omega⟩)
      else .error .malformed

/-- Something read from the text behind a first character. -/
def behind {α : Type} {c : Char} {s : List Char}
    (r : Except ReadError (α × { rest : List Char // rest.length < s.length })) :
    Except ReadError (α × { rest : List Char // rest.length < (c :: s).length }) :=
  r.map fun (a, ⟨rest, h⟩) => (a, ⟨rest, Nat.lt_succ_of_lt h⟩)

/-- Reads one of the words that stand for values. -/
def readWord : Reader Json := fun s =>
  match s with
  | 'n' :: 'u' :: 'l' :: 'l' :: rest => .ok (.null, ⟨rest, by simp only [List.length_cons]; omega⟩)
  | 't' :: 'r' :: 'u' :: 'e' :: rest =>
    .ok (.boolean true, ⟨rest, by simp only [List.length_cons]; omega⟩)
  | 'f' :: 'a' :: 'l' :: 's' :: 'e' :: rest =>
    .ok (.boolean false, ⟨rest, by simp only [List.length_cons]; omega⟩)
  | _ => .error .malformed

/-- Reads a string, a number or a word. -/
def readLeaf : Reader Json := fun s =>
  match s with
  | '"' :: rest => (readString ('"' :: rest)).map fun (text, r) => (.string text, r)
  | c :: rest => if c = '-' ∨ c.isDigit then readNumber (c :: rest) else readWord (c :: rest)
  | [] => .error .malformed

/-- Reads a value without blanks in front of it, given how what stands in its arrays and objects is
read; with no such reader neither may stand here. -/
def readFront (objects : Bool) (inner? : Option (Reader Json)) : Reader Json := fun s =>
  match s, inner? with
  | '[' :: rest, some inner =>
    behind ((readBracketed inner ']' rest).map fun (items, r) => (.array items, r))
  | '\x7b' :: rest, some inner =>
    if objects then
      behind ((readBracketed (readMember inner) '\x7d' rest).map fun (members, r) =>
        (.object members, r))
    else .error .object
  | s, _ => readLeaf s

/-- Reads a value, given how what stands in its arrays and objects is read. -/
def readWith (objects : Bool) (inner? : Option (Reader Json)) : Reader Json :=
  spaced (readFront objects inner?)

/-- Reads a value in which arrays and objects are nested at most `depth` deep. -/
def readValue (objects : Bool) : (depth : Nat) → Reader Json
  | 0 => readWith objects none
  | depth + 1 => readWith objects (some (readValue objects depth))

/-- How deep arrays and objects may be nested in a text. -/
def maxDepth : Nat :=
  127

/-- Reads texts as documents, in which there may be objects or not. -/
abbrev TextReader :=
  (objects : Bool) → (text : String) → Except ReadError Json

/-- Reads a whole text as one document. -/
def read (objects : Bool) (text : String) : Except ReadError Json :=
  match readValue objects maxDepth text.toList with
  | .error e => .error e
  | .ok (j, ⟨rest, _⟩) => if (skipSpace rest).isEmpty then .ok j else .error .malformed

end GraphQL.Json
