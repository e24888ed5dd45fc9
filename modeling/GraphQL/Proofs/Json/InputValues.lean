import GraphQL.Proofs.Json.Conversion
import GraphQL.Proofs.Json.Reading

/-!
# Input values read as values are

An input value comes of a document if the document has no object in it, and then it is the value
that the document stands for (`InputValue.ofJson?_eq_ofValue?`). The rules for integers without a
sign and for integers with one agree where both apply, and each with the rule for values
(`InputValue.ofNumber_eq`). A text is read as an input value exactly if the value read from it has
no object (`InputValue.readWith_iff_readWith`).
-/

namespace GraphQL

/-! ## Numbers -/

/-- Without a sign or with one, an integer is the same leaf. -/
theorem Scalar.ofUnsigned_eq_ofSigned (n : Nat) : ofUnsigned n = ofSigned n := by
  have hmin : Int32.minValue.toInt = -2 ^ 31 := Int32.toInt_minValue
  have hmax : Int32.maxValue.toInt = 2 ^ 31 - 1 := Int32.toInt_maxValue
  unfold ofUnsigned ofSigned
  by_cases h : n ≤ Int32.maxValue.toInt.toNat
  · rw [if_pos h, if_pos (by omega), Int32.ofInt_eq_ofNat]
  · rw [if_neg h, if_neg (by omega)]
    rfl

namespace InputValue

theorem ofNumber_eq (n : JsonNumber) : ofNumber n = .scalar (Scalar.ofNumber n) := by
  cases n with
  | float x => rfl
  | integer i =>
    rw [Scalar.ofNumber_integer]
    cases i with
    | ofNat n => exact congrArg scalar (Scalar.ofUnsigned_eq_ofSigned n)
    | negSucc n => rfl

/-! ## Documents -/

mutual

/-- There is neither an enum name nor a variable in the literal, at any depth. -/
def NamesNothing : InputValue → Prop
  | .enum _ => False
  | .var _ => False
  | .list items => NamesNothingItems items
  | _ => True

def NamesNothingItems : List InputValue → Prop
  | [] => True
  | v :: rest => v.NamesNothing ∧ NamesNothingItems rest

end

mutual

/-- The input value of a document is the value that the document stands for, taken over. -/
theorem ofJson?_eq_ofValue? : (j : Json) → ofJson? j = ofValue? (Value.ofJson j)
  | .null => rfl
  | .boolean _ => rfl
  | .number n => congrArg some (ofNumber_eq n)
  | .string _ => rfl
  | .array items => congrArg (·.map list) (ofJsonItems?_eq_ofItems? items)
  | .object _ => rfl

theorem ofJsonItems?_eq_ofItems? : (items : List Json) →
    ofJsonItems? items = ofItems? (Value.ofJsonItems items)
  | [] => rfl
  | j :: rest => by
    rw [ofJsonItems?, ofJson?_eq_ofValue? j, ofJsonItems?_eq_ofItems? rest]
    rfl

end

mutual

theorem ofJson?_of_objectFree : {j : Json} → j.ObjectFree →
    ∃ v, ofJson? j = some v ∧ v.NamesNothing
  | .null, _ => ⟨.null, rfl, trivial⟩
  | .boolean _, _ => ⟨_, rfl, trivial⟩
  | .number n, _ => ⟨_, congrArg some (ofNumber_eq n), trivial⟩
  | .string _, _ => ⟨_, rfl, trivial⟩
  | .array _, h => by
    obtain ⟨vs, hvs, hnames⟩ := ofJsonItems?_of_objectFree h
    exact ⟨.list vs, by rw [ofJson?, hvs, Option.map_some], hnames⟩

theorem ofJsonItems?_of_objectFree : {items : List Json} → Json.ObjectFreeItems items →
    ∃ vs, ofJsonItems? items = some vs ∧ NamesNothingItems vs
  | [], _ => ⟨[], rfl, trivial⟩
  | _ :: _, h => by
    obtain ⟨v, hv, hname⟩ := ofJson?_of_objectFree h.1
    obtain ⟨vs, hvs, hnames⟩ := ofJsonItems?_of_objectFree h.2
    exact ⟨v :: vs, by rw [ofJsonItems?, hv, hvs], hname, hnames⟩

end

mutual

/-- An object anywhere in the document is in the way. -/
theorem objectFree_of_ofJson? : {j : Json} → {v : InputValue} → ofJson? j = some v → j.ObjectFree
  | .null, _, _ => trivial
  | .boolean _, _, _ => trivial
  | .number _, _, _ => trivial
  | .string _, _, _ => trivial
  | .array _, _, h => by
    obtain ⟨vs, hvs, -⟩ := Option.map_eq_some_iff.1 h
    exact objectFreeItems_of_ofJsonItems? hvs

theorem objectFreeItems_of_ofJsonItems? : {items : List Json} → {vs : List InputValue} →
    ofJsonItems? items = some vs → Json.ObjectFreeItems items
  | [], _, _ => trivial
  | _ :: _, _, h => by
    rw [ofJsonItems?] at h
    split at h
    · next hv hvs => exact ⟨objectFree_of_ofJson? hv, objectFreeItems_of_ofJsonItems? hvs⟩
    · cases h

end

theorem decode_eq_ok_iff {j : Json} {v : InputValue} : decode j = .ok v ↔ ofJson? j = some v := by
  unfold decode
  cases ofJson? j <;> simp

theorem exists_decode_iff {j : Json} : (∃ v, decode j = .ok v) ↔ j.ObjectFree := by
  constructor
  · rintro ⟨v, h⟩
    exact objectFree_of_ofJson? (decode_eq_ok_iff.1 h)
  · intro h
    obtain ⟨v, hv, -⟩ := ofJson?_of_objectFree h
    exact ⟨v, decode_eq_ok_iff.2 hv⟩

theorem namesNothing_of_decode {j : Json} {v : InputValue} (h : decode j = .ok v) :
    v.NamesNothing := by
  obtain ⟨v', hv', hnames⟩ := ofJson?_of_objectFree (exists_decode_iff.1 ⟨v, h⟩)
  rw [decode_eq_ok_iff, hv'] at h
  cases h
  exact hnames

/-! ## Texts -/

variable {reader : Json.TextReader}

/-- Reading stops at an object or fails at it later, which makes no difference to what is read. -/
theorem readWith_eq_ok_iff (hr : reader.RefusesObjects) {source : Source} {text : String}
    {v : InputValue} (h : source ≠ .optional) : readWith reader source text = .ok v ↔
      ∃ j, reader true text = .ok j ∧ decode j = .ok v := by
  have hread : readWith reader source text = .ok v ↔
      ∃ j, reader (source != .text) text = .ok j ∧ decode j = .ok v := by
    unfold readWith
    cases reader (source != .text) text with
    | error e => cases e <;> simp
    | ok j => cases source <;> first | exact absurd rfl h | cases j <;> simp
  rw [hread]
  -- only where text is read directly does an object stop the reading
  cases source with
  | optional => exact absurd rfl h
  | document => rfl
  | text =>
    refine exists_congr fun j => ⟨fun hj => ?_, fun hj => ?_⟩
    · exact ⟨((hr text j).1 hj.1).1, hj.2⟩
    · exact ⟨(hr text j).2 ⟨hj.1, exists_decode_iff.1 ⟨v, hj.2⟩⟩, hj.2⟩

/-- Sorting the members of objects makes no difference to input values. -/
theorem decode_canonical {j : Json} {v : InputValue} :
    decode j.canonical = .ok v ↔ decode j = .ok v := by
  constructor
  · intro h
    have hfree := Json.objectFree_of_canonical (exists_decode_iff.1 ⟨v, h⟩)
    rwa [Json.canonical_of_objectFree hfree] at h
  · intro h
    rwa [Json.canonical_of_objectFree (exists_decode_iff.1 ⟨v, h⟩)]

theorem decode_eq_ok_iff_ofValue? {j : Json} {v : InputValue} :
    decode j = .ok v ↔ ofValue? (Value.ofJson j) = some v := by
  rw [decode_eq_ok_iff, ofJson?_eq_ofValue?]

theorem readWith_iff_readWith (hr : reader.RefusesObjects) {source : Source} {text : String}
    {v : InputValue} (h : source ≠ .optional) : readWith reader source text = .ok v ↔
      ∃ y, Value.readWith reader text = .ok y ∧ ofValue? y = some v := by
  rw [readWith_eq_ok_iff hr h]
  unfold Value.readWith
  cases reader true text with
  | error e =>
    constructor
    · rintro ⟨_, hj, -⟩
      cases hj
    · rintro ⟨_, hy, -⟩
      cases hy
  | ok j =>
    constructor
    · rintro ⟨j', hj, hv⟩
      cases hj
      exact ⟨_, rfl, decode_eq_ok_iff_ofValue?.1 (decode_canonical.2 hv)⟩
    · rintro ⟨y, hy, hv⟩
      cases hy
      exact ⟨j, rfl, decode_canonical.1 (decode_eq_ok_iff_ofValue?.2 hv)⟩

/-- A document is an input value if and only if there is no object in it at any depth. Then the
input value is the value that the document stands for, taken over as it is: it has no enum names
and no variables, and every integer of the document is the same `Int` or the same `Float` in both.
Texts are read alike too with any reader of documents that refuses objects if it is told to,
whether reading stops at an object or the document is read first. -/
theorem decode_reads_values :
    (∀ j : Json, (∃ v, decode j = .ok v) ↔ j.ObjectFree) ∧
    (∀ (j : Json) (v : InputValue), decode j = .ok v →
      ofValue? (Value.ofJson j) = some v ∧ v.NamesNothing) ∧
    (∀ n : JsonNumber, decode (.number n) = .ok (.scalar (Scalar.ofNumber n)) ∧
      Value.ofJson (.number n) = .scalar (Scalar.ofNumber n)) ∧
    (∀ i : Int, Scalar.ofNumber (.integer i) =
      if Int32.minValue.toInt ≤ i ∧ i ≤ Int32.maxValue.toInt then .int (Int32.ofInt i)
      else .float (Float.ofInt i)) ∧
    ∀ (reader : Json.TextReader) (source : Source) (text : String) (v : InputValue),
      reader.RefusesObjects → source ≠ .optional →
      (readWith reader source text = .ok v ↔
        ∃ y, Value.readWith reader text = .ok y ∧ ofValue? y = some v) := by
  refine ⟨fun j => exists_decode_iff, fun j v h => ?_, fun n => ⟨?_, rfl⟩, Scalar.ofNumber_integer,
    fun _ _ _ _ hr h => readWith_iff_readWith hr h⟩
  · exact ⟨decode_eq_ok_iff_ofValue?.1 h, namesNothing_of_decode h⟩
  · exact decode_eq_ok_iff.2 (congrArg some (ofNumber_eq n))

end InputValue

namespace Documents

/-- Integers on both sides of the range of `Int`, with a sign and without. -/
def bounds : Json :=
  .array [.number (.integer 2147483647), .array [.number (.integer (-2147483648)), .null],
    .number (.integer 4294967296)]

theorem decode_reads_values_bounds :
    (∃ v, InputValue.decode bounds = .ok v ∧ v.NamesNothing ∧
      InputValue.ofValue? (Value.ofJson bounds) = some v) ∧
      InputValue.Source.text ≠ .optional ∧
      ∀ text v, InputValue.read .text text = .ok v ↔
        ∃ y, Value.read text = .ok y ∧ InputValue.ofValue? y = some v := by
  have hfree : bounds.ObjectFree := ⟨trivial, ⟨trivial, trivial, trivial⟩, trivial, trivial⟩
  obtain ⟨hdecodes, hvalue, -, -, hread⟩ := InputValue.decode_reads_values
  obtain ⟨v, hv⟩ := (hdecodes bounds).2 hfree
  obtain ⟨hof, hnames⟩ := hvalue bounds v hv
  have htext : InputValue.Source.text ≠ .optional := nofun
  refine ⟨⟨v, hv, hnames, hof⟩, htext, fun text v => ?_⟩
  exact hread Json.read .text text v Json.refusesObjects_read htext

end Documents

end GraphQL
