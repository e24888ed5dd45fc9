import GraphQL.Input
import GraphQL.Json.Reader
import GraphQL.Json.Writer
import GraphQL.Value.Object

/-!
# Values and documents

`Value.document` writes a value as a document, entries in their order; `Value.toJson` turns it into
a document whose members are sorted, without going through the first; `Value.ofJson` reads one.
Integers beyond the range of `Int` are read as floats, and floats that are not finite are written
as `null`. Input values are read from documents without objects, number by number as the reader
comes upon them: integers without a sign and integers with one each have a rule of their own.
-/

namespace GraphQL

namespace JsonNumber

/-- The number as a signed integer of 64 bits, if it is one. -/
def asInt64? : JsonNumber → Option Int64
  | .integer i =>
    if Int64.minValue.toInt ≤ i ∧ i ≤ Int64.maxValue.toInt then some (Int64.ofInt i) else none
  | .float _ => none

/-- The float that is closest to the number. -/
def toFloat : JsonNumber → Float
  | .integer i => Float.ofInt i
  | .float x => x

/-- The number that a float is, if documents can hold it. -/
def ofFloat? (x : Float) : Option JsonNumber :=
  if x.isFinite then some (.float x) else none

end JsonNumber

namespace Scalar

/-- The leaf that a number of a document stands for. -/
def ofNumber (n : JsonNumber) : Scalar :=
  match n.asInt64?.bind fun i => inRange? i.toInt with
  | some i => .int i
  | none => .float n.toFloat

/-- The leaf as the reader of input values takes an integer without a sign. -/
def ofUnsigned (n : Nat) : Scalar :=
  if n ≤ Int32.maxValue.toInt.toNat then .int (Int32.ofNat n) else .float (Float.ofNat n)

/-- The leaf as the reader of input values takes an integer with a sign. -/
def ofSigned (i : Int) : Scalar :=
  if Int32.minValue.toInt ≤ i ∧ i ≤ Int32.maxValue.toInt then .int (Int32.ofInt i)
  else .float (Float.ofInt i)

/-- The leaf as it is written into a document. -/
def document : Scalar → Json
  | .int i => .number (.integer i.toInt)
  | .float x => if x.isFinite then .number (.float x) else .null
  | .string s => .string s
  | .boolean b => .boolean b

/-- The leaf turned into a document. -/
def toJson : Scalar → Json
  | .int i => .number (.integer i.toInt)
  | .float x => ((JsonNumber.ofFloat? x).map .number).getD .null
  | .string s => .string s
  | .boolean b => .boolean b

end Scalar

namespace Value

mutual

/-- The document that a value is written as. -/
def document : Value → Json
  | .null => .null
  | .scalar s => s.document
  | .list items => .array (documentItems items)
  | .object entries => .object (documentEntries entries)

def documentItems : List Value → List Json
  | [] => []
  | v :: rest => v.document :: documentItems rest

def documentEntries : List (String × Value) → List (String × Json)
  | [] => []
  | (key, v) :: rest => (key, v.document) :: documentEntries rest

end

mutual

/-- The value as a document whose members are sorted by key. -/
def toJson : Value → Json
  | .null => .null
  | .scalar s => s.toJson
  | .list items => .array (toJsonItems items)
  | .object entries => .object (toJsonEntries [] entries)

def toJsonItems : List Value → List Json
  | [] => []
  | v :: rest => v.toJson :: toJsonItems rest

/-- Writes the entries into members that are sorted already. -/
def toJsonEntries (members : List (String × Json)) :
    List (String × Value) → List (String × Json)
  | [] => members
  | (key, v) :: rest => toJsonEntries (Json.insertMember key v.toJson members) rest

end

mutual

/-- The value that a document stands for. -/
def ofJson : Json → Value
  | .null => .null
  | .boolean b => .boolean b
  | .number n => .scalar (.ofNumber n)
  | .string s => .string s
  | .array items => .list (ofJsonItems items)
  | .object members => .object (ofJsonMembers [] members)

def ofJsonItems : List Json → List Value
  | [] => []
  | j :: rest => ofJson j :: ofJsonItems rest

/-- Writes the members into an object. -/
def ofJsonMembers (entries : Object) : List (String × Json) → Object
  | [] => entries
  | (key, j) :: rest => ofJsonMembers (Object.add entries key (ofJson j)) rest

end

/-- Reads a value from the text of a document, with a reader of documents. -/
def readWith (reader : Json.TextReader) (text : String) : Except Json.ReadError Value :=
  (reader true text).map fun j => ofJson j.canonical

/-- Reads a value from the text of a document. -/
def read (text : String) : Except Json.ReadError Value :=
  readWith Json.read text

end Value

namespace InputValue

/-- Why a document is no input value. -/
inductive DecodeError where
  | malformed
  | object
  /-- The value comes wrapped as one that may be absent. -/
  | wrapped
deriving DecidableEq, Repr

namespace DecodeError

/-- What is said about a document that is no input value. -/
def message : DecodeError → String
  | .malformed => "malformed document"
  | .object => "invalid type: map, expected a valid input value"
  | .wrapped => "invalid type: Option value, expected a valid input value"

end DecodeError

/-- The input value that a number is read as. -/
def ofNumber : JsonNumber → InputValue
  | .integer (.ofNat n) => .scalar (.ofUnsigned n)
  | .integer (.negSucc n) => .scalar (.ofSigned (.negSucc n))
  | .float x => .scalar (.float x)

mutual

/-- The input value that a document without objects stands for. -/
def ofJson? : Json → Option InputValue
  | .null => some .null
  | .boolean b => some (.scalar (.boolean b))
  | .number n => some (ofNumber n)
  | .string s => some (.scalar (.string s))
  | .array items => (ofJsonItems? items).map .list
  | .object _ => none

def ofJsonItems? : List Json → Option (List InputValue)
  | [] => some []
  | j :: rest =>
    match ofJson? j, ofJsonItems? rest with
    | some v, some rest => some (v :: rest)
    | _, _ => none

end

/-- How the text of an input value comes. -/
inductive Source where
  /-- As it is read; an object stops the reading. -/
  | text
  /-- As a document that has been read before. -/
  | document
  /-- As such a document, in a format that marks values which may be absent. -/
  | optional
deriving DecidableEq, Repr

/-- Reads an input value from a document. -/
def decode (j : Json) : Except DecodeError InputValue :=
  match ofJson? j with
  | some v => .ok v
  | none => .error .object

/-- Reads an input value from the text of a document, with a reader of documents. -/
def readWith (reader : Json.TextReader) (source : Source) (text : String) :
    Except DecodeError InputValue :=
  match reader (source != .text) text, source with
  | .error .malformed, _ => .error .malformed
  | .error .object, _ => .error .object
  | .ok .null, .optional => .ok .null
  | .ok _, .optional => .error .wrapped
  | .ok j, _ => decode j

/-- Reads an input value from the text of a document. -/
def read (source : Source) (text : String) : Except DecodeError InputValue :=
  readWith Json.read source text

end InputValue

end GraphQL
