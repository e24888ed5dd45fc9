import GraphQL.Execution.Basic
import GraphQL.Json.Conversion

/-!
# Responses

The documents that answer a request. An error in a response says its kind among its extensions;
the entries of its own extensions stand next to that, save one that would hide the kind.
-/

namespace GraphQL

/-- A key as a string and an index as a number. -/
def PathSegment.document : PathSegment → Json
  | .field key => .string key
  | .index i => .number (.integer i)

namespace LocatedError

/-- The kind of the error and its own extensions, if these are an object. -/
def extensions (e : LocatedError) : Object :=
  Object.addAll [("kind", .string e.error.kind.code)]
    ((e.error.extensions.asObject?.getD []).filter fun (key, _) => key != "kind")

def document (e : LocatedError) : Json :=
  .object
    [("message", .string e.error.message),
     ("path", .array (e.path.map PathSegment.document)),
     ("extensions", Value.document (.object e.extensions))]

end LocatedError

namespace Output

/-- The data, and the errors if there are any. -/
def document (o : Output) : Json :=
  .object (("data", o.data.document) ::
    if o.errors.isEmpty then [] else [("errors", .array (o.errors.map LocatedError.document))])

end Output

namespace BindingError

def document (e : BindingError) : Json :=
  .object [("message", .string e.message), ("path", .array (e.path.map .string))]

/-- The errors for which an operation does not run, a line each. -/
def displayAll (errors : List BindingError) : String :=
  String.join (errors.map fun e => e.display ++ "\n")

end BindingError

end GraphQL
