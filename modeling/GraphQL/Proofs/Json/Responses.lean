import GraphQL.Response
import GraphQL.Proofs.Json.Conversion

/-!
# What a response tells

`Output.Account.ofJson?` is a reader of responses: from the document alone, with its members in the
order of their keys, it takes the data and what each error says. An output whose numbers are finite
is read as it was (`Output.exists_account`), but for the entries of an error's own extensions that
are called `kind`: they are left out, and the kind of the error stands there
(`LocatedError.extensions_eq`).
-/

namespace GraphQL

/-- What is read from each item, if something can be read from all of them. -/
theorem exists_mapM_map {α β γ : Type} {write : α → β} {read : β → Option γ} {R : γ → α → Prop}
    {xs : List α} (h : ∀ a ∈ xs, ∃ c, read (write a) = some c ∧ R c a) :
    ∃ cs, (xs.map write).mapM read = some cs ∧ List.Forall₂ R cs xs := by
  induction xs with
  | nil => exact ⟨[], rfl, .nil⟩
  | cons a rest ih =>
    obtain ⟨hhead, htail⟩ := List.forall_mem_cons.1 h
    obtain ⟨c, hc, hR⟩ := hhead
    obtain ⟨cs, hcs, hRs⟩ := ih htail
    refine ⟨c :: cs, ?_, .cons hR hRs⟩
    rw [List.map_cons, List.mapM_cons, hc, hcs]
    rfl

/-! ## Paths and kinds -/

/-- The segment that is written so. -/
def PathSegment.ofJson? : Json → Option PathSegment
  | .string key => some (.field key)
  | .number (.integer (.ofNat i)) => some (.index i)
  | _ => none

theorem PathSegment.ofJson?_document (segment : PathSegment) :
    ofJson? segment.document.canonical = some segment := by
  cases segment <;> rfl

/-- The kind that is spelled so. -/
def ErrorKind.ofCode? : String → Option ErrorKind
  | "UNKNOWN_ARGUMENT" => some .unknownArgument
  | "MISSING_REQUIRED_ARGUMENT" => some .missingRequiredArgument
  | "UNKNOWN_ENUM_VALUE" => some .unknownEnumValue
  | "NULL_ARGUMENT" => some .nullArgument
  | "INVALID_ARGUMENT" => some .invalidArgument
  | "ABSTRACT_TYPE_RESOLUTION" => some .abstractTypeResolution
  | "NON_NULL_VIOLATION" => some .nonNullViolation
  | "SERIALIZATION" => some .serialization
  | "RESOLVER" => some .resolver
  | _ => none

theorem ErrorKind.ofCode?_code (kind : ErrorKind) : ofCode? kind.code = some kind := by
  cases kind <;> rfl

/-! ## Errors -/

namespace LocatedError

/-- The entries of the error's own extensions, save one that is called as the kind is. -/
def ownEntries (e : LocatedError) : Object :=
  (e.error.extensions.asObject?.getD []).filter fun (key, _) => key != "kind"

/-- What a response tells about an error. -/
structure Account where
  message : String
  path : Path
  kind : ErrorKind
  /-- The extensions, without the kind. -/
  extensions : Value

/-- Reads what a document tells about an error. -/
def Account.ofJson? (j : Json) : Option Account := do
  let message ← (← j.member? "message").asString?
  let path ← (← (← j.member? "path").asArray?).mapM PathSegment.ofJson?
  let extensions ← (← j.member? "extensions").asObject?
  let kind ← ErrorKind.ofCode? (← (← Keyed.get? extensions "kind").asString?)
  return {
    message, path, kind
    extensions := .ofJson (.object (extensions.filter fun (key, _) => key != "kind")) }

/-- The account agrees with the error. -/
structure Account.Tells (a : Account) (e : LocatedError) : Prop where
  message : a.message = e.error.message
  path : a.path = e.path
  kind : a.kind = e.error.kind
  extensions : a.extensions.same (.object e.ownEntries) = true

/-- The two say the same, but for entries called `kind` in their own extensions. -/
structure Alike (e e' : LocatedError) : Prop where
  message : e.error.message = e'.error.message
  path : e.path = e'.path
  kind : e.error.kind = e'.error.kind
  extensions : (Value.object e.ownEntries).same (.object e'.ownEntries) = true

variable {e e' : LocatedError}

theorem finiteFloats_ownEntries (h : e.error.extensions.FiniteFloats) :
    (Value.object e.ownEntries).FiniteFloats := by
  unfold ownEntries
  cases hx : e.error.extensions with
  | object entries =>
    rw [hx] at h
    exact Value.finiteFloatsEntries_iff.2 fun entry hentry =>
      Value.finiteFloatsEntries_iff.1 h entry (List.mem_of_mem_filter hentry)
  | _ => trivial

theorem distinctKeys_ownEntries (h : e.error.extensions.DistinctKeys) :
    (Value.object e.ownEntries).DistinctKeys := by
  unfold ownEntries
  cases hx : e.error.extensions with
  | object entries =>
    rw [hx] at h
    refine ⟨h.1.sublist (List.filter_sublist.map Prod.fst), ?_⟩
    exact Value.distinctKeysEntries_iff.2 fun entry hentry =>
      Value.distinctKeysEntries_iff.1 h.2 entry (List.mem_of_mem_filter hentry)
  | _ => exact ⟨List.nodup_nil, trivial⟩

theorem kind_not_mem_ownEntries : "kind" ∉ Keyed.keys e.ownEntries := by
  rw [← Keyed.get?_eq_none_iff]
  exact (Keyed.get?_filter (· != "kind") _ "kind").trans (if_neg (by simp))

theorem nodup_keys_kind_cons (h : e.error.extensions.DistinctKeys) (v : Value) :
    (Keyed.keys (("kind", v) :: e.ownEntries)).Nodup :=
  List.nodup_cons.2 ⟨kind_not_mem_ownEntries, (distinctKeys_ownEntries h).1⟩

/-- **The kind stands first, and behind it the error's own entries as they are.** -/
theorem extensions_eq (h : e.error.extensions.DistinctKeys) :
    e.extensions = ("kind", .string e.error.kind.code) :: e.ownEntries := by
  have hnodup : (Keyed.keys ([("kind", .string e.error.kind.code)] ++ e.ownEntries)).Nodup :=
    nodup_keys_kind_cons h _
  exact Object.addAll_eq_append hnodup

/-! ### The document of an error -/

theorem member?_message :
    e.document.canonical.member? "message" = some (.string e.error.message) := by
  rw [document, Json.member?_canonical (by simp [Keyed.keys])]
  simp [Keyed.get?_cons, Json.canonical]

theorem member?_path : e.document.canonical.member? "path" =
    some (.array (e.path.map fun segment => segment.document.canonical)) := by
  rw [document, Json.member?_canonical (by simp [Keyed.keys])]
  simp [Keyed.get?_cons, Json.canonical, Json.canonicalItems_eq_map]

theorem member?_extensions : e.document.canonical.member? "extensions" =
    some (Value.object e.extensions).toJson := by
  rw [document, Json.member?_canonical (by simp [Keyed.keys])]
  simp [Keyed.get?_cons, Value.canonical_document]

/-- In the document the extensions hold the kind under its key. -/
theorem get?_kind_extensions (h : e.error.extensions.DistinctKeys) :
    (Value.object e.extensions).toJson.member? "kind" = some (.string e.error.kind.code) := by
  have hnodup := nodup_keys_kind_cons h (.string e.error.kind.code)
  rw [Value.toJson_object, extensions_eq h, Json.member?,
    Json.get?_sortMembers (by rwa [Json.keys_map]), List.map_cons, Keyed.get?_cons, if_pos rfl]
  rfl

/-- Without the member for the kind they are the document of the error's own entries. -/
theorem filter_extensions (h : e.error.extensions.DistinctKeys) {members : List (String × Json)}
    (hm : (Value.object e.extensions).toJson = .object members) :
    .object (members.filter fun (key, _) => key != "kind") = (Value.object e.ownEntries).toJson := by
  have hnodup := nodup_keys_kind_cons h (.string e.error.kind.code)
  rw [Value.toJson_object, extensions_eq h] at hm
  obtain rfl := Json.object.inj hm
  -- leave the kind out first and sort then; no entry of the error's own has its key
  rw [← Json.sortMembers_filter (by rwa [Json.keys_map]) (· != "kind"), Value.toJson_object,
    List.map_cons, List.filter_cons_of_neg (by simp), List.filter_eq_self.2]
  intro entry hentry
  have hkey : entry.1 ∈ Keyed.keys e.ownEntries := by
    rw [← Json.keys_map Value.toJson]
    exact List.mem_map_of_mem hentry
  exact bne_iff_ne.2 fun heq => kind_not_mem_ownEntries (heq ▸ hkey)

/-! ### Reading it -/

/-- **What is read about an error is what the error says.** -/
theorem exists_account (hf : e.error.extensions.FiniteFloats)
    (hk : e.error.extensions.DistinctKeys) :
    ∃ a : Account, Account.ofJson? e.document.canonical = some a ∧ a.Tells e := by
  obtain ⟨members, hm⟩ : ∃ members, (Value.object e.extensions).toJson = .object members :=
    ⟨_, Value.toJson_object _⟩
  have hkind : Keyed.get? members "kind" = some (.string e.error.kind.code) := by
    have h := get?_kind_extensions hk
    rwa [hm] at h
  obtain ⟨path, hpath, heq⟩ := exists_mapM_map (R := Eq) fun segment (_ : segment ∈ e.path) =>
    ⟨segment, segment.ofJson?_document, rfl⟩
  rw [List.forall₂_eq_eq_eq] at heq
  subst heq
  refine ⟨⟨e.error.message, e.path, e.error.kind,
    .ofJson (.object (members.filter fun (key, _) => key != "kind"))⟩, ?_, rfl, rfl, rfl, ?_⟩
  · simp only [Account.ofJson?, member?_message, member?_path, member?_extensions, hm, hkind, hpath,
      Json.asString?, Json.asArray?, Json.asObject?, ErrorKind.ofCode?_code, Option.bind_eq_bind,
      Option.bind_some, Option.pure_def]
  · rw [filter_extensions hk hm]
    exact Value.same_ofJson_toJson (finiteFloats_ownEntries hf) (distinctKeys_ownEntries hk)

/-- Errors of which one document comes say the same. -/
theorem alike_of_document_eq (hf : e.error.extensions.FiniteFloats)
    (hk : e.error.extensions.DistinctKeys) (hf' : e'.error.extensions.FiniteFloats)
    (hk' : e'.error.extensions.DistinctKeys)
    (h : e.document.canonical = e'.document.canonical) : Alike e e' := by
  obtain ⟨a, ha, htells⟩ := exists_account hf hk
  obtain ⟨a', ha', htells'⟩ := exists_account hf' hk'
  have heq : a = a' := by
    rw [h, ha'] at ha
    exact (Option.some.inj ha).symm
  subst heq
  have hextensions : (Value.object e.extensions).toJson = (Value.object e'.extensions).toJson := by
    rw [← Option.some_inj, ← member?_extensions, ← member?_extensions, h]
  have hown : (Value.object e.ownEntries).toJson = (Value.object e'.ownEntries).toJson := by
    rw [← filter_extensions hk (Value.toJson_object _)]
    refine filter_extensions hk' ?_
    rw [← hextensions, Value.toJson_object]
  exact {
    message := htells.message.symm.trans htells'.message
    path := htells.path.symm.trans htells'.path
    kind := htells.kind.symm.trans htells'.kind
    extensions := Value.same_of_toJson_eq _ (finiteFloats_ownEntries hf) (distinctKeys_ownEntries hk)
      _ (finiteFloats_ownEntries hf') (distinctKeys_ownEntries hk') hown }

end LocatedError

/-! ## Outputs -/

namespace Output

/-- What a response tells about an output. -/
structure Account where
  data : Value
  errors : List LocatedError.Account

/-- Reads what a response tells. Without a member for errors there are none. -/
def Account.ofJson? (j : Json) : Option Account := do
  let data ← j.member? "data"
  let errors ← ((j.member? "errors").getD (.array [])).asArray?
  return { data := .ofJson data, errors := ← errors.mapM LocatedError.Account.ofJson? }

/-- The account agrees with the output. -/
structure Account.Tells (a : Account) (o : Output) : Prop where
  data : a.data.same o.data = true
  errors : List.Forall₂ LocatedError.Account.Tells a.errors o.errors

/-- The two outputs say the same, but for what the entries called `kind` in errors' own extensions
hold. -/
structure Alike (o o' : Output) : Prop where
  data : o.data.same o'.data = true
  errors : List.Forall₂ LocatedError.Alike o.errors o'.errors

/-- All numbers in the output are finite. -/
structure FiniteFloats (o : Output) : Prop where
  data : o.data.FiniteFloats
  errors : ∀ e ∈ o.errors, e.error.extensions.FiniteFloats

/-- No object in the output has a key twice. -/
structure DistinctKeys (o : Output) : Prop where
  data : o.data.DistinctKeys
  errors : ∀ e ∈ o.errors, e.error.extensions.DistinctKeys

variable {o o' : Output}

theorem member?_data : o.document.canonical.member? "data" = some o.data.toJson := by
  rw [document, Json.member?_canonical]
  · simp [Keyed.get?_cons, Value.canonical_document]
  · cases o.errors <;> simp [Keyed.keys]

theorem member?_errors : o.document.canonical.member? "errors" =
    if o.errors = [] then none
    else some (.array (o.errors.map fun e => e.document.canonical)) := by
  rw [document, Json.member?_canonical]
  · cases o.errors <;> simp [Keyed.get?_cons, Json.canonical, Json.canonicalItems_eq_map]
  · cases o.errors <;> simp [Keyed.keys]

/-- There is a member for errors exactly if there are errors. -/
theorem isSome_member?_errors :
    (o.document.canonical.member? "errors").isSome ↔ o.errors ≠ [] := by
  rw [member?_errors]
  split <;> simp_all

theorem getD_member?_errors : (o.document.canonical.member? "errors").getD (.array []) =
    .array (o.errors.map fun e => e.document.canonical) := by
  rw [member?_errors]
  split
  · next h =>
    rw [h]
    rfl
  · rfl

/-- **What is read of an output is what the output says.** -/
theorem exists_account (hf : o.FiniteFloats) (hk : o.DistinctKeys) :
    ∃ a : Account, Account.ofJson? o.document.canonical = some a ∧ a.Tells o := by
  obtain ⟨accounts, haccounts, htells⟩ := exists_mapM_map fun e he =>
    LocatedError.exists_account (hf.errors e he) (hk.errors e he)
  refine ⟨⟨.ofJson o.data.toJson, accounts⟩, ?_, Value.same_ofJson_toJson hf.data hk.data, htells⟩
  simp [Account.ofJson?, member?_data, getD_member?_errors, Json.asArray?, haccounts]

/-- Outputs of which one document comes say the same. -/
theorem alike_of_document_eq (hf : o.FiniteFloats) (hk : o.DistinctKeys) (hf' : o'.FiniteFloats)
    (hk' : o'.DistinctKeys) (h : o.document.canonical = o'.document.canonical) : Alike o o' := by
  have hdata : o.data.toJson = o'.data.toJson := by
    rw [← Option.some_inj, ← member?_data, ← member?_data, h]
  have herrors : o.errors.map (fun e => e.document.canonical) =
      o'.errors.map fun e => e.document.canonical := by
    rw [← Json.array.injEq, ← getD_member?_errors, ← getD_member?_errors, h]
  refine ⟨Value.same_of_toJson_eq _ hf.data hk.data _ hf'.data hk'.data hdata, ?_⟩
  rw [← List.forall₂_eq_eq_eq, List.forall₂_map_left_iff, List.forall₂_map_right_iff,
    List.forall₂_iff_zip] at herrors
  refine List.forall₂_iff_zip.2 ⟨herrors.1, fun {e e'} hmem => ?_⟩
  obtain ⟨he, he'⟩ := List.of_mem_zip hmem
  exact LocatedError.alike_of_document_eq (hf.errors e he) (hk.errors e he) (hf'.errors e' he')
    (hk'.errors e' he') (herrors.2 hmem)

/-- **A response tells everything that matters of its output.** From the document the data can be
read, and of each error in its turn the message, the path, the kind and the error's own extensions,
without an entry called `kind`; there is a member for errors exactly if there are any. An error's
own entries stand behind its kind, in their order and as they are. So outputs of which one document
comes say the same. -/
theorem document_tells :
    (∀ o : Output, o.FiniteFloats → o.DistinctKeys →
      (∃ a : Account, Account.ofJson? o.document.canonical = some a ∧ a.Tells o) ∧
        ∀ e ∈ o.errors, e.extensions = ("kind", .string e.error.kind.code) :: e.ownEntries) ∧
    (∀ o : Output, (o.document.canonical.member? "errors").isSome ↔ o.errors ≠ []) ∧
    ∀ o o' : Output, o.FiniteFloats → o.DistinctKeys → o'.FiniteFloats → o'.DistinctKeys →
      o.document.canonical = o'.document.canonical → Alike o o' := by
  refine ⟨fun o hf hk => ⟨exists_account hf hk, fun e he => ?_⟩, fun o => isSome_member?_errors,
    fun o o' hf hk hf' hk' h => alike_of_document_eq hf hk hf' hk' h⟩
  exact LocatedError.extensions_eq (hk.errors e he)

end Output

namespace Documents

/-- The first error calls an entry of its own `kind`; the second has a path without names. -/
def failing : Output where
  data := .object [("10", .int 1), ("hero", .null)]
  errors :=
    [{ path := [.field "hero", .field "0"]
       error := {
         message := "boom", kind := .resolver
         extensions := .object [("kind", .object [("code", .int 7)]), ("at", .list [.float 0.5])] } },
     { path := [.index 0], error := { message := "", kind := .serialization, extensions := .null } }]

/-- The same, but for what the entry called `kind` holds. -/
def otherwise : Output where
  data := .object [("hero", .null), ("10", .int 1)]
  errors :=
    [{ path := [.field "hero", .field "0"]
       error := {
         message := "boom", kind := .resolver
         extensions := .object [("at", .list [.float 0.5]), ("kind", .string "GONE")] } },
     { path := [.index 0], error := { message := "", kind := .serialization, extensions := .null } }]

theorem document_tells_failing :
    failing.FiniteFloats ∧ failing.DistinctKeys ∧ otherwise.FiniteFloats ∧
      otherwise.DistinctKeys ∧ failing.document.canonical = otherwise.document.canonical ∧
      (∃ a : Output.Account, Output.Account.ofJson? failing.document.canonical = some a ∧
        a.Tells failing) ∧
      failing.Alike otherwise := by
  have hhalf : Float.isFinite 0.5 = true := by decide +kernel
  have hf : failing.FiniteFloats := by
    refine ⟨⟨trivial, trivial, trivial⟩, ?_⟩
    simp [failing, Value.FiniteFloats, Value.FiniteFloatsEntries, Value.FiniteFloatsItems,
      Scalar.IsFinite, hhalf]
  have hf' : otherwise.FiniteFloats := by
    refine ⟨⟨trivial, trivial, trivial⟩, ?_⟩
    simp [otherwise, Value.FiniteFloats, Value.FiniteFloatsEntries, Value.FiniteFloatsItems,
      Scalar.IsFinite, hhalf]
  have hk : failing.DistinctKeys := by
    constructor <;> simp [failing, Value.DistinctKeys, Value.DistinctKeysEntries,
      Value.DistinctKeysItems, Keyed.keys]
  have hk' : otherwise.DistinctKeys := by
    constructor <;> simp [otherwise, Value.DistinctKeys, Value.DistinctKeysEntries,
      Value.DistinctKeysItems, Keyed.keys]
  obtain ⟨hreads, -, halike⟩ := Output.document_tells
  exact ⟨hf, hk, hf', hk', rfl, (hreads failing hf hk).1, halike _ _ hf hk hf' hk' rfl⟩

end Documents

end GraphQL
