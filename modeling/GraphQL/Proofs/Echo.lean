import GraphQL.Proofs.Coercion
import GraphQL.Proofs.Declarations
import GraphQL.Proofs.Quiet
import GraphQL.Proofs.Sameness

/-!
# What a resolver echoes can be sent back

A scalar that is built in, and an enum whose values are told apart from `null` and from NaN, are
read and written alike: what they make of a literal is serialized to a leaf, and that leaf, sent
back as a variable, is coerced to the same again (`Schema.exists_leaf_of_coerceNamed`). Enum
values may share what they stand for; then another name may come out, but it stands for the same.
Lists and non-null markers keep this (`Schema.Echo`), so whatever a literal is coerced to at such a
type can be completed and sent back (`Schema.exists_echo_of_coerce`). It does not matter whether
variables refer to one another, nor where the non-null markers stand.
-/

namespace GraphQL

/-! ## Leaves -/

/-- A built-in scalar makes a leaf of a literal, which it serializes and parses to itself. -/
theorem ScalarType.exists_leaf_of_parse {s : ScalarType} (hs : s ∈ builtins)
    {literal : InputValue} (hl : literal.FiniteFloats) {x : Value} (hp : s.parse literal = .ok x) :
    ∃ leaf : Scalar, x = .scalar leaf ∧ leaf.IsFinite ∧ s.serialize x = .ok x ∧
      s.parse (.scalar leaf) = .ok x := by
  have written : ∀ number : Float, number.isFinite = true →
      serializeFloat (.float number) = .ok (.float number) := by
    intro number hf
    simp [serializeFloat, Scalar.asFloat?, Option.filter, hf]
  simp only [builtins, List.mem_cons, List.not_mem_nil, or_false] at hs
  cases literal with
  | scalar given =>
    rcases hs with rfl | rfl | rfl | rfl | rfl
    · cases given with
      | string text =>
        cases hp
        exact ⟨_, rfl, trivial, rfl, rfl⟩
      | _ => cases hp
    · cases given with
      | int i =>
        cases hp
        exact ⟨_, rfl, trivial, rfl, rfl⟩
      | _ => cases hp
    · cases given with
      | int i =>
        cases hp
        have hf := Numbers.isFinite_ofInt i
        exact ⟨_, rfl, hf, written _ hf, rfl⟩
      | float number =>
        cases hp
        exact ⟨_, rfl, hl, written _ hl, rfl⟩
      | _ => cases hp
    · cases given with
      | boolean b =>
        cases hp
        exact ⟨_, rfl, trivial, rfl, rfl⟩
      | _ => cases hp
    · cases given with
      | string text =>
        cases hp
        exact ⟨_, rfl, trivial, rfl, rfl⟩
      | int i =>
        cases hp
        exact ⟨_, rfl, trivial, rfl, rfl⟩
      | _ => cases hp
  | _ => rcases hs with rfl | rfl | rfl | rfl | rfl <;> cases hp

/-- The values of the enum are told apart from `null`, and each is the same as itself. -/
def EnumType.Tells (e : EnumType) : Prop :=
  ∀ candidate ∈ e.values, candidate.value ≠ .null ∧ candidate.value.NaNFree ∧
    candidate.value.DistinctKeys

/-- The name that an enum value is serialized to stands for the same. -/
theorem EnumType.exists_serialize {e : EnumType} (h : e.Tells)
    (hn : (e.values.map EnumValue.name).Nodup) {candidate : EnumValue}
    (hc : candidate ∈ e.values) :
    ∃ found, e.serialize candidate.value = .ok (.string found.name) ∧
      e.value? found.name = some found ∧ (found.value == candidate.value) = true := by
  obtain ⟨-, hnan, hkeys⟩ := h candidate hc
  have hself : (candidate.value == candidate.value) = true := Value.same_self _ hnan hkeys
  cases hf : e.values.find? fun other => other.value == candidate.value with
  | none => exact absurd hself (List.find?_eq_none.1 hf candidate hc)
  | some found =>
    refine ⟨found, ?_, ?_, ?_⟩
    · simp only [serialize, hf]
    · exact find?_name_of_nodup hn (List.mem_of_find?_eq_some hf)
    · have hfound := List.find?_some hf
      exact hfound

namespace Variables

variable {vars : Variables}

/-- A variable stands for its value, unless that is a variable again. -/
theorem follow_var {name : String} {given : InputValue} (hg : Keyed.get? vars name = some given)
    (hv : given.isVar = false) (fromVariable : Bool) :
    vars.follow (.var name) fromVariable = (given, true) := by
  unfold follow
  cases vars with
  | nil => simp at hg
  | cons entry rest =>
    rw [List.length_cons, followFor, hg]
    cases given with
    | var _ => simp [InputValue.isVar] at hv
    | _ => cases rest.length <;> rfl

end Variables

theorem InputValue.isVar_of_ofValue? {y : Value} {given : InputValue}
    (h : ofValue? y = some given) : given.isVar = false := by
  cases y with
  | object entries => nomatch h
  | list items =>
    obtain ⟨given', -, rfl⟩ := Option.map_eq_some_iff.1 h
    rfl
  | _ =>
    obtain rfl := Option.some.inj h
    rfl

/-- The name is that of a built-in scalar, or of an enum with values that are told apart. -/
inductive Registry.Echoes {σ : Type} (r : Registry σ) (name : String) : Prop where
  | scalar {s} (hg : r.get? name = some (.scalar s)) (hs : s ∈ ScalarType.builtins)
  | enum {e} (hg : r.get? name = some (.enum e)) (he : e.Tells)

namespace Schema

variable {σ : Type} {s : Schema σ}

/-- What a literal is coerced to is serialized to a leaf, which is coerced to the same. -/
theorem exists_leaf_of_coerceNamed {name : String} (h : s.registry.Echoes name)
    {literal : InputValue} (hl : literal.FiniteFloats) {fromVariable : Bool} {x : Value}
    (hc : s.registry.coerceNamed name literal fromVariable = .ok x) :
    x ≠ .null ∧ ∃ t serialize leaf x', s.registry.get? name = some t ∧
      t.serialize? = some serialize ∧ serialize x = .ok (.scalar leaf) ∧
      s.registry.coerceNamed name (.scalar leaf) true = .ok x' ∧ (x' == x) = true := by
  cases h with
  | scalar hg hs =>
    rcases Registry.coerceNamed_eq_ok hc with ⟨t, ht, hp⟩ | ⟨e, he, -⟩
    · obtain rfl := TypeDef.scalar.inj (Option.some.inj (hg.symm.trans ht))
      obtain ⟨leaf, rfl, hf, hserialize, hparse⟩ := ScalarType.exists_leaf_of_parse hs hl hp
      refine ⟨by simp, _, _, leaf, .scalar leaf, hg, rfl, hserialize, ?_, ?_⟩
      · rw [Registry.coerceNamed, hg]
        dsimp only
        rw [hparse]
        rfl
      · exact Scalar.same_self hf.not_isNaN
    · simp [hg] at he
  | enum hg he =>
    rcases Registry.coerceNamed_eq_ok hc with ⟨t, ht, -⟩ | ⟨e, hg', hcoerce⟩
    · simp [hg] at ht
    · obtain rfl := TypeDef.enum.inj (Option.some.inj (hg.symm.trans hg'))
      obtain ⟨key, candidate, -, hv, rfl⟩ := EnumType.exists_spells_of_coerce hcoerce
      have hm := List.mem_of_find?_eq_some hv
      obtain ⟨found, hserialize, hfound, hsame⟩ :=
        EnumType.exists_serialize he (s.nodup_enumValues hg) hm
      refine ⟨(he candidate hm).1, _, _, .string found.name, found.value, hg, rfl, hserialize, ?_,
        hsame⟩
      rw [Registry.coerceNamed, hg]
      exact EnumType.coerce_of_spells (.inr ⟨rfl, rfl⟩) hfound

/-! ## Values -/

/-- Completing `x` at the type just comes to `y`, and reading `y` as the value of a variable comes
back to what is the same as `x`. -/
structure Echo (s : Schema σ) (type : TypeRef) (x y : Value) : Prop where
  completes : ∀ ctx : Context σ, ctx.schema = s → ∀ object selections path,
    (ctx.completeNullable object selections type x path).Ends (some y)
  settles : type.isNonNull = true → y ≠ .null
  reads : ∃ given, InputValue.ofValue? y = some given ∧ ∀ vars,
    ∃ x', s.registry.coerce vars type given true = .ok x' ∧ (x' == x) = true

namespace Echo

variable {type item : TypeRef} {x y : Value}

/-- What is not `null` where it must not be settles as it is. -/
theorem ends_settle (h : s.Echo type x y) (ctx : Context σ) (path : Path) :
    (ctx.settle type path (some y)).Ends (some y) := by
  unfold Context.settle
  split
  · next hn =>
    split
    · next heq => exact absurd (Option.some.inj heq) (h.settles hn)
    · exact .done
  · exact .done

theorem ends_complete (h : s.Echo type x y) {ctx : Context σ} (hs : ctx.schema = s)
    (object : ObjectJob σ) (selections : List Selection) (path : Path) :
    (ctx.complete object selections type x path).Ends (some y) :=
  (h.completes ctx hs object selections path).bind (h.ends_settle ctx path) fun completion =>
    (Context.silent_settle type path completion).tended

theorem null (hn : type.isNonNull = false) : s.Echo type .null .null := by
  refine ⟨?_, ?_, .null, rfl, ?_⟩
  · intro ctx hs object selections path
    cases type with
    | nonNull inner => nomatch hn
    | _ => exact .done
  · intro hn'
    rw [hn] at hn'
    nomatch hn'
  · intro vars
    refine ⟨.null, ?_, rfl⟩
    rw [Registry.coerce_null (Variables.follow_of_not_isVar rfl vars true), hn]
    rfl

/-- A non-null marker does not matter to what is not `null`. -/
theorem nonNull (h : s.Echo type x y) (hy : y ≠ .null) : s.Echo (.nonNull type) x y := by
  obtain ⟨given, hread, hcoerce⟩ := h.reads
  refine ⟨h.completes, fun _ => hy, given, hread, ?_⟩
  intro vars
  have hg : given ≠ .null := by
    rintro rfl
    cases y with
    | null => exact hy rfl
    | object entries => nomatch hread
    | list items =>
      obtain ⟨given', -, heq⟩ := Option.map_eq_some_iff.1 hread
      nomatch heq
    | scalar leaf => nomatch hread
  have hf := Variables.follow_of_not_isVar (InputValue.isVar_of_ofValue? hread) vars true
  rw [Registry.coerce_nonNull type hf hg]
  exact hcoerce vars

theorem readsItems {xs ys : List Value} (h : List.Forall₂ (s.Echo item) xs ys) :
    ∃ items, InputValue.ofItems? ys = some items ∧ ∀ vars, ∃ xs',
      items.mapM (fun given => s.registry.coerce vars item given true) = .ok xs' ∧
      Value.sameItems xs' xs = true := by
  induction h with
  | nil => exact ⟨[], rfl, fun vars => ⟨[], rfl, rfl⟩⟩
  | cons h _ ih =>
    obtain ⟨given, hread, hcoerce⟩ := h.reads
    obtain ⟨items, hreads, hcoerces⟩ := ih
    refine ⟨given :: items, by rw [InputValue.ofItems?, hread, hreads], ?_⟩
    intro vars
    obtain ⟨x', hx', hsame⟩ := hcoerce vars
    obtain ⟨xs', hxs', hsames⟩ := hcoerces vars
    refine ⟨x' :: xs', mapM_eq_ok_iff.2 (.cons hx' (mapM_eq_ok_iff.1 hxs')), ?_⟩
    rw [Value.sameItems, hsames, Bool.and_true]
    exact hsame

/-- A list comes back item by item. -/
theorem list {xs ys : List Value} (h : List.Forall₂ (s.Echo item) xs ys) :
    s.Echo (.list item) (.list xs) (.list ys) := by
  obtain ⟨items, hreads, hcoerces⟩ := readsItems h
  refine ⟨?_, nofun, .list items, by rw [InputValue.ofValue?, hreads]; rfl, ?_⟩
  · intro ctx hs object selections path
    unfold Context.completeNullable
    refine Job.Ends.row_mapIdx h.length_eq ?_
    intro i x y hx hy
    have hzip : (x, y) ∈ xs.zip ys :=
      List.mem_of_getElem? (List.getElem?_zip_eq_some.2 ⟨hx, hy⟩)
    have hecho := (List.forall₂_iff_zip.1 h).2 hzip
    exact hecho.ends_complete hs object selections (path.index i)
  · intro vars
    obtain ⟨xs', hxs', hsame⟩ := hcoerces vars
    refine ⟨.list xs', ?_, hsame⟩
    rw [Registry.coerce_items item (Variables.follow_of_not_isVar rfl vars true), hxs']
    rfl

/-- A leaf comes back if its type makes the same of what it is serialized to. -/
theorem leaf {name : String} {t : TypeDef σ} (ht : s.registry.get? name = some t)
    {serialize : Value → Except FieldError Value} (ht' : t.serialize? = some serialize)
    (hx : x ≠ .null) {leaf : Scalar} (hy : serialize x = .ok (.scalar leaf)) {x' : Value}
    (hc : s.registry.coerceNamed name (.scalar leaf) true = .ok x')
    (hsame : (x' == x) = true) : s.Echo (.named name) x (.scalar leaf) := by
  refine ⟨?_, nofun, .scalar leaf, rfl, ?_⟩
  · intro ctx hs object selections path
    have hnamed : ctx.completeNamed object selections name x path =
        .done (some (.scalar leaf)) := by
      unfold Context.completeNamed
      rw [hs, ht]
      cases t with
      | scalar t =>
        obtain rfl := Option.some.inj ht'
        simp only [Context.completeLeaf, hy]
      | enum e =>
        obtain rfl := Option.some.inj ht'
        simp only [Context.completeLeaf, hy]
      | _ => nomatch ht'
    unfold Context.completeNullable
    split
    · exact absurd rfl hx
    · rw [hnamed]
      exact .done
  · intro vars
    have hvar : (InputValue.scalar leaf).isVar = false := rfl
    have hf := Variables.follow_of_not_isVar hvar vars true
    refine ⟨x', ?_, hsame⟩
    rw [Registry.coerce_named name hf (by simp), hc]

end Echo

/-- Whatever a literal that is not `null` is coerced to at the type comes back, and not as
`null`. -/
def Returns (s : Schema σ) (vars : Variables) (type : TypeRef) : Prop :=
  ∀ given flag x, given ≠ .null → given.FiniteFloats →
    vars.follow given flag = (given, flag) → s.registry.coerce vars type given flag = .ok x →
    ∃ y, s.Echo type x y ∧ y ≠ .null

variable {type : TypeRef} {literal : InputValue} {fromVariable : Bool} {vars : Variables}
  {x : Value}

/-- And `null` comes back as `null`. -/
theorem Returns.exists_echo (h : s.Returns vars type) (hl : literal.FiniteFloats)
    (hv : vars.FiniteFloats) (hc : s.registry.coerce vars type literal fromVariable = .ok x) :
    ∃ y, s.Echo type x y := by
  have hfinite := hv.follow hl fromVariable
  cases hf : vars.follow literal fromVariable with
  | mk given flag =>
    rw [hf] at hfinite
    by_cases hg : given = .null
    · subst hg
      rw [Registry.coerce_null hf] at hc
      cases hn : type.isNonNull with
      | true => simp [hn] at hc
      | false =>
        rw [hn] at hc
        obtain rfl := Except.ok.inj hc
        exact ⟨.null, .null hn⟩
    · rw [Registry.coerce_of_follow hf] at hc
      obtain ⟨y, hy, -⟩ := h given flag x hg hfinite (Variables.follow_follow hf) hc
      exact ⟨y, hy⟩

/-- A list of literals is coerced to what comes back if the values of its items do. -/
theorem Returns.exists_echo_items {item : TypeRef} (h : s.Returns vars item)
    (hv : vars.FiniteFloats) {flag : Bool} {items : List InputValue} {xs : List Value}
    (hl : ∀ given ∈ items, given.FiniteFloats)
    (hm : List.Forall₂ (fun given x => s.registry.coerce vars item given flag = .ok x) items xs) :
    ∃ ys, List.Forall₂ (s.Echo item) xs ys := by
  induction hm with
  | nil => exact ⟨[], .nil⟩
  | cons hx _ ih =>
    obtain ⟨y, hy⟩ := h.exists_echo (hl _ List.mem_cons_self) hv hx
    obtain ⟨ys, hys⟩ := ih fun given hg => hl given (List.mem_cons_of_mem _ hg)
    exact ⟨y :: ys, .cons hy hys⟩

/-- By induction on the type: a single literal for a list is coerced at the type of the items, so
that it is not `null` either way. -/
theorem returns_of_echoes (h : s.registry.Echoes type.innermost) (hv : vars.FiniteFloats) :
    s.Returns vars type := by
  induction type with
  | named name =>
    intro given flag x hg hl hf hc
    rw [Registry.coerce_named name hf hg] at hc
    obtain ⟨hx, t, serialize, leaf, x', ht, hs, hy, hx', hsame⟩ :=
      exists_leaf_of_coerceNamed h hl hc
    exact ⟨.scalar leaf, .leaf ht hs hx hy hx' hsame, by simp⟩
  | nonNull inner ih =>
    intro given flag x hg hl hf hc
    rw [Registry.coerce_nonNull inner hf hg] at hc
    obtain ⟨y, hecho, hy⟩ := ih h given flag x hg hl hf hc
    exact ⟨y, hecho.nonNull hy, hy⟩
  | list item ih =>
    intro given flag x hg hl hf hc
    by_cases hlist : ∃ items, given = .list items
    · obtain ⟨items, rfl⟩ := hlist
      rw [Registry.coerce_items item hf] at hc
      obtain ⟨xs, hm, rfl⟩ := map_eq_ok_iff.1 hc
      obtain ⟨ys, hys⟩ :=
        (ih h).exists_echo_items hv (fun given hg => hl.of_mem hg) (mapM_eq_ok_iff.1 hm)
      exact ⟨.list ys, .list hys, by simp⟩
    · rw [Registry.coerce_single item hf hg (not_exists.1 hlist)] at hc
      obtain ⟨v, hcv, rfl⟩ := map_eq_ok_iff.1 hc
      obtain ⟨y, hy, -⟩ := ih h given flag v hg hl hf hcv
      exact ⟨.list [y], .list (.cons hy .nil), by simp⟩

variable (s) in
/-- **What a resolver echoes can be sent back.** Take a value that a literal of finite numbers is
coerced to, at a type that ends in a built-in scalar or in an enum whose values are told apart. To
complete it at the type again is to do nothing but to come to a value: on no machine is anything
recorded or called. That value makes a literal, and a variable with it is coerced to what is the
same as the first value, whatever the other variables are. -/
theorem exists_echo_of_coerce (h : s.registry.Echoes type.innermost) (hl : literal.FiniteFloats)
    (hv : vars.FiniteFloats) (hc : s.registry.coerce vars type literal fromVariable = .ok x) :
    ∃ y given, InputValue.ofValue? y = some given ∧
      (∀ run vars' object selections path limit? m,
        ((⟨run, s, vars'⟩ : Context σ).complete object selections type x path).drive limit? m =
          (.ok (some y), m)) ∧
      ∀ vars' name flag, Keyed.get? vars' name = some given →
        ∃ x', s.registry.coerce vars' type (.var name) flag = .ok x' ∧ (x' == x) = true := by
  obtain ⟨y, hecho⟩ := (returns_of_echoes h hv).exists_echo hl hv hc
  obtain ⟨given, hread, hcoerce⟩ := hecho.reads
  refine ⟨y, given, hread, ?_, ?_⟩
  · intro run vars' object selections path limit? m
    exact (hecho.ends_complete rfl object selections path).drive_eq limit? m
  · intro vars' name flag hg
    have hf := Variables.follow_var hg (InputValue.isVar_of_ofValue? hread) flag
    rw [Registry.coerce_of_follow hf]
    exact hcoerce vars'

end Schema

namespace Ranking

/-- Two names stand for the same. -/
def rank : EnumType :=
  ⟨"Rank", none,
    [⟨"FIRST", .int 1, none, .current⟩, ⟨"TOP", .int 1, none, .current⟩,
      ⟨"LAST", .int 9, none, .current⟩]⟩

def root : ObjectType Unit :=
  ⟨"Query", none, .eager [⟨"best", none, [], .named "Rank", .current, none⟩], []⟩

def schema : Schema Unit :=
  ⟨⟨[.enum rank, .object root], by
      change ["String", "Int", "Float", "Boolean", "ID", "Rank", "Query"].Nodup
      decide⟩,
    "Query", none, false, rfl, rfl, rfl, by simp⟩

def ranks : TypeRef :=
  .nonNull (.list (.nonNull (.named "Rank")))

def vars : Variables :=
  [("ranks", .list [.scalar (.string "TOP"), .scalar (.string "LAST")])]

theorem echoes_rank : schema.registry.Echoes ranks.innermost := by
  refine .enum rfl ?_
  intro candidate hc
  simp only [rank, List.mem_cons, List.not_mem_nil, or_false] at hc
  rcases hc with rfl | rfl | rfl <;> exact ⟨nofun, id, trivial⟩

theorem finiteFloats_vars : vars.FiniteFloats := by
  intro name v hg
  have hm := Keyed.mem_of_get?_eq_some hg
  simp only [vars, List.mem_singleton, Prod.mk.injEq] at hm
  obtain ⟨-, rfl⟩ := hm
  exact ⟨trivial, trivial, trivial⟩

/-- The list with the second name comes back, under the first name for the same. -/
theorem exists_echo_of_coerce_sample :
    schema.registry.coerce vars ranks (.var "ranks") false = .ok (.list [.int 1, .int 9]) ∧
      ∃ y given, InputValue.ofValue? y = some given ∧
        (∀ run vars' object selections path limit? m,
          ((⟨run, schema, vars'⟩ : Context Unit).complete object selections ranks
              (.list [.int 1, .int 9]) path).drive limit? m = (.ok (some y), m)) ∧
        ∀ vars' name flag, Keyed.get? vars' name = some given →
          ∃ x', schema.registry.coerce vars' ranks (.var name) flag = .ok x' ∧
            (x' == .list [.int 1, .int 9]) = true := by
  have hc : schema.registry.coerce vars ranks (.var "ranks") false =
      .ok (.list [.int 1, .int 9]) := rfl
  have hl : (InputValue.var "ranks").FiniteFloats := trivial
  exact ⟨hc, schema.exists_echo_of_coerce echoes_rank hl finiteFloats_vars hc⟩

end Ranking

end GraphQL
