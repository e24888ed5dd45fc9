import GraphQL.Proofs.Replacement

/-!
# Coercion comes to its end

Coercing a literal is a recursion that follows variables: the value of a variable is coerced to the
same type, and it may be larger than the literal that mentions it. `Registry.coerceCall` is one call
of that recursion; `Registry.coerceWithin` lets calls nest up to a depth and answers nothing if that
is not enough.

Every call takes a wrapper off the type or follows a variable. Where no variable leads back to
itself, following one goes down in rank, so calls nest no deeper than the type is high and there are
variables, and what they come to is what `Registry.coerce` says (`coerceWithin_eq_some`). Where
variables go on to stand for one another, no depth is enough (`coerceWithin_eq_none`), and where a
depth is enough, a greater one gives the same (`coerceWithin_mono`).
-/

namespace GraphQL

/-- How many wrappers and names a reference is made of. -/
def TypeRef.height : TypeRef → Nat
  | .named _ => 1
  | .list t | .nonNull t => t.height + 1

theorem TypeRef.height_pos (t : TypeRef) : 0 < t.height := by
  cases t <;> simp [height]

/-- The height of the highest type of an argument. -/
def Field.argumentHeight {σ : Type} (field : Field σ) : Nat :=
  (field.arguments.map (·.type.height)).max?.getD 0

theorem Field.height_le_argumentHeight {σ : Type} {field : Field σ} {arg : Argument}
    (h : arg ∈ field.arguments) : arg.type.height ≤ field.argumentHeight :=
  List.le_max?_getD_of_mem (List.mem_map_of_mem h)

/-- A call that comes to its end has a result, which may be an error; one that does not has none. -/
abbrev Nested (α : Type) := Option (Except FieldError α)

namespace Nested

variable {α β : Type}

/-- Calls one after the other, up to the first that fails. -/
def inOrder (call : α → Nested β) : List α → Nested (List β)
  | [] => some (.ok [])
  | x :: rest =>
    match call x with
    | some (.ok y) => (inOrder call rest).map (·.map (y :: ·))
    | some (.error e) => some (.error e)
    | none => none

theorem inOrder_eq_some {call : α → Nested β} {f : α → Except FieldError β} {xs : List α}
    (h : ∀ x ∈ xs, call x = some (f x)) : inOrder call xs = some (xs.mapM f) := by
  induction xs with
  | nil => rfl
  | cons x rest ih =>
    rw [List.forall_mem_cons] at h
    rw [inOrder, List.mapM_cons, h.1]
    cases f x with
    | error e => rfl
    | ok y =>
      dsimp only
      rw [ih h.2]
      cases rest.mapM f <;> rfl

/-- Calls that come to their end elsewhere as well come to the same there. -/
theorem inOrder_mono {call call' : α → Nested β} (h : ∀ {x y}, call x = some y → call' x = some y)
    {xs : List α} {ys : Except FieldError (List β)} (hc : inOrder call xs = some ys) :
    inOrder call' xs = some ys := by
  induction xs generalizing ys with
  | nil => exact hc
  | cons x rest ih =>
    rw [inOrder] at hc ⊢
    cases hx : call x with
    | none =>
      rw [hx] at hc
      cases hc
    | some result =>
      rw [hx] at hc
      rw [h hx]
      cases result with
      | error e => exact hc
      | ok y =>
        obtain ⟨zs, hz, rfl⟩ := Option.map_eq_some_iff.1 hc
        exact Option.map_eq_some_iff.2 ⟨zs, ih hz, rfl⟩

end Nested

namespace Registry

variable {σ : Type}

/-! ## The recursion -/

/-- A call that coerces a literal; `nested` makes the calls below it. -/
def coerceCall (r : Registry σ) (vars : Variables)
    (nested : TypeRef → InputValue → Bool → Nested Value) :
    TypeRef → InputValue → (fromVariable : Bool) → Nested Value
  | type, .var name, fromVariable =>
    match Keyed.get? vars name with
    | some v => nested type v true
    | none => nested type .null fromVariable
  | .nonNull inner, literal, fromVariable =>
    if literal.isNull then some (.error (.ofFault (.nullArgument (.nonNull inner))))
    else nested inner literal fromVariable
  | .list _, .null, _ => some (.ok .null)
  | .list item, .list items, fromVariable =>
    (Nested.inOrder (nested item · fromVariable) items).map (·.map .list)
  | .list item, single, fromVariable =>
    (nested item single fromVariable).map (·.map fun v => .list [v])
  | .named _, .null, _ => some (.ok .null)
  | .named name, literal, fromVariable => some (r.coerceNamed name literal fromVariable)

/-- Coerces a literal if calls nest no deeper than allowed. -/
def coerceWithin (r : Registry σ) (vars : Variables) :
    (depth : Nat) → TypeRef → InputValue → (fromVariable : Bool) → Nested Value
  | 0, _, _, _ => none
  | depth + 1, type, literal, fromVariable =>
    r.coerceCall vars (r.coerceWithin vars depth) type literal fromVariable

/-- Coerces one argument of a field if calls nest no deeper than allowed. -/
def coerceArgumentWithin (r : Registry σ) (depth : Nat) (field : Field σ)
    (provided : Keyed InputValue) (vars : Variables) (arg : Argument) : Nested (Option Value) :=
  match givenLiteral? provided vars arg.name, arg.default? with
  | some (literal, fromVariable), _ =>
    (r.coerceWithin vars depth arg.type literal fromVariable).map fun result =>
      (result.map some).mapError (·.inArgument arg.name)
  | none, some default =>
    (r.coerceWithin vars depth arg.type default false).map fun result =>
      (result.map some).mapError (·.inArgument arg.name)
  | none, none =>
    if arg.type.isNonNull then
      some (.error (.ofFault (.missingArgument field.name arg.name arg.type)))
    else some (.ok none)

/-- Coerces declared arguments in turn, up to the first that fails, if calls nest no deeper than
allowed. -/
def coerceDeclaredWithin (r : Registry σ) (depth : Nat) (field : Field σ)
    (provided : Keyed InputValue) (vars : Variables) : List Argument → Nested Arguments
  | [] => some (.ok [])
  | arg :: rest =>
    match r.coerceArgumentWithin depth field provided vars arg with
    | some (.ok v?) =>
      (r.coerceDeclaredWithin depth field provided vars rest).map fun result =>
        result.map fun values => match v? with
          | some v => (arg.name, v) :: values
          | none => values
    | some (.error e) => some (.error e)
    | none => none

/-- Coerces the arguments of a call if the calls for each of them nest no deeper than allowed. -/
def coerceArgumentsWithin (r : Registry σ) (depth : Nat) (field : Field σ)
    (provided : Keyed InputValue) (vars : Variables) : Nested Arguments :=
  match (Keyed.keys provided).find? fun name => (field.argument? name).isNone with
  | some unknown => some (.error (.ofFault (.unknownArgument unknown field.name)))
  | none => r.coerceDeclaredWithin depth field provided vars field.arguments

variable {r : Registry σ} {vars : Variables} {depth : Nat}

theorem coerceCall_mono {nested nested' : TypeRef → InputValue → Bool → Nested Value}
    (h : ∀ {type literal fromVariable x}, nested type literal fromVariable = some x →
      nested' type literal fromVariable = some x)
    {type : TypeRef} {literal : InputValue} {fromVariable : Bool} {x : Except FieldError Value}
    (hc : r.coerceCall vars nested type literal fromVariable = some x) :
    r.coerceCall vars nested' type literal fromVariable = some x := by
  revert hc
  fun_cases coerceCall r vars nested type literal fromVariable <;> intro hc
  case case1 name v hv =>
    rw [coerceCall, hv]
    exact h hc
  case case2 name hv =>
    rw [coerceCall, hv]
    exact h hc
  case case3 inner hvar hn =>
    rw [coerceCall, if_pos hn]
    · exact hc
    · exact hvar
  case case4 inner hvar hn =>
    rw [coerceCall, if_neg hn]
    · exact h hc
    · exact hvar
  case case6 item items =>
    obtain ⟨ys, hys, rfl⟩ := Option.map_eq_some_iff.1 hc
    exact Option.map_eq_some_iff.2 ⟨ys, Nested.inOrder_mono h hys, rfl⟩
  case case7 item hvar hn hl =>
    obtain ⟨y, hy, rfl⟩ := Option.map_eq_some_iff.1 hc
    rw [coerceCall, h hy]
    · rfl
    · exact hvar
    · exact hn
    · exact hl
  case case9 name hvar hn =>
    rw [coerceCall]
    · exact hc
    · exact hvar
    · exact hn
  all_goals exact hc

/-- A result is final: calls may nest deeper and come to the same. -/
theorem coerceWithin_mono {depth' : Nat} (hd : depth ≤ depth') {type : TypeRef}
    {literal : InputValue} {fromVariable : Bool} {x : Except FieldError Value}
    (hc : r.coerceWithin vars depth type literal fromVariable = some x) :
    r.coerceWithin vars depth' type literal fromVariable = some x := by
  induction depth generalizing depth' type literal fromVariable x with
  | zero => cases hc
  | succ depth ih =>
    cases depth' with
    | zero => omega
    | succ depth' => exact coerceCall_mono (ih (by omega)) hc

/-! ## Variables that lead back to themselves -/

/-- Where a variable stands for another one, that for a third and so on without end, no depth is
enough. -/
theorem coerceWithin_eq_none {Endless : String → Prop}
    (h : ∀ name, Endless name → ∃ next, Keyed.get? vars name = some (.var next) ∧ Endless next)
    {name : String} (hname : Endless name) (type : TypeRef) (fromVariable : Bool) :
    r.coerceWithin vars depth type (.var name) fromVariable = none := by
  induction depth generalizing name fromVariable with
  | zero => rfl
  | succ depth ih =>
    obtain ⟨next, hv, hnext⟩ := h name hname
    rw [coerceWithin, coerceCall, hv]
    exact ih hnext true

/-! ## Variables that do not -/

/-- A variable is coerced as its value is, and as `null` without a value. -/
theorem coerce_var (h : vars.Acyclic) (type : TypeRef) (name : String) (fromVariable : Bool) :
    r.coerce vars type (.var name) fromVariable =
      match Keyed.get? vars name with
      | some v => r.coerce vars type v true
      | none => r.coerce vars type .null fromVariable := by
  have hf := h.follow_var name fromVariable
  cases hv : Keyed.get? vars name with
  | none =>
    rw [hv] at hf
    exact coerce_of_follow hf
  | some v =>
    rw [hv] at hf
    -- Both stand for the same.
    exact (coerce_of_follow hf).trans (coerce_of_follow rfl).symm

/-- A call whose literal is no variable makes calls to a smaller type, for literals that mention
nothing else. If these come to what coercion says, so does the call. -/
theorem coerceCall_eq_some {nested : TypeRef → InputValue → Bool → Nested Value} {type : TypeRef}
    {literal : InputValue} {fromVariable : Bool} (hvar : literal.isVar = false)
    (h : ∀ inner v, inner.height < type.height → v.references ⊆ literal.references →
      nested inner v fromVariable = some (r.coerce vars inner v fromVariable)) :
    r.coerceCall vars nested type literal fromVariable =
      some (r.coerce vars type literal fromVariable) := by
  have hf := Variables.follow_of_not_isVar hvar vars fromVariable
  cases type with
  | named name =>
    cases literal with
    | var => cases hvar
    | null => rw [coerce_null hf]; rfl
    | _ => rw [coerce_named name hf nofun]; rfl
  | nonNull inner =>
    by_cases hn : literal = .null
    · subst hn
      rw [coerce_null hf]
      rfl
    · have hinner := h inner literal (Nat.lt_succ_self _) (List.Subset.refl _)
      rw [coerce_nonNull inner hf hn]
      cases literal with
      | var => cases hvar
      | null => exact absurd rfl hn
      | _ => exact hinner
  | list item =>
    have hitem := fun v => h item v (Nat.lt_succ_self _)
    cases literal with
    | var => cases hvar
    | null => rw [coerce_null hf]; rfl
    | list items =>
      have hitems : ∀ v ∈ items, nested item v fromVariable =
          some (r.coerce vars item v fromVariable) := fun v hv =>
        hitem v fun _ hname => InputValue.mem_referencesItems_iff.2 ⟨v, hv, hname⟩
      rw [coerce_items item hf, coerceCall, Nested.inOrder_eq_some hitems]
      rfl
    | _ =>
      rw [coerce_single item hf nofun nofun, coerceCall, hitem _ (List.Subset.refl _)]
      · rfl
      all_goals nofun

/-- **Calls nest no deeper than the type is high, with one more for each rank of variables.** -/
theorem coerceWithin_eq_some (h : vars.Acyclic) {bound : Nat} {type : TypeRef}
    {literal : InputValue} (hbound : ∀ name ∈ literal.references, vars.rank name < bound)
    (hdepth : type.height + bound ≤ depth) (fromVariable : Bool) :
    r.coerceWithin vars depth type literal fromVariable =
      some (r.coerce vars type literal fromVariable) := by
  induction depth generalizing bound type literal fromVariable with
  | zero =>
    have hpos := type.height_pos
    omega
  | succ depth ih =>
    by_cases hvar : literal.isVar = true
    · cases literal with
      | var name =>
        have hrank := hbound name (List.mem_singleton.2 rfl)
        rw [coerceWithin, coerceCall, coerce_var h]
        cases hv : Keyed.get? vars name with
        | none =>
          have hnull : ∀ name ∈ InputValue.null.references, vars.rank name < 0 := by
            intro name hm
            cases hm
          exact ih hnull (by omega) fromVariable
        | some v =>
          -- The value is no part of the literal, but all that it mentions is of smaller rank.
          have hvalue : ∀ name' ∈ v.references, vars.rank name' < bound - 1 := by
            intro name' hm
            have hlt := h.rank_lt_of_mentions ⟨v, hv, hm⟩
            omega
          exact ih hvalue (by omega) true
      | _ => nomatch hvar
    · refine coerceCall_eq_some (Bool.not_eq_true _ ▸ hvar) ?_
      intro inner v hheight hsub
      exact ih (fun name hname => hbound name (hsub hname)) (by omega) fromVariable

/-- No rank exceeds the number of variables. -/
theorem coerceWithin_eq_some_of_lt (h : vars.Acyclic) {type : TypeRef}
    (hdepth : type.height + vars.length < depth) (literal : InputValue) (fromVariable : Bool) :
    r.coerceWithin vars depth type literal fromVariable =
      some (r.coerce vars type literal fromVariable) := by
  have hbound : ∀ name ∈ literal.references, vars.rank name < vars.length + 1 :=
    fun name _ => Nat.lt_succ_of_le (vars.rank_le_length name)
  exact coerceWithin_eq_some h hbound (by omega) fromVariable

/-! ## Arguments -/

variable {field : Field σ} {provided : Keyed InputValue}

theorem coerceArgumentWithin_eq_some (h : vars.Acyclic) {arg : Argument}
    (hdepth : arg.type.height + vars.length < depth) :
    r.coerceArgumentWithin depth field provided vars arg =
      some (r.coerceArgument field provided vars arg) := by
  have hcoerce := coerceWithin_eq_some_of_lt (r := r) h hdepth
  rw [coerceArgumentWithin, coerceArgument]
  cases givenLiteral? provided vars arg.name with
  | some given =>
    dsimp only
    rw [hcoerce]
    rfl
  | none =>
    cases arg.default? with
    | some default =>
      dsimp only
      rw [hcoerce]
      rfl
    | none =>
      dsimp only
      split <;> rfl

theorem coerceDeclaredWithin_eq_some (h : vars.Acyclic) {args : List Argument}
    (hdepth : ∀ arg ∈ args, arg.type.height + vars.length < depth) :
    r.coerceDeclaredWithin depth field provided vars args =
      some (r.coerceDeclared field provided vars args) := by
  induction args with
  | nil => rfl
  | cons arg rest ih =>
    rw [List.forall_mem_cons] at hdepth
    rw [coerceDeclaredWithin, coerceDeclared, coerceArgumentWithin_eq_some h hdepth.1]
    cases r.coerceArgument field provided vars arg with
    | error e => rfl
    | ok v? =>
      dsimp only
      rw [ih hdepth.2]
      cases r.coerceDeclared field provided vars rest with
      | error e => rfl
      | ok values => cases v? <;> rfl

/-- The arguments of a field are coerced if calls may nest as deep as the highest type of an
argument and the number of variables say. -/
theorem coerceArgumentsWithin_eq_some (h : vars.Acyclic)
    (hdepth : field.argumentHeight + vars.length < depth) :
    r.coerceArgumentsWithin depth field provided vars =
      some (r.coerceArguments field provided vars) := by
  rw [coerceArgumentsWithin, coerceArguments]
  cases (Keyed.keys provided).find? fun name => (field.argument? name).isNone with
  | some unknown => rfl
  | none =>
    refine coerceDeclaredWithin_eq_some h ?_
    intro arg harg
    have hle := Field.height_le_argumentHeight harg
    omega

/-- **Coercion ends.** Where no variable leads back to itself, coercing any literal to any type
comes to its end, and so does coercing what is provided for the arguments of any field: calls nest
no deeper than types are high and there are variables. -/
theorem coercion_ends (h : vars.Acyclic) (r : Registry σ) :
    (∀ type literal fromVariable depth, type.height + vars.length < depth →
      r.coerceWithin vars depth type literal fromVariable =
        some (r.coerce vars type literal fromVariable)) ∧
    ∀ (field : Field σ) provided depth, field.argumentHeight + vars.length < depth →
      r.coerceArgumentsWithin depth field provided vars =
        some (r.coerceArguments field provided vars) := by
  constructor
  · intro type literal fromVariable depth hdepth
    exact coerceWithin_eq_some_of_lt h hdepth literal fromVariable
  · intro field provided depth hdepth
    exact coerceArgumentsWithin_eq_some h hdepth

end Registry

namespace Ranking

def compare : Field Unit :=
  ⟨"compare", none, [⟨"pair", none, ranks, none⟩], .named "Rank", .current, none⟩

/-- Two variables and a type of height four: a pair with a half that is given by way of both of
them is coerced where seven calls may nest, and five are too few. -/
theorem coercion_ends_pair :
    chained.Acyclic ∧
      schema.registry.coerceWithin chained 5 ranks pair false = none ∧
      schema.registry.coerceWithin chained 7 ranks pair false =
        some (.ok (.list [.int 1, .int 9])) ∧
      schema.registry.coerceArgumentsWithin 7 compare [("pair", pair)] chained =
        some (.ok [("pair", .list [.int 1, .int 9])]) := by
  obtain ⟨hliteral, harguments⟩ := Registry.coercion_ends acyclic_chained schema.registry
  have hend := hliteral ranks pair false 7 (by decide)
  have hends := harguments compare [("pair", pair)] 7 (by decide)
  exact ⟨acyclic_chained, rfl, hend, hends⟩

end Ranking

end GraphQL
