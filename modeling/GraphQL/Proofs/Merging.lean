import GraphQL.Proofs.Execution.Evaluation
import GraphQL.Proofs.Outcome.Executions
import GraphQL.Proofs.Restriction

/-!
# The same request in other words

Selections may be spelled in several ways: in a fragment that applies to everything, in parts that
are merged again, or more than once (`Selection.Respells`). A respelling changes a selection set at
one place; one level below, what is selected from merged fields changes at several. So what is kept
is that no object type can tell the selections apart, at any level of fields (`Registry.AskAlike`):
that is compatible with putting selections together (`AskAlike.append`) and kept by every respelling
(`Respells.askAlike`). Selections that ask alike have one and the same job (`objectJob_congr`), so
nothing in an execution is any different (`execute_respelled`).
-/

namespace GraphQL

variable {σ : Type}

/-- The field with other selections below it. -/
def FieldNode.select {Sel : Type} (node : FieldNode Sel) (selections : List Sel) : FieldNode Sel :=
  { node with selections? := some selections }

/-- The second list is another spelling of the first: at one place, at any depth, selections have
been enclosed in a fragment without a condition, a field has been divided in two that have its
selections between them, or a selection has been repeated further behind. -/
inductive Selection.Respells : List Selection → List Selection → Prop where
  | enclose (before run after : List Selection) :
    Respells (before ++ run ++ after) (before ++ .fragment none run :: after)
  | divide (before : List Selection) (node : FieldNode Selection) (first second : List Selection)
    (after : List Selection) :
    Respells (before ++ .field (node.select (first ++ second)) :: after)
      (before ++ .field (node.select first) :: .field (node.select second) :: after)
  | copy (before : List Selection) (selection : Selection) (between after : List Selection) :
    Respells (before ++ selection :: between ++ after)
      (before ++ selection :: between ++ selection :: after)
  | field (before : List Selection) (node : FieldNode Selection) {xs ys : List Selection}
    (after : List Selection) (h : Respells xs ys) :
    Respells (before ++ .field (node.select xs) :: after)
      (before ++ .field (node.select ys) :: after)
  | fragment (before : List Selection) (condition? : Option String) {xs ys : List Selection}
    (after : List Selection) (h : Respells xs ys) :
    Respells (before ++ .fragment condition? xs :: after)
      (before ++ .fragment condition? ys :: after)

/-! ## Respelled requests can be bound -/

namespace Schema

variable {s : Schema σ}

theorem bindAll_cons_eq_nil_iff {owner : TypeDef σ} {path : List String} {selection : Selection}
    {rest : List Selection} : s.bindAll owner path (selection :: rest) = [] ↔
      s.bindSelection owner path selection = [] ∧ s.bindAll owner path rest = [] := by
  rw [bindAll, List.append_eq_nil_iff]

theorem bindAll_append_eq_nil_iff {owner : TypeDef σ} {path : List String}
    {xs ys : List Selection} : s.bindAll owner path (xs ++ ys) = [] ↔
      s.bindAll owner path xs = [] ∧ s.bindAll owner path ys = [] := by
  rw [bindAll_append, List.append_eq_nil_iff]

theorem bindSelection_fragment_none (owner : TypeDef σ) (path : List String)
    (selections : List Selection) :
    s.bindSelection owner path (.fragment none selections) = s.bindAll owner path selections := by
  rw [bindSelection]
  rfl

/-- A field with selections can be bound if it is bound to a leaf, or to a type that they can be
bound to. -/
theorem bindSelection_select_eq_nil_iff {owner : TypeDef σ} {path : List String}
    {node : FieldNode Selection} {selections : List Selection} :
    s.bindSelection owner path (.field (node.select selections)) = [] ↔
      match s.bindField owner node.name true with
      | .faulty faults => faults = []
      | .composite t => s.bindAll t (path ++ [node.responseKey]) selections = []
      | .leaf => True := by
  obtain ⟨alias?, name, arguments, selections?⟩ := node
  rw [FieldNode.select, bindSelection]
  cases s.bindField owner name true with
  | faulty faults => exact List.map_eq_nil_iff
  | composite t => exact Iff.rfl
  | leaf => exact Iff.of_eq (eq_self _)

theorem bindAll_of_respells {xs ys : List Selection} (h : Selection.Respells xs ys)
    (owner : TypeDef σ) (path : List String) :
    s.bindAll owner path xs = [] ↔ s.bindAll owner path ys = [] := by
  induction h generalizing owner path with
  | enclose before run after =>
    simp only [bindAll_append_eq_nil_iff, bindAll_cons_eq_nil_iff, bindSelection_fragment_none,
      and_assoc]
  | divide before node first second after =>
    rw [bindAll_append_eq_nil_iff, bindAll_append_eq_nil_iff]
    simp only [bindAll_cons_eq_nil_iff, bindSelection_select_eq_nil_iff]
    cases s.bindField owner node.name true with
    | composite t =>
      simp only [bindAll_append_eq_nil_iff]
      tauto
    | _ => tauto
  | copy before selection between after =>
    simp only [bindAll_append_eq_nil_iff, bindAll_cons_eq_nil_iff]
    tauto
  | field before node after h ih =>
    simp only [bindAll_append_eq_nil_iff, bindAll_cons_eq_nil_iff, bindSelection_select_eq_nil_iff]
    cases s.bindField owner node.name true with
    | composite t => simp only [ih]
    | _ => exact Iff.rfl
  | fragment before condition? after h ih =>
    simp only [bindAll_append_eq_nil_iff, bindAll_cons_eq_nil_iff, bindSelection]
    cases s.bindCondition owner condition? with
    | ok t => simp only [ih]
    | error fault => simp

end Schema

/-! ## Response keys in the order of first appearance -/

theorem eraseDups_filter (p : String → Bool) (keys : List String) :
    (keys.filter p).eraseDups = keys.eraseDups.filter p := by
  induction hn : keys.length using Nat.strong_induction_on generalizing keys with
  | _ n ih =>
    cases keys with
    | nil => rfl
    | cons key rest =>
      have hlt : (rest.filter fun b => !b == key).length < n :=
        hn ▸ Nat.lt_succ_of_le (List.length_filter_le ..)
      have hrest := ih _ hlt _ rfl
      rw [List.filter_filter] at hrest
      rw [List.eraseDups_cons]
      by_cases hp : p key = true
      · rw [List.filter_cons_of_pos hp, List.filter_cons_of_pos hp, List.eraseDups_cons,
          List.filter_filter, ← hrest]
        simp only [Bool.and_comm]
      · rw [List.filter_cons_of_neg hp, List.filter_cons_of_neg hp, ← hrest]
        refine congrArg List.eraseDups (List.filter_congr ?_)
        intro key' _
        by_cases hk : key' = key
        · simp [hk, hp]
        · simp [hk]

theorem eraseDups_append_congr {xs xs' ys ys' : List String} (hx : xs.eraseDups = xs'.eraseDups)
    (hy : ys.eraseDups = ys'.eraseDups) : (xs ++ ys).eraseDups = (xs' ++ ys').eraseDups := by
  have hmem : ∀ key, key ∈ xs ↔ key ∈ xs' := by
    intro key
    rw [← List.mem_eraseDups, hx, List.mem_eraseDups]
  have hremove : ∀ zs : List String, zs.removeAll xs = zs.removeAll xs' := by
    intro zs
    refine List.filter_congr ?_
    intro key _
    simp only [List.elem_eq_mem, hmem]
  have hremoved : (ys.removeAll xs').eraseDups = (ys'.removeAll xs').eraseDups := by
    unfold List.removeAll
    rw [eraseDups_filter, eraseDups_filter, hy]
  rw [List.eraseDups_append, List.eraseDups_append, hx, hremove, hremoved]

/-! ## Selections that cannot be told apart -/

namespace Registry

variable {r : Registry σ}

theorem nodesOf_append (key : String) (xs ys : List (FieldNode Selection)) :
    nodesOf key (xs ++ ys) = nodesOf key xs ++ nodesOf key ys :=
  List.filter_append ..

theorem lead?_append (xs ys : List (FieldNode Selection)) :
    FieldNode.lead? (xs ++ ys) = (FieldNode.lead? xs).or (FieldNode.lead? ys) := by
  cases xs <;> rfl

/-- The selections make groups of the same response keys in the same order for every object type,
and groups of one key ask for the same field with the same arguments and, further down, for what
cannot be told apart either, as far as so many levels of fields. -/
def AskAlike (r : Registry σ) : (depth : Nat) → (xs ys : List Selection) → Prop
  | 0, _, _ => True
  | depth + 1, xs, ys => ∀ o : ObjectType σ,
    Keyed.keys (r.collect o xs) = Keyed.keys (r.collect o ys) ∧
    ∀ key, FieldNode.lead? (nodesOf key (r.flatten o xs)) =
        FieldNode.lead? (nodesOf key (r.flatten o ys)) ∧
      AskAlike r depth ((nodesOf key (r.flatten o xs)).flatMap FieldNode.children)
        ((nodesOf key (r.flatten o ys)).flatMap FieldNode.children)

namespace AskAlike

variable {depth : Nat} {xs xs' ys ys' : List Selection}

theorem refl (depth : Nat) (xs : List Selection) : r.AskAlike depth xs xs := by
  induction depth generalizing xs with
  | zero => trivial
  | succ depth ih => exact fun o => ⟨rfl, fun key => ⟨rfl, ih _⟩⟩

/-- Selections that come to the same field nodes ask alike. -/
theorem of_flatten_eq (h : ∀ o : ObjectType σ, r.flatten o xs = r.flatten o ys) (depth : Nat) :
    r.AskAlike depth xs ys := by
  cases depth with
  | zero => trivial
  | succ depth =>
    intro o
    rw [keys_collect, keys_collect, h o]
    exact ⟨rfl, fun key => ⟨rfl, refl depth _⟩⟩

/-- **Selections that ask alike may be put together.** -/
theorem append (h : r.AskAlike depth xs xs') (h' : r.AskAlike depth ys ys') :
    r.AskAlike depth (xs ++ ys) (xs' ++ ys') := by
  induction depth generalizing xs xs' ys ys' with
  | zero => trivial
  | succ depth ih =>
    intro o
    obtain ⟨hk, hg⟩ := h o
    obtain ⟨hk', hg'⟩ := h' o
    rw [keys_collect, keys_collect] at hk hk' ⊢
    simp only [flatten_append, List.map_append, nodesOf_append, lead?_append, List.flatMap_append]
    refine ⟨eraseDups_append_congr hk hk', ?_⟩
    intro key
    obtain ⟨hlead, hchildren⟩ := hg key
    obtain ⟨hlead', hchildren'⟩ := hg' key
    exact ⟨by rw [hlead, hlead'], ih hchildren hchildren'⟩

/-- Selections that ask alike may be exchanged where they stand. -/
theorem within (before after : List Selection) (h : r.AskAlike depth xs ys) :
    r.AskAlike depth (before ++ xs ++ after) (before ++ ys ++ after) :=
  ((refl depth before).append h).append (refl depth after)

/-- **What has been asked for may be asked for again.** -/
theorem again (depth : Nat) (xs between : List Selection) :
    r.AskAlike depth (xs ++ between) (xs ++ between ++ xs) := by
  induction depth generalizing xs between with
  | zero => trivial
  | succ depth ih =>
    intro o
    rw [keys_collect, keys_collect]
    simp only [flatten_append, List.map_append, nodesOf_append, lead?_append, List.flatMap_append]
    constructor
    · generalize (r.flatten o xs).map FieldNode.responseKey = keys
      generalize (r.flatten o between).map FieldNode.responseKey = keys'
      have hnone : keys.removeAll (keys ++ keys') = [] := by
        simp only [List.removeAll, List.filter_eq_nil_iff]
        intro key hm
        simp [hm]
      have herase : (keys ++ keys' ++ keys).eraseDups = (keys ++ keys').eraseDups := by
        rw [List.eraseDups_append, hnone, List.eraseDups_nil, List.append_nil]
      exact herase.symm
    · intro key
      refine ⟨?_, ih _ _⟩
      cases FieldNode.lead? (nodesOf key (r.flatten o xs)) <;> simp

theorem flatten_select (o : ObjectType σ) (node : FieldNode Selection) (selections : List Selection)
    (rest : List Selection) : r.flatten o (.field (node.select selections) :: rest) =
      (if o.declares node.name then [node.select selections] else []) ++ r.flatten o rest := rfl

theorem nodesOf_select (key : String) (node : FieldNode Selection) (selections : List Selection)
    (rest : List (FieldNode Selection)) : nodesOf key (node.select selections :: rest) =
      if node.responseKey = key then node.select selections :: nodesOf key rest
      else nodesOf key rest := by
  have hk : (node.select selections).responseKey = node.responseKey := rfl
  simp only [nodesOf, List.filter_cons, hk, beq_iff_eq]

/-- What is selected from a field may be exchanged for what asks alike. -/
theorem select (node : FieldNode Selection) (h : r.AskAlike depth xs ys) :
    r.AskAlike (depth + 1) [.field (node.select xs)] [.field (node.select ys)] := by
  intro o
  rw [keys_collect, keys_collect, flatten_select, flatten_select]
  by_cases hd : o.declares node.name = true
  · refine ⟨by simp only [hd]; rfl, ?_⟩
    intro key
    simp only [hd, if_true, flatten, List.append_nil, nodesOf_select]
    split
    · simp only [nodesOf, List.filter_nil, List.flatMap_cons, List.flatMap_nil, List.append_nil]
      exact ⟨rfl, h⟩
    · exact ⟨rfl, refl depth _⟩
  · simp only [hd]
    exact ⟨rfl, fun key => ⟨rfl, refl depth _⟩⟩

/-- A field may be divided into two that have its selections between them. -/
theorem divide (depth : Nat) (node : FieldNode Selection) (xs ys : List Selection) :
    r.AskAlike depth [.field (node.select (xs ++ ys))]
      [.field (node.select xs), .field (node.select ys)] := by
  cases depth with
  | zero => trivial
  | succ depth =>
    intro o
    rw [keys_collect, keys_collect, flatten_select, flatten_select, flatten_select]
    by_cases hd : o.declares node.name = true
    · have hk : ∀ selections, (node.select selections).responseKey = node.responseKey :=
        fun _ => rfl
      refine ⟨by simp [hd, flatten, hk, List.eraseDups_cons], ?_⟩
      intro key
      simp only [hd, if_true, flatten, List.append_nil, List.singleton_append, nodesOf_select]
      split
      · simp only [nodesOf, List.filter_nil, List.flatMap_cons, List.flatMap_nil, List.append_nil]
        exact ⟨rfl, refl depth _⟩
      · exact ⟨rfl, refl depth _⟩
    · simp only [hd]
      exact ⟨rfl, fun key => ⟨rfl, refl depth _⟩⟩

/-- What stands in a fragment may be exchanged for what asks alike. -/
theorem inside (condition? : Option String) (h : r.AskAlike depth xs ys) :
    r.AskAlike depth [.fragment condition? xs] [.fragment condition? ys] := by
  cases depth with
  | zero => trivial
  | succ depth =>
    intro o
    obtain ⟨hk, hg⟩ := h o
    rw [keys_collect, keys_collect] at hk ⊢
    cases condition? with
    | none =>
      simp only [flatten, flattenSelection, List.append_nil]
      exact ⟨hk, hg⟩
    | some condition =>
      simp only [flatten, flattenSelection, List.append_nil]
      by_cases ha : r.fragmentApplies condition o.name = true
      · simp only [ha, if_true]
        exact ⟨hk, hg⟩
      · simp only [ha]
        exact ⟨rfl, fun key => ⟨rfl, refl depth _⟩⟩

end AskAlike

end Registry

/-- **Respelled selections ask alike.** -/
theorem Selection.Respells.askAlike {r : Registry σ} {xs ys : List Selection}
    (h : Selection.Respells xs ys) (depth : Nat) : r.AskAlike depth xs ys := by
  have hcons : ∀ (before after : List Selection) (selection : Selection),
      before ++ selection :: after = before ++ [selection] ++ after := by simp
  induction h generalizing depth with
  | enclose before run after =>
    rw [hcons before]
    refine Registry.AskAlike.within before after (.of_flatten_eq (fun o => ?_) depth)
    simp only [Registry.flatten, Registry.flattenSelection, List.append_nil]
  | divide before node first second after =>
    have hpair : before ++ .field (node.select first) :: .field (node.select second) :: after =
        before ++ [.field (node.select first), .field (node.select second)] ++ after := by simp
    rw [hcons before, hpair]
    exact .within before after (.divide depth node first second)
  | copy before selection between after =>
    have hagain : r.AskAlike depth ([selection] ++ between)
        ([selection] ++ between ++ [selection]) := .again depth [selection] between
    have hcopy : before ++ selection :: between ++ selection :: after =
        before ++ ([selection] ++ between ++ [selection]) ++ after := by simp
    rw [hcopy]
    exact hagain.within before after
  | @field before node xs ys after h ih =>
    rw [hcons before after (.field (node.select xs)), hcons before after (.field (node.select ys))]
    cases depth with
    | zero => trivial
    | succ depth => exact .within before after (.select node (ih depth))
  | @fragment before condition? xs ys after h ih =>
    rw [hcons before after (.fragment condition? xs), hcons before after (.fragment condition? ys)]
    exact .within before after (.inside condition? (ih depth))

/-! ## Requests that ask alike have the same job -/

namespace Context

variable {ctx : Context σ}

/-- The jobs of two requests are the same if their groups have the same keys and the jobs of the
groups of a key are the same. -/
theorem fieldJobs_congr {object object' : ObjectJob σ} {groups groups' : Groups}
    (hk : Keyed.keys groups = Keyed.keys groups') (o : ObjectType σ) (parent : Value) (path : Path)
    (h : ∀ key nodes nodes', (key, nodes) ∈ groups → (key, nodes') ∈ groups' →
      ctx.fieldJob object o parent nodes (path.field key) =
        ctx.fieldJob object' o parent nodes' (path.field key)) :
    ctx.fieldJobs object o parent groups path = ctx.fieldJobs object' o parent groups' path := by
  induction groups generalizing groups' with
  | nil =>
    cases groups' with
    | nil => rfl
    | cons group' rest' => nomatch hk
  | cons group rest ih =>
    cases groups' with
    | nil => nomatch hk
    | cons group' rest' =>
      obtain ⟨key, nodes⟩ := group
      obtain ⟨key', nodes'⟩ := group'
      simp only [Keyed.keys, List.map_cons, List.cons.injEq] at hk
      obtain ⟨rfl, hk⟩ := hk
      have hhead := h key nodes nodes' List.mem_cons_self List.mem_cons_self
      have hrest := ih hk fun key nodes nodes' hm hm' =>
        h key nodes nodes' (List.mem_cons_of_mem _ hm) (List.mem_cons_of_mem _ hm')
      simp only [fieldJobs, List.map_cons] at hrest ⊢
      rw [hhead, hrest]

/-- The jobs of requests that ask alike are the same, if those of the objects below are. -/
theorem fieldJobs_of_askAlike {depth : Nat} {object object' : ObjectJob σ}
    {xs ys : List Selection} (h : ctx.schema.registry.AskAlike (depth + 1) xs ys)
    (hobject : ∀ {key nodes nodes'} (o : ObjectType σ),
      (key, nodes) ∈ ctx.schema.registry.collect o xs →
      (key, nodes') ∈ ctx.schema.registry.collect o ys →
      ctx.schema.registry.AskAlike depth (nodes.flatMap FieldNode.children)
        (nodes'.flatMap FieldNode.children) →
      ∀ o v path, object o v (nodes.flatMap FieldNode.children) path =
        object' o v (nodes'.flatMap FieldNode.children) path)
    (o : ObjectType σ) (v : Value) (path : Path) :
    ctx.fieldJobs object o v (ctx.schema.registry.collect o xs) path =
      ctx.fieldJobs object' o v (ctx.schema.registry.collect o ys) path := by
  obtain ⟨hk, hg⟩ := h o
  refine fieldJobs_congr hk o v path ?_
  intro key nodes nodes' hm hm'
  obtain ⟨hlead, hchildren⟩ := hg key
  have hobject := hobject o hm hm'
  obtain ⟨rfl, -⟩ := Registry.mem_collect_iff.1 hm
  obtain ⟨rfl, -⟩ := Registry.mem_collect_iff.1 hm'
  exact fieldJob_congr hlead (hobject hchildren) o v _

/-- **Selections that ask alike have the same job.** -/
theorem objectJob_congr {depth : Nat} {xs ys : List Selection}
    (h : ctx.schema.registry.AskAlike depth xs ys) (o : ObjectType σ) (v : Value) (path : Path) :
    ctx.objectJob depth o v xs path = ctx.objectJob depth o v ys path := by
  induction depth generalizing xs ys o v path with
  | zero => rfl
  | succ depth ih =>
    have hjobs := fieldJobs_of_askAlike h (fun _ _ _ h => ih h) o v path
    rw [objectJob, objectJob, hjobs, (h o).1]

theorem operationJob_congr {operation : Operation} {selections : List Selection}
    (h : ∀ depth, ctx.schema.registry.AskAlike depth operation.selections selections)
    (root : Value) :
    ctx.operationJob { operation with selections := selections } root =
      ctx.operationJob operation root := by
  unfold operationJob
  cases ctx.schema.root? operation.kind with
  | none => rfl
  | some o =>
    -- both are executed to a depth that will do for either
    let depth := max (Selection.depthAll operation.selections) (Selection.depthAll selections)
    have hjobs : ctx.fieldJobs (ctx.objectJob (Selection.depthAll operation.selections)) o root
          (ctx.schema.registry.collect o operation.selections) [] =
        ctx.fieldJobs (ctx.objectJob (Selection.depthAll selections)) o root
          (ctx.schema.registry.collect o selections) [] := by
      refine fieldJobs_of_askAlike (h (depth + 1)) ?_ o root []
      intro key nodes nodes' o hm hm' hchildren o v path
      have hlt := Registry.depthAll_children_lt_of_mem_collect hm
      have hlt' := Registry.depthAll_children_lt_of_mem_collect hm'
      rw [objectJob_eq hlt.le (hlt.le.trans (Nat.le_max_left _ _)), objectJob_congr hchildren,
        objectJob_eq (hlt'.le.trans (Nat.le_max_right _ _)) hlt'.le]
    dsimp only
    rw [hjobs, (h 1 o).1]

end Context

namespace Schema

variable {s : Schema σ} {operation : Operation} {selections : List Selection}

theorem bind_respelled (h : Selection.Respells operation.selections selections) :
    s.bind { operation with selections := selections } = [] ↔ s.bind operation = [] := by
  unfold bind
  dsimp only
  cases (s.rootName? operation.kind).bind s.registry.get? with
  | none => exact Iff.rfl
  | some root => exact (bindAll_of_respells h root []).symm

/-- The job of a respelled operation is that of the operation. -/
theorem job_respelled (h : Selection.Respells operation.selections selections)
    (hb : s.bind operation = []) (index : Nat) (root : Value) (vars : Variables) :
    s.job index ⟨{ operation with selections := selections }, root, vars⟩ =
      s.job index ⟨operation, root, vars⟩ := by
  have hb' : s.bind { operation with selections := selections } = [] := (bind_respelled h).2 hb
  have hjob :
      Context.operationJob ⟨index, s, vars⟩ { operation with selections := selections } root =
        Context.operationJob ⟨index, s, vars⟩ operation root :=
    Context.operationJob_congr h.askAlike root
  simp only [job, hb, hb', hjob]

/-- **Respelling an operation changes nothing.** The operation can be bound if and only if it could
be before, and then its executions are the same in every respect: the output, the state that
resolvers leave, and all that happens and when, the calls of resolvers among it. -/
theorem execute_respelled (h : Selection.Respells operation.selections selections) :
    (s.bind { operation with selections := selections } = [] ↔ s.bind operation = []) ∧
    (s.bind operation = [] → ∀ root vars,
      (∀ limit? state,
        s.execute limit? ⟨{ operation with selections := selections }, root, vars⟩ state =
          s.execute limit? ⟨operation, root, vars⟩ state) ∧
      ∀ state log out,
        s.EndsWith ⟨{ operation with selections := selections }, root, vars⟩ state log out ↔
          s.EndsWith ⟨operation, root, vars⟩ state log out) := by
  refine ⟨bind_respelled h, ?_⟩
  intro hb root vars
  have hb' := (bind_respelled h).2 hb
  have hjob := job_respelled h hb 0 root vars
  have hanswer : ∀ log data,
      s.answer log 0 ⟨{ operation with selections := selections }, root, vars⟩ data =
        s.answer log 0 ⟨operation, root, vars⟩ data := by
    intro log data
    simp only [answer, hb, hb']
  constructor
  · intro limit? state
    simp only [execute, hjob, hanswer]
  · intro state log out
    simp only [EndsWith, hjob, hanswer]

end Schema

namespace Sample

/-- What is asked for of what is found: the parts of an item, in a fragment. -/
def parts : Selection :=
  .fragment (some "Item") [field "parts" [field "name" []]]

/-- The operation with the name of what is found asked for once more, behind the fragment. -/
def respelled : List Selection :=
  [field "found" [field "__typename" [], field "name" [], parts, field "name" []],
    field "item" [field "name" []]]

theorem respells : Selection.Respells operation.selections respelled :=
  .field [] ⟨none, "found", [], none⟩ [field "item" [field "name" []]]
    (.copy [field "__typename" []] (field "name" []) [parts] [])

/-- Asking for a name twice gives one entry, in its first place. -/
theorem execute_respelled_sample :
    Selection.Respells operation.selections respelled ∧ schema.bind operation = [] ∧
      schema.bind { operation with selections := respelled } = [] ∧
      (schema.execute none ⟨{ operation with selections := respelled }, run.root, []⟩ ()).ending =
        .ok (.ok ⟨data, LocatedError.sorted errors⟩) := by
  obtain ⟨hbind, hsame⟩ := @Schema.execute_respelled _ schema _ _ respells
  have hb : schema.bind operation = [] := rfl
  obtain ⟨hexecute, -⟩ := hsame hb run.root []
  refine ⟨respells, hb, hbind.2 hb, ?_⟩
  rw [hexecute none ()]
  exact ending_execute

end Sample

end GraphQL
