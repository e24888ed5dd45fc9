import GraphQL.Proofs.Outcome.Runs

/-!
# Asking under one response key alone

`Run.only key` leaves of an operation what it asks for at the root under one response key. That can
be bound where the operation can (`Schema.bind_only`), is collected to the group of the key
(`Registry.collect_onlyAll`), and the job of the group is the same as before (`fieldJobs_onlyAll`):
the nesting of other selections, which bounds the depth of jobs, has no influence on them
(`objectJob_eq`).
-/

namespace GraphQL

variable {σ : Type}

namespace Selection

mutual

/-- What a selection asks for under a response key; the fragments around it stay. -/
def only (key : String) : Selection → List Selection
  | .field node => if node.responseKey = key then [.field node] else []
  | .fragment condition? selections => [.fragment condition? (onlyAll key selections)]

/-- What selections ask for under a response key. -/
def onlyAll (key : String) : List Selection → List Selection
  | [] => []
  | selection :: rest => only key selection ++ onlyAll key rest

end

end Selection

/-- The execution of what is asked for under one response key at the root. -/
def Run.only (run : Run) (key : String) : Run :=
  { run with
    operation := { run.operation with
      selections := Selection.onlyAll key run.operation.selections } }

/-! ## What is asked for can be bound -/

namespace Schema

variable {s : Schema σ}

theorem bindAll_append (owner : TypeDef σ) (path : List String) (xs ys : List Selection) :
    s.bindAll owner path (xs ++ ys) = s.bindAll owner path xs ++ s.bindAll owner path ys := by
  induction xs with
  | nil => rfl
  | cons x xs ih => rw [List.cons_append, bindAll, bindAll, ih, List.append_assoc]

mutual

theorem bindAll_only (key : String) : (selection : Selection) → {owner : TypeDef σ} →
    {path : List String} → s.bindSelection owner path selection = [] →
    s.bindAll owner path (selection.only key) = []
  | .field node, owner, path, h => by
    rw [Selection.only]
    split
    · rw [bindAll, h]
      rfl
    · rfl
  | .fragment condition? selections, owner, path, h => by
    rw [bindSelection] at h
    rw [Selection.only, bindAll, bindSelection]
    cases hc : s.bindCondition owner condition? with
    | error fault => simp [hc] at h
    | ok t =>
      simp only [hc] at h
      simp only [bindAll_onlyAll key selections h]
      rfl

theorem bindAll_onlyAll (key : String) : (selections : List Selection) → {owner : TypeDef σ} →
    {path : List String} → s.bindAll owner path selections = [] →
    s.bindAll owner path (Selection.onlyAll key selections) = []
  | [], _, _, _ => rfl
  | selection :: rest, owner, path, h => by
    rw [bindAll, List.append_eq_nil_iff] at h
    rw [Selection.onlyAll, bindAll_append, bindAll_only key selection h.1,
      bindAll_onlyAll key rest h.2]
    rfl

end

theorem bind_only {run : Run} (h : s.bind run.operation = []) (key : String) :
    s.bind (run.only key).operation = [] := by
  unfold bind at h ⊢
  have hkind : (run.only key).operation.kind = run.operation.kind := rfl
  rw [hkind]
  cases hr : (s.rootName? run.operation.kind).bind s.registry.get? with
  | none => simp [hr] at h
  | some root =>
    rw [hr] at h
    exact bindAll_onlyAll key _ h

end Schema

/-! ## What is collected -/

namespace Registry

variable {r : Registry σ} {o : ObjectType σ}

theorem flatten_append (xs ys : List Selection) :
    r.flatten o (xs ++ ys) = r.flatten o xs ++ r.flatten o ys := by
  induction xs with
  | nil => rfl
  | cons x xs ih => rw [List.cons_append, flatten, flatten, ih, List.append_assoc]

mutual

theorem flatten_only (key : String) : (selection : Selection) →
    r.flatten o (selection.only key) = nodesOf key (r.flattenSelection o selection)
  | .field node => by
    rw [Selection.only, flattenSelection]
    by_cases hk : node.responseKey = key <;> by_cases hd : o.declares node.name = true <;>
      simp [flatten, flattenSelection, nodesOf, hk, hd]
  | .fragment none selections => by
    rw [Selection.only, flattenSelection, flatten, flattenSelection, flatten_onlyAll key selections]
    simp [flatten]
  | .fragment (some condition) selections => by
    rw [Selection.only, flattenSelection, flatten, flattenSelection, flatten_onlyAll key selections]
    split <;> simp [flatten, nodesOf]

theorem flatten_onlyAll (key : String) : (selections : List Selection) →
    r.flatten o (Selection.onlyAll key selections) = nodesOf key (r.flatten o selections)
  | [] => by simp [Selection.onlyAll, flatten, nodesOf]
  | selection :: rest => by
    rw [Selection.onlyAll, flatten_append, flatten_only key selection, flatten_onlyAll key rest,
      flatten]
    exact (List.filter_append ..).symm

end

/-- Of the groups, the one of the response key is left. -/
theorem collect_onlyAll {selections : List Selection} {key : String}
    {nodes : List (FieldNode Selection)} (h : (key, nodes) ∈ r.collect o selections) :
    r.collect o (Selection.onlyAll key selections) = [(key, nodes)] := by
  obtain ⟨rfl, hne⟩ := mem_collect_iff.1 h
  have hnodup : (r.collect o (Selection.onlyAll key selections)).Nodup :=
    .of_map Prod.fst (r.nodup_keys_collect o _)
  refine List.perm_singleton.1 ((List.perm_ext_iff_of_nodup hnodup (List.nodup_singleton _)).2 ?_)
  rintro ⟨key', nodes'⟩
  rw [mem_collect_iff, flatten_onlyAll, List.mem_singleton]
  by_cases hk : key' = key
  · subst hk
    simp only [nodesOf, List.filter_filter, Bool.and_self] at hne ⊢
    simp only [Prod.mk.injEq, true_and]
    exact ⟨fun h => h.1, fun h => ⟨h, h ▸ hne⟩⟩
  · have hnone : nodesOf key' (nodesOf key (r.flatten o selections)) = [] := by
      simp only [nodesOf, List.filter_filter, List.filter_eq_nil_iff]
      intro node _ hboth
      simp only [Bool.and_eq_true, beq_iff_eq] at hboth
      exact hk (hboth.1.symm.trans hboth.2)
    rw [hnone]
    simp [hk]

end Registry

/-! ## The depth of other selections has no influence -/

/-- What the first node of a group decides: the name of the field and its arguments. -/
def FieldNode.lead? {Sel : Type} (nodes : List (FieldNode Sel)) :
    Option (String × Keyed InputValue) :=
  nodes.head?.map fun node => (node.name, node.arguments)

namespace Context

variable {ctx : Context σ}

section SameObjects

variable {object object' : ObjectJob σ} {selections selections' : List Selection}

theorem completeAbstract_congr
    (h : ∀ o v path, object o v selections path = object' o v selections' path)
    (abstract : String) (resolveType? : Option TypeResolver) (v : Value) (path : Path) :
    ctx.completeAbstract object abstract resolveType? v selections path =
      ctx.completeAbstract object' abstract resolveType? v selections' path := by
  simp only [completeAbstract, h]

theorem completeNullable_congr
    (h : ∀ o v path, object o v selections path = object' o v selections' path) (type : TypeRef)
    (v : Value) (path : Path) :
    ctx.completeNullable object selections type v path =
      ctx.completeNullable object' selections' type v path := by
  induction type generalizing v path with
  | nonNull t ih =>
    rw [completeNullable, completeNullable]
    exact ih v path
  | list item ih =>
    unfold completeNullable
    simp only [ih]
  | named name =>
    unfold completeNullable
    simp only [completeNamed, h, completeAbstract_congr h]

theorem completeField_congr {nodes nodes' : List (FieldNode Selection)}
    (h : ∀ o v path, object o v (nodes.flatMap FieldNode.children) path =
      object' o v (nodes'.flatMap FieldNode.children) path) (type : TypeRef) (path : Path) :
    ctx.completeField object nodes type path = ctx.completeField object' nodes' type path := by
  funext result
  cases result with
  | ok v => simp only [completeField, complete, completeNullable_congr h]
  | error e => rfl

/-- Of the first node of a group nothing counts but its name and its arguments, and of all nodes
what they select. -/
theorem fieldJob_congr {nodes nodes' : List (FieldNode Selection)}
    (hlead : FieldNode.lead? nodes = FieldNode.lead? nodes')
    (h : ∀ o v path, object o v (nodes.flatMap FieldNode.children) path =
      object' o v (nodes'.flatMap FieldNode.children) path)
    (o : ObjectType σ) (parent : Value) (path : Path) :
    ctx.fieldJob object o parent nodes path = ctx.fieldJob object' o parent nodes' path := by
  have hfield : ∀ type path, ctx.completeField object nodes type path =
      ctx.completeField object' nodes' type path := completeField_congr h
  cases nodes with
  | nil =>
    cases nodes' with
    | nil => rfl
    | cons node' rest' => nomatch hlead
  | cons node rest =>
    cases nodes' with
    | nil => nomatch hlead
    | cons node' rest' =>
      simp only [FieldNode.lead?, List.head?_cons, Option.map_some, Option.some.injEq,
        Prod.mk.injEq] at hlead
      simp only [fieldJob, resolveField, hfield, hlead]

end SameObjects

/-- Two bounds give the same job, if the request is not nested deeper than either. -/
theorem objectJob_eq {depth depth' : Nat} {selections : List Selection}
    (hd : Selection.depthAll selections ≤ depth) (hd' : Selection.depthAll selections ≤ depth')
    (o : ObjectType σ) (v : Value) (path : Path) :
    ctx.objectJob depth o v selections path = ctx.objectJob depth' o v selections path := by
  have hnil : ∀ {selections : List Selection}, Selection.depthAll selections ≤ 0 → ∀ depth o v path,
      ctx.objectJob depth o v selections path = .sideBySide (.assembleObject []) [] := by
    intro selections hd depth o v path
    cases depth with
    | zero => rfl
    | succ depth =>
      rw [objectJob, collect_eq_nil_of_depthAll_eq_zero (Nat.le_zero.1 hd)]
      rfl
  induction depth generalizing depth' selections o v path with
  | zero => rw [hnil hd, hnil hd]
  | succ depth ih =>
    cases depth' with
    | zero => rw [hnil hd', hnil hd']
    | succ depth' =>
      have hjobs : ctx.fieldJobs (ctx.objectJob depth) o v
            (ctx.schema.registry.collect o selections) path =
          ctx.fieldJobs (ctx.objectJob depth') o v
            (ctx.schema.registry.collect o selections) path := by
        refine List.map_congr_left ?_
        rintro ⟨key, nodes⟩ hm
        have hlt := Registry.depthAll_children_lt_of_mem_collect hm
        exact fieldJob_congr rfl (fun o v path => ih (by omega) (by omega) o v path) o v _
      rw [objectJob, objectJob, hjobs]

/-- Alone, what is asked for under a response key has the same job. -/
theorem fieldJobs_onlyAll {o : ObjectType σ} {selections : List Selection} {key : String}
    {nodes : List (FieldNode Selection)}
    (h : (key, nodes) ∈ ctx.schema.registry.collect o selections) (parent : Value) :
    ctx.fieldJobs (ctx.objectJob (Selection.depthAll (Selection.onlyAll key selections))) o parent
        (ctx.schema.registry.collect o (Selection.onlyAll key selections)) [] =
      [ctx.fieldJob (ctx.objectJob (Selection.depthAll selections)) o parent nodes
        [.field key]] := by
  have hcollect := Registry.collect_onlyAll h
  have hm : (key, nodes) ∈ ctx.schema.registry.collect o (Selection.onlyAll key selections) := by
    rw [hcollect]
    exact List.mem_singleton_self _
  have hlt := Registry.depthAll_children_lt_of_mem_collect h
  have hlt' := Registry.depthAll_children_lt_of_mem_collect hm
  rw [hcollect]
  refine congrArg (fun job => [job]) (fieldJob_congr rfl ?_ o parent _)
  intro o v path
  exact objectJob_eq hlt'.le hlt.le o v path

end Context

end GraphQL
