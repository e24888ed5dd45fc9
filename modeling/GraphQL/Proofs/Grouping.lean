import GraphQL.Proofs.Collection
import GraphQL.Proofs.PossibleTypes
import GraphQL.Schema.Check

/-!
# What collecting keeps, and where it stands

`Selection.spreadAll` lays a selection set out flat, each field node in document order with the type
conditions of all the fragments around it. `Registry.kept` picks from that what an object type
keeps: the nodes whose conditions all cover the type, by its name, by an interface that it
implements or by a union that it belongs to, and that ask for a field it has. In a well-formed
registry these are the nodes that collecting comes across, in this order (`flatten_eq_kept`).

`Registry.Extends` is what adding nodes to groups may do to them: each node goes to the end of the
group of its response key, and keys that are new stand behind the others.
-/

namespace GraphQL

namespace Selection

mutual

/-- The field nodes of a selection in document order, each with the type conditions of the fragments
around it, the innermost first. -/
def spread (around : List String) : Selection → List (List String × FieldNode Selection)
  | .field node => [(around, node)]
  | .fragment none selections => spreadAll around selections
  | .fragment (some condition) selections => spreadAll (condition :: around) selections

/-- The field nodes of selections in document order, each with the type conditions of the fragments
around it. -/
def spreadAll (around : List String) : List Selection → List (List String × FieldNode Selection)
  | [] => []
  | selection :: rest => selection.spread around ++ spreadAll around rest

end

end Selection

theorem ObjectType.declares_iff {σ : Type} {o : ObjectType σ} {name : String} :
    o.declares name = true ↔ name = "__typename" ∨ ∃ f ∈ o.fields, f.name = name := by
  unfold ObjectType.declares ObjectType.field?
  simp

namespace Registry

variable {σ : Type}

/-- The names of the members of a union; none for any other type. -/
def unionMembers (r : Registry σ) (name : String) : List String :=
  match r.get? name with
  | some (.union u) => u.members
  | _ => []

/-- The type condition is met by the object type: it is its name, an interface that it implements or
a union that it is a member of. -/
def Covers (r : Registry σ) (o : ObjectType σ) (condition : String) : Prop :=
  condition = o.name ∨ condition ∈ o.interfaces ∨ o.name ∈ r.unionMembers condition

instance (r : Registry σ) (o : ObjectType σ) (condition : String) :
    Decidable (r.Covers o condition) :=
  inferInstanceAs (Decidable (_ ∨ _ ∨ _))

/-- The object type meets all the conditions around the node, and has the field or it is the
meta-field of every type. -/
def Keeps (r : Registry σ) (o : ObjectType σ) (entry : List String × FieldNode Selection) : Prop :=
  (∀ condition ∈ entry.1, r.Covers o condition) ∧
    (entry.2.name = "__typename" ∨ ∃ f ∈ o.fields, f.name = entry.2.name)

instance (r : Registry σ) (o : ObjectType σ) (entry : List String × FieldNode Selection) :
    Decidable (r.Keeps o entry) :=
  inferInstanceAs (Decidable (_ ∧ _))

/-- The nodes that the object type keeps, in document order. -/
def kept (r : Registry σ) (o : ObjectType σ) (selections : List Selection) :
    List (FieldNode Selection) :=
  ((Selection.spreadAll [] selections).filter (r.Keeps o ·)).map Prod.snd

variable {r : Registry σ} {o : ObjectType σ}

/-! ## Fragments and fields that apply -/

theorem mem_unionMembers_iff {name member : String} : member ∈ r.unionMembers name ↔
    ∃ u, r.get? name = some (.union u) ∧ member ∈ u.members := by
  unfold unionMembers
  split
  · next u hu => simp [hu]
  · next hne =>
    constructor
    · nofun
    · rintro ⟨u, hu, -⟩
      exact absurd hu (hne u)

/-- In a well-formed registry, a fragment applies to the object types that its condition covers. -/
theorem WellFormed.applies_iff_covers (h : r.WellFormed) (ho : r.get? o.name = some (.object o))
    {condition : String} :
    r.fragmentApplies condition o.name = true ↔ r.Covers o condition := by
  rw [h.fragmentApplies_iff ho, Covers, mem_unionMembers_iff]

/-! ## What collecting comes across is what is kept -/

mutual

/-- A fragment adds its condition to those around it. -/
theorem mem_of_mem_spread {around : List String} {entry : List String × FieldNode Selection}
    {condition : String} (hc : condition ∈ around) : (selection : Selection) →
    entry ∈ selection.spread around → condition ∈ entry.1
  | .field node, h => by
    rw [Selection.spread, List.mem_singleton] at h
    rwa [h]
  | .fragment none selections, h => by
    rw [Selection.spread] at h
    exact mem_of_mem_spreadAll hc selections h
  | .fragment (some inner) selections, h => by
    rw [Selection.spread] at h
    exact mem_of_mem_spreadAll (List.mem_cons_of_mem inner hc) selections h

theorem mem_of_mem_spreadAll {around : List String} {entry : List String × FieldNode Selection}
    {condition : String} (hc : condition ∈ around) : (selections : List Selection) →
    entry ∈ Selection.spreadAll around selections → condition ∈ entry.1
  | [], h => by simp [Selection.spreadAll] at h
  | selection :: rest, h => by
    rw [Selection.spreadAll, List.mem_append] at h
    rcases h with h | h
    · exact mem_of_mem_spread hc selection h
    · exact mem_of_mem_spreadAll hc rest h

end

/-- Nothing is kept below a condition that is not met. -/
theorem filter_spreadAll_eq_nil {around : List String} {condition : String}
    (hc : condition ∈ around) (hnot : ¬ r.Covers o condition) (selections : List Selection) :
    (Selection.spreadAll around selections).filter (r.Keeps o ·) = [] := by
  rw [List.filter_eq_nil_iff]
  intro entry hm hkeeps
  rw [decide_eq_true_eq] at hkeeps
  exact hnot (hkeeps.1 condition (mem_of_mem_spreadAll hc selections hm))

mutual

theorem flattenSelection_eq_filter (h : r.WellFormed) (ho : r.get? o.name = some (.object o))
    {around : List String} (hc : ∀ condition ∈ around, r.Covers o condition) :
    (selection : Selection) → r.flattenSelection o selection =
      ((selection.spread around).filter (r.Keeps o ·)).map Prod.snd
  | .field node => by
    have hkeeps : r.Keeps o (around, node) ↔ o.declares node.name = true := by
      rw [ObjectType.declares_iff]
      exact and_iff_right hc
    rw [flattenSelection, Selection.spread, List.filter_singleton]
    by_cases hd : o.declares node.name = true
    · simp [hd, hkeeps]
    · simp [hd, hkeeps]
  | .fragment none selections => by
    rw [flattenSelection, Selection.spread]
    exact flatten_eq_filter h ho hc selections
  | .fragment (some condition) selections => by
    rw [flattenSelection, Selection.spread]
    by_cases hcovers : r.Covers o condition
    · rw [if_pos ((h.applies_iff_covers ho).2 hcovers)]
      exact flatten_eq_filter h ho (List.forall_mem_cons.2 ⟨hcovers, hc⟩) selections
    · rw [if_neg (mt (h.applies_iff_covers ho).1 hcovers),
        filter_spreadAll_eq_nil List.mem_cons_self hcovers, List.map_nil]

theorem flatten_eq_filter (h : r.WellFormed) (ho : r.get? o.name = some (.object o))
    {around : List String} (hc : ∀ condition ∈ around, r.Covers o condition) :
    (selections : List Selection) → r.flatten o selections =
      ((Selection.spreadAll around selections).filter (r.Keeps o ·)).map Prod.snd
  | [] => by simp [flatten, Selection.spreadAll]
  | selection :: rest => by
    rw [flatten, Selection.spreadAll, List.filter_append, List.map_append,
      flattenSelection_eq_filter h ho hc selection, flatten_eq_filter h ho hc rest]

end

theorem flatten_eq_kept (h : r.WellFormed) (ho : r.get? o.name = some (.object o))
    (selections : List Selection) : r.flatten o selections = r.kept o selections :=
  flatten_eq_filter h ho (List.forall_mem_nil _) selections

/-! ## What adding nodes does to groups -/

/-- The nodes of all groups. -/
def nodes (groups : Groups) : List (FieldNode Selection) :=
  groups.flatMap Prod.snd

/-- Every node stands in the group of its response key. -/
def Sorted (groups : Groups) : Prop :=
  ∀ key group, (key, group) ∈ groups → ∀ node ∈ group, node.responseKey = key

/-- The second groups are the first ones with the nodes added: each goes to the end of the group of
its response key, and none is lost, doubled or put anywhere else. -/
structure Extends (groups collected : Groups) (added : List (FieldNode Selection)) : Prop where
  distinct : (Keyed.keys collected).Nodup
  keys : Keyed.keys collected = Keyed.keys groups ++
    ((added.map FieldNode.responseKey).removeAll (Keyed.keys groups)).eraseDups
  holds : ∀ key, (Keyed.get? collected key).getD [] =
    (Keyed.get? groups key).getD [] ++ added.filter (·.responseKey = key)
  once : (nodes collected).Perm (nodes groups ++ added)
  sorted : Sorted groups → Sorted collected
  nonempty : ∀ key, (key, []) ∈ collected → (key, []) ∈ groups

section Step

variable {groups : Groups} {node : FieldNode Selection}

theorem nodes_addNode (groups : Groups) (node : FieldNode Selection) :
    (nodes (addNode groups node)).Perm (nodes groups ++ [node]) := by
  unfold addNode
  induction groups with
  | nil => exact .refl _
  | cons entry rest ih =>
    obtain ⟨key, group⟩ := entry
    rw [Keyed.update]
    split
    · simp only [nodes, List.flatMap_cons, Option.getD_some, List.append_assoc]
      exact List.perm_append_comm.append_left group
    · simp only [nodes, List.flatMap_cons, List.append_assoc] at ih ⊢
      exact ih.append_left group

theorem Sorted.addNode (h : Sorted groups) : Sorted (addNode groups node) := by
  intro key group hm other hother
  rcases Keyed.mem_update hm with hm | heq
  · exact h key group hm other hother
  · obtain ⟨rfl, rfl⟩ := Prod.mk.inj heq
    rcases List.mem_append.1 hother with hother | hother
    · -- It has been in the group before.
      cases hget : Keyed.get? groups node.responseKey with
      | none =>
        rw [hget] at hother
        cases hother
      | some before =>
        rw [hget] at hother
        exact h _ before (Keyed.mem_of_get?_eq_some hget) other hother
    · rw [List.mem_singleton.1 hother]

theorem empty_mem_of_addNode {key : String} (h : (key, []) ∈ addNode groups node) :
    (key, []) ∈ groups := by
  rcases Keyed.mem_update h with h | heq
  · exact h
  · have hempty := (Prod.mk.inj heq).2.symm
    exact absurd hempty (List.append_ne_nil_of_right_ne_nil _ (List.cons_ne_nil node []))

end Step

section Run

variable {groups : Groups}

theorem nodes_foldl (added : List (FieldNode Selection)) (groups : Groups) :
    (nodes (added.foldl addNode groups)).Perm (nodes groups ++ added) := by
  induction added generalizing groups with
  | nil => rw [List.append_nil, List.foldl_nil]
  | cons node rest ih =>
    have hstep := (nodes_addNode groups node).append_right rest
    rw [List.append_assoc] at hstep
    exact (ih _).trans hstep

theorem Sorted.foldl (h : Sorted groups) (added : List (FieldNode Selection)) :
    Sorted (added.foldl Registry.addNode groups) := by
  induction added generalizing groups with
  | nil => exact h
  | cons node rest ih => exact ih h.addNode

theorem empty_mem_of_foldl {added : List (FieldNode Selection)} {key : String}
    (h : (key, []) ∈ added.foldl addNode groups) : (key, []) ∈ groups := by
  induction added generalizing groups with
  | nil => exact h
  | cons node rest ih => exact empty_mem_of_addNode (ih h)

/-- Nodes are added one after the other. -/
theorem extends_foldl (hn : (Keyed.keys groups).Nodup) (added : List (FieldNode Selection)) :
    Extends groups (added.foldl addNode groups) added where
  distinct := nodup_keys_foldl added hn
  keys := keys_foldl added groups
  holds := get?_foldl added groups
  once := nodes_foldl added groups
  sorted h := h.foldl added
  nonempty _ := empty_mem_of_foldl

end Run

/-! ## Collecting -/

/-- Collecting goes on where it stopped. -/
theorem collectInto_append (r : Registry σ) (o : ObjectType σ) (groups : Groups)
    (xs ys : List Selection) :
    r.collectInto o groups (xs ++ ys) = r.collectInto o (r.collectInto o groups xs) ys := by
  induction xs generalizing groups with
  | nil => rfl
  | cons x rest ih => rw [List.cons_append, collectInto, collectInto, ih]

/-- **Collecting is grouping.** In a registry that passed its check, what an object type keeps of a
selection set is added to whatever groups there are, and collecting may stop between any two
selections and go on. -/
theorem collectInto_exact {built : Registry σ} (h : r.check = ([], built))
    (ho : built.get? o.name = some (.object o)) {groups : Groups}
    (hn : (Keyed.keys groups).Nodup) :
    (∀ selections,
      Extends groups (built.collectInto o groups selections) (built.kept o selections)) ∧
    ∀ xs ys, built.collectInto o groups (xs ++ ys) =
      built.collectInto o (built.collectInto o groups xs) ys := by
  have hnone : built.violations = [] := by
    have hchecked := r.violations_check
    rwa [h] at hchecked
  have hformed : built.WellFormed := violations_eq_nil_iff.1 hnone
  refine ⟨?_, built.collectInto_append o groups⟩
  intro selections
  rw [collectInto_eq_foldl, flatten_eq_kept hformed ho]
  exact extends_foldl hn _

end Registry

namespace Spreading

def asked (name : String) : FieldNode Selection :=
  ⟨none, name, [], none⟩

def title : FieldNode Selection :=
  ⟨some "title", "name", [], none⟩

/-- A name, three more in fragments within one another, the last of which is for robots, the type
of the value and what no dog has. -/
def selections : List Selection :=
  [.field (asked "name"),
    .fragment (some "Pet") [.field title,
      .fragment (some "Companion") [.field (asked "name"),
        .fragment (some "Robot") [.field (asked "name")]]],
    .fragment none [.field (asked "__typename"), .field (asked "model")]]

/-- Some of what is collected from a dog goes to a group that is there, some to groups behind it. -/
theorem collectInto_exact_dog :
    schema.registry.check = ([], schema.registry) ∧
      schema.registry.kept dog selections =
        [asked "name", title, asked "name", asked "__typename"] ∧
      Keyed.keys (schema.registry.collectInto dog [("title", [asked "title"])] selections) =
        ["title", "name", "__typename"] ∧
      ∀ key, (key, []) ∉
        schema.registry.collectInto dog [("title", [asked "title"])] selections := by
  have hcheck : schema.registry.check = ([], schema.registry) := rfl
  have hkept : schema.registry.kept dog selections =
      [asked "name", title, asked "name", asked "__typename"] := rfl
  have hdistinct : (Keyed.keys [("title", [asked "title"])]).Nodup := by decide
  obtain ⟨hextends, -⟩ := Registry.collectInto_exact hcheck (o := dog) rfl hdistinct
  have hdog := hextends selections
  refine ⟨hcheck, hkept, ?_, ?_⟩
  · rw [hdog.keys, hkept]
    decide
  · intro key hempty
    have hbefore := hdog.nonempty key hempty
    simp at hbefore

end Spreading

end GraphQL
