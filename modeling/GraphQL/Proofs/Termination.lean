import GraphQL.Proofs.Calls
import GraphQL.Proofs.CoercionDepth
import GraphQL.Proofs.Execution.Answers
import GraphQL.Proofs.Liveness
import GraphQL.Proofs.Restriction
import Mathlib.Data.Prod.Lex
import Mathlib.Data.Set.Finite.List

/-!
# Executing comes to its end

Executing goes from fields to values, from values to items and objects, and from objects to fields
again. Types that refer to each other do not bound that, nor do values, for resolvers may answer
with ever larger ones. What bounds it is the request: what is selected below a group of nodes is
nested less deep than what the group was collected from, through fragments and however many nodes
were merged. In between, items have smaller types than their list (`Step.rank_lt`). So there is no
endless row of steps (`wellFounded_step`), no path goes through more response keys than the request
is nested (`Visits.keyCount_le`), and the recursion by which jobs of objects are put together has
exactly one solution (`eq_solution_iff`), however deep it is unfolded.

If all resolvers that are called answer, the execution ends (`exists_output_of_obtains`). What
others would do does not matter, nor what the same ones would do at other times.
-/

namespace GraphQL

/-- How many response keys the path goes through. -/
def Path.keyCount (p : Path) : Nat :=
  p.countP (· matches .field _)

theorem Path.keyCount_append (p q : Path) : Path.keyCount (p ++ q) = p.keyCount + q.keyCount :=
  List.countP_append

/-- The items of a list are of a smaller type. -/
theorem Registry.height_lt_of_shape {σ : Type} {r : Registry σ} {type item : TypeRef} {v : Value}
    {items : List Value} (h : r.shape type v = .ok (.list item items)) :
    item.height < type.height := by
  induction type with
  | nonNull t ih => exact Nat.lt_succ_of_lt (ih h)
  | list t =>
    cases v with
    | list vs =>
      cases h
      exact Nat.lt_succ_self _
    | _ => cases h
  | named name => exact absurd h shapeNamed_ne_list

namespace Spot

variable {σ : Type}

/-- How deep fields are nested in what is selected here. -/
def nesting : Spot σ → Nat
  | .field _ _ nodes => Selection.depthAll (nodes.flatMap FieldNode.children)
  | .value _ _ selections | .object _ _ _ selections => Selection.depthAll selections

/-- A field comes before its value, and a value before its object. -/
def stage : Spot σ → Nat
  | .field .. => 2
  | .value .. => 1
  | .object .. => 0

/-- How high the type of a value is. -/
def height : Spot σ → Nat
  | .value type _ _ => type.height
  | _ => 0

/-- What every step makes smaller. -/
def rank (spot : Spot σ) : Nat ×ₗ Nat ×ₗ Nat :=
  toLex (spot.nesting, toLex (spot.stage, spot.height))

end Spot

namespace Context

variable {σ : Type} {ctx : Context σ} {a b : Spot σ} {p : Path}

/-! ## There is no endless row of steps -/

theorem Step.rank_lt (h : ctx.Step a p b) : b.rank < a.rank := by
  simp only [Spot.rank, Prod.Lex.toLex_lt_toLex]
  cases h with
  | resolve => exact .inr ⟨rfl, .inl (Nat.lt_succ_self 1)⟩
  | item hv hs hi => exact .inr ⟨rfl, .inr ⟨rfl, Registry.height_lt_of_shape hs⟩⟩
  | belong => exact .inr ⟨rfl, .inl Nat.zero_lt_one⟩
  | select hn => exact .inl (Registry.depthAll_children_lt_of_mem_collect hn)

/-- **The recursion from position to position is well-founded**, whatever types refer to and
whatever resolvers answer. -/
theorem wellFounded_step (ctx : Context σ) : WellFounded fun b a => ∃ p, ctx.Step a p b := by
  refine Subrelation.wf ?_ (InvImage.wf Spot.rank wellFounded_lt)
  rintro b a ⟨p, h⟩
  exact h.rank_lt

/-- Going through a response key takes a level of nesting. -/
theorem Step.keyCount_le (h : ctx.Step a p b) : p.keyCount + b.nesting ≤ a.nesting := by
  cases h with
  | resolve | item | belong => exact (Nat.zero_add _).le
  | select hn =>
    have hlt := Registry.depthAll_children_lt_of_mem_collect hn
    exact (Nat.add_comm ..).trans_le hlt

theorem Leads.keyCount_le (h : ctx.Leads a p b) : p.keyCount + b.nesting ≤ a.nesting := by
  induction h with
  | here => exact (Nat.zero_add _).le
  | step hs _ ih =>
    have hle := hs.keyCount_le
    rw [Path.keyCount_append]
    omega

/-! ## The recursion has one solution -/

/-- One call of the recursion: the job of an object, if those of the objects below it are given. -/
def select (ctx : Context σ) (object : ObjectJob σ) : ObjectJob σ := fun o v selections path =>
  let groups := ctx.schema.registry.collect o selections
  .sideBySide (.assembleObject (Keyed.keys groups)) (ctx.fieldJobs object o v groups path)

/-- Only the jobs of objects with less deep selections count. -/
theorem select_congr {object object' : ObjectJob σ} {selections : List Selection}
    (h : ∀ o v path selections', Selection.depthAll selections' < Selection.depthAll selections →
      object o v selections' path = object' o v selections' path)
    (o : ObjectType σ) (v : Value) (path : Path) :
    ctx.select object o v selections path = ctx.select object' o v selections path := by
  have hjobs : ctx.fieldJobs object o v (ctx.schema.registry.collect o selections) path =
      ctx.fieldJobs object' o v (ctx.schema.registry.collect o selections) path := by
    refine List.map_congr_left ?_
    rintro ⟨key, nodes⟩ hm
    have hlt := Registry.depthAll_children_lt_of_mem_collect hm
    exact fieldJob_congr rfl (fun o v path => h o v path _ hlt) o v _
  unfold select
  dsimp only
  rw [hjobs]

/-- The recursion, unfolded as deep as selections are nested. -/
def solution (ctx : Context σ) : ObjectJob σ := fun o v selections path =>
  ctx.objectJob (Selection.depthAll selections) o v selections path

theorem solution_eq_select (ctx : Context σ) : ctx.solution = ctx.select ctx.solution := by
  funext o v selections path
  have hdeeper : ctx.solution o v selections path =
      ctx.objectJob (Selection.depthAll selections + 1) o v selections path :=
    objectJob_eq le_rfl (Nat.le_succ _) o v path
  refine hdeeper.trans (select_congr ?_ o v path)
  intro o v path selections' hlt
  exact objectJob_eq hlt.le le_rfl o v path

/-- **Exactly one way to put jobs of objects together keeps to the recursion.** -/
theorem eq_solution_iff {object : ObjectJob σ} :
    object = ctx.solution ↔ object = ctx.select object := by
  constructor
  · rintro rfl
    exact ctx.solution_eq_select
  · intro h
    funext o v selections path
    induction hd : Selection.depthAll selections using Nat.strongRecOn
      generalizing o v selections path with
    | ind depth ih =>
      rw [h, ctx.solution_eq_select]
      refine select_congr ?_ o v path
      intro o v path selections' hlt
      exact ih _ (hd ▸ hlt) o v selections' path rfl

/-- The recursion by which an execution is put together ends: from position to position, and where
the arguments of a field are coerced. Its solution is what depths that are allowed for stand for. -/
structure RecursionEnds (ctx : Context σ) : Prop where
  wellFounded : WellFounded fun b a => ∃ p, ctx.Step a p b
  unique : ∃! object, object = ctx.select object
  unfolded : ∀ object, object = ctx.select object → ∀ depth o v selections path,
    Selection.depthAll selections ≤ depth →
      ctx.objectJob depth o v selections path = object o v selections path
  coerces : ∀ (field : Field σ) provided depth, field.argumentHeight + ctx.vars.length < depth →
    ctx.schema.registry.coerceArgumentsWithin depth field provided ctx.vars =
      some (ctx.schema.registry.coerceArguments field provided ctx.vars)

theorem recursionEnds (h : ctx.vars.Acyclic) : ctx.RecursionEnds where
  wellFounded := ctx.wellFounded_step
  unique := ⟨ctx.solution, ctx.solution_eq_select, fun _ ho => eq_solution_iff.2 ho⟩
  unfolded := by
    intro object ho depth o v selections path hd
    rw [eq_solution_iff.2 ho]
    exact objectJob_eq hd le_rfl o v path
  coerces := by
    intro field provided depth hdepth
    exact Registry.coerceArgumentsWithin_eq_some h hdepth

/-! ## Jobs of positions are faithful -/

theorem assembles_faithful {live : Prop} : ctx.Assembles fun _ job => job.Faithful live where
  done _ _ := .done
  emit he hn := .emit he hn
  call _ _ _ _ _ _ _ hn := .call hn
  settle type hj := hj.bind fun completion => (silent_settle type _ completion).faithful
  join _ _ _ _ hm := .join (fun job hj => (hm job hj).choose_spec) fun _ => .done

theorem faithful_operationJob {live : Prop} (operation : Operation) (root : Value) :
    (ctx.operationJob operation root).Faithful live := by
  unfold operationJob
  split
  · exact .done
  · next o ho =>
    have hassembles : ctx.Assembles fun _ job => job.Faithful live := assembles_faithful
    have hroots := hassembles.rootJobs ho (Selection.depthAll operation.selections) root
      (ctx.schema.registry.collect o operation.selections)
    have hjobs := fun job hm => (hroots job hm).choose_spec
    dsimp only
    split
    · exact .join hjobs fun completions => .done
    · exact .inTurn hjobs fun completions => .done

end Context

namespace Schema

variable {σ : Type} {s : Schema σ} {run : Run} {state : σ}

/-- In the course of the execution the call is made, and its resolver answers this. -/
def Obtains (s : Schema σ) (run : Run) (state : σ) (c : Call) (a : Resolution σ) : Prop :=
  (s.job 0 run).Obtains (.start state) c a

theorem faithful_job {live : Prop} (hb : s.bind run.operation = []) :
    (s.job 0 run).Faithful live := by
  unfold job
  rw [hb]
  refine .emit rfl ((Context.faithful_operationJob _ _).bind ?_)
  intro completion
  exact .emit rfl .done

/-- The calls of which answers are told are those in the log. -/
theorem exists_obtains_iff (hb : s.bind run.operation = []) (c : Call) :
    (∃ a, s.Obtains run state c a) ↔
      ∃ entry ∈ (s.execute none run state).log, entry.event = .called c := by
  obtain ⟨new, hlog, hcalls⟩ := Job.called_drive (m := .start state) (faithful_job (s := s) hb)
  have hnew : (s.execute none run state).log = new := hlog
  rw [hnew]
  exact (hcalls c).symm

/-- Resolvers that keep all promises answer when they are called. -/
theorem KeepsPromises.isKept (h : s.KeepsPromises) {c : Call} {a : Resolution σ}
    (ha : s.Obtains run state c a) : a.IsKept :=
  Job.isKept_of_obtains ha (live_job h 0 run)

theorem Visits.keyCount_le {p : Path} {spot : Spot σ} (h : s.Visits run p spot) :
    p.keyCount ≤ Selection.depthAll run.operation.selections := by
  obtain ⟨root, -, hl⟩ := h
  exact (Nat.le_add_right ..).trans hl.keyCount_le

theorem Makes.keyCount_le {c : Call} (h : s.Makes run c) :
    c.path.keyCount ≤ Selection.depthAll run.operation.selections := by
  obtain ⟨root, hroot, hmakes⟩ := h
  cases hmakes with
  | resolve hl => exact Visits.keyCount_le ⟨root, hroot, hl⟩

theorem finite_obtains (hb : s.bind run.operation = []) :
    {c | ∃ a, s.Obtains run state c a}.Finite := by
  refine (List.finite_toSet ((s.execute none run state).log.filterMap (·.event.call?))).subset ?_
  intro c hc
  obtain ⟨entry, hm, he⟩ := (exists_obtains_iff hb c).1 hc
  exact List.mem_filterMap.2 ⟨entry, hm, by rw [he]; rfl⟩

theorem exists_output_of_obtains (hb : s.bind run.operation = [])
    (ha : ∀ c a, s.Obtains run state c a → a.IsKept) :
    ∃ out, (s.execute none run state).ending = .ok (.ok out) := by
  have ht : (s.job 0 run).Tended False := tended_job (fun h => h.elim) 0 run
  obtain ⟨completion, m, hd⟩ := Job.exists_drive_eq_ok_of_obtains ht (faithful_job hb) ha
  unfold execute Job.report answer
  rw [hd, hb]
  exact ⟨_, rfl⟩

/-- **Executing terminates.** If the operation can be bound, no variable leads back to itself, and
every resolver that is called answers, the recursion ends, goes through no more response keys than
the request is nested, and calls finitely many resolvers, none of them deeper than that; and the
execution ends, with an outcome. -/
theorem execute_terminates (hb : s.bind run.operation = []) (hv : run.vars.Acyclic)
    (ha : ∀ c a, s.Obtains run state c a → a.IsKept) :
    Context.RecursionEnds ⟨0, s, run.vars⟩ ∧
    (∀ p spot, s.Visits run p spot →
      p.keyCount ≤ Selection.depthAll run.operation.selections) ∧
    {c | ∃ a, s.Obtains run state c a}.Finite ∧
    (∀ c a, s.Obtains run state c a →
      c.path.keyCount ≤ Selection.depthAll run.operation.selections) ∧
    ∃ out o, (s.execute none run state).ending = .ok (.ok out) ∧
      s.Reaches run (s.execute none run state).log out o := by
  refine ⟨Context.recursionEnds hv, fun p spot h => h.keyCount_le, finite_obtains hb, ?_, ?_⟩
  · intro c a hc
    obtain ⟨entry, hm, he⟩ := (exists_obtains_iff hb c).1 ⟨a, hc⟩
    exact (makes_of_mem_log hm he).keyCount_le
  · obtain ⟨out, hout⟩ := exists_output_of_obtains hb ha
    obtain ⟨o, ho⟩ := (endsWith_execute hout).exists_outcome
    exact ⟨out, o, hout, ho⟩

end Schema

/-! ## A type whose fields give the value that they are asked of -/

namespace Mirrored

/-- Gives the value itself, after a while. -/
def mirror : Field Unit :=
  ⟨"mirror", none, [⟨"times", none, .named "Int", none⟩], .named "Node", .current,
    some fun parent _ state => (.pending (some 1) fun state => (.ok parent, state), state)⟩

/-- Gives the value itself, and a larger one. -/
def around : Field Unit :=
  ⟨"around", none, [], .list (.named "Node"), .current,
    some fun parent _ state =>
      (.ready (.ok (.list [parent, .object [("inner", parent)]])), state)⟩

def node : ObjectType Unit :=
  ⟨"Node", none, .eager [mirror, around], []⟩

def schema : Schema Unit :=
  ⟨⟨[.object node], by
      change ["String", "Int", "Float", "Boolean", "ID", "Node"].Nodup
      decide⟩,
    "Node", none, false, rfl, rfl, rfl, by simp⟩

def leaf (name : String) : Selection :=
  .field ⟨none, name, [], none⟩

/-- Asks for the mirror twice, once in a fragment, and goes on below it. -/
def run : Run :=
  ⟨⟨.query, none,
      [.field ⟨none, "mirror", [("times", .var "n")],
          some [.field ⟨none, "around", [], some [.field ⟨none, "mirror", [],
            some [leaf "__typename"]⟩]⟩]⟩,
        .fragment (some "Node") [.field ⟨none, "mirror", [], some [leaf "__typename"]⟩]]⟩,
    .object [], [("n", .var "m"), ("m", .scalar (.int 2))]⟩

theorem acyclic_vars : run.vars.Acyclic := by
  refine Variables.acyclic_of_decreasing (fun name => if name = "n" then 1 else 0) ?_
  rintro name name' ⟨v, hv, hm⟩
  have hentry := Keyed.mem_of_get?_eq_some hv
  simp only [run, List.mem_cons, List.not_mem_nil, or_false, Prod.mk.injEq] at hentry
  rcases hentry with ⟨rfl, rfl⟩ | ⟨rfl, rfl⟩
  · obtain rfl := List.mem_singleton.1 hm
    decide
  · cases hm

theorem keepsPromises_schema : schema.KeepsPromises := by
  intro name o ho field hf resolver hr parent arguments state
  have hm := Registry.mem_types_of_get? ho
  obtain rfl : o = node := by
    simpa [Registry.types, schema, TypeDef.builtins, ScalarType.builtins] using hm
  rcases List.mem_cons.1 hf with rfl | hf
  · cases hr
    rfl
  · obtain rfl := List.mem_singleton.1 hf
    cases hr
    trivial

/-- The type refers to itself and its values know no bottom, but the request is nested four deep. -/
theorem execute_terminates_mirror :
    schema.bind run.operation = [] ∧ run.vars.Acyclic ∧
      (∀ c a, schema.Obtains run () c a → a.IsKept) ∧
      (∀ p spot, schema.Visits run p spot → p.keyCount ≤ 4) ∧
      ∃ out o, (schema.execute none run ()).ending = .ok (.ok out) ∧
        schema.Reaches run (schema.execute none run ()).log out o := by
  have hb : schema.bind run.operation = [] := rfl
  have ha : ∀ c a, schema.Obtains run () c a → a.IsKept := fun _ _ =>
    keepsPromises_schema.isKept
  obtain ⟨-, hbound, -, -, hends⟩ := Schema.execute_terminates hb acyclic_vars ha
  exact ⟨hb, acyclic_vars, ha, hbound, hends⟩

end Mirrored

end GraphQL
