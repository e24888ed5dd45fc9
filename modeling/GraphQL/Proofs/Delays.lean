import GraphQL.Proofs.Calls
import GraphQL.Proofs.Execution.Timing
import Mathlib.Algebra.GroupWithZero.Nat
import Mathlib.Data.List.Infix

/-!
# Delays on the way to a position

`Path.elapsed` sums up the delays at the positions above a position. Entries are `Timely` if they
are the calls, and the completions of calls, that are made from a position on, each at the time at
which the delays above it are over. What is timely below each of several positions is timely below
the position above them (`Timely.group`), and what is timely after a call of a resolver is so before
it, with the delay of the call in addition (`Timely.call`, `Timely.never`).
-/

namespace GraphQL

variable {σ : Type}

/-- How long it takes until the result is there: no time, or as long as the promise says, or for
ever. -/
def Resolution.delay? : Resolution σ → Option Nat
  | .ready _ => some 0
  | .pending delay? _ => delay?

/-- A resolver of the schema may take so long when it is called like this. -/
def Schema.Takes (s : Schema σ) (c : Call) (delay? : Option Nat) : Prop :=
  ∃ o field resolver state, s.registry.get? c.typeName = some (.object o) ∧
    o.field? c.field = some field ∧ field.resolver? = some resolver ∧
    (resolver c.parent c.arguments state).1.delay? = delay?

/-! ## The sum of the delays above a position -/

namespace Path

/-- The sum of the delays at the positions above a position, unless one of them never ends. -/
def elapsed (delay? : Path → Option Nat) (p : Path) : Option Nat :=
  (p.inits.dropLast.mapM delay?).map List.sum

@[simp] theorem elapsed_nil (delay? : Path → Option Nat) : elapsed delay? [] = some 0 := rfl

theorem elapsed_cons (delay? : Path → Option Nat) (segment : PathSegment) (p : Path) :
    elapsed delay? (segment :: p) = (delay? []).bind fun d =>
      (elapsed (fun q => delay? (segment :: q)) p).map (d + ·) := by
  have hne : p.inits ≠ [] := by
    cases p <;> simp
  have hinits : (segment :: p).inits.dropLast =
      [] :: p.inits.dropLast.map (segment :: ·) := by
    rw [List.inits_cons, List.dropLast_cons_of_ne_nil (by simpa using hne), List.map_dropLast]
  unfold elapsed
  rw [hinits, List.mapM_cons, List.mapM_map]
  cases delay? [] with
  | none => rfl
  | some d =>
    change Option.map List.sum ((p.inits.dropLast.mapM fun q => delay? (segment :: q)).bind
      fun ds => some (d :: ds)) = _
    cases p.inits.dropLast.mapM fun q => delay? (segment :: q) with
    | none => rfl
    | some ds => simp

/-- Only the delays above a position count. -/
theorem elapsed_congr {delay? delay?' : Path → Option Nat} {p : Path}
    (h : ∀ q, q <+: p → q ≠ p → delay? q = delay?' q) : elapsed delay? p = elapsed delay?' p := by
  induction p generalizing delay? delay?' with
  | nil => rfl
  | cons segment p ih =>
    have hroot : delay? [] = delay?' [] := h [] List.nil_prefix (by simp)
    have hbelow : elapsed (fun q => delay? (segment :: q)) p =
        elapsed (fun q => delay?' (segment :: q)) p := by
      apply ih
      intro q hq hne
      exact h (segment :: q) (List.cons_prefix_cons.2 ⟨rfl, hq⟩) fun heq =>
        hne (List.cons.inj heq).2
    rw [elapsed_cons, elapsed_cons, hroot, hbelow]

/-- There is no sum only if one of the delays never ends. -/
theorem exists_of_elapsed_eq_none {delay? : Path → Option Nat} {p : Path}
    (h : elapsed delay? p = none) : ∃ q, q <+: p ∧ q ≠ p ∧ delay? q = none := by
  induction p generalizing delay? with
  | nil => cases h
  | cons segment p ih =>
    cases hroot : delay? [] with
    | none => exact ⟨[], List.nil_prefix, by simp, hroot⟩
    | some d =>
      rw [elapsed_cons, hroot, Option.bind_some, Option.map_eq_none_iff] at h
      obtain ⟨q, hq, hne, hnone⟩ := ih h
      refine ⟨segment :: q, List.cons_prefix_cons.2 ⟨rfl, hq⟩, ?_, hnone⟩
      intro heq
      exact hne (List.cons.inj heq).2

end Path

/-! ## Entries in time -/

/-- The same call with its path taken from a position on. -/
def Call.below (base : Path) (c : Call) : Call :=
  { c with path := base ++ c.path }

@[simp] theorem Call.below_path (base : Path) (c : Call) : (c.below base).path = base ++ c.path :=
  rfl

@[simp] theorem Call.below_nil (c : Call) : c.below [] = c := rfl

theorem Call.below_below (p q : Path) (c : Call) : (c.below q).below p = c.below (p ++ q) := by
  simp [below, List.append_assoc]

theorem Schema.Takes.below {s : Schema σ} {c : Call} {delay? : Option Nat} (h : s.Takes c delay?)
    (base : Path) : s.Takes (c.below base) delay? :=
  h

/-- The call is made, and the delays above it sum up to the time. -/
def Call.Due (makes : Call → Prop) (delay? : Path → Option Nat) (c : Call) (time : Nat) : Prop :=
  makes c ∧ c.path.elapsed delay? = some time

/-- From the time on, the calls are made as the delays say; calls and positions are counted from a
position on. -/
structure Timely (ctx : Context σ) (base : Path) (makes : Call → Prop) (start : Nat)
    (delay? : Path → Option Nat) (es : List Entry) : Prop where
  runs : ∀ entry ∈ es, entry.run = ctx.run
  /-- No call is made twice. -/
  once : (es.filterMap (·.event.call?)).Nodup
  called : ∀ time c, ⟨ctx.run, time, .called c⟩ ∈ es ↔
    ∃ (c' : Call) (t : Nat), c'.Due makes delay? t ∧ c = c'.below base ∧ time = start + t
  completed : ∀ time c, ⟨ctx.run, time, .completed c⟩ ∈ es → ∃ (c' : Call) (t d : Nat),
    c'.Due makes delay? t ∧ delay? c'.path = some d ∧ c = c'.below base ∧ time = start + t + d
  completes : ∀ (c : Call) (t d : Nat), c.Due makes delay? t → delay? c.path = some d →
    d = 0 ∨ ⟨ctx.run, start + t + d, .completed (c.below base)⟩ ∈ es
  takes : ∀ (c : Call) (t : Nat), c.Due makes delay? t → ctx.schema.Takes c (delay? c.path)
  /-- Where nothing is called, nothing takes time. -/
  still : ∀ p, (∀ c, makes c → c.path ≠ p) → delay? p = some 0

namespace Timely

variable {ctx : Context σ} {base : Path} {makes makes' : Call → Prop} {start : Nat}
  {delay? delay?' : Path → Option Nat} {es es' : List Entry}

theorem congr (h : Timely ctx base makes start delay? es) (hm : ∀ c, makes' c ↔ makes c) :
    Timely ctx base makes' start delay? es := by
  obtain rfl : makes' = makes := funext fun c => propext (hm c)
  exact h

/-- The calls among the entries are some of those that are made. -/
theorem exists_makes (h : Timely ctx base makes start delay? es) {c : Call}
    (hc : c ∈ es.filterMap (·.event.call?)) : ∃ c', makes c' ∧ c = c'.below base := by
  obtain ⟨entry, hm, hcall⟩ := List.mem_filterMap.1 hc
  obtain ⟨run, time, event⟩ := entry
  obtain rfl : run = ctx.run := h.runs _ hm
  cases event with
  | called c₁ =>
    obtain rfl : c₁ = c := Option.some.inj hcall
    obtain ⟨c', t, hdue, rfl, -⟩ := (h.called time c₁).1 hm
    exact ⟨c', hdue.1, rfl⟩
  | _ => cases hcall

theorem of_none (h : ∀ c, ¬ makes c) : Timely ctx base makes start (fun _ => some 0) [] where
  runs _ hm := (List.not_mem_nil hm).elim
  once := .nil
  called _ _ := ⟨fun hm => (List.not_mem_nil hm).elim, fun ⟨c', _, hc, _⟩ => (h c' hc.1).elim⟩
  completed _ _ hm := (List.not_mem_nil hm).elim
  completes c _ _ hc _ := (h c hc.1).elim
  takes c _ hc := (h c hc.1).elim
  still _ _ := rfl

/-! ## Positions side by side -/

/-- The delays below a position and those below others. -/
def joinDelays (segment : PathSegment) (delay? delay?' : Path → Option Nat) : Path → Option Nat
  | [] => some 0
  | segment' :: p => if segment' = segment then delay? p else delay?' (segment' :: p)

/-- The call is one from the position on. -/
def MakesUnder (segment : PathSegment) (makes : Call → Prop) (c : Call) : Prop :=
  ∃ c', makes c' ∧ c = c'.below [segment]

theorem elapsed_joinDelays_self (segment : PathSegment) (p : Path) :
    Path.elapsed (joinDelays segment delay? delay?') (segment :: p) = Path.elapsed delay? p := by
  rw [Path.elapsed_cons]
  simp [joinDelays]

theorem elapsed_joinDelays_of_ne {segment segment' : PathSegment} (hne : segment' ≠ segment)
    (hroot : delay?' [] = some 0) (p : Path) :
    Path.elapsed (joinDelays segment delay? delay?') (segment' :: p) =
      Path.elapsed delay?' (segment' :: p) := by
  rw [Path.elapsed_cons, Path.elapsed_cons, hroot]
  simp [joinDelays, hne]

/-- Calls below one position and calls below others are due as they are by themselves. -/
theorem due_joinDelays_iff {segment : PathSegment}
    (hne : ∀ c, makes' c → ∃ segment' p, c.path = segment' :: p ∧ segment' ≠ segment)
    (hroot : delay?' [] = some 0) (c : Call) (t : Nat) :
    c.Due (fun c => MakesUnder segment makes c ∨ makes' c)
        (joinDelays segment delay? delay?') t ↔
      (∃ c' : Call, c'.Due makes delay? t ∧ c = c'.below [segment]) ∨ c.Due makes' delay?' t := by
  constructor
  · rintro ⟨⟨c', hc, rfl⟩ | hc, ht⟩
    · exact .inl ⟨c', ⟨hc, (elapsed_joinDelays_self segment c'.path).symm.trans ht⟩, rfl⟩
    · obtain ⟨segment', p, hp, hs⟩ := hne c hc
      rw [hp, elapsed_joinDelays_of_ne hs hroot, ← hp] at ht
      exact .inr ⟨hc, ht⟩
  · rintro (⟨c', ⟨hc, ht⟩, rfl⟩ | ⟨hc, ht⟩)
    · exact ⟨.inl ⟨c', hc, rfl⟩, (elapsed_joinDelays_self segment c'.path).trans ht⟩
    · obtain ⟨segment', p, hp, hs⟩ := hne c hc
      refine ⟨.inr hc, ?_⟩
      rw [hp, elapsed_joinDelays_of_ne hs hroot, ← hp, ht]

theorem cons {segment : PathSegment} (h : Timely ctx (base ++ [segment]) makes start delay? es)
    (hr : Timely ctx base makes' start delay?' es')
    (hne : ∀ c, makes' c → ∃ segment' p, c.path = segment' :: p ∧ segment' ≠ segment) :
    Timely ctx base (fun c => MakesUnder segment makes c ∨ makes' c) start
      (joinDelays segment delay? delay?') (es ++ es') := by
  have hroot : delay?' [] = some 0 := by
    refine hr.still [] ?_
    intro c hc heq
    obtain ⟨segment', p, hp, -⟩ := hne c hc
    rw [heq] at hp
    cases hp
  have hdue : ∀ (c : Call) (t : Nat), c.Due (fun c => MakesUnder segment makes c ∨ makes' c)
      (joinDelays segment delay? delay?') t ↔
        (∃ c' : Call, c'.Due makes delay? t ∧ c = c'.below [segment]) ∨ c.Due makes' delay?' t :=
    due_joinDelays_iff hne hroot
  have hself : ∀ c, joinDelays segment delay? delay?' (Call.below [segment] c).path =
      delay? c.path := by
    intro c
    simp [joinDelays]
  have hothers : ∀ c, makes' c → joinDelays segment delay? delay?' c.path = delay?' c.path := by
    intro c hc
    obtain ⟨segment', p, hp, hs⟩ := hne c hc
    rw [hp, joinDelays, if_neg hs]
  constructor
  case runs =>
    exact List.forall_mem_append.2 ⟨h.runs, hr.runs⟩
  case once =>
    rw [List.filterMap_append]
    refine h.once.append hr.once ?_
    intro c hc hc'
    obtain ⟨c₁, -, rfl⟩ := h.exists_makes hc
    obtain ⟨c₂, hmakes, heq⟩ := hr.exists_makes hc'
    obtain ⟨segment', p, hp, hs⟩ := hne c₂ hmakes
    have hpath := congrArg Call.path heq
    simp only [Call.below_path, hp, List.append_assoc, List.append_cancel_left_eq,
      List.singleton_append, List.cons.injEq] at hpath
    exact hs hpath.1.symm
  case called =>
    intro time c
    rw [List.mem_append, h.called, hr.called]
    constructor
    · rintro (⟨c', t, hc, rfl, rfl⟩ | ⟨c', t, hc, rfl, rfl⟩)
      · exact ⟨_, t, (hdue _ t).2 (.inl ⟨c', hc, rfl⟩), (Call.below_below ..).symm, rfl⟩
      · exact ⟨c', t, (hdue _ t).2 (.inr hc), rfl, rfl⟩
    · rintro ⟨c', t, hc, rfl, rfl⟩
      rcases (hdue c' t).1 hc with ⟨c', hu, rfl⟩ | ho
      · exact .inl ⟨c', t, hu, Call.below_below .., rfl⟩
      · exact .inr ⟨c', t, ho, rfl, rfl⟩
  case completed =>
    intro time c hm
    rcases List.mem_append.1 hm with hm | hm
    · obtain ⟨c', t, d, hc, hd, rfl, rfl⟩ := h.completed time c hm
      exact ⟨_, t, d, (hdue _ t).2 (.inl ⟨c', hc, rfl⟩), (hself c').trans hd,
        (Call.below_below ..).symm, rfl⟩
    · obtain ⟨c', t, d, hc, hd, rfl, rfl⟩ := hr.completed time c hm
      exact ⟨c', t, d, (hdue _ t).2 (.inr hc), (hothers c' hc.1).trans hd, rfl, rfl⟩
  case completes =>
    intro c t d hc hd
    rw [List.mem_append]
    rcases (hdue c t).1 hc with ⟨c', hu, rfl⟩ | ho
    · rw [hself] at hd
      rw [Call.below_below]
      exact (h.completes c' t d hu hd).imp id .inl
    · rw [hothers c ho.1] at hd
      exact (hr.completes c t d ho hd).imp id .inr
  case takes =>
    intro c t hc
    rcases (hdue c t).1 hc with ⟨c', hu, rfl⟩ | ho
    · rw [hself]
      exact (h.takes c' t hu).below _
    · rw [hothers c ho.1]
      exact hr.takes c t ho
  case still =>
    intro p hp
    cases p with
    | nil => rfl
    | cons segment' p =>
      rw [joinDelays]
      split
      · next heq =>
        subst heq
        refine h.still p ?_
        rintro c hc rfl
        exact hp _ (.inl ⟨c, hc, rfl⟩) rfl
      · exact hr.still _ fun c hc => hp c (.inr hc)

/-- What is timely below each of several positions is timely above them. -/
theorem group {α : Type} {xs : List α} {segment : α → PathSegment} {makes : α → Call → Prop}
    {job : α → Job σ} (hn : (xs.map segment).Nodup)
    (hj : ∀ x ∈ xs, ∀ es, Job.Starts start (job x) es →
      ∃ delay?, Timely ctx (base ++ [segment x]) (makes x) start delay? es)
    (hs : Job.StartsAll start (xs.map job) es) :
    ∃ delay?, Timely ctx base (fun c => ∃ x ∈ xs, MakesUnder (segment x) (makes x) c) start delay?
      es := by
  induction xs generalizing es with
  | nil =>
    cases hs
    exact ⟨_, of_none (by simp)⟩
  | cons x rest ih =>
    rw [List.map_cons, List.nodup_cons] at hn
    rw [List.forall_mem_cons] at hj
    cases hs with
    | cons hs hrest =>
      obtain ⟨delay?, h⟩ := hj.1 _ hs
      obtain ⟨delay?', hr⟩ := ih hn.2 hj.2 hrest
      refine ⟨_, (h.cons hr ?_).congr fun c => by simp⟩
      rintro c ⟨y, hy, c', hc, rfl⟩
      refine ⟨segment y, c'.path, rfl, ?_⟩
      intro heq
      exact hn.1 (heq ▸ List.mem_map_of_mem hy)

/-! ## Calls and what follows on them -/

section Call

variable {own : Call} {d : Nat}

/-- The delays after a call, with that of the call. -/
def callDelays (d? : Option Nat) (delay? : Path → Option Nat) : Path → Option Nat
  | [] => d?
  | segment :: p => delay? (segment :: p)

theorem due_callDelays_iff (hown : own.path = []) (hpath : ∀ c, makes c → c.path ≠ [])
    (hroot : delay? [] = some 0) (c : Call) (t : Nat) :
    c.Due (fun c => c = own ∨ makes c) (callDelays (some d) delay?) t ↔
      (c = own ∧ t = 0) ∨ ∃ t', c.Due makes delay? t' ∧ t = d + t' := by
  have helapsed : ∀ p : Path, p ≠ [] →
      p.elapsed (callDelays (some d) delay?) = (p.elapsed delay?).map (d + ·) := by
    intro p hp
    cases p with
    | nil => exact absurd rfl hp
    | cons segment p =>
      rw [Path.elapsed_cons, Path.elapsed_cons, hroot]
      simp [callDelays]
  constructor
  · rintro ⟨rfl | hc, ht⟩
    · rw [hown, Path.elapsed_nil, Option.some.injEq] at ht
      exact .inl ⟨rfl, ht.symm⟩
    · rw [helapsed _ (hpath c hc)] at ht
      obtain ⟨t', ht', rfl⟩ := Option.map_eq_some_iff.1 ht
      exact .inr ⟨t', ⟨hc, ht'⟩, rfl⟩
  · rintro (⟨rfl, rfl⟩ | ⟨t', ⟨hc, ht⟩, rfl⟩)
    · exact ⟨.inl rfl, by rw [hown, Path.elapsed_nil]⟩
    · exact ⟨.inr hc, by rw [helapsed _ (hpath c hc), ht, Option.map_some]⟩

/-- A call is timely if what follows on it is when the call has been answered. -/
theorem call (hown : own.path = []) (htakes : ctx.schema.Takes own (some d))
    (h : Timely ctx base makes (start + d) delay? es) (hpath : ∀ c, makes c → c.path ≠ [])
    {completions : List Entry} (hcompletions : (completions = [] ∧ d = 0) ∨
      completions = [⟨ctx.run, start + d, .completed (own.below base)⟩]) :
    Timely ctx base (fun c => c = own ∨ makes c) start (callDelays (some d) delay?)
      (⟨ctx.run, start, .called (own.below base)⟩ :: (completions ++ es)) := by
  have hroot : delay? [] = some 0 := h.still [] hpath
  have hdue := due_callDelays_iff (d := d) hown hpath hroot
  have hself : callDelays (some d) delay? own.path = some d := by
    rw [hown, callDelays]
  have hafter : ∀ c, makes c → callDelays (some d) delay? c.path = delay? c.path := by
    intro c hc
    cases hp : c.path with
    | nil => exact absurd hp (hpath c hc)
    | cons => rfl
  have hcalled : ∀ time c, ⟨ctx.run, time, .called c⟩ ∉ completions := by
    intro time c hm
    rcases hcompletions with ⟨rfl, -⟩ | rfl <;> simp at hm
  constructor
  case runs =>
    refine List.forall_mem_cons.2 ⟨rfl, List.forall_mem_append.2 ⟨?_, h.runs⟩⟩
    rcases hcompletions with ⟨rfl, -⟩ | rfl <;> simp
  case once =>
    have hnone : completions.filterMap (·.event.call?) = [] := by
      rcases hcompletions with ⟨rfl, -⟩ | rfl <;> rfl
    change (own.below base :: (completions ++ es).filterMap (·.event.call?)).Nodup
    rw [List.filterMap_append, hnone, List.nil_append]
    refine List.nodup_cons.2 ⟨?_, h.once⟩
    intro hm
    obtain ⟨c, hc, heq⟩ := h.exists_makes hm
    have hlength := congrArg (fun c => c.path.length) heq
    have hpos := List.length_pos_of_ne_nil (hpath c hc)
    simp only [Call.below_path, List.length_append, hown, List.length_nil] at hlength
    omega
  case called =>
    intro time c
    rw [List.mem_cons, List.mem_append, or_iff_right (hcalled time c), h.called]
    constructor
    · rintro (heq | ⟨c', t, hc, rfl, rfl⟩)
      · cases heq
        exact ⟨own, 0, (hdue own 0).2 (.inl ⟨rfl, rfl⟩), rfl, rfl⟩
      · exact ⟨c', d + t, (hdue c' _).2 (.inr ⟨t, hc, rfl⟩), rfl, Nat.add_assoc ..⟩
    · rintro ⟨c', t, hc, rfl, rfl⟩
      rcases (hdue c' t).1 hc with ⟨rfl, rfl⟩ | ⟨t', ha, rfl⟩
      · exact .inl rfl
      · exact .inr ⟨c', t', ha, rfl, (Nat.add_assoc ..).symm⟩
  case completed =>
    intro time c hm
    rcases List.mem_cons.1 hm with hm | hm
    · cases hm
    · rcases List.mem_append.1 hm with hm | hm
      · rcases hcompletions with ⟨rfl, -⟩ | rfl
        · cases hm
        · cases List.mem_singleton.1 hm
          exact ⟨own, 0, d, (hdue own 0).2 (.inl ⟨rfl, rfl⟩), hself, rfl, rfl⟩
      · obtain ⟨c', t, d', hc, hd, rfl, rfl⟩ := h.completed time c hm
        refine ⟨c', d + t, d', (hdue c' _).2 (.inr ⟨t, hc, rfl⟩), ?_, rfl, ?_⟩
        · rw [hafter c' hc.1, hd]
        · omega
  case completes =>
    intro c t d' hc hd
    rcases (hdue c t).1 hc with ⟨rfl, rfl⟩ | ⟨t', ha, rfl⟩
    · rw [hself, Option.some.injEq] at hd
      subst hd
      rcases hcompletions with ⟨-, hzero⟩ | rfl
      · exact .inl hzero
      · exact .inr (by simp)
    · rw [hafter c ha.1] at hd
      refine (h.completes c t' d' ha hd).imp id ?_
      intro hm
      rw [← Nat.add_assoc]
      exact List.mem_cons_of_mem _ (List.mem_append_right _ hm)
  case takes =>
    intro c t hc
    rcases (hdue c t).1 hc with ⟨rfl, rfl⟩ | ⟨t', ha, rfl⟩
    · rwa [hself]
    · rw [hafter c ha.1]
      exact h.takes c t' ha
  case still =>
    intro p hp
    cases p with
    | nil => exact absurd hown (hp own (.inl rfl))
    | cons segment p => exact h.still _ fun c hc => hp c (.inr hc)

/-- If a call is never answered, nothing that follows on it is made. -/
theorem never (hown : own.path = []) (htakes : ctx.schema.Takes own none)
    (hpath : ∀ c, makes c → c.path ≠ []) :
    Timely ctx base (fun c => c = own ∨ makes c) start (callDelays none fun _ => some 0)
      [⟨ctx.run, start, .called (own.below base)⟩] := by
  have hdue : ∀ c t, c.Due (fun c => c = own ∨ makes c) (callDelays none fun _ => some 0) t ↔
      c = own ∧ t = 0 := by
    intro c t
    constructor
    · rintro ⟨rfl | hc, ht⟩
      · rw [hown, Path.elapsed_nil, Option.some.injEq] at ht
        exact ⟨rfl, ht.symm⟩
      · cases hp : c.path with
        | nil => exact absurd hp (hpath c hc)
        | cons segment p =>
          rw [hp, Path.elapsed_cons] at ht
          cases ht
    · rintro ⟨rfl, rfl⟩
      exact ⟨.inl rfl, by rw [hown, Path.elapsed_nil]⟩
  constructor
  case runs =>
    exact List.forall_mem_singleton.2 rfl
  case once =>
    exact List.nodup_singleton _
  case called =>
    intro time c
    rw [List.mem_singleton]
    constructor
    · intro heq
      cases heq
      exact ⟨own, 0, (hdue own 0).2 ⟨rfl, rfl⟩, rfl, rfl⟩
    · rintro ⟨c', t, hc, rfl, rfl⟩
      obtain ⟨rfl, rfl⟩ := (hdue c' t).1 hc
      rfl
  case completed =>
    intro time c hm
    cases List.mem_singleton.1 hm
  case completes =>
    intro c t d hc hd
    obtain ⟨rfl, rfl⟩ := (hdue c t).1 hc
    rw [hown, callDelays] at hd
    cases hd
  case takes =>
    intro c t hc
    obtain ⟨rfl, rfl⟩ := (hdue c t).1 hc
    rwa [hown]
  case still =>
    intro p hp
    cases p with
    | nil => exact absurd hown (hp own (.inl rfl))
    | cons segment p => rfl

end Call

end Timely

end GraphQL
