import GraphQL.Proofs.Execution.Interleaving

/-!
# No schedule gets stuck

A job is `Tended` if the book of every group in it misses nobody: each member rests, that is, it is
done or all that is left of it waits for promises, or it is down for a turn. Acting and keeping
promises keep a job tended (`turned_act`, `tended_keep`). So when a turn is over and the job is not
done, nothing in it can go on before a promise is kept (`Turned.waits`). A job is `Live` if all
promises in it will be kept as well, and a live job that is driven without a limit ends
(`exists_drive_eq_ok`).
-/

namespace GraphQL

/-- The result is there, or will be. -/
def Resolution.IsKept {σ : Type} : Resolution σ → Prop
  | .ready _ => True
  | .pending delay? _ => delay?.isSome

/-- The member is down for a turn. -/
def Turns.Holds (t : Turns) (i : Nat) : Prop :=
  i ∈ t.queue ∨ i ∈ t.later ∨ t.current? = some i

namespace Job

variable {σ : Type}

/-- The job needs no turn: it is done, or waits for a promise, or it is a group whose members need
none and are not all done. -/
inductive Rests : Job σ → Prop where
  | done {completion} : Rests (.done completion)
  | await {ticket due? c finish next} : Rests (.await ticket due? c finish next)
  | join {turns members next} (hm : ∀ job ∈ members, Rests job)
    (hc : completions? members = none) : Rests (.join turns members next)

/-- The book of a group misses no member that needs a turn, and asks for a turn if there is somebody
to have one in it. -/
structure Booked (turns : Turns) (members : List (Job σ)) : Prop where
  holds : ∀ (i : Nat) (job : Job σ), members[i]? = some job → job.Rests ∨ turns.Holds i
  asked : turns.later ≠ [] → turns.asked = true

/-- No book misses anybody; and if it is to be `live`, everything that the job will wait for
comes. -/
inductive Tended (live : Prop) : Job σ → Prop where
  | done {completion} : Tended live (.done completion)
  | emit {run event next} (h : Tended live next) : Tended live (.emit run event next)
  | call {c resolver next} (hr : live → ∀ state, (resolver state).1.IsKept)
    (h : ∀ result, Tended live (next result)) : Tended live (.call c resolver next)
  | await {ticket due? c finish next} (hd : live → due?.isSome)
    (h : ∀ result, Tended live (next result)) : Tended live (.await ticket due? c finish next)
  | join {turns members next} (hb : Booked turns members) (hm : ∀ job ∈ members, Tended live job)
    (hn : ∀ completions, Tended live (next completions)) :
    Tended live (.join turns members next)

/-- Everything that the job will wait for comes, and no book misses anybody. -/
abbrev Live : Job σ → Prop :=
  Tended True

/-- What is left of a tended job when its turn goes on or is over. -/
structure Turned (live : Prop) (job : Job σ) (turn : Turn) : Prop where
  tended : job.Tended live
  done : turn = .done → ∃ completion, job = .done completion
  waits : turn = .waits → job.Rests ∧ job.completion? = none

/-- One of several jobs has changed, to one with a property. -/
def ChangedAt (i : Nat) (P : Job σ → Prop) (jobs jobs' : List (Job σ)) : Prop :=
  ∀ (j : Nat) (job : Job σ), jobs'[j]? = some job →
    (j ≠ i ∧ jobs[j]? = some job) ∨ (j = i ∧ P job)

/-! ## One of several jobs -/

theorem ChangedAt.head {P : Job σ → Prop} {job' : Job σ} (h : P job') (job : Job σ)
    (rest : List (Job σ)) : ChangedAt 0 P (job :: rest) (job' :: rest) := by
  intro j found hj
  cases j with
  | zero =>
    rw [List.getElem?_cons_zero, Option.some.injEq] at hj
    exact .inr ⟨rfl, hj ▸ h⟩
  | succ j => exact .inl ⟨by omega, hj⟩

theorem ChangedAt.tail {i : Nat} {P : Job σ → Prop} {rest rest' : List (Job σ)}
    (h : ChangedAt i P rest rest') (job : Job σ) :
    ChangedAt (i + 1) P (job :: rest) (job :: rest') := by
  intro j found hj
  cases j with
  | zero => exact .inl ⟨by omega, hj⟩
  | succ j =>
    rcases h j found hj with ⟨hij, hj⟩ | ⟨rfl, hp⟩
    · exact .inl ⟨by omega, hj⟩
    · exact .inr ⟨rfl, hp⟩

theorem ChangedAt.forall_mem {i : Nat} {P Q : Job σ → Prop} {jobs jobs' : List (Job σ)}
    (h : ChangedAt i P jobs jobs') (hp : ∀ job, P job → Q job) (hl : ∀ job ∈ jobs, Q job) :
    ∀ job ∈ jobs', Q job := by
  intro job hm
  obtain ⟨j, hj⟩ := List.getElem?_of_mem hm
  rcases h j job hj with ⟨-, hj⟩ | ⟨-, hpj⟩
  · exact hl job (List.mem_of_getElem? hj)
  · exact hp job hpj

/-! ## Books miss nobody -/

theorem Booked.start (discipline : Discipline) (members : List (Job σ)) :
    Booked (.start discipline members.length) members := by
  refine ⟨?_, fun h => absurd rfl h⟩
  intro i job hi
  refine .inr (.inl ?_)
  rw [Turns.start, List.mem_range]
  exact (List.getElem?_eq_some_iff.1 hi).1

theorem Booked.rest {turns : Turns} {members : List (Job σ)} (h : Booked turns members) :
    Booked turns.rest members := by
  refine ⟨?_, fun hl => absurd rfl hl⟩
  intro i job hi
  refine (h.holds i job hi).imp id ?_
  rintro (hq | hl | hc)
  · exact .inl (List.mem_append_left _ hq)
  · exact .inl (List.mem_append_right _ hl)
  · exact .inr (.inr hc)

theorem Booked.giveWay {turns : Turns} {members : List (Job σ)} (h : Booked turns members) :
    Booked turns.giveWay.1 members := by
  unfold Turns.giveWay
  split
  · exact h.rest
  · exact h

theorem Booked.wake {turns : Turns} {members members' : List (Job σ)} {i : Nat}
    {P : Job σ → Prop} (h : Booked turns members) (hm : ChangedAt i P members members') :
    Booked (turns.wake i) members' := by
  refine ⟨?_, h.asked⟩
  intro j job hj
  rcases hm j job hj with ⟨-, hj⟩ | ⟨rfl, -⟩
  · refine (h.holds j job hj).imp id ?_
    rintro (hq | hl | hc)
    · exact .inl (List.mem_append_left _ hq)
    · exact .inr (.inl hl)
    · exact .inr (.inr hc)
  · exact .inr (.inl (List.mem_append_right _ List.mem_cons_self))

theorem mem_requeue {turns : Turns} {i j : Nat} (h : j = i ∨ j ∈ turns.queue ∨ j ∈ turns.later) :
    j ∈ (turns.requeue i).queue ∨ j ∈ (turns.requeue i).later := by
  unfold Turns.requeue
  rcases h with rfl | hq | hl
  · cases turns.discipline <;> simp
  · cases turns.discipline <;> simp [hq]
  · cases turns.discipline <;> simp [hl]

/-- When a turn of a member is over, the member needs none, or it is down for another one. -/
theorem Booked.after {turns : Turns} {members members' : List (Job σ)} {i : Nat} {turn : Turn}
    {live : Prop} (h : Booked turns members) (hc : turns.current? = some i)
    (ht : ChangedAt i (Turned live · turn) members members') :
    Booked (turns.after i turn).1 members' := by
  -- whoever else needs a turn was not down for the present one, so it is in one of the rows
  have others : ∀ (j : Nat) (job : Job σ), j ≠ i → members[j]? = some job →
      job.Rests ∨ j ∈ turns.queue ∨ j ∈ turns.later := by
    intro j job hij hj
    rcases h.holds j job hj with hr | hq | hl | hcj
    · exact .inl hr
    · exact .inr (.inl hq)
    · exact .inr (.inr hl)
    · rw [hc, Option.some.injEq] at hcj
      exact absurd hcj.symm hij
  cases turn with
  | goesOn =>
    refine ⟨?_, h.asked⟩
    intro j job hj
    rcases ht j job hj with ⟨hij, hj⟩ | ⟨rfl, -⟩
    · exact h.holds j job hj
    · exact .inr (.inr (.inr hc))
  | done =>
    refine ⟨?_, h.asked⟩
    intro j job hj
    rcases ht j job hj with ⟨hij, hj⟩ | ⟨rfl, htj⟩
    · exact (others j job hij hj).imp id fun ho => ho.imp id .inl
    · obtain ⟨completion, rfl⟩ := htj.done rfl
      exact .inl .done
  | waits =>
    refine Booked.giveWay ⟨?_, h.asked⟩
    intro j job hj
    rcases ht j job hj with ⟨hij, hj⟩ | ⟨rfl, htj⟩
    · exact (others j job hij hj).imp id fun ho => ho.imp id .inl
    · exact .inl (htj.waits rfl).1
  | asks =>
    refine Booked.giveWay ⟨?_, fun _ => rfl⟩
    intro j job hj
    rcases ht j job hj with ⟨hij, hj⟩ | ⟨rfl, -⟩
    · refine (others j job hij hj).imp id ?_
      intro ho
      exact (mem_requeue (.inr ho)).imp id .inl
    · exact .inr ((mem_requeue (.inl rfl)).imp id .inl)

theorem Booked.pass {turns : Turns} {members : List (Job σ)} (h : Booked turns members)
    (hc : turns.current? = none) : Booked turns.pass.1 members := by
  unfold Turns.pass
  split
  · next i queue hq =>
    refine ⟨?_, h.asked⟩
    intro j job hj
    refine (h.holds j job hj).imp id ?_
    rintro (hjq | hl | hcj)
    · rw [hq] at hjq
      rcases List.mem_cons.1 hjq with rfl | hjq
      · exact .inr (.inr rfl)
      · exact .inl hjq
    · exact .inr (.inl hl)
    · rw [hc] at hcj
      nomatch hcj
  · exact h.rest

/-- A group that passes its turn with nobody left to have one waits for promises. -/
theorem Booked.rests_of_pass {turns : Turns} {members : List (Job σ)} (h : Booked turns members)
    (hc : turns.current? = none) (hp : turns.pass.2 = .waits) : ∀ job ∈ members, job.Rests := by
  intro job hm
  obtain ⟨i, hi⟩ := List.getElem?_of_mem hm
  unfold Turns.pass at hp
  split at hp
  · nomatch hp
  · next hq =>
    have hasked : turns.asked = false := by
      cases ha : turns.asked with
      | false => rfl
      | true => simp [ha] at hp
    have hlater : turns.later = [] := by
      by_cases hl : turns.later = []
      · exact hl
      · rw [h.asked hl] at hasked
        nomatch hasked
    rcases h.holds i job hi with hr | hiq | hil | hic
    · exact hr
    · simp [hq] at hiq
    · simp [hlater] at hil
    · simp [hc] at hic

/-! ## What waits -/

theorem mem_waitsAll_iff {jobs : List (Job σ)} {w : Wait} :
    w ∈ waitsAll jobs ↔ ∃ job ∈ jobs, w ∈ job.waits := by
  induction jobs with
  | nil => simp [waitsAll]
  | cons job rest ih => simp [waitsAll, ih]

theorem completions?_eq_none_iff {jobs : List (Job σ)} :
    completions? jobs = none ↔ ∃ job ∈ jobs, job.completion? = none := by
  induction jobs with
  | nil => simp [completions?]
  | cons job rest ih =>
    rw [completions?]
    cases hc : job.completion? <;> simp [hc, ih]

/-- What rests and is not done waits for a promise. -/
theorem Rests.waits_ne_nil {job : Job σ} (h : job.Rests) (hc : job.completion? = none) :
    job.waits ≠ [] := by
  induction h with
  | done => cases hc
  | await => simp [waits]
  | join hm hmembers ih =>
    obtain ⟨job, hj, hjc⟩ := completions?_eq_none_iff.1 hmembers
    obtain ⟨w, hw⟩ := List.exists_mem_of_ne_nil _ (ih job hj hjc)
    exact List.ne_nil_of_mem (mem_waitsAll_iff.2 ⟨job, hj, hw⟩)

theorem after_turn (turns : Turns) (i : Nat) (turn : Turn) :
    (turns.after i turn).2 = .goesOn ∨ (turns.after i turn).2 = .asks := by
  have giveWay : ∀ t : Turns, t.giveWay.2 = .goesOn ∨ t.giveWay.2 = .asks := by
    intro t
    unfold Turns.giveWay
    split
    · exact .inr rfl
    · exact .inl rfl
  cases turn with
  | goesOn => exact .inl rfl
  | done => exact .inl rfl
  | waits => exact giveWay _
  | asks => exact giveWay _

theorem pass_turn_ne_done (turns : Turns) : turns.pass.2 ≠ .done := by
  unfold Turns.pass
  split
  · nofun
  · cases turns.asked <;> nofun

/-! ## Acting keeps jobs tended -/

mutual

theorem turned_act {live : Prop} : (job : Job σ) → (m : Machine σ) → job.Tended live →
    (job.act m).1.Turned live (job.act m).2.2
  | .done completion, m, h => by
    rw [act]
    exact ⟨h, fun _ => ⟨completion, rfl⟩, nofun⟩
  | .emit run event next, m, .emit h => by
    rw [act]
    exact turned_act next _ h
  | .call c resolver next, m, .call hr h => by
    rw [act]
    cases hres : resolver (m.record c.run (.called c)).state with
    | mk resolution state =>
      cases resolution with
      | ready result => exact turned_act (next result) _ (h result)
      | pending delay? finish =>
        refine ⟨.await ?_ h, nofun, fun _ => ⟨.await, rfl⟩⟩
        intro hlive
        have hk := hr hlive (m.record c.run (.called c)).state
        rw [hres] at hk
        rw [Option.isSome_map]
        exact hk
  | .await ticket due? c finish next, m, h => by
    rw [act]
    exact ⟨h, nofun, fun _ => ⟨.await, rfl⟩⟩
  | .join turns members next, m, .join hb hm hn => by
    rw [act]
    split
    · next i hi =>
      -- the turn of the group ends here at most with a request for another one
      have ht := turnedAt_actAt i members m hm
      have hturn := after_turn turns i (actAt i members m).2.2
      refine ⟨.join (hb.after hi ht) (ht.forall_mem (fun _ h => h.tended) hm) hn, ?_, ?_⟩
      · intro hd
        rcases hturn with hg | ha <;> simp_all
      · intro hw
        rcases hturn with hg | ha <;> simp_all
    · next hi =>
      split
      · next completions hc => exact turned_act (next completions) _ (hn completions)
      · next hc =>
        refine ⟨.join (hb.pass hi) hm hn, fun hd => absurd hd (pass_turn_ne_done turns), ?_⟩
        intro hw
        exact ⟨.join (hb.rests_of_pass hi hw) hc, rfl⟩

theorem turnedAt_actAt {live : Prop} : (i : Nat) → (jobs : List (Job σ)) → (m : Machine σ) →
    (∀ job ∈ jobs, job.Tended live) →
    ChangedAt i (Turned live · (actAt i jobs m).2.2) jobs (actAt i jobs m).1
  | _, [], m, _ => by
    rw [actAt]
    intro j job hj
    simp at hj
  | 0, job :: rest, m, hl => by
    rw [actAt]
    exact .head (turned_act job m (hl job List.mem_cons_self)) job rest
  | i + 1, job :: rest, m, hl => by
    rw [actAt]
    exact (turnedAt_actAt i rest m fun job hm => hl job (List.mem_cons_of_mem _ hm)).tail job

end

/-! ## Keeping promises keeps jobs tended -/

mutual

theorem tended_keep {live : Prop} {ticket : Nat} : (job : Job σ) → (m : Machine σ) →
    {kept : Snapshot σ} → job.keep? ticket m = some kept → job.Tended live → kept.1.Tended live
  | .done _, _, _, h, _ => by simp [keep?] at h
  | .emit .., _, _, h, _ => by simp [keep?] at h
  | .call .., _, _, h, _ => by simp [keep?] at h
  | .await ticket' due? c finish next, m, kept, h, hl => by
    rw [keep?] at h
    split at h
    · simp only [Option.some.injEq] at h
      subst h
      cases hl with
      | await _ hn => exact hn _
    · nomatch h
  | .join turns members next, m, kept, h, .join hb hm hn => by
    rw [keep?] at h
    split at h
    · next heq =>
      simp only [Option.some.injEq] at h
      subst h
      have hc := changedAt_keepAny members m heq hm
      exact .join (hb.wake hc) (hc.forall_mem (fun _ h => h) hm) hn
    · nomatch h

theorem changedAt_keepAny {live : Prop} {ticket : Nat} : (jobs : List (Job σ)) →
    (m : Machine σ) → {kept : Nat × List (Job σ) × Machine σ} →
    keepAny? ticket jobs m = some kept → (∀ job ∈ jobs, job.Tended live) →
    ChangedAt kept.1 (Tended live) jobs kept.2.1
  | [], _, _, h, _ => by simp [keepAny?] at h
  | job :: rest, m, kept, h, hl => by
    rw [keepAny?] at h
    split at h
    · next heq =>
      simp only [Option.some.injEq] at h
      subst h
      exact .head (tended_keep job m heq (hl job List.mem_cons_self)) job rest
    · split at h
      · next heq =>
        simp only [Option.some.injEq] at h
        subst h
        have hr := changedAt_keepAny rest m heq fun job hm => hl job (List.mem_cons_of_mem _ hm)
        exact hr.tail job
      · nomatch h

end

mutual

/-- A promise that a job waits for can be kept. -/
theorem exists_keep {ticket : Nat} : (job : Job σ) → (m : Machine σ) →
    (∃ w ∈ job.waits, w.ticket = ticket) → ∃ kept, job.keep? ticket m = some kept
  | .done _, _, h => by simp [waits] at h
  | .emit .., _, h => by simp [waits] at h
  | .call .., _, h => by simp [waits] at h
  | .await ticket' due? c finish next, m, h => by
    rw [keep?]
    have ht : ticket' = ticket := by simpa [waits] using h
    rw [if_pos ht]
    exact ⟨_, rfl⟩
  | .join turns members next, m, h => by
    obtain ⟨kept, hk⟩ := exists_keepAny members m h
    rw [keep?, hk]
    exact ⟨_, rfl⟩

theorem exists_keepAny {ticket : Nat} : (jobs : List (Job σ)) → (m : Machine σ) →
    (∃ w ∈ waitsAll jobs, w.ticket = ticket) → ∃ kept, keepAny? ticket jobs m = some kept
  | [], _, h => by simp [waitsAll] at h
  | job :: rest, m, ⟨w, hw, ht⟩ => by
    rw [keepAny?]
    cases hj : job.keep? ticket m with
    | some kept => exact ⟨_, rfl⟩
    | none =>
      rw [waitsAll, List.mem_append] at hw
      rcases hw with hw | hw
      · obtain ⟨kept, hk⟩ := exists_keep job m ⟨w, hw, ht⟩
        rw [hj] at hk
        nomatch hk
      · obtain ⟨kept, hk⟩ := exists_keepAny rest m ⟨w, hw, ht⟩
        rw [hk]
        exact ⟨_, rfl⟩

end

/-- All promises that a live job waits for will be kept. -/
theorem Live.due {job : Job σ} (h : job.Live) : ∀ w ∈ job.waits, w.due?.isSome := by
  induction h with
  | await hd => simpa [waits] using hd
  | join hb hm hn ihm ihn =>
    intro w hw
    obtain ⟨job, hj, hw⟩ := mem_waitsAll_iff.1 hw
    exact ihm job hj w hw
  | _ => simp [waits]

end Job

namespace Wait

theorem mem_of_next? {waits : List Wait} {ticket due : Nat}
    (h : next? waits = some (ticket, due)) : ⟨ticket, some due⟩ ∈ waits := by
  induction waits generalizing ticket due with
  | nil => nomatch h
  | cons w rest ih =>
    obtain ⟨ticket', due?⟩ := w
    cases due? with
    | none => exact List.mem_cons_of_mem _ (ih h)
    | some due' =>
      rw [next?] at h
      split at h
      · cases h
        exact List.mem_cons_self
      · next hr =>
        split at h
        · exact List.mem_cons_of_mem _ (ih (hr.trans h))
        · cases h
          exact List.mem_cons_self

theorem exists_next? {waits : List Wait} (hne : waits ≠ [])
    (hd : ∀ w ∈ waits, w.due?.isSome) : ∃ ticket due, next? waits = some (ticket, due) := by
  cases waits with
  | nil => exact absurd rfl hne
  | cons w rest =>
    obtain ⟨ticket, due?⟩ := w
    obtain ⟨due, rfl⟩ := Option.isSome_iff_exists.1 (hd _ List.mem_cons_self)
    rw [next?]
    split
    · exact ⟨_, _, rfl⟩
    · split <;> exact ⟨_, _, rfl⟩

/-- If no promise is kept next, none ever is. -/
theorem due?_of_next? {waits : List Wait} (h : next? waits = none) :
    ∀ w ∈ waits, w.due? = none := by
  induction waits with
  | nil => simp
  | cons w rest ih =>
    obtain ⟨ticket, due?⟩ := w
    cases due? with
    | none => exact List.forall_mem_cons.2 ⟨rfl, ih h⟩
    | some due =>
      rw [next?] at h
      split at h
      · cases h
      · split at h <;> cases h

end Wait

namespace Job

theorem turned_of_act {live : Prop} {job job' : Job σ} {m m' : Machine σ} {turn : Turn}
    (h : job.act m = (job', m', turn)) (hl : job.Tended live) : job'.Turned live turn := by
  have := turned_act job m hl
  rwa [h] at this

/-- Where a turn is over and something is left to do, the job rests. -/
theorem Turned.rests {live : Prop} {job : Job σ} {turn : Turn} (h : job.Turned live turn)
    (hd : ∀ completion, job = .done completion → False) (hg : turn = .goesOn → False)
    (ha : turn = .asks → False) : job.Rests ∧ job.completion? = none := by
  cases turn with
  | goesOn => exact (hg rfl).elim
  | done =>
    obtain ⟨completion, hc⟩ := h.done rfl
    exact (hd completion hc).elim
  | waits => exact h.waits rfl
  | asks => exact (ha rfl).elim

/-- Where a turn of a live job is over and something is left to do, a promise can be waited for. -/
theorem Turned.exists_next? {job : Job σ} {turn : Turn} (h : job.Turned True turn)
    (hd : ∀ completion, job = .done completion → False) (hg : turn = .goesOn → False)
    (ha : turn = .asks → False) : ∃ ticket due, Wait.next? job.waits = some (ticket, due) := by
  obtain ⟨hr, hc⟩ := h.rests hd hg ha
  have hlive : job.Live := h.tended
  exact Wait.exists_next? (hr.waits_ne_nil hc) hlive.due

/-- **Without a limit, a live job is driven to its end.** -/
theorem exists_drive_eq_ok {job : Job σ} (h : job.Live) (m : Machine σ) :
    ∃ completion m', job.drive none m = (.ok completion, m') := by
  fun_induction drive none job m with
  | case1 job m completion m₁ turn hact => exact ⟨completion, m₁, rfl⟩
  | case2 job m job₁ m₁ hd hact ih => exact ih (turned_of_act hact h).tended
  | case3 job m job₁ m₁ hd hact ih => exact ih (turned_of_act hact h).tended
  | case4 job m job₁ m₁ turn hd hg ha hact hn =>
    obtain ⟨ticket, due, hs⟩ := (turned_of_act hact h).exists_next? hd hg ha
    rw [hn] at hs
    cases hs
  | case5 job m job₁ m₁ turn hd hg ha hact ticket due hn hl => simp at hl
  | case6 job m job₁ m₁ turn hd hg ha hact ticket due hn hl hk =>
    obtain ⟨kept, hs⟩ := exists_keep job₁ { m₁ with now := due } ⟨_, Wait.mem_of_next? hn, rfl⟩
    rw [hk] at hs
    cases hs
  | case7 job m job₁ m₁ turn hd hg ha hact ticket due hn hl kept m₂ hkept ih =>
    exact ih (tended_keep job₁ _ hkept (turned_of_act hact h).tended)

end Job

end GraphQL
