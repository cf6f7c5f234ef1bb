import StateSpace.Proofs.Pool.Ownership

/-!
# Workers do not notice each other

The replies to a worker depend on the table that it holds, and nobody else touches that table. So they are those that
the worker would get with a pool of its own (`replies_independent`). The argument relates two fleets in which the worker
holds tables that are alike (`Matching`): a step of the worker gets the same reply in both and leaves them matching
(`Matching.own_step`), and any other step in one of them leaves them matching too (`Matching.other_step`).

A shutdown makes the worker ask memory for a table where it would have had one alone. So memory has to say to all its
requests the same, be it yes or no (`Step.Asks`); what it says to others does not matter.
-/

namespace StateSpace

namespace Fleet

/-- The worker whose step it is. -/
def Step.worker? : Step → Option WorkerId
  | .checkout w _ | .giveBack w | .table w _ | .explore w _ _ => some w
  | .shutdown | .describe => none

/-- The replies that a worker gets to its own steps when these steps are taken. -/
def repliesTo (w : WorkerId) (f : Fleet) (steps : List Step) : List Reply :=
  ((steps.zip (f.run steps).1).filter (·.1.worker? = some w)).map (·.2.1)

variable {config : Table.Config} {f f' : Fleet} {w : WorkerId} {s : Step} {granted : Bool}

theorem repliesTo_cons_of_eq (hs : s.worker? = some w) (rest : List Step) :
    repliesTo w f (s :: rest) = (f.step s).1 :: repliesTo w (f.step s).2 rest := by
  simp [repliesTo, run, observe, hs]

theorem repliesTo_cons_of_ne (hs : s.worker? ≠ some w) (rest : List Step) :
    repliesTo w f (s :: rest) = repliesTo w (f.step s).2 rest := by
  simp [repliesTo, run, observe, hs]

theorem worker_of_work {work : Table → Reply × Table} (hs : s.work? = some (w, work)) : s.worker? = some w := by
  cases s with
  | table | explore =>
    cases hs
    rfl
  | checkout | giveBack | shutdown | describe => cases hs

/-! ## What a step does to the tables held -/

/-- Memory says the same to every checkout of the worker: whether it grants a table of this geometry. -/
def Step.Asks (config : Table.Config) (w : WorkerId) (granted : Bool) (s : Step) : Prop :=
  ∀ memory, s = .checkout w memory → (Table.create config memory).isOk = granted

/-- If the worker has a table, memory grants tables to it. -/
def Provided (w : WorkerId) (granted : Bool) (f : Fleet) : Prop := f.tableOf w ≠ none → granted = true

theorem Sound.provided_step (h : Sound config f) (hf : f.Provided w granted) (hs : s.Asks config w granted) :
    (f.step s).2.Provided w granted := by
  intro hsome
  obtain hbefore | ⟨memory, hcheckout, hc⟩ := h.tableOf_step hsome
  · exact hf hbefore
  · rw [← hs memory hcheckout, hc]
    rfl

/-- Where memory grants tables to the worker, a table can be made for any of its checkouts. -/
theorem create_of_provided {memory : Table.Memory} (hf : f.Provided w granted)
    (hm : (Table.create config memory).isOk = granted) {e : Pool.Entry} (he : (f.pool.entry? w).getD {} = e)
    (hnew : e.table = none → Table.create config memory = .ok (Table.empty config)) :
    Table.create config memory = .ok (Table.empty config) := by
  cases htable : e.table with
  | none => exact hnew htable
  | some t =>
    have hsome : f.tableOf w ≠ none := fun hnone => by
      have hkept := (tableOf_eq_none_iff.1 hnone).2
      rw [← Pool.table_getD, he, htable] at hkept
      cases hkept
    rw [hf hsome] at hm
    cases hc : Table.create config memory with
    | error error => rw [hc] at hm; cases hm
    | ok new => rw [(Table.create_eq_ok hc).2]

/-- A checkout by a worker that holds no table depends on what memory says only. -/
theorem Sound.checkout_free (h : Sound config f) (hheld : f.heldBy w = none) (hf : f.Provided w granted)
    {memory : Table.Memory} (hm : (Table.create config memory).isOk = granted) :
    match Table.create config memory with
    | .error error =>
      (f.step (.checkout w memory)).1 = .refused (.table error) ∧ (f.step (.checkout w memory)).2.heldBy w = none
    | .ok new =>
      (f.step (.checkout w memory)).1 = .checkedOut w new.summary ∧
        ∃ t, (f.step (.checkout w memory)).2.heldBy w = some t ∧ Table.Alike new t := by
  have hcase := h.case_checkout w memory
  generalize (f.step (.checkout w memory)).1 = reply at hcase ⊢
  generalize (f.step (.checkout w memory)).2 = f' at hcase ⊢
  cases hcase with
  | inUse hsome => rw [hheld] at hsome; cases hsome
  | noTable _ _ _ _ hc =>
    rw [hc]
    exact ⟨rfl, hheld⟩
  | checkedOut _ he _ hnew halike =>
    rw [create_of_provided hf hm he hnew]
    exact ⟨rfl, _, by rw [heldBy_hold, if_pos rfl], halike⟩
  | notHeld hs => cases hs
  | worked hs => cases hs

/-- A step changes the table that its own worker holds at most. -/
theorem Sound.heldBy_step_of_ne (h : Sound config f) (hs : s.worker? ≠ some w) :
    (f.step s).2.heldBy w = f.heldBy w := by
  have hcase := step_cases h s
  generalize (f.step s).1 = reply at hcase
  generalize (f.step s).2 = f' at hcase ⊢
  cases hcase with
  | inUse | noTable | nothingHeld | notHeld | shutdown | describe => rfl
  | checkedOut =>
    rename_i w' memory e t _ _ _ _ _ _
    have hne : w ≠ w' := fun heq => hs (heq ▸ rfl)
    rw [heldBy_hold, if_neg hne]
    rfl
  | gaveBack =>
    rename_i w' e t _ _ _ _
    have hne : w ≠ w' := fun heq => hs (heq ▸ rfl)
    rw [heldBy_without, if_neg hne]
    rfl
  | worked hwork =>
    rename_i w' work t _
    have hne : w ≠ w' := fun heq => hs (heq ▸ worker_of_work hwork)
    rw [heldBy_hold, if_neg hne, heldBy_without, if_neg hne]

/-! ## Two fleets that a worker cannot tell apart -/

/-- Two sound fleets in which the worker holds nothing, or tables that are alike. -/
structure Matching (config : Table.Config) (w : WorkerId) (granted : Bool) (f f' : Fleet) : Prop where
  left : Sound config f
  right : Sound config f'
  held : Option.Rel Table.Alike (f.heldBy w) (f'.heldBy w)
  left_provided : f.Provided w granted
  right_provided : f'.Provided w granted

theorem Matching.cases_held (h : Matching config w granted f f') :
    (f.heldBy w = none ∧ f'.heldBy w = none) ∨
      ∃ t t', f.heldBy w = some t ∧ f'.heldBy w = some t' ∧ Table.Alike t t' := by
  have hrel := h.held
  generalize f.heldBy w = held at hrel ⊢
  generalize f'.heldBy w = held' at hrel ⊢
  cases hrel with
  | none => exact .inl ⟨rfl, rfl⟩
  | some halike => exact .inr ⟨_, _, rfl, rfl, halike⟩

theorem Matching.other_step (h : Matching config w granted f f') (hs : s.worker? ≠ some w) :
    Matching config w granted (f.step s).2 f' where
  left := h.left.step s
  right := h.right
  held := by
    rw [h.left.heldBy_step_of_ne hs]
    exact h.held
  left_provided := h.left.provided_step h.left_provided fun memory hcheckout => absurd (hcheckout ▸ rfl) hs
  right_provided := h.right_provided

/-- The two fleets reply the same to the step, and the worker holds tables that are alike after it. -/
def AgreeOn (w : WorkerId) (s : Step) (f f' : Fleet) : Prop :=
  (f.step s).1 = (f'.step s).1 ∧ Option.Rel Table.Alike ((f.step s).2.heldBy w) ((f'.step s).2.heldBy w)

theorem Matching.checkout (h : Matching config w granted f f') {memory : Table.Memory}
    (hm : (Table.create config memory).isOk = granted) : AgreeOn w (.checkout w memory) f f' := by
  obtain ⟨hheld, hheld'⟩ | ⟨t, t', hheld, hheld', -⟩ := h.cases_held
  · have hleft := h.left.checkout_free hheld h.left_provided hm
    have hright := h.right.checkout_free hheld' h.right_provided hm
    cases hc : Table.create config memory with
    | error error =>
      rw [hc] at hleft hright
      refine ⟨hleft.1.trans hright.1.symm, ?_⟩
      rw [hleft.2, hright.2]
      exact .none
    | ok new =>
      rw [hc] at hleft hright
      obtain ⟨hreply, t, ht, halike⟩ := hleft
      obtain ⟨hreply', t', ht', halike'⟩ := hright
      refine ⟨hreply.trans hreply'.symm, ?_⟩
      rw [ht, ht']
      exact .some (halike.symm.trans halike')
  · unfold AgreeOn
    simp only [step, checkout_of_held h.left hheld, checkout_of_held h.right hheld']
    exact ⟨trivial, h.held⟩

theorem Matching.giveBack (h : Matching config w granted f f') : AgreeOn w (.giveBack w) f f' := by
  unfold AgreeOn
  obtain ⟨hheld, hheld'⟩ | ⟨t, t', hheld, hheld', -⟩ := h.cases_held
  · simp only [step, take?_of_none hheld, take?_of_none hheld']
    exact ⟨trivial, h.held⟩
  · simp only [step, take?_of_some hheld, take?_of_some hheld']
    refine ⟨trivial, ?_⟩
    show Option.Rel Table.Alike ((f.without w).heldBy w) ((f'.without w).heldBy w)
    rw [heldBy_without, heldBy_without, if_pos rfl, if_pos rfl]
    exact .none

theorem Matching.work (h : Matching config w granted f f') {work : Table → Reply × Table}
    (hs : s.work? = some (w, work)) : AgreeOn w s f f' := by
  unfold AgreeOn
  rw [step_of_work hs, step_of_work hs]
  obtain ⟨hheld, hheld'⟩ | ⟨t, t', hheld, hheld', halike⟩ := h.cases_held
  · rw [hheld, hheld']
    exact ⟨rfl, h.held⟩
  · obtain ⟨hreply, htable⟩ := sameResult_work hs halike
    rw [hheld, hheld']
    dsimp only
    rw [heldBy_hold, heldBy_hold, if_pos rfl, if_pos rfl]
    exact ⟨hreply.symm, .some htable⟩

theorem Matching.agreeOn (h : Matching config w granted f f') (hs : s.worker? = some w)
    (hasks : s.Asks config w granted) : AgreeOn w s f f' := by
  cases s with
  | checkout _ memory => cases hs; exact h.checkout (hasks memory rfl)
  | giveBack => cases hs; exact h.giveBack
  | table | explore => cases hs; exact h.work rfl
  | shutdown | describe => cases hs

theorem Matching.own_step (h : Matching config w granted f f') (hs : s.worker? = some w)
    (hasks : s.Asks config w granted) : Matching config w granted (f.step s).2 (f'.step s).2 where
  left := h.left.step s
  right := h.right.step s
  held := (h.agreeOn hs hasks).2
  left_provided := h.left.provided_step h.left_provided hasks
  right_provided := h.right.provided_step h.right_provided hasks

/-- The worker gets the same replies whether the steps of others are taken or not. -/
theorem Matching.repliesTo_eq (h : Matching config w granted f f') (steps : List Step)
    (hasks : ∀ s ∈ steps, s.Asks config w granted) :
    repliesTo w f steps = (f'.run (steps.filter (·.worker? = some w))).1.map (·.1) := by
  -- the second fleet waits while others take their steps in the first
  induction steps generalizing f f' with
  | nil => rfl
  | cons s rest ih =>
    obtain ⟨hfirst, hrest⟩ := List.forall_mem_cons.1 hasks
    by_cases hs : s.worker? = some w
    · rw [repliesTo_cons_of_eq hs, List.filter_cons_of_pos (by simpa using hs), ih (h.own_step hs hfirst) hrest,
        (h.agreeOn hs hfirst).1]
      rfl
    · rw [repliesTo_cons_of_ne hs, List.filter_cons_of_neg (by simpa using hs), ih (h.other_step hs) hrest]

/-- A table that is checked out is alike to a new one. -/
theorem Sound.alike_loan (h : Sound config f) (hf : f.Provided w granted) {memory : Table.Memory}
    (hm : (Table.create config memory).isOk = granted) {loan : Pool.Loan} {pool : Pool}
    (hc : f.pool.checkout w memory = (.ok loan, pool)) :
    ∃ new, Table.create config memory = .ok new ∧ Table.Alike new loan.table := by
  have hstep : f.step (.checkout w memory) = (.checkedOut w loan.table.summary, ⟨pool, loan :: f.held⟩) := by
    simp only [Fleet.step, hc]
  have hcase := h.case_checkout w memory
  generalize hr : (f.step (.checkout w memory)).1 = reply at hcase
  generalize hf' : (f.step (.checkout w memory)).2 = f' at hcase
  rw [hstep] at hr hf'
  cases hcase with
  | inUse | noTable | notHeld => cases hr
  | checkedOut _ he _ hnew halike _ =>
    obtain ⟨rfl, -⟩ := List.cons.inj (Fleet.mk.inj hf').2
    exact ⟨_, create_of_provided hf hm he hnew, halike⟩
  | worked hs => cases hs

theorem Sound.provided_run (h : Sound config f) (hf : f.Provided w granted) (steps : List Step)
    (hasks : ∀ s ∈ steps, s.Asks config w granted) : (f.run steps).2.Provided w granted := by
  induction steps generalizing f with
  | nil => exact hf
  | cons s rest ih =>
    obtain ⟨hfirst, hrest⟩ := List.forall_mem_cons.1 hasks
    exact ih (h.step s) (h.provided_step hf hfirst) hrest

/-- **Workers do not interfere.** Let memory say the same to every checkout of a worker, be it yes or no. Whatever steps
the workers take with a new pool, whatever memory says to the others, and also when the pool is shut down in between,
the worker gets the replies that it would get if nobody else took a step; and no client of a table that it checks out
can tell it from a new table of the geometry of the pool. -/
theorem replies_independent {pool : Pool} (hp : Pool.create config = .ok pool) (w : WorkerId) (steps : List Step)
    (hasks : ∀ s ∈ steps, s.Asks config w granted) :
    repliesTo w ⟨pool, []⟩ steps = (run ⟨pool, []⟩ (steps.filter (·.worker? = some w))).1.map (·.1) ∧
    ∀ memory loan pool', (Table.create config memory).isOk = granted →
      (run ⟨pool, []⟩ steps).2.pool.checkout w memory = (.ok loan, pool') →
      ∃ new, Table.create config memory = .ok new ∧
        ∀ (α : Type) (client : Client α), (client.run loan.table).1 = (client.run new).1 := by
  have hsound : Sound config ⟨pool, []⟩ := sound_create hp
  have hprovided : Provided w granted ⟨pool, []⟩ := by
    rw [Pool.create_eq_ok hp]
    exact fun hsome => absurd rfl hsome
  refine ⟨(Matching.mk hsound hsound .none hprovided hprovided).repliesTo_eq steps hasks,
    fun memory loan pool' hm hc => ?_⟩
  obtain ⟨new, hnew, halike⟩ := (hsound.run steps).alike_loan (hsound.provided_run hprovided steps hasks) hm hc
  exact ⟨new, hnew, fun α client => (client.sameResult_run halike).1⟩

theorem replies_independent_shift : Pool.create ⟨1, 2, 3⟩ = .ok ⟨⟨1, 2, 3⟩, []⟩ ∧
    (∀ s ∈ shift, s.Asks ⟨1, 2, 3⟩ ⟨5⟩ true) ∧
    repliesTo ⟨5⟩ ⟨⟨⟨1, 2, 3⟩, []⟩, []⟩ shift = (run ⟨⟨⟨1, 2, 3⟩, []⟩, []⟩
      [.checkout ⟨5⟩, .table ⟨5⟩ (.op (.insert [1])), .giveBack ⟨5⟩, .checkout ⟨5⟩]).1.map (·.1) ∧
    (∀ s ∈ shift, s.Asks ⟨1, 2, 3⟩ ⟨7⟩ true) ∧ (Table.create ⟨1, 2, 3⟩).isOk = true ∧
    ∃ loan pool, (run ⟨⟨⟨1, 2, 3⟩, []⟩, []⟩ shift).2.pool.checkout ⟨7⟩ .ordinary = (.ok loan, pool) ∧
      ∀ (α : Type) (client : Client α), (client.run loan.table).1 = (client.run (Table.empty ⟨1, 2, 3⟩)).1 := by
  have hp : Pool.create ⟨1, 2, 3⟩ = .ok ⟨⟨1, 2, 3⟩, []⟩ := rfl
  have hempty : Table.create ⟨1, 2, 3⟩ = .ok (Table.empty ⟨1, 2, 3⟩) := by decide
  have hgranted : (Table.create ⟨1, 2, 3⟩).isOk = true := by rw [hempty]; rfl
  have hfive : ∀ s ∈ shift, s.Asks ⟨1, 2, 3⟩ ⟨5⟩ true := by simp [shift, Step.Asks, hgranted]
  have hseven : ∀ s ∈ shift, s.Asks ⟨1, 2, 3⟩ ⟨7⟩ true := by simp [shift, Step.Asks, hgranted]
  have hsteps : shift.filter (·.worker? = some ⟨5⟩) =
      [.checkout ⟨5⟩, .table ⟨5⟩ (.op (.insert [1])), .giveBack ⟨5⟩, .checkout ⟨5⟩] := rfl
  have hreplies := (replies_independent hp ⟨5⟩ shift hfive).1
  rw [hsteps] at hreplies
  refine ⟨hp, hfive, hreplies, hseven, hgranted, ?_⟩
  have hok : (Pool.checkout (run ⟨⟨⟨1, 2, 3⟩, []⟩, []⟩ shift).2.pool ⟨7⟩ .ordinary).1.isOk = true := by decide +kernel
  generalize hc : Pool.checkout (run ⟨⟨⟨1, 2, 3⟩, []⟩, []⟩ shift).2.pool ⟨7⟩ .ordinary = checkout at hok
  obtain ⟨loan | error, pool⟩ := checkout
  · cases hok
  · obtain ⟨new, hnew, hclient⟩ := (replies_independent hp ⟨7⟩ shift hseven).2 _ _ _ hgranted hc
    rw [hempty] at hnew
    cases hnew
    exact ⟨_, _, rfl, hclient⟩

end Fleet

end StateSpace
