import Munarium.Runbooks.ExecutorRuns

/-! The states that an executor leaves runs in: between executions a run agrees with its steps. -/
namespace Munarium

/-- A run's state agrees with its steps, and neither is left running. -/
structure RunbookRun.Settled (r : RunbookRun) : Prop where
  done : r.state = .done ↔ ∀ step ∈ r.steps, step.state = .done
  failed : r.state = .failed ↔ ∃ step ∈ r.steps, step.state = .failed
  awaiting : r.state ≠ .done → r.state ≠ .failed → r.state = .awaitingApproval ∧
    ∃ (n : ℕ) (step : StoredStep), r.steps[n]? = some step ∧ step.state = .awaitingApproval ∧
      DoneBefore r.steps n
  still : ∀ step ∈ r.steps, step.state ≠ .running

/-- The run whose steps a call walks, or that it has planned to walk. -/
def RunbookCall.walkedRun : RunbookCall → Option ℕ
  | locking run _ _ => some run
  | executing x => some x.run
  | _ => none

/-- No execution of a run is in progress. -/
def RunbookSystem.Idle (s : RunbookSystem) (run : ℕ) : Prop :=
  ∀ (i : ℕ) (call : RunbookCall), s.calls[i]? = some call → call.walkedRun ≠ some run

/-- Between executions every run is settled, and an execution that returned an error has left a
failed step in a failed run. -/
structure RunsSettled (s : RunbookSystem) : Prop where
  settled : ∀ (run : ℕ) (r : RunbookRun), s.runs[run]? = some r → s.Idle run → r.Settled
  failed : ∀ (i run : ℕ) (e : KernelError), s.calls[i]? = some (.ended (some run) (.error e)) →
    ∃ r, s.runs[run]? = some r ∧ r.state = .failed ∧ ∃ step ∈ r.steps, step.state = .failed

/-- A document plans the steps of a run that are still open. -/
def RunbookDoc.Fits (doc : RunbookDoc) (r : RunbookRun) : Prop :=
  (execUnits doc).length = r.steps.length ∧
    ∀ p ∈ r.steps.zip (execUnits doc), p.1.state ≠ .done → p.2.name = p.1.name

instance (doc : RunbookDoc) (r : RunbookRun) : Decidable (doc.Fits r) :=
  inferInstanceAs (Decidable (_ ∧ _))

/-- A unit finds what it reads before its work. -/
def ExecUnit.Prepared (u : ExecUnit) (r : RunbookRun) (replies : UnitReplies) : Prop :=
  match u.step with
  | .buildIndex => r.versionId.isSome → replies.head.toOption.isSome
  | .verify => replies.detailRead.toOption.isSome ∧
      ((stepDetail r.steps u.buildName).bind indexVersion).isSome
  | .cutover _ => replies.detailRead.toOption.isSome ∧
      ((stepDetail r.steps u.buildName).bind indexVersion).isSome
  | .resolveSources | .verifyDataViews | .retireOld _ => True

instance (u : ExecUnit) (r : RunbookRun) (replies : UnitReplies) :
    Decidable (u.Prepared r replies) := by
  unfold ExecUnit.Prepared
  split <;> infer_instance

/-- A statement of an execution meets no early exit. -/
def Execution.Clear (x : Execution) (env : Env) (r : RunbookRun) : Prop :=
  env.write = none ∧
    match x.stage with
    | .starting => env.read = none
    | .working => ∀ u ∈ x.unit?, u.Prepared r env.replies
    | .marking | .visiting | .gating | .checkpointing _ | .failing _ => True

instance (x : Execution) (env : Env) (r : RunbookRun) : Decidable (x.Clear env r) := by
  unfold Execution.Clear
  cases x.stage <;> infer_instance

/-- What a call needs of its next statement to leave its run settled in the end. -/
def RunbookSystem.Sound (s : RunbookSystem) (env : Env) : RunbookCall → Prop
  | .planning doc _ => (execUnits doc).length ≤ 2 ^ 31
  | .locking run _ _ => env.lock = none ∧ s.locked run = false
  | .loading run _ _ => ∀ r ∈ s.runs[run]?,
      ∀ doc ∈ (loadRunbook s.runbooks r.runbookRef).toOption, doc.Fits r
  | .executing x => ∀ r ∈ s.runs[x.run]?, x.Clear env r
  | .requesting _ _ _ | .checking _ _ _ | .ended _ _ | .crashed => True

instance (s : RunbookSystem) (env : Env) (call : RunbookCall) : Decidable (s.Sound env call) := by
  unfold RunbookSystem.Sound
  cases call <;> infer_instance

/-- No call crashes, and each statement of a call meets what it needs. -/
def RunbookSystem.Undisturbed (s : RunbookSystem) : RunbookEvent → Prop
  | .advance i env => ∀ call ∈ s.calls[i]?, s.Sound env call
  | .crash _ => False
  | .apply _ | .remove _ | .run _ _ | .approve _ _ => True

instance (s : RunbookSystem) (e : RunbookEvent) : Decidable (s.Undisturbed e) := by
  unfold RunbookSystem.Undisturbed
  cases e <;> infer_instance

/-- Steps are done up to one, which is in the given state. -/
def At (steps : List StoredStep) (n : ℕ) (state : StepState) : Prop :=
  DoneBefore steps n ∧ ∃ step, steps[n]? = some step ∧ step.state = state

/-- A run at rest: all of its steps are done, or it stopped at one. -/
def Rests (r : RunbookRun) : Prop :=
  (r.state = .done ∧ ∀ step ∈ r.steps, step.state = .done) ∨
  (r.state = .failed ∧ ∃ n, At r.steps n .failed) ∨
  (r.state = .awaitingApproval ∧ ∃ n, At r.steps n .awaitingApproval)

/-- The open steps that an execution visits: all pending, or awaiting the approval that it has. -/
def Open (steps : List StoredStep) (approved : Option ℕ) (ordinal : ℕ) : Prop :=
  (∀ (i : ℕ) (step : StoredStep), ordinal ≤ i → steps[i]? = some step → step.state = .pending) ∨
  ∃ n step, approved = some n ∧ ordinal ≤ n ∧ steps[n]? = some step ∧
    step.state = .awaitingApproval

/-- The step that an execution stands at. -/
def Poised (r : RunbookRun) (x : Execution) : Prop :=
  match x.stage with
  | .marking | .starting => Open r.steps x.approved 0
  | .visiting => Open r.steps x.approved x.ordinal
  | .gating => At r.steps x.ordinal .awaitingApproval
  | .working | .checkpointing _ => True
  | .failing _ => At r.steps x.ordinal .failed

theorem at_unique {steps : List StoredStep} {m n : ℕ} {a b : StepState} (hm : At steps m a)
    (hn : At steps n b) (ha : a ≠ .done) (hb : b ≠ .done) : a = b := by
  obtain ⟨hbefore, stepa, hstepa, rfl⟩ := hm
  obtain ⟨hbefore', stepb, hstepb, rfl⟩ := hn
  rcases Nat.lt_trichotomy m n with hlt | rfl | hgt
  · exact absurd (hbefore' m stepa hlt hstepa) ha
  · rw [hstepa] at hstepb
    cases hstepb
    rfl
  · exact absurd (hbefore n stepb hgt hstepb) hb

/-- Every step of a run that stands at one is done, pending, or that one. -/
theorem At.states {steps : List StoredStep} {n : ℕ} {state : StepState} (h : At steps n state)
    (horder : InOrder steps) (hopen : state ≠ .done) {step : StoredStep} (hstep : step ∈ steps) :
    step.state = .done ∨ step.state = .pending ∨ step.state = state := by
  obtain ⟨hbefore, current, hcurrent, rfl⟩ := h
  obtain ⟨i, hi⟩ := List.mem_iff_getElem?.mp hstep
  rcases Nat.lt_trichotomy i n with hlt | rfl | hgt
  · exact Or.inl (hbefore i step hlt hi)
  · rw [hcurrent] at hi
    cases hi
    exact Or.inr (Or.inr rfl)
  · exact Or.inr (Or.inl (horder n i current step hgt hcurrent hi hopen).1)

/-- A run at rest is settled. -/
theorem Rests.settled {r : RunbookRun} (h : Rests r) (horder : InOrder r.steps) : r.Settled := by
  rcases h with ⟨hstate, hall⟩ | ⟨hstate, n, hat⟩ | ⟨hstate, n, hat⟩
  · constructor
    · simp only [hstate, true_iff]
      exact hall
    · simp only [hstate, reduceCtorEq, false_iff, not_exists, not_and]
      intro step hstep hfailed
      rw [hall step hstep] at hfailed
      cases hfailed
    · intro hnot
      exact absurd hstate hnot
    · intro step hstep
      rw [hall step hstep]
      decide
  · have hstates (step : StoredStep) (hstep : step ∈ r.steps) :=
      hat.states horder (by decide) hstep
    obtain ⟨-, step, hstep, hfailed⟩ := hat
    have hmem := List.mem_of_getElem? hstep
    constructor
    · simp only [hstate, reduceCtorEq, false_iff, not_forall]
      exact ⟨step, hmem, by rw [hfailed]; decide⟩
    · simp only [hstate, true_iff]
      exact ⟨step, hmem, hfailed⟩
    · intro _ hnot
      exact absurd hstate hnot
    · intro other hother hrunning
      rcases hstates other hother with heq | heq | heq <;> rw [hrunning] at heq <;> cases heq
  · have hstates (step : StoredStep) (hstep : step ∈ r.steps) :=
      hat.states horder (by decide) hstep
    obtain ⟨hbefore, step, hstep, hwaits⟩ := hat
    have hmem := List.mem_of_getElem? hstep
    constructor
    · simp only [hstate, reduceCtorEq, false_iff, not_forall]
      exact ⟨step, hmem, by rw [hwaits]; decide⟩
    · simp only [hstate, reduceCtorEq, false_iff, not_exists, not_and]
      intro other hother hfailed
      rcases hstates other hother with heq | heq | heq <;> rw [hfailed] at heq <;> cases heq
    · intro _ _
      exact ⟨hstate, n, step, hstep, hwaits, hbefore⟩
    · intro other hother hrunning
      rcases hstates other hother with heq | heq | heq <;> rw [hrunning] at heq <;> cases heq

theorem RunbookDoc.Fits.unit {doc : RunbookDoc} {r : RunbookRun} (h : doc.Fits r) {i : ℕ}
    {step : StoredStep} (hstep : r.steps[i]? = some step) (hopen : step.state ≠ .done) :
    ∃ u, (execUnits doc)[i]? = some u ∧ u.name = step.name := by
  have hlt : i < (execUnits doc).length := by
    rw [h.1]
    exact (List.getElem?_eq_some_iff.mp hstep).1
  obtain ⟨u, hunit⟩ : ∃ u, (execUnits doc)[i]? = some u :=
    ⟨_, List.getElem?_eq_getElem hlt⟩
  refine ⟨u, hunit, ?_⟩
  apply h.2 (step, u) _ hopen
  apply List.mem_of_getElem? (i := i)
  rw [List.getElem?_zip_eq_some]
  exact ⟨hstep, hunit⟩

theorem fits_iff {doc : RunbookDoc} {r : RunbookRun} : doc.Fits r ↔
    (execUnits doc).length = r.steps.length ∧
      ∀ (i : ℕ) (step : StoredStep) (u : ExecUnit), r.steps[i]? = some step →
        (execUnits doc)[i]? = some u → step.state ≠ .done → u.name = step.name := by
  apply and_congr_right
  intro _
  constructor
  · intro h i step u hstep hunit hopen
    apply h (step, u) _ hopen
    apply List.mem_of_getElem? (i := i)
    rw [List.getElem?_zip_eq_some]
    exact ⟨hstep, hunit⟩
  · intro h p hp hopen
    obtain ⟨i, hi⟩ := List.mem_iff_getElem?.mp hp
    rw [List.getElem?_zip_eq_some] at hi
    exact h i p.1 p.2 hi.1 hi.2 hopen

/-- A statement leaves a document fitting. -/
theorem RunbookDoc.Fits.writes {x : Execution} {r : RunbookRun} {m : Moved} (h : x.doc.Fits r)
    (hwrites : x.Writes r m) : x.doc.Fits m.run := by
  cases hwrites with
  | state _ hrun =>
    rw [hrun]
    exact h
  | @step u before state detail hunit hbefore hname hrun =>
    rw [hrun]
    obtain ⟨hlength, hnames⟩ := fits_iff.mp h
    apply fits_iff.mpr
    refine ⟨by simp only [List.length_set, hlength], ?_⟩
    intro i step u' hstep hunit' hopen
    rcases Positions.getElem?_set_cases hstep with ⟨rfl, rfl⟩ | ⟨-, hother⟩
    · rw [Execution.unit?, hunit'] at hunit
      cases hunit
      exact hname.symm
    · exact hnames i step u' hother hunit' hopen

theorem fits_planned (doc : RunbookDoc) (versionId : Option String) (id : String) :
    doc.Fits (RunbookSystem.plannedRun doc versionId id) := by
  apply fits_iff.mpr
  refine ⟨by simp [RunbookSystem.plannedRun], ?_⟩
  intro i step u hstep hunit _
  simp only [RunbookSystem.plannedRun, List.getElem?_map, hunit, Option.map_some] at hstep
  cases hstep
  rfl

theorem setStep_of_row {r : RunbookRun} {ordinal : ℕ} {step : StoredStep} (state : StepState)
    (detail : Option Json) (hshort : r.steps.length ≤ 2 ^ 31)
    (hstep : r.steps[ordinal]? = some step) :
    setStep r r.versionId ordinal step.name state detail none =
      .ok { r with steps := r.steps.set ordinal (step.write state detail) } := by
  have hlt := (List.getElem?_eq_some_iff.mp hstep).1
  unfold setStep
  rw [if_neg (by omega)]
  simp only [hstep, and_self, if_true]

/-- A unit that finds what it reads leaves its outcome. -/
theorem runUnit_prepared {r : RunbookRun} {u : ExecUnit} {replies : UnitReplies}
    (h : u.Prepared r replies) :
    ∃ outcome, runUnit r.steps r.versionId u replies = .ok outcome := by
  have hprior (hread : replies.detailRead.toOption.isSome)
      (hbuilt : ((stepDetail r.steps u.buildName).bind indexVersion).isSome) :
      ∃ built, priorBuild r.steps u replies = .ok built := by
    obtain ⟨built, hbuilt⟩ := Option.isSome_iff_exists.mp hbuilt
    unfold priorBuild
    cases hreply : replies.detailRead with
    | error e =>
      rw [hreply] at hread
      cases hread
    | ok => exact ⟨built, by rw [hbuilt]⟩
  unfold ExecUnit.Prepared at h
  unfold runUnit
  cases hstep : u.step with
  | resolveSources => cases u.collection <;> exact ⟨_, rfl⟩
  | buildIndex =>
    simp only [hstep] at h
    have hmark : ∃ n, watermarkOf r.versionId replies = .ok n := by
      cases hversion : r.versionId with
      | none => exact ⟨0, rfl⟩
      | some v =>
        rw [hversion] at h
        cases hhead : replies.head with
        | error e =>
          rw [hhead] at h
          cases h rfl
        | ok n => exact ⟨n, hhead⟩
    obtain ⟨n, hn⟩ := hmark
    simp only [hn]
    exact ⟨_, rfl⟩
  | verify | cutover =>
    simp only [hstep] at h
    obtain ⟨built, hbuilt⟩ := hprior h.1 h.2
    simp only [hbuilt]
    exact ⟨_, rfl⟩
  | verifyDataViews | retireOld => exact ⟨_, rfl⟩

/-- What a statement leaves: an execution that goes on as it should, or a run at rest. -/
structure Leaves (m : Moved) : Prop where
  next : ∀ x', m.call = .executing x' → Poised m.run x'
  ended : ∀ executed answer, m.call = .ended executed answer → Rests m.run ∧
    ∀ e, answer = .error e → m.run.state = .failed

theorem leaves_next {x' : Execution} {m : Moved} (hcall : m.call = .executing x')
    (h : Poised m.run x') : Leaves m where
  next y heq := by
    rw [hcall] at heq
    cases heq
    exact h
  ended executed answer heq := by
    rw [hcall] at heq
    cases heq

theorem leaves_ended {x : Execution} {r : RunbookRun} {answer : Result String} (h : Rests r)
    (hfailed : ∀ e, answer = .error e → r.state = .failed) :
    Leaves { run := r, call := x.ends answer } where
  next y heq := by cases heq
  ended executed answer' heq := by
    cases heq
    exact ⟨h, hfailed⟩

section
variable {r : RunbookRun} {x : Execution} {env : Env}

/-- A checkpoint of a step that a fitting document names. -/
theorem afterWrite_setStep {u : ExecUnit} {step : StoredStep} {state : StepState}
    {detail : Option Json} {next : RunbookCall} (hshort : r.steps.length ≤ 2 ^ 31)
    (hversion : x.versionId = r.versionId) (hstep : r.steps[x.ordinal]? = some step)
    (hname : u.name = step.name) :
    x.afterWrite r (setStep r x.versionId x.ordinal u.name state detail none) next =
      { run := { r with steps := r.steps.set x.ordinal (step.write state detail) }
        call := next } := by
  rw [hversion, hname, setStep_of_row state detail hshort hstep]
  rfl

theorem visit_leaves (hshort : r.steps.length ≤ 2 ^ 31) (hversion : x.versionId = r.versionId)
    (hfits : x.doc.Fits r) (horder : InOrder r.steps) (hwrite : env.write = none)
    (hstage : x.stage = .visiting)
    (hwalks : DoneBefore r.steps x.ordinal ∧ InStep r.steps x.rows x.ordinal)
    (hopen : Open r.steps x.approved x.ordinal) : Leaves (x.visit env r) := by
  obtain ⟨hbefore, hrows⟩ := hwalks
  unfold Execution.visit
  rw [hwrite]
  cases hunit : x.unit? with
  | none =>
    apply leaves_ended
    · refine Or.inl ⟨rfl, ?_⟩
      intro step hstep
      obtain ⟨i, hi⟩ := List.mem_iff_getElem?.mp hstep
      have hlt : i < r.steps.length := (List.getElem?_eq_some_iff.mp hi).1
      have hlast := List.getElem?_eq_none_iff.mp hunit
      rw [hfits.1] at hlast
      exact hbefore i step (by omega) hi
    · intro e he
      cases he
  | some u =>
    have hlt : x.ordinal < r.steps.length := hfits.1 ▸ (List.getElem?_eq_some_iff.mp hunit).1
    obtain ⟨step, hstep⟩ : ∃ step, r.steps[x.ordinal]? = some step :=
      ⟨_, List.getElem?_eq_getElem hlt⟩
    have hcurrent : x.current = step.state := by
      simp [Execution.current, hrows x.ordinal (Nat.le_refl _), hstep]
    -- the first open step is pending, or awaits the approval that the execution has
    have hfirst : step.state ≠ .done →
        step.state = .pending ∨ step.state = .awaitingApproval ∧ x.approved = some x.ordinal := by
      intro hnot
      rcases hopen with hpending | ⟨n, waiting, happroved, hle, hwaiting, hwaits⟩
      · exact Or.inl (hpending x.ordinal step (Nat.le_refl _) hstep)
      · rcases Nat.lt_or_eq_of_le hle with hbeyond | heq
        · have hlater := (horder x.ordinal n step waiting hbeyond hstep hwaiting hnot).1
          rw [hwaits] at hlater
          cases hlater
        · rw [← heq, hstep] at hwaiting
          cases hwaiting
          exact Or.inr ⟨hwaits, heq ▸ happroved⟩
    have hname (hnot : step.state ≠ .done) : u.name = step.name := by
      obtain ⟨u', hunit', hname'⟩ := hfits.unit hstep hnot
      rw [Execution.unit?, hunit'] at hunit
      cases hunit
      exact hname'
    simp only [hcurrent]
    split_ifs with hdone hgate hwait
    · apply leaves_next rfl
      simp only [Poised, hstage]
      rcases hopen with hpending | ⟨n, waiting, happroved, hle, hwaiting, hwaits⟩
      · rw [hpending x.ordinal step (Nat.le_refl _) hstep] at hdone
        cases hdone
      · refine Or.inr ⟨n, waiting, happroved, ?_, hwaiting, hwaits⟩
        rcases Nat.lt_or_eq_of_le hle with hbeyond | heq
        · exact hbeyond
        · rw [← heq, hstep] at hwaiting
          cases hwaiting
          rw [hdone] at hwaits
          cases hwaits
    · rw [afterWrite_setStep hshort hversion hstep (hname hdone)]
      apply leaves_next rfl
      exact ⟨doneBefore_set hbefore, _, Positions.getElem?_set_some hstep, rfl⟩
    · rcases hfirst hdone with hpending | ⟨-, happroved⟩
      · rw [hpending] at hwait
        cases hwait.1
      · exact absurd happroved hwait.2
    · rw [afterWrite_setStep hshort hversion hstep (hname hdone)]
      exact leaves_next rfl trivial

/-- Each statement that meets what it needs leaves a run at rest, or an execution that goes on. -/
theorem move_leaves (call : ℕ) (hshort : r.steps.length ≤ 2 ^ 31)
    (hversion : x.versionId = r.versionId) (hfits : x.doc.Fits r) (horder : InOrder r.steps)
    (hclear : x.Clear env r) (hwalks : Walks r x) (hpoised : Poised r x) :
    Leaves (x.move call env r) := by
  obtain ⟨hwrite, hclear⟩ := hclear
  unfold Walks at hwalks
  unfold Poised at hpoised
  unfold Execution.move
  cases hstage : x.stage with
  | marking =>
    simp only [hstage] at hpoised
    rw [hwrite]
    exact leaves_next rfl hpoised
  | starting =>
    simp only [hstage] at hpoised hclear
    simp only [hclear]
    exact leaves_next rfl hpoised
  | visiting =>
    simp only [hstage] at hwalks hpoised
    exact visit_leaves hshort hversion hfits horder hwrite hstage hwalks hpoised
  | gating =>
    simp only [hstage] at hpoised
    rw [hwrite]
    apply leaves_ended
    · exact Or.inr (Or.inr ⟨rfl, x.ordinal, hpoised⟩)
    · intro e he
      cases he
  | working =>
    simp only [hstage] at hwalks hclear
    obtain ⟨u, step, hunit, -⟩ := hwalks.unit
    obtain ⟨outcome, houtcome⟩ := runUnit_prepared (hclear u hunit)
    simp only [Execution.work, hunit, hversion, houtcome]
    exact leaves_next rfl trivial
  | checkpointing outcome =>
    simp only [hstage] at hwalks
    obtain ⟨u, step, hunit, hstep, hname, hrunning, -⟩ := hwalks.unit
    cases outcome with
    | ok detail =>
      simp only [Execution.checkpoint, hunit, hwrite]
      rw [hversion, ← hname, setStep_of_row .done (some detail) hshort hstep]
      apply leaves_next rfl
      refine Or.inl ?_
      intro i other hi hother
      have hlt : x.ordinal < i := hi
      rw [List.getElem?_set_ne (Nat.ne_of_lt hlt)] at hother
      apply (horder x.ordinal i step other hlt hstep hother _).1
      rw [hrunning]
      decide
    | error e =>
      simp only [Execution.checkpoint, hunit, hwrite]
      rw [afterWrite_setStep hshort hversion hstep hname.symm]
      apply leaves_next rfl
      exact ⟨doneBefore_set hwalks.before, _, Positions.getElem?_set_some hstep, rfl⟩
  | failing e =>
    simp only [hstage] at hpoised
    rw [hwrite]
    apply leaves_ended
    · exact Or.inr (Or.inl ⟨rfl, x.ordinal, hpoised⟩)
    · intro e' _
      rfl

end

/-- The lineage version that a call carries for a run. -/
def RunbookCall.carries : RunbookCall → Option (ℕ × Option String)
  | locking run versionId _ => some (run, versionId)
  | requesting run _ versionId => some (run, versionId)
  | checking run _ versionId => some (run, versionId)
  | loading run _ versionId => some (run, versionId)
  | executing x => some (x.run, x.versionId)
  | planning _ _ => none
  | ended _ _ => none
  | crashed => none

/-- What undisturbed events keep of runs and calls. -/
structure RunbookSystem.Orderly (s : RunbookSystem) : Prop where
  short : ∀ (k : ℕ) (r : RunbookRun), s.runs[k]? = some r → r.steps.length ≤ 2 ^ 31
  versions : ∀ (i : ℕ) (call : RunbookCall), s.calls[i]? = some call →
    ∀ k v, call.carries = some (k, v) → ∃ r, s.runs[k]? = some r ∧ r.versionId = v
  rests : ∀ (k : ℕ) (r : RunbookRun), s.runs[k]? = some r → s.Idle k → Rests r
  waits : ∀ (i k ordinal : ℕ) (versionId : Option String),
    s.calls[i]? = some (.loading k ordinal versionId) →
    ∃ r step, s.runs[k]? = some r ∧ r.steps[ordinal]? = some step ∧ step.state = .awaitingApproval
  poised : ∀ (i : ℕ) (x : Execution) (r : RunbookRun), s.calls[i]? = some (.executing x) →
    s.runs[x.run]? = some r → Poised r x ∧ x.doc.Fits r
  failed : ∀ (i run : ℕ) (e : KernelError), s.calls[i]? = some (.ended (some run) (.error e)) →
    (∃ r, s.runs[run]? = some r ∧ r.state = .failed) ∧ s.Idle run

namespace RunbookSystem.Orderly
variable {s s' : RunbookSystem} {i : ℕ} {old call : RunbookCall}

theorem idle_of_set {k : ℕ} (hold : s.calls[i]? = some old)
    (hwalked : ∀ k, old.walkedRun = some k → call.walkedRun = some k)
    (hidle : (s.setCall i call).Idle k) : s.Idle k := by
  intro j other hj hwalks
  by_cases heq : i = j
  · subst heq
    rw [hold] at hj
    cases hj
    exact hidle i call (Positions.getElem?_set_some hold) (hwalked k hwalks)
  · apply hidle j other _ hwalks
    rw [RunbookSystem.setCall, List.getElem?_set_ne heq, hj]

/-- A call goes on without touching its run. -/
theorem setCall (h : s.Orderly) (hold : s.calls[i]? = some old)
    (hwalked : ∀ k, old.walkedRun = some k → call.walkedRun = some k)
    (hversions : ∀ k v, call.carries = some (k, v) → ∃ r, s.runs[k]? = some r ∧ r.versionId = v)
    (hwaits : ∀ k ordinal versionId, call = .loading k ordinal versionId → ∃ r step,
      s.runs[k]? = some r ∧ r.steps[ordinal]? = some step ∧ step.state = .awaitingApproval)
    (hpoised : ∀ x r, call = .executing x → s.runs[x.run]? = some r →
      Poised r x ∧ x.doc.Fits r)
    (hstarts : ∀ k r, call.walkedRun = some k → s.runs[k]? = some r → r.state = .failed →
      ¬ s.Idle k)
    (hquiet : ∀ k e, call ≠ .ended (some k) (.error e)) : (s.setCall i call).Orderly where
  short := h.short
  versions := Positions.forall_set h.versions hversions
  rests k r hr hidle := h.rests k r hr (idle_of_set hold hwalked hidle)
  waits j k ordinal versionId hj := by
    rcases Positions.getElem?_set_cases hj with ⟨-, heq⟩ | ⟨-, hother⟩
    · exact hwaits k ordinal versionId heq.symm
    · exact h.waits j k ordinal versionId hother
  poised j x r hj hr := by
    rcases Positions.getElem?_set_cases hj with ⟨-, heq⟩ | ⟨-, hother⟩
    · exact hpoised x r heq.symm hr
    · exact h.poised j x r hother hr
  failed j k e hj := by
    rcases Positions.getElem?_set_cases hj with ⟨-, heq⟩ | ⟨-, hother⟩
    · exact absurd heq.symm (hquiet k e)
    · obtain ⟨⟨r, hr, hfailed⟩, hidle⟩ := h.failed j k e hother
      refine ⟨⟨r, hr, hfailed⟩, ?_⟩
      intro j' other hj' hwalks
      rcases Positions.getElem?_set_cases hj' with ⟨-, rfl⟩ | ⟨-, hj'⟩
      · exact hstarts k r hwalks hr hfailed hidle
      · exact hidle j' other hj' hwalks

/-- A new call walks nothing yet. -/
theorem starts (h : s.Orderly) (hwalked : call.walkedRun = none)
    (hversions : ∀ k v, call.carries = some (k, v) → ∃ r, s.runs[k]? = some r ∧ r.versionId = v)
    (hnew : ∀ k ordinal versionId, call ≠ .loading k ordinal versionId)
    (hquiet : ∀ k e, call ≠ .ended (some k) (.error e)) :
    Orderly { s with calls := s.calls ++ [call] } := by
  have hidle {k : ℕ} (hidle : s.Idle k) : Idle { s with calls := s.calls ++ [call] } k := by
    intro j other hj hwalks
    rcases Positions.getElem?_append_cases hj with ⟨-, hj⟩ | ⟨-, rfl⟩
    · exact hidle j other hj hwalks
    · rw [hwalked] at hwalks
      cases hwalks
  have hback {k : ℕ} (hidle : Idle { s with calls := s.calls ++ [call] } k) : s.Idle k := by
    intro j other hj
    apply hidle j other
    rw [List.getElem?_append_left (List.getElem?_eq_some_iff.mp hj).1, hj]
  constructor
  · exact h.short
  · exact Positions.forall_append h.versions hversions
  · intro k r hr hall
    exact h.rests k r hr (hback hall)
  · intro j k ordinal versionId hj
    rcases Positions.getElem?_append_cases hj with ⟨-, hj⟩ | ⟨-, heq⟩
    · exact h.waits j k ordinal versionId hj
    · exact absurd heq.symm (hnew k ordinal versionId)
  · intro j x r hj hr
    rcases Positions.getElem?_append_cases hj with ⟨-, hj⟩ | ⟨-, heq⟩
    · exact h.poised j x r hj hr
    · rw [← heq] at hwalked
      cases hwalked
  · intro j k e hj
    rcases Positions.getElem?_append_cases hj with ⟨-, hj⟩ | ⟨-, heq⟩
    · obtain ⟨hfailed, hall⟩ := h.failed j k e hj
      exact ⟨hfailed, hidle hall⟩
    · exact absurd heq.symm (hquiet k e)

theorem plans (h : s.Orderly) (hsteady : s.Steady) (id : String) {doc : RunbookDoc}
    {versionId : Option String} (hold : s.calls[i]? = some (.planning doc versionId))
    (hshort : (execUnits doc).length ≤ 2 ^ 31) :
    Orderly { s.setCall i (.locking s.runs.length versionId doc) with
      runs := s.runs ++ [plannedRun doc versionId id] } := by
  have hkept {k : ℕ} {r : RunbookRun} (hr : s.runs[k]? = some r) :
      (s.runs ++ [plannedRun doc versionId id])[k]? = some r := by
    rw [List.getElem?_append_left (List.getElem?_eq_some_iff.mp hr).1, hr]
  have hlocking : (s.calls.set i (.locking s.runs.length versionId doc))[i]? =
      some (.locking s.runs.length versionId doc) := Positions.getElem?_set_some hold
  have hidle {k : ℕ} (hne : k ≠ s.runs.length) (hidle : s.Idle k) :
      (s.setCall i (.locking s.runs.length versionId doc)).Idle k := by
    intro j other hj hwalks
    rcases Positions.getElem?_set_cases hj with ⟨-, rfl⟩ | ⟨-, hj⟩
    · exact hne (Option.some.inj hwalks).symm
    · exact hidle j other hj hwalks
  constructor
  · apply Positions.forall_append h.short
    simpa [plannedRun] using hshort
  · apply Positions.forall_set
    · intro j other hj k v hcarries
      obtain ⟨r, hr, hv⟩ := h.versions j other hj k v hcarries
      exact ⟨r, hkept hr, hv⟩
    · intro k v hcarries
      cases hcarries
      exact ⟨_, List.getElem?_concat_length, rfl⟩
  · intro k r hr hall
    rcases Positions.getElem?_append_cases hr with ⟨-, hr⟩ | ⟨rfl, -⟩
    · apply h.rests k r hr
      apply idle_of_set hold _ hall
      intro k' hwalked
      cases hwalked
    · exact absurd rfl (hall i _ hlocking)
  · intro j k ordinal versionId' hj
    rcases Positions.getElem?_set_cases hj with ⟨-, heq⟩ | ⟨-, hj⟩
    · cases heq
    · obtain ⟨r, step, hr, hstep⟩ := h.waits j k ordinal versionId' hj
      exact ⟨r, step, hkept hr, hstep⟩
  · intro j x r hj hr
    rcases Positions.getElem?_set_cases hj with ⟨-, heq⟩ | ⟨-, hj⟩
    · cases heq
    · have hlt := hsteady.known j _ hj x.run rfl
      rw [List.getElem?_append_left hlt] at hr
      exact h.poised j x r hj hr
  · intro j k e hj
    rcases Positions.getElem?_set_cases hj with ⟨-, heq⟩ | ⟨-, hj⟩
    · cases heq
    · obtain ⟨⟨r, hr, hfailed⟩, hall⟩ := h.failed j k e hj
      have hlt : k < s.runs.length := (List.getElem?_eq_some_iff.mp hr).1
      exact ⟨⟨r, hkept hr, hfailed⟩, hidle (Nat.ne_of_lt hlt) hall⟩

/-- A statement of an execution, which alone walks its run. -/
theorem moves (h : s.Orderly) (hsteady : s.Steady) (hfresh : s.Fresh) {env : Env} {x : Execution}
    {r : RunbookRun} (hold : s.calls[i]? = some (.executing x)) (hr : s.runs[x.run]? = some r)
    (hclear : x.Clear env r) : (s.moved i x.run (x.move i env r)).Orderly := by
  have hwalks := hsteady.walks i x r hold hr
  have horder := hsteady.order x.run r hr
  obtain ⟨hpoised, hfits⟩ := h.poised i x r hold hr
  have hversion : x.versionId = r.versionId := by
    obtain ⟨r', hr', hv⟩ := h.versions i _ hold x.run x.versionId rfl
    rw [hr] at hr'
    cases hr'
    exact hv.symm
  have hkeeps := move_keeps i env hwalks horder
  have hleaves := move_leaves i (h.short x.run r hr) hversion hfits horder hclear hwalks hpoised
  have hnew : (x.move i env r).call.walkedRun = none ∨
      (x.move i env r).call.walkedRun = some x.run := by
    rcases hkeeps.call with ⟨answer, hcall⟩ | ⟨x', hcall, hcont⟩
    · exact Or.inl (by rw [hcall]; rfl)
    · exact Or.inr (by rw [hcall]; exact congrArg some hcont.run)
  have hcalls : (s.moved i x.run (x.move i env r)).calls[i]? = some (x.move i env r).call :=
    Positions.getElem?_set_some hold
  have hruns : (s.moved i x.run (x.move i env r)).runs[x.run]? = some (x.move i env r).run :=
    Positions.getElem?_set_some hr
  -- the lock, and a plan's freshness, keep every other call from the run
  have halone (j : ℕ) (other : RunbookCall) (hj : s.calls[j]? = some other) (hne : j ≠ i) :
      other.walkedRun ≠ some x.run ∧ other.lockedRun ≠ some x.run := by
    have hlocked : other.lockedRun ≠ some x.run :=
      fun hlock => hne (hsteady.locks j i other _ x.run hj hold hlock rfl)
    refine ⟨?_, hlocked⟩
    intro hwalked
    cases other with
    | locking run versionId doc =>
      cases hwalked
      exact hne ((hfresh j _ versionId doc hj).2 i _ hold rfl).symm
    | executing y => exact hlocked hwalked
    | planning | requesting | checking | loading | ended | crashed => cases hwalked
  constructor
  · apply Positions.forall_set h.short
    have hlength := congrArg List.length hkeeps.run.names
    simp only [List.length_map] at hlength
    rw [hlength]
    exact h.short x.run r hr
  · have hkept {k : ℕ} {v : Option String} (hold : ∃ r, s.runs[k]? = some r ∧ r.versionId = v) :
        ∃ r₁, (s.moved i x.run (x.move i env r)).runs[k]? = some r₁ ∧ r₁.versionId = v := by
      obtain ⟨r₀, hr₀, hv⟩ := hold
      obtain ⟨r₁, hr₁, hkept⟩ := RunbookSystem.runs_moved hr hkeeps.run hr₀
      exact ⟨r₁, hr₁, hkept.version.trans hv⟩
    apply Positions.forall_set
    · intro j other hj k v hcarries
      exact hkept (h.versions j other hj k v hcarries)
    · intro k v hcarries
      rcases hkeeps.call with ⟨answer, hcall⟩ | ⟨x', hcall, hcont⟩
      · rw [hcall] at hcarries
        cases hcarries
      · rw [hcall] at hcarries
        apply hkept
        apply h.versions i _ hold
        rw [← hcarries, RunbookCall.carries, RunbookCall.carries, hcont.run, hcont.version]
  · intro k r' hr' hidle
    rcases Positions.getElem?_set_cases hr' with ⟨rfl, rfl⟩ | ⟨hne, hother⟩
    · rcases hkeeps.call with ⟨answer, hcall⟩ | ⟨x', hcall, hcont⟩
      · exact (hleaves.ended _ _ hcall).1
      · exact absurd (by rw [hcall]; exact congrArg some hcont.run) (hidle i _ hcalls)
    · apply h.rests k r' hother
      intro j other hj hwalked
      by_cases heq : j = i
      · subst heq
        rw [hold] at hj
        cases hj
        exact hne (Option.some.inj hwalked).symm
      · apply hidle j other _ hwalked
        rw [RunbookSystem.moved, List.getElem?_set_ne (Ne.symm heq), hj]
  · intro j k ordinal versionId hj
    rcases Positions.getElem?_set_cases hj with ⟨-, heq⟩ | ⟨hne, hother⟩
    · rcases hkeeps.call with ⟨answer, hcall⟩ | ⟨x', hcall, -⟩
      · rw [hcall] at heq
        cases heq
      · rw [hcall] at heq
        cases heq
    · have hrun : x.run ≠ k :=
        fun heq => (halone j _ hother hne).2 (congrArg some heq.symm)
      rw [RunbookSystem.moved, List.getElem?_set_ne hrun]
      exact h.waits j k ordinal versionId hother
  · intro j y r' hj hr'
    rcases Positions.getElem?_set_cases hj with ⟨-, heq⟩ | ⟨hne, hother⟩
    · rcases hkeeps.call with ⟨answer, hcall⟩ | ⟨x', hcall, hcont⟩
      · rw [hcall] at heq
        cases heq
      · rw [hcall] at heq
        cases heq
        rw [hcont.run, hruns] at hr'
        cases hr'
        rw [hcont.doc]
        exact ⟨hleaves.next _ hcall, hfits.writes (move_writes x i env r)⟩
    · have hrun : x.run ≠ y.run :=
        fun heq => (halone j _ hother hne).2 (congrArg some heq.symm)
      rw [RunbookSystem.moved, List.getElem?_set_ne hrun] at hr'
      exact h.poised j y r' hother hr'
  · intro j k e hj
    rcases Positions.getElem?_set_cases hj with ⟨-, heq⟩ | ⟨hne, hother⟩
    · rcases hkeeps.call with ⟨answer, hcall⟩ | ⟨x', hcall, -⟩
      · have hended := hleaves.ended _ _ hcall
        rw [hcall] at heq
        cases heq
        refine ⟨⟨_, hruns, hended.2 e rfl⟩, ?_⟩
        intro j' other hj' hwalked
        rcases Positions.getElem?_set_cases hj' with ⟨-, rfl⟩ | ⟨hne', hj'⟩
        · rw [hcall] at hwalked
          cases hwalked
        · exact (halone j' other hj' hne').1 hwalked
      · rw [hcall] at heq
        cases heq
    · obtain ⟨⟨r₀, hr₀, hfailed⟩, hidle⟩ := h.failed j k e hother
      have hrun : x.run ≠ k := fun heq => hidle i _ hold (congrArg some heq)
      refine ⟨⟨r₀, by rw [RunbookSystem.moved, List.getElem?_set_ne hrun, hr₀], hfailed⟩, ?_⟩
      intro j' other hj' hwalked
      rcases Positions.getElem?_set_cases hj' with ⟨-, rfl⟩ | ⟨-, hj'⟩
      · rcases hnew with hnone | hsome
        · rw [hnone] at hwalked
          cases hwalked
        · rw [hsome] at hwalked
          exact hrun (Option.some.inj hwalked)
      · exact hidle j' other hj' hwalked

/-- A run that has failed awaits no approval. -/
theorem not_failed {k : ℕ} (h : s.Orderly) (hsteady : s.Steady) {r : RunbookRun}
    {step : StoredStep} (hr : s.runs[k]? = some r) (hstep : step ∈ r.steps)
    (hwaits : step.state = .awaitingApproval) (hfailed : r.state = .failed) : ¬ s.Idle k := by
  intro hidle
  have horder := hsteady.order k r hr
  rcases h.rests k r hr hidle with ⟨hstate, -⟩ | ⟨-, n, hat⟩ | ⟨hstate, -⟩
  · rw [hfailed] at hstate
    cases hstate
  · rcases hat.states horder (by decide) hstep with heq | heq | heq <;>
      rw [hwaits] at heq <;> cases heq
  · rw [hfailed] at hstate
    cases hstate

theorem stepped {e : RunbookEvent} (h : s.Orderly) (hsteady : s.Steady) (hfresh : s.Fresh)
    (he : s.Undisturbed e) (hs : s.Stepped e s') : s'.Orderly := by
  cases hs with
  | stays => exact h
  | applies | removes => exact ⟨h.short, h.versions, h.rests, h.waits, h.poised, h.failed⟩
  | refuses | asks =>
    apply h.starts rfl
    · intro k v hcarries
      cases hcarries
    · intro k ordinal versionId heq
      cases heq
    · intro k e heq
      cases heq
  | @approves _ run ordinal hrun =>
    apply h.starts rfl
    · intro k v hcarries
      cases hcarries
      exact ⟨_, List.getElem?_eq_getElem hrun, by simp [List.getElem?_eq_getElem hrun]⟩
    · intro k ordinal versionId heq
      cases heq
    · intro k e heq
      cases heq
  | dies => exact absurd he id
  | @ends i env old error hold hlock hidle =>
    have hsound := he old hold
    apply h.setCall hold
    · intro k hwalked
      cases old with
      | locking run versionId doc =>
        have hrefused := hlock run versionId doc rfl
        simp [RunbookSystem.acquireRunLock, hsound.1, hsound.2] at hrefused
      | executing x => exact absurd rfl (hidle x)
      | planning | requesting | checking | loading | ended | crashed => cases hwalked
    · intro k v hcarries
      cases hcarries
    · intro k ordinal versionId heq
      cases heq
    · intro x r heq
      cases heq
    · intro k r hwalked
      cases hwalked
    · intro k e heq
      cases heq
  | plans hold => exact h.plans hsteady _ hold (he _ hold)
  | @locks i run env doc versionId hold hfree =>
    obtain ⟨⟨id, hplanned⟩, -⟩ := hfresh i run versionId doc hold
    have hversions := h.versions i _ hold
    apply h.setCall hold
    · intro k hwalked
      exact hwalked
    · exact hversions
    · intro k ordinal versionId heq
      cases heq
    · intro x r heq hr
      cases heq
      rw [hplanned] at hr
      cases hr
      refine ⟨Or.inl ?_, fits_planned doc versionId id⟩
      intro j step _ hstep
      simp only [plannedRun, List.getElem?_map] at hstep
      obtain ⟨u, -, rfl⟩ := Option.map_eq_some_iff.mp hstep
      rfl
    · intro k r hwalked hr hfailed
      cases hwalked
      rw [hplanned] at hr
      cases hr
      cases hfailed
    · intro k e heq
      cases heq
  | @enters i run ordinal env versionId hold =>
    have hversions := h.versions i _ hold
    apply h.setCall hold
    · intro k hwalked
      cases hwalked
    · exact hversions
    · intro k ordinal versionId heq
      cases heq
    · intro x r heq
      cases heq
    · intro k r hwalked
      cases hwalked
    · intro k e heq
      cases heq
  | @finds i run ordinal env versionId r step hold hr hstep hwaits =>
    have hset : (s.setCall i (.loading run ordinal versionId)).Orderly := by
      have hversions := h.versions i _ hold
      apply h.setCall hold
      · intro k hwalked
        cases hwalked
      · exact hversions
      · intro k ordinal versionId heq
        cases heq
        exact ⟨r, step, hr, hstep, hwaits⟩
      · intro x r heq
        cases heq
      · intro k r hwalked
        cases hwalked
      · intro k e heq
        cases heq
    exact ⟨hset.short, hset.versions, hset.rests, hset.waits, hset.poised, hset.failed⟩
  | @loads i run ordinal env versionId doc hold hdoc =>
    obtain ⟨r, step, hr, hstep, hwaits⟩ := h.waits i run ordinal versionId hold
    have hversions := h.versions i _ hold
    apply h.setCall hold
    · intro k hwalked
      cases hwalked
    · exact hversions
    · intro k ordinal versionId heq
      cases heq
    · intro x r' heq hr'
      cases heq
      rw [hr] at hr'
      cases hr'
      refine ⟨Or.inr ⟨ordinal, step, rfl, Nat.zero_le _, hstep, hwaits⟩, ?_⟩
      apply he _ hold r hr
      simp only [hr, Option.map_some, Option.getD_some] at hdoc
      rw [hdoc]
      rfl
    · intro k r' hwalked hr'
      cases hwalked
      rw [hr] at hr'
      cases hr'
      exact h.not_failed hsteady hr (List.mem_of_getElem? hstep) hwaits
    · intro k e heq
      cases heq
  | moves hold hr => exact h.moves hsteady hfresh hold hr (he _ hold _ hr)

theorem start : Orderly {} where
  short k r h := by cases h
  versions i call h := by cases h
  rests k r h := by cases h
  waits i k ordinal versionId h := by cases h
  poised i x r h := by cases h
  failed i run e h := by cases h

end RunbookSystem.Orderly

/-- Where no call crashes and every statement meets what it needs, a run agrees with its steps
whenever no execution of it is in progress, and an error has failed a step and the run. -/
theorem runs_settled {s : RunbookSystem}
    (h : Reached RunbookSystem.step RunbookSystem.Undisturbed {} s) : RunsSettled s := by
  have hall : s.Steady ∧ s.Fresh ∧ s.Orderly := by
    apply h.invariant (I := fun s => s.Steady ∧ s.Fresh ∧ s.Orderly)
    · refine ⟨.start, ?_, .start⟩
      intro i run versionId doc hi
      cases hi
    · rintro s e ⟨hsteady, hfresh, horderly⟩ he
      have hs := s.stepped e
      exact ⟨hsteady.stepped hs, hfresh.stepped hsteady hs,
        horderly.stepped hsteady hfresh he hs⟩
  obtain ⟨hsteady, -, horderly⟩ := hall
  constructor
  · intro run r hr hidle
    exact (horderly.rests run r hr hidle).settled (hsteady.order run r hr)
  · intro i run e hi
    obtain ⟨⟨r, hr, hfailed⟩, hidle⟩ := horderly.failed i run e hi
    have hsettled := (horderly.rests run r hr hidle).settled (hsteady.order run r hr)
    exact ⟨r, hr, hfailed, hsettled.failed.mp hfailed⟩

theorem runs_settled_sales : RunsSettled (approvedRun.foldl RunbookSystem.step {}) ∧
    (approvedRun.foldl RunbookSystem.step {}).runs.map RunbookRun.state = [.done] :=
  ⟨runs_settled (.of_meets (by decide +kernel)), by decide +kernel⟩

/-- A plan that verifies what it has not built. -/
def unbuiltRun : List RunbookEvent :=
  [.apply (salesRunbook [.verify]), .run "sales" none] ++
    List.replicate 5 (.advance 0 (.building "v1"))

/-- The call has returned the error of a verification without a build. -/
def verifiedNothing : RunbookCall → Bool
  | .ended (some 0) (.error (.invalidInput m)) => m == "verify needs a prior buildIndex"
  | _ => false

/-- The run, and its step, are left running by a call that has returned its error. -/
theorem unbuilt_run_left_running : ¬ RunsSettled (unbuiltRun.foldl RunbookSystem.step {}) := by
  intro h
  have hended : ((unbuiltRun.foldl RunbookSystem.step {}).calls[0]?).any verifiedNothing =
      true := by decide +kernel
  have hstates : (unbuiltRun.foldl RunbookSystem.step {}).runs.map RunbookRun.state =
      [.running] := by decide +kernel
  cases hcall : (unbuiltRun.foldl RunbookSystem.step {}).calls[0]? with
  | none =>
    rw [hcall] at hended
    cases hended
  | some call =>
    rw [hcall, Option.any_some] at hended
    unfold verifiedNothing at hended
    split at hended
    · rename_i m
      obtain ⟨r, hr, hfailed, -⟩ := h.failed 0 0 (.invalidInput m) hcall
      have hget := congrArg (fun states => states[0]?) hstates
      simp only [List.getElem?_map, hr, Option.map_some] at hget
      rw [hfailed] at hget
      cases hget
    · cases hended

end Munarium
