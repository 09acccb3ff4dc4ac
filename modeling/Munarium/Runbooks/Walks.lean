import Munarium.Runbooks.Executor

/-! What a statement of an execution keeps of the run that it walks: its steps are done in order,
and no ordinal is visited twice. -/
namespace Munarium

theorem setRunState_ok {r r' : RunbookRun} {state : RunState} {write : Option KernelError}
    (h : setRunState r state write = .ok r') : r' = { r with state := state } := by
  unfold setRunState at h
  split at h
  · cases h
  · exact (Except.ok.inj h).symm

/-- A checkpoint writes one step, whose name it knows. -/
theorem setStep_ok {r r' : RunbookRun} {versionId : Option String} {ordinal : ℕ} {name : String}
    {state : StepState} {detail : Option Json} {write : Option KernelError}
    (h : setStep r versionId ordinal name state detail write = .ok r') :
    ∃ step, r.steps[ordinal]? = some step ∧ step.name = name ∧
      r' = { r with steps := r.steps.set ordinal (step.write state detail) } := by
  unfold setStep at h
  split_ifs at h
  split at h
  · cases h
  · split at h
    · cases h
    · rename_i step hstep
      split_ifs at h with hname
      exact ⟨step, hstep, hname.1, (Except.ok.inj h).symm⟩

/-- A step that is not done is the last one that was ever touched. -/
def InOrder (steps : List StoredStep) : Prop :=
  ∀ (i j : ℕ) (a b : StoredStep), i < j → steps[i]? = some a → steps[j]? = some b →
    a.state ≠ .done → b.state = .pending ∧ b.detail = none

/-- The steps before an ordinal are done. -/
def DoneBefore (steps : List StoredStep) (ordinal : ℕ) : Prop :=
  ∀ (i : ℕ) (a : StoredStep), i < ordinal → steps[i]? = some a → a.state = .done

/-- What was read of the steps from an ordinal on still stands. -/
def InStep (steps : List StoredStep) (rows : List StepState) (ordinal : ℕ) : Prop :=
  ∀ i, ordinal ≤ i → rows[i]? = (steps[i]?).map StoredStep.state

/-- A unit that is being worked on. -/
structure AtWork (r : RunbookRun) (x : Execution) : Prop where
  before : DoneBefore r.steps x.ordinal
  after : InStep r.steps x.rows (x.ordinal + 1)
  unit : ∃ u step, x.unit? = some u ∧ r.steps[x.ordinal]? = some step ∧ step.name = u.name ∧
    step.state = .running ∧ (u.step.requiresApproval = true → x.approved = some x.ordinal)

/-- How an execution stands to the run that it has locked. -/
def Walks (r : RunbookRun) (x : Execution) : Prop :=
  match x.stage with
  | .marking => True
  | .starting => True
  | .visiting => DoneBefore r.steps x.ordinal ∧ InStep r.steps x.rows x.ordinal
  | .gating => True
  | .working => AtWork r x
  | .checkpointing _ => AtWork r x
  | .failing _ => True

theorem inOrder_set {steps : List StoredStep} {ordinal : ℕ} {step step' : StoredStep}
    (h : InOrder steps) (hbefore : DoneBefore steps ordinal) (hstep : steps[ordinal]? = some step)
    (hopen : step.state ≠ .done) : InOrder (steps.set ordinal step') := by
  intro i j a b hij ha hb hnot
  rcases Positions.getElem?_set_cases ha with ⟨rfl, rfl⟩ | ⟨hi, ha⟩
  · rcases Positions.getElem?_set_cases hb with ⟨rfl, -⟩ | ⟨hj, hb⟩
    · omega
    · exact h i j step b hij hstep hb hopen
  · rcases Positions.getElem?_set_cases hb with ⟨rfl, rfl⟩ | ⟨hj, hb⟩
    · rcases Positions.getElem?_set_cases ha with ⟨heq, -⟩ | ⟨-, ha⟩
      · omega
      · exact absurd (hbefore i a hij ha) hnot
    · exact h i j a b hij ha hb hnot

theorem doneBefore_set {steps : List StoredStep} {ordinal : ℕ} {step : StoredStep}
    (h : DoneBefore steps ordinal) : DoneBefore (steps.set ordinal step) ordinal := by
  intro i a hi ha
  rcases Positions.getElem?_set_cases ha with ⟨rfl, -⟩ | ⟨-, ha⟩
  · omega
  · exact h i a hi ha

theorem doneBefore_succ {steps : List StoredStep} {ordinal : ℕ} {step : StoredStep}
    (h : DoneBefore steps ordinal) (hdone : step.state = .done) :
    DoneBefore (steps.set ordinal step) (ordinal + 1) := by
  intro i a hi ha
  rcases Positions.getElem?_set_cases ha with ⟨rfl, rfl⟩ | ⟨hne, ha⟩
  · exact hdone
  · exact h i a (by omega) ha

theorem inStep_set {steps : List StoredStep} {rows : List StepState} {ordinal : ℕ}
    {step : StoredStep} (h : InStep steps rows ordinal) :
    InStep (steps.set ordinal step) rows (ordinal + 1) := by
  intro i hi
  rw [List.getElem?_set_ne (by omega)]
  exact h i (by omega)

/-- What a statement of an execution keeps of its run. -/
structure KeepsRun (r r' : RunbookRun) : Prop where
  id : r'.id = r.id
  ref : r'.runbookRef = r.runbookRef
  version : r'.versionId = r.versionId
  names : r'.steps.map StoredStep.name = r.steps.map StoredStep.name
  done : ∀ (i : ℕ) (a : StoredStep), r.steps[i]? = some a → a.state = .done → r'.steps[i]? = some a

theorem KeepsRun.refl (r : RunbookRun) : KeepsRun r r := ⟨rfl, rfl, rfl, rfl, fun _ _ h _ => h⟩

theorem keepsRun_state (r : RunbookRun) (state : RunState) :
    KeepsRun r { r with state := state } := ⟨rfl, rfl, rfl, rfl, fun _ _ h _ => h⟩

theorem keepsRun_set {r : RunbookRun} {ordinal : ℕ} {step step' : StoredStep}
    (hstep : r.steps[ordinal]? = some step) (hopen : step.state ≠ .done)
    (hname : step'.name = step.name) :
    KeepsRun r { r with steps := r.steps.set ordinal step' } where
  id := rfl
  ref := rfl
  version := rfl
  names := by
    obtain ⟨hlt, rfl⟩ := List.getElem?_eq_some_iff.mp hstep
    simp only [List.map_set, hname]
    apply List.ext_getElem
    · simp
    · intro i h _
      simp only [List.getElem_set, List.getElem_map]
      split_ifs with heq
      · subst heq
        rfl
      · rfl
  done i a ha hdone := by
    have hne : ordinal ≠ i := by
      rintro rfl
      rw [hstep] at ha
      exact hopen (Option.some.inj ha ▸ hdone)
    simp only [List.getElem?_set_ne hne, ha]

/-- What a statement keeps of the execution that it is of. -/
structure Continues (r : RunbookRun) (x x' : Execution) : Prop where
  run : x'.run = x.run
  version : x'.versionId = x.versionId
  doc : x'.doc = x.doc
  approved : x'.approved = x.approved
  walks : Walks r x'

/-- What a statement of an execution keeps. -/
structure Keeps (r : RunbookRun) (x : Execution) (m : Moved) : Prop where
  run : KeepsRun r m.run
  order : InOrder m.run.steps
  call : (∃ answer, m.call = .ended (some x.run) answer) ∨
    ∃ x', m.call = .executing x' ∧ Continues m.run x x'

section
variable {r r' : RunbookRun} {x : Execution} {call : ℕ} {env : Env}

theorem keeps_end (horder : InOrder r.steps) (answer : Result String) :
    Keeps r x { run := r, call := x.ends answer } :=
  ⟨.refl r, horder, Or.inl ⟨answer, rfl⟩⟩

/-- A write that fails ends the execution, and one that succeeds leads on. -/
theorem keeps_afterWrite {written : Result RunbookRun} {next : RunbookCall}
    (horder : InOrder r.steps)
    (h : ∀ r', written = .ok r' → Keeps r x { run := r', call := next }) :
    Keeps r x (x.afterWrite r written next) := by
  cases hw : written with
  | error e => exact keeps_end horder _
  | ok r' => exact h r' hw

theorem keeps_setRunState {state : RunState} {next : RunbookCall} (horder : InOrder r.steps)
    (hnext : (∃ answer, next = .ended (some x.run) answer) ∨
      ∃ x', next = .executing x' ∧ Continues { r with state := state } x x') :
    Keeps r x (x.afterWrite r (setRunState r state env.write) next) := by
  apply keeps_afterWrite horder
  intro r' hr'
  rw [setRunState_ok hr']
  exact ⟨keepsRun_state r state, horder, hnext⟩

/-- A checkpoint of the step that an execution is at. -/
theorem keeps_setStep {name : String} {state : StepState} {detail : Option Json}
    {next : RunbookCall} (horder : InOrder r.steps) (hbefore : DoneBefore r.steps x.ordinal)
    (hopen : ∀ step, r.steps[x.ordinal]? = some step → step.state ≠ .done)
    (hnext : ∀ step, r.steps[x.ordinal]? = some step → step.name = name →
      (∃ answer, next = .ended (some x.run) answer) ∨ ∃ x', next = .executing x' ∧
        Continues { r with steps := r.steps.set x.ordinal (step.write state detail) } x x') :
    Keeps r x (x.afterWrite r (setStep r x.versionId x.ordinal name state detail env.write)
      next) := by
  apply keeps_afterWrite horder
  intro r' hr'
  obtain ⟨step, hstep, hname, rfl⟩ := setStep_ok hr'
  exact ⟨keepsRun_set hstep (hopen step hstep) rfl,
    inOrder_set horder hbefore hstep (hopen step hstep), hnext step hstep hname⟩

theorem visit_keeps (h : DoneBefore r.steps x.ordinal ∧ InStep r.steps x.rows x.ordinal)
    (hstage : x.stage = .visiting) (horder : InOrder r.steps) : Keeps r x (x.visit env r) := by
  obtain ⟨hbefore, hrows⟩ := h
  have hcurrent : ∀ step, r.steps[x.ordinal]? = some step → step.state = x.current := by
    intro step hstep
    simp [Execution.current, hrows x.ordinal (Nat.le_refl _), hstep]
  unfold Execution.visit
  cases hunit : x.unit? with
  | none => exact keeps_setRunState horder (Or.inl ⟨_, rfl⟩)
  | some u =>
    simp only
    split_ifs with hdone hgate hwait
    · refine ⟨.refl r, horder, Or.inr ⟨_, rfl, rfl, rfl, rfl, rfl, ?_⟩⟩
      simp only [Walks, hstage]
      constructor
      · intro i a hi ha
        by_cases heq : i = x.ordinal
        · subst heq
          rw [hcurrent a ha, hdone]
        · exact hbefore i a (by omega) ha
      · intro i hi
        exact hrows i (by omega)
    · apply keeps_setStep horder hbefore
      · intro step hstep
        rw [hcurrent step hstep]
        exact hdone
      · intro step _ _
        exact Or.inr ⟨_, rfl, rfl, rfl, rfl, rfl, trivial⟩
    · exact keeps_end horder _
    · apply keeps_setStep horder hbefore
      · intro step hstep
        rw [hcurrent step hstep]
        exact hdone
      · intro step hstep hname
        refine Or.inr ⟨_, rfl, rfl, rfl, rfl, rfl, ?_⟩
        refine ⟨doneBefore_set hbefore, inStep_set hrows,
          u, _, hunit, Positions.getElem?_set_some hstep, hname, rfl, ?_⟩
        intro hrequires
        by_contra hnot
        by_cases hwaiting : x.current = .awaitingApproval
        · exact hwait ⟨hwaiting, hnot⟩
        · exact hgate ⟨hrequires, hnot, hwaiting⟩

theorem work_keeps (h : AtWork r x) (horder : InOrder r.steps) : Keeps r x (x.work call env r) := by
  obtain ⟨u, -, hunit, -⟩ := h.unit
  unfold Execution.work
  rw [hunit]
  simp only
  refine ⟨.refl r, horder, ?_⟩
  cases runUnit r.steps x.versionId u env.replies with
  | error e => exact Or.inl ⟨_, rfl⟩
  | ok outcome => exact Or.inr ⟨_, rfl, rfl, rfl, rfl, rfl, h.before, h.after, h.unit⟩

theorem checkpoint_keeps {outcome : Result Json} (h : AtWork r x) (horder : InOrder r.steps) :
    Keeps r x (x.checkpoint env r outcome) := by
  obtain ⟨u, step, hunit, hstep, -, hrunning, -⟩ := h.unit
  have hopen : ∀ step', r.steps[x.ordinal]? = some step' → step'.state ≠ .done := by
    intro step' hstep'
    rw [hstep] at hstep'
    rw [← Option.some.inj hstep', hrunning]
    decide
  unfold Execution.checkpoint
  rw [hunit]
  cases outcome with
  | ok detail =>
    simp only
    split
    · exact keeps_end horder _
    · rename_i r' hr'
      obtain ⟨step', hstep', -, rfl⟩ := setStep_ok hr'
      refine ⟨keepsRun_set hstep' (hopen step' hstep') rfl,
        inOrder_set horder h.before hstep' (hopen step' hstep'), Or.inr ⟨_, rfl, rfl, rfl, rfl,
          rfl, ?_⟩⟩
      refine ⟨doneBefore_succ h.before rfl, ?_⟩
      intro i hi
      have hlt : x.ordinal < i := hi
      rw [List.getElem?_set_ne (by omega)]
      exact h.after i hi
  | error e =>
    apply keeps_setStep horder h.before hopen
    intro step' _ _
    exact Or.inr ⟨_, rfl, rfl, rfl, rfl, rfl, trivial⟩

/-- Every statement of an execution keeps the order of its run's steps. -/
theorem move_keeps (call : ℕ) (env : Env) (h : Walks r x) (horder : InOrder r.steps) :
    Keeps r x (x.move call env r) := by
  unfold Walks at h
  unfold Execution.move
  cases hstage : x.stage with
  | marking =>
    exact keeps_setRunState horder (Or.inr ⟨_, rfl, rfl, rfl, rfl, rfl, trivial⟩)
  | starting =>
    cases env.read with
    | some e => exact keeps_end horder _
    | none =>
      refine ⟨.refl r, horder, Or.inr ⟨_, rfl, rfl, rfl, rfl, rfl, ?_⟩⟩
      refine ⟨fun i a hi _ => absurd hi (Nat.not_lt_zero i), fun i _ => ?_⟩
      rw [List.getElem?_map]
  | visiting =>
    rw [hstage] at h
    exact visit_keeps h hstage horder
  | gating => exact keeps_setRunState horder (Or.inl ⟨_, rfl⟩)
  | working =>
    rw [hstage] at h
    exact work_keeps h horder
  | checkpointing outcome =>
    rw [hstage] at h
    exact checkpoint_keeps h horder
  | failing e => exact keeps_setRunState horder (Or.inl ⟨_, rfl⟩)

/-- The ordinals that an execution has passed. -/
def Execution.Passed (o : ℕ) (x : Execution) : Prop :=
  match x.stage with
  | .marking => False
  | .starting => False
  | .visiting => o < x.ordinal
  | .gating => o < x.ordinal
  | .working => o < x.ordinal
  | .checkpointing _ => o ≤ x.ordinal
  | .failing _ => o ≤ x.ordinal

theorem afterWrite_executing {written : Result RunbookRun} {next : RunbookCall} {x' : Execution}
    (h : (x.afterWrite r written next).call = .executing x') : next = .executing x' := by
  unfold Execution.afterWrite at h
  split at h
  · cases h
  · exact h

/-- An execution never returns to an ordinal. -/
theorem move_passed {o : ℕ} {x' : Execution} (h : (x.move call env r).call = .executing x')
    (hpast : x.Passed o) : x'.Passed o := by
  unfold Execution.Passed at hpast
  unfold Execution.move at h
  cases hstage : x.stage with
  | marking =>
    rw [hstage] at hpast
    cases hpast
  | starting =>
    rw [hstage] at hpast
    cases hpast
  | visiting =>
    rw [hstage] at h hpast
    simp only [Execution.visit] at h
    split at h
    · cases afterWrite_executing h
    · split_ifs at h
      · cases h
        simp only [Execution.Passed, hstage]
        omega
      · cases afterWrite_executing h
        exact hpast
      · cases h
      · cases afterWrite_executing h
        exact hpast
  | gating =>
    rw [hstage] at h
    cases afterWrite_executing h
  | working =>
    rw [hstage] at h hpast
    simp only [Execution.work] at h
    split at h
    · cases h
      simp only [Execution.Passed, hstage]
      exact hpast
    · split at h
      · cases h
      · cases h
        exact Nat.le_of_lt hpast
  | checkpointing outcome =>
    rw [hstage] at h hpast
    simp only [Execution.checkpoint] at h
    split at h
    · cases h
      simp only [Execution.Passed, hstage]
      exact hpast
    · split at h
      · split at h
        · cases h
        · cases h
          exact Nat.lt_succ_of_le hpast
      · cases afterWrite_executing h
        exact hpast
  | failing e =>
    rw [hstage] at h
    cases afterWrite_executing h

/-- A cutover is run by a unit that is worked on, which is passed then. -/
theorem move_cutover {c : CutoverRecord} (h : (x.move call env r).cutover = some c) :
    x.stage = .working ∧ (∃ u, x.unit? = some u ∧ u.step.isCutover = true ∧
      c = ⟨call, x.run, x.ordinal, u, u.target x.doc,
        Execution.activatedBy (runUnit r.steps x.versionId u env.replies)⟩) ∧
      ∀ x', (x.move call env r).call = .executing x' → x'.Passed x.ordinal := by
  have hwrite {written : Result RunbookRun} {next : RunbookCall} :
      (x.afterWrite r written next).cutover = none := by
    unfold Execution.afterWrite
    split <;> rfl
  unfold Execution.move at h ⊢
  cases hstage : x.stage with
  | working =>
    simp only [hstage, Execution.work] at h ⊢
    cases hunit : x.unit? with
    | none =>
      simp only [hunit] at h
      cases h
    | some u =>
      simp only [hunit] at h ⊢
      split_ifs at h with hcutover
      refine ⟨trivial, ⟨u, rfl, hcutover, (Option.some.inj h).symm⟩, ?_⟩
      intro x' hx'
      split at hx'
      · cases hx'
      · cases hx'
        exact Nat.le_refl _
  | marking | gating | failing =>
    simp only [hstage, hwrite] at h
    cases h
  | starting =>
    simp only [hstage] at h
    split at h <;> cases h
  | visiting =>
    simp only [hstage, Execution.visit] at h
    split at h
    · simp only [hwrite] at h
      cases h
    · split_ifs at h
      · simp only [hwrite] at h
        cases h
      · simp only [hwrite] at h
        cases h
  | checkpointing outcome =>
    simp only [hstage, Execution.checkpoint] at h
    split at h
    · cases h
    · split at h
      · split at h <;> cases h
      · simp only [hwrite] at h
        cases h

/-- What a statement writes of its run: its state, or the step that it is at. -/
inductive Execution.Writes (x : Execution) (r : RunbookRun) (m : Moved) : Prop
  | state (state : RunState) (hrun : m.run = { r with state := state })
      (hrecorded : m.recorded = none)
  | step {u : ExecUnit} {step : StoredStep} (state : StepState) (detail : Option Json)
      (hunit : x.unit? = some u) (hstep : r.steps[x.ordinal]? = some step)
      (hname : step.name = u.name)
      (hrun : m.run = { r with steps := r.steps.set x.ordinal (step.write state detail) })
      (hrecorded : detail.bind indexVersion = none ∧ m.recorded = none ∨
        ∃ d, detail = some d ∧ state = .done ∧ m.recorded = x.buildOf u d)

theorem writes_setRunState (x : Execution) (r : RunbookRun) (state : RunState)
    (write : Option KernelError) (next : RunbookCall) :
    x.Writes r (x.afterWrite r (setRunState r state write) next) := by
  cases hw : setRunState r state write with
  | error e => exact .state r.state rfl rfl
  | ok r' => exact .state state (setRunState_ok hw) rfl

theorem writes_setStep (r : RunbookRun) {x : Execution} {u : ExecUnit} (state : StepState)
    {detail : Option Json} (write : Option KernelError) (next : RunbookCall)
    (hunit : x.unit? = some u) (hplain : detail.bind indexVersion = none) :
    x.Writes r
      (x.afterWrite r (setStep r x.versionId x.ordinal u.name state detail write) next) := by
  cases hw : setStep r x.versionId x.ordinal u.name state detail write with
  | error e => exact .state r.state rfl rfl
  | ok r' =>
    obtain ⟨step, hstep, hname, rfl⟩ := setStep_ok hw
    exact .step state detail hunit hstep hname rfl (Or.inl ⟨hplain, rfl⟩)

theorem move_writes (x : Execution) (call : ℕ) (env : Env) (r : RunbookRun) :
    x.Writes r (x.move call env r) := by
  unfold Execution.move
  cases x.stage with
  | marking | gating | failing => exact writes_setRunState x r _ _ _
  | starting => cases env.read <;> exact .state r.state rfl rfl
  | visiting =>
    simp only [Execution.visit]
    cases hunit : x.unit? with
    | none => exact writes_setRunState x r _ _ _
    | some u =>
      simp only
      split_ifs
      · exact .state r.state rfl rfl
      · exact writes_setStep r _ _ _ hunit (Option.bind_none _)
      · exact .state r.state rfl rfl
      · exact writes_setStep r _ _ _ hunit (Option.bind_none _)
  | working =>
    simp only [Execution.work]
    split <;> exact .state r.state rfl rfl
  | checkpointing outcome =>
    simp only [Execution.checkpoint]
    cases hunit : x.unit? with
    | none => exact .state r.state rfl rfl
    | some u =>
      cases outcome with
      | error e =>
        apply writes_setStep r _ _ _ hunit
        have hget : (Json.object [("error", .str e.display)]).get "index_version" = none :=
          Json.get_object_of_not_mem (by simp)
        rw [Option.bind_some, indexVersion, hget, Option.bind_none]
      | ok detail =>
        simp only
        split
        · exact .state r.state rfl rfl
        · rename_i r' hr'
          obtain ⟨step, hstep, hname, rfl⟩ := setStep_ok hr'
          exact .step .done (some detail) hunit hstep hname rfl (Or.inr ⟨detail, rfl, rfl, rfl⟩)

end

end Munarium
