import Mathlib.Data.List.NodupEquivFin
import Munarium.Runbooks.ExecutorRuns

/-! Cutovers over whole runs: each is run under its own approval, and activates what the nearest
build before it recorded. -/
namespace Munarium

/-- The last position of a name before an ordinal. -/
def Nearest (names : List String) (ordinal : ℕ) (name : String) (j : ℕ) : Prop :=
  j < ordinal ∧ names[j]? = some name ∧ ∀ k, j < k → k < ordinal → names[k]? ≠ some name

/-- Cutovers happen only under their own approval and activate what their run built. -/
structure CutoversApproved (s : RunbookSystem) : Prop where
  approved : ∀ c ∈ s.cutovers, c.unit.step.requiresApproval = true →
    (c.call, c.run, c.ordinal) ∈ s.found
  once : (s.cutovers.map fun c => (c.call, c.ordinal)).Nodup
  built : ∀ c ∈ s.cutovers, ∀ v, c.activated = some v → ∃ r j, s.runs[c.run]? = some r ∧
    Nearest (r.steps.map StoredStep.name) c.ordinal c.unit.buildName j ∧
    ⟨c.run, j, c.target, v⟩ ∈ s.recorded

/-- A plan builds at most once before a cutover of the same collection. -/
def SingleBuilds (units : List ExecUnit) : Prop :=
  ∀ p ∈ units.zipIdx, p.1.step.isCutover = true →
    ((units.take p.2).map ExecUnit.name).count p.1.buildName ≤ 1

instance (units : List ExecUnit) : Decidable (SingleBuilds units) :=
  inferInstanceAs (Decidable (∀ p ∈ units.zipIdx, _ → _))

/-- A build's target, where it is a shape, is the document's. -/
def UnitTarget.Of (doc : RunbookDoc) : UnitTarget → Prop
  | .collection _ => True
  | .shape shapeRef => shapeRef = doc.shape.getD ""

instance (doc : RunbookDoc) : (t : UnitTarget) → Decidable (t.Of doc)
  | .collection _ => inferInstanceAs (Decidable True)
  | .shape shapeRef => inferInstanceAs (Decidable (shapeRef = doc.shape.getD ""))

/-- The reference that an approval loads a run's document by. -/
def RunbookSystem.refOf (s : RunbookSystem) (run : ℕ) : String :=
  ((s.runs[run]?).map RunbookRun.runbookRef).getD ""

/-- The document that a call is about to load has the shape that its run's builds are of. -/
def RunbookSystem.LoadsShape (s : RunbookSystem) : RunbookCall → Prop
  | .loading run _ _ => ∀ doc ∈ (loadRunbook s.runbooks (s.refOf run)).toOption,
      ∀ b ∈ s.recorded, b.run = run → b.target.Of doc
  | _ => True

instance (s : RunbookSystem) : (call : RunbookCall) → Decidable (s.LoadsShape call)
  | .loading run _ _ => inferInstanceAs
      (Decidable (∀ doc ∈ (loadRunbook s.runbooks (s.refOf run)).toOption, ∀ b ∈ s.recorded,
        b.run = run → b.target.Of doc))
  | .planning _ _ | .locking _ _ _ | .requesting _ _ _ | .checking _ _ _ | .executing _
  | .ended _ _ | .crashed => .isTrue trivial

/-- Runs are started from plans that build once before a cutover, and an approval loads the shape
that its run has built. -/
def RunbookSystem.BuildsOnce (s : RunbookSystem) : RunbookEvent → Prop
  | .run nameOrRef _ => ∀ doc ∈ (loadRunbook s.runbooks nameOrRef).toOption,
      SingleBuilds (execUnits doc)
  | .advance i _ => ∀ call ∈ s.calls[i]?, s.LoadsShape call
  | _ => True

instance (s : RunbookSystem) : (e : RunbookEvent) → Decidable (s.BuildsOnce e)
  | .run nameOrRef _ => inferInstanceAs
      (Decidable (∀ doc ∈ (loadRunbook s.runbooks nameOrRef).toOption,
        SingleBuilds (execUnits doc)))
  | .advance i _ => inferInstanceAs (Decidable (∀ call ∈ s.calls[i]?, s.LoadsShape call))
  | .apply _ | .remove _ | .approve _ _ | .crash _ => .isTrue trivial

theorem nearest_of_count {names : List String} {name : String} {ordinal j : ℕ}
    (hlt : j < ordinal) (hj : names[j]? = some name)
    (hcount : (names.take ordinal).count name ≤ 1) : Nearest names ordinal name j := by
  refine ⟨hlt, hj, ?_⟩
  intro k hjk hk hname
  have htake {i : ℕ} (hi : i < ordinal) (h : names[i]? = some name) :
      ∃ hlen : i < (names.take ordinal).length, (names.take ordinal)[i] = name := by
    rw [← List.getElem?_take_of_lt hi] at h
    exact List.getElem?_eq_some_iff.mp h
  obtain ⟨hlenj, hnamej⟩ := htake hlt hj
  obtain ⟨hlenk, hnamek⟩ := htake hk hname
  have htwice : (names.take ordinal).Duplicate name :=
    List.duplicate_iff_exists_distinct_get.mpr
      ⟨⟨j, hlenj⟩, ⟨k, hlenk⟩, hjk, hnamej.symm, hnamek.symm⟩
  have htwo := List.duplicate_iff_two_le_count.mp htwice
  omega

/-- What a plan's names say of its cutovers, whichever document they come from. -/
def SingleNames (names : List String) : Prop :=
  ∀ (ordinal : ℕ) (c : Option String), names[ordinal]? = some (unitName "cutover" c) →
    (names.take ordinal).count (unitName "buildIndex" c) ≤ 1

theorem ExecUnit.step_of_name {u : ExecUnit} {c : Option String} (hu : u.Named) (step : StepSpec)
    (h : u.name = unitName step.name c) : u.step.name = step.name ∧ u.collectionName = c :=
  unitName_inj u.step.name_plain step.name_plain (hu.symm.trans h)

theorem StepSpec.isCutover_name {step : StepSpec} :
    step.isCutover = true ↔ step.name = "cutover" := by
  cases step <;> simp [StepSpec.isCutover, StepSpec.name]

theorem StepSpec.buildIndex_name {step : StepSpec} :
    step = .buildIndex ↔ step.name = "buildIndex" := by
  cases step <;> simp [StepSpec.name]

theorem singleNames_execUnits {doc : RunbookDoc} (h : SingleBuilds (execUnits doc)) :
    SingleNames ((execUnits doc).map ExecUnit.name) := by
  intro ordinal c hname
  rw [List.getElem?_map] at hname
  obtain ⟨u, hu, hname⟩ := Option.map_eq_some_iff.mp hname
  have hnamed := execUnits_named (List.mem_of_getElem? hu)
  obtain ⟨hstep, rfl⟩ := ExecUnit.step_of_name hnamed (.cutover none) hname
  have hcount := h (u, ordinal) (List.mem_zipIdx_iff_getElem?.mpr hu)
    (StepSpec.isCutover_name.mpr hstep)
  rwa [List.map_take] at hcount

/-- The kind of target that a unit of a collection, or of none, has. -/
def UnitTarget.Names (t : UnitTarget) : Option String → Prop
  | some name => t = .collection name
  | none => ∃ shapeRef, t = .shape shapeRef

theorem ExecUnit.target_names (doc : RunbookDoc) (u : ExecUnit) :
    (u.target doc).Names u.collectionName := by
  cases hc : u.collection with
  | none => simp [ExecUnit.target, ExecUnit.collectionName, hc, UnitTarget.Names]
  | some col => simp [ExecUnit.target, ExecUnit.collectionName, hc, UnitTarget.Names]

theorem ExecUnit.target_of (doc : RunbookDoc) (u : ExecUnit) : (u.target doc).Of doc := by
  cases hc : u.collection with
  | none => simp [ExecUnit.target, hc, UnitTarget.Of]
  | some col => simp [ExecUnit.target, hc, UnitTarget.Of]

theorem ExecUnit.eq_target {doc : RunbookDoc} {u : ExecUnit} {t : UnitTarget}
    (hnames : t.Names u.collectionName) (hof : t.Of doc) : t = u.target doc := by
  cases hc : u.collection with
  | none =>
    simp only [ExecUnit.collectionName, hc] at hnames
    obtain ⟨shapeRef, rfl⟩ := hnames
    simp only [ExecUnit.target, hc]
    exact congrArg _ hof
  | some col =>
    simp only [ExecUnit.collectionName, hc] at hnames
    simp only [ExecUnit.target, hc]
    exact hnames

/-- A cutover that activates a version has read it from a step of the build's name. -/
theorem activated_prior {steps : List StoredStep} {versionId : Option String} {u : ExecUnit}
    {replies : UnitReplies} {v : String} (hcutover : u.step.isCutover = true)
    (h : Execution.activatedBy (runUnit steps versionId u replies) = some v) :
    (stepDetail steps u.buildName).bind indexVersion = some v := by
  cases hstep : u.step with
  | cutover approval =>
    simp only [runUnit, hstep, priorBuild] at h
    cases hread : replies.detailRead with
    | error e =>
      simp only [hread, Except.map, Execution.activatedBy] at h
      cases h
    | ok =>
      cases hprior : (stepDetail steps u.buildName).bind indexVersion with
      | none =>
        simp only [hread, hprior, Except.map, Execution.activatedBy] at h
        cases h
      | some built =>
        simp only [hread, hprior, Except.map] at h
        cases hreply : inCollection u replies replies.activated with
        | error e =>
          simp only [hreply, Execution.activatedBy] at h
          cases h
        | ok =>
          have hget : (Json.object [("activated", .str built)]).get "activated" =
              some (.str built) := Json.get_object_head (by simp)
          simp only [hreply, Execution.activatedBy, hget, Option.bind_some, Json.asStr_str] at h
          exact h
  | resolveSources | buildIndex | verify | verifyDataViews | retireOld =>
    rw [hstep] at hcutover
    cases hcutover

theorem stepDetail_some {steps : List StoredStep} {name : String} {detail : Json}
    (h : stepDetail steps name = some detail) :
    ∃ (j : ℕ) (step : StoredStep), steps[j]? = some step ∧ step.name = name ∧
      step.detail = some detail := by
  obtain ⟨step, hfind, hdetail⟩ := Option.bind_eq_some_iff.mp h
  obtain ⟨j, hj⟩ := List.mem_iff_getElem?.mp (List.mem_of_find?_eq_some hfind)
  have hname := List.find?_some hfind
  exact ⟨j, step, hj, eq_of_beq hname, hdetail⟩

/-- What is kept of the builds of every run, so that each cutover finds its own. -/
structure RunbookSystem.Built (s : RunbookSystem) : Prop where
  planning : ∀ (i : ℕ) (doc : RunbookDoc) (versionId : Option String),
    s.calls[i]? = some (.planning doc versionId) → SingleBuilds (execUnits doc)
  single : ∀ (k : ℕ) (r : RunbookRun), s.runs[k]? = some r →
    SingleNames (r.steps.map StoredStep.name)
  builds : ∀ (k : ℕ) (r : RunbookRun) (j : ℕ) (step : StoredStep) (v : String),
    s.runs[k]? = some r → r.steps[j]? = some step → step.detail.bind indexVersion = some v →
    ∀ c, step.name = unitName "buildIndex" c → ∃ t, ⟨k, j, t, v⟩ ∈ s.recorded ∧ t.Names c
  recorded : ∀ b ∈ s.recorded, ∃ (r : RunbookRun) (step : StoredStep),
    s.runs[b.run]? = some r ∧ r.steps[b.ordinal]? = some step ∧ step.state = .done
  shapes : ∀ (i : ℕ) (x : Execution), s.calls[i]? = some (.executing x) →
    ∀ b ∈ s.recorded, b.run = x.run → b.target.Of x.doc
  activated : ∀ c ∈ s.cutovers, ∀ v, c.activated = some v → ∃ r j, s.runs[c.run]? = some r ∧
    Nearest (r.steps.map StoredStep.name) c.ordinal c.unit.buildName j ∧
    ⟨c.run, j, c.target, v⟩ ∈ s.recorded

namespace RunbookSystem.Built
variable {s s' : RunbookSystem} {i : ℕ} {call : RunbookCall}

/-- What a cutover activates is the build nearest before it. -/
theorem cutover_built (h : s.Built) (hsteady : s.Steady) (env : Env) {x : Execution}
    {r : RunbookRun} (hold : s.calls[i]? = some (.executing x)) (hr : s.runs[x.run]? = some r)
    {c : CutoverRecord} (hc : (x.move i env r).cutover = some c) {v : String}
    (hv : c.activated = some v) :
    c.run = x.run ∧ ∃ j, Nearest (r.steps.map StoredStep.name) c.ordinal c.unit.buildName j ∧
      ⟨c.run, j, c.target, v⟩ ∈ s.recorded := by
  obtain ⟨hstage, ⟨u, hunit, hcutover, rfl⟩, -⟩ := move_cutover hc
  have hwork := hsteady.walks i x r hold hr
  simp only [Walks, hstage] at hwork
  obtain ⟨u', current, hunit', hcurrent, hname, hrunning, -⟩ := hwork.unit
  rw [hunit] at hunit'
  cases hunit'
  have hnamed : u.Named := execUnits_named (List.mem_of_getElem? hunit)
  have hcutoverName : u.step.name = "cutover" := StepSpec.isCutover_name.mp hcutover
  obtain ⟨detail, hdetail, hversion⟩ := Option.bind_eq_some_iff.mp (activated_prior hcutover hv)
  obtain ⟨j, built, hj, hbuilt, hread⟩ := stepDetail_some hdetail
  have hopen : current.state ≠ .done := by
    rw [hrunning]
    decide
  have hbefore : j < x.ordinal := by
    rcases Nat.lt_trichotomy j x.ordinal with hlt | rfl | hgt
    · exact hlt
    · rw [hcurrent] at hj
      cases hj
      have hsame := (ExecUnit.step_of_name hnamed .buildIndex
        (hname.symm.trans hbuilt)).1
      rw [hcutoverName] at hsame
      exact absurd hsame (by decide)
    · have hlater := hsteady.order x.run r hr x.ordinal j current built hgt hcurrent hj hopen
      rw [hlater.2] at hread
      cases hread
  obtain ⟨t, hrecorded, ht⟩ := h.builds x.run r j built v hr hj
    (by rw [hread, Option.bind_some, hversion]) u.collectionName hbuilt
  have htarget := ExecUnit.eq_target ht (h.shapes i x hold _ hrecorded rfl)
  refine ⟨rfl, j, ?_, htarget ▸ hrecorded⟩
  apply nearest_of_count hbefore
  · rw [List.getElem?_map, hj, Option.map_some, hbuilt, ExecUnit.buildName]
  · apply h.single x.run r hr
    rw [List.getElem?_map, hcurrent, Option.map_some, hname, hnamed, hcutoverName]

theorem buildOf_some {x : Execution} {u : ExecUnit} {detail : Json} {b : BuildRecord}
    (h : x.buildOf u detail = some b) :
    b.run = x.run ∧ b.ordinal = x.ordinal ∧ b.target = u.target x.doc := by
  unfold Execution.buildOf at h
  split_ifs at h
  obtain ⟨v, -, rfl⟩ := Option.map_eq_some_iff.mp h
  exact ⟨rfl, rfl, rfl⟩

/-- What a statement records is of a step that it leaves done. -/
theorem recorded_done {x : Execution} {r : RunbookRun} {m : Moved} {b : BuildRecord}
    (hwrites : x.Writes r m) (hb : m.recorded = some b) :
    (b.run = x.run ∧ b.target.Of x.doc) ∧
      ∃ step, m.run.steps[b.ordinal]? = some step ∧ step.state = .done := by
  cases hwrites with
  | state _ _ hrecorded =>
    rw [hrecorded] at hb
    cases hb
  | @step u step _ detail _ hstep _ hrun hrecorded =>
    rcases hrecorded with ⟨-, hnone⟩ | ⟨d, -, rfl, hsome⟩
    · rw [hnone] at hb
      cases hb
    · rw [hsome] at hb
      obtain ⟨hbrun, hordinal, htarget⟩ := buildOf_some hb
      refine ⟨⟨hbrun, htarget ▸ u.target_of x.doc⟩, step.write .done detail, ?_, rfl⟩
      rw [hrun, hordinal]
      exact Positions.getElem?_set_some hstep

/-- A step that holds a version after a statement held it before, or is the build that the
statement records. -/
theorem builds_moved {x : Execution} {r : RunbookRun} {m : Moved} {j : ℕ} {step : StoredStep}
    {v : String} {c : Option String} (hwrites : x.Writes r m)
    (hbuilds : ∀ (j : ℕ) (step : StoredStep), r.steps[j]? = some step →
      step.detail.bind indexVersion = some v → step.name = unitName "buildIndex" c →
      ∃ t, ⟨x.run, j, t, v⟩ ∈ s.recorded ∧ t.Names c)
    (hj : m.run.steps[j]? = some step) (hv : step.detail.bind indexVersion = some v)
    (hname : step.name = unitName "buildIndex" c) :
    ∃ t, ⟨x.run, j, t, v⟩ ∈ s.recorded ++ m.recorded.toList ∧ t.Names c := by
  have hold (j : ℕ) (step : StoredStep) (hj : r.steps[j]? = some step)
      (hv : step.detail.bind indexVersion = some v) (hname : step.name = unitName "buildIndex" c) :
      ∃ t, ⟨x.run, j, t, v⟩ ∈ s.recorded ++ m.recorded.toList ∧ t.Names c := by
    obtain ⟨t, ht, hnames⟩ := hbuilds j step hj hv hname
    exact ⟨t, List.mem_append_left _ ht, hnames⟩
  cases hwrites with
  | state _ hrun => exact hold j step (by rwa [hrun] at hj) hv hname
  | @step u before state detail hunit hbefore hbname hrun hrecorded =>
    rw [hrun] at hj
    rcases Positions.getElem?_set_cases hj with ⟨rfl, rfl⟩ | ⟨-, hother⟩
    · cases detail with
      | none => exact hold _ before hbefore hv hname
      | some d =>
        have hversion : indexVersion d = some v := hv
        rcases hrecorded with ⟨hplain, -⟩ | ⟨d', heq, -, hsome⟩
        · rw [Option.bind_some, hversion] at hplain
          cases hplain
        · cases heq
          have hnamed : u.Named := execUnits_named (List.mem_of_getElem? hunit)
          obtain ⟨hstep, rfl⟩ := ExecUnit.step_of_name hnamed .buildIndex
            (hbname.symm.trans hname)
          refine ⟨u.target x.doc, List.mem_append_right _ ?_, u.target_names x.doc⟩
          rw [hsome, Execution.buildOf, if_pos (StepSpec.buildIndex_name.mpr hstep), hversion]
          exact List.mem_cons_self
    · exact hold j step hother hv hname

theorem moves (h : s.Built) (hsteady : s.Steady) (env : Env) {x : Execution} {r : RunbookRun}
    (hold : s.calls[i]? = some (.executing x)) (hr : s.runs[x.run]? = some r) :
    (s.moved i x.run (x.move i env r)).Built := by
  have hkeeps := move_keeps i env (hsteady.walks i x r hold hr) (hsteady.order x.run r hr)
  have hwrites := move_writes x i env r
  constructor
  · intro j doc versionId hj
    rcases Positions.getElem?_set_cases hj with ⟨-, heq⟩ | ⟨-, hother⟩
    · rcases hkeeps.call with ⟨answer, hcall⟩ | ⟨x', hcall, -⟩
      · rw [hcall] at heq
        cases heq
      · rw [hcall] at heq
        cases heq
    · exact h.planning j doc versionId hother
  · apply Positions.forall_set h.single
    rw [hkeeps.run.names]
    exact h.single x.run r hr
  · intro k r' j step v hk hj hv c hname
    rcases Positions.getElem?_set_cases hk with ⟨rfl, rfl⟩ | ⟨-, hother⟩
    · exact builds_moved hwrites (fun j step hj hv hname =>
        h.builds x.run r j step v hr hj hv c hname) hj hv hname
    · obtain ⟨t, ht, hnames⟩ := h.builds k r' j step v hother hj hv c hname
      exact ⟨t, List.mem_append_left _ ht, hnames⟩
  · intro b hb
    rcases List.mem_append.mp hb with hb | hb
    · obtain ⟨r₀, step, hr₀, hstep, hdone⟩ := h.recorded b hb
      obtain ⟨r₁, hr₁, hkept⟩ := runs_moved hr hkeeps.run hr₀
      exact ⟨r₁, step, hr₁, hkept.done b.ordinal step hstep hdone, hdone⟩
    · obtain ⟨⟨hrun, -⟩, step, hstep, hdone⟩ := recorded_done hwrites (Option.mem_toList.mp hb)
      exact ⟨_, step, by rw [hrun]; exact Positions.getElem?_set_some hr, hstep, hdone⟩
  · intro j y hj b hb hbrun
    rcases Positions.getElem?_set_cases hj with ⟨-, heq⟩ | ⟨hne, hother⟩
    · rcases hkeeps.call with ⟨answer, hcall⟩ | ⟨x', hcall, hcont⟩
      · rw [hcall] at heq
        cases heq
      · rw [hcall] at heq
        cases heq
        rw [hcont.doc]
        rcases List.mem_append.mp hb with hb | hb
        · exact h.shapes i x hold b hb (hbrun.trans hcont.run)
        · exact (recorded_done hwrites (Option.mem_toList.mp hb)).1.2
    · rcases List.mem_append.mp hb with hb | hb
      · exact h.shapes j y hother b hb hbrun
      · have hrun := (recorded_done hwrites (Option.mem_toList.mp hb)).1.1
        rw [hrun] at hbrun
        exact absurd (hsteady.locks j i _ _ x.run hother hold (congrArg some hbrun.symm) rfl) hne
  · intro c hc v hv
    rcases List.mem_append.mp hc with hc | hc
    · obtain ⟨r₀, j, hr₀, hnear, hb⟩ := h.activated c hc v hv
      obtain ⟨r₁, hr₁, hkept⟩ := runs_moved hr hkeeps.run hr₀
      exact ⟨r₁, j, hr₁, by rwa [hkept.names], List.mem_append_left _ hb⟩
    · obtain ⟨hrun, j, hnear, hb⟩ :=
        h.cutover_built hsteady env hold hr (Option.mem_toList.mp hc) hv
      refine ⟨_, j, by rw [hrun]; exact Positions.getElem?_set_some hr, ?_,
        List.mem_append_left _ hb⟩
      rwa [hkeeps.run.names]

/-- A call that neither plans nor executes. -/
theorem setCall (h : s.Built) (hplanning : ∀ doc versionId, call ≠ .planning doc versionId)
    (hshapes : ∀ x, call = .executing x → ∀ b ∈ s.recorded, b.run = x.run → b.target.Of x.doc) :
    (s.setCall i call).Built where
  planning j doc versionId hj := by
    rcases Positions.getElem?_set_cases hj with ⟨-, heq⟩ | ⟨-, hother⟩
    · exact absurd heq.symm (hplanning doc versionId)
    · exact h.planning j doc versionId hother
  single := h.single
  builds := h.builds
  recorded := h.recorded
  shapes j x hj := by
    rcases Positions.getElem?_set_cases hj with ⟨-, heq⟩ | ⟨-, hother⟩
    · exact hshapes x heq.symm
    · exact h.shapes j x hother
  activated := h.activated

theorem starts (h : s.Built)
    (hplanning : ∀ doc versionId, call = .planning doc versionId → SingleBuilds (execUnits doc))
    (hquiet : ∀ x, call ≠ .executing x) : Built { s with calls := s.calls ++ [call] } where
  planning j doc versionId hj := by
    rcases Positions.getElem?_append_cases hj with ⟨-, hj⟩ | ⟨-, heq⟩
    · exact h.planning j doc versionId hj
    · exact hplanning doc versionId heq.symm
  single := h.single
  builds := h.builds
  recorded := h.recorded
  shapes j x hj := by
    rcases Positions.getElem?_append_cases hj with ⟨-, hj⟩ | ⟨-, heq⟩
    · exact h.shapes j x hj
    · exact absurd heq.symm (hquiet x)
  activated := h.activated

theorem grows (h : s.Built) {doc : RunbookDoc} (hsingle : SingleBuilds (execUnits doc))
    (versionId : Option String) (id : String) :
    Built { s with runs := s.runs ++ [plannedRun doc versionId id] } := by
  have hnames : (plannedRun doc versionId id).steps.map StoredStep.name =
      (execUnits doc).map ExecUnit.name := by
    simp only [plannedRun, List.map_map]
    rfl
  have hkept {k : ℕ} {r : RunbookRun} (hr : s.runs[k]? = some r) :
      (s.runs ++ [plannedRun doc versionId id])[k]? = some r := by
    rw [List.getElem?_append_left (List.getElem?_eq_some_iff.mp hr).1, hr]
  constructor
  · exact h.planning
  · apply Positions.forall_append h.single
    rw [hnames]
    exact singleNames_execUnits hsingle
  · intro k r j step v hk hj hv
    rcases Positions.getElem?_append_cases hk with ⟨-, hk⟩ | ⟨-, rfl⟩
    · exact h.builds k r j step v hk hj hv
    · simp only [plannedRun, List.getElem?_map] at hj
      obtain ⟨u, -, rfl⟩ := Option.map_eq_some_iff.mp hj
      cases hv
  · intro b hb
    obtain ⟨r, step, hr, hstep, hdone⟩ := h.recorded b hb
    exact ⟨r, step, hkept hr, hstep, hdone⟩
  · exact h.shapes
  · intro c hc v hv
    obtain ⟨r, j, hr, hnear, hb⟩ := h.activated c hc v hv
    exact ⟨r, j, hkept hr, hnear, hb⟩

theorem stepped {e : RunbookEvent} (h : s.Built) (hsteady : s.Steady) (hfresh : s.Fresh)
    (he : s.BuildsOnce e) (hs : s.Stepped e s') : s'.Built := by
  cases hs with
  | stays => exact h
  | applies | removes =>
    exact ⟨h.planning, h.single, h.builds, h.recorded, h.shapes, h.activated⟩
  | refuses | approves =>
    apply h.starts
    · intro doc versionId heq
      cases heq
    · intro x heq
      cases heq
  | @asks nameOrRef _ doc hdoc =>
    apply h.starts
    · intro doc' versionId heq
      cases heq
      apply he
      rw [hdoc]
      rfl
    · intro x heq
      cases heq
  | dies | ends | enters =>
    apply h.setCall
    · intro doc versionId heq
      cases heq
    · intro x heq
      cases heq
  | plans hold =>
    apply (h.grows (h.planning _ _ _ hold) _ _).setCall
    · intro doc versionId heq
      cases heq
    · intro x heq
      cases heq
  | locks hold =>
    apply h.setCall
    · intro doc versionId heq
      cases heq
    · intro x heq b hb hrun
      cases heq
      obtain ⟨⟨id, hplanned⟩, -⟩ := hfresh _ _ _ _ hold
      obtain ⟨r, step, hr, hstep, hdone⟩ := h.recorded b hb
      rw [hrun, hplanned] at hr
      cases hr
      simp only [plannedRun, List.getElem?_map] at hstep
      obtain ⟨u, -, rfl⟩ := Option.map_eq_some_iff.mp hstep
      cases hdone
  | @finds i run ordinal _ versionId _ _ hold =>
    have hset : (s.setCall i (.loading run ordinal versionId)).Built := by
      apply h.setCall
      · intro doc versionId heq
        cases heq
      · intro x heq
        cases heq
    exact ⟨hset.planning, hset.single, hset.builds, hset.recorded, hset.shapes, hset.activated⟩
  | loads hold hdoc =>
    apply h.setCall
    · intro doc versionId heq
      cases heq
    · intro x heq
      cases heq
      have hloads := he _ hold
      apply hloads
      rw [RunbookSystem.refOf, hdoc]
      rfl
  | moves hold hr => exact h.moves hsteady _ hold hr

theorem start : Built {} where
  planning i doc versionId h := by cases h
  single k r h := by cases h
  builds k r j step v h := by cases h
  recorded b h := by cases h
  shapes i x h := by cases h
  activated c h := by cases h

end RunbookSystem.Built

/-- Where every plan builds once before a cutover and no approval loads another shape than its run
has built, cutovers are approved and activate what their run built, whatever the interleaving. -/
theorem cutovers_approved {s : RunbookSystem}
    (h : Reached RunbookSystem.step RunbookSystem.BuildsOnce {} s) : CutoversApproved s := by
  have hall : s.Steady ∧ s.Fresh ∧ s.Built := by
    apply h.invariant (I := fun s => s.Steady ∧ s.Fresh ∧ s.Built)
    · refine ⟨.start, ?_, .start⟩
      intro i run versionId doc hi
      cases hi
    · rintro s e ⟨hsteady, hfresh, hbuilt⟩ he
      have hs := s.stepped e
      exact ⟨hsteady.stepped hs, hfresh.stepped hsteady hs, hbuilt.stepped hsteady hfresh he hs⟩
  obtain ⟨hsteady, -, hbuilt⟩ := hall
  exact ⟨hsteady.gates, hsteady.once, hbuilt.activated⟩

theorem cutovers_approved_sales :
    CutoversApproved (approvedRun.foldl RunbookSystem.step {}) ∧
      (approvedRun.foldl RunbookSystem.step {}).cutovers =
        [⟨1, 0, 1, runbookUnit (.cutover (some "required")), .shape "invoice@1", some "v1"⟩] :=
  ⟨cutovers_approved (.of_meets (by decide +kernel)), by decide +kernel⟩

/-- A plan that builds and cuts over twice. -/
def rebuiltRun : List RunbookEvent :=
  [.apply (salesRunbook [.buildIndex, .cutover none, .buildIndex, .cutover none]),
    .run "sales" none] ++
    List.replicate 6 (.advance 0 (.building "v1")) ++
    List.replicate 9 (.advance 0 (.building "v2"))

/-- The second cutover activates the first build again. -/
theorem second_cutover_stale : ¬ CutoversApproved (rebuiltRun.foldl RunbookSystem.step {}) := by
  intro h
  have hcutover : ⟨0, 0, 3, runbookUnit (.cutover none), .shape "invoice@1", some "v1"⟩ ∈
      (rebuiltRun.foldl RunbookSystem.step {}).cutovers := by decide +kernel
  have hrecorded : (rebuiltRun.foldl RunbookSystem.step {}).recorded =
      [⟨0, 0, .shape "invoice@1", "v1"⟩, ⟨0, 2, .shape "invoice@1", "v2"⟩] := by decide +kernel
  have hnames : (rebuiltRun.foldl RunbookSystem.step {}).runs.map
      (fun r => r.steps.map StoredStep.name) =
        [["buildIndex", "cutover", "buildIndex", "cutover"]] := by decide +kernel
  obtain ⟨r, j, hr, hnear, hb⟩ := h.built _ hcutover "v1" rfl
  have hsteps : r.steps.map StoredStep.name =
      ["buildIndex", "cutover", "buildIndex", "cutover"] := by
    have hget := congrArg (fun names => names[0]?) hnames
    simp only [List.getElem?_map, hr, Option.map_some] at hget
    exact Option.some.inj hget
  rw [hrecorded] at hb
  have hfirst : j = 0 := by simpa using hb
  subst hfirst
  rw [hsteps] at hnear
  exact hnear.2.2 2 (by decide) (by decide) rfl

end Munarium
