import Munarium.Lib.GuardedRun
import Munarium.Lib.Positions
import Munarium.Runbooks.Plan

/-! The executor of runbooks: calls that interleave at their statements, over the tables of
runbooks, runs and steps. A run's lock is held from its acquisition to the end of the call. -/
namespace Munarium

structure StoredStep where
  name : String
  state : StepState
  detail : Option Json

inductive RunState where
  | running
  | awaitingApproval
  | done
  | failed
  deriving DecidableEq

structure RunbookRun where
  id : String
  runbookRef : String
  versionId : Option String
  state : RunState
  steps : List StoredStep

structure RunbookRow where
  doc : RunbookDoc
  removed : Bool

def laterRow (best : Option RunbookRow) (row : RunbookRow) : Option RunbookRow :=
  match best with
  | none => some row
  | some b => if b.doc.version < row.doc.version then some row else some b

/-- The latest version of a name, or an exact reference. -/
def loadRunbook (rows : List RunbookRow) (nameOrRef : String) : Result RunbookDoc :=
  let matching := rows.filter fun row =>
    (row.doc.runbookRef == nameOrRef || row.doc.name == nameOrRef) && !row.removed
  match matching.foldl laterRow none with
  | none => .error (.notFound "runbook" nameOrRef)
  | some row => .ok row.doc

/-- What is called while a unit runs, and how it answers. -/
structure UnitReplies where
  collection : Result Unit
  sync : Result (String × ℕ × List String)
  sourceCount : Result ℕ
  head : Result ℕ
  detailRead : Result Unit
  built : Result (String × ℕ)
  verified : Result Json
  activated : Result Unit
  retired : Result ℕ
  views : Result Json

/-- The detail of the first step of a name. -/
def stepDetail (steps : List StoredStep) (name : String) : Option Json :=
  (steps.find? fun s => s.name == name).bind StoredStep.detail

/-- The index version that a detail records. -/
def indexVersion (detail : Json) : Option String := (detail.get "index_version").bind Json.asStr

def priorBuild (steps : List StoredStep) (u : ExecUnit) (r : UnitReplies) : Result String :=
  match r.detailRead with
  | .error e => .error e
  | .ok _ =>
      match (stepDetail steps u.buildName).bind indexVersion with
      | some built => .ok built
      | none => .error (.invalidInput (u.step.name ++ " needs a prior buildIndex"))

def watermarkOf (versionId : Option String) (r : UnitReplies) : Result ℕ :=
  match versionId with
  | some _ => r.head
  | none => .ok 0

def builtDetail (built : String × ℕ) : Json :=
  Json.object [("index_version", .str built.1), ("watermark", .int built.2)]

/-- Replies that a collection's unit asks for once it has found the collection. -/
def inCollection {α : Type} (u : ExecUnit) (r : UnitReplies) (reply : Result α) : Result α :=
  match u.collection with
  | none => reply
  | some _ => r.collection.bind fun _ => reply

/-- A unit's outcome, or the error that leaves the executor at once. -/
def runUnit (steps : List StoredStep) (versionId : Option String) (u : ExecUnit)
    (r : UnitReplies) : Result (Result Json) :=
  match u.step with
  | .resolveSources =>
      match u.collection with
      | some _ => .ok (r.sync.map fun (id, count, missing) =>
          Json.object [("collection_id", .str id), ("sources", .int count),
            ("missing_declared_hashes", .arr (missing.map .str))])
      | none => .ok (r.sourceCount.map fun n => Json.object [("sources", .int n)])
  | .buildIndex => (watermarkOf versionId r).map fun _ => (inCollection u r r.built).map builtDetail
  | .verify => (priorBuild steps u r).map fun _ => r.verified
  | .cutover _ => (priorBuild steps u r).map fun built =>
      (inCollection u r r.activated).map fun _ => Json.object [("activated", .str built)]
  | .retireOld _ => .ok ((inCollection u r r.retired).map fun n =>
      Json.object [("retired_chunk_rows", .int n)])
  | .verifyDataViews => .ok r.views

/-- What a step of a call meets outside: the lock's connection, reads, writes, a unit's calls, and
the id that a new run is given. -/
structure Env where
  lock : Option KernelError
  read : Option KernelError
  write : Option KernelError
  replies : UnitReplies
  runId : String

/-- A row's new state, and its new detail where there is one. -/
def StoredStep.write (step : StoredStep) (state : StepState) (detail : Option Json) :
    StoredStep :=
  { step with state := state, detail := detail.or step.detail }

/-- `set_step`. -/
def setStep (r : RunbookRun) (versionId : Option String) (ordinal : ℕ) (name : String)
    (state : StepState) (detail : Option Json) (write : Option KernelError) : Result RunbookRun :=
  if 2 ^ 31 ≤ ordinal then .error (.invalidInput "step ordinal exceeds i32")
  else
    match write with
    | some e => .error e
    | none =>
        match r.steps[ordinal]? with
        | none => .error (.invalidInput "runbook checkpoint identity mismatch")
        | some step =>
            if step.name = name ∧ r.versionId = versionId then
              .ok { r with steps := r.steps.set ordinal (step.write state detail) }
            else .error (.invalidInput "runbook checkpoint identity mismatch")

def setRunState (r : RunbookRun) (state : RunState) (write : Option KernelError) :
    Result RunbookRun :=
  match write with
  | some e => .error e
  | none => .ok { r with state := state }

/-- Where an execution stands between two statements. -/
inductive ExecStage where
  | marking
  | starting
  | visiting
  | gating
  | working
  | checkpointing (outcome : Result Json)
  | failing (e : KernelError)

structure Execution where
  run : ℕ
  versionId : Option String
  doc : RunbookDoc
  approved : Option ℕ
  rows : List StepState
  ordinal : ℕ
  stage : ExecStage

/-- Where a call stands between two statements. -/
inductive RunbookCall where
  | planning (doc : RunbookDoc) (versionId : Option String)
  | locking (run : ℕ) (versionId : Option String) (doc : RunbookDoc)
  | requesting (run ordinal : ℕ) (versionId : Option String)
  | checking (run ordinal : ℕ) (versionId : Option String)
  | loading (run ordinal : ℕ) (versionId : Option String)
  | executing (x : Execution)
  | ended (executed : Option ℕ) (answer : Result String)
  | crashed

/-- A checkpointed build. -/
structure BuildRecord where
  run : ℕ
  ordinal : ℕ
  target : UnitTarget
  version : String
  deriving DecidableEq

/-- A cutover that a call ran. -/
structure CutoverRecord where
  call : ℕ
  run : ℕ
  ordinal : ℕ
  unit : ExecUnit
  target : UnitTarget
  activated : Option String
  deriving DecidableEq

/-- What a statement of an execution leaves. -/
structure Moved where
  run : RunbookRun
  call : RunbookCall
  recorded : Option BuildRecord := none
  cutover : Option CutoverRecord := none

namespace Execution

def unit? (x : Execution) : Option ExecUnit := (execUnits x.doc)[x.ordinal]?

def at_ (x : Execution) (stage : ExecStage) : RunbookCall := .executing { x with stage := stage }

def ends (x : Execution) (answer : Result String) : RunbookCall := .ended (some x.run) answer

/-- A write, and the call after it; the execution ends with the write's error. -/
def afterWrite (x : Execution) (r : RunbookRun) (written : Result RunbookRun)
    (call : RunbookCall) : Moved :=
  match written with
  | .error e => { run := r, call := x.ends (.error e) }
  | .ok r' => { run := r', call := call }

/-- The state of the step that is visited, as it was read when the execution started. -/
def current (x : Execution) : StepState := (x.rows[x.ordinal]?).getD .pending

def visit (x : Execution) (env : Env) (r : RunbookRun) : Moved :=
  match x.unit? with
  | none => x.afterWrite r (setRunState r .done env.write) (x.ends (.ok "done"))
  | some u =>
      if x.current = .done then
        { run := r, call := .executing { x with ordinal := x.ordinal + 1 } }
      else if u.step.requiresApproval ∧ x.approved ≠ some x.ordinal ∧
          x.current ≠ .awaitingApproval then
        x.afterWrite r (setStep r x.versionId x.ordinal u.name .awaitingApproval none env.write)
          (x.at_ .gating)
      else if x.current = .awaitingApproval ∧ x.approved ≠ some x.ordinal then
        { run := r, call := x.ends (.ok "awaiting_approval") }
      else
        x.afterWrite r (setStep r x.versionId x.ordinal u.name .running none env.write)
          (x.at_ .working)

/-- The version that a cutover's outcome says is active. -/
def activatedBy : Result (Result Json) → Option String
  | .ok (.ok detail) => (detail.get "activated").bind Json.asStr
  | _ => none

def work (x : Execution) (call : ℕ) (env : Env) (r : RunbookRun) : Moved :=
  match x.unit? with
  | none => { run := r, call := .executing x }
  | some u =>
      let answer := runUnit r.steps x.versionId u env.replies
      let cutover : CutoverRecord :=
        ⟨call, x.run, x.ordinal, u, u.target x.doc, activatedBy answer⟩
      { run := r
        call :=
          match answer with
          | .error e => x.ends (.error e)
          | .ok outcome => x.at_ (.checkpointing outcome)
        cutover := if u.step.isCutover then some cutover else none }

/-- The build that a unit's detail records. -/
def buildOf (x : Execution) (u : ExecUnit) (detail : Json) : Option BuildRecord :=
  if u.step = .buildIndex then
    (indexVersion detail).map fun v => ⟨x.run, x.ordinal, u.target x.doc, v⟩
  else none

def checkpoint (x : Execution) (env : Env) (r : RunbookRun) (outcome : Result Json) : Moved :=
  match x.unit? with
  | none => { run := r, call := .executing x }
  | some u =>
      match outcome with
      | .ok detail =>
          match setStep r x.versionId x.ordinal u.name .done (some detail) env.write with
          | .error e => { run := r, call := x.ends (.error e) }
          | .ok r' =>
              { run := r'
                call := .executing { x with ordinal := x.ordinal + 1, stage := .visiting }
                recorded := x.buildOf u detail }
      | .error e =>
          x.afterWrite r (setStep r x.versionId x.ordinal u.name .failed
            (some (Json.object [("error", .str e.display)])) env.write) (x.at_ (.failing e))

/-- One statement of an execution. -/
def move (x : Execution) (call : ℕ) (env : Env) (r : RunbookRun) : Moved :=
  match x.stage with
  | .marking => x.afterWrite r (setRunState r .running env.write) (x.at_ .starting)
  | .starting =>
      match env.read with
      | some e => { run := r, call := x.ends (.error e) }
      | none =>
          { run := r
            call := .executing
              { x with rows := r.steps.map StoredStep.state, ordinal := 0, stage := .visiting } }
  | .visiting => x.visit env r
  | .gating =>
      x.afterWrite r (setRunState r .awaitingApproval env.write) (x.ends (.ok "awaiting_approval"))
  | .working => x.work call env r
  | .checkpointing outcome => x.checkpoint env r outcome
  | .failing e => x.afterWrite r (setRunState r .failed env.write) (x.ends (.error e))

end Execution

structure RunbookSystem where
  runbooks : List RunbookRow := []
  runs : List RunbookRun := []
  calls : List RunbookCall := []
  found : List (ℕ × ℕ × ℕ) := []
  recorded : List BuildRecord := []
  cutovers : List CutoverRecord := []

/-- The run that a call holds the lock of. -/
def RunbookCall.lockedRun : RunbookCall → Option ℕ
  | checking run _ _ => some run
  | loading run _ _ => some run
  | executing x => some x.run
  | _ => none

namespace RunbookSystem

def setCall (s : RunbookSystem) (i : ℕ) (call : RunbookCall) : RunbookSystem :=
  { s with calls := s.calls.set i call }

def locked (s : RunbookSystem) (run : ℕ) : Bool :=
  s.calls.any fun call => call.lockedRun == some run

/-- `acquire_run_lock`. -/
def acquireRunLock (s : RunbookSystem) (run : ℕ) (env : Env) : Result Unit :=
  match env.lock with
  | some e => .error e
  | none =>
      if s.locked run then
        let id := ((s.runs[run]?).map RunbookRun.id).getD ""
        .error (.invalidInput ("run-locked: run '" ++ id ++
          "' is already executing on another instance; poll GET /v1/runs/" ++ id ++
          " and retry when it settles"))
      else .ok ()

/-- The row of a run and its steps, all pending. -/
def plannedRun (doc : RunbookDoc) (versionId : Option String) (id : String) : RunbookRun :=
  { id := id
    runbookRef := doc.runbookRef
    versionId := versionId
    state := .running
    steps := (execUnits doc).map fun u => ⟨u.name, .pending, none⟩ }

def plan (s : RunbookSystem) (i : ℕ) (env : Env) (doc : RunbookDoc) (versionId : Option String) :
    RunbookSystem :=
  match env.write with
  | some e => s.setCall i (.ended none (.error e))
  | none =>
      if s.runs.any fun r => r.id == env.runId then
        s.setCall i (.ended none (.error (.storage "duplicate key value")))
      else
        { s.setCall i (.locking s.runs.length versionId doc) with
          runs := s.runs ++ [plannedRun doc versionId env.runId] }

def digits (n : ℕ) : String := String.ofList (Nat.toDigits 10 n)

/-- The check of a step that is approved, under the run's lock. -/
def check (s : RunbookSystem) (i : ℕ) (env : Env) (run ordinal : ℕ) (versionId : Option String) :
    RunbookSystem :=
  match env.read with
  | some e => s.setCall i (.ended none (.error e))
  | none =>
      match ((s.runs[run]?).bind fun r => r.steps[ordinal]?).map StoredStep.state with
      | none => s.setCall i (.ended none (.error (.notFound "step" (digits ordinal))))
      | some state =>
          if state = .awaitingApproval then
            { s.setCall i (.loading run ordinal versionId) with
              found := s.found ++ [(i, run, ordinal)] }
          else s.setCall i (.ended none (.error (.invalidInput ("step " ++ digits ordinal ++
            " is '" ++ state.asStr ++ "', not awaiting_approval"))))

def load (s : RunbookSystem) (i : ℕ) (env : Env) (run ordinal : ℕ) (versionId : Option String) :
    RunbookSystem :=
  match env.read with
  | some e => s.setCall i (.ended none (.error e))
  | none =>
      match loadRunbook s.runbooks (((s.runs[run]?).map RunbookRun.runbookRef).getD "") with
      | .error e => s.setCall i (.ended none (.error e))
      | .ok doc =>
          s.setCall i (.executing ⟨run, versionId, doc, some ordinal, [], 0, .marking⟩)

def moved (s : RunbookSystem) (i run : ℕ) (m : Moved) : RunbookSystem :=
  { s with
    runs := s.runs.set run m.run
    calls := s.calls.set i m.call
    recorded := s.recorded ++ m.recorded.toList
    cutovers := s.cutovers ++ m.cutover.toList }

/-- The next statement of a call. -/
def advance (s : RunbookSystem) (i : ℕ) (env : Env) : RunbookSystem :=
  match s.calls[i]? with
  | some (.planning doc versionId) => s.plan i env doc versionId
  | some (.locking run versionId doc) =>
      match s.acquireRunLock run env with
      | .error e => s.setCall i (.ended none (.error e))
      | .ok _ => s.setCall i (.executing ⟨run, versionId, doc, none, [], 0, .starting⟩)
  | some (.requesting run ordinal versionId) =>
      match s.acquireRunLock run env with
      | .error e => s.setCall i (.ended none (.error e))
      | .ok _ => s.setCall i (.checking run ordinal versionId)
  | some (.checking run ordinal versionId) => s.check i env run ordinal versionId
  | some (.loading run ordinal versionId) => s.load i env run ordinal versionId
  | some (.executing x) =>
      match s.runs[x.run]? with
      | none => s
      | some r => s.moved i x.run (x.move i env r)
  | some (.ended _ _) => s
  | some .crashed => s
  | none => s

/-- The upsert of a runbook's row. A removed reference stays removed. -/
def applyRunbook (s : RunbookSystem) (doc : RunbookDoc) : RunbookSystem :=
  if doc.refused.isSome then s
  else
    match s.runbooks.findIdx? fun row => row.doc.runbookRef == doc.runbookRef with
    | none => { s with runbooks := s.runbooks ++ [⟨doc, false⟩] }
    | some k =>
        if ((s.runbooks[k]?).map RunbookRow.removed).getD false then s
        else { s with runbooks := s.runbooks.set k ⟨doc, false⟩ }

/-- A removal that is confirmed. -/
def removeRunbook (s : RunbookSystem) (runbookRef : String) : RunbookSystem :=
  { s with runbooks := s.runbooks.map fun row =>
      if row.doc.runbookRef = runbookRef then { row with removed := true } else row }

def startRun (s : RunbookSystem) (nameOrRef : String) (versionId : Option String) :
    RunbookSystem :=
  match loadRunbook s.runbooks nameOrRef with
  | .error e => { s with calls := s.calls ++ [.ended none (.error e)] }
  | .ok doc => { s with calls := s.calls ++ [.planning doc versionId] }

def startApproval (s : RunbookSystem) (runId : String) (ordinal : ℕ) : RunbookSystem :=
  if 2 ^ 31 ≤ ordinal then
    { s with calls := s.calls ++
        [.ended none (.error (.invalidInput "step ordinal exceeds signed-32 range"))] }
  else
    match s.runs.findIdx? fun r => r.id == runId with
    | none => { s with calls := s.calls ++ [.ended none (.error (.notFound "run" runId))] }
    | some run =>
        { s with calls := s.calls ++
            [.requesting run ordinal ((s.runs[run]?).bind RunbookRun.versionId)] }

end RunbookSystem

inductive RunbookEvent where
  | apply (doc : RunbookDoc)
  | remove (runbookRef : String)
  | run (nameOrRef : String) (versionId : Option String)
  | approve (runId : String) (ordinal : ℕ)
  | advance (call : ℕ) (env : Env)
  | crash (call : ℕ)

/-- A process that dies drops its connection, and with it the lock. -/
def RunbookSystem.step (s : RunbookSystem) : RunbookEvent → RunbookSystem
  | .apply doc => s.applyRunbook doc
  | .remove runbookRef => s.removeRunbook runbookRef
  | .run nameOrRef versionId => s.startRun nameOrRef versionId
  | .approve runId ordinal => s.startApproval runId ordinal
  | .advance call env => s.advance call env
  | .crash call => s.setCall call .crashed

/-- A world in which every call succeeds, and a build answers with a version. -/
def Env.building (version : String) : Env where
  lock := none
  read := none
  write := none
  replies :=
    { collection := .ok ()
      sync := .ok ("sales", 1, [])
      sourceCount := .ok 1
      head := .ok 0
      detailRead := .ok ()
      built := .ok (version, 0)
      verified := .ok .null
      activated := .ok ()
      retired := .ok 0
      views := .ok .null }
  runId := "run-1"

def salesRunbook (steps : List StepSpec) : RunbookDoc where
  name := "sales"
  version := 1
  shape := some "invoice@1"
  collections := []
  order := .stepMajor
  steps := steps

/-- A run that stops at its cutover, and the call that approves it. -/
def approvedRun : List RunbookEvent :=
  [.apply (salesRunbook [.buildIndex, .cutover (some "required")]), .run "sales" none] ++
    List.replicate 8 (.advance 0 (.building "v1")) ++ [.approve "run-1" 1] ++
    List.replicate 10 (.advance 1 (.building "v2"))

end Munarium
