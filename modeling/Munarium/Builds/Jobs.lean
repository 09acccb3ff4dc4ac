import Munarium.Core.Types
import Mathlib.Data.List.Sort
import Mathlib.Data.Prod.Lex

/-! Durable build jobs: a queue whose claims are leases. Times are microseconds of the
database's clock. -/
namespace Munarium

inductive JobKind where
  | backfill
  | rebuild
  | direct
  deriving DecidableEq

inductive JobState where
  | pending
  | running
  | succeeded
  | failed
  | cancelled
  deriving DecidableEq

/-- The states that the open-target index ranges over. -/
def JobState.isOpen : JobState → Bool
  | pending | running => true
  | _ => false

inductive JobTarget where
  | scope (scopeKind scopeId : String)
  | version (id : String)
  deriving DecidableEq

structure BuildJob where
  tenantId : String
  jobId : String
  kind : JobKind
  scopeKind : Option String
  scopeId : Option String
  indexVersionId : Option String
  params : Json
  state : JobState
  attemptIds : List String
  correlationId : Option String
  claimedBy : Option String
  claimedAt : Option ℤ
  attempts : ℕ
  result : Option Json
  error : Option String
  requestedBy : String
  createdAt : ℤ

abbrev JobKey := Lex (String × String)

namespace BuildJob

def key (j : BuildJob) : JobKey := toLex (j.tenantId, j.jobId)

/-- The columns of the open-target index. -/
def target (j : BuildJob) : String × JobKind × String × String × String :=
  (j.tenantId, j.kind, j.scopeKind.getD "", j.scopeId.getD "", j.indexVersionId.getD "")

/-- `claimed_at < now() - make_interval(secs => lease)`. A null is no lapse. -/
def lapsed (leaseSecs now : ℤ) (j : BuildJob) : Bool :=
  match j.claimedAt with
  | some t => decide (t < now - leaseSecs * 1000000)
  | none => false

/-- The rows that a claim picks from. -/
def offered (leaseSecs maxAttempts now : ℤ) (j : BuildJob) : Bool :=
  j.state == .pending ||
    (j.state == .running && j.lapsed leaseSecs now && decide ((j.attempts : ℤ) < maxAttempts))

end BuildJob

/-- The arguments of `enqueue`, with the fresh id and the time that the row gets. -/
structure Enqueue where
  tenantId : String
  kind : JobKind
  target : JobTarget
  params : Json
  requestedBy : String
  correlationId : Option String
  jobId : String
  now : ℤ

def Enqueue.row (e : Enqueue) : BuildJob where
  tenantId := e.tenantId
  jobId := e.jobId
  kind := e.kind
  scopeKind := match e.target with
    | .scope scopeKind _ => some scopeKind
    | .version _ => none
  scopeId := match e.target with
    | .scope _ scopeId => some scopeId
    | .version _ => none
  indexVersionId := match e.target with
    | .scope _ _ => none
    | .version id => some id
  params := e.params
  state := .pending
  attemptIds := []
  correlationId := e.correlationId
  claimedBy := none
  claimedAt := none
  attempts := 0
  result := none
  error := none
  requestedBy := e.requestedBy
  createdAt := e.now

inductive EnqueueOutcome where
  | enqueued (jobId : String)
  | alreadyOpen (jobId : String)
  deriving DecidableEq

/-- The job table, by tenant and id. -/
structure JobTable where
  jobs : SortedMap JobKey BuildJob := .empty

namespace JobTable

/-- The open jobs of a row's target, oldest first. -/
def openFor (row : BuildJob) (t : JobTable) : List BuildJob :=
  (t.jobs.values.filter fun j => j.state.isOpen && decide (j.target = row.target)).insertionSort
    fun a b => a.createdAt ≤ b.createdAt

/-- The insert, which the open-target index turns into nothing. -/
def insertJob (e : Enqueue) (t : JobTable) : Result (Option String) × JobTable :=
  if t.openFor e.row ≠ [] then (.ok none, t)
  else if (t.jobs.get? e.row.key).isSome then
    (.error (.storage "duplicate key value violates unique constraint"), t)
  else (.ok (some e.jobId), ⟨t.jobs.insert e.row.key e.row⟩)

/-- The open job that beat an insert, read back later. -/
def readOpen (e : Enqueue) (t : JobTable) : Result EnqueueOutcome :=
  match (t.openFor e.row).head? with
  | some j => .ok (.alreadyOpen j.jobId)
  | none => .error (.storage "job enqueue lost a race with a completing duplicate; retry")

def enqueue (e : Enqueue) (t : JobTable) : Result EnqueueOutcome × JobTable :=
  match t.insertJob e with
  | (.ok (some id), t') => (.ok (.enqueued id), t')
  | (.ok none, t') => (t'.readOpen e, t')
  | (.error error, t') => (.error error, t')

/-- The oldest offered job that no other claim has locked. -/
def nextJob (leaseSecs maxAttempts : ℤ) (locked : List JobKey) (now : ℤ) (t : JobTable) :
    Option BuildJob :=
  ((t.jobs.values.filter fun j => j.offered leaseSecs maxAttempts now &&
    !locked.contains j.key).insertionSort fun a b => a.createdAt ≤ b.createdAt).head?

def claimed (nodeId : String) (now : ℤ) (j : BuildJob) : BuildJob :=
  { j with state := .running, claimedBy := some nodeId, claimedAt := some now,
           attempts := j.attempts + 1 }

def claimAny (nodeId : String) (leaseSecs maxAttempts : ℤ) (locked : List JobKey) (now : ℤ)
    (t : JobTable) : Option BuildJob × JobTable :=
  match t.nextJob leaseSecs maxAttempts locked now with
  | none => (none, t)
  | some j => (some (claimed nodeId now j), ⟨t.jobs.insert j.key (claimed nodeId now j)⟩)

/-- An update of one row under a guard, and whether it met the row. -/
def updateWhere (tenantId jobId : String) (guard : BuildJob → Bool) (f : BuildJob → BuildJob)
    (t : JobTable) : Bool × JobTable :=
  match t.jobs.get? (toLex (tenantId, jobId)) with
  | some j => if guard j then (true, ⟨t.jobs.insert (toLex (tenantId, jobId)) (f j)⟩)
      else (false, t)
  | none => (false, t)

def heldBy (nodeId : String) (j : BuildJob) : Bool :=
  j.state == .running && j.claimedBy == some nodeId

def heartbeat (tenantId jobId nodeId : String) (now : ℤ) : JobTable → Bool × JobTable :=
  updateWhere tenantId jobId (heldBy nodeId) fun j => { j with claimedAt := some now }

def finished (outcome : Except String Json) (attemptId : Option String) (j : BuildJob) :
    BuildJob :=
  { j with
    state := match outcome with
      | .ok _ => .succeeded
      | .error _ => .failed
    result := match outcome with
      | .ok v => some v
      | .error _ => none
    error := match outcome with
      | .ok _ => none
      | .error e => some e
    attemptIds := j.attemptIds ++ attemptId.toList }

def complete (tenantId jobId nodeId : String) (outcome : Except String Json)
    (attemptId : Option String) : JobTable → Bool × JobTable :=
  updateWhere tenantId jobId (heldBy nodeId) (finished outcome attemptId)

def cancel (tenantId jobId : String) : JobTable → Bool × JobTable :=
  updateWhere tenantId jobId (fun j => j.state.isOpen) fun j => { j with state := .cancelled }

end JobTable
end Munarium
