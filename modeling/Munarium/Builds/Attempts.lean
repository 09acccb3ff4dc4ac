import Munarium.Core.Types
import Munarium.Lib.StableSort

/-! The build attempts on one plan of one version. An attempt's id is its place in the table. A
`running` attempt is alone, by the table's partial unique index; a lease says how long an owner
is taken to be at work. -/
namespace Munarium
open StableSort

inductive AttemptState where
  | running
  | sealed
  | succeeded
  | converged
  | failed
  | cancelled
  | expired
  deriving DecidableEq

def AttemptState.isTerminal : AttemptState → Bool
  | running | sealed => false
  | _ => true

structure Attempt where
  state : AttemptState
  ownerNodeId : String
  leaseExpiresAt : ℕ
  artifactId : Option String := none
  sealedAt : Option ℕ := none
  deriving DecidableEq

/-- An attempt as a query returns it, with its lease judged by the query's clock. -/
structure AttemptRow where
  attemptId : ℕ
  state : AttemptState
  ownerNodeId : String
  artifactId : Option String
  leaseExpired : Bool
  deriving DecidableEq

abbrev Attempts := List Attempt

namespace Attempts

/-- `lease_expires_at <= now()`. -/
def leaseExpired (now : ℕ) (a : Attempt) : Bool := decide (a.leaseExpiresAt ≤ now)

def toRow (now : ℕ) (t : ℕ) (a : Attempt) : AttemptRow :=
  ⟨t, a.state, a.ownerNodeId, a.artifactId, leaseExpired now a⟩

def get (now : ℕ) (t : ℕ) (ts : Attempts) : Option AttemptRow := ts[t]?.map (toRow now t)

def expireOne (now : ℕ) (a : Attempt) : Attempt :=
  if a.state = .running ∧ leaseExpired now a then { a with state := .expired } else a

def expireStale (now : ℕ) (ts : Attempts) : Attempts := ts.map (expireOne now)

/-- A row that `claim` inserts. -/
def started (owner : String) (leaseSecs now : ℕ) : Attempt where
  state := .running
  ownerNodeId := owner
  leaseExpiresAt := now + leaseSecs

/-- The insert of `claim`, which the index refuses while an attempt runs. -/
def insertRunning (owner : String) (leaseSecs now : ℕ) (ts : Attempts) : Option (ℕ × Attempts) :=
  if ts.any (fun a => a.state = .running) then none
  else some (ts.length, ts ++ [started owner leaseSecs now])

def holder (ts : Attempts) : Option String :=
  (ts.find? fun a => a.state = .running).map Attempt.ownerNodeId

/-- Whether the attempt was the owner's to extend says whether there is a result. -/
def heartbeat (t : ℕ) (owner : String) (leaseSecs now : ℕ) (ts : Attempts) : Option Attempts :=
  match ts[t]? with
  | some a =>
      if a.ownerNodeId = owner ∧ a.state.isTerminal = false then
        some (ts.set t { a with leaseExpiresAt := now + leaseSecs })
      else none
  | none => none

def moved (next : AttemptState) (artifactId : Option String) (now : ℕ) (a : Attempt) : Attempt :=
  { a with
    state := next
    artifactId := artifactId.or a.artifactId
    sealedAt := if next = .sealed then some now else a.sealedAt }

/-- Only an attempt that is not over moves. -/
def transition (t : ℕ) (next : AttemptState) (artifactId : Option String) (now : ℕ)
    (ts : Attempts) : Option Attempts :=
  match ts[t]? with
  | some a => if a.state.isTerminal then none else some (ts.set t (moved next artifactId now a))
  | none => none

/-- The `sealed` attempts by the time they were sealed at. -/
def sealedAwaitingPublication (now : ℕ) (ts : Attempts) : List AttemptRow :=
  (sortBy (fun x y => compare (x.1.sealedAt.getD 0) (y.1.sealedAt.getD 0))
    (ts.zipIdx.filter fun x => x.1.state = .sealed)).map fun x => toRow now x.2 x.1

def sealedForPlan (now : ℕ) (ts : Attempts) : Option AttemptRow :=
  (ts.sealedAwaitingPublication now).find? fun r => !r.leaseExpired

end Attempts

inductive SealedVerdict where
  | resume
  | notOurs (ownerNodeId : String)
  | abandon (reason : String)
  deriving DecidableEq

/-- What a node makes of a `sealed` attempt that it has listed. -/
def reconcileSealed (r : AttemptRow) (thisNodeId : String) (stagingDirPresent : Bool) :
    SealedVerdict :=
  if r.ownerNodeId ≠ thisNodeId then
    if r.leaseExpired then .abandon "publication_abandoned" else .notOurs r.ownerNodeId
  else if r.leaseExpired then .abandon "publication_abandoned"
  else if !stagingDirPresent then .abandon "staging_lost"
  else .resume

namespace Attempts
variable {ts ts' : Attempts} {t : ℕ} {now leaseSecs : ℕ} {owner : String}

theorem insertRunning_ok (h : ts.insertRunning owner leaseSecs now = some (t, ts')) :
    (∀ a ∈ ts, a.state ≠ .running) ∧ t = ts.length ∧
      ts' = ts ++ [started owner leaseSecs now] := by
  simp only [insertRunning] at h
  split at h
  · cases h
  · rename_i hnone
    cases h
    refine ⟨fun a ha hrunning => hnone ?_, rfl, rfl⟩
    exact List.any_eq_true.mpr ⟨a, ha, by simpa using hrunning⟩

theorem heartbeat_ok (h : ts.heartbeat t owner leaseSecs now = some ts') :
    ∃ a, ts[t]? = some a ∧ a.ownerNodeId = owner ∧ a.state.isTerminal = false ∧
      ts' = ts.set t { a with leaseExpiresAt := now + leaseSecs } := by
  simp only [heartbeat] at h
  split at h
  · rename_i a ha
    split_ifs at h with howner
    cases h
    exact ⟨a, ha, howner.1, howner.2, rfl⟩
  · cases h

theorem transition_ok {next : AttemptState} {artifactId : Option String}
    (h : ts.transition t next artifactId now = some ts') :
    ∃ a, ts[t]? = some a ∧ a.state.isTerminal = false ∧
      ts' = ts.set t (moved next artifactId now a) := by
  simp only [transition] at h
  split at h
  · rename_i a ha
    split_ifs at h with hterminal
    cases h
    exact ⟨a, ha, by simpa using hterminal, rfl⟩
  · cases h

theorem getElem?_expireStale :
    (ts.expireStale now)[t]? = ts[t]?.map (expireOne now) := by
  simp [expireStale]

@[simp] theorem expireOne_owner (a : Attempt) :
    (expireOne now a).ownerNodeId = a.ownerNodeId := by
  simp only [expireOne]
  split <;> rfl

@[simp] theorem expireOne_artifactId (a : Attempt) :
    (expireOne now a).artifactId = a.artifactId := by
  simp only [expireOne]
  split <;> rfl

@[simp] theorem expireOne_lease (a : Attempt) :
    (expireOne now a).leaseExpiresAt = a.leaseExpiresAt := by
  simp only [expireOne]
  split <;> rfl

/-- Only a `running` attempt expires, and only with its lease. -/
theorem expireOne_eq_or (now : ℕ) (a : Attempt) :
    expireOne now a = a ∨
      a.state = .running ∧ a.leaseExpiresAt ≤ now ∧ (expireOne now a).state = .expired := by
  simp only [expireOne]
  split_ifs with h
  · exact .inr ⟨h.1, by simpa [leaseExpired] using h.2, rfl⟩
  · exact .inl rfl

theorem mem_sealedAwaitingPublication {r : AttemptRow} :
    r ∈ ts.sealedAwaitingPublication now ↔
      ∃ a, ts[r.attemptId]? = some a ∧ a.state = .sealed ∧ r = toRow now r.attemptId a := by
  simp only [sealedAwaitingPublication, List.mem_map, mem_sortBy, List.mem_filter,
    decide_eq_true_eq, Prod.exists, List.mem_zipIdx_iff_getElem?]
  constructor
  · rintro ⟨a, i, ⟨ha, hsealed⟩, rfl⟩
    exact ⟨a, ha, hsealed, rfl⟩
  · rintro ⟨a, ha, hsealed, hr⟩
    exact ⟨a, r.attemptId, ⟨ha, hsealed⟩, hr.symm⟩

theorem sealedForPlan_eq_none (h : ts.sealedForPlan now = none) {a : Attempt}
    (ha : ts[t]? = some a) (hsealed : a.state = .sealed) : a.leaseExpiresAt ≤ now := by
  simp only [sealedForPlan, List.find?_eq_none] at h
  have hmem := mem_sealedAwaitingPublication.mpr
    (show ∃ b, ts[(toRow now t a).attemptId]? = some b ∧ b.state = .sealed ∧
      toRow now t a = toRow now (toRow now t a).attemptId b from ⟨a, ha, hsealed, rfl⟩)
  simpa [toRow, leaseExpired] using h _ hmem

end Attempts
end Munarium
