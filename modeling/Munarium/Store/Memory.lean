import Mathlib.Data.List.Sort
import Mathlib.Logic.Function.Basic
import Munarium.Core.Governance
import Munarium.Core.Promises
import Munarium.Lib.Forest

/-! The in-memory store: its state, its reads and its writes. One write lock spans each
operation, so an operation is one atomic step. -/
namespace Munarium

/-- The store's supply of identities, each drawn once. -/
class IdGenerator where
  next : ℕ → String
  unique : Function.Injective next

theorem unary_injective : Function.Injective fun n : ℕ => String.ofList (List.replicate n 'x') := by
  intro i j h
  have hlen := congrArg (fun t => t.toList.length) h
  simpa using hlen

/-- Identities in unary. -/
abbrev unaryIds : IdGenerator where
  next n := String.ofList (List.replicate n 'x')
  unique := unary_injective

structure NewClaim where
  claimType : ClaimType
  subject : String
  key : String
  value : String
  scopePath : Option String := none
  status : ClaimStatus := .accepted
  provenance : Provenance := .witnessed
  supersedesId : Option String := none
  entityId : Option String := none
  evidence : Option Json := none
  confidence : Option ℚ := none
  shapeRef : Option String := none
  origin : Option ClaimOrigin := none

def NewClaim.fact (subject key value : String) : NewClaim where
  claimType := .fact
  subject := subject
  key := key
  value := value

structure CounterRow where
  key : String
  scopePath : String
  count : ℕ
  budget : Option ℕ
  seq : ℕ
  deriving DecidableEq

structure StoredFinding where
  seq : ℕ
  finding : GateFinding

structure State where
  /-- Each version's parent. -/
  versions : String → Option (Option String) := fun _ => none
  versionMeta : String → Option Json := fun _ => none
  claims : String → List Claim := fun _ => []
  anchors : String → List Anchor := fun _ => []
  promises : String → List Promise := fun _ => []
  counters : String → List CounterRow := fun _ => []
  findings : String → List StoredFinding := fun _ => []
  /-- How many identities were drawn. -/
  issued : ℕ := 0

namespace State

section Reads
variable [Platform] (s : State)

def unknownVersion (v : String) : KernelError := .notFound "version" v

def verifyMetadata (v : String) : Result Unit := do
  let _ ← GovernancePolicy.fromStoredMetadata (s.versionMeta v)
  .ok ()

/-- Root to leaf. No path is longer than the identities drawn. -/
def lineageOf (v : String) : Result (List String) :=
  (Forest.walk s.versions s.verifyMetadata unknownVersion
    (.storage "lineage does not end") (s.issued + 1) v).map List.reverse

def lineageClaims (v : String) : Result (List Claim) := do
  let lineage ← s.lineageOf v
  .ok (lineage.flatMap s.claims)

omit [Platform] in
/-- Every stamp a version's rows carry. -/
def stamps (v : String) : List ℕ :=
  (s.claims v).map (·.seq) ++ (s.anchors v).map (·.seq) ++
    (s.promises v).flatMap (fun p => [p.seq, p.fulfilledSeq.getD 0]) ++
    (s.counters v).map (·.seq)

/-- The greatest stamp in the lineage: the clock every write advances. -/
def headOf (v : String) : Result ℕ := do
  let lineage ← s.lineageOf v
  .ok ((lineage.flatMap s.stamps).foldl max 0)

def sliceFacts (v : String) (q : FactQuery) : Result (List Claim) := do
  let claims ← s.lineageClaims v
  .ok (resolveSlice claims q)

end Reads

def pinAdmits (asOfSeq : Option ℕ) (seq : ℕ) : Bool :=
  match asOfSeq with
  | some pin => decide (seq ≤ pin)
  | none => true

/-- Locked rows within the pin; a later row of a detail key replaces an earlier one. -/
def anchorView (asOfSeq : Option ℕ) (rows : List Anchor) : SortedMap String Anchor :=
  (rows.filter fun a => a.status == .locked && pinAdmits asOfSeq a.seq).foldl
    (fun out a => out.insert a.detailKey a) .empty

def promiseView (asOfSeq : Option ℕ) (p : Promise) : Promise :=
  let status := statusAsOf p asOfSeq
  { p with status := status,
           fulfilledSeq := if status = .opened then none else p.fulfilledSeq }

def sortPromises (promises : List Promise) : List Promise :=
  promises.insertionSort fun a b => a.seq < b.seq ∨ (a.seq = b.seq ∧ a.key ≤ b.key)

def maxU64 : ℕ := 2 ^ 64 - 1

/-- Totals by key with a checked sum; the budget is the greatest one recorded. -/
def addCount (totals : SortedMap String (ℕ × Option ℕ)) (row : CounterRow) :
    Result (SortedMap String (ℕ × Option ℕ)) :=
  let entry := (totals.get? row.key).getD (0, none)
  if entry.1 + row.count > maxU64 then .error (.storage "counter total exceeds u64")
  else
    let budget := match entry.2, row.budget with
      | some a, some b => some (max a b)
      | a, b => a.or b
    .ok (totals.insert row.key (entry.1 + row.count, budget))

def totalCounts (asOfSeq : Option ℕ) (rows : List CounterRow) : Result (List CounterTotal) := do
  let totals ← (rows.filter fun r => pinAdmits asOfSeq r.seq).foldlM addCount .empty
  .ok (totals.entries.map fun e => { key := e.1, total := e.2.1, budget := e.2.2 })

section Views
variable [Platform] (s : State)

def anchorsAt (v : String) (asOfSeq : Option ℕ) : Result (SortedMap String Anchor) := do
  let lineage ← s.lineageOf v
  .ok (anchorView asOfSeq (lineage.flatMap s.anchors))

def promisesAt (v : String) (asOfSeq : Option ℕ) : Result (List Promise) := do
  let lineage ← s.lineageOf v
  .ok (sortPromises (((lineage.flatMap s.promises).filter fun p => pinAdmits asOfSeq p.seq).map
    (promiseView asOfSeq)))

def counterTotals (v : String) (asOfSeq : Option ℕ) : Result (List CounterTotal) := do
  let lineage ← s.lineageOf v
  totalCounts asOfSeq (lineage.flatMap s.counters)

omit [Platform] in
def versionMetadata (v : String) : Result (Option Json) :=
  match s.versions v with
  | none => .error (unknownVersion v)
  | some _ => .ok (s.versionMeta v)

/-- The point-in-time view the gates read: one pin bounds every store. -/
def loadSnapshot (v : String) (scopePrefix : Option String) (factLimit : Option ℕ)
    (asOfSeq : Option ℕ) : Result MeshSnapshot := do
  let facts ← s.sliceFacts v { scopePrefix := scopePrefix, asOfSeq := asOfSeq, limit := factLimit }
  let anchors ← s.anchorsAt v asOfSeq
  let promises ← s.promisesAt v asOfSeq
  let counters ← s.counterTotals v asOfSeq
  .ok { versionId := v, facts := facts, anchors := anchors, promises := promises,
        counters := counters, asOfSeq := asOfSeq }

end Views

section Writes
variable [IdGenerator]

/-- A new claim as it is stored: version, stamp and identity are the store's. -/
def storedClaim (v : String) (seq : ℕ) (n : ℕ) (c : NewClaim) : Claim where
  id := "claim-" ++ IdGenerator.next n
  versionId := v
  seq := seq
  claimType := c.claimType
  subject := c.subject
  key := c.key
  value := c.value
  scopePath := c.scopePath
  status := c.status
  provenance := c.provenance
  supersedesId := c.supersedesId
  entityId := c.entityId
  evidence := c.evidence
  confidence := c.confidence
  shapeRef := c.shapeRef
  origin := c.origin

/-- Consecutive stamps and identities for a batch. -/
def stampClaims (v : String) : ℕ → ℕ → List NewClaim → List Claim
  | _, _, [] => []
  | seq, n, c :: rest => storedClaim v seq n c :: stampClaims v (seq + 1) (n + 1) rest

variable [Platform] (s : State)

omit [IdGenerator] in
def checkHead (expectedHead : Option ℕ) (head : ℕ) : Result Unit :=
  match expectedHead with
  | some expected => if expected ≠ head then .error (.headConflict expected head) else .ok ()
  | none => .ok ()

omit [IdGenerator] [Platform] in
/-- Every superseded id must exist in the lineage before the batch. -/
def checkSupersedes (existing : List Claim) : List NewClaim → Result Unit
  | [] => .ok ()
  | c :: rest =>
      match c.supersedesId with
      | some sup =>
          if (existing.map (·.id)).contains sup then checkSupersedes existing rest
          else .error (.notFound "claim" sup)
      | none => checkSupersedes existing rest

/-- All claims land or none does; findings are stamped with the last claim. -/
def appendBatch (v : String) (claims : List NewClaim) (expectedHead : Option ℕ)
    (findings : List GateFinding) : Result (List Claim × State) :=
  if claims.isEmpty then .ok ([], s)
  else do
    let head ← s.headOf v
    checkHead expectedHead head
    let existing ← s.lineageClaims v
    checkSupersedes existing claims
    let stored := stampClaims v (head + 1) s.issued claims
    let recorded := findings.map fun f => { seq := head + claims.length, finding := f }
    .ok (stored, { s with
      claims := Function.update s.claims v (s.claims v ++ stored)
      findings := Function.update s.findings v (s.findings v ++ recorded)
      issued := s.issued + claims.length })

def appendClaim (v : String) (claim : NewClaim) (expectedHead : Option ℕ) :
    Result (Claim × State) := do
  let head ← s.headOf v
  checkHead expectedHead head
  let existing ← s.lineageClaims v
  checkSupersedes existing [claim]
  let stored := storedClaim v (head + 1) s.issued claim
  .ok (stored, { s with
    claims := Function.update s.claims v (s.claims v ++ [stored])
    issued := s.issued + 1 })

def appendClaims (v : String) (claims : List NewClaim) (expectedHead : Option ℕ) :
    Result (List Claim × State) := s.appendBatch v claims expectedHead []

def appendEvaluatedClaims (v : String) (claims : List NewClaim) (expectedHead : ℕ)
    (findings : List GateFinding) : Result (List Claim × State) :=
  s.appendBatch v claims (some expectedHead) findings

def lockAnchor (v subject key value : String) (scopePath : Option String)
    (evidence : Option Json) : Result (Anchor × State) := do
  let head ← s.headOf v
  let anchor : Anchor := {
    id := "anchor-" ++ IdGenerator.next s.issued
    versionId := v
    detailKey := claimKeyOf subject key
    lockedValue := value
    lockedAtScope := scopePath
    status := .locked
    seq := head + 1
    evidence := evidence }
  .ok (anchor, { s with
    anchors := Function.update s.anchors v (s.anchors v ++ [anchor])
    issued := s.issued + 1 })

def registerPromise (v key kind description : String) (originScope dueScope : Option String) :
    Result (Promise × State) := do
  let head ← s.headOf v
  let promise : Promise := {
    id := "prom-" ++ IdGenerator.next s.issued
    versionId := v
    key := key
    kind := kind
    description := description
    originScope := originScope
    dueScope := dueScope
    status := .opened
    seq := head + 1
    fulfilledSeq := none }
  .ok (promise, { s with
    promises := Function.update s.promises v (s.promises v ++ [promise])
    issued := s.issued + 1 })

omit [IdGenerator] [Platform] in
def isOpenPromise (key : String) (p : Promise) : Bool := p.key == key && p.status == .opened

omit [IdGenerator] [Platform] in
/-- The first open promise of the key is fulfilled in place. -/
def fulfillFirst (key : String) (seq : ℕ) : List Promise → List Promise
  | [] => []
  | p :: rest =>
      if isOpenPromise key p then
        { p with status := .fulfilled, fulfilledSeq := some seq } :: rest
      else p :: fulfillFirst key seq rest

omit [IdGenerator] in
/-- The fulfilment is stamped by the clock of the version it comes through and lands on
the row of the first version, from the root, that has an open promise of the key. -/
def fulfillPromise (v key : String) : Result (Bool × State) := do
  let head ← s.headOf v
  let lineage ← s.lineageOf v
  match lineage.find? fun w => (s.promises w).any (isOpenPromise key) with
  | some w => .ok (true, { s with
      promises := Function.update s.promises w (fulfillFirst key (head + 1) (s.promises w)) })
  | none => .ok (false, s)

omit [IdGenerator] [Platform] in
def isCounterRow (key scopePath : String) (r : CounterRow) : Bool :=
  r.key == key && r.scopePath == scopePath

omit [IdGenerator] [Platform] in
/-- The row of the key and scope is overwritten in place, its budget kept when the new
count brings none; a first count adds a row. -/
def recordRow (key scopePath : String) (count : ℕ) (budget : Option ℕ) (seq : ℕ) :
    List CounterRow → List CounterRow
  | [] => [{ key := key, scopePath := scopePath, count := count, budget := budget, seq := seq }]
  | r :: rest =>
      if isCounterRow key scopePath r then
        { r with count := count, seq := seq, budget := budget.or r.budget } :: rest
      else r :: recordRow key scopePath count budget seq rest

omit [IdGenerator] in
def recordCounts (v key scopePath : String) (count : ℕ) (budget : Option ℕ) :
    Result (Unit × State) := do
  let head ← s.headOf v
  .ok ((), { s with
    counters := Function.update s.counters v
      (recordRow key scopePath count budget (head + 1) (s.counters v)) })

omit [IdGenerator] in
def recordFindings (v : String) (seq : ℕ) (findings : List GateFinding) :
    Result (Unit × State) := do
  let _ ← s.lineageOf v
  .ok ((), { s with
    findings := Function.update s.findings v
      (s.findings v ++ findings.map fun f => { seq := seq, finding := f }) })

variable [Unicode]

omit [IdGenerator] in
/-- What a policy change is assessed against; facts and anchors only when it is one. -/
def parentSnapshot (p : String) (assess : Bool) : Result MeshSnapshot := do
  let head ← s.headOf p
  if assess then do
    let lineage ← s.lineageOf p
    .ok { versionId := p
          facts := resolveSlice (lineage.flatMap s.claims) {}
          anchors := (lineage.flatMap s.anchors).foldl
            (fun out a => out.insert a.detailKey a) .empty
          asOfSeq := some head }
  else .ok { versionId := p, asOfSeq := some head }

omit [IdGenerator] in
def snapshotOfParent (assess : Bool) : Option String → Result (Option MeshSnapshot)
  | none => .ok none
  | some p =>
      match s.versions p with
      | none => .error (unknownVersion p)
      | some _ => (s.parentSnapshot p assess).map some

def createVersion (parentId : Option String) (metadata : Option Json) :
    Result (String × State) := do
  let assess := (metadata.bind (·.get "governance_transition")).isSome
  let parent ← s.snapshotOfParent assess parentId
  let metadata ← prepareVersionMetadata metadata (parentId.bind s.versionMeta) parent
  let id := "memv-" ++ IdGenerator.next s.issued
  let recorded := (policyFinding id metadata).toList.map fun f =>
    { seq := (parent.bind (·.asOfSeq)).getD 0, finding := f }
  .ok (id, { s with
    versions := Function.update s.versions id (some parentId)
    versionMeta := Function.update s.versionMeta id metadata
    findings := Function.update s.findings id (s.findings id ++ recorded)
    issued := s.issued + 1 })

end Writes
end State
end Munarium
