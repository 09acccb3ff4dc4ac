import Mathlib.Data.Prod.Lex
import Munarium.Lib.StableSort
import Munarium.Std.Like
import Munarium.Store.FindingReads
import Munarium.Store.Run

/-! The Postgres store: its tables with their rows in the order in which they joined, and its
operations, each one transaction under the lock of its lineage. `ORDER BY` is a stable sort, and
an identity is drawn where the in-memory store draws it. -/
namespace Munarium

/-- The database's order of texts, by the key each of them sorts under. -/
class Collation where
  sortKey : String → List ℕ

def pgBigint (value : ℕ) (field : String) : Result ℕ :=
  if value < 2 ^ 63 then .ok value
  else .error (.storage (field ++ " exceeds PostgreSQL BIGINT"))

def nextSeq (head : ℕ) : Result ℕ := do
  let head ← pgBigint head "seq"
  pgBigint (head + 1) "seq"

/-- A pin above every storable stamp admits every stamp. -/
def pgPin (pin : Option ℕ) : Option ℕ := pin.map fun value => min value (2 ^ 63 - 1)

def FindingsQuery.selects (q : FindingsQuery) (f : StoredFinding) : Bool :=
  State.pinAdmits (pgPin q.asOfSeq) f.seq &&
    q.severity.all (fun severity => f.finding.severity.text == severity.text) &&
    q.ruleId.all (fun r => f.finding.ruleId == r) &&
    q.rulePrefix.all fun p =>
      likeMatch (escapeLike p.toList ++ ['%']) f.finding.ruleId.toList

structure VersionRow where
  id : String
  parentId : Option String
  metadata : Option Json

structure PgState where
  versions : List VersionRow := []
  claims : List Claim := []
  anchors : List Anchor := []
  promises : List Promise := []
  counters : List (String × CounterRow) := []
  findings : List (String × StoredFinding) := []
  issued : ℕ := 0

namespace PgState

section Reads
variable (s : PgState)

def version (v : String) : Option VersionRow := s.versions.find? (·.id == v)

def metadataOf (v : String) : Option Json := (s.version v).bind (·.metadata)

/-- The recursive walk to the root. No path is longer than the identities drawn. -/
def ancestry : ℕ → String → List VersionRow
  | 0, _ => []
  | fuel + 1, v =>
      match s.version v with
      | none => []
      | some row => row :: (row.parentId.map (ancestry fuel)).getD []

/-- Root to leaf. -/
def lineageChain [Platform] (v : String) : Result (List String) :=
  let rows := (s.ancestry (s.issued + 1) v).reverse
  if rows.isEmpty then .error (State.unknownVersion v)
  else do
    let _ ← rows.mapM fun row => GovernancePolicy.fromStoredMetadata row.metadata
    .ok (rows.map (·.id))

def stampsOf (chain : List String) : List ℕ :=
  (s.claims.filter fun c => chain.contains c.versionId).map (·.seq) ++
    (s.anchors.filter fun a => chain.contains a.versionId).map (·.seq) ++
    (s.promises.filter fun p => chain.contains p.versionId).map
      (fun p => max p.seq (p.fulfilledSeq.getD 0)) ++
    (s.counters.filter fun r => chain.contains r.1).map (·.2.seq)

def chainHead (chain : List String) : ℕ := (s.stampsOf chain).foldl max 0

def lockedHead [Platform] (v : String) : Result (List String × ℕ) := do
  let chain ← s.lineageChain v
  .ok (chain, s.chainHead chain)

/-- The rows of the chain by their stamps, and by their rules where stamps tie. -/
def findingsAt [Platform] [Collation] (v : String) (q : FindingsQuery) :
    Result (List StoredFinding) := do
  let limit ← pgBigint (q.limit.getD 1000) "limit"
  let chain ← s.lineageChain v
  let rows := (s.findings.filter fun f => chain.contains f.1 && q.selects f.2).map (·.2)
  .ok ((StableSort.sortByKey (fun f => toLex (f.seq, Collation.sortKey f.finding.ruleId))
    rows).take limit)

/-- The open promise of the key that has the least stamp. -/
def openPromise (chain : List String) (key : String) : Option Promise :=
  (StableSort.sortByKey (·.seq) (s.promises.filter fun p =>
    State.isOpenPromise key p && chain.contains p.versionId)).head?

def lockedAnchors (chain : List String) : SortedMap String Anchor :=
  (StableSort.sortByKey (fun a => toLex (chain.idxOf a.versionId, a.seq))
    (s.anchors.filter fun a => chain.contains a.versionId && a.status == .locked)).foldl
      (fun out a => out.insert a.detailKey a) .empty

end Reads

section Writes
variable [Platform] [IdGenerator] (s : PgState)

omit [Platform] [IdGenerator] in
def findingsTx (v : String) (seq : ℕ) (findings : List GateFinding) : Result PgState := do
  let seq ← pgBigint seq "seq"
  .ok { s with findings := s.findings ++ findings.map fun f => (v, { seq := seq, finding := f }) }

/-- One transaction under the lineage lock, not yet committed. -/
def appendClaimsUncommitted (v : String) (claims : List NewClaim) (expectedHead : Option ℕ) :
    Result (List Claim × PgState) :=
  if claims.isEmpty then .ok ([], s)
  else do
    let (chain, head) ← s.lockedHead v
    State.checkHead expectedHead head
    let seq ← pgBigint head "seq"
    let _ ← pgBigint (seq + claims.length) "seq"
    State.checkSupersedes (s.claims.filter fun c => chain.contains c.versionId) claims
    let policy ← GovernancePolicy.fromStoredMetadata (s.metadataOf v)
    let _ ← policy.revision
    let stored := State.stampClaims v (seq + 1) s.issued claims
    .ok (stored, { s with
      claims := s.claims ++ stored
      issued := s.issued + claims.length })

def appendClaims (v : String) (claims : List NewClaim) (expectedHead : Option ℕ) :
    Result (List Claim × PgState) :=
  if claims.isEmpty then .ok ([], s)
  else s.appendClaimsUncommitted v claims expectedHead

def appendClaim (v : String) (claim : NewClaim) (expectedHead : Option ℕ) :
    Result (Claim × PgState) := do
  let (stored, s) ← s.appendClaims v [claim] expectedHead
  match stored.getLast? with
  | some c => .ok (c, s)
  | none => .error (.storage "append_claims returned no claim for one")

def appendEvaluatedClaims (v : String) (claims : List NewClaim) (expectedHead : ℕ)
    (findings : List GateFinding) : Result (List Claim × PgState) := do
  let (stored, s) ← s.appendClaimsUncommitted v claims (some expectedHead)
  match stored.getLast? with
  | some last => do
      let s ← s.findingsTx v last.seq findings
      .ok (stored, s)
  | none => .ok (stored, s)

def lockAnchor (v subject key value : String) (scopePath : Option String)
    (evidence : Option Json) : Result (Anchor × PgState) := do
  let (_, head) ← s.lockedHead v
  let seq ← nextSeq head
  let anchor : Anchor := {
    id := "anchor-" ++ IdGenerator.next s.issued
    versionId := v
    detailKey := claimKeyOf subject key
    lockedValue := value
    lockedAtScope := scopePath
    status := .locked
    seq := seq
    evidence := evidence }
  let policy ← GovernancePolicy.fromStoredMetadata (s.metadataOf v)
  let _ ← policy.revision
  .ok (anchor, { s with anchors := s.anchors ++ [anchor], issued := s.issued + 1 })

def registerPromise (v key kind description : String) (originScope dueScope : Option String) :
    Result (Promise × PgState) := do
  let (_, head) ← s.lockedHead v
  let seq ← nextSeq head
  let promise : Promise := {
    id := "prom-" ++ IdGenerator.next s.issued
    versionId := v
    key := key
    kind := kind
    description := description
    originScope := originScope
    dueScope := dueScope
    status := .opened
    seq := seq
    fulfilledSeq := none }
  .ok (promise, { s with promises := s.promises ++ [promise], issued := s.issued + 1 })

omit [IdGenerator] in
/-- `UPDATE` of the open rows of the key in the chain that have the id. -/
def fulfillPromise (v key : String) : Result (Bool × PgState) := do
  let (chain, head) ← s.lockedHead v
  let seq ← nextSeq head
  match s.openPromise chain key with
  | none => .ok (false, s)
  | some target =>
      let hits (p : Promise) : Bool :=
        State.isOpenPromise key p && chain.contains p.versionId && p.id == target.id
      .ok (s.promises.any hits, { s with
        promises := s.promises.map fun p =>
          if hits p then { p with status := .fulfilled, fulfilledSeq := some seq } else p })

omit [Platform] [IdGenerator] in
/-- The row of the version, key and scope is overwritten, its budget kept when the new count brings
none; a first count adds a row. -/
def upsertCounter (v key scopePath : String) (count : ℕ) (budget : Option ℕ) (seq : ℕ) :
    List (String × CounterRow) → List (String × CounterRow)
  | [] => [(v, { key := key, scopePath := scopePath, count := count, budget := budget,
                 seq := seq })]
  | r :: rest =>
      if r.1 == v && State.isCounterRow key scopePath r.2 then
        (v, { r.2 with count := count, budget := budget.or r.2.budget, seq := seq }) :: rest
      else r :: upsertCounter v key scopePath count budget seq rest

omit [IdGenerator] in
def recordCounts (v key scopePath : String) (count : ℕ) (budget : Option ℕ) :
    Result (Unit × PgState) := do
  let count ← pgBigint count "count"
  let budget ← budget.mapM (pgBigint · "budget")
  let (_, head) ← s.lockedHead v
  let seq ← nextSeq head
  .ok ((), { s with counters := upsertCounter v key scopePath count budget seq s.counters })

omit [Platform] [IdGenerator] in
def recordFindings (v : String) (seq : ℕ) (findings : List GateFinding) :
    Result (Unit × PgState) := do
  let seq ← pgBigint seq "seq"
  if (s.version v).isNone then .error (State.unknownVersion v)
  else do
    let s ← s.findingsTx v seq findings
    .ok ((), s)

variable [Unicode]

omit [IdGenerator] in
/-- The parent's metadata and what a policy change is assessed against, under the parent's lock. -/
def parentSnapshot (p : String) (assess : Bool) : Result (Option Json × MeshSnapshot) := do
  let (chain, head) ← s.lockedHead p
  if assess then
    .ok (s.metadataOf p,
      { versionId := p
        facts := resolveSlice (s.claims.filter fun c => chain.contains c.versionId) {}
        anchors := s.lockedAnchors chain
        asOfSeq := some head })
  else .ok (s.metadataOf p, { versionId := p, asOfSeq := some head })

def createVersion (parentId : Option String) (metadata : Option Json) :
    Result (String × PgState) := do
  let id := "memv-" ++ IdGenerator.next s.issued
  let assess := (metadata.bind (·.get "governance_transition")).isSome
  let parent ← parentId.mapM (s.parentSnapshot · assess)
  let metadata ← prepareVersionMetadata metadata (parent.bind (·.1)) (parent.map (·.2))
  let inserted : PgState := { s with
    versions := s.versions ++ [{ id := id, parentId := parentId, metadata := metadata }]
    issued := s.issued + 1 }
  match policyFinding id metadata with
  | some finding => do
      let recorded ← inserted.findingsTx id (((parent.map (·.2)).bind (·.asOfSeq)).getD 0)
        [finding]
      .ok (id, recorded)
  | none => .ok (id, inserted)

/-- The commands of the in-memory store, on the tables. -/
def exec : Command → Result PgState
  | .createVersion parentId metadata => (s.createVersion parentId metadata).map Prod.snd
  | .appendClaim v claim expectedHead => (s.appendClaim v claim expectedHead).map Prod.snd
  | .appendClaims v claims expectedHead => (s.appendClaims v claims expectedHead).map Prod.snd
  | .appendEvaluatedClaims v claims expectedHead findings =>
      (s.appendEvaluatedClaims v claims expectedHead findings).map Prod.snd
  | .lockAnchor v subject key value scopePath evidence =>
      (s.lockAnchor v subject key value scopePath evidence).map Prod.snd
  | .registerPromise v key kind description originScope dueScope =>
      (s.registerPromise v key kind description originScope dueScope).map Prod.snd
  | .fulfillPromise v key => (s.fulfillPromise v key).map Prod.snd
  | .recordCounts v key scopePath count budget =>
      (s.recordCounts v key scopePath count budget).map Prod.snd
  | .recordFindings v seq findings => (s.recordFindings v seq findings).map Prod.snd

/-- A transaction that fails is rolled back. -/
def step (c : Command) : PgState :=
  match s.exec c with
  | .ok s' => s'
  | .error _ => s

def run (commands : List Command) : PgState := commands.foldl (fun s c => s.step c) s

end Writes
end PgState
end Munarium
