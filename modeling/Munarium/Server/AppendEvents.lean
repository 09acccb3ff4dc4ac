import Munarium.Core.Chronology
import Munarium.Store.Memory

/-! The command path: a command reads a snapshot at the head it observed, runs the gates
and appends its batch pinned to that head, each read and the append being one atomic call
of the store. A head that moved meanwhile sends it back to the start, three times in all. -/
namespace Munarium

structure ProposeClaimRequest where
  claimType : ClaimType
  subject : String
  key : String
  value : String
  scopePath : Option String := none
  provenance : Option Provenance := none
  supersedesId : Option String := none
  entityId : Option String := none
  evidence : Option Json := none
  confidence : Option ℚ := none
  shapeRef : Option String := none
  origin : Option ClaimOrigin := none

namespace ProposeClaimRequest

def claimKey (c : ProposeClaimRequest) : String := claimKeyOf c.subject c.key

def toNewClaim (c : ProposeClaimRequest) (status : ClaimStatus) : NewClaim where
  claimType := c.claimType
  subject := c.subject
  key := c.key
  value := c.value
  scopePath := c.scopePath
  status := status
  provenance := c.provenance.getD .witnessed
  supersedesId := c.supersedesId
  entityId := c.entityId
  evidence := c.evidence
  confidence := c.confidence
  shapeRef := c.shapeRef
  origin := c.origin

def toProposed (c : ProposeClaimRequest) : ProposedClaim where
  claimType := c.claimType
  subject := c.subject
  key := c.key
  value := c.value
  supersedesId := c.supersedesId

end ProposeClaimRequest

/-- A tenant's shapes: the revision a shape is at and its verdict on a claim body. -/
abbrev ShapeRegistry := String → String → Json → Option String × Except String Unit

def claimBody (subject key value : String) (evidence : Option Json) : Json :=
  .object [("subject", .str subject), ("key", .str key), ("value", .str value),
    ("evidence", evidence.getD .null)]

/-- An `append_events` command. -/
structure AppendRequest where
  shapes : ShapeRegistry := fun _ _ _ => (none, .ok ())
  tenant : String := ""
  versionId : String
  claims : List ProposeClaimRequest
  candidateText : Option String := none
  expectedHead : Option ℕ := none
  chronology : Option ChronologyRules := none

/-- A fact proposed for a version, and nothing else. -/
def proposeFact (v subject key value : String) : AppendRequest where
  versionId := v
  claims := [{ claimType := .fact, subject := subject, key := key, value := value }]

namespace AppendRequest

variable (r : AppendRequest)

def scope : Option String := r.claims.findSome? (·.scopePath)

/-- The whole batch is one candidate; corrections are kept apart from the other claims. -/
def candidate : Candidate where
  scopePath := r.scope
  text := r.candidateText.getD ""
  claims := (r.claims.filter fun c => c.claimType != .correction).map (·.toProposed)
  corrections := (r.claims.filter fun c => c.claimType == .correction).map (·.toProposed)

def shapeOutcome (c : ProposeClaimRequest) (shapeRef : String) :
    Option String × Except String Unit :=
  r.shapes r.tenant shapeRef (claimBody c.subject c.key c.value c.evidence)

def shapeFinding (c : ProposeClaimRequest) : Option GateFinding :=
  c.shapeRef.bind fun shapeRef =>
    match (r.shapeOutcome c shapeRef).2 with
    | .ok () => none
    | .error citation => some {
        ruleId := "shape.schema-violation"
        severity := .block
        message := "claim '" ++ c.claimKey ++ "' violates shape " ++ shapeRef ++ ": " ++ citation
        scopePath := r.scope
        detail := some (.object [("claim_key", .str c.claimKey), ("shape_ref", .str shapeRef),
          ("policy_citation", .str citation)]) }

def shapeFindings : List GateFinding := r.claims.filterMap r.shapeFinding

def shapeRevisions : List Json :=
  r.claims.filterMap fun c => c.shapeRef.map fun shapeRef =>
    .object [("ref", .str shapeRef),
      ("yaml_hash", .ofOption .str (r.shapeOutcome c shapeRef).1)]

section
variable [Unicode]

/-- The five gates, then the armed chronology rules without a clock, then the shapes. -/
def findings (snapshot : MeshSnapshot) (comparisons : ComparisonPolicies) : List GateFinding :=
  runGatesWithPolicies snapshot r.candidate comparisons ++
    (match r.chronology with
      | some rules => checkChronology snapshot r.candidate rules none
      | none => []) ++
    r.shapeFindings

/-- Blocked claims are recorded disputed, never dropped. -/
def batch (findings : List GateFinding) : List NewClaim :=
  let blocked := blockedClaimKeys findings
  r.claims.map fun c =>
    c.toNewClaim (if blocked.contains c.claimKey then .disputed else .accepted)

end

section
variable [Platform]

/-- The policies a version's metadata binds. -/
def comparisonsOf (metadata : Option Json) : Result ComparisonPolicies := do
  let policy ← GovernancePolicy.fromStoredMetadata metadata
  policy.comparisons

/-- A governed version records the evaluation beside its findings. -/
def recorded (head : ℕ) (metadata : Option Json) (findings : List GateFinding) :
    Result (List GateFinding) := do
  let policy ← GovernancePolicy.fromStoredMetadata metadata
  if (metadata.bind (·.get "governance_policy")).isSome then do
    let revision ← policy.revision
    .ok (findings ++ [{
      ruleId := "governance.command-evaluation"
      severity := .info
      message := "Command evaluated under an immutable governance profile"
      scopePath := r.scope
      detail := some (.object [("schema_version", .int 1), ("version_id", .str r.versionId),
        ("snapshot_seq", .int head), ("governance_revision", .str revision),
        ("claim_count", .int r.claims.length),
        ("candidate_text", .ofOption .str r.candidateText),
        ("findings", .arr (findings.map GateFinding.toJson)),
        ("shape_revisions", .arr r.shapeRevisions),
        ("chronology_rules", .ofOption ChronologyRules.toJson r.chronology)]) }])
  else .ok findings

end
end AppendRequest

structure CommandOutcome where
  claims : List Claim
  findings : List GateFinding
  headSeq : ℕ

def maxRegateAttempts : ℕ := 3

/-- Where a command stands: the call it makes next, with what it has read so far. -/
inductive Phase where
  | readHead (attempt : ℕ)
  | readFacts (attempt head : ℕ)
  | readAnchors (attempt head : ℕ) (snapshot : MeshSnapshot)
  | readPromises (attempt head : ℕ) (snapshot : MeshSnapshot)
  | readCounters (attempt head : ℕ) (snapshot : MeshSnapshot)
  | readMetadata (attempt head : ℕ) (snapshot : MeshSnapshot)
  | append (attempt head : ℕ) (batch : List NewClaim) (findings recorded : List GateFinding)
  | persist (head : ℕ) (findings : List GateFinding)
  | returned (outcome : Result CommandOutcome)

namespace Phase

/-- An error ends the command. -/
def after {α : Type} (read : Result α) (next : α → Phase) : Phase :=
  match read with
  | .ok a => next a
  | .error e => .returned (.error e)

def start (r : AppendRequest) : Phase :=
  if r.claims.isEmpty && r.candidateText.isNone then
    .returned (.error (.invalidInput "empty command"))
  else .readHead 1

/-- A caller's pin is checked against the observed head before anything is read. -/
def observe (r : AppendRequest) (attempt head : ℕ) : Phase :=
  match r.expectedHead with
  | some expected =>
      if expected ≠ head then .returned (.error (.headConflict expected head))
      else .readFacts attempt head
  | none => .readFacts attempt head

/-- Gate what was read. A command of text alone has findings but nothing to append. -/
def gate [Unicode] [Platform] (r : AppendRequest) (attempt head : ℕ) (snapshot : MeshSnapshot)
    (metadata : Option Json) : Phase :=
  after (AppendRequest.comparisonsOf metadata) fun comparisons =>
    let findings := r.findings snapshot comparisons
    let batch := r.batch findings
    if batch.isEmpty then .persist head findings
    else after (r.recorded head metadata findings) fun recorded =>
      .append attempt head batch findings recorded

/-- A moved head is gated again unless the caller pinned it or attempts ran out. -/
def appendFailed (r : AppendRequest) (attempt : ℕ) (e : KernelError) : Phase :=
  match e with
  | .headConflict expected actual =>
      if r.expectedHead.isNone && attempt < maxRegateAttempts then .readHead (attempt + 1)
      else .returned (.error (.headConflict expected actual))
  | e => .returned (.error e)

section
variable [Unicode] [Platform] [IdGenerator]

/-- The batch lands whole, at the observed head or not at all. -/
def callAppend (r : AppendRequest) (s : State) (attempt head : ℕ) (batch : List NewClaim)
    (findings recorded : List GateFinding) : Phase × State :=
  match s.appendEvaluatedClaims r.versionId batch head recorded with
  | .ok (stored, s') => (.returned (.ok {
      claims := stored
      findings := findings
      headSeq := (stored.getLast?.map (·.seq)).getD head }), s')
  | .error e => (appendFailed r attempt e, s)

/-- Findings of text alone are returned even where they cannot be recorded. -/
def callPersist (r : AppendRequest) (s : State) (head : ℕ) (findings : List GateFinding) :
    Phase × State :=
  let outcome : CommandOutcome := { claims := [], findings := findings, headSeq := head }
  if findings.isEmpty then (.returned (.ok outcome), s)
  else match s.recordFindings r.versionId head findings with
    | .ok (_, s') => (.returned (.ok outcome), s')
    | .error _ => (.returned (.ok outcome), s)

/-- One atomic call of the store and what the command makes of its answer. -/
def step (r : AppendRequest) (s : State) : Phase → Phase × State
  | readHead attempt => (after (s.headOf r.versionId) (observe r attempt), s)
  | readFacts attempt head =>
      (after (s.sliceFacts r.versionId { asOfSeq := some head }) fun facts =>
        .readAnchors attempt head
          { versionId := r.versionId, facts := facts, asOfSeq := some head }, s)
  | readAnchors attempt head snapshot =>
      (after (s.anchorsAt r.versionId (some head)) fun anchors =>
        .readPromises attempt head { snapshot with anchors := anchors }, s)
  | readPromises attempt head snapshot =>
      (after (s.promisesAt r.versionId (some head)) fun promises =>
        .readCounters attempt head { snapshot with promises := promises }, s)
  | readCounters attempt head snapshot =>
      (after (s.counterTotals r.versionId (some head)) fun counters =>
        .readMetadata attempt head { snapshot with counters := counters }, s)
  | readMetadata attempt head snapshot =>
      (after (s.versionMetadata r.versionId) (gate r attempt head snapshot), s)
  | append attempt head batch findings recorded =>
      callAppend r s attempt head batch findings recorded
  | persist head findings => callPersist r s head findings
  | returned outcome => (.returned outcome, s)

/-- A number of calls with nobody else at the store. -/
def runAlone (r : AppendRequest) : ℕ → Phase × State → Phase × State
  | 0, c => c
  | n + 1, c => runAlone r n (step r c.2 c.1)

end

/-! Every command returns: an attempt is seven calls, and attempts are bounded. -/

/-- How many calls a command can still make. -/
def callsLeft : Phase → ℕ
  | readHead attempt => 7 * (maxRegateAttempts - attempt) + 7
  | readFacts attempt _ => 7 * (maxRegateAttempts - attempt) + 6
  | readAnchors attempt _ _ => 7 * (maxRegateAttempts - attempt) + 5
  | readPromises attempt _ _ => 7 * (maxRegateAttempts - attempt) + 4
  | readCounters attempt _ _ => 7 * (maxRegateAttempts - attempt) + 3
  | readMetadata attempt _ _ => 7 * (maxRegateAttempts - attempt) + 2
  | append attempt _ _ _ _ => 7 * (maxRegateAttempts - attempt) + 1
  | persist _ _ => 1
  | returned _ => 0

theorem callsLeft_after {α : Type} {read : Result α} {next : α → Phase} {n : ℕ}
    (h : ∀ a, (next a).callsLeft ≤ n) : (after read next).callsLeft ≤ n := by
  cases read with
  | error e => exact Nat.zero_le n
  | ok a => exact h a

theorem callsLeft_observe (r : AppendRequest) (attempt head : ℕ) :
    (observe r attempt head).callsLeft ≤ 7 * (maxRegateAttempts - attempt) + 6 := by
  unfold observe
  split
  · split_ifs
    · exact Nat.zero_le _
    · exact le_rfl
  · exact le_rfl

theorem callsLeft_gate [Unicode] [Platform] (r : AppendRequest) (attempt head : ℕ)
    (snapshot : MeshSnapshot) (metadata : Option Json) :
    (gate r attempt head snapshot metadata).callsLeft ≤
      7 * (maxRegateAttempts - attempt) + 1 := by
  refine callsLeft_after fun comparisons => ?_
  dsimp only
  split_ifs
  · exact Nat.le_add_left 1 _
  · exact callsLeft_after fun recorded => le_rfl

theorem callsLeft_appendFailed (r : AppendRequest) (attempt : ℕ) (e : KernelError) :
    (appendFailed r attempt e).callsLeft ≤ 7 * (maxRegateAttempts - attempt) := by
  unfold appendFailed
  split
  · split_ifs with h
    · have hlt : attempt < maxRegateAttempts := by simp_all
      simp only [callsLeft]
      omega
    · exact Nat.zero_le _
  · exact Nat.zero_le _

section
variable [Unicode] [Platform] [IdGenerator]

/-- Whatever the store answers, a call brings the command closer to its return. -/
theorem callsLeft_step (r : AppendRequest) (s : State) (p : Phase) :
    (step r s p).1.callsLeft ≤ p.callsLeft - 1 := by
  cases p with
  | readHead attempt => exact callsLeft_after fun head => callsLeft_observe r attempt head
  | readMetadata attempt head snapshot =>
    exact callsLeft_after fun metadata => callsLeft_gate r attempt head snapshot metadata
  | append attempt head batch findings recorded =>
    show (callAppend r s attempt head batch findings recorded).1.callsLeft ≤ _
    unfold callAppend
    split
    · exact Nat.zero_le _
    · exact callsLeft_appendFailed r attempt _
  | persist head findings =>
    show (callPersist r s head findings).1.callsLeft ≤ _
    unfold callPersist
    split_ifs
    · exact le_rfl
    · split <;> exact le_rfl
  | returned outcome => exact le_rfl
  | _ => exact callsLeft_after fun _ => le_rfl

theorem callsLeft_runAlone (r : AppendRequest) (n : ℕ) (p : Phase) (s : State) :
    (runAlone r n (p, s)).1.callsLeft ≤ p.callsLeft - n := by
  induction n generalizing p s with
  | zero => exact le_rfl
  | succ n ih =>
    have hstep := callsLeft_step r s p
    have hrest : (runAlone r n (step r s p)).1.callsLeft ≤ (step r s p).1.callsLeft - n :=
      ih (step r s p).1 (step r s p).2
    show (runAlone r n (step r s p)).1.callsLeft ≤ _
    omega

end

theorem callsLeft_start (r : AppendRequest) : (start r).callsLeft ≤ 7 * maxRegateAttempts := by
  unfold start
  split_ifs
  · exact Nat.zero_le _
  · exact le_rfl

theorem returned_of_callsLeft {p : Phase} (h : p.callsLeft = 0) :
    ∃ outcome, p = .returned outcome := by
  cases p with
  | returned outcome => exact ⟨outcome, rfl⟩
  | _ => simp [callsLeft] at h

end Phase

section
variable [Unicode] [Platform] [IdGenerator]

/-- A command nobody interferes with; seven calls are what one attempt takes. -/
def appendEvents (s : State) (r : AppendRequest) : Phase × State :=
  Phase.runAlone r (7 * maxRegateAttempts) (Phase.start r, s)

theorem appendEvents_returned (s : State) (r : AppendRequest) :
    ∃ outcome, (appendEvents s r).1 = .returned outcome := by
  have hstart := Phase.callsLeft_start r
  have hrun := Phase.callsLeft_runAlone r (7 * maxRegateAttempts) (Phase.start r) s
  refine Phase.returned_of_callsLeft ?_
  unfold appendEvents
  omega

end
end Munarium
