import Munarium.Platform.ActionLedger

/-! `ActionLedger::apply_activation`: the server's own activation state, recorded with its
audit event in one transaction after the initial head is pinned once. -/
namespace Munarium

namespace PlatformAction
open PlatformRecord (MAX hash canonicalRecord)

def ENROLLMENT : String := "platform.server-activation-enrollment-v1"

def APPLIED : String := "platform.server-activation-applied-v1"

structure ActivationEnrollment where
  initialEpoch : ℕ
  initialArtifactSetDigest : String
  service : String
  coordinator : String
  streamId : String

/-- Independently obtained evidence. -/
structure ActivationEvidence where
  ratified : Json
  pause : Json
  gateHead : Json
  registryReceipt : Json
  registryHead : Json
  authorityRevision : String
  now : ℕ

section
variable [SerdeJson] [Sha256]

/-- The text of a canonical record. -/
def encoded (value : Json) : Result String := do
  let raw := SerdeJson.toVec value
  let _ ← canonicalRecord raw
  orInvalid (fromUtf8 raw)

/-- A participant's receipt for a transition. -/
def receiptOf (t : Json) (participant phase digest : String) : Json := .object
  [("schema_version", .int 1), ("profile", .str PROFILE), ("type", .str "activation-receipt"),
    ("participant", .str participant), ("phase", .str phase),
    ("transition_digest", .str digest), ("transition", t["transition"]),
    ("prior_epoch", t["prior_epoch"]), ("successor_epoch", t["successor_epoch"]),
    ("artifact_set_digest", t["artifact_set_digest"]),
    ("participant_set_digest", t["participant_set_digest"])]

/-- The greatest number, the last one of several. -/
def atLeast (a b : Option ℕ) : Bool := !EventLedger.exceeds b a

variable [ActionSchema]

def receipt (t : Json) : Result Json := do
  let digest ← actionDigest "activation" t
  let r := receiptOf t "server" "applied" digest
  validateActionRecord r
  .ok r

def checkReceipt (t r : Json) (owner phase : String) : Result Unit := do
  validateActionRecord r
  let _ ← receipt t
  let digest ← actionDigest "activation" t
  allow (r == receiptOf t owner phase digest)

namespace ActionLedger

omit [SerdeJson] [Sha256] [ActionSchema] in
def activationEnrollment (l : ActionLedger) (e : ActivationEnrollment) : Result Json := do
  l.policy.validate
  let stream ← orDenied (l.policy.stream e.streamId)
  allow (e.initialEpoch != 0 && decide (e.initialEpoch ≤ MAX) &&
    hash e.initialArtifactSetDigest && stream.producer == "server" &&
    stream.service == e.service && decide ("activation-applied" ∈ stream.kinds) &&
    l.archiveOwner e.coordinator "activation")
  .ok (.object [("scope", l.policy.scope.value), ("initial_epoch", .int e.initialEpoch),
    ("initial_artifact_set_digest", .str e.initialArtifactSetDigest)])

omit [Sha256] [ActionSchema] in
def judgeEnrollment (value : Json) (_ : ℕ) (facts : List Claim) : Result (Verdict Unit) :=
  match facts.find? fun f => f.subject == ENROLLMENT with
  | some fact => do
      let old ← canonicalRecord (utf8 fact.value)
      if old ≠ value then .error .idempotencyMismatch else .ok (.reply ())
  | none => do
      let content ← encoded value
      .ok (.append (.fact ENROLLMENT "initial" content) fun _ => .ok ())

/-- What is checked of an activation once the enrollment is pinned. -/
def prepareActivation (l : ActionLedger) (e : ActivationEnrollment) (t : Json)
    (proof : ActivationEvidence) : Result (Json × String × StreamRegistration) := do
  validateActionRecord t
  checkScope t l.policy.scope.value
  allow (t["type"] == .str "activation" && decide (proof.now ≤ MAX) &&
    proof.ratified["ratified"] == .bool true && proof.ratified["transition"] == t)
  let digest ← actionDigest "activation" t
  allow (proof.ratified["transition_digest"] == .str digest)
  let start ← number t["not_before"]
  allow (start + 2 ≤ proof.now)
  let expires ← number t["expires_at"]
  allow (proof.now + 2 < expires)
  checkReceipt t proof.pause "gate" "paused"
  checkReceipt t proof.registryReceipt "registry" "applied"
  let gate := proof.gateHead
  allow (gate["scope"] == l.policy.scope.value && gate["participant"] == .str "gate" &&
    gate["paused"] == .bool true && gate["transition_id"] == t["transition"]["id"] &&
    (gate["epoch"] == t["prior_epoch"] &&
        gate["artifact_set_digest"] == t["prior_artifact_set_digest"] ||
      gate["epoch"] == t["successor_epoch"] &&
        gate["artifact_set_digest"] == t["artifact_set_digest"]))
  let registry := proof.registryHead
  allow (registry["scope"] == l.policy.scope.value &&
    registry["participant"] == .str "registry" && registry["epoch"] == t["successor_epoch"] &&
    registry["artifact_set_digest"] == t["artifact_set_digest"])
  let r ← receipt t
  let stream ← orDenied (l.policy.stream e.streamId)
  .ok (r, digest, stream)

omit [Sha256] [ActionSchema] in
/-- The activations applied so far: this one's receipt, or the newest of them. -/
def matchApplied (t receipt : Json) : Option (ℕ × Json) → List Claim →
    Result (Option (Option (ℕ × Json)))
  | current, [] => .ok (some current)
  | current, fact :: rest => do
      let old ← canonicalRecord (utf8 fact.value)
      if old["receipt"]["transition"] = t["transition"] then
        if old["receipt"] ≠ receipt then .error .idempotencyMismatch else .ok none
      else
        matchApplied t receipt (if current.all (·.1 < fact.seq) then some (fact.seq, old)
          else current) rest

/-- The epoch and the artifact set an activation has to start from. -/
def currentHead (e : ActivationEnrollment) : Option (ℕ × Json) → Result (ℕ × String)
  | some (_, v) => do
      let epoch ← number v["receipt"]["successor_epoch"]
      let digest ← text v["receipt"]["artifact_set_digest"]
      .ok (epoch, digest)
  | none => .ok (e.initialEpoch, e.initialArtifactSetDigest)

def activationPayload (r : Json) : Json := .object
  [("kind", .str "activation-applied"), ("receipt", r)]

def activationFields (l : ActionLedger) (e : ActivationEnrollment) (stream : StreamRegistration)
    (r : Json) (digest payloadDigest : String) (now prior : ℕ) (predecessor : Json) :
    List (String × Json) :=
  [("schema_version", .int 1), ("type", .str "accountability-event"),
    ("profile", .str PROFILE), ("scope", l.policy.scope.value),
    ("event_id", .str ("server-" ++ String.ofList (digest.toList.drop 7))),
    ("stream", streamRef l.policy.scope.value e.streamId),
    ("source_generation", .int stream.generation), ("sequence", .int (prior + 1)),
    ("predecessor", predecessor), ("producer", .str "server"), ("family", .str "activation"),
    ("kind", .str "activation-applied"), ("occurred_at", .int now),
    ("clock", .str "bounded-utc-2s"), ("causal_parents", .arr []),
    ("payload", activationPayload r), ("payload_digest", .str payloadDigest)]

/-- The audit event of an activation, next in the server's stream. -/
def activationEvent (l : ActionLedger) (e : ActivationEnrollment) (stream : StreamRegistration)
    (r : Json) (digest payloadDigest : String) (now prior : ℕ) (predecessor : Json) : Json :=
  .object (l.activationFields e stream r digest payloadDigest now prior predecessor)

/-- The newest recorded event of the server's stream. -/
def lastActivation (e : ActivationEnrollment) (stream : StreamRegistration)
    (events : List Stored) : Option Json :=
  ((events.map (·.value)).filter fun v => v["stream"]["id"] == .str e.streamId &&
    v["source_generation"] == .int stream.generation).foldl (newer atLeast sequence) none

/-- The number before the next one of a stream that ends there. -/
def priorSequence : Option Json → Result ℕ
  | none => .ok 0
  | some v => number v["sequence"]

def predecessorOf : Option Json → Result Json
  | none => .ok .null
  | some v => (eventDigest v).map .str

def provenance (e : ActivationEnrollment) (proof : ActivationEvidence) : Json := .object
  [("received_at", .int proof.now), ("authority_revision", .str proof.authorityRevision),
    ("coordinator", .str e.coordinator), ("recorder_service", .str e.service),
    ("source", .str "server-activation")]

/-- A row of the activation's own transaction. -/
def activationRow (e : ActivationEnrollment) (proof : ActivationEvidence)
    (subject key content : String) : NewClaim :=
  { NewClaim.fact subject key content with evidence := some (provenance e proof) }

/-- The transition is archived unless it is archived already. -/
def archiveRows (e : ActivationEnrollment) (proof : ActivationEvidence) (t : Json)
    (digest : String) (old : Option Stored) : Result (List NewClaim) :=
  if old.isNone then do
    let content ← encoded t
    .ok [activationRow e proof ARTIFACTS digest content]
  else .ok []

/-- One attempt to apply an activation. The source reads the facts at the pin twice; both
reads see the same rows. -/
def judgeApply (l : ActionLedger) (e : ActivationEnrollment) (t : Json)
    (proof : ActivationEvidence) (r : Json) (digest : String) (stream : StreamRegistration)
    (head : ℕ) (facts : List Claim) : Result (Verdict Json) := do
  let (artifacts, events) ← l.snapshot head facts
  match ← matchApplied t r none (facts.filter fun f => f.subject == APPLIED) with
  | none => .ok (.reply r)
  | some current =>
      let (epoch, set) ← currentHead e current
      if t["prior_epoch"] ≠ .int epoch ∨ t["prior_artifact_set_digest"] ≠ .str set then
        .error .idempotencyMismatch
      else do
        let last := lastActivation e stream events
        let prior ← priorSequence last
        let predecessor ← predecessorOf last
        let payloadDigest ← actionDigest "event-payload" (activationPayload r)
        let event := l.activationEvent e stream r digest payloadDigest proof.now prior predecessor
        validateActionRecord event
        if events.any fun v => v.value["event_id"] == event["event_id"] then
          .error .idempotencyMismatch
        else do
          let old := artifacts.find? fun a => a.value["type"] == .str "activation" &&
            a.value["transition"] == t["transition"]
          if old.any fun a => a.value != t then .error .idempotencyMismatch
          else do
            let archive ← archiveRows e proof t digest old
            let id ← text event["event_id"]
            let audit ← encoded event
            let transition ← text t["transition"]["id"]
            let applied ← encoded (.object [("receipt", r)])
            .ok (.appendAll (archive ++ [activationRow e proof EVENTS id audit,
              activationRow e proof APPLIED transition applied]) (.ok r))

variable [Platform] [IdGenerator]

omit [Sha256] [ActionSchema] in
/-- Pin the initial head once. -/
def initializeActivation (l : ActionLedger) (e : ActivationEnrollment) :
    Shared State (Result Unit) :=
  onOk (fun value => retryAtHead l.version (.storage "activation enrollment contention")
      (judgeEnrollment value) 32)
    (l.activationEnrollment e)

def applyActivation (l : ActionLedger) (e : ActivationEnrollment) (t : Json)
    (proof : ActivationEvidence) : Shared State (Result Json) :=
  (l.initializeActivation e).bind (onOk fun _ =>
    onOk (fun (r, digest, stream) =>
        retryAtHead l.version (.storage "activation commit contention")
          (l.judgeApply e t proof r digest stream) 32)
      (l.prepareActivation e t proof))

end ActionLedger
end
end PlatformAction
end Munarium
