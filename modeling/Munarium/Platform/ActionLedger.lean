import Munarium.Platform.ActionRecord

/-! `ActionLedger::archive` and `ActionLedger::append`: artifacts and events that are
recorded when the ledger at one head holds what they need. -/
namespace Munarium

namespace PlatformAction
open PlatformRecord (MAX hash canonicalRecord)

def ARTIFACTS : String := "platform.action-artifacts-v1"

def EVENTS : String := "platform.action-events-v1"

structure Stored where
  value : Json
  seq : ℕ
  receivedAt : ℕ

/-- The kinds an attempt has one payload of. -/
def oneShot : List String :=
  ["claim-created", "grant-issued", "consumption-reserved", "predispatch", "send-intent",
    "outcome"]

def sameAttempt (a b : Json) : Bool :=
  a["operation"] == b["operation"] && a["attempt"] == b["attempt"] &&
    a["request_digest"] == b["request_digest"] && a["context_digest"] == b["context_digest"]

def artifactKey (value : Json) : Result (String × String) := do
  let kind ← text value["type"]
  let id ← text (if kind = "activation" then value["transition"]["id"]
    else value["attempt"]["id"])
  .ok (kind, id)

/-- The stream of an event: its stream reference and the producer's generation. -/
def streamOf (event : Json) : Json × Json := (event["stream"], event["source_generation"])

def sequence (event : Json) : Option ℕ := event["sequence"].asU64

def artifactFor (kind : String) (record : Json) (artifacts : List Stored) : Result Json :=
  orInvalid ((artifacts.find? fun a => a.value["type"] == .str kind &&
    a.value["attempt"] == record["attempt"] &&
    a.value["operation"] == record["operation"]).map (·.value))

/-- The first recorded event of a kind for the attempt of a payload. -/
def priorEvent (kind : String) (payload : Json) (events : List Stored) : Result Stored :=
  orInvalid (events.find? fun e => e.value["kind"] == .str kind &&
    sameAttempt e.value["payload"] payload)

section
variable [SerdeJson] [Sha256]

def eventDigest (event : Json) : Result String := actionDigest "accountability-event" event

def requestFor (record : Json) (artifacts : List Stored) : Result Json := do
  let request ← artifactFor "action-request" record artifacts
  let digest ← actionDigest "action-request" request
  require (record["request_digest"] == .str digest &&
    record["context_digest"] == request["context_digest"])
  .ok request

/-- The obligations of a decision that asks for approval. -/
def expectedObligations (request : Json) : Json := .arr
  [.object [("kind", .str "distinct-approval"), ("owner", .str "council"),
      ("policy_digest", request["context"]["policy_digest"])],
    .object [("kind", .str "mandatory-recording"), ("owner", .str "server"),
      ("phase", .str "before-send")],
    .object [("kind", .str "action-capacity"), ("owner", .str "gate"),
      ("target", request["intent"]["target"]), ("limit", .int 2), ("window_seconds", .int 3600)],
    .object [("kind", .str "credential-custody"), ("owner", .str "warden"),
      ("audience", request["intent"]["target"])]]

def validateArchive (value : Json) (artifacts : List Stored) : Result Unit := do
  let kind ← text value["type"]
  if kind = "action-request" ∨ kind = "activation" then .ok ()
  else if kind = "action-decision" then do
    let request ← requestFor value artifacts
    require (value["obligations"] ==
      if value["outcome"] = .str "denied" then .arr [] else expectedObligations request)
  else if kind = "action-approval" then do
    let request ← requestFor value artifacts
    let decision ← artifactFor "action-decision" value artifacts
    require (decision["outcome"] == .str "approval-required")
    let digest ← actionDigest "action-decision" decision
    require (value["decision_digest"] == .str digest &&
      value["approver"] != request["intent"]["actor"] &&
      value["approver"] != request["intent"]["origin"])
  else .error invalidAction

/-- An artifact of the same key is this one or stands against it; a request's intent and an
approval's content are fixed for their operation and approval too. -/
def matchArchive (kind : String) (value : Json) : List Stored → Result (Option Stored)
  | [] => .ok none
  | old :: rest =>
      if kind = "action-approval" ∧ old.value["type"] = .str kind ∧
          old.value["approval"] = value["approval"] ∧ old.value ≠ value then
        .error .idempotencyMismatch
      else if kind = "action-request" ∧ old.value["type"] = .str kind ∧
          old.value["operation"] = value["operation"] ∧
          old.value["intent_digest"] ≠ value["intent_digest"] then
        .error .idempotencyMismatch
      else do
        let a ← artifactKey old.value
        let b ← artifactKey value
        if a = b then
          if old.value ≠ value then .error .idempotencyMismatch else .ok (some old)
        else matchArchive kind value rest

/-- Payloads of two action events that may not stand in one ledger. -/
def payloadsClash (a b : Json) : Result Bool :=
  if a["attempt"] = b["attempt"] ∧ (a["request_digest"] ≠ b["request_digest"] ∨
      a["context_digest"] ≠ b["context_digest"] ∨ a["operation"] ≠ b["operation"]) then .ok true
  else if (a.get "claim").isSome ∧ a["claim"] = b["claim"] ∧
      (a["attempt"] ≠ b["attempt"] ∨ a["operation"] ≠ b["operation"]) then .ok true
  else if a["attempt"] = b["attempt"] ∧ a["kind"] = b["kind"] ∧ a ≠ b then do
    let kind ← text b["kind"]
    .ok (oneShot.contains kind)
  else .ok false

/-- Only action events stand against each other. -/
def eventsClash (old event : Json) : Result Bool :=
  if event["family"] = .str "action" ∧ old["family"] = .str "action" then
    payloadsClash old["payload"] event["payload"]
  else .ok false

/-- The recorded events against a new one: the record of the same event, or the last event
of its stream. -/
def matchEvents (event : Json) : Option Json → List Stored → Result (Stored ⊕ Option Json)
  | last, [] => .ok (.inr last)
  | last, old :: rest =>
      if old.value["event_id"] = event["event_id"] then
        if old.value ≠ event then .error .idempotencyMismatch else .ok (.inl old)
      else do
        let clash ← eventsClash old.value event
        if clash then .error .idempotencyMismatch
        else matchEvents event (if streamOf old.value = streamOf event then
          newer EventLedger.exceeds sequence last old.value else last) rest

/-- An event continues its stream. -/
def checkSequence (event : Json) : Option Json → Result Unit
  | none => require (event["sequence"] == .int 1 && event["predecessor"].isNull)
  | some last => do
      let next ← number event["sequence"]
      let prior ← number last["sequence"]
      require (next == prior + 1)
      let digest ← eventDigest last
      require (event["predecessor"] == .str digest)

def checkReservations (request : Json) : List String → List Json → Result Unit
  | _, [] => .ok ()
  | ids, reservation :: rest => do
      let id ← text reservation["reservation"]["id"]
      require (!ids.contains id && reservation["target"] == request["intent"]["target"] &&
        reservation["root"] == request["intent"]["task"]["root"])
      let start ← number reservation["window_start"]
      require (start % 3600 == 0)
      checkReservations request (id :: ids) rest

end

/-- A ledger in its reserved version, under the policy of one call. -/
structure ActionLedger where
  version : String
  policy : ActionPolicy

namespace ActionLedger

def authorize (l : ActionLedger) (a : ActionAdmission) (write : Bool) : Result Unit := do
  l.policy.validate
  allow (a.tenant == l.policy.scope.tenant && a.deployment == l.policy.scope.deployment &&
    a.identity.originKind == "service" && identifier a.identity.actor &&
    identifier a.identity.origin && hash a.identity.principalDigest && decide (a.now ≤ MAX) &&
    (if write then a.canRecord else a.canRead && decide (a.service ∈ l.policy.readers)))

/-- A registered logical producer is bound to the actual enrolled transport service. -/
def archiveOwner (l : ActionLedger) (service kind : String) : Bool :=
  if kind = "action-request" ∨ kind = "action-decision" then
    l.policy.streams.any fun s => s.producer == "gate" && s.service == service
  else if kind = "action-approval" ∨ kind = "activation" then
    l.policy.streams.any fun s => s.producer == "council" && s.service == service
  else false

section
variable [SerdeJson] [Sha256]

def readStored (l : ActionLedger) (fact : Claim) : Result Stored := do
  let value ← canonicalRecord (utf8 fact.value)
  checkScope value l.policy.scope.value
  let evidence ← orInvalid fact.evidence
  let receivedAt ← number evidence["received_at"]
  .ok ⟨value, fact.seq, receivedAt⟩

/-- The artifacts and the events among the facts at a head. -/
def snapshot (l : ActionLedger) (head : ℕ) (facts : List Claim) :
    Result (List Stored × List Stored) := do
  require (head ≤ MAX)
  let rows ← (facts.filter fun f => f.subject == ARTIFACTS || f.subject == EVENTS).mapM
    fun f => (l.readStored f).map fun stored => (f.subject, stored)
  .ok ((rows.filter fun r => r.1 == ARTIFACTS).map Prod.snd,
    (rows.filter fun r => r.1 != ARTIFACTS).map Prod.snd)

def archived (digest kind : String) (position : ℕ) : Json := .object
  [("digest", .str digest), ("ledger_position", .int position), ("record_type", .str kind)]

def judgeArchive (l : ActionLedger) (a : ActionAdmission) (raw : Bytes) (value : Json)
    (kind digest : String) (head : ℕ) (facts : List Claim) : Result (Verdict Json) := do
  let (artifacts, _) ← l.snapshot head facts
  match ← matchArchive kind value artifacts with
  | some old => .ok (.reply (archived digest kind old.seq))
  | none =>
      validateArchive value artifacts
      let content ← orInvalid (fromUtf8 raw)
      let evidence := Json.object [("artifact_digest", .str digest), ("received_at", .int a.now),
        ("recorder", a.identity.toJson), ("service", .str a.service)]
      .ok (.append { NewClaim.fact ARTIFACTS digest content with evidence := some evidence }
        fun stored => .ok (archived digest kind stored.seq))

/-- Who may bring an event: its stream's service, or for an earlier generation a recorder
with a permit for this very event. -/
def eventAdmission (l : ActionLedger) (a : ActionAdmission) (event : Json) (digest : String) :
    Result (Option RecoveryPermit) := do
  let id ← text event["stream"]["id"]
  let stream ← orDenied (l.policy.stream id)
  let generation ← number event["source_generation"]
  allow (event["producer"] == .str stream.producer)
  let kind ← text event["kind"]
  allow (decide (kind ∈ stream.kinds))
  if generation = stream.generation then do
    allow (a.service == stream.service)
    .ok none
  else do
    let permit ← orDenied (l.policy.recovery.find? fun p => p.recorder == a.service &&
      p.eventDigest == digest && p.streamId == stream.streamId && p.generation == generation &&
      p.producer == stream.producer && event["kind"] == .str p.kind &&
      ((number event["occurred_at"]).toOption.any fun n => decide (n ≤ p.cutoff)) &&
      event["payload"]["claim"]["id"] == .str p.claimId)
    .ok (some permit)

def acknowledgement (l : ActionLedger) (event : Json) (position receivedAt : ℕ) :
    Result Json := do
  let digest ← eventDigest event
  .ok (.object [("schema_version", .int 1), ("type", .str "event-ack"),
    ("profile", .str PROFILE), ("scope", l.policy.scope.value),
    ("event_id", event["event_id"]), ("event_digest", .str digest),
    ("payload_digest", event["payload_digest"]),
    ("ledger", .object [("scope", l.policy.scope.value), ("kind", .str "ledger"),
      ("id", .str l.version)]),
    ("position", .int position), ("received_at", .int receivedAt)])

def activationPrerequisites (event : Json) (artifacts : List Stored) : Result Unit := do
  let receipt := event["payload"]["receipt"]
  let transition ← orInvalid (artifacts.find? fun a => a.value["type"] == .str "activation" &&
    a.value["transition"] == receipt["transition"])
  let digest ← actionDigest "activation" transition.value
  require (receipt["transition_digest"] == .str digest &&
    ["prior_epoch", "successor_epoch", "artifact_set_digest", "participant_set_digest"].all
      fun k => receipt[k] == transition.value[k])

/-- What an event of a kind that follows a claim has to agree with. -/
def stepPrerequisites (l : ActionLedger) (kind : String) (payload request : Json)
    (events : List Stored) : Result Unit :=
  if kind = "consumption-reserved" then do
    let reservations ← orInvalid payload["reservations"].asArray
    checkReservations request [] reservations
  else if kind = "predispatch" then do
    let consumed ← priorEvent "consumption-reserved" payload events
    let digest ← eventDigest consumed.value
    require (payload["consumption_event_digest"] == .str digest)
  else if kind = "send-intent" then do
    let predispatch ← priorEvent "predispatch" payload events
    let ack ← l.acknowledgement predispatch.value predispatch.seq predispatch.receivedAt
    let consumed ← priorEvent "consumption-reserved" payload events
    let digest ← actionDigest "event-ack" ack
    require (payload["predispatch_ack_digest"] == .str digest &&
      payload["worker"] == consumed.value["payload"]["worker"] &&
      payload["worker_fence"] == consumed.value["payload"]["worker_fence"] &&
      payload["target"] == request["intent"]["target"] &&
      payload["effect_key"] == request["operation"]["id"])
  else if kind = "outcome" then do
    let sent ← priorEvent "send-intent" payload events
    require (payload["invocation"] == sent.value["payload"]["invocation"] &&
      payload["effect_key"] == sent.value["payload"]["effect_key"])
  else if kind = "reconciliation" then do
    let prior ← orInvalid (events.find? fun e => (e.value["kind"] == .str "outcome" ||
        e.value["kind"] == .str "reconciliation") && sameAttempt e.value["payload"] payload &&
      (eventDigest e.value).toOption.any fun d => payload["prior_outcome_digest"] == .str d)
    require (payload["effect_key"] == prior.value["payload"]["effect_key"])
  else .error invalidAction

/-- An event that names a grant names the one its attempt was issued. -/
def checkGrant (payload : Json) (events : List Stored) : Result Unit :=
  if (payload.get "grant").isSome then do
    let grant ← priorEvent "grant-issued" payload events
    require (payload["grant"] == grant.value["payload"]["grant"])
  else .ok ()

def followPrerequisites (l : ActionLedger) (kind : String) (payload request : Json)
    (events : List Stored) : Result Unit := do
  let claim ← priorEvent "claim-created" payload events
  require (payload["claim"] == claim.value["payload"]["claim"])
  if kind = "grant-issued" then .ok ()
  else do
    checkGrant payload events
    l.stepPrerequisites kind payload request events

def prerequisites (l : ActionLedger) (event : Json) (artifacts events : List Stored) :
    Result Unit := do
  let payload := event["payload"]
  if event["family"] = .str "activation" then activationPrerequisites event artifacts
  else do
    let request ← requestFor payload artifacts
    require (payload["activation_epoch"] == request["context"]["activation"]["revision"] &&
      payload["recovery_epoch"] == request["context"]["recovery"]["revision"])
    let kind ← text event["kind"]
    if kind = "approval-recorded" then do
      let approval ← artifactFor "action-approval" payload artifacts
      require (approval["approval"] == payload["approval"])
      let digest ← actionDigest "action-approval" approval
      require (payload["approval_digest"] == .str digest)
    else if kind = "claim-created" then do
      let _ ← priorEvent "approval-recorded" payload events
      require (payload["grant_binding_digest"] == payload["request_digest"])
    else l.followPrerequisites kind payload request events

/-- A recovered event is the permitted claim, or follows it in its attempt. -/
def checkRecovery (event : Json) (digest : String) (events : List Stored) :
    Option RecoveryPermit → Result Unit
  | none => .ok ()
  | some permit =>
      if event["kind"] = .str "claim-created" then allow (permit.claimEventDigest == digest)
      else allow (events.any fun e => e.value["kind"] == .str "claim-created" &&
        ((eventDigest e.value).toOption.any (· == permit.claimEventDigest)) &&
        sameAttempt e.value["payload"] event["payload"])

def judgeAppend (l : ActionLedger) (a : ActionAdmission) (raw : Bytes) (event : Json)
    (digest : String) (recovery : Option RecoveryPermit) (head : ℕ) (facts : List Claim) :
    Result (Verdict Json) := do
  let (artifacts, events) ← l.snapshot head facts
  match ← matchEvents event none events with
  | .inl old => do
      let ack ← l.acknowledgement event old.seq old.receivedAt
      .ok (.reply ack)
  | .inr last => do
      checkSequence event last
      l.prerequisites event artifacts events
      checkRecovery event digest events recovery
      let id ← text event["event_id"]
      let content ← orInvalid (fromUtf8 raw)
      let evidence := Json.object [("event_digest", .str digest), ("received_at", .int a.now),
        ("recorder", a.identity.toJson), ("recorder_service", .str a.service),
        ("original_producer", event["producer"]), ("historical", .bool recovery.isSome)]
      .ok (.append { NewClaim.fact EVENTS id content with evidence := some evidence }
        fun stored => l.acknowledgement event stored.seq a.now)

variable [ActionSchema]

def prepareArchive (l : ActionLedger) (a : ActionAdmission) (raw : Bytes) :
    Result (Json × String × String) := do
  l.authorize a true
  let value ← canonicalRecord raw
  validateActionRecord value
  checkScope value l.policy.scope.value
  let kind ← text value["type"]
  allow (l.archiveOwner a.service kind)
  let digest ← actionDigest kind value
  .ok (value, kind, digest)

def prepareAppend (l : ActionLedger) (a : ActionAdmission) (raw : Bytes) :
    Result (Json × String × Option RecoveryPermit) := do
  l.authorize a true
  let event ← canonicalRecord raw
  validateActionRecord event
  require (event["type"] == .str "accountability-event")
  checkScope event l.policy.scope.value
  let digest ← eventDigest event
  let recovery ← l.eventAdmission a event digest
  .ok (event, digest, recovery)

variable [Platform] [IdGenerator]

def archive (l : ActionLedger) (a : ActionAdmission) (raw : Bytes) :
    Shared State (Result Json) :=
  onOk (fun (value, kind, digest) =>
      retryAtHead l.version (.storage "platform action archive contention")
        (l.judgeArchive a raw value kind digest) 32)
    (l.prepareArchive a raw)

def append (l : ActionLedger) (a : ActionAdmission) (raw : Bytes) :
    Shared State (Result Json) :=
  onOk (fun (event, digest, recovery) =>
      retryAtHead l.version (.storage "platform action event contention")
        (l.judgeAppend a raw event digest recovery) 32)
    (l.prepareAppend a raw)

end
end ActionLedger
end PlatformAction
end Munarium
