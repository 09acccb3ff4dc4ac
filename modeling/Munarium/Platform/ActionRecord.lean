import Mathlib.Data.Finset.Card
import Mathlib.Data.Finset.Sort
import Munarium.Platform.EventLedger

/-! Platform action records: the policy that governs their ledger, and the checks of each
kind of record. The pinned schema is a parameter; authority and stored prerequisites are
checked elsewhere. -/
namespace Munarium

/-- Validity under the pinned action schema. -/
class ActionSchema where
  isValid : Json → Bool

/-- A reference to a stream of a scope. -/
def streamRef (scope : Json) (id : String) : Json :=
  .object [("scope", scope), ("kind", .str "stream"), ("id", .str id)]

/-- The part of the schema that names an event's stream: a closed object of three fields. -/
class StreamSchema [ActionSchema] : Prop where
  stream : ∀ v, ActionSchema.isValid v = true → v["type"] = .str "accountability-event" →
    ∃ scope id, v["stream"] = streamRef scope id

namespace PlatformAction
open PlatformRecord (MAX hash canonicalRecord recordDigest)

def PROFILE : String := "stage2-single-cell-v1"

def invalidAction : KernelError := .invalidInput "invalid platform action record"

def deniedAction : KernelError := .forbidden "platform action record authority refused"

def require (holds : Bool) : Result Unit := if holds then .ok () else .error invalidAction

def orInvalid {α : Type} : Option α → Result α
  | some a => .ok a
  | none => .error invalidAction

def allow (holds : Bool) : Result Unit := if holds then .ok () else .error deniedAction

def orDenied {α : Type} : Option α → Result α
  | some a => .ok a
  | none => .error deniedAction

def text (value : Json) : Result String := orInvalid value.asStr

def number (value : Json) : Result ℕ := orInvalid (value.asU64.filter (· ≤ MAX))

theorem require_ok {b : Bool} (h : require b = .ok ()) : b = true := by
  unfold require at h
  split_ifs at h with hb
  exact hb

theorem allow_ok {b : Bool} (h : allow b = .ok ()) : b = true := by
  unfold allow at h
  split_ifs at h with hb
  exact hb

theorem orInvalid_ok {α : Type} {o : Option α} {a : α} (h : orInvalid o = .ok a) :
    o = some a := by
  cases o with
  | none => cases h
  | some b =>
    cases h
    rfl

theorem text_ok {v : Json} {s : String} (h : text v = .ok s) : v = .str s := by
  have hstr := orInvalid_ok h
  cases v with
  | str t =>
    cases hstr
    rfl
  | _ => cases hstr

theorem text_str (s : String) : text (.str s) = .ok s := rfl

theorem number_ok {v : Json} {n : ℕ} (h : number v = .ok n) : v.asU64 = some n ∧ n ≤ MAX := by
  have hnum := orInvalid_ok h
  rw [Option.filter_eq_some_iff] at hnum
  exact ⟨hnum.1, by simpa using hnum.2⟩

def identifier (value : String) : Bool :=
  match value.toList with
  | [] => false
  | c :: cs => decide (value.utf8ByteSize ≤ 128) && c.isAlphanum &&
      (c :: cs).all fun c => c.isAlphanum || ":._/-".toList.contains c

structure Scope where
  domain : String
  tenant : String
  deployment : String
  cell : String
  deriving DecidableEq

def Scope.value (s : Scope) : Json := .object [("domain", .str s.domain),
  ("tenant", .str s.tenant), ("deployment", .str s.deployment), ("cell", .str s.cell)]

def Scope.valid (s : Scope) : Bool :=
  [s.domain, s.tenant, s.deployment, s.cell].all identifier

structure StreamRegistration where
  streamId : String
  producer : String
  service : String
  generation : ℕ
  kinds : Finset String

/-- A separately ratified assertion about one retained event of an earlier generation. -/
structure RecoveryPermit where
  recorder : String
  producer : String
  streamId : String
  generation : ℕ
  kind : String
  eventDigest : String
  claimId : String
  claimEventDigest : String
  cutoff : ℕ

structure ActionPolicy where
  schemaVersion : ℕ
  profile : String
  scope : Scope
  streams : List StreamRegistration
  readers : Finset String
  recovery : List RecoveryPermit

def producerAllowed (kind producer : String) : Bool :=
  if kind = "approval-recorded" then producer == "council"
  else if kind = "grant-issued" then producer == "warden"
  else if kind ∈ ["claim-created", "consumption-reserved", "predispatch", "send-intent",
      "outcome", "reconciliation"] then producer == "gate"
  else if kind = "activation-applied" then
    ["gate", "registry", "server", "warden"].contains producer
  else false

def recoverable (kind : String) : Bool :=
  ["claim-created", "grant-issued", "consumption-reserved", "predispatch", "send-intent",
    "outcome", "reconciliation"].contains kind

def ActionPolicy.stream (p : ActionPolicy) (id : String) : Option StreamRegistration :=
  p.streams.find? fun s => s.streamId == id

def StreamRegistration.valid (s : StreamRegistration) : Bool :=
  identifier s.streamId && identifier s.service && s.generation != 0 &&
    decide (s.generation ≤ MAX) && decide (s.kinds ≠ ∅) &&
    decide (∀ kind ∈ s.kinds, producerAllowed kind s.producer = true)

def ActionPolicy.permits (p : ActionPolicy) (r : RecoveryPermit) : Bool :=
  match p.stream r.streamId with
  | none => false
  | some s => identifier r.recorder && identifier r.claimId && r.producer == s.producer &&
      r.generation != 0 && decide (r.generation < s.generation) && decide (r.kind ∈ s.kinds) &&
      recoverable r.kind && hash r.eventDigest && hash r.claimEventDigest &&
      decide (r.cutoff ≤ MAX)

def ActionPolicy.validate (p : ActionPolicy) : Result Unit := do
  allow (p.schemaVersion == 1 && p.profile == PROFILE && p.scope.valid && !p.streams.isEmpty &&
    decide (p.streams.length ≤ 128) && decide (p.readers.card ≤ 32) &&
    decide (∀ r ∈ p.readers, identifier r = true) && decide (p.recovery.length ≤ 256))
  allow (p.streams.all (·.valid) && decide (p.streams.map (·.streamId)).Nodup)
  allow (p.recovery.all p.permits &&
    decide (p.recovery.map fun r => (r.recorder, r.eventDigest)).Nodup)

/-- What the receiving adapter has verified of its caller. -/
structure ActionAdmission where
  identity : RecorderIdentity
  service : String
  tenant : String
  deployment : String
  now : ℕ
  canRecord : Bool
  canRead : Bool

mutual
/-- No scope at any depth differs from the given one. -/
def scopesWithin (scope : Json) : Json → Bool
  | .obj fields => ((fields.lookup "scope").all (· == scope)) && fieldsWithin scope fields
  | .arr items => itemsWithin scope items
  | _ => true

def itemsWithin (scope : Json) : List Json → Bool
  | [] => true
  | x :: xs => scopesWithin scope x && itemsWithin scope xs

def fieldsWithin (scope : Json) : List (String × Json) → Bool
  | [] => true
  | (_, x) :: xs => scopesWithin scope x && fieldsWithin scope xs
end

theorem fieldsWithin_lookup {scope x : Json} {fields : List (String × Json)} {k : String}
    (h : fieldsWithin scope fields = true) (hx : fields.lookup k = some x) :
    scopesWithin scope x = true := by
  induction fields with
  | nil => cases hx
  | cons f rest ih =>
    simp only [fieldsWithin, Bool.and_eq_true] at h
    rw [List.lookup_cons] at hx
    split at hx
    · cases hx
      exact h.1
    · exact ih h.2 hx

/-- A member of what stays in a scope stays in it. -/
theorem scopesWithin_index {scope v : Json} (h : scopesWithin scope v = true) (k : String) :
    scopesWithin scope v[k] = true := by
  show scopesWithin scope ((v.get k).getD .null) = true
  cases hget : v.get k with
  | none => simp [scopesWithin]
  | some x =>
    cases v with
    | obj fields =>
      simp only [scopesWithin, Bool.and_eq_true] at h
      exact fieldsWithin_lookup h.2 hget
    | _ => cases hget

theorem scope_of_within {scope v x : Json} (h : scopesWithin scope v = true)
    (hx : v.get "scope" = some x) : x = scope := by
  cases v with
  | obj fields =>
    simp only [scopesWithin, Bool.and_eq_true] at h
    have hall := h.1
    rw [Json.get_obj] at hx
    rw [hx, Option.all_some, beq_iff_eq] at hall
    exact hall
  | _ => cases hx

def checkScope (value scope : Json) : Result Unit := allow (scopesWithin scope value)

/-- The profile the pinned bundle carries. -/
def profileRecord : Json := .object
  [("schema_version", .int 1), ("profile", .str "stage2-single-cell-v1"),
    ("status", .str "candidate-not-qualified"), ("executable_authority", .bool false),
    ("canonicalization", .str "decision-json-v1"),
    ("digest_prefix", .str "munarium:stage2:"),
    ("capability_operation", .str "release.publish_approved_artifact"),
    ("approval_lifetime_seconds", .int 300), ("clock_uncertainty_seconds", .int 2),
    ("action_window_seconds", .int 3600), ("action_cap", .int 2),
    ("runtime_direction", .str "linux-postgresql-single-cell"),
    ("runtime_dependency_pins", .str "pending-intake"),
    ("participants", .arr [.str "gate", .str "registry", .str "server", .str "warden"]),
    ("action_event_owners", .object [("approval-recorded", .str "council"),
      ("claim-created", .str "gate"), ("consumption-reserved", .str "gate"),
      ("grant-issued", .str "warden"), ("outcome", .str "gate"), ("predispatch", .str "gate"),
      ("reconciliation", .str "gate"), ("send-intent", .str "gate")])]

section
variable [SerdeJson] [Sha256]

def actionDigest (domain : String) (value : Json) : Result String :=
  recordDigest ("munarium:stage2:" ++ domain ++ ":v1") value

def validateRequest (value : Json) : Result Unit := do
  let intent ← actionDigest "intent" value["intent"]
  require (value["intent_digest"] == .str intent)
  let context ← actionDigest "context" value["context"]
  require (value["context_digest"] == .str context)
  let attachments ← orInvalid value["intent"]["attachments"].asArray
  let bytes ← attachments.foldlM
    (fun sum a => do
      let bytes ← number a["bytes"]
      orInvalid (checkedAdd sum bytes)) 0
  require (bytes ≤ 1048576)

def validateApproval (value : Json) : Result Unit := do
  let expires ← number value["expires_at"]
  let issued ← number value["issued_at"]
  require (decide (issued ≤ expires) && decide (0 < expires - issued) &&
    decide (expires - issued ≤ 300) && value["approver"]["kind"] == .str "human")

def validateActivation (value : Json) : Result Unit := do
  let artifacts ← orInvalid value["artifacts"].asArray
  let successor ← number value["successor_epoch"]
  let prior ← number value["prior_epoch"]
  require (prior < successor)
  let profile ← actionDigest "profile" profileRecord
  require (value["profile_digest"] == .str profile)
  require (artifacts.map fun a => a["kind"].asStr).Nodup
  let expires ← number value["expires_at"]
  let start ← number value["not_before"]
  require (start < expires)
  require (value["participants"] ==
    .arr [.str "gate", .str "registry", .str "server", .str "warden"])
  let set ← actionDigest "artifact-set" (.object [("artifacts", value["artifacts"])])
  require (value["artifact_set_digest"] == .str set)
  let participants ← actionDigest "participants"
    (.object [("participants", value["participants"])])
  require (value["participant_set_digest"] == .str participants)

def validateAccountability (value : Json) : Result Unit := do
  let kind ← text value["kind"]
  let activation := kind == "activation-applied"
  require (value["payload"]["kind"] == .str kind &&
    value["family"] == .str (if activation then "activation" else "action"))
  let payload ← actionDigest "event-payload" value["payload"]
  require (value["payload_digest"] == .str payload)
  require ((value["sequence"] == .int 1) == value["predecessor"].isNull)
  let producer ← text value["producer"]
  require (producerAllowed kind producer)
  require (!activation || value["payload"]["receipt"]["participant"] == value["producer"] &&
    value["payload"]["receipt"]["phase"] == .str "applied")
  require (!(["outcome", "reconciliation"].contains kind &&
    value["payload"]["effect_status"] != .str "unresolved" &&
    value["payload"]["evidence"].asArray.all (·.isEmpty)))

variable [ActionSchema]

/-- Shape and intrinsic digests. -/
def validateActionRecord (value : Json) : Result Unit := do
  let _ ← canonicalRecord (SerdeJson.toVec value)
  require (ActionSchema.isValid value)
  let kind ← text value["type"]
  if kind = "action-request" then validateRequest value
  else if kind = "action-approval" then validateApproval value
  else if kind = "activation" then validateActivation value
  else if kind = "accountability-event" then validateAccountability value
  else .ok ()

/-- Accountability checks are part of an event's validity. -/
theorem accountability_of_valid {v : Json} (h : validateActionRecord v = .ok ())
    (htype : v["type"] = .str "accountability-event") :
    ActionSchema.isValid v = true ∧ validateAccountability v = .ok () := by
  obtain ⟨value, -, h⟩ := bind_eq_ok.mp h
  obtain ⟨⟨⟩, hschema, h⟩ := bind_eq_ok.mp h
  obtain ⟨kind, hkind, h⟩ := bind_eq_ok.mp h
  have hsame := text_ok hkind
  rw [htype, Json.str.injEq] at hsame
  subst hsame
  exact ⟨require_ok hschema, h⟩

/-- What validity says of an event's kind. -/
theorem kind_of_valid {v : Json} (h : validateActionRecord v = .ok ())
    (htype : v["type"] = .str "accountability-event") :
    ∃ kind, v["kind"] = .str kind ∧ v["payload"]["kind"] = .str kind ∧
      v["family"] = .str (if kind = "activation-applied" then "activation" else "action") := by
  obtain ⟨-, h⟩ := accountability_of_valid h htype
  obtain ⟨kind, hkind, h⟩ := bind_eq_ok.mp h
  obtain ⟨⟨⟩, hagree, -⟩ := bind_eq_ok.mp h
  have hagree := require_ok hagree
  simp only [Bool.and_eq_true, beq_iff_eq] at hagree
  exact ⟨kind, text_ok hkind, hagree.1, hagree.2⟩

end
end PlatformAction
end Munarium
