import Mathlib.Data.Prod.Lex
import Munarium.Core.Gates

/-! Governance profiles: content-addressed comparison policies carried by the metadata of
memory versions, and how a child version's metadata is prepared from its parent's. -/
namespace Munarium

/-- What the kernel takes from other crates: the hexadecimal SHA-256 of a text, and the
decoder's wording of why a document does not have the expected shape. -/
class Platform where
  sha256Hex : String → String
  decodeMessage : Json → String

/-- Right about the digest of the empty policy, enough to run the model without one. -/
abbrev samplePlatform : Platform where
  sha256Hex text :=
    if text = "\x7b\"schema_version\":1,\"values\":[]\x7d" then
      "9066f416785a6ebfb43db32a871bbdbb7af4a0b24e83a2196468436a772f0f54"
    else text
  decodeMessage _ := "invalid type"

structure ValuePolicy where
  subject : String
  key : String
  comparison : String
  deriving DecidableEq

structure GovernancePolicy where
  schemaVersion : ℕ := 1
  values : List ValuePolicy := []
  deriving DecidableEq

def invalid {α : Type} (message : String) : Result α := .error (.invalidInput message)

/-- A struct that denies unknown fields, decoded from a map or from a sequence in
declaration order: the field values in that order. -/
def decodeStruct (names : List String) : Json → Option (List Json)
  | .obj fields =>
      if fields.all fun f => names.contains f.1 then names.mapM fun n => fields.lookup n
      else none
  | .arr items => if items.length = names.length then some items else none
  | _ => none

namespace ValuePolicy

def bindingKey (v : ValuePolicy) : String ×ₗ String := toLex (v.subject, v.key)

def claimKey (v : ValuePolicy) : String := claimKeyOf v.subject v.key

def toJson (v : ValuePolicy) : Json :=
  .object [("subject", .str v.subject), ("key", .str v.key), ("comparison", .str v.comparison)]

/-- Serialized text, fields in declaration order. -/
def toText (v : ValuePolicy) : String :=
  "\x7b\"subject\":" ++ Json.quote v.subject ++ ",\"key\":" ++ Json.quote v.key ++
    ",\"comparison\":" ++ Json.quote v.comparison ++ "\x7d"

def decode (j : Json) : Option ValuePolicy :=
  match decodeStruct ["subject", "key", "comparison"] j with
  | some [.str subject, .str key, .str comparison] => some ⟨subject, key, comparison⟩
  | _ => none

end ValuePolicy

/-- A subject or key a policy may name: nonempty, unpadded and dot-free. -/
def goodPart (part : String) : Bool :=
  part != "" && trim part == part && !part.toList.contains '.'

namespace GovernancePolicy

def validateValues (seen : List (String ×ₗ String)) : List ValuePolicy → Result Unit
  | [] => .ok ()
  | v :: rest =>
      if !(goodPart v.subject && goodPart v.key) then
        invalid "policy subject/key must be nonempty, unpadded and dot-free"
      else do
        let _ ← ComparisonPolicy.fromId v.comparison
        if seen.contains v.bindingKey then invalid "duplicate governance value binding"
        else validateValues (v.bindingKey :: seen) rest

def validate (p : GovernancePolicy) : Result Unit :=
  if p.schemaVersion ≠ 1 then invalid "unsupported governance schema"
  else validateValues [] p.values

def canonical (p : GovernancePolicy) : GovernancePolicy :=
  { p with values := p.values.insertionSort fun a b => a.bindingKey ≤ b.bindingKey }

def toText (p : GovernancePolicy) : String :=
  "\x7b\"schema_version\":" ++ toString p.schemaVersion ++ ",\"values\":[" ++
    join "," (p.values.map ValuePolicy.toText) ++ "]\x7d"

def toJson (p : GovernancePolicy) : Json :=
  .object [("schema_version", .int p.schemaVersion),
    ("values", .arr (p.values.map ValuePolicy.toJson))]

def decode (j : Json) : Option GovernancePolicy :=
  match decodeStruct ["schema_version", "values"] j with
  | some [.int n, .arr values] =>
      if 0 ≤ n ∧ n < 2 ^ 32 then
        (values.mapM ValuePolicy.decode).map fun vs => ⟨n.toNat, vs⟩
      else none
  | _ => none

def bindings : List ValuePolicy → Result (List (String × ComparisonPolicy))
  | [] => .ok []
  | v :: rest => do
      let comparison ← ComparisonPolicy.fromId v.comparison
      let others ← bindings rest
      .ok ((v.claimKey, comparison) :: others)

def comparisons (p : GovernancePolicy) : Result ComparisonPolicies := do
  p.validate
  let bound ← bindings p.values
  ComparisonPolicies.tryFromBindings bound

section
variable [Platform]

/-- The content address of a policy: bindings in key order, so their order is no part. -/
def revision (p : GovernancePolicy) : Result String := do
  p.validate
  .ok ("governance-v1:" ++ Platform.sha256Hex p.canonical.toText)

def fromMetadata (metadata : Option Json) : Result GovernancePolicy :=
  match metadata.bind (·.get "governance_policy") with
  | none => .ok {}
  | some value =>
      match decode value with
      | none => invalid ("invalid governance policy: " ++ Platform.decodeMessage value)
      | some policy => do
          policy.validate
          .ok policy

/-- Stored metadata that carries a policy must carry its revision as well. -/
def fromStoredMetadata (metadata : Option Json) : Result GovernancePolicy := do
  let policy ← fromMetadata metadata
  if (metadata.bind (·.get "governance_policy")).isSome then do
    let revision ← policy.revision
    if ((metadata.bind (·.get "governance_revision")).bind Json.asStr) = some revision then
      .ok policy
    else invalid "missing or inconsistent stored governance revision"
  else .ok policy

end
end GovernancePolicy

structure Transition where
  fromRevision : String
  expectedHead : ℕ
  reason : String

def Transition.decode (j : Json) : Option Transition :=
  match decodeStruct ["from_revision", "expected_head", "reason"] j with
  | some [.str fromRevision, .int head, .str reason] =>
      if 0 ≤ head ∧ head < 2 ^ 64 then some ⟨fromRevision, head.toNat, reason⟩ else none
  | _ => none

/-- The last other fact of the same key: only that one can be canon for the gates. -/
def peerOf (facts : List Claim) (fact : Claim) : Option Claim :=
  (facts.filter fun f => f.claimKey == fact.claimKey).reverse.find? fun f => f.id != fact.id

section
variable [Unicode]

/-- One fact of the parent against its peers under the next policy. -/
def assessFact (snapshot : MeshSnapshot) (policies : ComparisonPolicies) (fact : Claim) :
    Json :=
  let key := fact.claimKey
  let peers : MeshSnapshot := {
    facts := (peerOf snapshot.facts fact).toList
    anchors := match snapshot.anchors.get? key with
      | some a => SortedMap.empty.insert key a
      | none => .empty }
  let candidate : Candidate := {
    scopePath := fact.scopePath
    claims := [{ claimType := .fact, subject := fact.subject, key := fact.key,
                 value := fact.value, supersedesId := none }] }
  let findings := checkAnchorConsistencyWithPolicies peers candidate policies ++
    checkLedgerConflictWithPolicies peers candidate policies
  .object [("claim_id", .str fact.id), ("original_status", .str fact.status.text),
    ("findings", .arr (findings.map GateFinding.toJson))]

variable [Platform]

/-- A changed child policy needs the parent's current revision, a reason and the parent's
head; the assessment is computed here and never taken from the caller. -/
def assessTransition (transition : Option Json) (old next : GovernancePolicy)
    (snapshot : MeshSnapshot) : Result Json :=
  match transition with
  | none => invalid "policy change requires governance_transition"
  | some j =>
      match Transition.decode j with
      | none => invalid ("invalid governance transition: " ++ Platform.decodeMessage j)
      | some t => do
          let oldRevision ← old.revision
          if t.fromRevision ≠ oldRevision ∨ trim t.reason = "" then
            invalid "governance transition requires the current revision and a reason"
          else match snapshot.asOfSeq with
            | none => invalid "transition requires a pinned snapshot"
            | some actual =>
                if t.expectedHead ≠ actual then .error (.headConflict t.expectedHead actual)
                else do
                  let policies ← next.comparisons
                  let nextRevision ← next.revision
                  .ok (.object [("schema_version", .int 1),
                    ("kind", .str "comparison-transition-v1"),
                    ("from_revision", .str oldRevision), ("to_revision", .str nextRevision),
                    ("parent_version_id", .str snapshot.versionId), ("as_of_seq", .int actual),
                    ("claims", .arr (snapshot.facts.map (assessFact snapshot policies))),
                    ("anchors", .arr (snapshot.anchors.values.map fun a => .str a.id))])

/-- Metadata with the server-owned fields written in. -/
def governedMetadata (metadata : Option Json) (next : GovernancePolicy)
    (assessment : Option Json) : Result Json :=
  match (metadata.getD (.obj [])).asObject with
  | none => invalid "governed version metadata must be an object"
  | some fields => do
      let revision ← next.revision
      let fields := SortedMap.insertEntry "governance_policy" next.toJson fields
      let fields := SortedMap.insertEntry "governance_revision" (.str revision) fields
      match assessment with
      | some a => .ok (.obj (SortedMap.insertEntry "governance_assessment" a fields))
      | none => .ok (.obj fields)

/-- An explicit policy of the child, else the parent's. -/
def nextPolicy (metadata : Option Json) (old : GovernancePolicy) : Result GovernancePolicy :=
  if (metadata.bind (·.get "governance_policy")).isSome then
    GovernancePolicy.fromMetadata metadata
  else .ok old

/-- Only a changed policy of a child is assessed. -/
def assessChange (transition : Option Json) (old next : GovernancePolicy) (changed : Bool) :
    Option MeshSnapshot → Result (Option Json)
  | some snapshot =>
      if changed then (assessTransition transition old next snapshot).map some else .ok none
  | none => .ok none

/-- Normalize the metadata of a version inside its creation. -/
def prepareVersionMetadata (metadata parentMetadata : Option Json)
    (parent : Option MeshSnapshot) : Result (Option Json) :=
  if (metadata.bind (·.get "governance_assessment")).isSome ||
      (metadata.bind (·.get "governance_revision")).isSome then
    invalid "governance revision and assessment are server-owned"
  else do
    let old ← GovernancePolicy.fromStoredMetadata parentMetadata
    let next ← nextPolicy metadata old
    let oldRevision ← old.revision
    let nextRevision ← next.revision
    let changed := oldRevision != nextRevision
    let transition := metadata.bind (·.get "governance_transition")
    if transition.isSome && (parent.isNone || !changed) then
      invalid "governance transition requires a changed child policy"
    else do
      let assessment ← assessChange transition old next changed parent
      let explicit := (metadata.bind (·.get "governance_policy")).isSome
      let inherited := (parentMetadata.bind (·.get "governance_policy")).isSome
      if !explicit && !inherited && transition.isNone then .ok metadata
      else (governedMetadata metadata next assessment).map some

end

/-- Companion record of a governed version for the findings transport. -/
def policyFinding (versionId : String) (metadata : Option Json) : Option GateFinding :=
  metadata.bind fun m => (m.get "governance_policy").map fun policy => {
    ruleId := "governance.policy-revision"
    severity := .info
    message := "Immutable governance profile and transition assessment"
    scopePath := none
    detail := some (.object [("version_id", .str versionId), ("governance_policy", policy),
      ("governance_revision", (m.get "governance_revision").getD .null),
      ("transition", (m.get "governance_transition").getD .null),
      ("assessment", (m.get "governance_assessment").getD .null)]) }

end Munarium
