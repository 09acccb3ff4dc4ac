import Munarium.Core.Governance
import Munarium.Platform.Record
import Munarium.Std.Separated

/-! The platform's governance authority: signed transitions of one state, each with a
receipt, from an operator's enrollment on. Base64, Ed25519 and JSON are parameters. -/
namespace Munarium

/-- The URL-safe engine without padding. -/
class Base64 where
  encode : Bytes → String
  decode : String → Option Bytes

/-- Which bytes are verifying keys, which of those are weak, and strict verification of a
signature on a message. -/
class Ed25519 where
  isKey : Bytes → Bool
  isWeak : Bytes → Bool
  verifyStrict : Bytes → Bytes → Bytes → Bool

namespace PlatformAuthority
open PlatformRecord (canonicalRecord recordDigest)

def MAX_INTEGER : ℕ := 9007199254740991

def denied : KernelError := .forbidden "platform governance authority refused"

def invalidAuthority : KernelError := .invalidInput "invalid platform authority record"

def orDenied {α : Type} : Option α → Result α
  | some a => .ok a
  | none => .error denied

def orInvalid {α : Type} : Option α → Result α
  | some a => .ok a
  | none => .error invalidAuthority

def identifier (s : String) : Bool :=
  s != "" && decide (s.utf8ByteSize ≤ 128) &&
    s.toList.all fun c => c.isAlphanum || ":._/-".toList.contains c

/-- `i64::checked_sub`. -/
def checkedSub (a b : ℤ) : Option ℤ :=
  if -2 ^ 63 ≤ a - b ∧ a - b < 2 ^ 63 then some (a - b) else none

def asU8 (v : Json) : Option ℕ := v.asU64.filter (· < 256)

/-- `BTreeSet<String>`: a map to nothing, as the library has it. -/
abbrev TextSet := SortedMap String Unit

def TextSet.texts (s : TextSet) : List String := s.entries.map Prod.fst

/-- An operator-enrolled signer. -/
structure AuthorityKey where
  publicKey : String
  issuer : String
  presenter : String
  subjects : TextSet
  deriving DecidableEq

def AuthorityKey.toJson (k : AuthorityKey) : Json := .object
  [("public_key", .str k.publicKey), ("issuer", .str k.issuer),
    ("presenter", .str k.presenter), ("subjects", .arr (k.subjects.texts.map .str))]

abbrev Keys := SortedMap String AuthorityKey

def Keys.toJson (keys : Keys) : Json := .obj (keys.entries.map fun e => (e.1, e.2.toJson))

structure AuthorityConfig where
  deployment : String
  tenant : String
  audience : String
  epoch : ℕ
  bootstrapKeys : Keys
  deriving DecidableEq

def AuthorityConfig.toJson (c : AuthorityConfig) : Json := .object
  [("deployment", .str c.deployment), ("tenant", .str c.tenant), ("audience", .str c.audience),
    ("epoch", .int c.epoch), ("bootstrap_keys", c.bootstrapKeys.toJson)]

structure GovernanceArtifact where
  schemaVersion : ℕ
  bindings : SortedMap String Json
  retireBootstrap : Bool
  successorKeys : Keys

def GovernanceArtifact.toJson (a : GovernanceArtifact) : Json := .object
  [("schema_version", .int a.schemaVersion), ("bindings", .obj a.bindings.entries),
    ("retire_bootstrap", .bool a.retireBootstrap), ("successor_keys", a.successorKeys.toJson)]

/-- A signed transition's payload. -/
structure AuthorityAttestation where
  schemaVersion : ℕ
  deployment : String
  tenant : String
  audience : String
  issuer : String
  subject : String
  subjectKind : String
  action : String
  artifactDigest : String
  expectedRevision : String
  expectedHead : ℕ
  epoch : ℕ
  nonce : String
  iat : ℤ
  nbf : ℤ
  exp : ℤ

def AuthorityAttestation.decode (v : Json) : Option AuthorityAttestation :=
  match decodeStruct ["schema_version", "deployment", "tenant", "audience", "issuer", "subject",
      "subject_kind", "action", "artifact_digest", "expected_revision", "expected_head",
      "epoch", "nonce", "iat", "nbf", "exp"] v with
  | some [version, .str deployment, .str tenant, .str audience, .str issuer, .str subject,
      .str subjectKind, .str action, .str artifactDigest, .str expectedRevision, expectedHead,
      epoch, .str nonce, iat, nbf, exp] => do
      let version ← asU8 version
      let expectedHead ← expectedHead.asU64
      let epoch ← epoch.asU64
      let iat ← iat.asI64
      let nbf ← nbf.asI64
      let exp ← exp.asI64
      some ⟨version, deployment, tenant, audience, issuer, subject, subjectKind, action,
        artifactDigest, expectedRevision, expectedHead, epoch, nonce, iat, nbf, exp⟩
  | _ => none

structure Header where
  alg : String
  kid : String
  typ : String

def Header.decode (v : Json) : Option Header :=
  match decodeStruct ["alg", "kid", "typ"] v with
  | some [.str alg, .str kid, .str typ] => some ⟨alg, kid, typ⟩
  | _ => none

/-- The independently retained minimum of an authority's state. -/
structure AuthorityFence where
  deployment : String
  tenant : String
  epoch : ℕ
  minimumHead : ℕ
  bootstrapRetired : Bool

structure AuthorityAdmission where
  tenant : String
  peerService : String
  now : ℤ
  fence : AuthorityFence

structure AuthorityState where
  config : AuthorityConfig
  head : ℕ
  revision : String
  bootstrapRetired : Bool
  governingKeys : Keys
  artifact : Option GovernanceArtifact

structure AuthorityReceipt where
  deployment : String
  tenant : String
  epoch : ℕ
  nonce : String
  attestationDigest : String
  artifactDigest : String
  priorRevision : String
  revision : String
  head : ℕ
  subject : String
  issuer : String
  keyId : String
  presenter : String
  bootstrapRetired : Bool

def AuthorityState.checkFence (s : AuthorityState) (fence : AuthorityFence) : Result Unit :=
  if fence.deployment ≠ s.config.deployment ∨ fence.tenant ≠ s.config.tenant ∨
      fence.epoch ≠ s.config.epoch ∨ s.head < fence.minimumHead ∨
      fence.bootstrapRetired ∧ ¬s.bootstrapRetired then .error denied
  else .ok ()

section
variable [Base64]

/-- Strict decoding: the text is the encoding of its bytes. -/
def decode (s : String) : Result Bytes := do
  let bytes ← orDenied (Base64.decode s)
  if Base64.encode bytes ≠ s then .error denied else .ok bytes

variable [Ed25519]

def AuthorityKey.validate (k : AuthorityKey) : Result Unit := do
  let raw ← decode k.publicKey
  if raw.length ≠ 32 ∨ ¬Ed25519.isKey raw then .error invalidAuthority
  else if Ed25519.isWeak raw ∨ ¬identifier k.issuer ∨ ¬identifier k.presenter ∨
      k.subjects.texts.isEmpty ∨ 128 < k.subjects.texts.length ∨
      k.subjects.texts.any (fun s => !identifier s) then .error invalidAuthority
  else .ok ()

/-- Each key is valid, under an identifier and with a public key no earlier one has. -/
def validateEach : List String → List (String × AuthorityKey) → Result Unit
  | _, [] => .ok ()
  | seen, (id, key) :: rest =>
      if ¬identifier id ∨ key.publicKey ∈ seen then .error invalidAuthority
      else do
        key.validate
        validateEach (key.publicKey :: seen) rest

def validateKeys (keys : Keys) : Result Unit :=
  if keys.entries.isEmpty ∨ 32 < keys.entries.length then .error invalidAuthority
  else validateEach [] keys.entries

def AuthorityConfig.validate (c : AuthorityConfig) : Result Unit :=
  if ¬identifier c.deployment ∨ ¬identifier c.tenant ∨ ¬identifier c.audience ∨
      c.epoch = 0 ∨ MAX_INTEGER < c.epoch then .error invalidAuthority
  else validateKeys c.bootstrapKeys

variable [SerdeJson] [Sha256]

/-- The digest of a whole artifact whose shape is right. -/
def GovernanceArtifact.digest (a : GovernanceArtifact) : Result String :=
  if a.schemaVersion ≠ 1 ∨ 256 < a.bindings.entries.length ∨
      a.bindings.entries.any (fun e => !identifier e.1) then .error invalidAuthority
  else do
    if a.retireBootstrap then validateKeys a.successorKeys
    else if a.successorKeys.entries.isEmpty then .ok ()
    else .error invalidAuthority
    recordDigest "munarium:governance-artifact:v1" a.toJson

def AuthorityState.enrolled (config : AuthorityConfig) : Result AuthorityState := do
  config.validate
  let revision ← recordDigest "munarium:authority-enrollment:v1" config.toJson
  .ok ⟨config, 0, revision, false, .empty, none⟩

/-- A part of a signed text, decoded to the record it carries. -/
def readPart {α : Type} (read : Json → Option α) (failed : KernelError) (part : String) :
    Result α := do
  let bytes ← decode part
  let value ← canonicalRecord bytes
  match read value with
  | some a => .ok a
  | none => .error failed

def attestationDigest (signed : String) : Result String :=
  recordDigest "munarium:authority-attestation:v1" (.object [("jws", .str signed)])

/-- A receipt is read again by the presenter it was given to, for the same request. -/
def replay (s : AuthorityState) (a : AuthorityAdmission) (payload : AuthorityAttestation)
    (attestation artifact : String) (prior : AuthorityReceipt) :
    Result (AuthorityState × AuthorityReceipt) :=
  if prior.nonce ≠ payload.nonce ∨ prior.tenant ≠ a.tenant ∨
      prior.presenter ≠ a.peerService then .error denied
  else if prior.attestationDigest ≠ attestation ∨ prior.artifactDigest ≠ artifact then
    .error .idempotencyMismatch
  else .ok (s, prior)

/-- The governing key that signed a text. -/
def signer (s : AuthorityState) (kid header payload signature : String) :
    Result AuthorityKey := do
  let key ← orDenied ((if s.bootstrapRetired then s.governingKeys
    else s.config.bootstrapKeys).get? kid)
  let raw ← decode key.publicKey
  if raw.length ≠ 32 ∨ ¬Ed25519.isKey raw then .error denied
  else do
    let bytes ← decode signature
    if Ed25519.verifyStrict raw (utf8 (header ++ "." ++ payload)) bytes then .ok key
    else .error denied

/-- The attestation is one this state takes from this presenter now. -/
def admits (s : AuthorityState) (a : AuthorityAdmission) (key : AuthorityKey)
    (p : AuthorityAttestation) (artifact : String) : Bool :=
  p.schemaVersion == 1 && p.deployment == s.config.deployment && p.tenant == s.config.tenant &&
    p.audience == s.config.audience && p.issuer == key.issuer &&
    key.subjects.texts.contains p.subject && p.subjectKind == "human" &&
    p.action == "install-governance" && p.epoch == s.config.epoch &&
    p.artifactDigest == artifact && key.presenter == a.peerService && identifier p.nonce &&
    decide (0 ≤ p.iat) && decide (p.iat ≤ a.now) && decide (p.iat ≤ p.nbf) &&
    decide (p.nbf ≤ a.now) && decide (a.now < p.exp) && decide (p.nbf < p.exp) &&
    (checkedSub p.exp p.iat).any (fun n => decide (n ≤ 300)) &&
    decide ((p.exp % 2 ^ 64).toNat ≤ MAX_INTEGER)

/-- The state an attestation moves to and the receipt of it. -/
def install (s : AuthorityState) (a : AuthorityAdmission) (p : AuthorityAttestation)
    (artifact : GovernanceArtifact) (kid attestation artifactDigest : String) :
    Result (AuthorityState × AuthorityReceipt) :=
  if p.expectedHead ≠ s.head then .error (.headConflict p.expectedHead s.head)
  else if p.expectedRevision ≠ s.revision then .error denied
  else if s.bootstrapRetired ∧ ¬artifact.retireBootstrap then .error denied
  else if artifact.successorKeys.values.any fun k =>
      s.config.bootstrapKeys.values.any fun old => old.publicKey == k.publicKey then
    .error denied
  else do
    let head ← orInvalid ((checkedAdd s.head 1).filter (· ≤ MAX_INTEGER))
    let retired := s.bootstrapRetired || artifact.retireBootstrap
    let revision ← recordDigest "munarium:authority-revision:v1" (.object
      [("prior", .str s.revision), ("head", .int head), ("attestation", .str attestation),
        ("artifact", .str artifactDigest)])
    .ok ({ s with
        head := head
        revision := revision
        bootstrapRetired := retired
        governingKeys := if retired then artifact.successorKeys else s.governingKeys
        artifact := some artifact },
      { deployment := s.config.deployment, tenant := s.config.tenant, epoch := s.config.epoch,
        nonce := p.nonce, attestationDigest := attestation, artifactDigest := artifactDigest,
        priorRevision := s.revision, revision := revision, head := head, subject := p.subject,
        issuer := p.issuer, keyId := kid, presenter := a.peerService,
        bootstrapRetired := retired })

/-- A verified transition, for storage under the lock that protects the state. -/
def transition (s : AuthorityState) (a : AuthorityAdmission) (signed : String)
    (artifact : GovernanceArtifact) (prior : Option AuthorityReceipt) :
    Result (AuthorityState × AuthorityReceipt) := do
  s.checkFence a.fence
  if a.tenant ≠ s.config.tenant ∨ 16384 < signed.utf8ByteSize then .error denied
  else
    match pieces '.' signed with
    | [header, payload, signature] => do
        let head ← readPart Header.decode denied header
        if head.alg ≠ "Ed25519" ∨ head.typ ≠ "munarium-authority+jws" then .error denied
        else do
          let p ← readPart AuthorityAttestation.decode denied payload
          let attestation ← attestationDigest signed
          let artifactDigest ← artifact.digest
          match prior with
          | some prior => replay s a p attestation artifactDigest prior
          | none => do
              let key ← signer s head.kid header payload signature
              if admits s a key p artifactDigest then
                install s a p artifact head.kid attestation artifactDigest
              else .error denied
    | _ => .error denied

/-- The nonce a text carries, for the lookup of a receipt. -/
def untrustedNonce (signed : String) : Result String :=
  if 16384 < signed.utf8ByteSize then .error invalidAuthority
  else
    match pieces '.' signed with
    | [_, payload, _] => do
        let p ← readPart AuthorityAttestation.decode invalidAuthority payload
        if identifier p.nonce then .ok p.nonce else .error invalidAuthority
    | _ => .error invalidAuthority

end
end PlatformAuthority
end Munarium
