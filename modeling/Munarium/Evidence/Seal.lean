import Munarium.Evidence.Store
import Munarium.Evidence.TextOrder

/-! `op_seal`, `op_put_bytes` and `op_commit` as steps between which any other client may
act: each waits after a store call, and the store of artifacts, the object store and the
requests in flight are one state. -/
namespace Munarium

structure CustomError where
  slug : String
  status : ℕ
  title : String
  detail : String
  deriving DecidableEq

namespace CustomError

def evidenceForbidden : CustomError where
  slug := "evidence-forbidden"
  status := 403
  title := "evidence not accessible"
  detail := "this session does not dominate the artifact's authorization class"

def evidenceNotCommitted (evidenceId : String) : CustomError where
  slug := "evidence-not-committed"
  status := 409
  title := "evidence not committed"
  detail := "evidence '" ++ evidenceId ++ "' has a manifest but no committed bytes; " ++
    "complete the grant flow before resolving it"

def evidenceHashMismatch (detail : String) : CustomError where
  slug := "evidence-hash-mismatch"
  status := 409
  title := "evidence hash mismatch"
  detail := detail

def evidenceGrantInvalid : CustomError where
  slug := "evidence-grant-invalid"
  status := 403
  title := "evidence grant invalid"
  detail := "the upload grant is unknown, expired, already used, or not for this artifact"

def evidenceTooLarge (bytes cap : ℕ) : CustomError where
  slug := "result-too-large"
  status := 413
  title := "result too large"
  detail := "artifact is " ++ toString bytes ++ " bytes, over the " ++ toString cap ++
    "-byte inline cap; seal it through " ++
    "the grant flow (POST /v1/evidence without bytes, then PUT .../bytes)"

end CustomError

inductive ApiError where
  | mesh (e : KernelError)
  | custom (e : CustomError)
  deriving DecidableEq

abbrev ApiResult := Except ApiError

structure AccessCtx where
  tenantId : String
  level : Int32
  compartments : List String
  allCompartments : Bool

structure EvidenceGrantDto where
  grantId : String
  expiresAt : String
  deriving DecidableEq

structure SealEvidenceResponse where
  evidenceId : String
  state : String
  created : Bool
  grant : Option EvidenceGrantDto
  deriving DecidableEq

structure CommitEvidenceResponse where
  evidenceId : String
  state : String
  committed : Bool
  deriving DecidableEq

def INLINE_SEAL_MAX_BYTES : ℕ := 1024 * 1024

def GRANT_TTL_SECS : ℤ := 900

def newEvidenceId (uuid : Bytes) : String := "ev-" ++ hexEncode uuid

def newGrantId (uuid : Bytes) : String := "gr-" ++ hexEncode uuid

/-- How `to_rfc3339_opts(Millis, true)` writes. -/
def serverShape : Shape := ⟨.upperT, 3, .upperZ⟩

deriving instance DecidableEq for Shape

/-- The second text is the first clock reading moved on by the grant's lifetime. -/
def grantExpiry (now expires : String) : Bool :=
  match parseFromRfc3339 now, parseFromRfc3339 expires with
  | some t, some u => decide (t.shape = serverShape ∧ u.shape = serverShape ∧
      u.instant = toLex ((ofLex t.instant).1 + GRANT_TTL_SECS, (ofLex t.instant).2))
  | _, _ => false

def AuthorizationClass.admits (a : AuthorizationClass) (access : AccessCtx) : Bool :=
  a.dominatedBy access.level access.compartments access.allCompartments

/-- The manifest as `serde` read it, or its complaint. -/
def parseManifest (raw : Except String EvidenceManifest) (access : AccessCtx) :
    ApiResult EvidenceManifest :=
  match raw with
  | .error e => .error (.mesh (.invalidInput ("manifest is invalid: " ++ e)))
  | .ok m =>
      match m.validate with
      | .error e => .error (.mesh e)
      | .ok () =>
          if m.tenant ≠ access.tenantId then
            .error (.mesh (.invalidInput ("manifest declares tenant '" ++ m.tenant ++
              "' but the token is scoped to '" ++ access.tenantId ++ "'")))
          else if m.authorizationClass.admits access then .ok { m with evidenceId := none }
          else .error (.custom .evidenceForbidden)

section
variable [Sha256]

def verifyBytes (m : EvidenceManifest) (bytes : Bytes) : ApiResult Unit :=
  let actual := "sha256:" ++ sha256Hex bytes
  if (bytes.length : ℤ) ≠ m.bytesLen then
    .error (.custom (.evidenceHashMismatch ("manifest declares bytes_len " ++
      toString m.bytesLen ++ " but " ++ toString bytes.length ++ " bytes arrived")))
  else if actual ≠ m.artifactHash then
    .error (.custom (.evidenceHashMismatch ("artifact_hash mismatch: manifest declares " ++
      m.artifactHash ++ ", the bytes hash to " ++ actual)))
  else .ok ()

end

/-- The key an artifact's bytes are stored under on behalf of a tenant. -/
def EvidenceArtifact.keyFor (a : EvidenceArtifact) (tenant : String) : Result SourceKey :=
  SourceKey.create tenant a.blobPath (trimHash a.manifest.artifactHash)

inductive Answer where
  | refused (e : ApiError)
  | sealed (tenant : String) (response : SealEvidenceResponse)
  | stored
  | committed (tenant : String) (response : CommitEvidenceResponse)
  deriving DecidableEq

/-- The store call a request waits for, with what it has read so far. -/
inductive SealPhase where
  | inlinePut (a : EvidenceArtifact) (k : SourceKey) (bytes : Bytes)
  | inlineRegister (a : EvidenceArtifact)
  | inlineRead (tenant evidenceId : String)
  | grantRegister (a : EvidenceArtifact) (g : EvidenceGrant)
  | putConsume (a : EvidenceArtifact) (tenant evidenceId grantId : String) (bytes : Bytes)
  | putStore (a : EvidenceArtifact) (k : SourceKey) (bytes : Bytes)
  | commitRead (a : EvidenceArtifact) (tenant evidenceId : String) (k : SourceKey)
  | commitWrite (tenant evidenceId : String)

inductive Move where
  | wait (p : SealPhase)
  | answer (r : Answer)

def Move.of : ApiResult Move → Move
  | .ok m => m
  | .error e => .answer (.refused e)

/-- What a seal mints or reads from the clock: its ids, now and the grant's expiry. -/
structure Minted where
  evidence : Bytes
  grant : Bytes
  now : String
  expires : String

def Minted.evidenceId (n : Minted) : String := newEvidenceId n.evidence

def Minted.artifact (n : Minted) (m : EvidenceManifest) (state : EvidenceState) :
    EvidenceArtifact where
  evidenceId := n.evidenceId
  tenant := m.tenant
  state := state
  manifest := m
  blobPath := blobPath n.evidenceId
  createdAt := n.now
  committedAt := if state = .committed then some n.now else none

def Minted.grantFor (n : Minted) (m : EvidenceManifest) : EvidenceGrant where
  grantId := newGrantId n.grant
  evidenceId := n.evidenceId
  tenant := m.tenant
  expiresAt := n.expires
  usedAt := none

def existingAnswer (a : EvidenceArtifact) : SealEvidenceResponse where
  evidenceId := a.evidenceId
  state := a.state.asStr
  created := false
  grant := none

section
variable [Sha256]

/-- The bytes of an inline seal, checked, with the key they go under. -/
def inlineChecks (n : Minted) (m : EvidenceManifest) (body : Except String Bytes) :
    ApiResult Move :=
  match body with
  | .error e => .error (.mesh (.invalidInput ("bytes_base64 is not valid base64: " ++ e)))
  | .ok bytes =>
      if INLINE_SEAL_MAX_BYTES < bytes.length then
        .error (.custom (.evidenceTooLarge bytes.length INLINE_SEAL_MAX_BYTES))
      else match verifyBytes m bytes with
        | .error e => .error e
        | .ok () =>
            match (n.artifact m .committed).keyFor m.tenant with
            | .error e => .error (.mesh e)
            | .ok k => .ok (.wait (.inlinePut (n.artifact m .committed) k bytes))

/-- `op_seal` up to its second store call. The body comes with what base64 made of it. -/
def opSeal (s : MemEvidenceStore) (access : AccessCtx) (raw : Except String EvidenceManifest)
    (body : Option (Except String Bytes)) (n : Minted) : ApiResult Move :=
  match parseManifest raw access with
  | .error e => .error e
  | .ok m =>
      match s.findByDomainKey m.tenant m.domainKey with
      | some existing => .ok (.answer (.sealed m.tenant (existingAnswer existing)))
      | none =>
          match body with
          | some body => inlineChecks n m body
          | none => .ok (.wait (.grantRegister (n.artifact m .pending) (n.grantFor m)))

/-- `op_put_bytes` up to its second store call. The bytes are checked before the grant. -/
def opPutBytes (s : MemEvidenceStore) (access : AccessCtx) (evidenceId grantId : String)
    (bytes : Bytes) : ApiResult Move :=
  match s.get access.tenantId evidenceId with
  | none => .error (.custom .evidenceGrantInvalid)
  | some a =>
      if a.manifest.authorizationClass.admits access then
        match verifyBytes a.manifest bytes with
        | .error e => .error e
        | .ok () => .ok (.wait (.putConsume a access.tenantId evidenceId grantId bytes))
      else .error (.custom .evidenceForbidden)

/-- `op_commit` up to its read of the bytes. -/
def opCommit (s : MemEvidenceStore) (access : AccessCtx) (evidenceId : String) :
    ApiResult Move :=
  match s.get access.tenantId evidenceId with
  | none => .error (.mesh (.notFound "evidence" evidenceId))
  | some a =>
      if a.manifest.authorizationClass.admits access then
        match a.keyFor access.tenantId with
        | .error e => .error (.mesh e)
        | .ok k => .ok (.wait (.commitRead a access.tenantId evidenceId k))
      else .error (.custom .evidenceForbidden)

abbrev Blobs := SortedMap String Bytes

/-- One store call of a waiting request and its code up to the next one. -/
def SealPhase.advance (now : String) (store : MemEvidenceStore) (blobs : Blobs) :
    SealPhase → MemEvidenceStore × Blobs × Move
  | .inlinePut a k bytes =>
      (store, blobs.insert k.blobName bytes, .wait (.inlineRegister a))
  | .inlineRegister a =>
      match store.register a none with
      | .error e => (store, blobs, .answer (.refused (.mesh e)))
      | .ok (store, outcome) =>
          (store, blobs,
            if outcome.created then
              .answer (.sealed a.tenant
                ⟨outcome.evidenceId, EvidenceState.committed.asStr, true, none⟩)
            else .wait (.inlineRead a.tenant outcome.evidenceId))
  | .inlineRead tenant evidenceId =>
      let state := ((store.get tenant evidenceId).map (·.state)).getD .committed
      (store, blobs, .answer (.sealed tenant ⟨evidenceId, state.asStr, false, none⟩))
  | .grantRegister a g =>
      match store.register a (some g) with
      | .error e => (store, blobs, .answer (.refused (.mesh e)))
      | .ok (store, outcome) =>
          (store, blobs, .answer (.sealed a.tenant ⟨outcome.evidenceId,
            EvidenceState.pending.asStr, outcome.created,
            outcome.grant.map fun g => ⟨g.grantId, g.expiresAt⟩⟩))
  | .putConsume a tenant evidenceId grantId bytes =>
      match store.consumeGrant tenant evidenceId grantId now with
      | (store, none) => (store, blobs, .answer (.refused (.custom .evidenceGrantInvalid)))
      | (store, some _) =>
          (store, blobs, match a.keyFor tenant with
            | .error e => .answer (.refused (.mesh e))
            | .ok k => .wait (.putStore a k bytes))
  | .putStore _ k bytes => (store, blobs.insert k.blobName bytes, .answer .stored)
  | .commitRead a tenant evidenceId k =>
      (store, blobs, match blobs.get? k.blobName with
        | none => .answer (.refused (.custom (.evidenceNotCommitted evidenceId)))
        | some bytes =>
            match verifyBytes a.manifest bytes with
            | .error e => .answer (.refused e)
            | .ok () => .wait (.commitWrite tenant evidenceId))
  | .commitWrite tenant evidenceId =>
      match store.commit tenant evidenceId now with
      | .error e => (store, blobs, .answer (.refused (.mesh e)))
      | .ok (store, committed) =>
          (store, blobs, .answer (.committed tenant
            ⟨evidenceId, EvidenceState.committed.asStr, committed⟩))

end

/-- The stores, the requests in flight, and the manifests that ids were minted for. -/
structure SealSystem where
  store : MemEvidenceStore
  blobs : Blobs
  inFlight : List SealPhase
  minted : SortedMap String EvidenceManifest

inductive SealEvent where
  | opSeal (access : AccessCtx) (raw : Except String EvidenceManifest)
      (body : Option (Except String Bytes)) (n : Minted)
  | opPutBytes (access : AccessCtx) (evidenceId grantId : String) (bytes : Bytes)
  | opCommit (access : AccessCtx) (evidenceId : String)
  | advance (i : ℕ) (now : String)
  | fail (i : ℕ) (e : KernelError)
  | purgeDelete (tenant evidenceId : String)
  | purgeMark (tenant evidenceId now : String)

def SealEvent.Purges : SealEvent → Prop
  | .purgeDelete _ _ | .purgeMark _ _ _ => True
  | _ => False

/-- A seal that asks for a grant in place of bringing its bytes. -/
def SealEvent.AsksGrant : SealEvent → Prop
  | .opSeal _ _ none _ => True
  | _ => False

namespace SealSystem

def start : SealSystem := ⟨.empty, .empty, [], .empty⟩

/-- A new request stands first until it has its answer. -/
def began (s : SealSystem) : Move → SealSystem × Option Answer
  | .wait p => ({ s with inFlight := p :: s.inFlight }, none)
  | .answer r => (s, some r)

/-- A request that was waiting waits again or has its answer. -/
def resumed (s : SealSystem) (i : ℕ) : Move → SealSystem × Option Answer
  | .wait p => ({ s with inFlight := s.inFlight.set i p }, none)
  | .answer r => ({ s with inFlight := s.inFlight.eraseIdx i }, some r)

/-- A manifest comes under its id when a seal mints one for it. -/
def mint (s : SealSystem) (access : AccessCtx) (raw : Except String EvidenceManifest)
    (n : Minted) : SealSystem :=
  match parseManifest raw access with
  | .error _ => s
  | .ok m => { s with minted := s.minted.insert n.evidenceId m }

section
variable [Sha256]

/-- One step, where it is enabled: minted ids are new, and expiries follow the clock. A
store call of a waiting request may fail instead. -/
def next (s : SealSystem) : SealEvent → Option (SealSystem × Option Answer)
  | .opSeal access raw body n =>
      if n.evidence.length = 16 ∧ s.minted.get? n.evidenceId = none ∧
          grantExpiry n.now n.expires then
        some ((s.mint access raw n).began (.of (opSeal s.store access raw body n)))
      else none
  | .opPutBytes access evidenceId grantId bytes =>
      some (s.began (.of (opPutBytes s.store access evidenceId grantId bytes)))
  | .opCommit access evidenceId => some (s.began (.of (opCommit s.store access evidenceId)))
  | .advance i now =>
      match s.inFlight[i]? with
      | none => none
      | some p =>
          let (store, blobs, move) := p.advance now s.store s.blobs
          some ({ s with store := store, blobs := blobs }.resumed i move)
  | .fail i e =>
      if i < s.inFlight.length then some (s.resumed i (.answer (.refused (.mesh e)))) else none
  | .purgeDelete tenant evidenceId =>
      match s.store.get tenant evidenceId with
      | none => none
      | some a =>
          match a.keyFor tenant with
          | .error _ => none
          | .ok k => some ({ s with blobs := s.blobs.erase k.blobName }, none)
  | .purgeMark tenant evidenceId now =>
      some ({ s with store := s.store.after (.markPurged tenant evidenceId now) }, none)

/-- A run of events, if every one is enabled, with the answers given on the way. -/
def afterAll (s : SealSystem) : List SealEvent → Option (SealSystem × List Answer)
  | [] => some (s, [])
  | e :: rest => do
      let (t, answer) ← s.next e
      let (u, answers) ← t.afterAll rest
      pure (u, answer.toList ++ answers)

/-- The states of the runs whose every step is allowed. -/
inductive ReachableBy (allowed : SealEvent → Prop) : SealSystem → Prop
  | start : ReachableBy allowed start
  | step {s t : SealSystem} {answer : Option Answer} (e : SealEvent)
      (h : ReachableBy allowed s) (hallowed : allowed e) (hnext : s.next e = some (t, answer)) :
      ReachableBy allowed t

theorem ReachableBy.mono {allowed allowed' : SealEvent → Prop}
    (hsub : ∀ e, allowed e → allowed' e) {s : SealSystem} (h : ReachableBy allowed s) :
    ReachableBy allowed' s := by
  induction h with
  | start => exact .start
  | step e _ hallowed hnext ih => exact .step e ih (hsub e hallowed) hnext

theorem ReachableBy.afterAll {allowed : SealEvent → Prop} {s t : SealSystem}
    (h : ReachableBy allowed s) {events : List SealEvent} {answers : List Answer}
    (hallowed : ∀ e ∈ events, allowed e) (hrun : s.afterAll events = some (t, answers)) :
    ReachableBy allowed t := by
  induction events generalizing s answers with
  | nil =>
    cases hrun
    exact h
  | cons e rest ih =>
    simp only [SealSystem.afterAll, Option.bind_eq_bind, Option.bind_eq_some_iff] at hrun
    obtain ⟨⟨u, answer⟩, hnext, ⟨v, later⟩, hrest, heq⟩ := hrun
    cases heq
    have hu := h.step e (hallowed e List.mem_cons_self) hnext
    exact ih hu (fun e he => hallowed e (List.mem_cons_of_mem _ he)) hrest

end

end SealSystem

end Munarium
