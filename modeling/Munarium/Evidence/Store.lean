import Munarium.Evidence.DomainKey
import Munarium.Evidence.Sources
import Munarium.Lib.SortedMap
import Mathlib.Data.Prod.Lex

/-! `MemEvidenceStore`: artifacts, the domain keys that name them and the upload grants,
each call one step under the lock. The access log is left out: no other call reads it. -/
namespace Munarium

inductive EvidenceState where
  | pending | committed | purged
  deriving DecidableEq

def EvidenceState.asStr : EvidenceState → String
  | pending => "pending"
  | committed => "committed"
  | purged => "purged"

structure EvidenceArtifact where
  evidenceId : String
  tenant : String
  state : EvidenceState
  manifest : EvidenceManifest
  blobPath : String
  createdAt : String
  committedAt : Option String
  deriving DecidableEq

structure EvidenceGrant where
  grantId : String
  evidenceId : String
  tenant : String
  expiresAt : String
  usedAt : Option String
  deriving DecidableEq

structure SealOutcome where
  evidenceId : String
  created : Bool
  grant : Option EvidenceGrant

/-- The hash maps, in one of the orders their iteration may take. -/
structure MemEvidenceStore where
  artifacts : SortedMap (String ×ₗ String) EvidenceArtifact
  byDomainKey : SortedMap (String ×ₗ String) String
  grants : SortedMap (String ×ₗ String) EvidenceGrant

namespace EvidenceArtifact

def legalHold (a : EvidenceArtifact) : Bool := (a.manifest.retention.getD {}).legalHold

def withRetention (a : EvidenceArtifact) (update : Retention → Retention) : EvidenceArtifact :=
  { a with manifest := { a.manifest with
      retention := some (update (a.manifest.retention.getD {})) } }

/-- Committed, unheld and not yet purged, with its expiry. -/
def expiry (a : EvidenceArtifact) : Option String :=
  if a.state = .committed then
    match a.manifest.retention with
    | none => none
    | some r => if r.legalHold || r.purgedAt.isSome then none else r.expiresAt
  else none

def expiresAt (a : EvidenceArtifact) : String :=
  (a.manifest.retention.bind (·.expiresAt)).getD ""

end EvidenceArtifact

namespace MemEvidenceStore

def empty : MemEvidenceStore := ⟨.empty, .empty, .empty⟩

def get (s : MemEvidenceStore) (tenant evidenceId : String) : Option EvidenceArtifact :=
  s.artifacts.get? (toLex (tenant, evidenceId))

def findByDomainKey (s : MemEvidenceStore) (tenant domainKey : String) :
    Option EvidenceArtifact :=
  (s.byDomainKey.get? (toLex (tenant, domainKey))).bind (s.get tenant)

def setArtifact (s : MemEvidenceStore) (tenant evidenceId : String) (a : EvidenceArtifact) :
    MemEvidenceStore :=
  { s with artifacts := s.artifacts.insert (toLex (tenant, evidenceId)) a }

def register [Sha256] (s : MemEvidenceStore) (artifact : EvidenceArtifact)
    (grant : Option EvidenceGrant) : Result (MemEvidenceStore × SealOutcome) :=
  let dk := toLex (artifact.tenant, artifact.manifest.domainKey)
  match s.byDomainKey.get? dk with
  | some existingId => .ok (s, ⟨existingId, false, none⟩)
  | none =>
      if (s.get artifact.tenant artifact.evidenceId).isSome then
        .error (.invalidInput ("evidence id '" ++ artifact.evidenceId ++ "' already exists"))
      else
        .ok ({ artifacts :=
                s.artifacts.insert (toLex (artifact.tenant, artifact.evidenceId)) artifact
               byDomainKey := s.byDomainKey.insert dk artifact.evidenceId
               grants := match grant with
                | none => s.grants
                | some g => s.grants.insert (toLex (g.tenant, g.grantId)) g },
          ⟨artifact.evidenceId, true, grant⟩)

/-- Only `pending` commits. -/
def commit (s : MemEvidenceStore) (tenant evidenceId now : String) :
    Result (MemEvidenceStore × Bool) :=
  match s.get tenant evidenceId with
  | none => .error (.notFound "evidence" evidenceId)
  | some a =>
      if a.state ≠ .pending then .ok (s, false)
      else .ok (s.setArtifact tenant evidenceId
        { a with state := .committed, committedAt := some now }, true)

def consumeGrant (s : MemEvidenceStore) (tenant evidenceId grantId now : String) :
    MemEvidenceStore × Option EvidenceGrant :=
  match s.grants.get? (toLex (tenant, grantId)) with
  | none => (s, none)
  | some g =>
      if g.evidenceId ≠ evidenceId ∨ g.usedAt.isSome ∨ g.expiresAt ≤ now then (s, none)
      else
        let spent := { g with usedAt := some now }
        ({ s with grants := s.grants.insert (toLex (tenant, grantId)) spent }, some spent)

/-- Expiries are compared as texts. The sort is stable and an absent expiry sorts first. -/
def purgeDue (s : MemEvidenceStore) (now : String) (limit : ℕ) : List EvidenceArtifact :=
  ((s.artifacts.values.filter fun a => a.expiry.any (fun e => decide (e ≤ now))).insertionSort
    (fun a b => a.expiresAt ≤ b.expiresAt)).take limit

def markPurged (s : MemEvidenceStore) (tenant evidenceId now : String) :
    Result (MemEvidenceStore × Bool) :=
  match s.get tenant evidenceId with
  | none => .error (.notFound "evidence" evidenceId)
  | some a =>
      if a.state = .purged then .ok (s, false)
      else .ok (s.setArtifact tenant evidenceId
        ({ a with state := .purged }.withRetention fun r => { r with purgedAt := some now }), true)

def setLegalHold (s : MemEvidenceStore) (tenant evidenceId : String) (hold : Bool) :
    MemEvidenceStore × Bool :=
  match s.get tenant evidenceId with
  | none => (s, false)
  | some a => (s.setArtifact tenant evidenceId
      (a.withRetention fun r => { r with legalHold := hold }), true)

theorem get_setArtifact (s : MemEvidenceStore) (tenant evidenceId tenant' evidenceId' : String)
    (a : EvidenceArtifact) : (s.setArtifact tenant evidenceId a).get tenant' evidenceId' =
      if tenant' = tenant ∧ evidenceId' = evidenceId then some a
      else s.get tenant' evidenceId' := by
  unfold get setArtifact
  rw [SortedMap.get?_insert]
  simp only [EmbeddingLike.apply_eq_iff_eq, Prod.mk.injEq]

end MemEvidenceStore

/-- The calls that can write. -/
inductive EvidenceCall where
  | register (artifact : EvidenceArtifact) (grant : Option EvidenceGrant)
  | commit (tenant evidenceId now : String)
  | consumeGrant (tenant evidenceId grantId now : String)
  | markPurged (tenant evidenceId now : String)
  | setLegalHold (tenant evidenceId : String) (hold : Bool)

/-- What a call may do to the artifact under one id. Rows never disappear, and a row's ids
and path stay as they were registered. -/
inductive ArtifactChange (tenant evidenceId : String) :
    EvidenceCall → Option EvidenceArtifact → Option EvidenceArtifact → Prop
  | same (call : EvidenceCall) (a : Option EvidenceArtifact) :
      ArtifactChange tenant evidenceId call a a
  | created (a : EvidenceArtifact) (grant : Option EvidenceGrant) (ht : a.tenant = tenant)
      (hid : a.evidenceId = evidenceId) :
      ArtifactChange tenant evidenceId (.register a grant) none (some a)
  | committed (a : EvidenceArtifact) (now : String) (h : a.state = .pending) :
      ArtifactChange tenant evidenceId (.commit tenant evidenceId now) (some a)
        (some { a with state := .committed, committedAt := some now })
  | purged (a : EvidenceArtifact) (now : String) (h : a.state ≠ .purged) :
      ArtifactChange tenant evidenceId (.markPurged tenant evidenceId now) (some a)
        (some ({ a with state := .purged }.withRetention fun r => { r with purgedAt := some now }))
  | held (a : EvidenceArtifact) (hold : Bool) :
      ArtifactChange tenant evidenceId (.setLegalHold tenant evidenceId hold) (some a)
        (some (a.withRetention fun r => { r with legalHold := hold }))

namespace MemEvidenceStore

/-- A refused call leaves the state it found. -/
def stateOr {α : Type} (s : MemEvidenceStore) : Result (MemEvidenceStore × α) → MemEvidenceStore
  | .ok (t, _) => t
  | .error _ => s

/-- Writing over one id leaves every other id alone. -/
theorem change_setArtifact {call : EvidenceCall} {s : MemEvidenceStore} {t id : String}
    {a : EvidenceArtifact} (h : ArtifactChange t id call (s.get t id) (some a))
    (tenant evidenceId : String) :
    ArtifactChange tenant evidenceId call (s.get tenant evidenceId)
      ((s.setArtifact t id a).get tenant evidenceId) := by
  rw [get_setArtifact]
  split_ifs with he
  · obtain ⟨rfl, rfl⟩ := he
    exact h
  · exact .same _ _

theorem change_commit (s : MemEvidenceStore) (t id now tenant evidenceId : String) :
    ArtifactChange tenant evidenceId (.commit t id now) (s.get tenant evidenceId)
      ((s.stateOr (s.commit t id now)).get tenant evidenceId) := by
  unfold commit
  split
  · exact .same _ _
  · next a hg =>
    split_ifs with hp
    · exact .same _ _
    · apply change_setArtifact
      rw [hg]
      exact .committed a now (not_not.mp hp)

theorem change_markPurged (s : MemEvidenceStore) (t id now tenant evidenceId : String) :
    ArtifactChange tenant evidenceId (.markPurged t id now) (s.get tenant evidenceId)
      ((s.stateOr (s.markPurged t id now)).get tenant evidenceId) := by
  unfold markPurged
  split
  · exact .same _ _
  · next a hg =>
    split_ifs with hp
    · exact .same _ _
    · apply change_setArtifact
      rw [hg]
      exact .purged a now hp

theorem change_setLegalHold (s : MemEvidenceStore) (t id : String) (hold : Bool)
    (tenant evidenceId : String) :
    ArtifactChange tenant evidenceId (.setLegalHold t id hold) (s.get tenant evidenceId)
      ((s.setLegalHold t id hold).1.get tenant evidenceId) := by
  unfold setLegalHold
  split
  · exact .same _ _
  · next a hg =>
    apply change_setArtifact
    rw [hg]
    exact .held a hold

theorem get_consumeGrant (s : MemEvidenceStore) (t id grantId now tenant evidenceId : String) :
    (s.consumeGrant t id grantId now).1.get tenant evidenceId = s.get tenant evidenceId := by
  unfold consumeGrant
  split
  · rfl
  · split_ifs <;> rfl

section
variable [Sha256]

theorem change_register (s : MemEvidenceStore) (a : EvidenceArtifact)
    (grant : Option EvidenceGrant) (tenant evidenceId : String) :
    ArtifactChange tenant evidenceId (.register a grant) (s.get tenant evidenceId)
      ((s.stateOr (s.register a grant)).get tenant evidenceId) := by
  unfold register
  simp only
  split
  · exact .same _ _
  · split_ifs with hg
    · exact .same _ _
    · have hnone : s.get a.tenant a.evidenceId = none := by simpa using hg
      have hcreated : ArtifactChange a.tenant a.evidenceId (.register a grant)
          (s.get a.tenant a.evidenceId) (some a) := by
        rw [hnone]
        exact .created a grant rfl rfl
      exact change_setArtifact hcreated tenant evidenceId

/-- A registration finds the domain key taken and changes nothing, or writes its row, its
key and its grant. -/
theorem register_eq_ok {s t : MemEvidenceStore} {a : EvidenceArtifact}
    {grant : Option EvidenceGrant} {outcome : SealOutcome}
    (h : s.register a grant = .ok (t, outcome)) :
    t = s ∧ outcome.created = false ∧ outcome.grant = none ∧
        s.byDomainKey.get? (toLex (a.tenant, a.manifest.domainKey)) = some outcome.evidenceId ∨
      outcome = ⟨a.evidenceId, true, grant⟩ ∧ t.get a.tenant a.evidenceId = some a ∧
        t.byDomainKey = s.byDomainKey.insert (toLex (a.tenant, a.manifest.domainKey))
          a.evidenceId := by
  unfold register at h
  simp only at h
  split at h
  · next id hid =>
    cases h
    exact .inl ⟨rfl, rfl, rfl, hid⟩
  · split_ifs at h
    cases h
    exact .inr ⟨rfl, by simp [get], rfl⟩

def after (s : MemEvidenceStore) : EvidenceCall → MemEvidenceStore
  | .register artifact grant => s.stateOr (s.register artifact grant)
  | .commit tenant evidenceId now => s.stateOr (s.commit tenant evidenceId now)
  | .consumeGrant tenant evidenceId grantId now => (s.consumeGrant tenant evidenceId grantId now).1
  | .markPurged tenant evidenceId now => s.stateOr (s.markPurged tenant evidenceId now)
  | .setLegalHold tenant evidenceId hold => (s.setLegalHold tenant evidenceId hold).1

theorem change_after (s : MemEvidenceStore) (call : EvidenceCall) (tenant evidenceId : String) :
    ArtifactChange tenant evidenceId call (s.get tenant evidenceId)
      ((s.after call).get tenant evidenceId) := by
  cases call with
  | register a grant => exact change_register s a grant tenant evidenceId
  | commit t id now => exact change_commit s t id now tenant evidenceId
  | consumeGrant t id grantId now =>
    rw [after, get_consumeGrant]
    exact .same _ _
  | markPurged t id now => exact change_markPurged s t id now tenant evidenceId
  | setLegalHold t id hold => exact change_setLegalHold s t id hold tenant evidenceId

/-- States reached by calls that register only manifests validation accepts. -/
inductive Reachable : MemEvidenceStore → Prop
  | empty : Reachable empty
  | step {s : MemEvidenceStore} (call : EvidenceCall) (h : Reachable s)
      (hmanifest : ∀ artifact grant, call = .register artifact grant →
        artifact.manifest.Accepted) : Reachable (s.after call)

end

end MemEvidenceStore

end Munarium
