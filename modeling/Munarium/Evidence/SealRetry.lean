import Munarium.Evidence.SealRuns

/-! A seal of a domain key without a pending row can be completed through a grant. A row
that stays pending has no way on: its key answers with the pending id and no grant. -/
namespace Munarium

/-- The path of a minted id is one the object store takes. -/
theorem validatePath_blobPath {uuid : Bytes} (h : uuid.length = 16) :
    validatePath (blobPath (newEvidenceId uuid)) = .ok () := by
  have htext : blobPath (newEvidenceId uuid) = "evidence/ev-" ++ hexEncode uuid := by
    simp [blobPath, newEvidenceId, EVIDENCE_PATH_PREFIX, ← String.append_assoc]
  have hsize : (blobPath (newEvidenceId uuid)).utf8ByteSize = 44 := by
    rw [htext, String.utf8ByteSize_append, hexEncode_size, h]
    rfl
  have hsecond : (utf8 (blobPath (newEvidenceId uuid)))[1]? = some 0x76 := by
    rw [htext, utf8_append]
    rfl
  have hback : '\\' ∉ (blobPath (newEvidenceId uuid)).toList :=
    htext ▸ notMem_append_hexEncode (by decide) (by decide) uuid
  have hnul : '\x00' ∉ (blobPath (newEvidenceId uuid)).toList :=
    htext ▸ notMem_append_hexEncode (by decide) (by decide) uuid
  have hstart : startsWith "/" (blobPath (newEvidenceId uuid)) = false := by
    rw [startsWith, htext, String.toList_append]
    rfl
  have hnonempty : blobPath (newEvidenceId uuid) ≠ "" := by
    intro he
    rw [he] at hsize
    exact absurd hsize (by decide)
  have hid : '/' ∉ (newEvidenceId uuid).toList :=
    notMem_append_hexEncode (by decide) (by decide) uuid
  have hpieces : pieces '/' (blobPath (newEvidenceId uuid)) =
      ["evidence", newEvidenceId uuid] := by
    have hsplit : blobPath (newEvidenceId uuid) =
        "evidence" ++ String.singleton '/' ++ newEvidenceId uuid := rfl
    rw [hsplit, pieces_append, pieces_eq_singleton hid, pieces_eq_singleton (by decide)]
    rfl
  have hne (t : String) (ht : t.utf8ByteSize ≤ 2) : (newEvidenceId uuid == t) = false := by
    apply beq_eq_false_iff_ne.mpr
    rintro rfl
    rw [newEvidenceId, String.utf8ByteSize_append, hexEncode_size, h] at ht
    omega
  unfold validatePath
  rw [if_neg hnonempty, if_neg (by omega), hstart, hsecond, hpieces]
  simp [hback, hnul, hne "" (by decide), hne "." (by decide), hne ".." (by decide)]

/-- An artifact minted for a manifest has a key unless the tenant's name holds a slash. -/
theorem Minted.keyFor_artifact {n : Minted} {m : EvidenceManifest} (hm : m.Accepted)
    (h : n.evidence.length = 16) (hslash : '/' ∉ m.tenant.toList) (state : EvidenceState) :
    ∃ k, (n.artifact m state).keyFor m.tenant = .ok k := by
  obtain ⟨-, htrim, -⟩ := EvidenceManifest.accepted_iff.mp hm
  have htenant : m.tenant ≠ "" := by
    intro he
    rw [he] at htrim
    exact htrim (by decide)
  have hpath : validatePath (n.artifact m state).blobPath = .ok () := validatePath_blobPath h
  refine ⟨⟨m.tenant, (n.artifact m state).blobPath, trimHash m.artifactHash⟩, ?_⟩
  unfold EvidenceArtifact.keyFor SourceKey.create
  rw [hpath]
  simp [bind, Except.bind, htenant, hslash, Minted.artifact]

/-- A clock reading before an expiry, as the server writes both. -/
def beforeExpiry (now expires : String) : Bool :=
  match parseFromRfc3339 now, parseFromRfc3339 expires with
  | some t, some u => decide (t.shape = serverShape ∧ t.instant < u.instant)
  | _, _ => false

theorem serverShape_compatible : serverShape.Compatible serverShape :=
  ⟨rfl, rfl, .inl ⟨rfl, le_rfl⟩⟩

/-- The store's comparison of texts sees a grant alive until its instant comes. -/
theorem not_expired {now expires spentAt : String} (hexp : grantExpiry now expires = true)
    (hspent : beforeExpiry spentAt expires = true) : ¬ expires ≤ spentAt := by
  unfold grantExpiry at hexp
  unfold beforeExpiry at hspent
  cases ht : parseFromRfc3339 now with
  | none => simp [ht] at hexp
  | some t =>
    cases hu : parseFromRfc3339 expires with
    | none => simp [ht, hu] at hexp
    | some u =>
      cases hv : parseFromRfc3339 spentAt with
      | none => simp [hu, hv] at hspent
      | some v =>
        simp only [ht, hu, decide_eq_true_eq] at hexp
        simp only [hu, hv, decide_eq_true_eq] at hspent
        rw [← parseFromRfc3339_eq_some_iff.mp hu, ← parseFromRfc3339_eq_some_iff.mp hv,
          Timestamp.text_le_iff (by rw [hexp.2.1, hspent.1]; exact serverShape_compatible)]
        exact not_le.mpr hspent.2

/-- A request that will not register a pending row. -/
def Move.NoGrant : Move → Prop
  | .wait (.grantRegister _ _) => False
  | _ => True

/-- A client that seals a manifest through a grant: what it sends, what is minted for it,
and when its upload and its commit reach the store. Its bytes are the manifest's, and it
spends the grant in time. -/
structure SealAttempt [Sha256] where
  access : AccessCtx
  manifest : EvidenceManifest
  bytes : Bytes
  minted : Minted
  spentAt : String
  committedAt : String
  accepted : manifest.Accepted
  tenant : manifest.tenant = access.tenantId
  admitted : manifest.authorizationClass.admits access = true
  verified : verifyBytes manifest bytes = .ok ()
  uuid : minted.evidence.length = 16
  expiry : grantExpiry minted.now minted.expires = true
  inTime : beforeExpiry spentAt minted.expires = true

namespace SealAttempt

variable [Sha256]

/-- Seal, upload and commit, one store call at a time. -/
def events (f : SealAttempt) : List SealEvent :=
  [.opSeal f.access (.ok f.manifest) none f.minted, .advance 0 f.minted.now,
    .opPutBytes f.access f.minted.evidenceId (newGrantId f.minted.grant) f.bytes,
    .advance 0 f.spentAt, .advance 0 f.spentAt,
    .opCommit f.access f.minted.evidenceId, .advance 0 f.committedAt,
    .advance 0 f.committedAt]

/-- A grant, then bytes that are stored, then the commit. -/
def answers (f : SealAttempt) : List Answer :=
  [.sealed f.manifest.tenant ⟨f.minted.evidenceId, EvidenceState.pending.asStr, true,
      some ⟨newGrantId f.minted.grant, f.minted.expires⟩⟩,
    .stored,
    .committed f.access.tenantId
      ⟨f.minted.evidenceId, EvidenceState.committed.asStr, true⟩]

/-- The manifest as the server keeps it: without the id the caller may have put there. -/
def kept (f : SealAttempt) : EvidenceManifest := { f.manifest with evidenceId := none }

theorem parse (f : SealAttempt) : parseManifest (.ok f.manifest) f.access = .ok f.kept := by
  have hv : f.manifest.validate = .ok () := f.accepted
  simp [parseManifest, hv, f.tenant, f.admitted, kept]

def artifact (f : SealAttempt) : EvidenceArtifact := f.minted.artifact f.kept .pending

def grant (f : SealAttempt) : EvidenceGrant := f.minted.grantFor f.kept

end SealAttempt

namespace MemEvidenceStore

/-- A new key under a new id is registered. -/
theorem register_new [Sha256] {s : MemEvidenceStore} {a : EvidenceArtifact} {g : EvidenceGrant}
    (hkey : s.byDomainKey.get? (toLex (a.tenant, a.manifest.domainKey)) = none)
    (hid : s.get a.tenant a.evidenceId = none) :
    ∃ t, s.register a (some g) = .ok (t, ⟨a.evidenceId, true, some g⟩) ∧
      t.get a.tenant a.evidenceId = some a ∧
      t.grants.get? (toLex (g.tenant, g.grantId)) = some g := by
  refine ⟨⟨s.artifacts.insert (toLex (a.tenant, a.evidenceId)) a,
    s.byDomainKey.insert (toLex (a.tenant, a.manifest.domainKey)) a.evidenceId,
    s.grants.insert (toLex (g.tenant, g.grantId)) g⟩, ?_, ?_, ?_⟩
  · simp [register, hkey, hid]
  · simp [get]
  · simp

theorem consumeGrant_live {s : MemEvidenceStore} {g : EvidenceGrant} (now : String)
    (h : s.grants.get? (toLex (g.tenant, g.grantId)) = some g) (hused : g.usedAt = none)
    (hlive : ¬ g.expiresAt ≤ now) :
    ∃ t spent, s.consumeGrant g.tenant g.evidenceId g.grantId now = (t, some spent) ∧
      ∀ tenant id, t.get tenant id = s.get tenant id := by
  refine ⟨⟨s.artifacts, s.byDomainKey, s.grants.insert (toLex (g.tenant, g.grantId))
    { g with usedAt := some now }⟩, { g with usedAt := some now }, ?_, ?_⟩
  · simp [consumeGrant, h, hused, hlive]
  · intro tenant id
    rfl

theorem commit_pending {s : MemEvidenceStore} {a : EvidenceArtifact} {tenant id : String}
    (now : String) (h : s.get tenant id = some a) (hp : a.state = .pending) :
    ∃ t, s.commit tenant id now = .ok (t, true) := by
  refine ⟨s.setArtifact tenant id { a with state := .committed, committedAt := some now }, ?_⟩
  simp [commit, h, hp]

end MemEvidenceStore

namespace SealSystem

variable [Sha256]

/-- The attempt goes through from here. -/
def Completes (s : SealSystem) (f : SealAttempt) : Prop :=
  ∃ t, s.afterAll f.events = some (t, f.answers)

/-- The artifact of the manifest's domain key is committed, its bytes stored. -/
def IsSealed (s : SealSystem) (m : EvidenceManifest) : Prop :=
  ∃ a, s.store.findByDomainKey m.tenant m.domainKey = some a ∧ a.state = .committed ∧
    s.Stored a

/-- The artifact of the manifest's domain key waits for its bytes. -/
def IsPending (s : SealSystem) (m : EvidenceManifest) : Prop :=
  ∃ a, s.store.findByDomainKey m.tenant m.domainKey = some a ∧ a.state = .pending

theorem afterAll_cons {s t u : SealSystem} {e : SealEvent} {rest : List SealEvent}
    {answer : Option Answer} {answers : List Answer} (h : s.next e = some (t, answer))
    (hrest : t.afterAll rest = some (u, answers)) :
    s.afterAll (e :: rest) = some (u, answer.toList ++ answers) := by
  simp [afterAll, h, hrest]

theorem afterAll_wait {s t u : SealSystem} {e : SealEvent} {rest : List SealEvent}
    {answers : List Answer} (h : s.next e = some (t, none))
    (hrest : t.afterAll rest = some (u, answers)) :
    s.afterAll (e :: rest) = some (u, answers) := afterAll_cons h hrest

theorem afterAll_answer {s t u : SealSystem} {e : SealEvent} {rest : List SealEvent}
    {r : Answer} {answers : List Answer} (h : s.next e = some (t, some r))
    (hrest : t.afterAll rest = some (u, answers)) :
    s.afterAll (e :: rest) = some (u, r :: answers) := afterAll_cons h hrest

theorem afterAll_append {s t u : SealSystem} {first second : List SealEvent}
    {a b : List Answer} (h : s.afterAll first = some (t, a))
    (h' : t.afterAll second = some (u, b)) :
    s.afterAll (first ++ second) = some (u, a ++ b) := by
  induction first generalizing s a with
  | nil =>
    cases h
    exact h'
  | cons e rest ih =>
    simp only [afterAll, Option.bind_eq_bind, Option.bind_eq_some_iff] at h
    obtain ⟨⟨s', answer⟩, hnext, ⟨t', answers⟩, hrest, heq⟩ := h
    cases heq
    rw [List.cons_append, List.append_assoc]
    exact afterAll_cons hnext (ih hrest)

theorem next_advance_wait {s : SealSystem} {p q : SealPhase} {rest : List SealPhase}
    {now : String} {store : MemEvidenceStore} {blobs : Blobs} (hp : s.inFlight = p :: rest)
    (h : p.advance now s.store s.blobs = (store, blobs, .wait q)) :
    s.next (.advance 0 now) =
      some ({ s with store := store, blobs := blobs, inFlight := q :: rest }, none) := by
  simp [next, hp, h, resumed]

theorem next_advance_answer {s : SealSystem} {p : SealPhase} {rest : List SealPhase}
    {now : String} {store : MemEvidenceStore} {blobs : Blobs} {r : Answer}
    (hp : s.inFlight = p :: rest)
    (h : p.advance now s.store s.blobs = (store, blobs, .answer r)) :
    s.next (.advance 0 now) =
      some ({ s with store := store, blobs := blobs, inFlight := rest }, some r) := by
  simp [next, hp, h, resumed]

/-- A seal of a free key registers its row and hands out its grant. -/
theorem seal_run {s : SealSystem} (f : SealAttempt)
    (hfresh : s.minted.get? f.minted.evidenceId = none)
    (hkey : s.store.byDomainKey.get? (toLex (f.manifest.tenant, f.manifest.domainKey)) = none)
    (hid : s.store.get f.manifest.tenant f.minted.evidenceId = none) :
    ∃ t : SealSystem, s.afterAll [.opSeal f.access (.ok f.manifest) none f.minted,
        .advance 0 f.minted.now] = some (t, [.sealed f.manifest.tenant ⟨f.minted.evidenceId,
          EvidenceState.pending.asStr, true,
          some ⟨newGrantId f.minted.grant, f.minted.expires⟩⟩]) ∧
      t.store.get f.manifest.tenant f.minted.evidenceId = some f.artifact ∧
      t.store.grants.get? (toLex (f.grant.tenant, f.grant.grantId)) = some f.grant := by
  have hkept : s.store.byDomainKey.get? (toLex (f.artifact.tenant,
    f.artifact.manifest.domainKey)) = none := hkey
  obtain ⟨store, hreg, hget, hgrant⟩ := MemEvidenceStore.register_new (g := f.grant) hkept hid
  have hfind : s.store.findByDomainKey f.kept.tenant f.kept.domainKey = none := by
    have hnone : s.store.byDomainKey.get? (toLex (f.kept.tenant, f.kept.domainKey)) = none :=
      hkey
    simp [MemEvidenceStore.findByDomainKey, hnone]
  have hseal : opSeal s.store f.access (.ok f.manifest) none f.minted =
      .ok (.wait (.grantRegister f.artifact f.grant)) := by
    simp only [opSeal, f.parse, hfind]
    rfl
  have hbegin : s.next (.opSeal f.access (.ok f.manifest) none f.minted) =
      some ({ s with inFlight := .grantRegister f.artifact f.grant :: s.inFlight
                     minted := s.minted.insert f.minted.evidenceId f.kept }, none) := by
    simp [next, f.uuid, hfresh, f.expiry, hseal, mint, f.parse, Move.of, began]
  have hadvance : (SealPhase.grantRegister f.artifact f.grant).advance f.minted.now s.store
      s.blobs = (store, s.blobs, .answer (.sealed f.manifest.tenant ⟨f.minted.evidenceId,
        EvidenceState.pending.asStr, true,
        some ⟨newGrantId f.minted.grant, f.minted.expires⟩⟩)) := by
    simp only [SealPhase.advance, hreg]
    rfl
  refine ⟨{ s with store := store
                   minted := s.minted.insert f.minted.evidenceId f.kept }, ?_, hget, hgrant⟩
  apply afterAll_wait hbegin
  apply afterAll_answer
  · exact next_advance_answer rfl hadvance
  · rfl

/-- An upload with a live grant stores the bytes and leaves every row as it is. -/
theorem put_run {s : SealSystem} (f : SealAttempt) {k : SourceKey}
    (hget : s.store.get f.manifest.tenant f.minted.evidenceId = some f.artifact)
    (hgrant : s.store.grants.get? (toLex (f.grant.tenant, f.grant.grantId)) = some f.grant)
    (hk : f.artifact.keyFor f.manifest.tenant = .ok k) :
    ∃ t : SealSystem, s.afterAll [.opPutBytes f.access f.minted.evidenceId
        (newGrantId f.minted.grant) f.bytes, .advance 0 f.spentAt, .advance 0 f.spentAt] =
        some (t, [.stored]) ∧
      t.store.get f.manifest.tenant f.minted.evidenceId = some f.artifact ∧
      t.blobs.get? k.blobName = some f.bytes := by
  have hadmit : f.artifact.manifest.authorizationClass.admits f.access = true := f.admitted
  have hverify : verifyBytes f.artifact.manifest f.bytes = .ok () := f.verified
  obtain ⟨store, spent, hconsume, hrows⟩ := MemEvidenceStore.consumeGrant_live
    f.spentAt hgrant rfl (not_expired f.expiry f.inTime)
  have hput : opPutBytes s.store f.access f.minted.evidenceId (newGrantId f.minted.grant)
      f.bytes = .ok (.wait (.putConsume f.artifact f.manifest.tenant f.minted.evidenceId
        (newGrantId f.minted.grant) f.bytes)) := by
    simp [opPutBytes, ← f.tenant, hget, hadmit, hverify]
  have hconsumed : (SealPhase.putConsume f.artifact f.manifest.tenant f.minted.evidenceId
      (newGrantId f.minted.grant) f.bytes).advance f.spentAt s.store s.blobs =
      (store, s.blobs, .wait (.putStore f.artifact k f.bytes)) := by
    have hcall : s.store.consumeGrant f.manifest.tenant f.minted.evidenceId
        (newGrantId f.minted.grant) f.spentAt = (store, some spent) := hconsume
    simp only [SealPhase.advance, hcall, hk]
  refine ⟨{ s with store := store, blobs := s.blobs.insert k.blobName f.bytes }, ?_, ?_, ?_⟩
  · have hbegin : s.next (.opPutBytes f.access f.minted.evidenceId (newGrantId f.minted.grant)
        f.bytes) = some (s.began (.wait (.putConsume f.artifact f.manifest.tenant
          f.minted.evidenceId (newGrantId f.minted.grant) f.bytes))) := by
      rw [next, hput]
      rfl
    apply afterAll_wait hbegin
    apply afterAll_wait
    · exact next_advance_wait rfl hconsumed
    apply afterAll_answer
    · exact next_advance_answer rfl rfl
    · rfl
  · exact (hrows _ _).trans hget
  · simp

/-- A commit of a pending row with its bytes stored commits it. -/
theorem commit_run {s : SealSystem} (f : SealAttempt) {k : SourceKey}
    (hget : s.store.get f.manifest.tenant f.minted.evidenceId = some f.artifact)
    (hk : f.artifact.keyFor f.manifest.tenant = .ok k)
    (hblob : s.blobs.get? k.blobName = some f.bytes) :
    ∃ t : SealSystem, s.afterAll [.opCommit f.access f.minted.evidenceId,
        .advance 0 f.committedAt, .advance 0 f.committedAt] = some (t, [.committed
          f.access.tenantId ⟨f.minted.evidenceId, EvidenceState.committed.asStr, true⟩]) := by
  have hadmit : f.artifact.manifest.authorizationClass.admits f.access = true := f.admitted
  have hverify : verifyBytes f.artifact.manifest f.bytes = .ok () := f.verified
  rw [f.tenant] at hget hk
  obtain ⟨store, hcommit⟩ := MemEvidenceStore.commit_pending f.committedAt hget rfl
  have hstart : opCommit s.store f.access f.minted.evidenceId =
      .ok (.wait (.commitRead f.artifact f.access.tenantId f.minted.evidenceId k)) := by
    simp [opCommit, hget, hadmit, hk]
  have hbegin : s.next (.opCommit f.access f.minted.evidenceId) = some (s.began
      (.wait (.commitRead f.artifact f.access.tenantId f.minted.evidenceId k))) := by
    rw [next, hstart]
    rfl
  have hread : (SealPhase.commitRead f.artifact f.access.tenantId f.minted.evidenceId k).advance
      f.committedAt s.store s.blobs = (s.store, s.blobs, .wait (.commitWrite f.access.tenantId
        f.minted.evidenceId)) := by
    simp only [SealPhase.advance, hblob, hverify]
  have hwrite : (SealPhase.commitWrite f.access.tenantId f.minted.evidenceId).advance
      f.committedAt s.store s.blobs = (store, s.blobs, .answer (.committed f.access.tenantId
        ⟨f.minted.evidenceId, EvidenceState.committed.asStr, true⟩)) := by
    simp only [SealPhase.advance, hcommit]
  refine ⟨{ s with store := store }, ?_⟩
  apply afterAll_wait hbegin
  apply afterAll_wait
  · exact next_advance_wait rfl hread
  apply afterAll_answer
  · exact next_advance_answer rfl hwrite
  · rfl

theorem completes_of_absent {s : SealSystem} (hs : s.Sound) (f : SealAttempt)
    (hfresh : s.minted.get? f.minted.evidenceId = none)
    (hslash : '/' ∉ f.manifest.tenant.toList)
    (habsent : s.store.findByDomainKey f.manifest.tenant f.manifest.domainKey = none) :
    s.Completes f := by
  have hkey : s.store.byDomainKey.get? (toLex (f.manifest.tenant, f.manifest.domainKey)) =
      none := by
    cases hget : s.store.byDomainKey.get? (toLex (f.manifest.tenant, f.manifest.domainKey)) with
    | none => rfl
    | some id =>
      obtain ⟨a, ha⟩ := hs.key _ _ _ hget
      simp [MemEvidenceStore.findByDomainKey, hget, ha] at habsent
  have hid : s.store.get f.manifest.tenant f.minted.evidenceId = none := by
    cases hget : s.store.get f.manifest.tenant f.minted.evidenceId with
    | none => rfl
    | some a =>
      have hrow := hs.row _ _ _ hget
      have hminted := hrow.owned.minted
      rw [hrow.evidenceId, hfresh] at hminted
      cases hminted
  have haccepted : f.kept.Accepted := f.accepted
  obtain ⟨k, hk⟩ := Minted.keyFor_artifact haccepted f.uuid hslash .pending
  obtain ⟨t, hseal, hget, hgrant⟩ := seal_run f hfresh hkey hid
  obtain ⟨u, hput, hget', hblob⟩ := put_run f hget hgrant hk
  obtain ⟨v, hcommit⟩ := commit_run f hget' hk hblob
  exact ⟨v, afterAll_append hseal (afterAll_append hput hcommit)⟩

/-- A pending key answers a seal with its id and no grant. -/
theorem not_completes_of_pending {s : SealSystem} (f : SealAttempt)
    (hpending : s.IsPending f.manifest) : ¬ s.Completes f := by
  rintro ⟨t, ht⟩
  obtain ⟨a, ha, -⟩ := hpending
  have hfind : s.store.findByDomainKey f.kept.tenant f.kept.domainKey = some a := ha
  simp only [SealAttempt.events, afterAll, Option.bind_eq_bind, Option.bind_eq_some_iff] at ht
  obtain ⟨⟨u, answer⟩, hnext, ⟨v, later⟩, -, heq⟩ := ht
  have hanswer : answer = some (.sealed f.kept.tenant (existingAnswer a)) := by
    simp only [next, opSeal, f.parse, hfind] at hnext
    split_ifs at hnext
    cases hnext
    rfl
  subst hanswer
  simp [SealAttempt.answers, existingAnswer] at heq

theorem slashFree_of_stored {s : SealSystem} {a : EvidenceArtifact} (h : s.Stored a) :
    '/' ∉ a.tenant.toList := by
  obtain ⟨k, -, hk, -⟩ := h
  exact (SourceKey.create_eq_ok hk).2

theorem slashFree_of_completes {s : SealSystem} (hs : s.Sound) (f : SealAttempt)
    (h : s.Completes f) : '/' ∉ f.manifest.tenant.toList := by
  obtain ⟨t, ht⟩ := h
  have hkept : ∀ e ∈ f.events, ¬ e.Purges := by simp [SealAttempt.events, SealEvent.Purges]
  obtain ⟨u, hu, htrue⟩ := hs.afterAll hkept ht
    (.committed f.access.tenantId ⟨f.minted.evidenceId, EvidenceState.committed.asStr, true⟩)
    (by simp [SealAttempt.answers])
  obtain ⟨a, ha, -, hstored⟩ := htrue _ _ ⟨rfl, rfl, rfl⟩
  rw [f.tenant, ← (hu.row _ _ _ ha).tenant]
  exact slashFree_of_stored hstored

/-- No row waits for its bytes, and no request will make one that does. -/
structure NonePending (s : SealSystem) : Prop where
  row : ∀ tenant id a, s.store.get tenant id = some a → a.state ≠ .pending
  phase : ∀ p ∈ s.inFlight, Move.NoGrant (.wait p)

theorem not_pending_after {s : MemEvidenceStore}
    (hs : ∀ tenant id a, s.get tenant id = some a → a.state ≠ .pending) {c : EvidenceCall}
    (hnew : ∀ a grant, c = .register a grant → a.state ≠ .pending) (tenant id : String)
    (a : EvidenceArtifact) (h : (s.after c).get tenant id = some a) : a.state ≠ .pending := by
  have hchange := s.change_after c tenant id
  rw [h] at hchange
  generalize hold : s.get tenant id = old at hchange
  cases hchange with
  | same => exact hs _ _ _ hold
  | created _ grant ht hid => exact hnew a grant rfl
  | committed b now hp => simp
  | purged b now hp => simp [EvidenceArtifact.withRetention]
  | held b hold' => exact hs _ _ b hold

omit [Sha256] in
theorem NonePending.began {s t : SealSystem} (hs : s.NonePending) {move : Move}
    (hm : move.NoGrant) {answer : Option Answer} (h : s.began move = (t, answer)) :
    t.NonePending := by
  cases move with
  | wait p =>
    cases h
    refine ⟨hs.row, ?_⟩
    intro q hq
    rcases List.mem_cons.mp hq with rfl | hq
    · exact hm
    · exact hs.phase q hq
  | answer r =>
    cases h
    exact hs

omit [Sha256] in
theorem NonePending.resumed {s t : SealSystem} (hs : s.NonePending) {i : ℕ} {move : Move}
    (hm : move.NoGrant) {answer : Option Answer} (h : s.resumed i move = (t, answer)) :
    t.NonePending := by
  cases move with
  | wait p =>
    cases h
    refine ⟨hs.row, ?_⟩
    intro q hq
    rcases List.mem_or_eq_of_mem_set hq with hq | rfl
    · exact hs.phase q hq
    · exact hm
  | answer r =>
    cases h
    refine ⟨hs.row, ?_⟩
    intro q hq
    exact hs.phase q (List.mem_of_mem_eraseIdx hq)

theorem NonePending.advance {s : SealSystem} (hs : s.NonePending) (hsound : s.Sound)
    {p : SealPhase} (hp : p ∈ s.inFlight) {now : String} {store : MemEvidenceStore}
    {blobs : Blobs} {move : Move}
    (h : p.advance now s.store s.blobs = (store, blobs, move)) :
    NonePending { s with store := store, blobs := blobs } ∧ move.NoGrant := by
  have hps := hsound.phase p hp
  cases p with
  | inlinePut a k bytes =>
    cases h
    exact ⟨⟨hs.row, hs.phase⟩, trivial⟩
  | inlineRegister a =>
    have hafter := not_pending_after hs.row (c := .register a none)
      (by rintro _ _ ⟨⟩; simp [hps.2.1])
    simp only [SealPhase.advance] at h
    simp only [MemEvidenceStore.after] at hafter
    cases hr : s.store.register a none with
    | error e =>
      rw [hr] at h
      cases h
      exact ⟨hs, trivial⟩
    | ok q =>
      rw [hr] at h hafter
      simp only [Prod.mk.injEq] at h
      obtain ⟨rfl, rfl, rfl⟩ := h
      refine ⟨⟨hafter, hs.phase⟩, ?_⟩
      split_ifs <;> trivial
  | inlineRead tenant id =>
    cases h
    exact ⟨hs, trivial⟩
  | grantRegister a g => exact absurd (hs.phase _ hp) (by simp [Move.NoGrant])
  | putConsume a tenant id grantId bytes =>
    have hafter := not_pending_after hs.row (c := .consumeGrant tenant id grantId now)
      (by rintro _ _ ⟨⟩)
    simp only [SealPhase.advance] at h
    simp only [MemEvidenceStore.after] at hafter
    cases hr : s.store.consumeGrant tenant id grantId now with
    | mk t spent =>
      rw [hr] at h hafter
      cases spent with
      | none =>
        cases h
        exact ⟨⟨hafter, hs.phase⟩, trivial⟩
      | some g =>
        cases h
        refine ⟨⟨hafter, hs.phase⟩, ?_⟩
        cases a.keyFor tenant <;> trivial
  | putStore a k bytes =>
    cases h
    exact ⟨⟨hs.row, hs.phase⟩, trivial⟩
  | commitRead a tenant id k =>
    cases h
    refine ⟨hs, ?_⟩
    cases s.blobs.get? k.blobName with
    | none => trivial
    | some bytes =>
      simp only
      cases verifyBytes a.manifest bytes <;> trivial
  | commitWrite tenant id =>
    have hafter := not_pending_after hs.row (c := .commit tenant id now) (by rintro _ _ ⟨⟩)
    simp only [SealPhase.advance] at h
    simp only [MemEvidenceStore.after] at hafter
    cases hr : s.store.commit tenant id now with
    | error e =>
      rw [hr] at h
      cases h
      exact ⟨hs, trivial⟩
    | ok q =>
      rw [hr] at h hafter
      cases h
      exact ⟨⟨hafter, hs.phase⟩, trivial⟩

theorem opSeal_noGrant (s : MemEvidenceStore) (access : AccessCtx)
    (raw : Except String EvidenceManifest) (body : Except String Bytes) (n : Minted) :
    (Move.of (opSeal s access raw (some body) n)).NoGrant := by
  unfold opSeal inlineChecks
  split
  · trivial
  · split
    · trivial
    · simp only
      split
      · trivial
      · split_ifs
        · trivial
        · split
          · trivial
          · split <;> trivial

theorem opPutBytes_noGrant (s : MemEvidenceStore) (access : AccessCtx) (id grantId : String)
    (bytes : Bytes) : (Move.of (opPutBytes s access id grantId bytes)).NoGrant := by
  unfold opPutBytes
  split
  · trivial
  · split_ifs
    · split <;> trivial
    · trivial

omit [Sha256] in
theorem opCommit_noGrant (s : MemEvidenceStore) (access : AccessCtx) (id : String) :
    (Move.of (opCommit s access id)).NoGrant := by
  unfold opCommit
  split
  · trivial
  · split_ifs
    · split <;> trivial
    · trivial

theorem NonePending.next {s t : SealSystem} (hs : s.NonePending) (hsound : s.Sound)
    {e : SealEvent} (hkept : ¬ e.Purges) (hinline : ¬ e.AsksGrant) {answer : Option Answer}
    (h : s.next e = some (t, answer)) : t.NonePending := by
  cases e with
  | opSeal access raw body n =>
    simp only [SealSystem.next] at h
    split_ifs at h
    obtain ⟨hstore, hflight⟩ := mint_store s access raw n
    have hmint : NonePending (s.mint access raw n) := by
      constructor
      · rw [hstore]
        exact hs.row
      · rw [hflight]
        exact hs.phase
    cases body with
    | none => exact absurd trivial hinline
    | some body =>
      exact hmint.began (opSeal_noGrant s.store access raw body n) (Option.some.inj h)
  | opPutBytes access id grantId bytes =>
    exact hs.began (opPutBytes_noGrant s.store access id grantId bytes) (Option.some.inj h)
  | opCommit access id =>
    exact hs.began (opCommit_noGrant s.store access id) (Option.some.inj h)
  | advance i now =>
    simp only [SealSystem.next] at h
    cases hp : s.inFlight[i]? with
    | none => simp [hp] at h
    | some p =>
      simp only [hp] at h
      cases hadv : p.advance now s.store s.blobs with
      | mk store rest =>
        obtain ⟨blobs, move⟩ := rest
        rw [hadv] at h
        obtain ⟨hnext, hmove⟩ := hs.advance hsound (List.mem_of_getElem? hp) hadv
        exact hnext.resumed hmove (Option.some.inj h)
  | fail i e =>
    simp only [SealSystem.next] at h
    split_ifs at h
    have hmove : (Move.answer (.refused (.mesh e))).NoGrant := trivial
    exact hs.resumed hmove (Option.some.inj h)
  | purgeDelete tenant id => exact absurd trivial hkept
  | purgeMark tenant id now => exact absurd trivial hkept

theorem ReachableBy.nonePending {s : SealSystem}
    (h : ReachableBy (fun e => ¬ e.Purges ∧ ¬ e.AsksGrant) s) : s.NonePending := by
  induction h with
  | start => exact ⟨by rintro _ _ _ ⟨⟩, by rintro _ ⟨⟩⟩
  | step e hreach hallowed hnext ih =>
    exact ih.next (hreach.mono fun _ h => h.1).sound hallowed.1 hallowed.2 hnext

/-- The artifact of the key is committed, or the attempt goes through, exactly when the
tenant can key the object store and no row of the key waits for its bytes. -/
theorem sealable_iff {s : SealSystem} (hs : s.Sound) (f : SealAttempt)
    (hfresh : s.minted.get? f.minted.evidenceId = none) :
    (s.IsSealed f.manifest ∨ s.Completes f) ↔
      '/' ∉ f.manifest.tenant.toList ∧ ¬ s.IsPending f.manifest := by
  constructor
  · rintro (⟨a, ha, hc, hstored⟩ | hcomplete)
    · obtain ⟨id, -, hrow⟩ := Option.bind_eq_some_iff.mp ha
      refine ⟨?_, ?_⟩
      · rw [← (hs.row _ _ _ hrow).tenant]
        exact slashFree_of_stored hstored
      · rintro ⟨b, hb, hp⟩
        rw [ha] at hb
        cases hb
        rw [hc] at hp
        cases hp
    · exact ⟨slashFree_of_completes hs f hcomplete,
        fun hpending => not_completes_of_pending f hpending hcomplete⟩
  · rintro ⟨hslash, hpending⟩
    cases ha : s.store.findByDomainKey f.manifest.tenant f.manifest.domainKey with
    | none => exact .inr (completes_of_absent hs f hfresh hslash ha)
    | some a =>
      obtain ⟨id, -, hget⟩ := Option.bind_eq_some_iff.mp ha
      have hrow := hs.row _ _ _ hget
      cases hstate : a.state with
      | pending => exact absurd ⟨a, ha, hstate⟩ hpending
      | committed => exact .inl ⟨a, ha, hstate, hrow.stored hstate⟩
      | purged => exact absurd hstate hrow.kept

/-- In every run without purges a committed answer is given only for a committed row whose
bytes are stored; in every state of such a run a key is sealed or can be sealed exactly
when its tenant can key the object store and no row of it waits for its bytes; and where
every seal brings its bytes, no row ever waits. -/
theorem seals_complete :
    (∀ s, ReachableBy (¬ ·.Purges) s →
      (∀ e t r, ¬ e.Purges → s.next e = some (t, some r) → t.Truthful r) ∧
      ∀ f : SealAttempt, s.minted.get? f.minted.evidenceId = none →
        ((s.IsSealed f.manifest ∨ s.Completes f) ↔
          '/' ∉ f.manifest.tenant.toList ∧ ¬ s.IsPending f.manifest)) ∧
    ∀ s, ReachableBy (fun e => ¬ e.Purges ∧ ¬ e.AsksGrant) s →
      ∀ f : SealAttempt, s.minted.get? f.minted.evidenceId = none →
        '/' ∉ f.manifest.tenant.toList → s.IsSealed f.manifest ∨ s.Completes f := by
  refine ⟨?_, ?_⟩
  · intro s h
    refine ⟨?_, ?_⟩
    · intro e t r hkept hnext
      exact (h.sound.next hkept hnext).2 r rfl
    · intro f hfresh
      exact sealable_iff h.sound f hfresh
  · intro s h f hfresh hslash
    refine (sealable_iff (h.mono fun _ hstep => hstep.1).sound f hfresh).mpr ⟨hslash, ?_⟩
    rintro ⟨a, ha, hp⟩
    obtain ⟨id, -, hget⟩ := Option.bind_eq_some_iff.mp ha
    exact h.nonePending.row _ _ _ hget hp

end SealSystem

section

/-- The sample's five bytes, under their real digest. -/
abbrev sampleBytes : Bytes := utf8 "id\n1\n"

abbrev sampleSealed : EvidenceManifest :=
  { EvidenceManifest.sample (some "p1") ["eu"] with
    artifactHash := "sha256:7cde7fb64fd82bd152710cf238e017b9ab46c0592483edc067ba4f6c75fac108"
    bytesLen := 5 }

abbrev sampleSealSha256 : Sha256 := tabledSha256 [(utf8 sampleSealed.material, [
    130, 190, 246, 120, 200, 22, 94, 189, 14, 225, 79, 100, 73, 216, 64, 26, 198, 95, 2, 252,
    80, 120, 28, 165, 251, 72, 48, 164, 167, 38, 232, 145]), (sampleBytes, [
    124, 222, 127, 182, 79, 216, 43, 209, 82, 113, 12, 242, 56, 224, 23, 185, 171, 70, 192, 89,
    36, 131, 237, 192, 103, 186, 79, 108, 117, 250, 193, 8])]

attribute [local instance] sampleSealSha256

abbrev sampleAccess : AccessCtx := ⟨"demo", 0, ["eu"], false⟩

abbrev sampleMinted (b : UInt8) : Minted where
  evidence := List.replicate 16 b
  grant := List.replicate 16 b
  now := "2026-01-01T00:00:00.000Z"
  expires := "2026-01-01T00:15:00.000Z"

abbrev sampleAttempt (b : UInt8) : SealAttempt where
  access := sampleAccess
  manifest := sampleSealed
  bytes := sampleBytes
  minted := sampleMinted b
  spentAt := "2026-01-01T00:01:00.000Z"
  committedAt := "2026-01-01T00:02:00.000Z"
  accepted := by decide +kernel
  tenant := rfl
  admitted := by decide +kernel
  verified := by decide +kernel
  uuid := rfl
  expiry := by
    change grantExpiry "2026-01-01T00:00:00.000Z" "2026-01-01T00:15:00.000Z" = true
    decide +kernel
  inTime := by
    change beforeExpiry "2026-01-01T00:01:00.000Z" "2026-01-01T00:15:00.000Z" = true
    decide +kernel

namespace SealSystem

theorem seals_complete_from_start : start.IsSealed sampleSealed ∨
    start.Completes (sampleAttempt 1) :=
  seals_complete.2 start .start (sampleAttempt 1) rfl (by decide)

/-- A grant-flow seal whose upload fails after its grant was spent. -/
abbrev spentThenFailed : List SealEvent :=
  [.opSeal sampleAccess (.ok sampleSealed) none (sampleMinted 1), .advance 0 "",
    .opPutBytes sampleAccess (sampleMinted 1).evidenceId (newGrantId (sampleMinted 1).grant)
      sampleBytes,
    .advance 0 "2026-01-01T00:01:00.000Z", .fail 0 (.storage "down")]

/-- Sealing again, uploading with the old grant and committing. -/
abbrev everyWayOn : List SealEvent :=
  [.opSeal sampleAccess (.ok sampleSealed) none (sampleMinted 2),
    .opPutBytes sampleAccess (sampleMinted 1).evidenceId (newGrantId (sampleMinted 1).grant)
      sampleBytes,
    .advance 0 "2026-01-01T00:01:00.000Z",
    .opCommit sampleAccess (sampleMinted 1).evidenceId, .advance 0 ""]

/-- A commit that has read the bytes when a purge takes them. -/
abbrev purgedUnderCommit : List SealEvent :=
  [.opSeal sampleAccess (.ok sampleSealed) (some (.ok sampleBytes)) (sampleMinted 1),
    .advance 0 "", .advance 0 "", .opCommit sampleAccess (sampleMinted 1).evidenceId,
    .advance 0 "", .purgeDelete "demo" (sampleMinted 1).evidenceId,
    .purgeMark "demo" (sampleMinted 1).evidenceId "2026-01-01T00:03:00.000Z"]

/-- The key then answers with its pending id and no grant, the old grant is refused, and so
is the commit; and a commit under a purge answers committed for a purged row. -/
theorem spent_grant_stuck :
    (∃ s answers t, start.afterAll spentThenFailed = some (s, answers) ∧
      s.minted.get? (sampleMinted 2).evidenceId = none ∧
      ¬ (s.IsSealed sampleSealed ∨ s.Completes (sampleAttempt 2)) ∧
      s.afterAll everyWayOn = some (t,
        [.sealed "demo" ⟨(sampleMinted 1).evidenceId, "pending", false, none⟩,
          .refused (.custom .evidenceGrantInvalid),
          .refused (.custom (.evidenceNotCommitted (sampleMinted 1).evidenceId))])) ∧
    ∃ s answers t r, start.afterAll purgedUnderCommit = some (s, answers) ∧
      s.next (.advance 0 "") = some (t, some r) ∧ ¬ t.Truthful r := by
  constructor
  · have hrun : ((start.afterAll spentThenFailed).bind fun p => (p.1.afterAll everyWayOn).map
        fun q => (q.2, (p.1.minted.get? (sampleMinted 2).evidenceId).isNone,
          (p.1.store.findByDomainKey "demo" sampleSealed.domainKey).map (·.state))) =
        some ([.sealed "demo" ⟨(sampleMinted 1).evidenceId, "pending", false, none⟩,
          .refused (.custom .evidenceGrantInvalid),
          .refused (.custom (.evidenceNotCommitted (sampleMinted 1).evidenceId))], true,
          some .pending) := by decide +kernel
    obtain ⟨⟨s, answers⟩, hs, hrun⟩ := Option.bind_eq_some_iff.mp hrun
    obtain ⟨⟨t, later⟩, ht, hlook⟩ := Option.map_eq_some_iff.mp hrun
    simp only [Prod.mk.injEq, Option.isNone_iff_eq_none, Option.map_eq_some_iff] at hlook
    obtain ⟨rfl, hfresh, a, ha, hpending⟩ := hlook
    have hreach : ReachableBy (¬ ·.Purges) s :=
      ReachableBy.start.afterAll (by simp [SealEvent.Purges]) hs
    refine ⟨s, answers, t, hs, hfresh, ?_, ht⟩
    intro h
    exact ((sealable_iff hreach.sound (sampleAttempt 2) hfresh).mp h).2 ⟨a, ha, hpending⟩
  · have hrun : ((start.afterAll purgedUnderCommit).bind fun p =>
        (p.1.next (.advance 0 "")).map fun q => (q.2,
          (q.1.store.get "demo" (sampleMinted 1).evidenceId).map (·.state))) =
        some (some (.committed "demo" ⟨(sampleMinted 1).evidenceId, "committed", false⟩),
          some .purged) := by decide +kernel
    obtain ⟨⟨s, answers⟩, hs, hrun⟩ := Option.bind_eq_some_iff.mp hrun
    obtain ⟨⟨t, r⟩, ht, hlook⟩ := Option.map_eq_some_iff.mp hrun
    simp only [Prod.mk.injEq, Option.map_eq_some_iff] at hlook
    obtain ⟨rfl, a, ha, hpurged⟩ := hlook
    refine ⟨s, answers, t, _, hs, ht, ?_⟩
    intro htrue
    obtain ⟨b, hb, hc, -⟩ := htrue "demo" (sampleMinted 1).evidenceId ⟨rfl, rfl, rfl⟩
    rw [ha] at hb
    cases hb
    rw [hpurged] at hc
    cases hc

end SealSystem

end

end Munarium
