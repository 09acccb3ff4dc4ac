import Munarium.Evidence.Seal

/-! What every interleaving of seals, uploads and commits keeps: a committed answer is given
only for a committed row with its own bytes in the object store, and a domain key without
a pending row can be sealed to the end. -/
namespace Munarium

theorem EvidenceState.asStr_injective : Function.Injective EvidenceState.asStr := by
  intro a b h
  cases a <;> cases b <;> first | rfl | exact absurd h (by decide)

def Answer.SaysCommitted (tenant evidenceId : String) : Answer → Prop
  | .sealed t r => t = tenant ∧ r.evidenceId = evidenceId ∧
      r.state = EvidenceState.committed.asStr
  | .committed t r => t = tenant ∧ r.evidenceId = evidenceId ∧
      r.state = EvidenceState.committed.asStr
  | _ => False

/-- The rows of one registration at two moments. -/
structure EvidenceArtifact.SameRow (a b : EvidenceArtifact) : Prop where
  evidenceId : b.evidenceId = a.evidenceId
  tenant : b.tenant = a.tenant
  manifest : b.manifest = a.manifest
  blobPath : b.blobPath = a.blobPath

namespace SealSystem

/-- The artifact stands under the path of its id, and the id was minted for its manifest. -/
structure Owned (s : SealSystem) (a : EvidenceArtifact) : Prop where
  blobPath : a.blobPath = blobPath a.evidenceId
  minted : s.minted.get? a.evidenceId = some a.manifest
  tenant : a.tenant = a.manifest.tenant

section
variable [Sha256]

/-- The object store holds bytes of the declared length and hash under the artifact's key. -/
def Stored (s : SealSystem) (a : EvidenceArtifact) : Prop :=
  ∃ k bytes, a.keyFor a.tenant = .ok k ∧ s.blobs.get? k.blobName = some bytes ∧
    verifyBytes a.manifest bytes = .ok ()

/-- A committed answer is given only for a committed row whose bytes are stored. -/
def Truthful (s : SealSystem) (r : Answer) : Prop :=
  ∀ tenant evidenceId, r.SaysCommitted tenant evidenceId →
    ∃ a, s.store.get tenant evidenceId = some a ∧ a.state = .committed ∧ s.Stored a

def PhaseSound (s : SealSystem) : SealPhase → Prop
  | .inlinePut a k bytes => s.Owned a ∧ a.state = .committed ∧ a.keyFor a.tenant = .ok k ∧
      verifyBytes a.manifest bytes = .ok ()
  | .inlineRegister a => s.Owned a ∧ a.state = .committed ∧ s.Stored a
  | .inlineRead tenant evidenceId => ∃ a, s.store.get tenant evidenceId = some a
  | .grantRegister a _ => s.Owned a ∧ a.state = .pending
  | .putConsume a tenant _ _ bytes => s.Owned a ∧ a.tenant = tenant ∧
      verifyBytes a.manifest bytes = .ok ()
  | .putStore a k bytes => s.Owned a ∧ a.keyFor a.tenant = .ok k ∧
      verifyBytes a.manifest bytes = .ok ()
  | .commitRead a tenant evidenceId k => s.Owned a ∧ a.tenant = tenant ∧
      a.keyFor tenant = .ok k ∧ ∃ b, s.store.get tenant evidenceId = some b ∧ a.SameRow b
  | .commitWrite tenant evidenceId => ∃ a, s.store.get tenant evidenceId = some a ∧
      s.Owned a ∧ s.Stored a

def MoveSound (s : SealSystem) : Move → Prop
  | .wait p => s.PhaseSound p
  | .answer r => s.Truthful r

structure RowSound (s : SealSystem) (tenant evidenceId : String) (a : EvidenceArtifact) :
    Prop where
  tenant : a.tenant = tenant
  evidenceId : a.evidenceId = evidenceId
  owned : s.Owned a
  kept : a.state ≠ .purged
  stored : a.state = .committed → s.Stored a

structure Sound (s : SealSystem) : Prop where
  row : ∀ tenant evidenceId a, s.store.get tenant evidenceId = some a →
    s.RowSound tenant evidenceId a
  key : ∀ tenant dk id, s.store.byDomainKey.get? (toLex (tenant, dk)) = some id →
    ∃ a, s.store.get tenant id = some a
  phase : ∀ p ∈ s.inFlight, s.PhaseSound p

/-- What one system knows still holds in the other. -/
structure Extends (s t : SealSystem) : Prop where
  minted : ∀ id m, s.minted.get? id = some m → t.minted.get? id = some m
  stored : ∀ a, s.Owned a → s.Stored a → t.Stored a
  row : ∀ tenant id a, s.store.get tenant id = some a →
    ∃ b, t.store.get tenant id = some b ∧ a.SameRow b

theorem Extends.refl (s : SealSystem) : s.Extends s where
  minted _ _ h := h
  stored _ _ h := h
  row _ _ a h := ⟨a, h, rfl, rfl, rfl, rfl⟩

omit [Sha256] in
theorem Owned.of_minted {s t : SealSystem} {a : EvidenceArtifact} (h : s.Owned a)
    (hm : t.minted = s.minted) : t.Owned a :=
  ⟨h.blobPath, hm ▸ h.minted, h.tenant⟩

omit [Sha256] in
theorem Owned.sameRow {s : SealSystem} {a b : EvidenceArtifact} (h : s.Owned a)
    (hab : a.SameRow b) : s.Owned b where
  blobPath := by rw [hab.blobPath, hab.evidenceId, h.blobPath]
  minted := by rw [hab.evidenceId, hab.manifest, h.minted]
  tenant := by rw [hab.tenant, hab.manifest, h.tenant]

theorem Stored.sameRow {s : SealSystem} {a b : EvidenceArtifact} (h : s.Stored a)
    (hab : a.SameRow b) : s.Stored b := by
  obtain ⟨k, bytes, hk, hb, hv⟩ := h
  refine ⟨k, bytes, ?_, hb, ?_⟩
  · rw [EvidenceArtifact.keyFor, hab.blobPath, hab.manifest, hab.tenant]
    exact hk
  · rw [hab.manifest]
    exact hv

theorem Extends.owned {s t : SealSystem} (h : s.Extends t) {a : EvidenceArtifact}
    (ha : s.Owned a) : t.Owned a :=
  ⟨ha.blobPath, h.minted _ _ ha.minted, ha.tenant⟩

/-- A request's standing survives what other requests do. -/
theorem PhaseSound.extends {s t : SealSystem} (h : s.Extends t) {p : SealPhase}
    (hp : s.PhaseSound p) : t.PhaseSound p := by
  cases p with
  | inlinePut a k bytes => exact ⟨h.owned hp.1, hp.2⟩
  | inlineRegister a => exact ⟨h.owned hp.1, hp.2.1, h.stored a hp.1 hp.2.2⟩
  | inlineRead tenant id =>
    obtain ⟨a, ha⟩ := hp
    obtain ⟨b, hb, -⟩ := h.row _ _ a ha
    exact ⟨b, hb⟩
  | grantRegister a g => exact ⟨h.owned hp.1, hp.2⟩
  | putConsume a tenant id grantId bytes => exact ⟨h.owned hp.1, hp.2⟩
  | putStore a k bytes => exact ⟨h.owned hp.1, hp.2⟩
  | commitRead a tenant id k =>
    obtain ⟨ho, ht, hk, b, hb, hab⟩ := hp
    obtain ⟨c, hc, hbc⟩ := h.row _ _ b hb
    refine ⟨h.owned ho, ht, hk, c, hc, ?_⟩
    exact ⟨hbc.evidenceId.trans hab.evidenceId, hbc.tenant.trans hab.tenant,
      hbc.manifest.trans hab.manifest, hbc.blobPath.trans hab.blobPath⟩
  | commitWrite tenant id =>
    obtain ⟨a, ha, ho, hs⟩ := hp
    obtain ⟨b, hb, hab⟩ := h.row _ _ a ha
    exact ⟨b, hb, (h.owned ho).sameRow hab, (h.stored a ho hs).sameRow hab⟩

/-- Verified bytes put under an artifact's own key leave every stored artifact stored. -/
theorem extends_put {s : SealSystem} {a : EvidenceArtifact} {k : SourceKey} {bytes : Bytes}
    (ho : s.Owned a) (hk : a.keyFor a.tenant = .ok k)
    (hv : verifyBytes a.manifest bytes = .ok ()) :
    s.Extends { s with blobs := s.blobs.insert k.blobName bytes } where
  minted _ _ h := h
  row _ _ b h := ⟨b, h, rfl, rfl, rfl, rfl⟩
  stored b hob hb := by
    obtain ⟨k', bytes', hk', hget, hv'⟩ := hb
    by_cases hname : k'.blobName = k.blobName
    · obtain ⟨-, hpath⟩ := SourceKey.blobName_inj hk' hk hname
      rw [hob.blobPath, ho.blobPath] at hpath
      have hid := blobPath_injective hpath
      have hm : b.manifest = a.manifest := by
        have := hob.minted
        rw [hid, ho.minted] at this
        exact (Option.some.inj this).symm
      refine ⟨k', bytes, hk', ?_, hm ▸ hv⟩
      simp [hname]
    · refine ⟨k', bytes', hk', ?_, hv'⟩
      simp only
      rw [SortedMap.get?_insert_of_ne hname]
      exact hget

theorem stored_put {s : SealSystem} {a : EvidenceArtifact} {k : SourceKey} {bytes : Bytes}
    (hk : a.keyFor a.tenant = .ok k) (hv : verifyBytes a.manifest bytes = .ok ()) :
    Stored { s with blobs := s.blobs.insert k.blobName bytes } a :=
  ⟨k, bytes, hk, by simp, hv⟩

/-- The calls a seal makes. They leave manifests alone. -/
def Sealing : EvidenceCall → Prop
  | .markPurged _ _ _ | .setLegalHold _ _ _ => False
  | _ => True

theorem extends_after (s : SealSystem) {c : EvidenceCall} (hc : Sealing c) :
    s.Extends { s with store := s.store.after c } where
  minted _ _ h := h
  stored _ _ h := h
  row tenant id a h := by
    have hchange := s.store.change_after c tenant id
    rw [h] at hchange
    simp only
    generalize hnew : (s.store.after c).get tenant id = new at hchange
    cases hchange with
    | same => exact ⟨a, rfl, rfl, rfl, rfl, rfl⟩
    | committed b now hp => exact ⟨_, rfl, rfl, rfl, rfl, rfl⟩
    | purged b now hp => exact absurd hc (by simp [Sealing])
    | held b hold => exact absurd hc (by simp [Sealing])

/-- A key that a call left was there before, or its row is there now. -/
theorem key_after (s : MemEvidenceStore) (c : EvidenceCall) {tenant dk id : String}
    (h : (s.after c).byDomainKey.get? (toLex (tenant, dk)) = some id) :
    s.byDomainKey.get? (toLex (tenant, dk)) = some id ∨
      ∃ a, (s.after c).get tenant id = some a := by
  cases c with
  | register a grant =>
    simp only [MemEvidenceStore.after] at h ⊢
    cases hr : s.register a grant with
    | error e =>
      simp only [hr, MemEvidenceStore.stateOr] at h
      exact .inl h
    | ok p =>
      obtain ⟨t, outcome⟩ := p
      simp only [hr, MemEvidenceStore.stateOr] at h ⊢
      rcases MemEvidenceStore.register_eq_ok hr with ⟨rfl, -⟩ | ⟨-, hget, hkeys⟩
      · exact .inl h
      · rw [hkeys, SortedMap.get?_insert] at h
        split_ifs at h with hk
        · cases h
          obtain ⟨rfl, -⟩ := Prod.mk.inj (toLex.injective hk)
          exact .inr ⟨a, hget⟩
        · exact .inl h
  | commit t i now =>
    left
    simp only [MemEvidenceStore.after, MemEvidenceStore.commit] at h
    split at h
    · exact h
    · split_ifs at h <;> exact h
  | consumeGrant t i g now =>
    left
    simp only [MemEvidenceStore.after, MemEvidenceStore.consumeGrant] at h
    split at h
    · exact h
    · split_ifs at h <;> exact h
  | markPurged t i now =>
    left
    simp only [MemEvidenceStore.after, MemEvidenceStore.markPurged] at h
    split at h
    · exact h
    · split_ifs at h <;> exact h
  | setLegalHold t i hold =>
    left
    simp only [MemEvidenceStore.after, MemEvidenceStore.setLegalHold] at h
    split at h <;> exact h

/-- A sealing call keeps the invariant if it registers an owned artifact, committed only
with its bytes stored, and commits only what is stored. -/
theorem Sound.after {s : SealSystem} (hs : s.Sound) {c : EvidenceCall} (hc : Sealing c)
    (hnew : ∀ a grant, c = .register a grant →
      s.Owned a ∧ a.state ≠ .purged ∧ (a.state = .committed → s.Stored a))
    (hcommit : ∀ tenant id now, c = .commit tenant id now →
      ∀ a, s.store.get tenant id = some a → s.Stored a) :
    Sound { s with store := s.store.after c } where
  row tenant id a h := by
    have hchange := s.store.change_after c tenant id
    simp only at h
    rw [h] at hchange
    generalize hold : s.store.get tenant id = old at hchange
    cases hchange with
    | same =>
      have hrow := hs.row _ _ _ hold
      exact ⟨hrow.tenant, hrow.evidenceId, hrow.owned.of_minted rfl, hrow.kept, hrow.stored⟩
    | created _ grant ht hid =>
      obtain ⟨ho, hkept, hstored⟩ := hnew a grant rfl
      exact ⟨ht, hid, ho.of_minted rfl, hkept, hstored⟩
    | committed b now hp =>
      have hrow := hs.row _ _ _ hold
      have hstored := hcommit _ _ _ rfl b hold
      have hown := hrow.owned.sameRow (b := { b with state := .committed, committedAt := some now })
        ⟨rfl, rfl, rfl, rfl⟩
      exact ⟨hrow.tenant, hrow.evidenceId, hown.of_minted rfl, by simp, fun _ => hstored⟩
    | purged b now hp => exact absurd hc (by simp [Sealing])
    | held b hold => exact absurd hc (by simp [Sealing])
  key tenant dk id h := by
    rcases key_after s.store c h with hold | hnew
    · obtain ⟨a, ha⟩ := hs.key _ _ _ hold
      obtain ⟨b, hb, -⟩ := (extends_after s hc).row _ _ a ha
      exact ⟨b, hb⟩
    · exact hnew
  phase p hp := (hs.phase p hp).extends (extends_after s hc)

theorem Sound.put {s : SealSystem} (hs : s.Sound) {a : EvidenceArtifact} {k : SourceKey}
    {bytes : Bytes} (ho : s.Owned a) (hk : a.keyFor a.tenant = .ok k)
    (hv : verifyBytes a.manifest bytes = .ok ()) :
    Sound { s with blobs := s.blobs.insert k.blobName bytes } where
  row tenant id b h := by
    have hrow := hs.row _ _ _ h
    have hext := extends_put ho hk hv
    exact ⟨hrow.tenant, hrow.evidenceId, hext.owned hrow.owned, hrow.kept,
      fun hc => hext.stored b hrow.owned (hrow.stored hc)⟩
  key tenant dk id h := hs.key _ _ _ h
  phase p hp := (hs.phase p hp).extends (extends_put ho hk hv)

omit [Sha256] in
/-- What a stored row answers when its commit is written. -/
theorem commit_eq_ok {s t : MemEvidenceStore} {tenant id now : String} {committed : Bool}
    (h : s.commit tenant id now = .ok (t, committed)) {a : EvidenceArtifact}
    (ha : s.get tenant id = some a) (hkept : a.state ≠ .purged) :
    ∃ b, t.get tenant id = some b ∧ b.state = .committed ∧ a.SameRow b := by
  unfold MemEvidenceStore.commit at h
  simp only [ha] at h
  split_ifs at h with hp
  · cases h
    refine ⟨a, ha, ?_, rfl, rfl, rfl, rfl⟩
    cases hst : a.state with
    | pending => exact absurd hst hp
    | committed => rfl
    | purged => exact absurd hst hkept
  · cases h
    refine ⟨{ a with state := .committed, committedAt := some now }, ?_, rfl, rfl, rfl, rfl, rfl⟩
    rw [MemEvidenceStore.get_setArtifact]
    simp

/-- What one store call of a waiting request keeps, and what it leaves the request with. -/
theorem Sound.advance {s : SealSystem} (hs : s.Sound) {p : SealPhase} (hp : p ∈ s.inFlight)
    {now : String} {store : MemEvidenceStore} {blobs : Blobs} {move : Move}
    (h : p.advance now s.store s.blobs = (store, blobs, move)) :
    Sound { s with store := store, blobs := blobs } ∧
      MoveSound { s with store := store, blobs := blobs } move := by
  have hps := hs.phase p hp
  cases p with
  | inlinePut a k bytes =>
    cases h
    obtain ⟨ho, hc, hk, hv⟩ := hps
    exact ⟨hs.put ho hk hv, (extends_put ho hk hv).owned ho, hc, stored_put hk hv⟩
  | inlineRegister a =>
    obtain ⟨ho, hc, hst⟩ := hps
    have hsound := hs.after (c := .register a none) trivial
      (by rintro _ _ ⟨⟩; exact ⟨ho, by simp [hc], fun _ => hst⟩) (by rintro _ _ _ ⟨⟩)
    simp only [SealPhase.advance] at h
    simp only [MemEvidenceStore.after] at hsound
    cases hr : s.store.register a none with
    | error e =>
      rw [hr] at h
      cases h
      exact ⟨hs, by rintro _ _ ⟨⟩⟩
    | ok q =>
      obtain ⟨t, outcome⟩ := q
      rw [hr] at h hsound
      simp only [Prod.mk.injEq] at h
      obtain ⟨rfl, rfl, rfl⟩ := h
      refine ⟨hsound, ?_⟩
      rcases MemEvidenceStore.register_eq_ok hr with ⟨rfl, hcr, -, hkey⟩ | ⟨rfl, hget, -⟩
      · simp only [hcr]
        exact hs.key _ _ _ hkey
      · rintro tenant id ⟨rfl, rfl, -⟩
        exact ⟨a, hget, hc, hst⟩
  | inlineRead tenant id =>
    obtain ⟨a, ha⟩ := hps
    cases h
    refine ⟨hs, ?_⟩
    rintro _ _ ⟨rfl, rfl, hstate⟩
    simp only [ha, Option.map_some, Option.getD_some] at hstate
    have hc := EvidenceState.asStr_injective hstate
    exact ⟨a, ha, hc, (hs.row _ _ _ ha).stored hc⟩
  | grantRegister a g =>
    obtain ⟨ho, hc⟩ := hps
    have hsound := hs.after (c := .register a (some g)) trivial
      (by rintro _ _ ⟨⟩; exact ⟨ho, by simp [hc], by simp [hc]⟩) (by rintro _ _ _ ⟨⟩)
    simp only [SealPhase.advance] at h
    simp only [MemEvidenceStore.after] at hsound
    cases hr : s.store.register a (some g) with
    | error e =>
      rw [hr] at h
      cases h
      exact ⟨hs, by rintro _ _ ⟨⟩⟩
    | ok q =>
      rw [hr] at h hsound
      cases h
      refine ⟨hsound, ?_⟩
      rintro _ _ ⟨-, -, hstate⟩
      have hsame : EvidenceState.pending.asStr = EvidenceState.committed.asStr := hstate
      cases EvidenceState.asStr_injective hsame
  | putConsume a tenant id grantId bytes =>
    obtain ⟨ho, rfl, hv⟩ := hps
    have hsound := hs.after (c := .consumeGrant a.tenant id grantId now) trivial
      (by rintro _ _ ⟨⟩) (by rintro _ _ _ ⟨⟩)
    simp only [SealPhase.advance] at h
    simp only [MemEvidenceStore.after] at hsound
    cases hr : s.store.consumeGrant a.tenant id grantId now with
    | mk t spent =>
      rw [hr] at h hsound
      cases spent with
      | none =>
        cases h
        exact ⟨hsound, by rintro _ _ ⟨⟩⟩
      | some g =>
        cases h
        refine ⟨hsound, ?_⟩
        cases hk : a.keyFor a.tenant with
        | error e =>
          rintro _ _ ⟨⟩
        | ok k => exact ⟨ho.of_minted rfl, hk, hv⟩
  | putStore a k bytes =>
    cases h
    obtain ⟨ho, hk, hv⟩ := hps
    exact ⟨hs.put ho hk hv, by rintro _ _ ⟨⟩⟩
  | commitRead a tenant id k =>
    cases h
    obtain ⟨ho, rfl, hk, b, hb, hab⟩ := hps
    refine ⟨hs, ?_⟩
    cases hget : s.blobs.get? k.blobName with
    | none => rintro _ _ ⟨⟩
    | some bytes =>
      cases hv : verifyBytes a.manifest bytes with
      | error e =>
        simp only [hv]
        rintro _ _ ⟨⟩
      | ok u =>
        simp only [hv]
        exact ⟨b, hb, ho.sameRow hab, Stored.sameRow ⟨k, bytes, hk, hget, hv⟩ hab⟩
  | commitWrite tenant id =>
    obtain ⟨a, ha, ho, hst⟩ := hps
    have hsound := hs.after (c := .commit tenant id now) trivial (by rintro _ _ ⟨⟩)
      (by
        rintro _ _ _ ⟨⟩ b hb
        rw [ha] at hb
        cases hb
        exact hst)
    simp only [SealPhase.advance] at h
    simp only [MemEvidenceStore.after] at hsound
    cases hr : s.store.commit tenant id now with
    | error e =>
      rw [hr] at h
      cases h
      exact ⟨hs, by rintro _ _ ⟨⟩⟩
    | ok q =>
      obtain ⟨t, committed⟩ := q
      rw [hr] at h hsound
      cases h
      refine ⟨hsound, ?_⟩
      rintro _ _ ⟨rfl, rfl, -⟩
      obtain ⟨b, hb, hbc, hab⟩ := commit_eq_ok hr ha (hs.row _ _ _ ha).kept
      exact ⟨b, hb, hbc, Stored.sameRow hst hab⟩

theorem extends_inFlight (s : SealSystem) (l : List SealPhase) :
    s.Extends { s with inFlight := l } where
  minted _ _ h := h
  stored _ _ h := h
  row _ _ a h := ⟨a, h, rfl, rfl, rfl, rfl⟩

theorem Sound.withInFlight {s : SealSystem} (hs : s.Sound) {l : List SealPhase}
    (hl : ∀ p ∈ l, s.PhaseSound p) : Sound { s with inFlight := l } where
  row tenant id a h := by
    have hrow := hs.row _ _ _ h
    exact ⟨hrow.tenant, hrow.evidenceId, hrow.owned.of_minted rfl, hrow.kept, hrow.stored⟩
  key tenant dk id h := hs.key _ _ _ h
  phase p hp := (hl p hp).extends (extends_inFlight s l)

/-- The state is sound and the answer, if one was given, is true of it. -/
def StepSound (result : SealSystem × Option Answer) : Prop :=
  result.1.Sound ∧ ∀ r, result.2 = some r → result.1.Truthful r

theorem Sound.began {s : SealSystem} (hs : s.Sound) {move : Move} (hm : s.MoveSound move) :
    StepSound (s.began move) := by
  cases move with
  | wait p =>
    refine ⟨?_, by rintro _ ⟨⟩⟩
    apply hs.withInFlight
    intro q hq
    rcases List.mem_cons.mp hq with rfl | hq
    · exact hm
    · exact hs.phase q hq
  | answer r =>
    refine ⟨hs, ?_⟩
    rintro _ ⟨⟩
    exact hm

theorem Sound.resumed {s : SealSystem} (hs : s.Sound) (i : ℕ) {move : Move}
    (hm : s.MoveSound move) : StepSound (s.resumed i move) := by
  cases move with
  | wait p =>
    refine ⟨?_, by rintro _ ⟨⟩⟩
    apply hs.withInFlight
    intro q hq
    rcases List.mem_or_eq_of_mem_set hq with hq | rfl
    · exact hs.phase q hq
    · exact hm
  | answer r =>
    refine ⟨?_, ?_⟩
    · apply hs.withInFlight
      intro q hq
      exact hs.phase q (List.mem_of_mem_eraseIdx hq)
    · rintro _ ⟨⟩
      exact hm

theorem extends_mint {s : SealSystem} (access : AccessCtx)
    (raw : Except String EvidenceManifest) {n : Minted}
    (hfresh : s.minted.get? n.evidenceId = none) : s.Extends (s.mint access raw n) := by
  unfold mint
  split
  · exact .refl s
  · next m hm =>
    refine ⟨?_, fun _ _ h => h, fun _ _ a h => ⟨a, h, rfl, rfl, rfl, rfl⟩⟩
    intro id m' h
    simp only
    rw [SortedMap.get?_insert_of_ne]
    · exact h
    · rintro rfl
      rw [hfresh] at h
      cases h

omit [Sha256] in
theorem mint_store (s : SealSystem) (access : AccessCtx)
    (raw : Except String EvidenceManifest) (n : Minted) :
    (s.mint access raw n).store = s.store ∧ (s.mint access raw n).inFlight = s.inFlight := by
  unfold mint
  split <;> exact ⟨rfl, rfl⟩

theorem Sound.mint {s : SealSystem} (hs : s.Sound) (access : AccessCtx)
    (raw : Except String EvidenceManifest) {n : Minted}
    (hfresh : s.minted.get? n.evidenceId = none) : Sound (s.mint access raw n) := by
  obtain ⟨hstore, hflight⟩ := mint_store s access raw n
  have hext := extends_mint access raw hfresh
  constructor
  · intro tenant id a h
    rw [hstore] at h
    have hrow := hs.row _ _ _ h
    exact ⟨hrow.tenant, hrow.evidenceId, hext.owned hrow.owned, hrow.kept,
      fun hc => hext.stored a hrow.owned (hrow.stored hc)⟩
  · intro tenant dk id h
    rw [hstore] at h ⊢
    exact hs.key _ _ _ h
  · intro p hp
    rw [hflight] at hp
    exact (hs.phase p hp).extends hext

omit [Sha256] in
theorem mint_owned {s : SealSystem} {access : AccessCtx}
    {raw : Except String EvidenceManifest} {n : Minted} {m : EvidenceManifest}
    (hm : parseManifest raw access = .ok m) (state : EvidenceState) :
    (s.mint access raw n).Owned (n.artifact m state) := by
  refine ⟨rfl, ?_, rfl⟩
  simp [SealSystem.mint, hm, Minted.artifact]

theorem opSeal_sound {s : SealSystem} (hs : s.Sound) (access : AccessCtx)
    (raw : Except String EvidenceManifest) (body : Option (Except String Bytes)) {n : Minted}
    (hfresh : s.minted.get? n.evidenceId = none) :
    (s.mint access raw n).MoveSound (.of (opSeal s.store access raw body n)) := by
  have hmint := hs.mint access raw hfresh
  cases hm : parseManifest raw access with
  | error e =>
    simp only [opSeal, hm]
    rintro _ _ ⟨⟩
  | ok m =>
    simp only [opSeal, hm]
    cases hf : s.store.findByDomainKey m.tenant m.domainKey with
    | some a =>
      rintro _ _ ⟨rfl, rfl, hstate⟩
      have hc := EvidenceState.asStr_injective (show a.state.asStr = _ from hstate)
      obtain ⟨id, -, ha⟩ := Option.bind_eq_some_iff.mp hf
      rw [← (mint_store s access raw n).1] at ha
      have hrow := hmint.row _ _ _ ha
      refine ⟨a, ?_, hc, hrow.stored hc⟩
      simp only [existingAnswer, hrow.evidenceId]
      exact ha
    | none =>
      cases body with
      | none => exact ⟨mint_owned hm .pending, rfl⟩
      | some body =>
        simp only [inlineChecks]
        cases body with
        | error e => rintro _ _ ⟨⟩
        | ok bytes =>
          simp only
          split_ifs
          · rintro _ _ ⟨⟩
          · cases hv : verifyBytes m bytes with
            | error e => rintro _ _ ⟨⟩
            | ok u =>
              cases hk : (n.artifact m .committed).keyFor m.tenant with
              | error e =>
                simp only
                rintro _ _ ⟨⟩
              | ok k =>
                simp only
                exact ⟨mint_owned hm .committed, rfl, hk, hv⟩

theorem opPutBytes_sound {s : SealSystem} (hs : s.Sound) (access : AccessCtx)
    (evidenceId grantId : String) (bytes : Bytes) :
    s.MoveSound (.of (opPutBytes s.store access evidenceId grantId bytes)) := by
  unfold opPutBytes
  cases ha : s.store.get access.tenantId evidenceId with
  | none => rintro _ _ ⟨⟩
  | some a =>
    have hrow := hs.row _ _ _ ha
    simp only
    split_ifs
    · cases hv : verifyBytes a.manifest bytes with
      | error e =>
        simp only
        rintro _ _ ⟨⟩
      | ok u =>
        simp only
        exact ⟨hrow.owned, hrow.tenant, hv⟩
    · rintro _ _ ⟨⟩

theorem opCommit_sound {s : SealSystem} (hs : s.Sound) (access : AccessCtx)
    (evidenceId : String) : s.MoveSound (.of (opCommit s.store access evidenceId)) := by
  unfold opCommit
  cases ha : s.store.get access.tenantId evidenceId with
  | none => rintro _ _ ⟨⟩
  | some a =>
    have hrow := hs.row _ _ _ ha
    simp only
    split_ifs
    · cases hk : a.keyFor access.tenantId with
      | error e =>
        simp only
        rintro _ _ ⟨⟩
      | ok k =>
        simp only
        exact ⟨hrow.owned, hrow.tenant, hk, a, ha, rfl, rfl, rfl, rfl⟩
    · rintro _ _ ⟨⟩

/-- No step but a purge breaks the invariant or gives a wrong answer. -/
theorem Sound.next {s t : SealSystem} (hs : s.Sound) {e : SealEvent} (hkept : ¬ e.Purges)
    {answer : Option Answer} (h : s.next e = some (t, answer)) : StepSound (t, answer) := by
  cases e with
  | opSeal access raw body n =>
    simp only [SealSystem.next] at h
    split_ifs at h with hg
    rw [← Option.some.inj h]
    exact (hs.mint access raw hg.2.1).began (opSeal_sound hs access raw body hg.2.1)
  | opPutBytes access id grantId bytes =>
    rw [← Option.some.inj h]
    exact hs.began (opPutBytes_sound hs access id grantId bytes)
  | opCommit access id =>
    rw [← Option.some.inj h]
    exact hs.began (opCommit_sound hs access id)
  | advance i now =>
    simp only [SealSystem.next] at h
    cases hp : s.inFlight[i]? with
    | none => simp [hp] at h
    | some p =>
      simp only [hp] at h
      cases hadv : p.advance now s.store s.blobs with
      | mk store rest =>
        obtain ⟨blobs, move⟩ := rest
        rw [hadv] at h
        rw [← Option.some.inj h]
        obtain ⟨hsound, hmove⟩ := hs.advance (List.mem_of_getElem? hp) hadv
        exact hsound.resumed i hmove
  | fail i e =>
    simp only [SealSystem.next] at h
    split_ifs at h
    rw [← Option.some.inj h]
    exact hs.resumed i (by rintro _ _ ⟨⟩)
  | purgeDelete tenant id => exact absurd trivial hkept
  | purgeMark tenant id now => exact absurd trivial hkept

theorem ReachableBy.sound {s : SealSystem} (h : ReachableBy (¬ ·.Purges) s) : s.Sound := by
  induction h with
  | start => exact ⟨by rintro _ _ _ ⟨⟩, by rintro _ _ _ ⟨⟩, by rintro _ ⟨⟩⟩
  | step e _ hkept hnext ih => exact (ih.next hkept hnext).1

/-- Every answer on the way was given in a sound state it is true of. -/
theorem Sound.afterAll {s t : SealSystem} (hs : s.Sound) {events : List SealEvent}
    {answers : List Answer} (hkept : ∀ e ∈ events, ¬ e.Purges)
    (h : s.afterAll events = some (t, answers)) :
    ∀ r ∈ answers, ∃ u, Sound u ∧ u.Truthful r := by
  induction events generalizing s answers with
  | nil =>
    cases h
    simp
  | cons e rest ih =>
    simp only [SealSystem.afterAll, Option.bind_eq_bind, Option.bind_eq_some_iff] at h
    obtain ⟨⟨u, answer⟩, hnext, ⟨v, later⟩, hrest, heq⟩ := h
    obtain ⟨hsound, htrue⟩ := hs.next (hkept e List.mem_cons_self) hnext
    cases heq
    intro r hr
    rcases List.mem_append.mp hr with hr | hr
    · exact ⟨u, hsound, htrue r (Option.mem_toList.mp hr)⟩
    · exact ih hsound (fun e he => hkept e (List.mem_cons_of_mem _ he)) hrest r hr

end

end SealSystem

end Munarium
