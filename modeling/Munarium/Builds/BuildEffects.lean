import Munarium.Builds.MirrorLinks

/-! What one step of a build or of a pass does to the attempts and to the catalog, said once. -/
namespace Munarium

namespace PassPhase

/-- The attempt that a pass is at. -/
def current : PassPhase → Option ℕ
  | readAttempt t _ | readStagedManifest t _ _ | readArtifact t _ _ _ | markSucceeded t _
  | markFailed t _ | cleanup t _ => some t
  | publish pub _ _ => some pub.attemptId
  | _ => none

/-- The rows that a pass has still to look at. -/
def rest : PassPhase → List AttemptRow
  | rows rest | readAttempt _ rest | readStagedManifest _ _ rest | readArtifact _ _ _ rest
  | publish _ _ rest | markSucceeded _ rest | markFailed _ rest | cleanup _ rest => rest
  | _ => []

/-- The attempts that a pass is at, or will act on. -/
def concerns (nodeId : String) (phase : PassPhase) : List ℕ :=
  phase.current.toList ++ (phase.rest.filter fun r =>
    r.ownerNodeId = nodeId ∨ r.leaseExpired).map AttemptRow.attemptId

/-- The attempt whose artifact a pass may still mark as verified. -/
def resuming : PassPhase → Option ℕ
  | readAttempt t _ | readStagedManifest t _ _ | readArtifact t _ _ _ => some t
  | publish pub p _ => if p.pastVerified then none else some pub.attemptId
  | _ => none

/-- The attempts that a pass resumes, or may. -/
def resumable (nodeId : String) (phase : PassPhase) : List ℕ :=
  phase.resuming.toList ++ (phase.rest.filter fun r =>
    r.ownerNodeId = nodeId ∧ !r.leaseExpired).map AttemptRow.attemptId

end PassPhase

section
variable [Sha256] [ManifestJson] {site : Site} {w w' : World}

/-- A build's step on the attempts: none, an expiry, its claim, a beat of its lease, or the end of
its attempt's running, by a seal or for good. -/
inductive BuildEffect (site : Site) (w : World) (b : MirrorBuild) (w' : World) :
    BuildPhase → Prop
  | same {phase : BuildPhase} (h : w'.attempts = w.attempts)
      (hattempt : phase.attempt = none ∨ phase.attempt = b.phase.attempt)
      (hbeating : phase.beating = none ∨ phase.beating = b.phase.beating) :
      BuildEffect site w b w' phase
  | expired (hb : b.phase = .expireStale) (h : w' = w.expireStale) : BuildEffect site w b w' .claim
  | claimed {t : ℕ} (hb : b.phase = .claim)
      (h : w.attempts.insertRunning b.ctx.nodeId site.leaseSecs w.now = some (t, w'.attempts)) :
      BuildEffect site w b w' (.streaming t)
  | beat {t : ℕ} {phase : BuildPhase} (hb : b.phase.attempt = some t)
      (h : w.heartbeat t b.ctx.nodeId site.leaseSecs = some w')
      (hattempt : phase.attempt = some t) (hbeating : phase.beating = b.phase.beating) :
      BuildEffect site w b w' phase
  | sealed {t : ℕ} {id : String} {phase : BuildPhase} (hb : b.phase.attempt = some t)
      (hnone : b.phase.building = some t)
      (h : w.transition t .sealed (some id) = some w') (hattempt : phase.attempt = some t)
      (hbeating : phase.beating = some t) : BuildEffect site w b w' phase
  | settled {t : ℕ} {next : AttemptState} {id : Option String} {phase : BuildPhase}
      (hb : b.phase.attempt = some t) (hnext : next.isTerminal)
      (h : w.transition t next id = some w') (hattempt : phase.attempt = some t)
      (hbeating : phase.beating = none) : BuildEffect site w b w' phase

theorem MirrorBuild.effect {b : MirrorBuild} {phase : BuildPhase}
    (h : b.advance site w = some (w', phase)) :
    w'.now = w.now ∧ BuildEffect site w b w' phase := by
  cases hat : b.phase <;> simp only [MirrorBuild.advance, hat] at h
  case checkCatalog | checkSealed =>
    split at h <;> cases h <;> exact ⟨rfl, .same rfl (.inl rfl) (.inl rfl)⟩
  case readExisting t a =>
    split at h <;> cases h
    · exact ⟨rfl, .same rfl (.inr (hat ▸ rfl)) (.inl rfl)⟩
    · exact ⟨rfl, .same rfl (.inr (hat ▸ rfl)) (.inr (hat ▸ rfl))⟩
  case readAttempt t =>
    split at h
    · split_ifs at h <;> cases h
      · exact ⟨rfl, .same rfl (.inl rfl) (.inl rfl)⟩
      · exact ⟨rfl, .same rfl (.inr (hat ▸ rfl)) (.inl rfl)⟩
    · cases h
      exact ⟨rfl, .same rfl (.inr (hat ▸ rfl)) (.inl rfl)⟩
  case sealing t | stageManifest t a =>
    cases h
    exact ⟨rfl, .same rfl (.inr (hat ▸ rfl)) (.inr (hat ▸ rfl))⟩
  case readHolder | done | cleanup =>
    cases h
    exact ⟨rfl, .same rfl (.inl rfl) (.inl rfl)⟩
  case expireStale =>
    cases h
    exact ⟨rfl, .expired hat rfl⟩
  case claim =>
    split at h
    · rename_i hinsert
      cases h
      exact ⟨rfl, .claimed hat hinsert⟩
    · cases h
      exact ⟨rfl, .same rfl (.inl rfl) (.inl rfl)⟩
  case streaming t | checkLease t a =>
    split_ifs at h
    obtain ⟨v, hv, hnext⟩ := Option.map_eq_some_iff.mp h
    cases hnext
    have hnow : w'.now = w.now := by
      obtain ⟨a, -, -, -, rfl⟩ := World.heartbeat_ok hv
      rfl
    exact ⟨hnow, .beat (hat ▸ rfl) hv rfl (hat ▸ rfl)⟩
  case insertSealed t a =>
    split at h
    · rename_i hinsert
      cases h
      obtain ⟨-, rfl⟩ := World.insertSealed_ok hinsert
      exact ⟨rfl, .same rfl (.inr (hat ▸ rfl)) (.inr (hat ▸ rfl))⟩
    · cases h
      exact ⟨rfl, .same rfl (.inr (hat ▸ rfl)) (.inr (hat ▸ rfl))⟩
  case markSealed t a =>
    obtain ⟨v, hv, hnext⟩ := Option.map_eq_some_iff.mp h
    cases hnext
    have hnow : w'.now = w.now := by
      obtain ⟨a, -, -, rfl⟩ := World.transition_ok hv
      rfl
    exact ⟨hnow, .sealed (hat ▸ rfl) (hat ▸ rfl) hv rfl rfl⟩
  case markConverged | markSucceeded | markFailed =>
    obtain ⟨v, hv, hnext⟩ := Option.map_eq_some_iff.mp h
    cases hnext
    have hnow : w'.now = w.now := by
      obtain ⟨a, -, -, rfl⟩ := World.transition_ok hv
      rfl
    exact ⟨hnow, .settled (hat ▸ rfl) rfl hv rfl rfl⟩
  case publish pub p =>
    split at h <;> cases h <;> rename_i hadvance <;>
      obtain ⟨hattempts, hnow, -⟩ := Publication.frame hadvance
    · exact ⟨hnow, .same hattempts (.inr (hat ▸ rfl))
        (.inr (hat ▸ rfl))⟩
    · exact ⟨hnow, .same hattempts (.inr (hat ▸ rfl)) (.inl rfl)⟩

/-- A pass's step on the attempts: none, an expiry, or the end of one that it is concerned with. -/
inductive PassEffect (w : World) (p : Pass) (w' : World) : Prop
  | same (h : w'.attempts = w.attempts)
  | expired (h : w' = w.expireStale)
  | settled {t : ℕ} {next : AttemptState} (ht : p.phase.current = some t)
      (hnext : next.isTerminal) (h : w.transition t next none = some w') : PassEffect w p w'

omit [Sha256] [ManifestJson] in
/-- A row that is abandoned is the node's own or has a lapsed lease. -/
theorem abandon_ours {r : AttemptRow} {nodeId reason : String} {present : Bool}
    (h : reconcileSealed r nodeId present = .abandon reason) :
    r.ownerNodeId = nodeId ∨ r.leaseExpired := by
  unfold reconcileSealed at h
  split_ifs at h with hother hlapsed
  · exact .inr hlapsed
  · exact .inl (not_not.mp hother)
  · exact .inl (not_not.mp hother)

omit [Sha256] [ManifestJson] in
/-- A row that is resumed is the node's own, with a lease that lasts. -/
theorem resume_ours {r : AttemptRow} {nodeId : String} {present : Bool}
    (h : reconcileSealed r nodeId present = .resume) :
    r.ownerNodeId = nodeId ∧ r.leaseExpired = false := by
  unfold reconcileSealed at h
  split_ifs at h with hother _ hlapsed
  exact ⟨not_not.mp hother, by simpa using hlapsed⟩

omit [ManifestJson] in
theorem Publication.pastVerified_mono {version nodeId : String} {pub : Publication}
    {q q' : PublishPhase} (h : pub.advance version nodeId w q = some (w', .inl q'))
    (hq : q.pastVerified) : q'.pastVerified := by
  cases q with
  | readBinding =>
    simp only [Publication.advance] at h
    split_ifs at h
    · cases h
    · cases h
      rfl
  | bindStaged =>
    simp only [Publication.advance] at h
    split at h <;> cases h
  | _ => cases hq

omit [Sha256] [ManifestJson] in
/-- The row at the head of a pass's list, and the list behind it. -/
theorem PassPhase.mem_rows (nodeId : String) (row : AttemptRow) (rest : List AttemptRow) :
    (∀ t ∈ (PassPhase.rows rest).concerns nodeId,
        t ∈ (PassPhase.rows (row :: rest)).concerns nodeId) ∧
      (∀ t ∈ (PassPhase.rows rest).resumable nodeId,
        t ∈ (PassPhase.rows (row :: rest)).resumable nodeId) := by
  simp only [concerns, resumable, current, resuming, PassPhase.rest, Option.toList_none,
    List.nil_append]
  constructor
  · intro t ht
    exact List.Sublist.subset (((List.sublist_cons_self row rest).filter _).map _) ht
  · intro t ht
    exact List.Sublist.subset (((List.sublist_cons_self row rest).filter _).map _) ht

theorem Pass.effect {p : Pass} {phase : PassPhase} (h : p.advance site w = some (w', phase)) :
    w'.now = w.now ∧ PassEffect w p w' ∧
      (phase = .rows (w.attempts.sealedAwaitingPublication w.now) ∧ p.phase = .list ∨
        (∀ t ∈ phase.concerns p.nodeId, t ∈ p.phase.concerns p.nodeId) ∧
        ∀ t ∈ phase.resumable p.nodeId, t ∈ p.phase.resumable p.nodeId) := by
  cases hat : p.phase <;> simp only [Pass.advance, hat] at h
  case expireStale =>
    cases h
    exact ⟨rfl, .expired rfl, .inr ⟨fun _ h => h, fun _ h => h⟩⟩
  case list =>
    cases h
    exact ⟨rfl, .same rfl, .inl ⟨rfl, rfl⟩⟩
  case done =>
    cases h
    exact ⟨rfl, .same rfl, .inr ⟨fun _ h => h, fun _ h => h⟩⟩
  case rows rest =>
    cases rest with
    | nil =>
      cases h
      exact ⟨rfl, .same rfl, .inr ⟨fun _ h => h, fun _ h => h⟩⟩
    | cons row rest =>
      have hrest := PassPhase.mem_rows p.nodeId row rest
      simp only at h
      split at h <;> cases h
      · exact ⟨rfl, .same rfl, .inr hrest⟩
      · rename_i habandon
        refine ⟨rfl, .same rfl, .inr ⟨fun t ht => ?_, hrest.2⟩⟩
        have hours := abandon_ours habandon
        rcases List.mem_cons.mp ht with rfl | ht
        · apply List.mem_map_of_mem
          simp [PassPhase.rest, hours]
        · exact hrest.1 t ht
      · rename_i hresume
        obtain ⟨howner, hlasts⟩ := resume_ours hresume
        refine ⟨rfl, .same rfl, .inr ⟨fun t ht => ?_, fun t ht => ?_⟩⟩
        · rcases List.mem_cons.mp ht with rfl | ht
          · apply List.mem_map_of_mem
            simp [PassPhase.rest, howner]
          · exact hrest.1 t ht
        · rcases List.mem_cons.mp ht with rfl | ht
          · apply List.mem_map_of_mem
            simp [PassPhase.rest, howner, hlasts]
          · exact hrest.2 t ht
  case readAttempt t rest =>
    split at h <;> cases h
    exact ⟨rfl, .same rfl, .inr ⟨fun _ h => h, fun _ h => h⟩⟩
  case readStagedManifest t id rest =>
    split at h
    · split_ifs at h
      obtain ⟨components, -, hnext⟩ := Option.map_eq_some_iff.mp h
      cases hnext
      exact ⟨rfl, .same rfl, .inr ⟨fun _ h => h, fun _ h => h⟩⟩
    · cases h
  case readArtifact t id components rest =>
    split at h <;> cases h
    · refine ⟨rfl, .same rfl, .inr ⟨fun _ h => h, fun u hu => ?_⟩⟩
      exact List.mem_cons_of_mem t hu
    · exact ⟨rfl, .same rfl, .inr ⟨fun _ h => h, fun _ h => h⟩⟩
  case publish pub q rest =>
    split at h <;> cases h <;> rename_i hadvance <;>
      obtain ⟨hattempts, hnow, -⟩ := Publication.frame hadvance
    · refine ⟨hnow, .same hattempts, .inr ⟨fun _ h => h, fun u hu => ?_⟩⟩
      rcases List.mem_append.mp hu with hu | hu
      · apply List.mem_append_left
        by_cases hq : q.pastVerified = true
        · simp [PassPhase.resuming, Publication.pastVerified_mono hadvance hq] at hu
        · simp only [PassPhase.resuming] at hu
          split_ifs at hu
          · cases hu
          · simpa [PassPhase.resuming, hq] using hu
      · exact List.mem_append_right _ hu
    · refine ⟨hnow, .same hattempts, .inr ⟨fun _ h => h, fun u hu => ?_⟩⟩
      exact List.mem_append_right _ hu
  case markSucceeded t rest | markFailed t rest =>
    obtain ⟨v, hv, hnext⟩ := Option.map_eq_some_iff.mp h
    cases hnext
    have hnow : w'.now = w.now := by
      obtain ⟨a, -, -, rfl⟩ := World.transition_ok hv
      rfl
    exact ⟨hnow, .settled (hat ▸ rfl) rfl hv, .inr ⟨fun _ h => h, fun _ h => h⟩⟩
  case cleanup t rest =>
    cases h
    exact ⟨rfl, .same rfl, .inr ⟨fun u hu => List.mem_cons_of_mem t hu, fun _ h => h⟩⟩

/-- `artifacts_for_version` lists every row of the catalog. -/
def World.Listed (w : World) : Prop := ∀ id, w.Catalogued id → id ∈ w.artifactIds

omit [Sha256] [ManifestJson] in
theorem World.verifiedArtifact_eq_none (hw : w.Listed) (h : w.verifiedArtifact = none)
    (id : String) : ¬w.Verified id := by
  intro hid
  have hall := List.find?_eq_none.mp h id (hw id hid.catalogued)
  exact hall (decide_eq_true hid)

/-- What a step makes of the catalog: it keeps its rows listed, and it verifies at most the
artifact that it marks. -/
structure CatalogEffect (w w' : World) (marks : Option String) : Prop where
  listed : w.Listed → w'.Listed
  verified : ∀ id, w'.Verified id → w.Verified id ∨ marks = some id

omit [Sha256] [ManifestJson] in
theorem CatalogEffect.of_eq {marks : Option String}
    (hartifacts : w'.bindings.artifacts = w.bindings.artifacts)
    (hids : w'.artifactIds = w.artifactIds) : CatalogEffect w w' marks where
  listed h id hid := by
    rw [hids]
    apply h
    rwa [World.Catalogued, ← hartifacts]
  verified id hid := .inl (by rwa [World.Verified, ← hartifacts])

omit [Sha256] [ManifestJson] in
theorem catalogEffect_insertSealed {id uri : String} {marks : Option String}
    (h : w.insertSealed id uri = some w') : CatalogEffect w w' marks := by
  obtain ⟨hnone, rfl⟩ := World.insertSealed_ok h
  constructor
  · intro hw other hother
    by_cases heq : other = id
    · simp [heq]
    · apply List.mem_append_left
      apply hw
      simpa [World.Catalogued, World.setState, Function.update_of_ne heq] using hother
  · intro other hother
    have heq : other ≠ id := by
      rintro rfl
      simp [World.Verified, World.setState] at hother
    left
    simpa [World.Verified, World.setState, Function.update_of_ne heq] using hother

omit [Sha256] [ManifestJson] in
theorem catalogEffect_markVerified {id : String} (h : w.markVerified id = some w') :
    CatalogEffect w w' (some id) := by
  obtain ⟨hsealed, rfl⟩ := World.markVerified_ok h
  constructor
  · intro hw other hother
    by_cases heq : other = id
    · apply hw
      rw [heq, World.Catalogued, hsealed]
      rfl
    · apply hw
      simpa [World.Catalogued, World.setState, Function.update_of_ne heq] using hother
  · intro other hother
    by_cases heq : other = id
    · exact .inr (by rw [heq])
    · left
      simpa [World.Verified, World.setState, Function.update_of_ne heq] using hother

/-- The artifact that a publication's step marks. -/
def PublishPhase.marks (pub : Publication) : PublishPhase → Option String
  | .markVerified => some pub.artifactId
  | _ => none

omit [ManifestJson] in
theorem Publication.catalogEffect {version nodeId : String} {pub : Publication}
    {q : PublishPhase} {next : PublishPhase ⊕ Bool}
    (h : pub.advance version nodeId w q = some (w', next)) :
    CatalogEffect w w' (q.marks pub) := by
  cases q with
  | readStaged rest =>
    cases rest with
    | nil =>
      cases h
      exact .of_eq rfl rfl
    | cons c rest =>
      simp only [Publication.advance] at h
      split at h
      · split_ifs at h
        cases h
        exact .of_eq rfl rfl
      · cases h
  | upload c bytes rest | uploadManifest bytes =>
    cases h
    exact .of_eq rfl rfl
  | readStagedManifest | readBack =>
    simp only [Publication.advance] at h
    split at h
    · split_ifs at h
      cases h
      exact .of_eq rfl rfl
    · cases h
  | markVerified =>
    obtain ⟨v, hv, hnext⟩ := Option.map_eq_some_iff.mp h
    cases hnext
    exact catalogEffect_markVerified hv
  | readBinding =>
    simp only [Publication.advance] at h
    split_ifs at h <;> cases h <;> exact .of_eq rfl rfl
  | bindStaged =>
    simp only [Publication.advance] at h
    split at h
    · rename_i hbind
      cases h
      exact .of_eq (Bindings.bindNew_artifacts hbind) rfl
    · cases h

/-- The attempt and the artifact of a publication that stands at its mark. -/
def BuildPhase.marking : BuildPhase → Option (ℕ × String)
  | .publish pub q => (q.marks pub).map fun id => (pub.attemptId, id)
  | _ => none

def PassPhase.marking : PassPhase → Option (ℕ × String)
  | .publish pub q _ => (q.marks pub).map fun id => (pub.attemptId, id)
  | _ => none

theorem MirrorBuild.catalogEffect {b : MirrorBuild} {phase : BuildPhase}
    (h : b.advance site w = some (w', phase)) :
    CatalogEffect w w' (b.phase.marking.map Prod.snd) := by
  cases hat : b.phase <;> simp only [MirrorBuild.advance, hat] at h
  case checkCatalog | checkSealed | readExisting | claim =>
    split at h <;> cases h <;> exact .of_eq rfl rfl
  case readAttempt =>
    split at h
    · split_ifs at h <;> cases h <;> exact .of_eq rfl rfl
    · cases h
      exact .of_eq rfl rfl
  case sealing | stageManifest | readHolder | done | cleanup | expireStale =>
    cases h
    exact .of_eq rfl rfl
  case streaming | checkLease =>
    split_ifs at h
    obtain ⟨v, hv, hnext⟩ := Option.map_eq_some_iff.mp h
    cases hnext
    obtain ⟨a, -, -, -, rfl⟩ := World.heartbeat_ok hv
    exact .of_eq rfl rfl
  case insertSealed =>
    split at h
    · rename_i hinsert
      cases h
      exact catalogEffect_insertSealed hinsert
    · cases h
      exact .of_eq rfl rfl
  case markSealed | markConverged | markSucceeded | markFailed =>
    obtain ⟨v, hv, hnext⟩ := Option.map_eq_some_iff.mp h
    cases hnext
    obtain ⟨a, -, -, rfl⟩ := World.transition_ok hv
    exact .of_eq rfl rfl
  case publish pub q =>
    have hmarks : ((BuildPhase.publish pub q).marking.map Prod.snd) = q.marks pub := by
      simp [BuildPhase.marking, Function.comp_def]
    rw [hmarks]
    split at h <;> cases h <;> exact Publication.catalogEffect ‹_›

theorem Pass.catalogEffect {p : Pass} {phase : PassPhase}
    (h : p.advance site w = some (w', phase)) :
    CatalogEffect w w' (p.phase.marking.map Prod.snd) := by
  cases hat : p.phase <;> simp only [Pass.advance, hat] at h
  case expireStale | list | done | cleanup =>
    cases h
    exact .of_eq rfl rfl
  case rows rest =>
    cases rest with
    | nil =>
      cases h
      exact .of_eq rfl rfl
    | cons row rest =>
      simp only at h
      split at h <;> cases h <;> exact .of_eq rfl rfl
  case readAttempt | readArtifact =>
    split at h <;> cases h <;> exact .of_eq rfl rfl
  case readStagedManifest =>
    split at h
    · split_ifs at h
      obtain ⟨components, -, hnext⟩ := Option.map_eq_some_iff.mp h
      cases hnext
      exact .of_eq rfl rfl
    · cases h
  case publish pub q rest =>
    have hmarks : ((PassPhase.publish pub q rest).marking.map Prod.snd) = q.marks pub := by
      simp [PassPhase.marking, Function.comp_def]
    rw [hmarks]
    split at h <;> cases h <;> exact Publication.catalogEffect ‹_›
  case markSucceeded | markFailed =>
    obtain ⟨v, hv, hnext⟩ := Option.map_eq_some_iff.mp h
    cases hnext
    obtain ⟨a, -, -, rfl⟩ := World.transition_ok hv
    exact .of_eq rfl rfl

theorem BuildPhase.beating_attempt {phase : BuildPhase} {t : ℕ} (h : phase.beating = some t) :
    phase.attempt = some t := by
  cases phase <;> first | exact h | cases h

theorem BuildPhase.failed_attempt (phase : BuildPhase) :
    (phase.failed.attempt = none ∨ phase.failed.attempt = phase.attempt) ∧
      phase.failed.beating = none := by
  cases phase <;> simp [failed, attempt, beating]

theorem BuildMove.effect {b : MirrorBuild} {e : MirrorEvent} {i : ℕ} {phase : BuildPhase}
    (h : BuildMove site w b e i w' phase) :
    w'.now = w.now ∧ BuildEffect site w b w' phase ∧
      CatalogEffect w w' (b.phase.marking.map Prod.snd) ∧
      (b.phase = .claim → w'.attempts = w.attempts ∨ e = .advanceBuild i) := by
  cases h with
  | advance he h =>
    obtain ⟨hnow, heffect⟩ := MirrorBuild.effect h
    exact ⟨hnow, heffect, MirrorBuild.catalogEffect h, fun _ => .inr he⟩
  | stage a hat =>
    obtain ⟨staging, hstage⟩ := stageFiles_eq b a w
    rw [hstage]
    exact ⟨rfl, .same rfl (.inr (hat ▸ rfl)) (.inr (hat ▸ rfl)), .of_eq rfl rfl,
      fun _ => .inl rfl⟩
  | fail =>
    obtain ⟨hattempt, hbeating⟩ := b.phase.failed_attempt
    exact ⟨rfl, .same rfl hattempt (.inl hbeating), .of_eq rfl rfl, fun _ => .inl rfl⟩
  | crash => exact ⟨rfl, .same rfl (.inl rfl) (.inl rfl), .of_eq rfl rfl, fun _ => .inl rfl⟩
  | beat hphase h =>
    obtain ⟨a, -, -, -, hw⟩ := World.heartbeat_ok h
    have hattempt := BuildPhase.beating_attempt hphase
    refine ⟨by rw [hw], .beat hattempt h hattempt rfl, .of_eq (by rw [hw]) (by rw [hw]), ?_⟩
    intro hclaim
    rw [hclaim] at hattempt
    cases hattempt
  | lost => exact ⟨rfl, .same rfl (.inr rfl) (.inr rfl), .of_eq rfl rfl, fun _ => .inl rfl⟩

omit [Sha256] [ManifestJson] in
theorem PassPhase.failed_concerns (phase : PassPhase) (nodeId : String) :
    (∀ t ∈ phase.failed.concerns nodeId, t ∈ phase.concerns nodeId) ∧
      ∀ t ∈ phase.failed.resumable nodeId, t ∈ phase.resumable nodeId := by
  cases phase <;> constructor <;> intro t ht <;>
    simp_all [failed, concerns, resumable, current, resuming, PassPhase.rest]

theorem PassMove.effect {p : Pass} {e : MirrorEvent} {i : ℕ} {phase : PassPhase}
    (h : PassMove site w p e i w' phase) :
    w'.now = w.now ∧ PassEffect w p w' ∧
      (e = .advancePass i ∧ p.phase = .list ∧
          phase = .rows (w.attempts.sealedAwaitingPublication w.now) ∨
        (∀ t ∈ phase.concerns p.nodeId, t ∈ p.phase.concerns p.nodeId) ∧
        ∀ t ∈ phase.resumable p.nodeId, t ∈ p.phase.resumable p.nodeId) ∧
      CatalogEffect w w' (p.phase.marking.map Prod.snd) := by
  cases h with
  | advance he h =>
    obtain ⟨hnow, heffect, hphase⟩ := Pass.effect h
    refine ⟨hnow, heffect, hphase.imp_left fun ⟨hrows, hlist⟩ => ⟨he, hlist, hrows⟩, ?_⟩
    exact Pass.catalogEffect h
  | fail => exact ⟨rfl, .same rfl, .inr (p.phase.failed_concerns p.nodeId), .of_eq rfl rfl⟩
  | crash =>
    refine ⟨rfl, .same rfl, .inr ⟨fun t ht => ?_, fun t ht => ?_⟩, .of_eq rfl rfl⟩
    · cases ht
    · cases ht

/-- A pass removes the staging directory of no attempt but the one that it is at. -/
theorem Pass.staging {p : Pass} {phase : PassPhase} (h : p.advance site w = some (w', phase))
    {t : ℕ} (ht : p.phase.current ≠ some t) (nodeId : String) :
    w'.staging nodeId t = w.staging nodeId t := by
  cases hat : p.phase <;> simp only [Pass.advance, hat] at h <;> rw [hat] at ht
  case expireStale | list | done =>
    cases h
    rfl
  case rows rest =>
    cases rest with
    | nil =>
      cases h
      rfl
    | cons row rest =>
      simp only at h
      split at h <;> cases h <;> rfl
  case readAttempt | readArtifact =>
    split at h <;> cases h <;> rfl
  case readStagedManifest =>
    split at h
    · split_ifs at h
      obtain ⟨components, -, hnext⟩ := Option.map_eq_some_iff.mp h
      cases hnext
      rfl
    · cases h
  case publish =>
    split at h <;> cases h <;> rename_i hadvance <;> rw [(Publication.frame hadvance).2.2]
  case markSucceeded | markFailed =>
    obtain ⟨v, hv, hnext⟩ := Option.map_eq_some_iff.mp h
    cases hnext
    obtain ⟨a, -, -, rfl⟩ := World.transition_ok hv
    rfl
  case cleanup t' rest =>
    cases h
    have hne : t ≠ t' := fun heq => ht (by rw [heq]; rfl)
    simp only [World.removeStaging, World.setStaging]
    by_cases hnode : nodeId = p.nodeId
    · subst hnode
      rw [Function.update_self, Function.update_of_ne hne]
    · rw [Function.update_of_ne hnode]

end
end Munarium
