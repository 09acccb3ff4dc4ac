import Munarium.Builds.MirrorMoves
import Munarium.Lib.Positions

/-! What the three tables and the builds and passes in flight always say of one another,
whichever steps interleave: a binding names a verified artifact, a succeeded attempt too, and a
publication is of the artifact that its attempt names. -/
namespace Munarium
open Positions

namespace World

/-- What an attempt's row says of the catalog. -/
structure Backed (w : World) (a : Attempt) : Prop where
  catalogued : ∀ id, a.artifactId = some id → w.Catalogued id
  sealed : a.state = .sealed → a.artifactId.isSome
  succeeded : a.state = .succeeded → ∃ id, a.artifactId = some id ∧ w.Verified id

structure Linked (w : World) : Prop where
  backed : ∀ a ∈ w.attempts, w.Backed a
  bound : ∀ slot row, w.bindings.rows slot = some row → w.Verified row.artifactId

variable {own : Option ℕ} {w w' : World} {t : ℕ}

theorem linked_empty : Linked {} where
  backed a h := by cases h
  bound slot row h := by cases h

theorem Backed.later {a : Attempt} (h : w.Backed a) (hlater : Later own w w') :
    w'.Backed a where
  catalogued id hid := hlater.catalogued id (h.catalogued id hid)
  sealed := h.sealed
  succeeded hsucceeded := by
    obtain ⟨id, hid, hverified⟩ := h.succeeded hsucceeded
    exact ⟨id, hid, hlater.verified id hverified⟩

theorem Linked.later (h : w.Linked) (hlater : Later own w w')
    (hattempts : w'.attempts = w.attempts) (hrows : w'.bindings.rows = w.bindings.rows) :
    w'.Linked where
  backed a ha := (h.backed a (hattempts ▸ ha)).later hlater
  bound slot row hrow := hlater.verified _ (h.bound slot row (hrows ▸ hrow))

theorem Linked.of_same (h : w.Linked) (hattempts : w'.attempts = w.attempts)
    (hbindings : w'.bindings = w.bindings) : w'.Linked where
  backed a ha := by
    have hbacked := h.backed a (hattempts ▸ ha)
    constructor
    · intro id hid
      rw [Catalogued, hbindings]
      exact hbacked.catalogued id hid
    · exact hbacked.sealed
    · intro hsucceeded
      obtain ⟨id, hid, hverified⟩ := hbacked.succeeded hsucceeded
      exact ⟨id, hid, by rwa [Verified, hbindings]⟩
  bound slot row hrow := by
    rw [hbindings] at hrow
    rw [Verified, hbindings]
    exact h.bound slot row hrow

theorem Linked.of_set (h : w.Linked) {a : Attempt} (ha : w.Backed a) :
    Linked { w with attempts := w.attempts.set t a } where
  backed b hb := by
    have hbacked : w.Backed b := by
      rcases List.mem_or_eq_of_mem_set hb with hb | rfl
      · exact h.backed b hb
      · exact ha
    exact ⟨hbacked.catalogued, hbacked.sealed, hbacked.succeeded⟩
  bound := h.bound

theorem Linked.expireStale (h : w.Linked) : w.expireStale.Linked where
  backed a ha := by
    obtain ⟨b, hb, rfl⟩ := List.mem_map.mp ha
    have hbacked := h.backed b hb
    rcases Attempts.expireOne_eq_or w.now b with heq | ⟨-, -, hstate⟩
    · rw [heq]
      exact ⟨hbacked.catalogued, hbacked.sealed, hbacked.succeeded⟩
    · refine ⟨fun id hid => hbacked.catalogued id (by simpa using hid), ?_, ?_⟩
      · intro hsealed
        exact absurd (hstate.symm.trans hsealed) (by decide)
      · intro hsucceeded
        exact absurd (hstate.symm.trans hsucceeded) (by decide)
  bound := h.bound

theorem Linked.insertRunning (h : w.Linked) {owner : String} {leaseSecs : ℕ} {ts : Attempts}
    (hinsert : w.attempts.insertRunning owner leaseSecs w.now = some (t, ts)) :
    Linked { w with attempts := ts } where
  backed a ha := by
    obtain ⟨-, -, rfl⟩ := Attempts.insertRunning_ok hinsert
    rcases List.mem_append.mp ha with ha | ha
    · have hbacked := h.backed a ha
      exact ⟨hbacked.catalogued, hbacked.sealed, hbacked.succeeded⟩
    · obtain rfl := List.mem_singleton.mp ha
      refine ⟨fun id hid => ?_, fun hsealed => ?_, fun hsucceeded => ?_⟩
      · cases hid
      · cases hsealed
      · cases hsucceeded
  bound := h.bound

theorem Linked.heartbeat (h : w.Linked) {nodeId : String} {leaseSecs : ℕ}
    (hbeat : w.heartbeat t nodeId leaseSecs = some w') : w'.Linked := by
  obtain ⟨a, ha, -, -, rfl⟩ := heartbeat_ok hbeat
  have hbacked := h.backed a (List.mem_of_getElem? ha)
  exact h.of_set ⟨hbacked.catalogued, hbacked.sealed, hbacked.succeeded⟩

/-- A transition that names no artifact. -/
theorem Linked.transition (h : w.Linked) {next : AttemptState}
    (hmove : w.transition t next none = some w') (hsealed : next ≠ .sealed)
    (hsucceeded : next = .succeeded → ∃ id, w.artifactOf t = some id ∧ w.Verified id) :
    w'.Linked := by
  obtain ⟨a, ha, -, rfl⟩ := transition_ok hmove
  have hbacked := h.backed a (List.mem_of_getElem? ha)
  apply h.of_set
  refine ⟨hbacked.catalogued, fun h => absurd h hsealed, fun h => ?_⟩
  obtain ⟨id, hid, hverified⟩ := hsucceeded h
  simp only [artifactOf, ha, Option.bind_some] at hid
  exact ⟨id, hid, hverified⟩

/-- A transition that names an artifact of the catalog. -/
theorem Linked.named (h : w.Linked) {next : AttemptState} {id : String}
    (hmove : w.transition t next (some id) = some w') (hid : w.Catalogued id)
    (hsucceeded : next ≠ .succeeded) : w'.Linked := by
  obtain ⟨a, -, -, rfl⟩ := transition_ok hmove
  apply h.of_set
  refine ⟨fun other hother => ?_, fun _ => rfl, fun h => absurd h hsucceeded⟩
  obtain rfl := Option.some.inj hother
  exact hid

theorem artifactOf_named {next : AttemptState} {id : String}
    (hmove : w.transition t next (some id) = some w') : w'.artifactOf t = some id := by
  obtain ⟨a, ha, -, rfl⟩ := transition_ok hmove
  simp only [artifactOf, List.getElem?_set_self (List.getElem?_eq_some_iff.mp ha).1]
  rfl

end World

def PublishPhase.pastVerified : PublishPhase → Bool
  | readBinding | bindStaged => true
  | _ => false

section
variable [Sha256]

/-- A publication is of its attempt's artifact, which is verified once it was marked. -/
structure Publication.Linked (w : World) (pub : Publication) (p : PublishPhase) : Prop where
  named : w.artifactOf pub.attemptId = some pub.artifactId
  catalogued : w.Catalogued pub.artifactId
  verified : p.pastVerified → w.Verified pub.artifactId

variable {own : Option ℕ} {version nodeId : String} {w w' : World} {pub : Publication}
  {p : PublishPhase}

omit [Sha256] in
theorem Publication.Linked.later (h : pub.Linked w p) (hlater : w.Later own w')
    (hown : ∀ t', own = some t' → w.artifactOf t' = none) : pub.Linked w' p where
  named := hlater.artifactOf_some h.named hown
  catalogued := hlater.catalogued _ h.catalogued
  verified hpast := hlater.verified _ (h.verified hpast)

/-- A publication's steps leave the attempts, the clock and the staging directories alone. -/
theorem Publication.frame {next : PublishPhase ⊕ Bool}
    (h : pub.advance version nodeId w p = some (w', next)) :
    w'.attempts = w.attempts ∧ w'.now = w.now ∧ w'.staging = w.staging := by
  cases p with
  | readStaged rest =>
    cases rest with
    | nil =>
      cases h
      exact ⟨rfl, rfl, rfl⟩
    | cons c rest =>
      simp only [Publication.advance] at h
      split at h
      · split_ifs at h
        cases h
        exact ⟨rfl, rfl, rfl⟩
      · cases h
  | upload c bytes rest | uploadManifest bytes =>
    cases h
    exact ⟨rfl, rfl, rfl⟩
  | readStagedManifest | readBack =>
    simp only [Publication.advance] at h
    split at h
    · split_ifs at h
      cases h
      exact ⟨rfl, rfl, rfl⟩
    · cases h
  | markVerified =>
    obtain ⟨v, hv, hnext⟩ := Option.map_eq_some_iff.mp h
    cases hnext
    obtain ⟨-, rfl⟩ := World.markVerified_ok hv
    exact ⟨rfl, rfl, rfl⟩
  | readBinding =>
    simp only [Publication.advance] at h
    split_ifs at h <;> cases h <;> exact ⟨rfl, rfl, rfl⟩
  | bindStaged =>
    simp only [Publication.advance] at h
    split at h <;> cases h
    exact ⟨rfl, rfl, rfl⟩

omit [Sha256] in
/-- A step to before the mark says nothing of the catalog. -/
theorem unmarked {id : String} {q : PublishPhase} (hq : q.pastVerified = false) :
    (∀ p', (.inl q : PublishPhase ⊕ Bool) = .inl p' → p'.pastVerified → w.Verified id) ∧
      (∀ bound, (.inl q : PublishPhase ⊕ Bool) = .inr bound → w.Verified id) := by
  constructor
  · intro p' hp' hpast
    cases hp'
    rw [hq] at hpast
    cases hpast
  · intro bound h
    cases h

/-- One step of a publication: it binds a verified artifact alone, and it ends with one. -/
theorem Publication.Linked.advance {next : PublishPhase ⊕ Bool} (h : pub.Linked w p)
    (hw : w.Linked) (hadvance : pub.advance version nodeId w p = some (w', next)) :
    w'.Linked ∧ w'.artifactOf pub.attemptId = some pub.artifactId ∧
      (∀ p', next = .inl p' → pub.Linked w' p') ∧
      (∀ bound, next = .inr bound → w'.Verified pub.artifactId) := by
  have hlater : w.Later none w' := Publication.later hadvance
  have hattempts := (Publication.frame hadvance).1
  have hnamed : w'.artifactOf pub.attemptId = some pub.artifactId :=
    hlater.artifactOf_some h.named (fun t ht => by cases ht)
  have hcatalogued := hlater.catalogued _ h.catalogued
  suffices hsteps : (w'.bindings.rows = w.bindings.rows ∨ w'.Linked) ∧
      (∀ p', next = .inl p' → p'.pastVerified → w'.Verified pub.artifactId) ∧
      (∀ bound, next = .inr bound → w'.Verified pub.artifactId) by
    obtain ⟨hworld, hpast, hbound⟩ := hsteps
    refine ⟨?_, hnamed, fun p' hp' => ⟨hnamed, hcatalogued, hpast p' hp'⟩, hbound⟩
    rcases hworld with hrows | hlinked
    · exact hw.later hlater hattempts hrows
    · exact hlinked
  cases p with
  | readStaged rest =>
    cases rest with
    | nil =>
      cases hadvance
      exact ⟨.inl rfl, unmarked rfl⟩
    | cons c rest =>
      simp only [Publication.advance] at hadvance
      split at hadvance
      · split_ifs at hadvance
        cases hadvance
        exact ⟨.inl rfl, unmarked rfl⟩
      · cases hadvance
  | upload c bytes rest | uploadManifest bytes =>
    cases hadvance
    exact ⟨.inl rfl, unmarked rfl⟩
  | readStagedManifest | readBack =>
    simp only [Publication.advance] at hadvance
    split at hadvance
    · split_ifs at hadvance
      cases hadvance
      exact ⟨.inl rfl, unmarked rfl⟩
    · cases hadvance
  | markVerified =>
    obtain ⟨v, hv, hnext⟩ := Option.map_eq_some_iff.mp hadvance
    cases hnext
    obtain ⟨-, rfl⟩ := World.markVerified_ok hv
    have hverified : (w.setState pub.artifactId .verified).Verified pub.artifactId := by
      simp [World.Verified, World.setState]
    exact ⟨.inl rfl, fun _ _ _ => hverified, fun _ _ => hverified⟩
  | readBinding =>
    have hverified := h.verified rfl
    simp only [Publication.advance] at hadvance
    split_ifs at hadvance <;> cases hadvance <;>
      exact ⟨.inl rfl, fun _ _ _ => hverified, fun _ _ => hverified⟩
  | bindStaged =>
    have hverified := hlater.verified _ (h.verified rfl)
    simp only [Publication.advance] at hadvance
    split at hadvance
    · rename_i answer hbind
      cases hadvance
      refine ⟨.inr ⟨fun a ha => (hw.backed a ha).later hlater, ?_⟩, fun _ _ _ => hverified,
        fun _ _ => hverified⟩
      obtain ⟨-, hrow, hrows⟩ := Bindings.bindNew_ok hbind
      intro slot row hslot
      simp only [hrows] at hslot
      by_cases hstaged : slot = .staged
      · subst hstaged
        rw [Function.update_self] at hslot
        obtain rfl := Option.some.inj hslot
        rw [hrow]
        exact hverified
      · rw [Function.update_of_ne hstaged] at hslot
        exact hlater.verified _ (hw.bound slot row hslot)
    · cases hadvance

variable [ManifestJson] {site : Site}

def BuildPhase.Linked (w : World) : BuildPhase → Prop
  | .publish pub p => pub.Linked w p
  | .markSealed _ a => w.Catalogued a.artifactId
  | .markConverged _ id => w.Catalogued id
  | .markSucceeded t _ => ∃ id, w.artifactOf t = some id ∧ w.Verified id
  | _ => True

def PassPhase.Linked (w : World) : PassPhase → Prop
  | .readStagedManifest t id _ | .readArtifact t id _ _ => w.artifactOf t = some id
  | .publish pub p _ => pub.Linked w p
  | .markSucceeded t _ => ∃ id, w.artifactOf t = some id ∧ w.Verified id
  | _ => True

theorem BuildPhase.Linked.later {phase : BuildPhase} (h : phase.Linked w)
    (hlater : w.Later own w') (hown : ∀ t', own = some t' → w.artifactOf t' = none) :
    phase.Linked w' := by
  cases phase with
  | publish pub p => exact Publication.Linked.later h hlater hown
  | markSealed t a => exact hlater.catalogued _ h
  | markConverged t id => exact hlater.catalogued _ h
  | markSucceeded t outcome =>
    obtain ⟨id, hid, hverified⟩ := h
    exact ⟨id, hlater.artifactOf_some hid hown, hlater.verified id hverified⟩
  | _ => trivial

omit [Sha256] [ManifestJson] in
theorem PassPhase.Linked.later {phase : PassPhase} (h : phase.Linked w)
    (hlater : w.Later own w') (hown : ∀ t', own = some t' → w.artifactOf t' = none) :
    phase.Linked w' := by
  cases phase with
  | readStagedManifest t id rest => exact hlater.artifactOf_some h hown
  | readArtifact t id components rest => exact hlater.artifactOf_some h hown
  | publish pub p rest => exact Publication.Linked.later h hlater hown
  | markSucceeded t rest =>
    obtain ⟨id, hid, hverified⟩ := h
    exact ⟨id, hlater.artifactOf_some hid hown, hlater.verified id hverified⟩
  | _ => trivial

theorem MirrorBuild.linked {b : MirrorBuild} {phase : BuildPhase} (hw : w.Linked)
    (hphase : b.phase.Linked w) (h : b.advance site w = some (w', phase)) :
    w'.Linked ∧ phase.Linked w' := by
  have hlater := MirrorBuild.later h
  cases hat : b.phase <;> simp only [MirrorBuild.advance, hat] at h <;> rw [hat] at hphase
  case checkCatalog | checkSealed =>
    split at h <;> cases h <;> exact ⟨hw, trivial⟩
  case readExisting t a =>
    split at h <;> cases h <;> rename_i hstate <;>
      exact ⟨hw, by simp only [BuildPhase.Linked, World.Catalogued, hstate, Option.isSome_some]⟩
  case readAttempt =>
    split at h
    · split_ifs at h <;> cases h <;> exact ⟨hw, trivial⟩
    · cases h
      exact ⟨hw, trivial⟩
  case sealing | readHolder | done =>
    cases h
    exact ⟨hw, trivial⟩
  case stageManifest | cleanup =>
    cases h
    exact ⟨hw.later hlater rfl rfl, trivial⟩
  case expireStale =>
    cases h
    exact ⟨hw.expireStale, trivial⟩
  case claim =>
    split at h
    · rename_i hinsert
      cases h
      exact ⟨hw.insertRunning hinsert, trivial⟩
    · cases h
      exact ⟨hw, trivial⟩
  case streaming | checkLease =>
    split_ifs at h
    obtain ⟨v, hv, hnext⟩ := Option.map_eq_some_iff.mp h
    cases hnext
    exact ⟨hw.heartbeat hv, trivial⟩
  case insertSealed t a =>
    split at h
    · rename_i v hinsert
      cases h
      obtain ⟨-, rfl⟩ := World.insertSealed_ok hinsert
      refine ⟨hw.later hlater rfl rfl, ?_⟩
      simp [BuildPhase.Linked, World.Catalogued, World.setState]
    · cases h
      exact ⟨hw, trivial⟩
  case markSealed t a =>
    obtain ⟨v, hv, hnext⟩ := Option.map_eq_some_iff.mp h
    cases hnext
    exact ⟨hw.named hv hphase (by decide),
      ⟨World.artifactOf_named hv, hlater.catalogued _ hphase, fun hpast => by cases hpast⟩⟩
  case markConverged t id =>
    obtain ⟨v, hv, hnext⟩ := Option.map_eq_some_iff.mp h
    cases hnext
    exact ⟨hw.named hv hphase (by decide), trivial⟩
  case markSucceeded t outcome =>
    obtain ⟨v, hv, hnext⟩ := Option.map_eq_some_iff.mp h
    cases hnext
    exact ⟨hw.transition hv (by decide) fun _ => hphase, trivial⟩
  case markFailed t =>
    obtain ⟨v, hv, hnext⟩ := Option.map_eq_some_iff.mp h
    cases hnext
    exact ⟨hw.transition hv (by decide) (fun h => by cases h), trivial⟩
  case publish pub p =>
    split at h <;> cases h <;> rename_i hadvance <;>
      obtain ⟨hlinked, hnamed, hnext, hbound⟩ := hphase.advance hw hadvance
    · exact ⟨hlinked, hnext _ rfl⟩
    · exact ⟨hlinked, _, hnamed, hbound _ rfl⟩

theorem Pass.linked {p : Pass} {phase : PassPhase} (hw : w.Linked) (hphase : p.phase.Linked w)
    (h : p.advance site w = some (w', phase)) : w'.Linked ∧ phase.Linked w' := by
  have hlater := Pass.later h
  cases hat : p.phase <;> simp only [Pass.advance, hat] at h <;> rw [hat] at hphase
  case expireStale =>
    cases h
    exact ⟨hw.expireStale, trivial⟩
  case list | done =>
    cases h
    exact ⟨hw, trivial⟩
  case rows rest =>
    cases rest with
    | nil =>
      cases h
      exact ⟨hw, trivial⟩
    | cons row rest =>
      simp only at h
      split at h <;> cases h <;> exact ⟨hw, trivial⟩
  case readAttempt t rest =>
    split at h
    · rename_i id hid
      cases h
      refine ⟨hw, ?_⟩
      simpa [PassPhase.Linked, World.artifactOf, Attempts.get, Attempts.toRow,
        Option.bind_map, Function.comp_def] using hid
    · cases h
  case readStagedManifest t id rest =>
    split at h
    · split_ifs at h
      obtain ⟨components, -, hnext⟩ := Option.map_eq_some_iff.mp h
      cases hnext
      exact ⟨hw, hphase⟩
    · cases h
  case readArtifact t id components rest =>
    split at h <;> cases h
    · rename_i hverified _
      exact ⟨hw, hphase, World.Verified.catalogued hverified, fun _ => hverified⟩
    · have hstate : w.bindings.artifacts id = some _ := ‹_›
      exact ⟨hw, hphase, by rw [World.Catalogued, hstate]; rfl, fun hpast => by cases hpast⟩
  case publish pub q rest =>
    split at h <;> cases h <;> rename_i hadvance <;>
      obtain ⟨hlinked, hnamed, hnext, hbound⟩ := hphase.advance hw hadvance
    · exact ⟨hlinked, hnext _ rfl⟩
    · exact ⟨hlinked, _, hnamed, hbound _ rfl⟩
  case markSucceeded t rest =>
    obtain ⟨v, hv, hnext⟩ := Option.map_eq_some_iff.mp h
    cases hnext
    exact ⟨hw.transition hv (by decide) fun _ => hphase, trivial⟩
  case markFailed t rest =>
    obtain ⟨v, hv, hnext⟩ := Option.map_eq_some_iff.mp h
    cases hnext
    exact ⟨hw.transition hv (by decide) (fun h => by cases h), trivial⟩
  case cleanup =>
    cases h
    exact ⟨hw.later hlater rfl rfl, trivial⟩

/-- A step of a build that has named no artifact in its attempt leaves the attempt so, or it is
not such a build afterwards. A claim makes one, of a new attempt. -/
theorem MirrorBuild.building {b : MirrorBuild} {phase : BuildPhase}
    (h : b.advance site w = some (w', phase)) {t : ℕ} (ht : phase.building = some t) :
    b.phase.building = some t ∧ (t < w.attempts.length → w'.artifactOf t = w.artifactOf t) ∨
      t = w.attempts.length ∧ t < w'.attempts.length ∧ w'.artifactOf t = none := by
  cases hat : b.phase <;> simp only [MirrorBuild.advance, hat] at h
  case checkCatalog | checkSealed | readExisting =>
    split at h <;> cases h <;> exact .inl ⟨ht, fun _ => rfl⟩
  case readAttempt =>
    split at h
    · split_ifs at h <;> cases h <;> cases ht
    · cases h
      cases ht
  case sealing | readHolder | done | stageManifest | cleanup | expireStale =>
    cases h
    first | exact .inl ⟨ht, fun _ => rfl⟩ | cases ht
  case claim =>
    split at h
    · rename_i hinsert
      cases h
      cases ht
      obtain ⟨-, rfl, rfl⟩ := Attempts.insertRunning_ok hinsert
      refine .inr ⟨rfl, by simp, ?_⟩
      simp [World.artifactOf, Attempts.started]
    · cases h
      cases ht
  case streaming | checkLease =>
    split_ifs at h
    obtain ⟨v, hv, hnext⟩ := Option.map_eq_some_iff.mp h
    cases hnext
    have hlater : w.Later none w' := World.later_heartbeat hv
    exact .inl ⟨ht, fun hlt => hlater.artifactOf_eq hlt (by simp)⟩
  case insertSealed t a =>
    split at h
    · rename_i v hinsert
      cases h
      have hlater : w.Later none w' := World.later_insertSealed hinsert
      exact .inl ⟨ht, fun hlt => hlater.artifactOf_eq hlt (by simp)⟩
    · cases h
      exact .inl ⟨ht, fun _ => rfl⟩
  case markSealed | markConverged | markSucceeded | markFailed =>
    obtain ⟨v, hv, hnext⟩ := Option.map_eq_some_iff.mp h
    cases hnext
    cases ht
  case publish =>
    split at h <;> cases h <;> cases ht

theorem BuildMove.linked {b : MirrorBuild} {e : MirrorEvent} {i : ℕ} {phase : BuildPhase}
    (hw : w.Linked) (hphase : b.phase.Linked w)
    (hown : ∀ t, b.phase.building = some t → w.artifactOf t = none)
    (h : BuildMove site w b e i w' phase) : w'.Linked ∧ phase.Linked w' := by
  have hlater := h.later
  cases h with
  | advance _ h => exact MirrorBuild.linked hw hphase h
  | stage a hat =>
    obtain ⟨staging, hstage⟩ := stageFiles_eq b a w
    rw [hstage] at hlater ⊢
    exact ⟨hw.later hlater rfl rfl, trivial⟩
  | fail =>
    refine ⟨hw, ?_⟩
    cases b.phase <;> trivial
  | crash => exact ⟨hw, trivial⟩
  | beat _ h => exact ⟨hw.heartbeat h, hphase.later hlater hown⟩
  | lost => exact ⟨hw, hphase⟩

theorem PassMove.linked {p : Pass} {e : MirrorEvent} {i : ℕ} {phase : PassPhase}
    (hw : w.Linked) (hphase : p.phase.Linked w) (h : PassMove site w p e i w' phase) :
    w'.Linked ∧ phase.Linked w' := by
  cases h with
  | advance _ h => exact Pass.linked hw hphase h
  | fail =>
    refine ⟨hw, ?_⟩
    cases p.phase <;> trivial
  | crash => exact ⟨hw, trivial⟩

theorem BuildMove.building {b : MirrorBuild} {e : MirrorEvent} {i : ℕ} {phase : BuildPhase}
    (h : BuildMove site w b e i w' phase) {t : ℕ} (ht : phase.building = some t) :
    b.phase.building = some t ∧ (t < w.attempts.length → w'.artifactOf t = w.artifactOf t) ∨
      t = w.attempts.length ∧ t < w'.attempts.length ∧ w'.artifactOf t = none := by
  cases h with
  | advance _ h => exact MirrorBuild.building h ht
  | stage a hat =>
    obtain ⟨staging, hstage⟩ := stageFiles_eq b a w
    rw [hstage]
    exact .inl ⟨by rw [hat]; exact ht, fun _ => rfl⟩
  | fail => cases hat : b.phase <;> rw [hat] at ht <;> cases ht
  | crash => cases ht
  | beat _ h =>
    have hlater : w.Later none w' := World.later_heartbeat h
    exact .inl ⟨ht, fun hlt => hlater.artifactOf_eq hlt (by simp)⟩
  | lost => exact .inl ⟨ht, fun _ => rfl⟩

namespace Mirror

/-- The tables' links, with what holds of each build and pass. A build that has named no
artifact in its attempt is alone on it. -/
structure Linked (s : Mirror) : Prop where
  world : s.world.Linked
  build : ∀ (i : ℕ) b, s.builds[i]? = some b → b.phase.Linked s.world
  own : ∀ (i : ℕ) b t, s.builds[i]? = some b → b.phase.building = some t →
    t < s.world.attempts.length ∧ s.world.artifactOf t = none
  alone : ∀ (i j : ℕ) b c t, s.builds[i]? = some b → s.builds[j]? = some c →
    b.phase.building = some t → c.phase.building = some t → i = j
  pass : ∀ (i : ℕ) p, s.passes[i]? = some p → p.phase.Linked s.world

theorem linked_empty : ({} : Mirror).Linked where
  world := World.linked_empty
  build i b h := by simp at h
  own i b t h := by simp at h
  alone i j b c t h := by simp at h
  pass i p h := by simp at h

variable {s s' : Mirror} {e : MirrorEvent}

/-- A change of the tables that names no artifact in any attempt. -/
theorem Linked.quiet (h : s.Linked) {w : World} (hw : w.Linked) (hlater : s.world.Later none w) :
    Linked { s with world := w } where
  world := hw
  build i b hb := (h.build i b hb).later hlater (fun t ht => by cases ht)
  own i b t hb ht := by
    obtain ⟨hlt, hnone⟩ := h.own i b t hb ht
    exact ⟨hlt.trans_le hlater.length, (hlater.artifactOf_eq hlt (by simp)).trans hnone⟩
  alone := h.alone
  pass i p hp := (h.pass i p hp).later hlater (fun t ht => by cases ht)

theorem Linked.onBuild (h : s.Linked) {i : ℕ} {b : MirrorBuild} {w : World} {phase : BuildPhase}
    {leaseLost : Bool} (hb : s.builds[i]? = some b)
    (hmove : BuildMove site s.world b e i w phase) :
    ({ s with world := w }.setBuild i { b with phase, leaseLost }).Linked := by
  have hlater := hmove.later
  have hunnamed : ∀ t, b.phase.building = some t → s.world.artifactOf t = none :=
    fun t ht => (h.own i b t hb ht).2
  obtain ⟨hw, hphase⟩ := hmove.linked h.world (h.build i b hb) hunnamed
  have hothers (j : ℕ) (c : MirrorBuild) (t : ℕ) (hji : j ≠ i) (hc : s.builds[j]? = some c)
      (ht : c.phase.building = some t) :
      t < w.attempts.length ∧ w.artifactOf t = none ∧ phase.building ≠ some t := by
    obtain ⟨hlt, hnone⟩ := h.own j c t hc ht
    have hown : b.phase.building ≠ some t := fun hbt => hji (h.alone j i c b t hc hb ht hbt)
    refine ⟨hlt.trans_le hlater.length, (hlater.artifactOf_eq hlt hown).trans hnone, ?_⟩
    intro hphaset
    rcases hmove.building hphaset with ⟨hbt, -⟩ | ⟨hnew, -⟩
    · exact hown hbt
    · omega
  refine ⟨hw, ?_, ?_, ?_, ?_⟩
  · exact forall_set (fun j c hc => (h.build j c hc).later hlater hunnamed) hphase
  · intro j c t hc ht
    rcases getElem?_set_cases hc with ⟨-, rfl⟩ | ⟨hji, hc⟩
    · rcases hmove.building ht with ⟨hbt, hsame⟩ | ⟨-, hlt, hnone⟩
      · obtain ⟨hlt, hnone⟩ := h.own i b t hb hbt
        exact ⟨hlt.trans_le hlater.length, (hsame hlt).trans hnone⟩
      · exact ⟨hlt, hnone⟩
    · obtain ⟨hlt, hnone, -⟩ := hothers j c t hji hc ht
      exact ⟨hlt, hnone⟩
  · intro j k c d t hc hd htc htd
    rcases getElem?_set_cases hc with ⟨rfl, rfl⟩ | ⟨hji, hc'⟩
    · rcases getElem?_set_cases hd with ⟨rfl, -⟩ | ⟨hki, hd'⟩
      · rfl
      · exact absurd htc (hothers k d t hki hd' htd).2.2
    · rcases getElem?_set_cases hd with ⟨rfl, rfl⟩ | ⟨-, hd'⟩
      · exact absurd htd (hothers j c t hji hc' htc).2.2
      · exact h.alone j k c d t hc' hd' htc htd
  · exact fun j p hp => (h.pass j p hp).later hlater hunnamed

theorem Linked.onPass (h : s.Linked) {i : ℕ} {p : Pass} {w : World} {phase : PassPhase}
    (hp : s.passes[i]? = some p) (hmove : PassMove site s.world p e i w phase) :
    ({ s with world := w }.setPass i { p with phase }).Linked := by
  obtain ⟨hw, hphase⟩ := hmove.linked h.world (h.pass i p hp)
  have hquiet := h.quiet hw hmove.later
  exact ⟨hw, hquiet.build, hquiet.own, hquiet.alone, forall_set hquiet.pass hphase⟩

theorem Linked.move (h : s.Linked) (hmove : Move site s e s') : s'.Linked := by
  cases hmove with
  | tick _ => exact h.quiet (h.world.of_same rfl rfl) (.of_eq rfl rfl rfl)
  | wipe _ => exact h.quiet (h.world.of_same rfl rfl) (.of_eq rfl rfl rfl)
  | build ctx target =>
    refine ⟨h.world, forall_append h.build trivial, ?_, ?_, h.pass⟩
    · intro i b t hb ht
      rcases getElem?_append_cases hb with ⟨-, hb⟩ | ⟨-, rfl⟩
      · exact h.own i b t hb ht
      · cases ht
    · intro i j b c t hb hc htb htc
      rcases getElem?_append_cases hb with ⟨-, hb⟩ | ⟨-, rfl⟩
      · rcases getElem?_append_cases hc with ⟨-, hc⟩ | ⟨-, rfl⟩
        · exact h.alone i j b c t hb hc htb htc
        · cases htc
      · cases htb
  | reconcile nodeId => exact ⟨h.world, h.build, h.own, h.alone, forall_append h.pass trivial⟩
  | onBuild hb hmove => exact h.onBuild hb hmove
  | onPass hp hmove => exact h.onPass hp hmove
  | stay => exact h

/-- Whatever the interleaving, the tables and what is in flight stay linked. -/
theorem Linked.step (h : s.Linked) (e : MirrorEvent) : (s.step site e).Linked :=
  h.move (move_step s e)

end Mirror

end
end Munarium
