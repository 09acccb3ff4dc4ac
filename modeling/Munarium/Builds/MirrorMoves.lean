import Munarium.Builds.Mirror
import Munarium.Lib.GuardedRun

/-! What one event of a mirror system does, said once, and what no event undoes: a verified
artifact, a catalog row, the end of an attempt, and the artifact that an attempt names. -/
namespace Munarium

namespace World

def Verified (w : World) (id : String) : Prop := w.bindings.artifacts id = some .verified

def Catalogued (w : World) (id : String) : Prop := (w.bindings.artifacts id).isSome

/-- The artifact that an attempt's row names. -/
def artifactOf (w : World) (t : ℕ) : Option String := w.attempts[t]?.bind Attempt.artifactId

theorem Verified.catalogued {w : World} {id : String} (h : w.Verified id) : w.Catalogued id := by
  rw [Catalogued, h]
  rfl

/-- `w'` is reached from `w` by steps that name an artifact in no attempt but their own. -/
structure Later (own : Option ℕ) (w w' : World) : Prop where
  attempt : ∀ (t : ℕ) a, w.attempts[t]? = some a → ∃ a', w'.attempts[t]? = some a' ∧
    a'.ownerNodeId = a.ownerNodeId ∧ (a.state.isTerminal → a'.state = a.state) ∧
    (own ≠ some t → a'.artifactId = a.artifactId)
  verified : ∀ id, w.Verified id → w'.Verified id
  catalogued : ∀ id, w.Catalogued id → w'.Catalogued id
  uri : ∀ id u, w.Catalogued id → w.artifactUri id = some u → w'.artifactUri id = some u

variable {own : Option ℕ} {w w' : World} {t : ℕ}

/-- Steps that leave the catalog and the attempts alone. -/
theorem Later.of_eq (hattempts : w'.attempts = w.attempts)
    (hartifacts : w'.bindings.artifacts = w.bindings.artifacts)
    (huri : w'.artifactUri = w.artifactUri) : Later own w w' where
  attempt t a ha := ⟨a, by rw [hattempts, ha], rfl, fun _ => rfl, fun _ => rfl⟩
  verified id h := by rwa [Verified, hartifacts]
  catalogued id h := by rwa [Catalogued, hartifacts]
  uri id u _ h := by rw [huri, h]

theorem Later.rfl' : Later own w w := .of_eq rfl rfl rfl

theorem Later.length (h : Later own w w') : w.attempts.length ≤ w'.attempts.length := by
  by_contra hlt
  push Not at hlt
  obtain ⟨a', ha', -⟩ := h.attempt _ _ (List.getElem?_eq_getElem hlt)
  exact absurd (List.getElem?_eq_some_iff.mp ha').1 (lt_irrefl _)

theorem Later.artifactOf_eq (h : Later own w w') (ht : t < w.attempts.length)
    (hown : own ≠ some t) : w'.artifactOf t = w.artifactOf t := by
  obtain ⟨a', ha', -, -, hartifact⟩ := h.attempt t _ (List.getElem?_eq_getElem ht)
  simp only [artifactOf, ha', List.getElem?_eq_getElem ht, Option.bind_some]
  exact hartifact hown

theorem lt_of_artifactOf {id : String} (h : w.artifactOf t = some id) :
    t < w.attempts.length := by
  obtain ⟨a, ha, -⟩ := Option.bind_eq_some_iff.mp h
  exact (List.getElem?_eq_some_iff.mp ha).1

/-- A named artifact stays, where the steps' own attempt names none. -/
theorem Later.artifactOf_some (h : Later own w w') {id : String}
    (hid : w.artifactOf t = some id) (hown : ∀ t', own = some t' → w.artifactOf t' = none) :
    w'.artifactOf t = some id := by
  rw [h.artifactOf_eq (lt_of_artifactOf hid), hid]
  intro heq
  rw [hown t heq] at hid
  cases hid

/-- Steps on the attempts alone. -/
theorem Later.of_attempts {ts : Attempts} (h : ∀ (t : ℕ) a, w.attempts[t]? = some a →
    ∃ a', ts[t]? = some a' ∧ a'.ownerNodeId = a.ownerNodeId ∧
      (a.state.isTerminal → a'.state = a.state) ∧
      (own ≠ some t → a'.artifactId = a.artifactId)) : Later own w { w with attempts := ts } where
  attempt := h
  verified _ h := h
  catalogued _ h := h
  uri _ _ _ h := h

theorem Later.of_set {a a' : Attempt} (ha : w.attempts[t]? = some a)
    (howner : a'.ownerNodeId = a.ownerNodeId) (hterminal : a.state.isTerminal = false)
    (hartifact : own ≠ some t → a'.artifactId = a.artifactId) :
    Later own w { w with attempts := w.attempts.set t a' } := by
  apply Later.of_attempts
  intro k b hb
  by_cases hk : t = k
  · subst hk
    obtain rfl := Option.some.inj (ha.symm.trans hb)
    refine ⟨a', ?_, howner, fun h => ?_, hartifact⟩
    · rw [List.getElem?_set_self (List.getElem?_eq_some_iff.mp ha).1]
    · rw [hterminal] at h
      cases h
  · exact ⟨b, by rw [List.getElem?_set_ne hk, hb], rfl, fun _ => rfl, fun _ => rfl⟩

theorem later_expireStale : Later own w w.expireStale := by
  apply Later.of_attempts
  intro k a ha
  rw [Attempts.getElem?_expireStale, ha]
  refine ⟨_, rfl, Attempts.expireOne_owner a, fun h => ?_, fun _ => Attempts.expireOne_artifactId a⟩
  rcases Attempts.expireOne_eq_or w.now a with heq | ⟨hrunning, -⟩
  · rw [heq]
  · rw [hrunning] at h
    cases h

theorem later_append (a : Attempt) :
    Later own w { w with attempts := w.attempts ++ [a] } := by
  apply Later.of_attempts
  intro k b hb
  refine ⟨b, ?_, rfl, fun _ => rfl, fun _ => rfl⟩
  rw [List.getElem?_append_left (List.getElem?_eq_some_iff.mp hb).1, hb]

theorem heartbeat_ok {nodeId : String} {leaseSecs : ℕ}
    (h : w.heartbeat t nodeId leaseSecs = some w') :
    ∃ a, w.attempts[t]? = some a ∧ a.ownerNodeId = nodeId ∧ a.state.isTerminal = false ∧
      w' = { w with
        attempts := w.attempts.set t { a with leaseExpiresAt := w.now + leaseSecs } } := by
  obtain ⟨ts, hts, rfl⟩ := Option.map_eq_some_iff.mp h
  obtain ⟨a, ha, howner, hterminal, rfl⟩ := Attempts.heartbeat_ok hts
  exact ⟨a, ha, howner, hterminal, rfl⟩

theorem later_heartbeat {nodeId : String} {leaseSecs : ℕ}
    (h : w.heartbeat t nodeId leaseSecs = some w') : Later own w w' := by
  obtain ⟨a, ha, -, hterminal, rfl⟩ := heartbeat_ok h
  exact .of_set ha rfl hterminal fun _ => rfl

theorem transition_ok {next : AttemptState} {artifactId : Option String}
    (h : w.transition t next artifactId = some w') :
    ∃ a, w.attempts[t]? = some a ∧ a.state.isTerminal = false ∧
      w' = { w with attempts := w.attempts.set t (Attempts.moved next artifactId w.now a) } := by
  obtain ⟨ts, hts, rfl⟩ := Option.map_eq_some_iff.mp h
  obtain ⟨a, ha, hterminal, rfl⟩ := Attempts.transition_ok hts
  exact ⟨a, ha, hterminal, rfl⟩

theorem later_transition {next : AttemptState} {artifactId : Option String}
    (h : w.transition t next artifactId = some w') (hown : artifactId = none ∨ own = some t) :
    Later own w w' := by
  obtain ⟨a, ha, hterminal, rfl⟩ := transition_ok h
  have howner : (Attempts.moved next artifactId w.now a).ownerNodeId = a.ownerNodeId := rfl
  apply Later.of_set ha howner hterminal
  intro hne
  obtain rfl := hown.resolve_right hne
  rfl

/-- Steps on the catalog that keep what is there, or make it `verified`. -/
theorem later_setState {id : String} {state : ArtifactState}
    (h : w.bindings.artifacts id = none ∨ state = .verified) :
    Later own w (w.setState id state) where
  attempt t a ha := ⟨a, ha, rfl, fun _ => rfl, fun _ => rfl⟩
  verified other hother := by
    by_cases heq : other = id
    · subst heq
      rcases h with h | rfl
      · exact absurd (h.symm.trans hother) (by simp)
      · simp [Verified, setState]
    · simpa [Verified, setState, Function.update_of_ne heq] using hother
  catalogued other hother := by
    by_cases heq : other = id
    · subst heq
      simp [Catalogued, setState]
    · simpa [Catalogued, setState, Function.update_of_ne heq] using hother
  uri _ _ _ h := h

theorem insertSealed_ok {id uri : String} (h : w.insertSealed id uri = some w') :
    w.bindings.artifacts id = none ∧ w' = { w.setState id .sealed with
      artifactIds := w.artifactIds ++ [id]
      artifactUri := Function.update w.artifactUri id (some uri) } := by
  simp only [insertSealed] at h
  split_ifs at h with hnone
  exact ⟨Option.not_isSome_iff_eq_none.mp hnone, (Option.some.inj h).symm⟩

theorem later_insertSealed {id uri : String} (h : w.insertSealed id uri = some w') :
    Later own w w' := by
  obtain ⟨hnone, rfl⟩ := insertSealed_ok h
  have hlater : Later own w (w.setState id .sealed) := later_setState (.inl hnone)
  refine ⟨hlater.attempt, hlater.verified, hlater.catalogued, ?_⟩
  intro other u hcatalogued hu
  have hne : other ≠ id := by
    rintro rfl
    rw [Catalogued, hnone] at hcatalogued
    cases hcatalogued
  show Function.update w.artifactUri id (some uri) other = some u
  rw [Function.update_of_ne hne, hu]

theorem markVerified_ok {id : String} (h : w.markVerified id = some w') :
    w.bindings.artifacts id = some .sealed ∧ w' = w.setState id .verified := by
  simp only [markVerified] at h
  split_ifs at h with hsealed
  exact ⟨hsealed, (Option.some.inj h).symm⟩

theorem later_markVerified {id : String} (h : w.markVerified id = some w') :
    Later own w w' := by
  obtain ⟨-, rfl⟩ := markVerified_ok h
  exact later_setState (.inr rfl)

end World

/-- The attempt of a build that has named no artifact in it yet. -/
def BuildPhase.building [Sha256] [ManifestJson] : BuildPhase → Option ℕ
  | streaming t | sealing t | stageManifest t _ | checkLease t _ | insertSealed t _
  | readExisting t _ | markSealed t _ | markConverged t _ => some t
  | _ => none

section
variable [Sha256] {own : Option ℕ} {version nodeId : String} {w w' : World}

theorem Publication.later {pub : Publication} {p : PublishPhase} {next : PublishPhase ⊕ Bool}
    (h : pub.advance version nodeId w p = some (w', next)) : w.Later own w' := by
  cases p with
  | readStaged rest =>
    cases rest with
    | nil =>
      cases h
      exact .rfl'
    | cons c rest =>
      simp only [Publication.advance] at h
      split at h
      · split_ifs at h
        cases h
        exact .rfl'
      · cases h
  | upload c bytes rest =>
    cases h
    exact .of_eq rfl rfl rfl
  | readStagedManifest =>
    simp only [Publication.advance] at h
    split at h
    · split_ifs at h
      cases h
      exact .rfl'
    · cases h
  | uploadManifest bytes =>
    cases h
    exact .of_eq rfl rfl rfl
  | readBack =>
    simp only [Publication.advance] at h
    split at h
    · split_ifs at h
      cases h
      exact .rfl'
    · cases h
  | markVerified =>
    obtain ⟨v, hv, hnext⟩ := Option.map_eq_some_iff.mp h
    cases hnext
    exact World.later_markVerified hv
  | readBinding =>
    simp only [Publication.advance] at h
    split_ifs at h <;> cases h <;> exact .rfl'
  | bindStaged =>
    simp only [Publication.advance] at h
    split at h
    · rename_i answer hbind
      cases h
      exact .of_eq rfl (Bindings.bindNew_artifacts hbind) rfl
    · cases h

variable [ManifestJson] {site : Site}

theorem MirrorBuild.later {b : MirrorBuild} {phase : BuildPhase}
    (h : b.advance site w = some (w', phase)) : w.Later b.phase.building w' := by
  cases hphase : b.phase <;> simp only [MirrorBuild.advance, hphase] at h
  case checkCatalog | checkSealed | readExisting =>
    split at h <;> cases h <;> exact .rfl'
  case readAttempt =>
    split at h
    · split_ifs at h <;> cases h <;> exact .rfl'
    · cases h
      exact .rfl'
  case sealing | readHolder | done =>
    cases h
    exact .rfl'
  case stageManifest | cleanup =>
    cases h
    exact .of_eq rfl rfl rfl
  case expireStale =>
    cases h
    exact World.later_expireStale
  case claim =>
    split at h
    · rename_i hinsert
      cases h
      obtain ⟨-, -, rfl⟩ := Attempts.insertRunning_ok hinsert
      exact World.later_append _
    · cases h
      exact .rfl'
  case streaming | checkLease =>
    split_ifs at h
    obtain ⟨v, hv, hnext⟩ := Option.map_eq_some_iff.mp h
    cases hnext
    exact World.later_heartbeat hv
  case insertSealed =>
    split at h
    · rename_i hinsert
      cases h
      exact World.later_insertSealed hinsert
    · cases h
      exact .rfl'
  case markSealed | markConverged =>
    obtain ⟨v, hv, hnext⟩ := Option.map_eq_some_iff.mp h
    cases hnext
    exact World.later_transition hv (.inr rfl)
  case markSucceeded | markFailed =>
    obtain ⟨v, hv, hnext⟩ := Option.map_eq_some_iff.mp h
    cases hnext
    exact World.later_transition hv (.inl rfl)
  case publish =>
    split at h <;> cases h <;> exact Publication.later ‹_›

theorem Pass.later {p : Pass} {phase : PassPhase} (h : p.advance site w = some (w', phase)) :
    w.Later none w' := by
  cases hphase : p.phase <;> simp only [Pass.advance, hphase] at h
  case expireStale =>
    cases h
    exact World.later_expireStale
  case list | done =>
    cases h
    exact .rfl'
  case rows rest =>
    cases rest with
    | nil =>
      cases h
      exact .rfl'
    | cons row rest =>
      simp only at h
      split at h <;> cases h <;> exact .rfl'
  case readAttempt | readArtifact =>
    split at h <;> cases h <;> exact .rfl'
  case readStagedManifest =>
    split at h
    · split_ifs at h
      obtain ⟨components, -, hnext⟩ := Option.map_eq_some_iff.mp h
      cases hnext
      exact .rfl'
    · cases h
  case publish =>
    split at h <;> cases h <;> exact Publication.later ‹_›
  case markSucceeded | markFailed =>
    obtain ⟨v, hv, hnext⟩ := Option.map_eq_some_iff.mp h
    cases hnext
    exact World.later_transition hv (.inl rfl)
  case cleanup =>
    cases h
    exact .of_eq rfl rfl rfl

/-- What an event makes of the `i`-th build. -/
inductive BuildMove (site : Site) (w : World) (b : MirrorBuild) (e : MirrorEvent) (i : ℕ) :
    World → BuildPhase → Prop
  | advance {w' : World} {phase : BuildPhase} (he : e = .advanceBuild i)
      (h : b.advance site w = some (w', phase)) : BuildMove site w b e i w' phase
  | stage {t : ℕ} (a : SealedArtifact) (h : b.phase = .sealing t) :
      BuildMove site w b e i (Mirror.stageFiles b t a w) (.stageManifest t a)
  | fail : BuildMove site w b e i w b.phase.failed
  | crash : BuildMove site w b e i w (.done none)
  | beat {t : ℕ} {w' : World} (hphase : b.phase.beating = some t)
      (h : w.heartbeat t b.ctx.nodeId site.leaseSecs = some w') : BuildMove site w b e i w' b.phase
  | lost : BuildMove site w b e i w b.phase

/-- What an event makes of the `i`-th pass. -/
inductive PassMove (site : Site) (w : World) (p : Pass) (e : MirrorEvent) (i : ℕ) :
    World → PassPhase → Prop
  | advance {w' : World} {phase : PassPhase} (he : e = .advancePass i)
      (h : p.advance site w = some (w', phase)) : PassMove site w p e i w' phase
  | fail : PassMove site w p e i w p.phase.failed
  | crash : PassMove site w p e i w .done

namespace Mirror

/-- What an event makes of a system. -/
inductive Move (site : Site) (s : Mirror) (e : MirrorEvent) : Mirror → Prop
  | tick {d : ℕ} (he : e = .tick d) :
      Move site s e { s with world := { s.world with now := s.world.now + d } }
  | wipe {staging : String → ℕ → String → Option Bytes}
      (h : ∀ nodeId t path, staging nodeId t path = s.world.staging nodeId t path ∨
        staging nodeId t path = none) :
      Move site s e { s with world := { s.world with staging } }
  | build (ctx : MirrorContext) (target : MirrorTarget) :
      Move site s e { s with builds := s.builds ++ [{ ctx, target }] }
  | reconcile (nodeId : String) : Move site s e { s with passes := s.passes ++ [{ nodeId }] }
  | onBuild {i : ℕ} {b : MirrorBuild} {w : World} {phase : BuildPhase} {leaseLost : Bool}
      (hb : s.builds[i]? = some b) (h : BuildMove site s.world b e i w phase) :
      Move site s e ({ s with world := w }.setBuild i { b with phase, leaseLost })
  | onPass {i : ℕ} {p : Pass} {w : World} {phase : PassPhase} (hp : s.passes[i]? = some p)
      (h : PassMove site s.world p e i w phase) :
      Move site s e ({ s with world := w }.setPass i { p with phase })
  | stay : Move site s e s

theorem move_step (s : Mirror) (e : MirrorEvent) : Move site s e (s.step site e) := by
  cases e with
  | tick d => exact .tick rfl
  | build ctx target => exact .build ctx target
  | reconcile nodeId => exact .reconcile nodeId
  | advanceBuild i =>
    simp only [step]
    split
    · rename_i b hb
      split
      · rename_i w phase h
        exact .onBuild hb (.advance rfl h)
      · exact .onBuild hb .fail
    · exact .stay
  | sealBuild i a =>
    simp only [step]
    split
    · rename_i b hb
      split
      · rename_i t hphase
        exact .onBuild hb (.stage a hphase)
      · exact .stay
    · exact .stay
  | failBuild i =>
    simp only [step]
    split
    · rename_i b hb
      exact .onBuild hb .fail
    · exact .stay
  | crashBuild i =>
    simp only [step]
    split
    · rename_i b hb
      exact .onBuild hb .crash
    · exact .stay
  | beat i =>
    simp only [step]
    split
    · rename_i b hb
      split
      · rename_i t hphase
        split
        · rename_i w h
          have hmove : Move site s (.beat i) ({ s with world := w }.setBuild i b) :=
            .onBuild hb (.beat hphase h)
          obtain ⟨hi, rfl⟩ := List.getElem?_eq_some_iff.mp hb
          rwa [setBuild, List.set_getElem_self hi] at hmove
        · exact .onBuild hb .lost
      · exact .stay
    · exact .stay
  | advancePass i =>
    simp only [step]
    split
    · rename_i p hp
      split
      · rename_i w phase h
        exact .onPass hp (.advance rfl h)
      · exact .onPass hp .fail
    · exact .stay
  | failPass i =>
    simp only [step]
    split
    · rename_i p hp
      exact .onPass hp .fail
    · exact .stay
  | crashPass i =>
    simp only [step]
    split
    · rename_i p hp
      exact .onPass hp .crash
    · exact .stay
  | wipe nodeId =>
    apply Move.wipe
    intro other t path
    by_cases h : other = nodeId
    · subst h
      exact .inr (by rw [Function.update_self])
    · exact .inl (by rw [Function.update_of_ne h])

end Mirror

/-- A seal writes to its staging directory alone. -/
theorem stageFiles_eq (b : MirrorBuild) {t : ℕ} (a : SealedArtifact) (w : World) :
    ∃ staging, Mirror.stageFiles b t a w = { w with staging } := by
  have hfold : ∀ (files : List (String × Bytes)) (v : World), ∃ staging,
      files.foldl (fun w f => w.putStaged b.ctx.nodeId t f.1 f.2) v = { v with staging } := by
    intro files
    induction files with
    | nil => exact fun v => ⟨v.staging, rfl⟩
    | cons f rest ih => exact fun v => ih (v.putStaged b.ctx.nodeId t f.1 f.2)
  exact hfold a.files.written w

theorem World.later_stageFiles {b : MirrorBuild} {t : ℕ} {a : SealedArtifact} :
    w.Later own (Mirror.stageFiles b t a w) := by
  obtain ⟨staging, hw⟩ := stageFiles_eq b a w
  rw [hw]
  exact .of_eq rfl rfl rfl

theorem BuildMove.later {b : MirrorBuild} {e : MirrorEvent} {i : ℕ} {phase : BuildPhase}
    (h : BuildMove site w b e i w' phase) : w.Later b.phase.building w' := by
  cases h with
  | advance _ h => exact MirrorBuild.later h
  | stage a _ => exact World.later_stageFiles
  | fail | crash | lost => exact .rfl'
  | beat _ h => exact World.later_heartbeat h

theorem PassMove.later {p : Pass} {e : MirrorEvent} {i : ℕ} {phase : PassPhase}
    (h : PassMove site w p e i w' phase) : w.Later none w' := by
  cases h with
  | advance _ h => exact Pass.later h
  | fail | crash => exact .rfl'

/-- An attempt that is over does not change its state. -/
theorem Mirror.Move.terminal {s s' : Mirror} {e : MirrorEvent} (h : Move site s e s') {t : ℕ}
    {a : Attempt} (ha : s.world.attempts[t]? = some a) (hterminal : a.state.isTerminal) :
    ∃ a', s'.world.attempts[t]? = some a' ∧ a'.state = a.state := by
  cases h with
  | tick | wipe | build | reconcile | stay => exact ⟨a, ha, rfl⟩
  | onBuild _ h =>
    obtain ⟨a', ha', -, hsame, -⟩ := h.later.attempt t a ha
    exact ⟨a', ha', hsame hterminal⟩
  | onPass _ h =>
    obtain ⟨a', ha', -, hsame, -⟩ := h.later.attempt t a ha
    exact ⟨a', ha', hsame hterminal⟩

end
end Munarium
