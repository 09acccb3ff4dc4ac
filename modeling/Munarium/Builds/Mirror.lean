import Munarium.Builds.Publish

/-! Mirror and direct builds of one plan of one version, and reconcile passes, on any nodes. A
build or a pass goes on one database statement, file or upload at a time; it may fail or crash
at any of them, and others' steps come between. -/
namespace Munarium

/-- What every node of the deployment has in common. -/
structure Site where
  version : String
  tenantPathHash : String
  leaseSecs : ℕ
  leaseSecs_pos : 0 < leaseSecs

structure MirrorContext where
  nodeId : String
  artifactPrefix : String

inductive MirrorTarget where
  | collection (collectionId : String)
  | legacyShape (shapeRef : String)

namespace MirrorTarget

def pathKind : MirrorTarget → String
  | collection _ => "collection"
  | legacyShape _ => "legacy"

def scopeId : MirrorTarget → String
  | collection id => id
  | legacyShape ref => ref

end MirrorTarget

def MirrorContext.artifactPrefixFor (site : Site) (ctx : MirrorContext) (target : MirrorTarget)
    (artifact : String) : String :=
  ctx.artifactPrefix ++ "/" ++ site.tenantPathHash ++ "/" ++ target.pathKind ++ "/" ++
    target.scopeId ++ "/" ++ site.version ++ "/" ++ artifact

inductive MirrorOutcome where
  | published (artifactId : String) (boundStaged : Bool)
  | converged (artifactId : String)
  | alreadyRunning (ownerNodeId : String)
  | alreadyBuilt (artifactId : String)
  deriving DecidableEq

section
variable [Sha256] [ManifestJson]

/-- What a build does next. The attempt `t` is the build's own. -/
inductive BuildPhase where
  | checkCatalog
  | checkSealed
  | expireStale
  | claim
  | readHolder
  | streaming (t : ℕ)
  | sealing (t : ℕ)
  | stageManifest (t : ℕ) (a : SealedArtifact)
  | checkLease (t : ℕ) (a : SealedArtifact)
  | insertSealed (t : ℕ) (a : SealedArtifact)
  | readExisting (t : ℕ) (a : SealedArtifact)
  | markSealed (t : ℕ) (a : SealedArtifact)
  | publish (pub : Publication) (p : PublishPhase)
  | markSucceeded (t : ℕ) (outcome : MirrorOutcome)
  | markConverged (t : ℕ) (artifactId : String)
  | readAttempt (t : ℕ)
  | markFailed (t : ℕ)
  | cleanup (t : ℕ) (outcome : Option MirrorOutcome)
  | done (outcome : Option MirrorOutcome)

structure MirrorBuild where
  ctx : MirrorContext
  target : MirrorTarget
  leaseLost : Bool := false
  phase : BuildPhase := .checkCatalog

/-- What a reconcile pass does next, with the rows that it has still to look at. -/
inductive PassPhase where
  | expireStale
  | list
  | rows (rest : List AttemptRow)
  | readAttempt (t : ℕ) (rest : List AttemptRow)
  | readStagedManifest (t : ℕ) (artifactId : String) (rest : List AttemptRow)
  | readArtifact (t : ℕ) (artifactId : String) (components : List Component)
      (rest : List AttemptRow)
  | publish (pub : Publication) (p : PublishPhase) (rest : List AttemptRow)
  | markSucceeded (t : ℕ) (rest : List AttemptRow)
  | markFailed (t : ℕ) (rest : List AttemptRow)
  | cleanup (t : ℕ) (rest : List AttemptRow)
  | done

structure Pass where
  nodeId : String
  phase : PassPhase := .expireStale

namespace BuildPhase

/-- The attempt of a build past its claim and not yet done. -/
def attempt : BuildPhase → Option ℕ
  | streaming t | sealing t | stageManifest t _ | checkLease t _ | insertSealed t _
  | readExisting t _ | markSealed t _ | markSucceeded t _ | markConverged t _ | readAttempt t
  | markFailed t | cleanup t _ => some t
  | publish pub _ => some pub.attemptId
  | _ => none

/-- The attempt whose lease the heartbeat extends: the body's, for as long as it runs. -/
def beating : BuildPhase → Option ℕ
  | streaming t | sealing t | stageManifest t _ | checkLease t _ | insertSealed t _
  | readExisting t _ | markSealed t _ => some t
  | publish pub _ => some pub.attemptId
  | _ => none

/-- Where an error leaves a build. -/
def failed : BuildPhase → BuildPhase
  | streaming t | sealing t | stageManifest t _ | checkLease t _ | insertSealed t _
  | readExisting t _ | markSealed t _ => .readAttempt t
  | publish pub _ => .readAttempt pub.attemptId
  | readAttempt t => .markFailed t
  | markFailed t => .cleanup t none
  | cleanup _ outcome | done outcome => .done outcome
  | _ => .done none

end BuildPhase

/-- Where an error leaves a pass. -/
def PassPhase.failed : PassPhase → PassPhase
  | readAttempt t rest | readStagedManifest t _ rest | readArtifact t _ _ rest =>
      .markFailed t rest
  | publish pub _ rest => .markFailed pub.attemptId rest
  | rows rest | cleanup _ rest => .rows rest
  | _ => .done

namespace MirrorBuild

def finalPrefix (site : Site) (b : MirrorBuild) (a : SealedArtifact) : String :=
  b.ctx.artifactPrefixFor site b.target a.artifactId

/-- The next step of `mirror_index` or `direct_index` past the checks of its arguments. A step
without a result is an error. Sealing waits for its files, which are an event. -/
def advance (site : Site) (w : World) (b : MirrorBuild) : Option (World × BuildPhase) :=
  match b.phase with
  | .checkCatalog =>
      match w.verifiedArtifact with
      | some id => some (w, .done (some (.alreadyBuilt id)))
      | none => some (w, .checkSealed)
  | .checkSealed =>
      match w.attempts.sealedForPlan w.now with
      | some row => some (w, .done (some (.alreadyRunning row.ownerNodeId)))
      | none => some (w, .expireStale)
  | .expireStale => some (w.expireStale, .claim)
  | .claim =>
      match w.attempts.insertRunning b.ctx.nodeId site.leaseSecs w.now with
      | some (t, attempts) => some ({ w with attempts }, .streaming t)
      | none => some (w, .readHolder)
  | .readHolder => some (w, .done (some (.alreadyRunning (w.attempts.holder.getD "unknown"))))
  | .streaming t =>
      if b.leaseLost then none
      else (w.heartbeat t b.ctx.nodeId site.leaseSecs).map fun w => (w, .sealing t)
  | .sealing t => some (w, .sealing t)
  | .stageManifest t a =>
      some (w.putStaged b.ctx.nodeId t MANIFEST a.manifestBytes, .checkLease t a)
  | .checkLease t a =>
      if b.leaseLost then none
      else (w.heartbeat t b.ctx.nodeId site.leaseSecs).map fun w => (w, .insertSealed t a)
  | .insertSealed t a =>
      match w.insertSealed a.artifactId (b.finalPrefix site a) with
      | some w => some (w, .markSealed t a)
      | none => some (w, .readExisting t a)
  | .readExisting t a =>
      match w.bindings.artifacts a.artifactId with
      | some .verified => some (w, .markConverged t a.artifactId)
      | some .sealed => some (w, .markSealed t a)
      | _ => none
  | .markSealed t a =>
      (w.transition t .sealed (some a.artifactId)).map fun w =>
        (w, .publish ⟨t, b.finalPrefix site a, a.artifactId, a.files.components⟩
          (.readStaged a.files.components))
  | .publish pub p =>
      match pub.advance site.version b.ctx.nodeId w p with
      | some (w, .inl p) => some (w, .publish pub p)
      | some (w, .inr bound) =>
          some (w, .markSucceeded pub.attemptId (.published pub.artifactId bound))
      | none => none
  | .markSucceeded t outcome =>
      (w.transition t .succeeded none).map fun w => (w, .cleanup t (some outcome))
  | .markConverged t id =>
      (w.transition t .converged (some id)).map fun w => (w, .cleanup t (some (.converged id)))
  | .readAttempt t =>
      match w.attempts.get w.now t with
      | some row => if row.state = .sealed then some (w, .done none) else some (w, .markFailed t)
      | none => some (w, .markFailed t)
  | .markFailed t => (w.transition t .failed none).map fun w => (w, .cleanup t none)
  | .cleanup t outcome => some (w.removeStaging b.ctx.nodeId t, .done outcome)
  | .done outcome => some (w, .done outcome)

end MirrorBuild

/-- The next step of `reconcile_attempts`. -/
def Pass.advance (site : Site) (w : World) (p : Pass) : Option (World × PassPhase) :=
  match p.phase with
  | .expireStale => some (w.expireStale, .list)
  | .list => some (w, .rows (w.attempts.sealedAwaitingPublication w.now))
  | .rows [] => some (w, .done)
  | .rows (row :: rest) =>
      let stagingPresent := (w.staging p.nodeId row.attemptId MANIFEST).isSome
      match reconcileSealed row p.nodeId stagingPresent with
      | .notOurs _ => some (w, .rows rest)
      | .abandon _ => some (w, .markFailed row.attemptId rest)
      | .resume => some (w, .readAttempt row.attemptId rest)
  | .readAttempt t rest =>
      match (w.attempts.get w.now t).bind AttemptRow.artifactId with
      | some id => some (w, .readStagedManifest t id rest)
      | none => none
  | .readStagedManifest t id rest =>
      match w.staging p.nodeId t MANIFEST with
      | some bytes =>
          if verifyManifestBytes bytes id then
            (ManifestJson.fromSlice bytes).map fun components =>
              (w, .readArtifact t id components rest)
          else none
      | none => none
  | .readArtifact t id components rest =>
      match w.bindings.artifacts id, w.artifactUri id with
      | some .verified, some uri => some (w, .publish ⟨t, uri, id, components⟩ .readBinding rest)
      | some _, some uri =>
          some (w, .publish ⟨t, uri, id, components⟩ (.readStaged components) rest)
      | _, _ => none
  | .publish pub phase rest =>
      match pub.advance site.version p.nodeId w phase with
      | some (w, .inl phase) => some (w, .publish pub phase rest)
      | some (w, .inr _) => some (w, .markSucceeded pub.attemptId rest)
      | none => none
  | .markSucceeded t rest =>
      (w.transition t .succeeded none).map fun w => (w, .cleanup t rest)
  | .markFailed t rest => (w.transition t .failed none).map fun w => (w, .cleanup t rest)
  | .cleanup t rest => some (w.removeStaging p.nodeId t, .rows rest)
  | .done => some (w, .done)

/-- The builds and passes that were started, in that order. -/
structure Mirror where
  world : World := {}
  builds : List MirrorBuild := []
  passes : List Pass := []

inductive MirrorEvent where
  | tick (d : ℕ)
  | build (ctx : MirrorContext) (target : MirrorTarget)
  | reconcile (nodeId : String)
  | advanceBuild (i : ℕ)
  | sealBuild (i : ℕ) (a : SealedArtifact)
  | failBuild (i : ℕ)
  | crashBuild (i : ℕ)
  | beat (i : ℕ)
  | advancePass (i : ℕ)
  | failPass (i : ℕ)
  | crashPass (i : ℕ)
  | wipe (nodeId : String)

namespace Mirror

def setBuild (i : ℕ) (b : MirrorBuild) (s : Mirror) : Mirror := { s with builds := s.builds.set i b }

def setPass (i : ℕ) (p : Pass) (s : Mirror) : Mirror := { s with passes := s.passes.set i p }

/-- A seal's files in the build's staging directory, where the manifest follows. -/
def stageFiles (b : MirrorBuild) (t : ℕ) (a : SealedArtifact) (w : World) : World :=
  a.files.written.foldl (fun w f => w.putStaged b.ctx.nodeId t f.1 f.2) w

def step (site : Site) (s : Mirror) : MirrorEvent → Mirror
  | .tick d => { s with world := { s.world with now := s.world.now + d } }
  | .build ctx target => { s with builds := s.builds ++ [{ ctx, target }] }
  | .reconcile nodeId => { s with passes := s.passes ++ [{ nodeId }] }
  | .advanceBuild i =>
      match s.builds[i]? with
      | some b =>
          match b.advance site s.world with
          | some (w, phase) => { s with world := w }.setBuild i { b with phase }
          | none => s.setBuild i { b with phase := b.phase.failed }
      | none => s
  | .sealBuild i a =>
      match s.builds[i]? with
      | some b =>
          match b.phase with
          | .sealing t => { s with world := stageFiles b t a s.world }.setBuild i
              { b with phase := .stageManifest t a }
          | _ => s
      | none => s
  | .failBuild i =>
      match s.builds[i]? with
      | some b => s.setBuild i { b with phase := b.phase.failed }
      | none => s
  | .crashBuild i =>
      match s.builds[i]? with
      | some b => s.setBuild i { b with phase := .done none }
      | none => s
  | .beat i =>
      match s.builds[i]? with
      | some b =>
          match b.phase.beating with
          | some t =>
              match s.world.heartbeat t b.ctx.nodeId site.leaseSecs with
              | some w => { s with world := w }
              | none => s.setBuild i { b with leaseLost := true }
          | none => s
      | none => s
  | .advancePass i =>
      match s.passes[i]? with
      | some p =>
          match p.advance site s.world with
          | some (w, phase) => { s with world := w }.setPass i { p with phase }
          | none => s.setPass i { p with phase := p.phase.failed }
      | none => s
  | .failPass i =>
      match s.passes[i]? with
      | some p => s.setPass i { p with phase := p.phase.failed }
      | none => s
  | .crashPass i =>
      match s.passes[i]? with
      | some p => s.setPass i { p with phase := .done }
      | none => s
  | .wipe nodeId =>
      { s with world := { s.world with
          staging := Function.update s.world.staging nodeId fun _ _ => none } }

end Mirror
end
end Munarium
