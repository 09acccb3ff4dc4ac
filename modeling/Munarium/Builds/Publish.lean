import Munarium.Builds.Attempts
import Munarium.Builds.Bindings
import Munarium.Std.Digest

/-! Publication of a sealed artifact: its components go from the staging directory to the store
one by one, its manifest goes last and is read back, and then the catalog says `verified`. -/
namespace Munarium
open StableSort

def BUILD_SPEC : String := "build-spec.canonical.json"
def ARTIFACT_PLAN : String := "artifact-plan.canonical.json"
def RECORDS_BODY : String := "records/chunks.bin"
def RECORDS_INDEX : String := "records/chunks.idx"
def LEXICAL_INDEX : String := "lexical/index.bin"
def VECTOR_DATA : String := "vector/flat.bin"
def VECTOR_DISKANN_DATA : String := "vector/diskann.bin"
def MANIFEST : String := "manifest.json"

/-- What a manifest says of one file. -/
structure Component where
  path : String
  bytesLen : ℕ
  sha256 : String
  deriving DecidableEq

inductive VectorKind where
  | exact
  | approximate
  deriving DecidableEq

def VectorKind.path : VectorKind → String
  | exact => VECTOR_DATA
  | approximate => VECTOR_DISKANN_DATA

/-- What a seal writes; which bytes they are is the engines' matter. -/
structure SealedFiles where
  buildSpec : Bytes
  artifactPlan : Bytes
  recordsBody : Bytes
  recordsIndex : Bytes
  lexical : Bytes
  vector : Option (VectorKind × Bytes)

def SealedFiles.written (f : SealedFiles) : List (String × Bytes) :=
  [(BUILD_SPEC, f.buildSpec), (ARTIFACT_PLAN, f.artifactPlan), (RECORDS_BODY, f.recordsBody),
    (RECORDS_INDEX, f.recordsIndex), (LEXICAL_INDEX, f.lexical)] ++
    f.vector.toList.map fun v => (v.1.path, v.2)

/-- The components of the manifest that `serde_json::from_slice` reads. -/
class ManifestJson where
  fromSlice : Bytes → Option (List Component)

section
variable [Sha256]

def SealedFiles.components (f : SealedFiles) : List Component :=
  sortBy (fun a b => compare a.path b.path)
    (f.written.map fun x => ⟨x.1, x.2.length, sha256Hex x.2⟩)

def verifyComponent (c : Component) (bytes : Bytes) : Bool :=
  bytes.length = c.bytesLen ∧ sha256Hex bytes = c.sha256

def verifyManifestBytes (bytes : Bytes) (expectedArtifactId : String) : Bool :=
  sha256Hex bytes = expectedArtifactId

/-- A seal's files and the canonical bytes of its manifest, which read back as it. -/
structure SealedArtifact [ManifestJson] where
  files : SealedFiles
  manifestBytes : Bytes
  reads : ManifestJson.fromSlice manifestBytes = some files.components

def SealedArtifact.artifactId [ManifestJson] (a : SealedArtifact) : String :=
  sha256Hex a.manifestBytes

end

/-- The tables of one version and plan, the nodes' staging directories by attempt, the component
store by prefix, and the database's clock. -/
structure World where
  now : ℕ := 0
  bindings : Bindings := {}
  artifactIds : List String := []
  artifactUri : String → Option String := fun _ => none
  attempts : Attempts := []
  staging : String → ℕ → String → Option Bytes := fun _ _ _ => none
  objects : String → String → Option Bytes := fun _ _ => none

namespace World

/-- The first of `artifacts_for_version` that is `verified`. -/
def verifiedArtifact (w : World) : Option String :=
  w.artifactIds.find? fun id => w.bindings.artifacts id = some .verified

def setStaging (nodeId : String) (t : ℕ) (files : String → Option Bytes) (w : World) : World :=
  let dirs := Function.update (w.staging nodeId) t files
  { w with staging := Function.update w.staging nodeId dirs }

def putStaged (nodeId : String) (t : ℕ) (path : String) (bytes : Bytes) (w : World) : World :=
  w.setStaging nodeId t (Function.update (w.staging nodeId t) path (some bytes))

def removeStaging (nodeId : String) (t : ℕ) (w : World) : World :=
  w.setStaging nodeId t fun _ => none

def putObject (uri path : String) (bytes : Bytes) (w : World) : World :=
  let files := Function.update (w.objects uri) path (some bytes)
  { w with objects := Function.update w.objects uri files }

def setState (id : String) (state : ArtifactState) (w : World) : World :=
  let artifacts := Function.update w.bindings.artifacts id (some state)
  { w with bindings := { w.bindings with artifacts } }

/-- The insert of `insert_sealed`, which does nothing where there is a row. -/
def insertSealed (id uri : String) (w : World) : Option World :=
  if (w.bindings.artifacts id).isSome then none
  else some { w.setState id .sealed with
    artifactIds := w.artifactIds ++ [id]
    artifactUri := Function.update w.artifactUri id (some uri) }

/-- Only a `sealed` row becomes `verified`. -/
def markVerified (id : String) (w : World) : Option World :=
  if w.bindings.artifacts id = some .sealed then some (w.setState id .verified) else none

def heartbeat (t : ℕ) (nodeId : String) (leaseSecs : ℕ) (w : World) : Option World :=
  (w.attempts.heartbeat t nodeId leaseSecs w.now).map fun ts => { w with attempts := ts }

def transition (t : ℕ) (next : AttemptState) (artifactId : Option String) (w : World) :
    Option World :=
  (w.attempts.transition t next artifactId w.now).map fun ts => { w with attempts := ts }

def expireStale (w : World) : World := { w with attempts := w.attempts.expireStale w.now }

end World

/-- What `publish_and_verify` is called with. -/
structure Publication where
  attemptId : ℕ
  uri : String
  artifactId : String
  components : List Component

inductive PublishPhase where
  | readStaged (rest : List Component)
  | upload (c : Component) (bytes : Bytes) (rest : List Component)
  | readStagedManifest
  | uploadManifest (bytes : Bytes)
  | readBack
  | markVerified
  | readBinding
  | bindStaged

variable [Sha256]

/-- One step of `publish_and_verify`, to the next one or to whether it bound `staged`. A step
that fails has no result and leaves everything as it was. -/
def Publication.advance (version nodeId : String) (w : World) (pub : Publication) :
    PublishPhase → Option (World × (PublishPhase ⊕ Bool))
  | .readStaged [] => some (w, .inl .readStagedManifest)
  | .readStaged (c :: rest) =>
      match w.staging nodeId pub.attemptId c.path with
      | some bytes =>
          if verifyComponent c bytes then some (w, .inl (.upload c bytes rest)) else none
      | none => none
  | .upload c bytes rest => some (w.putObject pub.uri c.path bytes, .inl (.readStaged rest))
  | .readStagedManifest =>
      match w.staging nodeId pub.attemptId MANIFEST with
      | some bytes =>
          if verifyManifestBytes bytes pub.artifactId then some (w, .inl (.uploadManifest bytes))
          else none
      | none => none
  | .uploadManifest bytes => some (w.putObject pub.uri MANIFEST bytes, .inl .readBack)
  | .readBack =>
      match w.objects pub.uri MANIFEST with
      | some bytes =>
          if verifyManifestBytes bytes pub.artifactId then some (w, .inl .markVerified) else none
      | none => none
  | .markVerified => (w.markVerified pub.artifactId).map fun w => (w, .inl .readBinding)
  | .readBinding =>
      if (w.bindings.rows .staged).isSome then some (w, .inr false)
      else some (w, .inl .bindStaged)
  | .bindStaged =>
      match w.bindings.bindNew version .staged pub.artifactId nodeId (some "mirror build") with
      | .ok answer => some ({ w with bindings := answer.2 }, .inr true)
      | .error _ => none

end Munarium
