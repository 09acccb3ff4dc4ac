import Munarium.Retrieval.IndexVersions

/-! One collection's sources, index versions and chunk rows: binding, the build with its
cutover, and the retirement of old versions' chunks. -/
namespace Munarium

/-- What a build reads of `CollectionInfo`. -/
structure Collection where
  id : String
  name : String
  shapeRef : String

def Collection.scope (c : Collection) : BuildScope := .collection c.id c.name c.shapeRef

structure CollectionStore extends IndexStore where
  sources : SourceTable := {}
  bound : List String := []
  deriving DecidableEq

namespace CollectionStore

/-- The bound sources' rows, by source id. -/
def boundRows (s : CollectionStore) : List SourceRow :=
  (s.sources.rows.entries.filter fun e => s.bound.contains e.1).map Prod.snd

/-- Ids that name no source are skipped. Answers how many bindings are new. -/
def bindSources (ids : List String) (s : CollectionStore) : ℕ × CollectionStore :=
  let new := (s.sources.rows.entries.map Prod.fst).filter fun id =>
    ids.contains id && !s.bound.contains id
  (new.length, { s with bound := s.bound ++ new })

def bindSource (id : String) (s : CollectionStore) : Result (Bool × CollectionStore) :=
  if (s.sources.rows.get? id).isNone then .error (.notFound "source" id)
  else if s.bound.contains id then .ok (false, s)
  else .ok (true, { s with bound := s.bound ++ [id] })

/-- The inactive versions of the collection beyond the newest `keep`. -/
def retiring (c : Collection) (keep : ℕ) (s : CollectionStore) : List String :=
  let inactive := s.versions.filter fun v => v.collectionId == some c.id && !v.active
  ((inactive.insertionSort fun v w => w.builtAt ≤ v.builtAt).drop keep).map IndexVersionRow.id

def retireOldCollection (c : Collection) (keep : ℕ) (s : CollectionStore) :
    ℕ × CollectionStore :=
  let retired := s.retiring c keep
  ((s.chunks.filter fun e => retired.contains e.1).length,
    { s with chunks := s.chunks.filter fun e => !retired.contains e.1 })

end CollectionStore

section
variable [Sha256]

namespace CollectionStore

def indexId (c : Collection) (extractors : List ExtractorKind) (s : CollectionStore) : String :=
  rowsIndexId c.scope extractors s.boundRows

variable [Extraction]

def buildCollectionIndex (tenant : String) (c : Collection) (b : BuildCall)
    (s : CollectionStore) : Result IndexVersionRow × CollectionStore :=
  let id := s.indexId c b.extractors
  match s.ensureVersion tenant s.sources c.scope s.boundRows b with
  | .error e => (.error e, s)
  | .ok index =>
      let s' := { s with toIndexStore := index }
      if b.activate then
        match activateCollectionIndex c.id id s'.versions with
        | .error e => (.error e, s')
        | .ok versions => (indexVersionById id versions, { s' with versions })
      else (indexVersionById id s'.versions, s')

inductive Call where
  | putSource (r : PutSource)
  | bindSource (id : String)
  | bindSources (ids : List String)
  | build (b : BuildCall)
  | retire (keep : ℕ)

/-- The store after a call. A refused one leaves it as it was. -/
def step (tenant : String) (c : Collection) (s : CollectionStore) : Call → CollectionStore
  | .putSource r =>
      match s.sources.putSource tenant r with
      | .ok (_, sources) => { s with sources }
      | .error _ => s
  | .bindSource id =>
      match s.bindSource id with
      | .ok (_, s') => s'
      | .error _ => s
  | .bindSources ids => (s.bindSources ids).2
  | .build b => (s.buildCollectionIndex tenant c b).2
  | .retire keep => (s.retireOldCollection c keep).2

end CollectionStore
end
end Munarium
