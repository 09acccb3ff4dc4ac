import Munarium.Retrieval.SourceTable

/-! The index_versions table with its chunk rows: the side-by-side build of a version, and the
cutover that moves an active pointer. -/
namespace Munarium

/-- A version of a collection's index, or of a legacy shape's where no collection is named. -/
structure IndexVersionRow where
  id : String
  shapeRef : String
  collectionId : Option String
  watermarkSeq : ℕ
  builtAt : ℕ
  active : Bool
  deriving DecidableEq

def pgWatermark (value : ℕ) : Result ℕ :=
  if value < 2 ^ 63 then .ok value
  else .error (.storage "watermark_seq exceeds PostgreSQL BIGINT")

def indexVersionById (id : String) (versions : List IndexVersionRow) : Result IndexVersionRow :=
  match versions.find? fun v => v.id == id with
  | some v => .ok v
  | none => .error (.notFound "index" id)

/-- One transaction of two updates: clear what is superseded, then set what is named. It rolls
back when the second one meets no row. -/
def cutover (superseded named : IndexVersionRow → Bool) (versions : List IndexVersionRow) :
    Option (List IndexVersionRow) :=
  let cleared := versions.map fun v => if superseded v then { v with active := false } else v
  if cleared.any named then
    some (cleared.map fun v => if named v then { v with active := true } else v)
  else none

def activateIndex (shapeRef indexId : String) (versions : List IndexVersionRow) :
    Result (List IndexVersionRow) :=
  match cutover (fun v => v.shapeRef == shapeRef && v.active && v.collectionId == none)
      (fun v => v.id == indexId && v.collectionId == none) versions with
  | some versions => .ok versions
  | none => .error (.notFound "index" indexId)

def activateCollectionIndex (collectionId indexId : String) (versions : List IndexVersionRow) :
    Result (List IndexVersionRow) :=
  match cutover (fun v => v.collectionId == some collectionId && v.active)
      (fun v => v.id == indexId && v.collectionId == some collectionId) versions with
  | some versions => .ok versions
  | none => .error (.notFound "index" indexId)

theorem cutover_eq_some {superseded named : IndexVersionRow → Bool}
    {versions versions' : List IndexVersionRow}
    (hnamed : ∀ v a, named { v with active := a } = named v)
    (h : cutover superseded named versions = some versions') :
    (∃ v ∈ versions, named v) ∧ versions' = versions.map fun v =>
      { v with active := named v || (v.active && !superseded v) } := by
  have hclear (v : IndexVersionRow) :
      named (if superseded v then { v with active := false } else v) = named v := by
    split_ifs
    · exact hnamed v false
    · rfl
  rw [cutover] at h
  simp only [List.any_map, Function.comp_def, hclear] at h
  split_ifs at h with hany
  refine ⟨List.any_eq_true.mp hany, ?_⟩
  rw [← Option.some.inj h, List.map_map]
  apply List.map_congr_left
  intro v _
  simp only [Function.comp_apply, hclear]
  cases named v <;> cases superseded v <;> simp

theorem activateIndex_eq_ok {shapeRef indexId : String}
    {versions versions' : List IndexVersionRow}
    (h : activateIndex shapeRef indexId versions = .ok versions') :
    (∃ v ∈ versions, v.id = indexId ∧ v.collectionId = none) ∧
      versions' = versions.map fun v => { v with
        active := (v.id == indexId && v.collectionId == none) ||
          (v.active && !(v.shapeRef == shapeRef && v.active && v.collectionId == none)) } := by
  rw [activateIndex] at h
  split at h
  · rename_i rows hcut
    obtain ⟨⟨v, hv, hnamed⟩, hrows⟩ := cutover_eq_some (by simp) hcut
    injection h with h
    refine ⟨⟨v, hv, by simpa using hnamed⟩, h ▸ hrows⟩
  · cases h

theorem activateCollectionIndex_eq_ok {collectionId indexId : String}
    {versions versions' : List IndexVersionRow}
    (h : activateCollectionIndex collectionId indexId versions = .ok versions') :
    (∃ v ∈ versions, v.id = indexId ∧ v.collectionId = some collectionId) ∧
      versions' = versions.map fun v => { v with
        active := (v.id == indexId && v.collectionId == some collectionId) ||
          (v.active && !(v.collectionId == some collectionId && v.active)) } := by
  rw [activateCollectionIndex] at h
  split at h
  · rename_i rows hcut
    obtain ⟨⟨v, hv, hnamed⟩, hrows⟩ := cutover_eq_some (by simp) hcut
    injection h with h
    refine ⟨⟨v, hv, by simpa using hnamed⟩, h ▸ hrows⟩
  · cases h

/-- The arguments of a build, with the extractors and the clock of its node. -/
structure BuildCall where
  extractors : List ExtractorKind
  maxChars : ℕ
  watermarkSeq : ℕ
  activate : Bool
  now : ℕ

namespace BuildScope

def shapeRef : BuildScope → String
  | shape shapeRef => shapeRef
  | collection _ _ shapeRef => shapeRef

/-- The version's collection column, which is null for a legacy shape. -/
def owner : BuildScope → Option String
  | shape _ => none
  | collection collectionId _ _ => some collectionId

end BuildScope

/-- Versions in the order of their inserts, chunk rows under their version's id. -/
structure IndexStore where
  versions : List IndexVersionRow := []
  chunks : List (String × ChunkRow) := []
  deriving DecidableEq

namespace IndexStore

def chunksOf (s : IndexStore) (id : String) : List ChunkRow :=
  (s.chunks.filter fun e => e.1 == id).map Prod.snd

def hasVersion (s : IndexStore) (id : String) : Bool := s.versions.any fun v => v.id == id

def setWatermark (id : String) (watermark : ℕ) (s : IndexStore) : IndexStore :=
  { s with versions := s.versions.map fun v =>
    if v.id == id then { v with watermarkSeq := watermark } else v }

/-- The versions without their watermarks, which a repeated build refreshes. -/
def marks (s : IndexStore) : List IndexVersionRow :=
  s.versions.map fun v => { v with watermarkSeq := 0 }

theorem marks_setWatermark (s : IndexStore) (id : String) (watermark : ℕ) :
    (s.setWatermark id watermark).marks = s.marks := by
  rw [marks, marks, setWatermark, List.map_map]
  apply List.map_congr_left
  intro v _
  simp only [Function.comp_apply]
  split_ifs <;> rfl

theorem hasVersion_iff {s : IndexStore} {id : String} :
    s.hasVersion id ↔ id ∈ s.marks.map IndexVersionRow.id := by
  simp [hasVersion, marks]

theorem chunksOf_append {s s' : IndexStore} {id : String} {rows : List ChunkRow}
    (hchunks : s'.chunks = s.chunks ++ rows.map fun row => (id, row)) (other : String) :
    s'.chunksOf other = if other = id then s.chunksOf other ++ rows else s.chunksOf other := by
  rw [chunksOf, hchunks, List.filter_append, List.map_append]
  split_ifs with he
  · subst he
    rw [chunksOf, List.filter_map, List.map_map]
    simp [Function.comp_def]
  · rw [List.filter_map]
    simp [Function.comp_def, Ne.symm he, chunksOf]

end IndexStore

section
variable [Sha256]

def SourceRow.identity (row : SourceRow) : String := row.sourceId ++ ":" ++ row.contentHash

/-- The index id, of what the source rows record. -/
def rowsIndexId (scope : BuildScope) (extractors : List ExtractorKind)
    (rows : List SourceRow) : String :=
  "idx-" ++ shortHex (scope.text ++ "|" ++ chunkerVersion ++ "|" ++ localEmbedder ++ "|" ++
    registryVersion extractors ++ "|" ++ join "," (rows.map SourceRow.identity))

variable [Extraction]

/-- The chunk rows of one source, read at its path. -/
def SourceTable.chunkRows (tenant : String) (b : BuildCall) (t : SourceTable)
    (row : SourceRow) : Result (List ChunkRow) := do
  let k ← SourceKey.create tenant row.filename row.contentHash
  let bytes ← t.get k
  sourceRows row.sourceId row.contentHash (chunkText
    (Extraction.extract (registryVersion b.extractors) row.mediaType bytes) b.maxChars)

namespace IndexStore

/-- The transaction that adds a version with its chunk rows. -/
def insertVersion (tenant : String) (t : SourceTable) (scope : BuildScope)
    (rows : List SourceRow) (b : BuildCall) (watermark : ℕ) (s : IndexStore) :
    Result IndexStore := do
  let id := rowsIndexId scope b.extractors rows
  let cut ← rows.mapM (t.chunkRows tenant b)
  return {
    versions := s.versions ++ [⟨id, scope.shapeRef, scope.owner, watermark, b.now, false⟩]
    chunks := s.chunks ++ cut.flatten.map fun row => (id, row) }

/-- A build up to its cutover. A version that exists is not built again. -/
def ensureVersion (tenant : String) (t : SourceTable) (scope : BuildScope)
    (rows : List SourceRow) (b : BuildCall) (s : IndexStore) : Result IndexStore := do
  let watermark ← pgWatermark b.watermarkSeq
  if rows = [] then .error scope.noSources
  else
    let id := rowsIndexId scope b.extractors rows
    let s' ← if s.hasVersion id then .ok s
      else s.insertVersion tenant t scope rows b watermark
    return s'.setWatermark id watermark

/-- What a build leaves up to its cutover. -/
inductive Ensured (tenant : String) (t : SourceTable) (scope : BuildScope)
    (rows : List SourceRow) (b : BuildCall) (s s' : IndexStore) : Prop
  | skipped (hhas : s.hasVersion (rowsIndexId scope b.extractors rows))
      (hmarks : s'.marks = s.marks) (hchunks : s'.chunks = s.chunks)
  | built {cut : List (List ChunkRow)}
      (hhas : ¬s.hasVersion (rowsIndexId scope b.extractors rows))
      (hcut : rows.mapM (t.chunkRows tenant b) = .ok cut)
      (hmarks : s'.marks = s.marks ++
        [⟨rowsIndexId scope b.extractors rows, scope.shapeRef, scope.owner, 0, b.now, false⟩])
      (hchunks : s'.chunks = s.chunks ++
        cut.flatten.map fun row => (rowsIndexId scope b.extractors rows, row))

theorem ensureVersion_ok {tenant : String} {t : SourceTable} {scope : BuildScope}
    {rows : List SourceRow} {b : BuildCall} {s s' : IndexStore}
    (h : s.ensureVersion tenant t scope rows b = .ok s') :
    rows ≠ [] ∧ Ensured tenant t scope rows b s s' := by
  obtain ⟨watermark, -, h⟩ := bind_eq_ok.mp h
  split at h
  · cases h
  · rename_i hne
    have hafter {base : IndexStore} (h : (pure (base.setWatermark
        (rowsIndexId scope b.extractors rows) watermark) : Result IndexStore) = .ok s') :
        s'.marks = base.marks ∧ s'.chunks = base.chunks := by
      injection h with h
      rw [← h]
      exact ⟨marks_setWatermark _ _ _, rfl⟩
    simp only at h
    split at h
    · rename_i hhas
      obtain ⟨base, hbase, h⟩ := bind_eq_ok.mp h
      injection hbase with hbase
      subst hbase
      obtain ⟨hmarks, hchunks⟩ := hafter h
      exact ⟨hne, .skipped hhas hmarks hchunks⟩
    · rename_i hhas
      obtain ⟨base, hbase, h⟩ := bind_eq_ok.mp h
      obtain ⟨hmarks, hchunks⟩ := hafter h
      obtain ⟨cut, hcut, hbase⟩ := bind_eq_ok.mp hbase
      injection hbase with hbase
      subst hbase
      refine ⟨hne, .built hhas hcut (hmarks.trans ?_) hchunks⟩
      rw [marks, List.map_append]
      rfl

end IndexStore
end
end Munarium
