import Munarium.Evidence.Sources
import Munarium.Lib.SortedMap
import Munarium.Retrieval.IndexBuild

/-! The sources table and the object store under it. A put writes bytes first and metadata
second, and a row's id is a digest of its path. -/
namespace Munarium

structure SourceRow where
  sourceId : String
  filename : String
  contentHash : String
  mediaType : String
  shapeRef : Option String
  deriving DecidableEq

/-- The arguments of `put_source`. -/
structure PutSource where
  declaredSha256 : String
  mediaType : String
  filename : String
  shapeRef : Option String
  bytes : Bytes

/-- What `put_source` returns. -/
structure PutAnswer where
  sourceId : String
  contentHash : String
  existed : Bool
  deriving DecidableEq

def refuseReservedDocumentPath (path : String) : Result Unit :=
  if startsWith EVIDENCE_PATH_PREFIX path then
    .error (.invalidInput ("source path '" ++ path ++ "' is under the reserved '" ++
      EVIDENCE_PATH_PREFIX ++ "' prefix; that keyspace belongs to sealed evidence artifacts " ++
      "and cannot hold documents"))
  else .ok ()

/-- Rows by source id, bytes by blob name. -/
structure SourceTable where
  rows : SortedMap String SourceRow := .empty
  blobs : SortedMap String Bytes := .empty
  deriving DecidableEq

/-- The rows' upsert keeps the first filename. -/
def SourceTable.writeRow (row : SourceRow) (t : SourceTable) : SourceTable :=
  let filename := ((t.rows.get? row.sourceId).map SourceRow.filename).getD row.filename
  { t with rows := t.rows.insert row.sourceId { row with filename } }

def SourceTable.writeBytes (k : SourceKey) (bytes : Bytes) (t : SourceTable) : SourceTable :=
  { t with blobs := t.blobs.insert k.blobName bytes }

/-- `SourceStore::get`. -/
def SourceTable.get (t : SourceTable) (k : SourceKey) : Result Bytes :=
  match t.blobs.get? k.blobName with
  | some bytes => .ok bytes
  | none => .error (.notFound "source blob" k.blobName)

def SourceTable.priorHash (t : SourceTable) (id : String) : Option String :=
  (t.rows.get? id).map SourceRow.contentHash

theorem SourceTable.get_eq_ok {t : SourceTable} {k : SourceKey} {bytes : Bytes} :
    t.get k = .ok bytes ↔ t.blobs.get? k.blobName = some bytes := by
  rw [get]
  cases t.blobs.get? k.blobName <;> simp

section
variable [Sha256]

def SourceKey.sourceId (k : SourceKey) : String := Munarium.sourceId k.tenant k.path

/-- The checks before the first step, and the key they leave. -/
def PutSource.key (tenant : String) (r : PutSource) : Result SourceKey := do
  if r.declaredSha256 ≠ "" ∧ r.declaredSha256.toLower ≠ sha256Hex r.bytes then
    .error (.invalidInput ("declared sha256 " ++ r.declaredSha256 ++
      " does not match content " ++ sha256Hex r.bytes))
  else
    refuseReservedDocumentPath r.filename
    SourceKey.create tenant r.filename (sha256Hex r.bytes)

def PutSource.row (r : PutSource) (k : SourceKey) : SourceRow :=
  ⟨k.sourceId, r.filename, k.contentHash, r.mediaType, r.shapeRef⟩

def PutSource.answer (k : SourceKey) (prior : Option String) : PutAnswer :=
  ⟨k.sourceId, k.contentHash, prior == some k.contentHash⟩

namespace SourceTable

def putSource (tenant : String) (r : PutSource) (t : SourceTable) :
    Result (PutAnswer × SourceTable) := do
  let k ← r.key tenant
  let prior := t.priorHash k.sourceId
  return (PutSource.answer k prior, (t.writeBytes k r.bytes).writeRow (r.row k))

/-- The row describes the bytes that its path holds. -/
def Describes (tenant : String) (t : SourceTable) (row : SourceRow) : Prop :=
  ∃ k bytes, SourceKey.create tenant row.filename row.contentHash = .ok k ∧
    t.get k = .ok bytes ∧ row.contentHash = sha256Hex bytes

/-- Every row stands under its path's id and describes its path's bytes. -/
structure Coherent (tenant : String) (t : SourceTable) : Prop where
  id : ∀ id row, t.rows.get? id = some row →
    row.sourceId = id ∧ sourceId tenant row.filename = id
  describes : ∀ id row, t.rows.get? id = some row → t.Describes tenant row

theorem coherent_empty (tenant : String) : ({} : SourceTable).Coherent tenant where
  id id row h := by simp at h
  describes id row h := by simp at h

end SourceTable

theorem PutSource.key_eq_ok {tenant : String} {r : PutSource} {k : SourceKey}
    (h : r.key tenant = .ok k) :
    SourceKey.create tenant r.filename (sha256Hex r.bytes) = .ok k ∧
      k = ⟨tenant, r.filename, sha256Hex r.bytes⟩ := by
  rw [PutSource.key] at h
  split at h
  · cases h
  · obtain ⟨_, -, hcreate⟩ := bind_eq_ok.mp h
    exact ⟨hcreate, (SourceKey.create_eq_ok hcreate).1⟩

namespace SourceTable

/-- Where no other path has this path's id, a put leaves the table coherent. -/
theorem Coherent.putSource {tenant : String} {t t' : SourceTable} {r : PutSource}
    {a : PutAnswer} (h : t.Coherent tenant)
    (hid : ∀ row, t.rows.get? (sourceId tenant r.filename) = some row →
      row.filename = r.filename)
    (hput : t.putSource tenant r = .ok (a, t')) : t'.Coherent tenant := by
  obtain ⟨k, hk, hput⟩ := bind_eq_ok.mp hput
  obtain ⟨hcreate, rfl⟩ := PutSource.key_eq_ok hk
  injection hput with hput
  injection hput with _ ht'
  have hname : ((t.rows.get? (sourceId tenant r.filename)).map SourceRow.filename).getD
      r.filename = r.filename := by
    cases hrow : t.rows.get? (sourceId tenant r.filename) with
    | none => rfl
    | some row => exact hid row hrow
  have hrows (id : String) : t'.rows.get? id = if id = sourceId tenant r.filename then
      some (r.row ⟨tenant, r.filename, sha256Hex r.bytes⟩) else t.rows.get? id := by
    rw [← ht', writeRow, SortedMap.get?_insert]
    simp only [writeBytes, PutSource.row, SourceKey.sourceId, hname]
  have hblobs : t'.blobs = t.blobs.insert
      (SourceKey.blobName ⟨tenant, r.filename, sha256Hex r.bytes⟩) r.bytes := by
    rw [← ht']
    rfl
  constructor
  · intro id row hrow
    rw [hrows] at hrow
    split_ifs at hrow with he
    · obtain rfl := Option.some.inj hrow
      exact ⟨he.symm, he.symm⟩
    · exact h.id id row hrow
  · intro id row hrow
    rw [hrows] at hrow
    split_ifs at hrow with he
    · obtain rfl := Option.some.inj hrow
      refine ⟨_, r.bytes, hcreate, get_eq_ok.mpr ?_, rfl⟩
      rw [hblobs, SortedMap.get?_insert_self]
    · obtain ⟨k, bytes, hk, hget, hhash⟩ := h.describes id row hrow
      refine ⟨k, bytes, hk, get_eq_ok.mpr ?_, hhash⟩
      rw [hblobs, SortedMap.get?_insert_of_ne, get_eq_ok.mp hget]
      -- one blob name would mean one path, and so one id
      intro hblob
      obtain ⟨-, hpath⟩ := SourceKey.blobName_inj hk hcreate hblob
      rw [← (h.id id row hrow).2, hpath] at he
      exact he rfl

end SourceTable
end
end Munarium
