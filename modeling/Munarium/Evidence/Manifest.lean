import Munarium.Core.Types
import Munarium.Evidence.Rfc3339
import Munarium.Std.Digest
import Munarium.Std.Separated
import Mathlib.Data.List.Destutter
import Mathlib.Data.List.Sort

/-! The evidence manifest and its structural validation. The fields that no check, key or
step below reads (kind, source, plan, completeness, redaction, freshness, execution) are
left out. -/
namespace Munarium

structure AuthorizationClass where
  accessLevel : Int32
  compartments : List String
  deriving DecidableEq

/-- The level dominates, and every compartment is held unless all are. -/
def AuthorizationClass.dominatedBy (a : AuthorizationClass) (level : Int32)
    (compartments : List String) (allCompartments : Bool) : Bool :=
  decide (a.accessLevel ≤ level) &&
    (allCompartments || a.compartments.all fun c => compartments.any (· == c))

structure Retention where
  expiresAt : Option String := none
  legalHold : Bool := false
  purgedAt : Option String := none
  deriving DecidableEq

structure Versions where
  policy : Option String := none
  deriving DecidableEq

structure EvidenceColumn where
  id : String
  name : String
  key : Bool
  deriving DecidableEq

inductive RowIdRule where
  | keys | position
  deriving DecidableEq

structure EvidenceIdentity where
  rowIdRule : RowIdRule
  orderBy : List String
  deriving DecidableEq

structure SnapshotMarker where
  sourceId : String
  deriving DecidableEq

structure EvidenceManifest where
  contractVersion : String
  canon : String
  evidenceId : Option String
  tenant : String
  logicalResultHash : String
  artifactHash : String
  bytesLen : ℤ
  mediaType : String
  versions : Versions
  columns : List EvidenceColumn
  identity : EvidenceIdentity
  snapshotVector : List SnapshotMarker
  authorizationClass : AuthorizationClass
  retention : Option Retention
  deriving DecidableEq

/-- The vendored contract's `VERSION` file. -/
def CONTRACT_VERSION : String := "0.1.0\n"

def MAX_ARTIFACT_BYTES : ℤ := 256 * 1024 * 1024

def MEDIA_TYPE_PARQUET : String := "application/vnd.apache.parquet"

def MEDIA_TYPE_CSV : String := "text/csv; charset=utf-8"

def isHash (s : String) : Bool :=
  s.utf8ByteSize == 71 && startsWith "sha256:" s &&
    (s.toList.drop 7).all fun c => c.isDigit || (decide ('a' ≤ c) && decide (c ≤ 'f'))

/-- What stands before the first point of a version. -/
def majorVersion (s : String) : String := (pieces '.' (trim s)).headD ""

def refuseWhen (bad : Bool) (message : String) : Result Unit :=
  if bad then .error (.invalidInput message) else .ok ()

theorem refuseWhen_eq_ok {bad : Bool} {message : String} :
    refuseWhen bad message = .ok () ↔ bad = false := by
  cases bad <;> simp [refuseWhen]

theorem bind_unit_eq_ok {x : Result Unit} {next : Unit → Result Unit} :
    (x >>= next) = .ok () ↔ x = .ok () ∧ next () = .ok () := by
  cases x <;> simp [bind, Except.bind]

def validateTimestamp (field : String) (value : Option String) : Result Unit :=
  match value with
  | none => .ok ()
  | some v => refuseWhen (parseFromRfc3339 v).isNone
      ("retention." ++ field ++ " must be an RFC 3339 timestamp, got '" ++ v ++ "'")

namespace EvidenceManifest

def validateRetention (m : EvidenceManifest) : Result Unit :=
  match m.retention with
  | none => .ok ()
  | some r => do
      validateTimestamp "expires_at" r.expiresAt
      validateTimestamp "purged_at" r.purgedAt

def validateIdentity (m : EvidenceManifest) : Result Unit :=
  match m.identity.rowIdRule with
  | .position => refuseWhen m.identity.orderBy.isEmpty
      ("identity.row_id_rule is 'position' but order_by is empty; positional row ids are " ++
        "meaningless without a total ordering (canon@1 rule 3)")
  | .keys => refuseWhen (!m.columns.any (·.key))
      ("identity.row_id_rule is 'keys' but no column is marked key; the row id would have " ++
        "nothing to derive from (canon@1 rule 3)")

def columnIds (m : EvidenceManifest) : List String :=
  (m.columns.map (·.id)).insertionSort (· ≤ ·)

def validate (m : EvidenceManifest) : Result Unit := do
  refuseWhen (m.canon != "canon@1")
    ("canon must be 'canon@1', got '" ++ m.canon ++
      "'; this server implements exactly one canonicalization version")
  refuseWhen (majorVersion CONTRACT_VERSION != majorVersion m.contractVersion)
    ("contract major version mismatch: manifest declares '" ++ m.contractVersion ++
      "', this server was built against '" ++ trim CONTRACT_VERSION ++
      "'. A major bump is a wire break, so the two trees must be deployed together")
  refuseWhen (trim m.tenant == "") "tenant is required"
  refuseWhen (!isHash m.logicalResultHash)
    ("logical_result_hash must be 'sha256:<64 lowercase hex>', got '" ++ m.logicalResultHash ++
      "'")
  refuseWhen (!isHash m.artifactHash)
    ("artifact_hash must be 'sha256:<64 lowercase hex>', got '" ++ m.artifactHash ++ "'")
  refuseWhen (decide (m.bytesLen < 0)) "bytes_len must not be negative"
  refuseWhen (decide (MAX_ARTIFACT_BYTES < m.bytesLen))
    ("bytes_len " ++ toString m.bytesLen ++ " exceeds the " ++ toString MAX_ARTIFACT_BYTES ++
      "-byte ceiling")
  refuseWhen (m.mediaType != MEDIA_TYPE_PARQUET && m.mediaType != MEDIA_TYPE_CSV)
    ("media_type must be '" ++ MEDIA_TYPE_PARQUET ++ "' or '" ++ MEDIA_TYPE_CSV ++ "', got '" ++
      m.mediaType ++ "'")
  refuseWhen m.columns.isEmpty "schema.columns must not be empty"
  refuseWhen ((m.columnIds.destutter (· ≠ ·)).length != m.columnIds.length)
    "schema.columns contains duplicate column ids"
  refuseWhen m.snapshotVector.isEmpty
    ("snapshot_vector must name at least one source; an artifact with no snapshot marker " ++
      "cannot state its freshness (G3)")
  refuseWhen (decide (m.authorizationClass.accessLevel < 0))
    "authorization_class.access_level must not be negative"
  m.validateRetention
  m.validateIdentity

def Accepted (m : EvidenceManifest) : Prop := m.validate = .ok ()

instance (m : EvidenceManifest) : Decidable m.Accepted :=
  inferInstanceAs (Decidable (m.validate = .ok ()))

/-- What validation looks at, besides the fields that the domain key is made of. -/
def Frame (m : EvidenceManifest) : Prop :=
  m.canon = "canon@1" ∧ majorVersion CONTRACT_VERSION = majorVersion m.contractVersion ∧
    isHash m.artifactHash = true ∧ 0 ≤ m.bytesLen ∧ m.bytesLen ≤ MAX_ARTIFACT_BYTES ∧
    (m.mediaType = MEDIA_TYPE_PARQUET ∨ m.mediaType = MEDIA_TYPE_CSV) ∧ m.columns ≠ [] ∧
    (m.columnIds.destutter (· ≠ ·)).length = m.columnIds.length ∧ m.snapshotVector ≠ [] ∧
    m.validateRetention = .ok () ∧ m.validateIdentity = .ok ()

theorem accepted_iff {m : EvidenceManifest} : m.Accepted ↔ m.Frame ∧ trim m.tenant ≠ "" ∧
    isHash m.logicalResultHash = true ∧ 0 ≤ m.authorizationClass.accessLevel := by
  simp only [Accepted, validate, bind_unit_eq_ok, refuseWhen_eq_ok, Frame,
    bne_eq_false_iff_eq, beq_eq_false_iff_ne, Bool.not_eq_false', decide_eq_false_iff_not,
    Bool.and_eq_false_iff, List.isEmpty_eq_false_iff, not_lt, Int32.not_lt, ne_eq]
  constructor
  · rintro ⟨h₁, h₂, ht, hh, h₃, h₄, h₅, h₆, h₇, h₈, h₉, hl, h₁₀, h₁₁⟩
    exact ⟨⟨h₁, h₂, h₃, h₄, h₅, h₆, h₇, h₈, h₉, h₁₀, h₁₁⟩, ht, hh, hl⟩
  · rintro ⟨⟨h₁, h₂, h₃, h₄, h₅, h₆, h₇, h₈, h₉, h₁₀, h₁₁⟩, ht, hh, hl⟩
    exact ⟨h₁, h₂, ht, hh, h₃, h₄, h₅, h₆, h₇, h₈, h₉, hl, h₁₀, h₁₁⟩

end EvidenceManifest

end Munarium
