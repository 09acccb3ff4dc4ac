import Munarium.Core.Types
import Munarium.Std.Digest
import Munarium.Std.Separated

/-! The object store's keys: one validated logical path per tenant, and the blob name that
is composed from both. -/
namespace Munarium

structure SourceKey where
  tenant : String
  path : String
  contentHash : String
  deriving DecidableEq

def badPath (path detail : String) : KernelError :=
  .invalidInput ("source path '" ++ path ++ "' is invalid: " ++ detail)

def validatePath (path : String) : Result Unit :=
  if path = "" then .error (badPath path "empty")
  else if 1024 < path.utf8ByteSize then .error (badPath path "longer than 1024 bytes")
  else if startsWith "/" path then
    .error (badPath path "absolute paths are not allowed")
  else if '\\' ∈ path.toList then
    .error (badPath path "backslashes are not allowed; use '/' separators")
  else if '\x00' ∈ path.toList then .error (badPath path "contains a NUL byte")
  else if (utf8 path)[1]? = some 0x3a then
    .error (badPath path "drive-qualified paths are not allowed")
  else match (pieces '/' path).find? fun s => s == "" || s == "." || s == ".." with
    | none => .ok ()
    | some segment => .error (badPath path
        (if segment = "" then "contains an empty path segment"
          else "contains a '.' or '..' segment"))

namespace SourceKey

/-- `SourceKey::new`. -/
def create (tenant path contentHash : String) : Result SourceKey := do
  validatePath path
  if tenant = "" ∨ '/' ∈ tenant.toList then
    .error (.invalidInput ("tenant '" ++ tenant ++
      "' must be non-empty and must not contain '/'"))
  else .ok ⟨tenant, path, contentHash⟩

def blobName (k : SourceKey) : String := k.tenant ++ String.singleton '/' ++ k.path

theorem create_eq_ok {tenant path contentHash : String} {k : SourceKey}
    (h : create tenant path contentHash = .ok k) :
    k = ⟨tenant, path, contentHash⟩ ∧ '/' ∉ tenant.toList := by
  obtain ⟨_, -, h⟩ := bind_eq_ok.mp h
  split_ifs at h with ht
  cases h
  exact ⟨rfl, fun hmem => ht (.inr hmem)⟩

/-- Keys that pass the check name one blob only if tenant and path agree. -/
theorem blobName_inj {tenant path hash tenant' path' hash' : String} {k k' : SourceKey}
    (h : create tenant path hash = .ok k) (h' : create tenant' path' hash' = .ok k')
    (heq : k.blobName = k'.blobName) : tenant = tenant' ∧ path = path' := by
  obtain ⟨rfl, ht⟩ := create_eq_ok h
  obtain ⟨rfl, ht'⟩ := create_eq_ok h'
  have hp := congrArg (pieces '/') heq
  simp only [blobName, pieces_append, pieces_eq_singleton ht, pieces_eq_singleton ht'] at hp
  obtain ⟨htenant, hpath⟩ := List.cons.inj hp
  exact ⟨htenant, pieces_injective _ hpath⟩

end SourceKey

/-- `str::strip_prefix("sha256:")`, or the whole text. -/
def trimHash (hash : String) : String :=
  if startsWith "sha256:" hash then String.ofList (hash.toList.drop 7) else hash

def EVIDENCE_PATH_PREFIX : String := "evidence/"

def blobPath (evidenceId : String) : String := EVIDENCE_PATH_PREFIX ++ evidenceId

theorem blobPath_injective : Function.Injective blobPath := by
  intro a b h
  have hl := congrArg String.toList h
  simp only [blobPath, String.toList_append, List.append_right_inj] at hl
  exact String.toList_injective hl

end Munarium
