import Munarium.Datastore.Vector
import Munarium.Lib.Checked
import Munarium.Std.Separated

/-! What an artifact's manifest and bytes have to pass before anything is opened. -/
namespace Munarium

structure ManifestComponent where
  path : String
  bytesLen : UInt64
  sha256 : String
  required : Bool
  deriving DecidableEq

structure ReaderRange where
  minVersion : UInt32
  maxVersion : UInt32
  requiredFeatures : List String

structure ArtifactCounts where
  chunks : UInt64
  vectors : Option UInt64
  dimensions : Option UInt32

/-- A manifest, with the ids of its engines and probes and the path of its range map. -/
structure ArtifactManifest where
  manifestVersion : UInt32
  formatVersion : UInt32
  buildSpecSha256 : String
  artifactPlanSha256 : String
  engines : List String
  components : List ManifestComponent
  rangeMap : Option String
  counts : ArtifactCounts
  reader : ReaderRange
  probes : List String

structure Limits where
  maxComponents : ℕ
  maxComponentBytes : UInt64
  maxTotalBytes : UInt64
  maxChunks : UInt64
  maxDimensions : UInt32

structure ReaderCapabilities where
  formatMin : UInt32
  formatMax : UInt32
  features : List String

/-- The manifest that `serde_json::from_slice` reads, or its error. -/
class ManifestText where
  fromSlice : Bytes → Except String ArtifactManifest

namespace Verify

def refuseIf (b : Bool) (e : DatastoreError) : Except DatastoreError Unit :=
  if b then .error e else .ok ()

section
variable [DebugText]

def segmentError (raw : String) : String → Option DatastoreError
  | "" => some (.path ("empty path segment: " ++ DebugText.text raw))
  | "." => some (.path ("'.' segment: " ++ DebugText.text raw))
  | ".." => some (.path ("'..' escapes the artifact prefix: " ++ DebugText.text raw))
  | _ => none

def isAsciiAlphabetic (b : UInt8) : Bool :=
  (0x41 ≤ b && b ≤ 0x5a) || (0x61 ≤ b && b ≤ 0x7a)

/-- `C:` or `C:/...`. -/
def isDriveQualified (raw : String) : Bool :=
  match utf8 raw with
  | first :: second :: _ => second == 0x3a && isAsciiAlphabetic first
  | _ => false

def normalizeComponentPath (raw : String) : Except DatastoreError String := do
  refuseIf (raw == "") (.path "empty component path")
  refuseIf (raw.toList.any fun c => decide (c.toNat < 0x20))
    (.path ("control character in path: " ++ DebugText.text raw))
  refuseIf (raw.toList.contains '\\')
    (.path ("backslash in path (paths are POSIX-relative, never host-shaped): " ++
      DebugText.text raw))
  refuseIf (raw.toList.head? == some '/') (.path ("absolute path: " ++ DebugText.text raw))
  refuseIf (isDriveQualified raw) (.path ("drive-qualified path: " ++ DebugText.text raw))
  refuseIf (raw.toList.contains ':')
    (.path ("colon in path (alternate data stream or drive): " ++ DebugText.text raw))
  match (pieces '/' raw).findSome? (segmentError raw) with
  | some e => .error e
  | none => .ok (join "/" (pieces '/' raw))

def isHex64 (s : String) : Bool :=
  s.utf8ByteSize == 64 && (utf8 s).all fun b =>
    (0x30 ≤ b && b ≤ 0x39) || (0x61 ≤ b && b ≤ 0x66)

/-- The components in order, with the paths seen and the bytes declared so far. -/
def checkComponents (limits : Limits) : List String → UInt64 → List ManifestComponent →
    Except DatastoreError (List String × UInt64)
  | seen, total, [] => .ok (seen, total)
  | seen, total, c :: rest => do
      let norm ← normalizeComponentPath c.path
      refuseIf (norm != c.path) (.path ("component path " ++ DebugText.text c.path ++
        " is not already normalized (normalizes to " ++ DebugText.text norm ++ ")"))
      refuseIf (seen.contains norm) (.path ("duplicate component path: " ++ DebugText.text norm))
      refuseIf (!isHex64 c.sha256) (.invalid ("component " ++ DebugText.text norm ++
        " sha256 is not 64 lowercase hex characters"))
      refuseIf (decide (limits.maxComponentBytes < c.bytesLen)) (.limit ("component " ++
        DebugText.text norm ++ " declares " ++ toString c.bytesLen ++ " bytes, over the " ++
        toString limits.maxComponentBytes ++ " limit"))
      match total.checkedAdd c.bytesLen with
      | none => .error (.limit "declared component sizes overflow a u64 in total")
      | some total => checkComponents limits (norm :: seen) total rest

def checkFeatures (reader : ReaderCapabilities) : List String → Except DatastoreError Unit
  | [] => .ok ()
  | feature :: rest => do
      refuseIf (!reader.features.contains feature)
        (.unsupported ("artifact requires unknown feature " ++ DebugText.text feature))
      checkFeatures reader rest

def checkCounts (counts : ArtifactCounts) (limits : Limits) : Except DatastoreError Unit := do
  refuseIf (decide (limits.maxChunks < counts.chunks)) (.limit ("declares " ++
    toString counts.chunks ++ " chunks, over the " ++ toString limits.maxChunks ++ " limit"))
  match counts.dimensions with
  | some d => refuseIf (d == 0 || decide (limits.maxDimensions < d)) (.limit ("declares " ++
      toString d ++ " dimensions, outside 1..=" ++ toString limits.maxDimensions))
  | none => .ok ()
  match counts.vectors, counts.dimensions with
  | some _, none => .error (.invalid "vectors declared with no dimensions")
  | none, some _ => .error (.invalid "dimensions declared with no vectors")
  | _, _ => .ok ()

def validateManifest (manifest : ArtifactManifest) (reader : ReaderCapabilities)
    (limits : Limits) : Except DatastoreError Unit := do
  refuseIf (manifest.manifestVersion != 1) (.unsupported ("manifest_version " ++
    toString manifest.manifestVersion ++ " (this reader understands 1)"))
  refuseIf (decide (manifest.formatVersion < reader.formatMin ∨
      reader.formatMax < manifest.formatVersion))
    (.unsupported ("envelope format_version " ++ toString manifest.formatVersion ++
      " outside this reader's range " ++ toString reader.formatMin ++ "..=" ++
      toString reader.formatMax))
  refuseIf (decide (reader.formatMax < manifest.reader.minVersion ∨
      manifest.reader.maxVersion < reader.formatMin))
    (.unsupported ("artifact declares reader range " ++ toString manifest.reader.minVersion ++
      "..=" ++ toString manifest.reader.maxVersion ++ ", incompatible with " ++
      toString reader.formatMin ++ "..=" ++ toString reader.formatMax))
  checkFeatures reader manifest.reader.requiredFeatures
  refuseIf (!isHex64 manifest.buildSpecSha256)
    (.invalid "build_spec_sha256 is not 64 lowercase hex characters")
  refuseIf (!isHex64 manifest.artifactPlanSha256)
    (.invalid "artifact_plan_sha256 is not 64 lowercase hex characters")
  refuseIf manifest.engines.isEmpty (.invalid "manifest lists no engines")
  refuseIf manifest.components.isEmpty (.invalid "manifest lists no components")
  refuseIf (decide (limits.maxComponents < manifest.components.length))
    (.limit (toString manifest.components.length ++ " components exceeds the limit of " ++
      toString limits.maxComponents))
  refuseIf manifest.probes.isEmpty (.invalid ("manifest declares no verification probes; " ++
    "checksums alone cannot show the index answers"))
  let (seen, total) ← checkComponents limits [] 0 manifest.components
  refuseIf (decide (limits.maxTotalBytes < total)) (.limit ("declared total " ++
    toString total ++ " bytes over the " ++ toString limits.maxTotalBytes ++ " limit"))
  checkCounts manifest.counts limits
  match manifest.rangeMap with
  | none => .ok ()
  | some path =>
      let norm ← normalizeComponentPath path
      refuseIf (!seen.contains norm) (.invalid ("range map " ++ DebugText.text norm ++
        " is not listed as a component, so its bytes are unhashed"))

variable [Sha256]

def verifyManifestBytes (bytes : Bytes) (expectedArtifactId : String) :
    Except DatastoreError Unit :=
  refuseIf (sha256Hex bytes != expectedArtifactId) (.integrity ("manifest bytes hash to " ++
    sha256Hex bytes ++ ", not the expected artifact id " ++ expectedArtifactId))

def verifyComponent (component : ManifestComponent) (bytes : Bytes) :
    Except DatastoreError Unit := do
  refuseIf (decide (bytes.length ≠ component.bytesLen.toNat)) (.integrity ("component " ++
    DebugText.text component.path ++ " is " ++ toString bytes.length ++
    " bytes, manifest declares " ++ toString component.bytesLen))
  refuseIf (sha256Hex bytes != component.sha256) (.integrity ("component " ++
    DebugText.text component.path ++ " hashes to " ++ sha256Hex bytes ++
    ", manifest declares " ++ component.sha256))

end

theorem refuseIf_bind_eq_ok {α : Type} {b : Bool} {e : DatastoreError}
    {next : Unit → Except DatastoreError α} {a : α} (h : (refuseIf b e >>= next) = .ok a) :
    b = false ∧ next () = .ok a := by
  cases b with
  | true => cases h
  | false => exact ⟨rfl, h⟩

theorem bind_eq_ok {α β : Type} {x : Except DatastoreError α}
    {next : α → Except DatastoreError β} {b : β} (h : (x >>= next) = .ok b) :
    ∃ a, x = .ok a ∧ next a = .ok b := by
  cases x with
  | error e => cases h
  | ok a => exact ⟨a, rfl, h⟩

section
variable [DebugText] {limits : Limits} {c : ManifestComponent} {rest : List ManifestComponent}
  {seen : List String} {total : UInt64} {r : List String × UInt64}

theorem checkComponents_cons (h : checkComponents limits seen total (c :: rest) = .ok r) :
    c.path ∉ seen ∧ ∃ total', checkComponents limits (c.path :: seen) total' rest = .ok r := by
  unfold checkComponents at h
  obtain ⟨norm, -, h⟩ := bind_eq_ok h
  obtain ⟨hnorm, h⟩ := refuseIf_bind_eq_ok h
  obtain ⟨hseen, h⟩ := refuseIf_bind_eq_ok h
  obtain ⟨-, h⟩ := refuseIf_bind_eq_ok h
  obtain ⟨-, h⟩ := refuseIf_bind_eq_ok h
  obtain rfl : norm = c.path := by simpa using hnorm
  refine ⟨by simpa using hseen, ?_⟩
  cases hadd : total.checkedAdd c.bytesLen with
  | none => simp [hadd] at h
  | some total' =>
    simp only [hadd] at h
    exact ⟨total', h⟩

/-- Accepted components have paths of their own, none of them seen before. -/
theorem checkComponents_nodup {components : List ManifestComponent}
    (h : checkComponents limits seen total components = .ok r) :
    (components.map (·.path)).Nodup ∧ ∀ c ∈ components, c.path ∉ seen := by
  induction components generalizing seen total with
  | nil => exact ⟨List.nodup_nil, nofun⟩
  | cons c rest ih =>
    obtain ⟨hnew, total', hrest⟩ := checkComponents_cons h
    obtain ⟨hnodup, hfresh⟩ := ih hrest
    constructor
    · rw [List.map_cons, List.nodup_cons]
      refine ⟨?_, hnodup⟩
      intro hmem
      obtain ⟨q, hq, heq⟩ := List.mem_map.mp hmem
      exact hfresh q hq (heq ▸ List.mem_cons_self)
    · intro q hq
      rcases List.mem_cons.mp hq with rfl | hold
      · exact hnew
      · exact fun hseen => hfresh q hold (List.mem_cons_of_mem _ hseen)

theorem validateManifest_nodup {manifest : ArtifactManifest} {reader : ReaderCapabilities}
    (h : validateManifest manifest reader limits = .ok ()) :
    (manifest.components.map (·.path)).Nodup := by
  unfold validateManifest at h
  iterate 3 obtain ⟨-, h⟩ := refuseIf_bind_eq_ok h
  obtain ⟨_, -, h⟩ := bind_eq_ok h
  iterate 6 obtain ⟨-, h⟩ := refuseIf_bind_eq_ok h
  obtain ⟨_, hcomponents, -⟩ := bind_eq_ok h
  exact (checkComponents_nodup hcomponents).1

end
end Verify
end Munarium
