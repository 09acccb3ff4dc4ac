import Munarium.Core.Types
import Munarium.Retrieval.Chunker
import Munarium.Std.Digest
import Munarium.Std.Separated
import Mathlib.Data.List.Sort

/-! What an index build computes from its bound sources: the index id, a digest of a text over
the build's inputs, and the chunk rows. -/
namespace Munarium

/-- The registered extractors. -/
inductive ExtractorKind where
  | docx
  | pdfText
  | ocr
  deriving DecidableEq

def ExtractorKind.id : ExtractorKind → String
  | docx => "docx@1"
  | pdfText => "pdf-text@1"
  | ocr => "ocr@1"

def extractorSetVersion : String := "extract@1"

/-- Every extractor id, sorted. -/
def registryVersion (extractors : List ExtractorKind) : String :=
  extractorSetVersion ++ "[" ++
    join "," ((extractors.map ExtractorKind.id).insertionSort (· ≤ ·)) ++ "]"

/-- Text extraction under a registry version. ASCII text media pass through unchanged. -/
class Extraction where
  extract : String → String → Bytes → List Char
  plain : ∀ version (bytes : Bytes), (∀ b ∈ bytes, b < 128) →
    extract version "text/plain" bytes = bytes.map fun b => Char.ofNat b.toNat

def chunkerVersion : String := "para@2"

def localEmbedder : String := "local-hash@1"

section
variable [Sha256]

/-- The first sixteen hex digits of the digest. -/
def shortHex (text : String) : String :=
  String.ofList ((sha256Hex (utf8 text)).toList.take 16)

def sourceId (tenant path : String) : String := "src-" ++ shortHex (tenant ++ "/" ++ path)

end

/-- A source as a build reads it: its logical path and the bytes and media type it holds. -/
structure BoundSource where
  filename : String
  mediaType : String
  bytes : Bytes
  deriving DecidableEq

structure ChunkRow where
  chunkId : String
  sourceId : String
  sourceHash : String
  ordinal : ℕ
  text : List Char
  deriving DecidableEq

/-- What a build indexes: a legacy shape or a collection of a shape. -/
inductive BuildScope where
  | shape (shapeRef : String)
  | collection (collectionId name shapeRef : String)

namespace BuildScope

def text : BuildScope → String
  | shape shapeRef => shapeRef
  | collection collectionId _ shapeRef => collectionId ++ "|" ++ shapeRef

def noSources : BuildScope → KernelError
  | shape shapeRef =>
      .invalidInput ("no sources bound to shape '" ++ shapeRef ++
        "' — PutSource with shape_ref first")
  | collection _ name _ =>
      .invalidInput ("no sources bound to collection '" ++ name ++
        "' — ingest or bind sources first")

end BuildScope

section
variable [Sha256]

namespace BoundSource

def contentHash (s : BoundSource) : String := sha256Hex s.bytes

/-- Identity pairs the id with the hash. -/
def identity (tenant : String) (s : BoundSource) : String :=
  sourceId tenant s.filename ++ ":" ++ s.contentHash

end BoundSource

def buildIdentity (tenant : String) (scope : BuildScope) (extractors : List ExtractorKind)
    (sources : List BoundSource) : String :=
  scope.text ++ "|" ++ chunkerVersion ++ "|" ++ localEmbedder ++ "|" ++
    registryVersion extractors ++ "|" ++ join "," (sources.map (BoundSource.identity tenant))

def buildIndexId (tenant : String) (scope : BuildScope) (extractors : List ExtractorKind)
    (sources : List BoundSource) : String :=
  "idx-" ++ shortHex (buildIdentity tenant scope extractors sources)

/-- The rows of one source. The ordinal column is a 32-bit integer. -/
def sourceRows (id hash : String) (chunks : List (List Char)) : Result (List ChunkRow) :=
  chunks.zipIdx.mapM fun c =>
    if c.2 < 2 ^ 31 then .ok ⟨id ++ "#" ++ toString c.2, id, hash, c.2, c.1⟩
    else .error (.storage "chunk ordinal exceeds PostgreSQL INTEGER")

variable [Extraction]

def BoundSource.chunks (extractors : List ExtractorKind) (maxChars : ℕ) (s : BoundSource) :
    List (List Char) :=
  chunkText (Extraction.extract (registryVersion extractors) s.mediaType s.bytes) maxChars

def chunkRows (tenant : String) (extractors : List ExtractorKind) (maxChars : ℕ)
    (sources : List BoundSource) : Result (List ChunkRow) := do
  let rows ← sources.mapM fun s =>
    sourceRows (sourceId tenant s.filename) s.contentHash (s.chunks extractors maxChars)
  return rows.flatten

/-- The inputs of one run of `build_index` or `build_collection_index`. -/
structure Build where
  scope : BuildScope
  extractors : List ExtractorKind
  sources : List BoundSource
  maxChars : ℕ

/-- The id and the rows that a run computes. -/
def Build.run (tenant : String) (b : Build) : Result (String × List ChunkRow) :=
  if b.sources = [] then .error b.scope.noSources
  else do
    let rows ← chunkRows tenant b.extractors b.maxChars b.sources
    return (buildIndexId tenant b.scope b.extractors b.sources, rows)

end

/-- A digest that turns its input round, so that the sixteen digits are those of its end. -/
abbrev reversingSha256 : Sha256 := ⟨List.reverse⟩

/-- Every media type is read as ASCII text. -/
abbrev asciiExtraction : Extraction where
  extract _ _ bytes := bytes.map fun b => Char.ofNat b.toNat
  plain _ _ _ := rfl

end Munarium
