import Munarium.Retrieval.FusionScores
import Munarium.Std.Json

/-! The cross-collection merge: the adapter onto the pooled fusion, and the historical merge
from raw leg scores that it replaced. -/
namespace Munarium

open StableSort

structure SearchHit where
  chunkId : String
  sourceId : String
  sourcePath : String
  sourceContentHash : String
  text : String
  score : ℚ
  lexicalRank : Option ℕ
  vectorRank : Option ℕ
  lexicalScore : Option F64
  vectorDistance : Option F64
  metadata : Option Json

def SearchHit.withScore (h : SearchHit) (score : ℚ) : SearchHit := { h with score := score }

structure CollectionSearchResult where
  collectionName : String
  hits : List SearchHit

structure MergeWeights where
  lexical : ℚ
  vector : ℚ
  collectionEvidence : ℚ
  collectionRank : SortedMap String ℕ
  probeCollections : Finset String
  probeWeight : ℚ

/-- The hits in input order, each under the name of its collection. -/
def flatten (results : List CollectionSearchResult) : List (String × SearchHit) :=
  results.flatMap fun r => r.hits.map fun h => (r.collectionName, h)

namespace Retrieval

def pgLexicalDomain : String := "postgresql/ts_rank/english@1"

def localVectorDomain : String := "local/local-hash@1/256"

/-- Distances are negated: the pooled merge reads higher as better. -/
def candidate (domains : SortedMap String (String × String)) (ordinal : ℕ) (pool : String)
    (hit : SearchHit) : PoolCandidate :=
  { pool := pool
    ordinal := ordinal
    chunkId := hit.chunkId
    lexical := hit.lexicalScore.map fun v =>
      ⟨((domains.get? pool).map Prod.fst).getD pgLexicalDomain, v⟩
    vector := hit.vectorDistance.map fun d =>
      ⟨((domains.get? pool).map Prod.snd).getD localVectorDomain, d.neg⟩ }

def candidates (domains : SortedMap String (String × String))
    (flat : List (String × SearchHit)) : List PoolCandidate :=
  flat.zipIdx.map fun h => candidate domains h.2 h.1.1 h.1.2

def pooled (rrfK : ℚ) (weights : MergeWeights) : PoolMergeWeights :=
  { lexical := weights.lexical
    vector := weights.vector
    rrfK := rrfK
    poolEvidence := weights.collectionEvidence
    poolRank := weights.collectionRank
    probePools := weights.probeCollections
    probeWeight := weights.probeWeight }

def mergeHitsInDomains (results : List CollectionSearchResult) (topK : ℕ) (rrfK : ℚ)
    (weights : MergeWeights) (domains : SortedMap String (String × String)) :
    List (String × SearchHit) :=
  let flat := flatten results
  let outcome :=
    if domains.entries = [] then
      fusePools (candidates domains flat) topK (pooled rrfK weights)
    else fusePoolsPartialDomains (candidates domains flat) topK (pooled rrfK weights)
  outcome.ranked.filterMap fun s =>
    (flat[s.1]?).map fun h => (h.1, h.2.withScore s.2)

def mergeHitsWeighted (results : List CollectionSearchResult) (topK : ℕ) (rrfK : ℚ)
    (weights : MergeWeights) : List (String × SearchHit) :=
  mergeHitsInDomains results topK rrfK weights .empty

end Retrieval

/-- `partial_cmp` on optional values: an absent value comes first. -/
def partialCmpOption : Option F64 → Option F64 → Option Ordering
  | none, none => some .eq
  | none, some _ => some .lt
  | some _, none => some .gt
  | some a, some b => a.partialCmp b

namespace RetrievalPg

def hitAt (merged : List (String × SearchHit)) (i : ℕ) : Option SearchHit :=
  (merged[i]?).map Prod.snd

def chunkIdAt (merged : List (String × SearchHit)) (i : ℕ) : String :=
  ((hitAt merged i).map SearchHit.chunkId).getD ""

def isProbe (merged : List (String × SearchHit)) (weights : MergeWeights) (i : ℕ) : Bool :=
  ((merged[i]?).map fun m => decide (m.1 ∈ weights.probeCollections)).getD false

def lexicalScoreAt (merged : List (String × SearchHit)) (i : ℕ) : Option F64 :=
  (hitAt merged i).bind SearchHit.lexicalScore

def vectorDistanceAt (merged : List (String × SearchHit)) (i : ℕ) : Option F64 :=
  (hitAt merged i).bind SearchHit.vectorDistance

def byLexical (merged : List (String × SearchHit)) (a b : ℕ) : Ordering :=
  ((partialCmpOption (lexicalScoreAt merged b) (lexicalScoreAt merged a)).getD .eq).then
    (compare (chunkIdAt merged a) (chunkIdAt merged b))

def byVector (merged : List (String × SearchHit)) (a b : ℕ) : Ordering :=
  ((partialCmpOption (vectorDistanceAt merged a) (vectorDistanceAt merged b)).getD .eq).then
    (compare (chunkIdAt merged a) (chunkIdAt merged b))

def lexicalOrder (merged : List (String × SearchHit)) (weights : MergeWeights)
    (probeStratum : Bool) : List ℕ :=
  sortBy (byLexical merged) ((List.range merged.length).filter fun i =>
    isProbe merged weights i == probeStratum && (lexicalScoreAt merged i).isSome)

def vectorOrder (merged : List (String × SearchHit)) (weights : MergeWeights)
    (probeStratum : Bool) : List ℕ :=
  sortBy (byVector merged) ((List.range merged.length).filter fun i =>
    isProbe merged weights i == probeStratum && (vectorDistanceAt merged i).isSome)

/-- `1/(k + rank)` of every position of an order, under a weight. -/
def addOrder (k weight : ℚ) (order : List ℕ) (fused : List ℚ) : List ℚ :=
  (order.zipIdx.map fun i => (i.1, weight / (k + i.2 + 1))).foldl addScore fused

def fuseStratum (merged : List (String × SearchHit)) (k : ℚ) (weights : MergeWeights)
    (fused : List ℚ) (probeStratum : Bool) : List ℚ :=
  let stratumWeight := if probeStratum then weights.probeWeight else 1
  addOrder k (stratumWeight * weights.vector) (vectorOrder merged weights probeStratum)
    (addOrder k (stratumWeight * weights.lexical) (lexicalOrder merged weights probeStratum)
      fused)

def fused (merged : List (String × SearchHit)) (rrfK : ℚ) (weights : MergeWeights) : List ℚ :=
  let k := if rrfK > 0 then rrfK else 60
  let legs := [false, true].foldl (fuseStratum merged k weights)
    (List.replicate merged.length 0)
  if weights.collectionEvidence > 0 then
    (merged.zipIdx.filterMap fun m => (weights.collectionRank.get? m.1.1).map fun rank =>
      (m.2, weights.collectionEvidence / (k + (max rank 1 : ℕ)))).foldl addScore legs
  else legs

def byScore (a b : String × SearchHit) : Ordering :=
  (compare b.2.score a.2.score).then (compare a.2.chunkId b.2.chunkId)

/-- The merge from raw leg scores, kept as the reference. -/
def mergeHitsWeighted (results : List CollectionSearchResult) (topK : ℕ) (rrfK : ℚ)
    (weights : MergeWeights) : List (String × SearchHit) :=
  let merged := flatten results
  (sortBy byScore (merged.zipWith (fun m score => (m.1, m.2.withScore score)) (fused
    merged rrfK weights))).take (if topK = 0 then 10 else topK)

end RetrievalPg
end Munarium
