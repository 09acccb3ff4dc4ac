import Munarium.Lib.SortedMap
import Munarium.Lib.StableSort
import Munarium.Std.Float
import Mathlib.Data.String.Basic
import Mathlib.Data.Finset.Insert

/-! The engine-neutral pooled merge: each stratum and leg ranks its members inside their
measurement domains, and the fused score adds the reciprocal ranks. -/
namespace Munarium

open StableSort

structure Measure where
  domain : String
  value : F64
  deriving DecidableEq

structure PoolCandidate where
  pool : String
  ordinal : ℕ
  chunkId : String
  lexical : Option Measure
  vector : Option Measure
  deriving DecidableEq

structure PoolMergeWeights where
  lexical : ℚ
  vector : ℚ
  rrfK : ℚ
  poolEvidence : ℚ
  poolRank : SortedMap String ℕ
  probePools : Finset String
  probeWeight : ℚ

structure PoolMergeDiagnostics where
  policyVersion : ℕ
  lexicalDomains : List String
  vectorDomains : List String
  mixedDomain : Bool
  deriving DecidableEq

@[ext]
structure PoolMergeOutcome where
  ranked : List (ℕ × ℚ)
  diagnostics : PoolMergeDiagnostics
  deriving DecidableEq

def poolMergePolicyVersion : ℕ := 1

inductive Leg where
  | lexical
  | vector
  deriving DecidableEq

/-- A NaN compares as negative infinity, so it sorts last. -/
def descendingValue (v : F64) : F64 := if v.isNan then .negInf else v

def descending (a b : F64) : Ordering :=
  (descendingValue b).totalCmp (descendingValue a)

/-- `descending` on fused scores, which are exact. -/
def descendingScore (a b : ℚ) : Ordering := compare b a

def pick (c : PoolCandidate) : Leg → Option Measure
  | .lexical => c.lexical
  | .vector => c.vector

/-- A candidate's identity and its measurement in one leg. -/
structure Entry where
  chunkId : String
  measure : Measure
  deriving DecidableEq

/-- A candidate index beside what the leg reads of the candidate. -/
structure Member where
  index : ℕ
  entry : Entry
  deriving DecidableEq

namespace PoolMergeWeights

variable (w : PoolMergeWeights)

def isProbe (c : PoolCandidate) : Bool := decide (c.pool ∈ w.probePools)

def k : ℚ := if w.rrfK > 0 then w.rrfK else 60

def legWeight : Leg → ℚ
  | .lexical => w.lexical
  | .vector => w.vector

def stratumWeight (probeStratum : Bool) : ℚ := if probeStratum then w.probeWeight else 1

def members (candidates : List PoolCandidate) (probeStratum : Bool) (leg : Leg) :
    List Member :=
  (candidates.zipIdx.filter fun c => w.isProbe c.1 == probeStratum).filterMap fun c =>
    (pick c.1 leg).map fun m => ⟨c.2, ⟨c.1.chunkId, m⟩⟩

end PoolMergeWeights

def byValue (a b : Member) : Ordering :=
  (descending a.entry.measure.value b.entry.measure.value).then
    (compare a.entry.chunkId b.entry.chunkId)

/-- The distinct domains in ascending order. -/
def stratumDomains (members : List Member) : List String :=
  ((members.map fun m => m.entry.measure.domain).insertionSort (· ≤ ·)).dedup

/-- A member with its position among the members of its own domain. -/
structure Ranked where
  rank : ℕ
  member : Member
  domain : String
  deriving DecidableEq

/-- Each domain is ordered internally. -/
def withRank (members : List Member) : List Ranked :=
  (stratumDomains members).flatMap fun domain =>
    (sortBy byValue (members.filter fun m => m.entry.measure.domain = domain)).zipIdx.map
      fun m => ⟨m.2, m.1, domain⟩

def byRank (a b : Ranked) : Ordering :=
  ((compare a.rank b.rank).then (compare a.domain b.domain)).then
    (compare a.member.entry.chunkId b.member.entry.chunkId)

/-- The position each member's contribution is computed from. Values meet numerically only
inside one domain; several domains keep their own ranks or are interleaved by them. -/
def legRanks (partialDomains : Bool) (members : List Member) : List (Member × ℕ) :=
  if (stratumDomains members).length ≤ 1 then (sortBy byValue members).zipIdx
  else if partialDomains then (withRank members).map fun r => (r.member, r.rank)
  else ((sortBy byRank (withRank members)).map Ranked.member).zipIdx

def addScore (fused : List ℚ) (c : ℕ × ℚ) : List ℚ := fused.modify c.1 (· + c.2)

structure FusePass where
  fused : List ℚ
  lexicalDomains : List String
  vectorDomains : List String
  mixed : Bool

def seeDomains (seen : List String) (members : List Member) : List String :=
  members.foldl (fun seen m =>
    if m.entry.measure.domain ∈ seen then seen else seen ++ [m.entry.measure.domain]) seen

def FusePass.see (p : FusePass) (leg : Leg) (members : List Member) : FusePass :=
  match leg with
  | .lexical => { p with lexicalDomains := seeDomains p.lexicalDomains members }
  | .vector => { p with vectorDomains := seeDomains p.vectorDomains members }

namespace PoolMergeWeights

variable (w : PoolMergeWeights)

/-- The weighted reciprocal of a zero-based position. -/
def contribution (probeStratum : Bool) (leg : Leg) (rank : ℕ) : ℚ :=
  w.stratumWeight probeStratum * w.legWeight leg / (w.k + rank + 1)

def fuseLeg (candidates : List PoolCandidate) (partialDomains probeStratum : Bool) (leg : Leg)
    (p : FusePass) : FusePass :=
  let members := w.members candidates probeStratum leg
  if members = [] then p
  else
    { p.see leg members with
      fused := ((legRanks partialDomains members).map fun r =>
        (r.1.index, w.contribution probeStratum leg r.2)).foldl addScore p.fused
      mixed := p.mixed || decide (1 < (stratumDomains members).length) }

/-- Deep lexical, deep vector, probe lexical, probe vector. -/
def fuseLegs (candidates : List PoolCandidate) (partialDomains : Bool) : FusePass :=
  [false, true].foldl (fun p probeStratum =>
    [Leg.lexical, Leg.vector].foldl (fun p leg =>
      w.fuseLeg candidates partialDomains probeStratum leg p) p)
    ⟨List.replicate candidates.length 0, [], [], false⟩

/-- The pool-evidence leg reads the rank the caller assigned to the candidate's pool. -/
def addEvidence (candidates : List PoolCandidate) (fused : List ℚ) : List ℚ :=
  if w.poolEvidence > 0 then
    (candidates.zipIdx.filterMap fun c => (w.poolRank.get? c.1.pool).map fun rank =>
      (c.2, w.poolEvidence / (w.k + (max rank 1 : ℕ)))).foldl addScore fused
  else fused

end PoolMergeWeights

def chunkIdAt (candidates : List PoolCandidate) (i : ℕ) : String :=
  ((candidates[i]?).map PoolCandidate.chunkId).getD ""

def byScore (candidates : List PoolCandidate) (a b : ℕ × ℚ) : Ordering :=
  (descendingScore a.2 b.2).then (compare (chunkIdAt candidates a.1) (chunkIdAt candidates b.1))

def limit (topK : ℕ) : ℕ := if topK = 0 then 10 else topK

def fusePoolsWithDomainPolicy (candidates : List PoolCandidate) (topK : ℕ)
    (w : PoolMergeWeights) (partialDomains : Bool) : PoolMergeOutcome :=
  let p := w.fuseLegs candidates partialDomains
  let fused := w.addEvidence candidates p.fused
  { ranked :=
      (sortBy (byScore candidates) (fused.zipIdx.map fun s => (s.2, s.1))).take (limit topK)
    diagnostics :=
      { policyVersion := if partialDomains then 2 else poolMergePolicyVersion
        lexicalDomains := p.lexicalDomains
        vectorDomains := p.vectorDomains
        mixedDomain := p.mixed } }

def fusePools (candidates : List PoolCandidate) (topK : ℕ) (w : PoolMergeWeights) :
    PoolMergeOutcome :=
  fusePoolsWithDomainPolicy candidates topK w false

def fusePoolsPartialDomains (candidates : List PoolCandidate) (topK : ℕ)
    (w : PoolMergeWeights) : PoolMergeOutcome :=
  fusePoolsWithDomainPolicy candidates topK w true

end Munarium
