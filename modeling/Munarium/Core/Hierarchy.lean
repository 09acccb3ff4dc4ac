import Munarium.Retrieval.Merge
import Munarium.Core.Types

/-! What a layer of a research profile contributes to a turn. -/
namespace Munarium

inductive AnswerRole where
  | supporting
  | primary
  | controlling
  deriving DecidableEq

def AnswerRole.asStr : AnswerRole → String
  | supporting => "supporting"
  | primary => "primary"
  | controlling => "controlling"

inductive LayerRequirement where
  | required
  | optional
  | fallback
  deriving DecidableEq

structure EvidenceLayer where
  name : String
  sources : List String
  requirement : LayerRequirement
  role : AnswerRole
  contextCharBudget : Option ℕ
  preserveCompleteResult : Bool
  deadlineMs : Option ℕ
  deriving DecidableEq

structure SemanticFilterSelection where
  dimension : String
  value : String
  ty : String
  deriving DecidableEq

structure SemanticSelection where
  measures : List String
  dimensions : List String
  filters : List SemanticFilterSelection
  deriving DecidableEq

structure QueryIntent where
  question : String
  kind : Option String
  explicit : Bool
  selections : SortedMap String SemanticSelection

structure EvidencePlan where
  profile : String
  intent : QueryIntent
  layers : List EvidenceLayer
  contextCharBudget : Option ℕ
  conflicts : String

structure EvidenceRefusal where
  code : String
  message : String
  source : Option String
  deriving DecidableEq

structure CountBlock where
  value : ℤ
  rowsCovered : Option ℤ
  rowsExcluded : Option ℤ
  exclusionReason : Option String
  evidenceId : Option String
  deriving DecidableEq

structure TableBlock where
  columns : List String
  rows : List (List (Option String))
  rowIds : List String
  truncated : Bool
  evidenceId : Option String
  deriving DecidableEq

inductive EvidenceBlock where
  | documentHits (hits : List SearchHit)
  | completeTable (t : TableBlock)
  | count (c : CountBlock)
  | factSlice (claims : List Claim)
  | refusal (r : EvidenceRefusal)

namespace EvidenceBlock

def supportsCompleteness : EvidenceBlock → Bool
  | completeTable t => !t.truncated
  | count _ => true
  | documentHits _ => false
  | factSlice _ => false
  | refusal _ => false

def isEmpty : EvidenceBlock → Bool
  | documentHits hits => hits.isEmpty
  | completeTable t => t.rows.isEmpty
  | count _ => false
  | factSlice claims => claims.isEmpty
  | refusal _ => true

def isRefusal : EvidenceBlock → Bool
  | refusal _ => true
  | _ => false

def isDocumentHits : EvidenceBlock → Bool
  | documentHits _ => true
  | _ => false

def evidenceId : EvidenceBlock → Option String
  | completeTable t => t.evidenceId
  | count c => c.evidenceId
  | _ => none

def kindStr : EvidenceBlock → String
  | documentHits _ => "document_hits"
  | completeTable _ => "complete_table"
  | count _ => "count"
  | factSlice _ => "fact_slice"
  | refusal _ => "refusal"

def refusalCode : EvidenceBlock → Option String
  | refusal r => some r.code
  | _ => none

theorem kindStr_eq_refusal (b : EvidenceBlock) : b.kindStr = "refusal" ↔ b.isRefusal = true := by
  cases b <;> simp [kindStr, isRefusal]

theorem isEmpty_of_isRefusal {b : EvidenceBlock} (h : b.isRefusal = true) : b.isEmpty = true := by
  cases b with
  | refusal r => rfl
  | documentHits | completeTable | count | factSlice => cases h

end EvidenceBlock

structure LayerOutcome where
  layer : String
  role : AnswerRole
  requirement : LayerRequirement
  block : String
  evidenceId : Option String
  supportsCompleteness : Bool
  refusalCode : Option String
  elapsedMs : ℕ
  deriving DecidableEq

structure EvidenceHierarchyDecision where
  profile : String
  intentKind : Option String
  intentExplicit : Bool
  layers : List LayerOutcome
  completenessAvailable : Bool
  disclosedConflicts : ℕ
  conflictsPolicy : String
  deriving DecidableEq

/-- The first required layer whose block is a refusal. -/
def EvidenceHierarchyDecision.requiredLayerFailed (d : EvidenceHierarchyDecision) :
    Option LayerOutcome :=
  d.layers.find? fun l => l.requirement == .required && l.block == "refusal"

end Munarium
