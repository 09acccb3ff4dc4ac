import Munarium.Server.Verification

/-! The context that a model reads: what the layers gave, whole where it fits, and otherwise cut
after a row, a hit or a fact. What was served was counted before anything was cut. -/
namespace Munarium

/-- `ComposedContext::model_evidence`. -/
def modelEvidence (sections : List (String × String)) (historicalPin : Json) : Json :=
  envelope "ledger_context" historicalPin none
    (Json.object [("sections", .arr (sections.map fun s => .arr [.str s.1, .str s.2]))])

/-- A row as it is shown, under the citation that it answers to. -/
def rowJson (evidenceId : Option String) (rowId : String) (cells : List String) : Json :=
  Json.object [("row_id", .str rowId),
    ("citation_id", Json.ofOption (fun id => .str ("evidence/" ++ id ++ "#" ++ rowId)) evidenceId),
    ("cells", .arr (cells.map .str))]

def rowsJson (t : TableBlock) : List Json :=
  t.rows.mapIdx fun i row => rowJson t.evidenceId (tableRowId t i) (cellTexts row)

def tableJson (t : TableBlock) : Json :=
  envelope "sealed_table" (Json.object [("evidence_id", Json.ofOption .str t.evidenceId)])
    t.evidenceId
    (Json.object [("completeness", .str (if t.truncated then "TRUNCATED" else "COMPLETE")),
      ("columns", .arr (t.columns.map .str)), ("rows", .arr (rowsJson t))])

def countJson (c : CountBlock) : Json :=
  envelope "sealed_count" (Json.object [("evidence_id", Json.ofOption .str c.evidenceId)])
    c.evidenceId
    (Json.object [("count", .int c.value), ("rows_covered", Json.ofOption .int c.rowsCovered),
      ("rows_excluded", Json.ofOption .int c.rowsExcluded),
      ("exclusion_reason", Json.ofOption .str c.exclusionReason)])

def factsJson (layer : Option EvidenceLayer) (claims : List Claim) : Json :=
  let version := layer.bind fun l => l.sources.findSome? (stripStart "facts:")
  modelEvidence (claims.map fun c => (c.claimKey, c.value))
    (Json.object [("version_id", Json.ofOption .str version), ("as_of_seq", .null)])

def refusalJson (r : EvidenceRefusal) : Json :=
  envelope "source_refusal" .null none
    (Json.object [("availability", .str "no evidence available"), ("code", .str r.code),
      ("message", .str r.message)])

/-- What a layer's documents were retrieved with, by the layer's name. -/
abbrev DocumentEvidence := List (String × List Json)

def hitJson (name : String) (docs : DocumentEvidence) (i : ℕ) (hit : SearchHit) : Json :=
  ((docs.find? fun d => d.1 == name).bind fun d => d.2[i]?).getD (documentEnvelope name hit [])

section
variable [FloatText]

/-- One line of the context: a value with its layer and its role. -/
def renderLine (name role : String) (value : Json) : Option String :=
  (value.setMember "layer" (.str name)).bind fun v =>
    (v.setMember "answer_role" (.str role)).map fun v => v.display ++ "\n"

def renderLines (name role : String) (values : List Json) : Option String :=
  (values.mapM (renderLine name role)).map String.join

/-- A block's text; `none` where a document's evidence is no object. -/
def renderBlock (name : String) (layer : Option EvidenceLayer) (block : EvidenceBlock)
    (docs : DocumentEvidence) : Option String :=
  let role := (layer.map fun l => l.role.asStr).getD "supporting"
  match block with
  | .documentHits hits => renderLines name role (hits.mapIdx (hitJson name docs))
  | .completeTable t => renderLine name role (tableJson t)
  | .count c => renderLine name role (countJson c)
  | .factSlice claims => renderLine name role (factsJson layer claims)
  | .refusal r => renderLine name role (refusalJson r)

end

namespace EvidenceBlock

/-- What a block can be cut between. -/
def itemCount : EvidenceBlock → ℕ
  | documentHits hits => hits.length
  | completeTable t => t.rows.length
  | factSlice claims => claims.length
  | count _ => 0
  | refusal _ => 0

/-- A block's first items. -/
def cutTo (keep : ℕ) : EvidenceBlock → EvidenceBlock
  | documentHits hits => documentHits (hits.take keep)
  | completeTable t => completeTable
      { t with rows := t.rows.take keep, rowIds := t.rowIds.take keep, truncated := true }
  | factSlice claims => factSlice (claims.take keep)
  | count c => count c
  | refusal r => refusal r

end EvidenceBlock

/-- A block and its text. -/
structure Rendered where
  block : EvidenceBlock
  text : String

/-- The last cut that the search of an interval of cuts finds to fit. -/
def searchFit (render : EvidenceBlock → Option String) (block : EvidenceBlock) (room lo hi : ℕ)
    (fit : Rendered) : Option Rendered :=
  if lo < hi then
    let keep := lo + (hi - lo) / 2
    match render (block.cutTo keep) with
    | none => none
    | some candidate =>
        if candidate.utf8ByteSize ≤ room then
          searchFit render block room (keep + 1) hi ⟨block.cutTo keep, candidate⟩
        else searchFit render block room lo keep fit
  else some fit
termination_by hi - lo

/-- The context as it grows. The blocks whose texts it is made of are kept beside it, each as much
of it as is shown. -/
structure Composed where
  context : String := ""
  layersUsed : ℕ := 0
  layersDropped : List String := []
  shown : List (String × EvidenceBlock) := []

namespace Composed

def push (c : Composed) (name : String) (r : Rendered) : Composed :=
  { c with
    context := c.context ++ r.text
    layersUsed := c.layersUsed + 1
    shown := c.shown ++ [(name, r.block)] }

def drop (c : Composed) (name : String) : Composed :=
  { c with layersDropped := c.layersDropped ++ [name] }

end Composed

def EvidencePlan.layer (plan : EvidencePlan) (name : String) : Option EvidenceLayer :=
  plan.layers.find? fun l => l.name == name

/-- The room of a layer where a context of a size leaves it. -/
def roomAfter (layer : Option EvidenceLayer) (budget size : ℕ) : ℕ :=
  match layer.bind EvidenceLayer.contextCharBudget with
  | some cap => min (budget - size) cap
  | none => budget - size

def preserved (layer : Option EvidenceLayer) : Bool :=
  (layer.map EvidenceLayer.preserveCompleteResult).getD false

section
variable [FloatText]

def composeBlock (plan : EvidencePlan) (budget : ℕ) (docs : DocumentEvidence) (c : Composed)
    (b : String × EvidenceBlock) : Option Composed :=
  let layer := plan.layer b.1
  match renderBlock b.1 layer b.2 docs with
  | none => none
  | some rendered =>
      let room := roomAfter layer budget c.context.utf8ByteSize
      if rendered.isEmpty then some c
      else if rendered.utf8ByteSize ≤ room then some (c.push b.1 ⟨b.2, rendered⟩)
      else if preserved layer then some (c.drop b.1)
      else if room = 0 then some (c.drop b.1)
      else
        let render (part : EvidenceBlock) := renderBlock b.1 layer part docs
        match searchFit render b.2 room 1 b.2.itemCount ⟨b.2, ""⟩ with
        | none => none
        | some fit => some (if fit.text.isEmpty then c.drop b.1 else c.push b.1 fit)

/-- `compose`; `none` where a document's evidence cannot be indexed. -/
def compose (plan : EvidencePlan) (blocks : List (String × EvidenceBlock)) (budget : ℕ)
    (docs : DocumentEvidence) : Option Composed :=
  blocks.foldlM (composeBlock plan budget docs) {}

end
end Munarium
