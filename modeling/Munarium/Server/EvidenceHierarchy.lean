import Munarium.Evidence.Seal
import Munarium.Server.EvidenceProviders

/-! Running a plan's layers in order. Every layer that runs has one outcome and one block; what a
required layer must produce is judged by the block's kind alone. -/
namespace Munarium

structure TurnHitDto where
  collection : String
  chunkId : String
  sourceId : String
  sourcePath : String
  sourceContentHash : String
  text : String
  score : ℚ

/-- What a collection's search reports of the index that it read. -/
structure CollectionEnvelopeDto where
  collection : String
  indexVersion : String
  eventWatermark : ℕ

structure DocumentRetrieval where
  merged : List (String × SearchHit) := []
  hits : List TurnHitDto := []
  envelopes : List CollectionEnvelopeDto := []
  searched : List String := []
  skipped : List String := []

def DocumentRetrieval.append (a b : DocumentRetrieval) : DocumentRetrieval :=
  ⟨a.merged ++ b.merged, a.hits ++ b.hits, a.envelopes ++ b.envelopes, a.searched ++ b.searched,
    a.skipped ++ b.skipped⟩

/-- Evidence as a model reads it. -/
def envelope (sourceRole : String) (historicalPin : Json) (citationId : Option String)
    (content : Json) : Json :=
  Json.object [("source_role", .str sourceRole), ("historical_pin", historicalPin),
    ("citation_id", Json.ofOption .str citationId), ("execution_authority", .bool false),
    ("approval_authority", .bool false), ("content", content)]

def documentEnvelope (collection : String) (hit : SearchHit)
    (envelopes : List CollectionEnvelopeDto) : Json :=
  let pin := (envelopes.find? fun e => e.collection == collection).map fun e =>
    Json.object [("collection", .str e.collection), ("index_version", .str e.indexVersion),
      ("event_watermark", .int e.eventWatermark)]
  envelope "document_hit" (pin.getD .null) (some (collection ++ "/" ++ hit.chunkId))
    (Json.object [("text", .str hit.text)])

def CustomError.requiredLayerUnavailable (layer refusalCode : String) : CustomError where
  slug := "required-evidence-unavailable"
  status := 424
  title := "required evidence unavailable"
  detail := "the '" ++ layer ++
    "' evidence layer is required for this profile and did not                  " ++
    "produce evidence (" ++ refusalCode ++
    "); refusing rather than answering                  " ++
    "from an incomplete hierarchy"

inductive TurnProgressEvent where
  | profile (profile : String) (layers : List String) (intentKind : Option String)
      (intentExplicit : Bool)
  | layerStart (layer role requirement : String)
  | layerSource (layer source provider : String)
  | layerComplete (layer block : String) (supportsCompleteness : Bool)
      (refusalCode : Option String) (elapsedMs : ℕ)
  | coverage (completenessAvailable : Bool) (disclosedConflicts : ℕ)
  deriving DecidableEq

def requirementStr : LayerRequirement → String
  | .required => "required"
  | .optional => "optional"
  | .fallback => "fallback"

/-- A source of evidence. What it answers may be different at each of its calls, which are told
apart by the position of the layer. -/
structure EvidenceProvider where
  id : String
  canServe : String → Bool
  fetch : ℕ → EvidenceLayer → QueryIntent → Result EvidenceBlock

/-- The plane at each of its calls: when they start and end, and how it replies. -/
structure PlaneCalls where
  now : ℕ → ℕ
  later : ℕ → ℕ
  breaker : ℕ → CircuitBreaker
  reply : ℕ → MatrixRequest → MatrixReply

def MatrixProvider.provider [FloatText] (p : MatrixProvider) (calls : PlaneCalls) :
    EvidenceProvider where
  id := MatrixProvider.id
  canServe := p.canServe
  fetch i layer intent :=
    let at_i := { p with breaker := calls.breaker i }
    .ok (at_i.fetch (calls.now i) (calls.later i) (calls.reply i) layer intent).block

def FactProvider.provider (p : FactProvider) : EvidenceProvider where
  id := FactProvider.id
  canServe := FactProvider.canServe
  fetch _ layer _ := p.fetch layer

/-- What a plan runs against. -/
structure Turn where
  providers : List EvidenceProvider
  documentLayer : ℕ → EvidenceLayer → ApiResult DocumentRetrieval
  elapsedMs : ℕ → ℕ

structure HierarchyOutcome where
  decision : EvidenceHierarchyDecision
  blocks : List (String × EvidenceBlock)
  documents : Option DocumentRetrieval
  documentEvidence : List (String × List Json)

/-- A source with a provider of its own, which the document path must not serve. -/
def isPlane (source : String) : Bool := startsWith "matrix:" source || startsWith "facts:" source

/-- What a layer is answered with. -/
inductive LayerAnswer where
  | block (b : EvidenceBlock)
  | documents (out : DocumentRetrieval)

def LayerAnswer.toBlock : LayerAnswer → EvidenceBlock
  | block b => b
  | documents out => .documentHits (out.merged.map Prod.snd)

namespace Turn

/-- The provider that a layer goes to. -/
def matched (t : Turn) (layer : EvidenceLayer) : Option EvidenceProvider :=
  t.providers.find? fun p => layer.sources.any p.canServe

def unboundRefusal (layer : EvidenceLayer) : EvidenceBlock :=
  refuse REFUSAL_UNBOUND "no provider is configured for this layer's sources"
    (layer.sources.find? isPlane)

def answer (t : Turn) (intent : QueryIntent) (i : ℕ) (layer : EvidenceLayer) :
    ApiResult LayerAnswer :=
  match t.matched layer with
  | none =>
      if layer.sources.any isPlane then .ok (.block (unboundRefusal layer))
      else (t.documentLayer i layer).map .documents
  | some p =>
      if p.id ≠ "documents" then
        match p.fetch i layer intent with
        | .ok b => .ok (.block b)
        | .error e => .error (.mesh e)
      else (t.documentLayer i layer).map .documents

/-- The sources that are announced as a layer starts. -/
def sourceEvents (t : Turn) (layer : EvidenceLayer) : List TurnProgressEvent :=
  match t.matched layer with
  | none =>
      if layer.sources.any isPlane then []
      else layer.sources.map fun s => .layerSource layer.name s "documents"
  | some p =>
      if p.id ≠ "documents" then
        (layer.sources.filter p.canServe).map fun s => .layerSource layer.name s p.id
      else layer.sources.map fun s => .layerSource layer.name s "documents"

end Turn

/-- What the loop over the layers has gathered. -/
structure Progress where
  outcomes : List LayerOutcome := []
  blocks : List (String × EvidenceBlock) := []
  documents : Option DocumentRetrieval := none
  documentEvidence : List (String × List Json) := []
  producedAny : Bool := false
  events : List TurnProgressEvent := []

namespace Progress

def emit (s : Progress) (events : List TurnProgressEvent) : Progress :=
  { s with events := s.events ++ events }

/-- A document layer's full retrieval is kept beside its block. -/
def absorb (s : Progress) (layer : EvidenceLayer) : LayerAnswer → Progress
  | .block _ => s
  | .documents out =>
      { s with
        documentEvidence := s.documentEvidence ++
          [(layer.name, out.merged.map fun m => documentEnvelope m.1 m.2 out.envelopes)]
        documents := some ((s.documents.getD {}).append out) }

def outcomeOf (layer : EvidenceLayer) (block : EvidenceBlock) (elapsedMs : ℕ) : LayerOutcome :=
  { layer := layer.name
    role := layer.role
    requirement := layer.requirement
    block := block.kindStr
    evidenceId := block.evidenceId
    supportsCompleteness := block.supportsCompleteness
    refusalCode := block.refusalCode
    elapsedMs := elapsedMs }

def complete (s : Progress) (layer : EvidenceLayer) (block : EvidenceBlock) (elapsedMs : ℕ) :
    Progress :=
  { s with
    outcomes := s.outcomes ++ [outcomeOf layer block elapsedMs]
    blocks := s.blocks ++ [(layer.name, block)]
    producedAny := s.producedAny || !block.isEmpty
    events := s.events ++ [.layerComplete layer.name block.kindStr block.supportsCompleteness
      block.refusalCode elapsedMs] }

end Progress

/-- One layer, or the error that ends the run. -/
def runLayer (t : Turn) (intent : QueryIntent) (s : Progress) (layer : EvidenceLayer) (i : ℕ) :
    Progress × Option ApiError :=
  if layer.requirement = .fallback ∧ s.producedAny = true then (s, none)
  else
    let start := .layerStart layer.name layer.role.asStr (requirementStr layer.requirement)
    let s := s.emit (start :: t.sourceEvents layer)
    match t.answer intent i layer with
    | .error e => (s, some e)
    | .ok a => ((s.absorb layer a).complete layer a.toBlock (t.elapsedMs i), none)

def runLayers (t : Turn) (intent : QueryIntent) :
    List (EvidenceLayer × ℕ) → Progress → Progress × Option ApiError
  | [], s => (s, none)
  | (layer, i) :: rest, s =>
      match runLayer t intent s layer i with
      | (s, some e) => (s, some e)
      | (s, none) => runLayers t intent rest s

def countValues (blocks : List (String × EvidenceBlock)) : List ℤ :=
  blocks.filterMap fun b =>
    match b.2 with
    | .count c => some c.value
    | _ => none

/-- The pairs of different counts. -/
def differingPairs : List ℤ → ℕ
  | [] => 0
  | a :: rest => rest.countP (· != a) + differingPairs rest

def countConflicts (blocks : List (String × EvidenceBlock)) : ℕ :=
  differingPairs (countValues blocks)

def decisionOf (plan : EvidencePlan) (s : Progress) : EvidenceHierarchyDecision :=
  { profile := plan.profile
    intentKind := plan.intent.kind
    intentExplicit := plan.intent.explicit
    layers := s.outcomes
    completenessAvailable := s.blocks.any fun b => b.2.supportsCompleteness
    disclosedConflicts := countConflicts s.blocks
    conflictsPolicy := plan.conflicts }

/-- A plan before any layer runs. -/
def started (plan : EvidencePlan) : Progress :=
  { events := [.profile plan.profile (plan.layers.map EvidenceLayer.name) plan.intent.kind
      plan.intent.explicit] }

/-- The decision on what the layers gave. -/
def conclude (plan : EvidencePlan) :
    Progress × Option ApiError → List TurnProgressEvent × ApiResult HierarchyOutcome
  | (s, some e) => (s.events, .error e)
  | (s, none) =>
      let decision := decisionOf plan s
      let events := s.events ++
        [.coverage decision.completenessAvailable decision.disclosedConflicts]
      match decision.requiredLayerFailed with
      | some failed =>
          (events, .error (.custom (.requiredLayerUnavailable failed.layer
            (failed.refusalCode.getD "unavailable"))))
      | none => (events, .ok ⟨decision, s.blocks, s.documents, s.documentEvidence⟩)

/-- The events of a run, and what it gives. -/
def executePlan (plan : EvidencePlan) (t : Turn) :
    List TurnProgressEvent × ApiResult HierarchyOutcome :=
  conclude plan (runLayers t plan.intent plan.layers.zipIdx (started plan))

end Munarium
