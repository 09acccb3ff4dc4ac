import Munarium.Core.Certainty
import Munarium.Core.Gates

/-! The sixth gate: the timeline of a snapshot overlaid with a candidate, judged by the
declared chronology rules. -/
namespace Munarium

section
variable [Unicode]

/-- A key joins the timeline through a pattern or through an absolute target. -/
def ChronologyRules.governs (rules : ChronologyRules) (subject key : String) : Bool :=
  rules.isTemporalKey key ||
    rules.absoluteTargets.contains (toLowercase (claimKeyOf subject key))

/-- The latest assertion of a governed key decides; one that does not parse drops it. -/
def consider (rules : ChronologyRules) (timeline : SortedMap String ChronoEvent)
    (subject key value : String) (claimId : Option String) (origin : EventOrigin) :
    SortedMap String ChronoEvent :=
  let claimKey := claimKeyOf subject key
  if !rules.governs subject key then timeline
  else match parseWhen value with
    | some w => timeline.insert claimKey {
        subject := subject
        key := key
        value := value
        when := w
        claimId := claimId
        origin := origin }
    | none => timeline.erase claimKey

def considerFact (rules : ChronologyRules) (timeline : SortedMap String ChronoEvent)
    (fact : Claim) : SortedMap String ChronoEvent :=
  if fact.subject != "" || fact.key != "" then
    consider rules timeline fact.subject fact.key fact.value (some fact.id) .ledger
  else timeline

def considerProposed (rules : ChronologyRules) (timeline : SortedMap String ChronoEvent)
    (claim : ProposedClaim) : SortedMap String ChronoEvent :=
  consider rules timeline claim.subject claim.key claim.value none .candidate

/-- Later facts win over earlier ones and proposals win over facts. -/
def timelineOf (rules : ChronologyRules) (facts : List Claim) (proposed : List ProposedClaim) :
    SortedMap String ChronoEvent :=
  proposed.foldl (considerProposed rules) (facts.foldl (considerFact rules) .empty)

end

def ViolationKind.ruleId : ViolationKind → String
  | .deadline => "gate.chronology-deadline"
  | .duration => "gate.chronology-duration"
  | .order | .contains | .overlap => "gate.chronology-order"

/-- The last candidate-side contributor is named, so that a block can dispute it. -/
def chronologyFinding (scopePath : Option String) (v : ChronoViolation) : GateFinding where
  ruleId := v.kind.ruleId
  severity := if v.severity = "block" then .block else .warn
  message := v.message
  scopePath := scopePath
  detail := some (.object
    ([("kind", .str v.kind.text), ("rule", v.rule), ("chain", .arr v.chain)] ++
      v.extras.entries ++
      (v.candidateClaims.getLast?.map fun last => ("claim_key", Json.str last)).toList))

def checkChronology [Unicode] (snapshot : MeshSnapshot) (candidate : Candidate)
    (rules : ChronologyRules) (now : Option NaiveDate) : List GateFinding :=
  let timeline := timelineOf rules snapshot.facts (candidate.claims ++ candidate.corrections)
  if timeline.entries.isEmpty then []
  else (evaluate timeline.values rules now).map (chronologyFinding candidate.scopePath)

end Munarium
