import Mathlib.Data.List.Perm.Lattice
import Mathlib.Data.List.ProdSigma
import Mathlib.Data.List.Sort
import Mathlib.Data.Prod.Lex
import Munarium.Core.Types
import Munarium.Core.When
import Munarium.Lib.FirstSeen
import Munarium.Lib.Intervals

/-! Declarative chronology rules and their evaluation over a timeline of events. -/
namespace Munarium

def defaultTemporalKeyPatterns : List String :=
  ["*_date", "*_on", "date_*", "*_deadline", "*_due", "*_when"]

structure OrderRule where
  before : String
  after : String
  severity : String

structure ContainsRule where
  outer : String
  inner : String
  severity : String

structure OverlapRule where
  a : String
  b : String
  severity : String

structure DeadlineRule where
  key : String
  dueFrom : String
  withinDays : ℤ
  severity : String

/-- `start` and `stop` are spelled `from` and `to` in the rules document. -/
structure DurationRule where
  start : String
  stop : String
  minDays : Option ℤ
  maxDays : Option ℤ
  severity : String

structure ChronologyRules where
  order : List OrderRule := []
  contains : List ContainsRule := []
  forbidOverlap : List OverlapRule := []
  deadlines : List DeadlineRule := []
  durations : List DurationRule := []
  temporalKeys : List String := []

def OrderRule.toJson (r : OrderRule) : Json :=
  .object [("before", .str r.before), ("after", .str r.after), ("severity", .str r.severity)]

def ContainsRule.toJson (r : ContainsRule) : Json :=
  .object [("outer", .str r.outer), ("inner", .str r.inner), ("severity", .str r.severity)]

def OverlapRule.toJson (r : OverlapRule) : Json :=
  .object [("a", .str r.a), ("b", .str r.b), ("severity", .str r.severity)]

def DeadlineRule.toJson (r : DeadlineRule) : Json :=
  .object [("key", .str r.key), ("due_from", .str r.dueFrom),
    ("within_days", .int r.withinDays), ("severity", .str r.severity)]

def DurationRule.toJson (r : DurationRule) : Json :=
  .object [("from", .str r.start), ("to", .str r.stop), ("min_days", .ofOption .int r.minDays),
    ("max_days", .ofOption .int r.maxDays), ("severity", .str r.severity)]

def ChronologyRules.toJson (r : ChronologyRules) : Json :=
  .object [("order", .arr (r.order.map OrderRule.toJson)),
    ("contains", .arr (r.contains.map ContainsRule.toJson)),
    ("forbid_overlap", .arr (r.forbidOverlap.map OverlapRule.toJson)),
    ("deadlines", .arr (r.deadlines.map DeadlineRule.toJson)),
    ("durations", .arr (r.durations.map DurationRule.toJson)),
    ("temporal_keys", .arr (r.temporalKeys.map .str))]

/-- An absolute target names one exact claim key; anything else is a key pattern. -/
def isAbsoluteTarget (target : String) : Bool :=
  target.toList.contains '.' && !target.toList.contains '*'

/-- Each part is found in what the parts before it left over. -/
def findParts : List (List Char) → List Char → Bool
  | [], _ => true
  | part :: parts, key =>
      if part.isEmpty then findParts parts key
      else match afterFirst part key with
        | some rest => findParts parts rest
        | none => false

section
variable [Unicode]

/-- `*`-wildcard match over the whole key, ignoring case. -/
def keyPatternMatches (pattern key : String) : Bool :=
  let key := toLowercase key
  let pattern := toLowercase pattern
  match splitChar '*' pattern with
  | [] => true
  | first :: parts =>
      let last := (first :: parts).getLastD []
      if !first.isPrefixOf key.toList then false
      else if !findParts parts (key.toList.drop first.length) then false
      else if !last.isEmpty && !last.isSuffixOf key.toList then false
      else if !last.isEmpty && parts.isEmpty then key == pattern
      else true

namespace ChronologyRules

def allTargets (r : ChronologyRules) : List String :=
  r.order.flatMap (fun r => [r.before, r.after]) ++
    r.contains.flatMap (fun r => [r.outer, r.inner]) ++
    r.forbidOverlap.flatMap (fun r => [r.a, r.b]) ++
    r.deadlines.flatMap (fun r => [r.key, r.dueFrom]) ++
    r.durations.flatMap (fun r => [r.start, r.stop])

def absoluteTargets (r : ChronologyRules) : List String :=
  (r.allTargets.filter isAbsoluteTarget).map toLowercase

def isTemporalKey (r : ChronologyRules) (key : String) : Bool :=
  let patterns := if r.temporalKeys.isEmpty then defaultTemporalKeyPatterns else r.temporalKeys
  patterns.any fun p => keyPatternMatches p key

end ChronologyRules
end

/-- Where an event comes from: an accepted fact or the claim under review. -/
inductive EventOrigin where
  | ledger | candidate
  deriving DecidableEq

def EventOrigin.text : EventOrigin → String
  | ledger => "ledger"
  | candidate => "candidate"

structure ChronoEvent where
  subject : String
  key : String
  value : String
  when : When
  claimId : Option String
  origin : EventOrigin
  deriving DecidableEq

namespace ChronoEvent

def claimKey (e : ChronoEvent) : String := claimKeyOf e.subject e.key

/-- `claim_key=value`, as the messages name an event. -/
def label (e : ChronoEvent) : String := "'" ++ e.claimKey ++ "=" ++ e.value ++ "'"

def toDetail (e : ChronoEvent) (role : String) : Json :=
  .object [("role", .str role), ("claim_id", .ofOption .str e.claimId),
    ("claim", .str e.claimKey), ("value", .str e.value), ("when", e.when.toJson),
    ("origin", .str e.origin.text)]

/-- The timeline's order. -/
def sortKey (e : ChronoEvent) : String ×ₗ String := toLex (e.subject, e.key)

end ChronoEvent

inductive ViolationKind where
  | order | contains | overlap | deadline | duration
  deriving DecidableEq

def ViolationKind.text : ViolationKind → String
  | order => "order"
  | contains => "contains"
  | overlap => "overlap"
  | deadline => "deadline"
  | duration => "duration"

structure ChronoViolation where
  kind : ViolationKind
  severity : String
  message : String
  rule : Json
  chain : List Json
  extras : SortedMap String Json := .empty
  candidateClaims : List String

section
variable [Unicode]

def targetMatches (target : String) (event : ChronoEvent) : Bool :=
  if isAbsoluteTarget target then toLowercase event.claimKey == toLowercase target
  else keyPatternMatches target event.key

/-- Ordered pairs a rule looks at: different claim keys, and one subject unless a target
is absolute. -/
def pairs (events : List ChronoEvent) (targetA targetB : String) :
    List (ChronoEvent × ChronoEvent) :=
  let globalPairing := isAbsoluteTarget targetA || isAbsoluteTarget targetB
  events.flatMap fun ea =>
    if !targetMatches targetA ea then []
    else
      (events.filter fun eb =>
        if eb.claimKey == ea.claimKey || !targetMatches targetB eb then false
        else if !globalPairing && ea.subject != eb.subject then false
        else true).map fun eb => (ea, eb)

def involvesCandidate (events : List ChronoEvent) : Bool :=
  events.any fun e => e.origin == .candidate

def candidateClaimsOf (events : List ChronoEvent) : List String :=
  (events.filter fun e => e.origin == .candidate).map (·.claimKey)

def orderViolation (rule : OrderRule) (before after : ChronoEvent) : ChronoViolation where
  kind := .order
  severity := rule.severity
  message := "chronology: " ++ after.label ++ " must come after " ++ before.label ++
    " but is definitely before it"
  rule := .object [("order",
    .object [("before", .str rule.before), ("after", .str rule.after)])]
  chain := [before.toDetail "before", after.toDetail "after"]
  candidateClaims := candidateClaimsOf [before, after]

def orderCheck (rule : OrderRule) (before after : ChronoEvent) : Option ChronoViolation :=
  if !involvesCandidate [before, after] then none
  else if after.when.definitelyBefore before.when then some (orderViolation rule before after)
  else none

def containsViolation (rule : ContainsRule) (outer inner : ChronoEvent) : ChronoViolation where
  kind := .contains
  severity := rule.severity
  message := "chronology: " ++ inner.label ++ " must fall within " ++ outer.label ++
    " but is definitely outside it"
  rule := .object [("contains",
    .object [("outer", .str rule.outer), ("inner", .str rule.inner)])]
  chain := [outer.toDetail "outer", inner.toDetail "inner"]
  candidateClaims := candidateClaimsOf [outer, inner]

def containsCheck (rule : ContainsRule) (outer inner : ChronoEvent) : Option ChronoViolation :=
  if !involvesCandidate [outer, inner] then none
  else
    let certain := !outer.when.uncertain && !inner.when.uncertain
    if certain && !inner.when.overlaps outer.when then some (containsViolation rule outer inner)
    else none

def overlapViolation (rule : OverlapRule) (a b : ChronoEvent) : ChronoViolation where
  kind := .overlap
  severity := rule.severity
  message := "chronology: " ++ a.label ++ " and " ++ b.label ++
    " must not overlap but definitely do"
  rule := .object [("forbid_overlap", .object [("a", .str rule.a), ("b", .str rule.b)])]
  chain := [a.toDetail "a", b.toDetail "b"]
  candidateClaims := candidateClaimsOf [a, b]

def overlapCheck (rule : OverlapRule) (a b : ChronoEvent) : Option ChronoViolation :=
  if !involvesCandidate [a, b] then none
  else
    let definite := !a.when.uncertain && !b.when.uncertain &&
      a.when.precision == .day && b.when.precision == .day
    if definite && a.when.overlaps b.when then some (overlapViolation rule a b) else none

/-- Both orientations of a pair have one id, so a symmetric duplicate is seen. -/
def pairId (p : ChronoEvent × ChronoEvent) : String × String :=
  if p.1.claimKey ≤ p.2.claimKey then (p.1.claimKey, p.2.claimKey)
  else (p.2.claimKey, p.1.claimKey)

def deadlineOf (rule : DeadlineRule) (fromEv : ChronoEvent) : Option NaiveDate :=
  (NaiveDate.tryDays rule.withinDays).bind fun d => fromEv.when.stop.checkedAddSigned d

def deadlineRuleDoc (rule : DeadlineRule) : Json :=
  .object [("deadline", .object [("key", .str rule.key), ("due_from", .str rule.dueFrom),
    ("within_days", .int rule.withinDays)])]

def deadlineViolation (rule : DeadlineRule) (fromEv keyEv : ChronoEvent)
    (deadline : NaiveDate) : ChronoViolation where
  kind := .deadline
  severity := rule.severity
  message := "chronology: " ++ keyEv.label ++ " is definitely later than the deadline " ++
    deadline.toText ++ " (" ++ toString rule.withinDays ++ " days after " ++ fromEv.label ++ ")"
  rule := deadlineRuleDoc rule
  chain := [fromEv.toDetail "due_from", keyEv.toDetail "event"]
  extras := SortedMap.empty.insert "deadline" (.str deadline.toText)
  candidateClaims := candidateClaimsOf [fromEv, keyEv]

def deadlineCheck (rule : DeadlineRule) (deadline : NaiveDate) (fromEv keyEv : ChronoEvent) :
    Option ChronoViolation :=
  if !involvesCandidate [fromEv, keyEv] then none
  else if !keyEv.when.uncertain && decide (keyEv.when.start > deadline) then
    some (deadlineViolation rule fromEv keyEv deadline)
  else none

def overdueViolation (rule : DeadlineRule) (fromEv : ChronoEvent)
    (deadline clock : NaiveDate) : ChronoViolation where
  kind := .deadline
  severity := rule.severity
  message := "chronology: no '" ++ rule.key ++ "' event within " ++ toString rule.withinDays ++
    " days of " ++ fromEv.label ++ " — deadline " ++ deadline.toText ++ " passed as of " ++
    clock.toText
  rule := deadlineRuleDoc rule
  chain := [fromEv.toDetail "due_from"]
  extras := (SortedMap.empty.insert "deadline" (.str deadline.toText)).insert "now"
    (.str clock.toText)
  candidateClaims := candidateClaimsOf [fromEv]

/-- A deadline that cannot be represented files nothing; a missing event is overdue only
by the clock. -/
def deadlinePass (events : List ChronoEvent) (now : Option NaiveDate) (rule : DeadlineRule)
    (fromEv : ChronoEvent) : List ChronoViolation :=
  let globalPairing := isAbsoluteTarget rule.key || isAbsoluteTarget rule.dueFrom
  if !targetMatches rule.dueFrom fromEv || fromEv.when.uncertain then []
  else match deadlineOf rule fromEv with
    | none => []
    | some deadline =>
        let keyEvents := events.filter fun e =>
          e.claimKey != fromEv.claimKey && targetMatches rule.key e &&
            (globalPairing || e.subject == fromEv.subject)
        if !keyEvents.isEmpty then keyEvents.filterMap (deadlineCheck rule deadline fromEv)
        else match now with
          | some clock => if clock > deadline then [overdueViolation rule fromEv deadline clock]
              else []
          | none => []

def gapMin (fromEv toEv : ChronoEvent) : ℤ := toEv.when.start.day - fromEv.when.stop.day

def gapMax (fromEv toEv : ChronoEvent) : ℤ := toEv.when.stop.day - fromEv.when.start.day

/-- What is certainly wrong with the elapsed days, the upper bound first. -/
def durationProblem (rule : DurationRule) (fromEv toEv : ChronoEvent) : Option String :=
  ((rule.maxDays.filter fun m => gapMin fromEv toEv > m).map fun max =>
    "definitely exceeds max_days=" ++ toString max).or
  ((rule.minDays.filter fun m => gapMax fromEv toEv < m).map fun min =>
    "definitely under min_days=" ++ toString min)

def durationViolation (rule : DurationRule) (fromEv toEv : ChronoEvent) (problem : String) :
    ChronoViolation where
  kind := .duration
  severity := rule.severity
  message := "chronology: elapsed days from " ++ fromEv.label ++ " to " ++ toEv.label ++
    " (between " ++ toString (gapMin fromEv toEv) ++ " and " ++
    toString (gapMax fromEv toEv) ++ ") " ++ problem
  rule := .object [("duration", .object [("from", .str rule.start), ("to", .str rule.stop),
    ("min_days", .ofOption .int rule.minDays), ("max_days", .ofOption .int rule.maxDays)])]
  chain := [fromEv.toDetail "from", toEv.toDetail "to"]
  extras := (SortedMap.empty.insert "gap_days_min" (.int (gapMin fromEv toEv))).insert
    "gap_days_max" (.int (gapMax fromEv toEv))
  candidateClaims := candidateClaimsOf [fromEv, toEv]

def durationCheck (rule : DurationRule) (fromEv toEv : ChronoEvent) : Option ChronoViolation :=
  if !involvesCandidate [fromEv, toEv] then none
  else if fromEv.when.uncertain || toEv.when.uncertain then none
  else (durationProblem rule fromEv toEv).map (durationViolation rule fromEv toEv)

def sortEvents (events : List ChronoEvent) : List ChronoEvent :=
  events.insertionSort fun a b => a.sortKey ≤ b.sortKey

/-- Every declared rule over the timeline, in the order of the five families. `now` is
the clock of the deadline-absence check. -/
def evaluate (events : List ChronoEvent) (rules : ChronologyRules) (now : Option NaiveDate) :
    List ChronoViolation :=
  let events := sortEvents events
  rules.order.flatMap (fun rule =>
      (pairs events rule.before rule.after).filterMap fun p => orderCheck rule p.1 p.2) ++
    rules.contains.flatMap (fun rule =>
      (pairs events rule.outer rule.inner).filterMap fun p => containsCheck rule p.1 p.2) ++
    rules.forbidOverlap.flatMap (fun rule =>
      (FirstSeen.scan pairId [] (pairs events rule.a rule.b)).filterMap fun p =>
        overlapCheck rule p.1 p.2) ++
    rules.deadlines.flatMap (fun rule => events.flatMap (deadlinePass events now rule)) ++
    rules.durations.flatMap (fun rule =>
      (pairs events rule.start rule.stop).filterMap fun p => durationCheck rule p.1 p.2)

end
end Munarium
