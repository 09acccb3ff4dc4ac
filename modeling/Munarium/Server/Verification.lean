import Munarium.Lib.Delimited
import Munarium.Lib.StableSort
import Munarium.Server.EvidenceHierarchy

/-! What a turn served, and the checks of an answer against it: text in quotes, citations in
brackets, and typed assertions. -/
namespace Munarium

def MIN_QUOTE_CHARS : ℕ := 15

def normalizeWs (s : String) : String := join " " (splitWhitespace s)

def isQuoteMark (c : Char) : Bool := c == '\u0022' || c == '\u201C' || c == '\u201D'

/-- The spans that are closed, and the one that is open. -/
def quoteStep (s : List String × Option (List Char)) (c : Char) :
    List String × Option (List Char) :=
  if isQuoteMark c then
    match s.2 with
    | some span => (s.1 ++ [String.ofList span], none)
    | none => (s.1, some [])
  else (s.1, s.2.map (· ++ [c]))

def quotedSpans (text : String) : List String :=
  (text.toList.foldl quoteStep ([], none)).1.filter fun s =>
    MIN_QUOTE_CHARS ≤ (utf8 (trim s)).length

def checkQuotes (answer : String) (servedTexts : List String) : List String :=
  let haystacks := servedTexts.map normalizeWs
  (quotedSpans answer).filter fun span => !haystacks.any (containsText (normalizeWs span))

/-- The trimmed texts in brackets, as the checks find them from the left. -/
def bracketTokens (answer : String) : List String :=
  (Delimited.spans '[' ']' answer.toList).map fun inner => String.ofList (trimChars inner)

/-- `sort` and `dedup`. -/
def sortedDistinct (l : List String) : List String :=
  (StableSort.sortByKey id l).destutter (· ≠ ·)

theorem sortedDistinct_eq_nil {l : List String} : sortedDistinct l = [] ↔ l = [] := by
  unfold sortedDistinct
  rw [List.destutter_eq_nil]
  constructor
  · intro h
    have hlen := StableSort.length_sortBy (fun a b => compare (id a) (id b)) l
    rw [show StableSort.sortBy _ l = [] from h] at hlen
    exact List.length_eq_zero_iff.mp hlen.symm
  · rintro rfl
    rfl

/-- A token that is read as the citation of a document, and names none that was served. -/
def unservedLabel (servedLabels : List String) (token : String) : Bool :=
  token.toList.contains '/' && !token.isEmpty && !token.toList.contains '\n' &&
    !servedLabels.contains token

def checkCitations (answer : String) (servedLabels : List String) : List String :=
  sortedDistinct ((bracketTokens answer).filter (unservedLabel servedLabels))

structure TypedAssertion where
  value : String
  unit : Option String
  kind : Option String
  derivationRef : Option String
  evidenceRefs : List String

/-- What was served of one sealed artifact: its rows' ids and cells. -/
structure ServedEvidence where
  evidenceId : String
  rows : List (String × List String)

def ServedEvidence.row (e : ServedEvidence) (rowId : String) : Option (List String) :=
  (e.rows.find? fun r => r.1 == rowId).map Prod.snd

/-- The artifact and the row of a citation. -/
def parseEvidenceRef (token : String) : Option (String × String) :=
  (stripStart "evidence/" token).bind fun rest =>
    (Delimited.cut '#' rest.toList).bind fun parts =>
      if parts.1.isEmpty || parts.2.isEmpty then none
      else some (String.ofList parts.1, String.ofList parts.2)

/-- A token that is read as the citation of a row, and names none that was served. -/
def unservedRow (served : List ServedEvidence) (token : String) : Bool :=
  match parseEvidenceRef token with
  | none => false
  | some (id, rowId) => !served.any fun e => e.evidenceId == id && (e.row rowId).isSome

def checkEvidenceCitations (answer : String) (served : List ServedEvidence) : List String :=
  sortedDistinct ((bracketTokens answer).filter (unservedRow served))

/-- The cells of the row that a reference of an assertion names: those of the first artifact with
its id. -/
def resolveRef (served : List ServedEvidence) (ref : String) : Option (List String) :=
  (parseEvidenceRef ref).bind fun r =>
    (served.find? fun e => e.evidenceId == r.1).bind fun e => e.row r.2

def refViolation (a : TypedAssertion) (served : List ServedEvidence) (ref : String) :
    Option String :=
  match parseEvidenceRef ref with
  | none => some ("assertion '" ++ a.value ++ "' cites '" ++ ref ++
      "', which is not an evidence/<id>#<row> reference")
  | some _ =>
      match resolveRef served ref with
      | none => some ("assertion '" ++ a.value ++ "' cites " ++ ref ++ ", which was not served")
      | some _ => none

/-- A value that is read off one row, and is in none of its cells. -/
def valueViolation (a : TypedAssertion) (served : List ServedEvidence) : Option String :=
  match a.evidenceRefs with
  | [ref] =>
      (resolveRef served ref).bind fun cells =>
        if cells.any fun c => trim c == trim a.value then none
        else some ("assertion '" ++ a.value ++ "' does not appear in the single row it cites (" ++
          ref ++ ")")
  | _ => none

def checkAssertion (served : List ServedEvidence) (a : TypedAssertion) : List String :=
  if a.evidenceRefs.isEmpty then ["assertion '" ++ a.value ++ "' cites no evidence"]
  else a.evidenceRefs.filterMap (refViolation a served) ++ (valueViolation a served).toList

def checkAssertions (assertions : List TypedAssertion) (served : List ServedEvidence) :
    List String :=
  assertions.flatMap (checkAssertion served)

/-- The id of row `i`: the sealer's, or its position where the block carries none. -/
def tableRowId (t : TableBlock) (i : ℕ) : String := t.rowIds.getD i (positionId i)

def cellTexts (row : List (Option String)) : List String := row.map fun c => c.getD "NULL"

def servedTable (t : TableBlock) : Option ServedEvidence :=
  t.evidenceId.map fun id => ⟨id, t.rows.mapIdx fun i row => (tableRowId t i, cellTexts row)⟩

def servedEvidence (blocks : List (String × EvidenceBlock)) : List ServedEvidence :=
  blocks.filterMap fun b =>
    match b.2 with
    | .completeTable t => servedTable t
    | _ => none

/-- What a turn gives the checks of its answers. -/
structure ServedTurn where
  merged : List (String × SearchHit)
  blocks : Option (List (String × EvidenceBlock))

namespace ServedTurn

def texts (t : ServedTurn) : List String := t.merged.map fun m => m.2.text

/-- The labels of the merged hits, then their source paths. -/
def labels (t : ServedTurn) : List String :=
  (t.merged.map fun m => m.1 ++ "/" ++ m.2.chunkId) ++ t.merged.map fun m => m.2.sourcePath

def evidence (t : ServedTurn) : List ServedEvidence := (t.blocks.map servedEvidence).getD []

/-- The turn that a hierarchy's outcome gives. -/
def ofOutcome (o : HierarchyOutcome) : ServedTurn := ⟨(o.documents.getD {}).merged, some o.blocks⟩

/-- Both checks of an answer's citations, in the order of their reports. -/
def citationChecks (t : ServedTurn) (text : String) : List String :=
  (checkCitations text t.labels).map ("citation: " ++ ·) ++
    (checkEvidenceCitations text t.evidence).map ("citation: " ++ ·)

end ServedTurn

structure VerificationSpec where
  quotes : Bool
  citations : Bool

/-- All checks of an answer; `extract` reads its block of assertions. -/
def runChecks (v : VerificationSpec) (t : ServedTurn)
    (extract : String → Except String (List TypedAssertion)) (text : String) : List String :=
  (if v.quotes then (checkQuotes text t.texts).map ("quote: " ++ ·) else []) ++
    (if v.citations then t.citationChecks text else []) ++
      match extract text with
      | .ok assertions => (checkAssertions assertions t.evidence).map ("assertion: " ++ ·)
      | .error e => ["assertion: " ++ e]

end Munarium
