import Munarium.Retrieval.FusionLaws
import Munarium.Server.Answers

/-! Collection-scoped questions: the publications that govern are searched in their pinned
indexes, the hits are merged in an order of their own, and an answer leaves only if the policies
and vocabularies it went by are still the current ones. -/
namespace Munarium

open Shared StableSort

structure CollectionQuery where
  question : String
  collections : List String
  effectiveOn : Option String
  deriving DecidableEq

structure CollectionQueryResponse where
  answer : AnswerResponse
  governanceRevisions : SortedMap String ℤ
  vocabularyRevisions : SortedMap String ℤ
  effectiveOn : NaiveDate

structure QueryExpansionRule where
  whenAny : List String
  addTerms : List String
  deriving DecidableEq

structure SearchParams where
  topK : ℕ := 10
  rrfK : ℚ := 60
  candidateN : ℤ := 50
  queryExpansions : List QueryExpansionRule := []
  queryExpansionWeight : ℚ := 1
  minimumShouldMatch : ℕ := 1
  stopTermFraction : ℚ := 0
  deriving DecidableEq

/-- What a search is prepared from. -/
structure PreparedQuery where
  question : String
  params : SearchParams
  deriving DecidableEq

/-- What the request went by in one collection. -/
structure Snapshot where
  info : CollectionInfo
  policy : Option CollectionGovernance
  vocabularyRevision : ℤ
  deriving DecidableEq

/-- An index to search. -/
structure Target where
  info : CollectionInfo
  parent : String
  publication : Option CollectionPublication
  lexicalDomain : String
  deriving DecidableEq

/-- A searched index with its hits. -/
abbrev Found := Target × SearchResult

/-- Search for a query, with the domain its lexical scores are measured in, and the calendar. -/
class QueryWorld (ω : Type) extends AnswerWorld ω where
  today : ω → NaiveDate
  searchMeasured : ω → String → String → PreparedQuery → Option String →
    Result (SearchResult × String)

def policyRevision (policy : Option CollectionGovernance) : ℤ :=
  (policy.map CollectionGovernance.revision).getD 0

def effectiveDate [CalendarText] (today : NaiveDate) : Option String → Result NaiveDate
  | none => .ok today
  | some s =>
      match CalendarText.parse s with
      | some d => .ok d
      | none => .error (.invalidInput "invalid effective date")

def CollectionQuery.invalid (req : CollectionQuery) (on today : NaiveDate) : Bool :=
  (trim req.question).isEmpty || 8000 < req.question.utf8ByteSize || req.collections.isEmpty ||
    32 < req.collections.length || today < on

/-- The least of what the collections allow. -/
def QueryPolicy.combine (combined : Option QueryPolicy) (q : QueryPolicy) : Result QueryPolicy :=
  match combined with
  | none => .ok q
  | some c =>
      if c.provider ≠ q.provider ∨ c.tier ≠ q.tier then
        .error (.invalidInput "selected collections use different answer providers or tiers")
      else .ok { c with
        allowExternalProcessing := c.allowExternalProcessing && q.allowExternalProcessing
        maxPassages := min c.maxPassages q.maxPassages
        maxOutputTokens :=
          match c.maxOutputTokens, q.maxOutputTokens with
          | some a, some b => some (min a b)
          | a, b => a.or b
        maxContextCharacters := min c.maxContextCharacters q.maxContextCharacters
        retrievalConcurrency := min c.retrievalConcurrency q.retrievalConcurrency }

def expansionRules (vocabulary : Vocabulary) : List QueryExpansionRule :=
  if vocabulary.enabled then vocabulary.groups.map fun g => ⟨g, g⟩ else []

/-- The targets of one collection, and how they are searched. -/
structure SearchPool where
  members : List Target
  prepared : PreparedQuery
  concurrency : ℕ

/-- What the loop over the collections of a request has put together. -/
structure Gathering where
  seen : List String := []
  snapshots : List Snapshot := []
  targets : List Target := []
  pools : List SearchPool := []
  review : Bool := false
  policy : Option QueryPolicy := none

def Gathering.add (g : Gathering) (question : String) (info : CollectionInfo)
    (policy : Option CollectionGovernance) (q combined : QueryPolicy) (vocabulary : Vocabulary)
    (members : Option (List Target)) : Gathering :=
  { seen := info.id :: g.seen
    snapshots := g.snapshots ++ [⟨info, policy, vocabulary.revision⟩]
    targets := g.targets ++ members.getD []
    pools := g.pools ++ [⟨members.getD [],
      ⟨question, { topK := q.candidatesPerIndex, queryExpansions := expansionRules vocabulary }⟩,
      q.retrievalConcurrency⟩]
    review := g.review || members.isNone
    policy := some combined }

def unavailable : KernelError := .forbidden "collection scope or governance changed during query"

/-- `slice::chunks`. -/
def chunks {α : Type} (n : ℕ) (l : List α) : List (List α) :=
  (List.range ((l.length + n - 1) / n)).map fun i => (l.drop (i * n)).take n

/-- The batches of all pools, one after the other. -/
def batches (policy : QueryPolicy) (pools : List SearchPool) :
    List (PreparedQuery × List Target) :=
  pools.flatMap fun pool =>
    (chunks (min pool.concurrency policy.retrievalConcurrency) pool.members).map fun batch =>
      (pool.prepared, batch)

/-- What a worker makes of its search: only the published source counts in a governed index. -/
def settleSearch (target : Target) (result : SearchResult) (domain : String) : Result Found :=
  let target := { target with
    lexicalDomain :=
      if startsWith "datastore/" domain then
        target.parent ++ "/" ++ domain ++ "/" ++ result.indexVersion
      else target.parent ++ "/" ++ domain }
  match target.publication with
  | none => .ok (target, result)
  | some p =>
      if result.indexVersion ≠ p.indexVersion then
        .error (.storage "governed index pin mismatch")
      else .ok (target, { result with
        hits := result.hits.filter fun h =>
          h.sourceId == p.sourceId && h.sourceContentHash == p.sourceContentHash })

def orderKey (r : Found) : String ×ₗ String ×ₗ String :=
  toLex (r.1.parent, toLex (r.1.info.id, r.2.indexVersion))

def mergedInputs (results : List Found) : List CollectionSearchResult :=
  results.zipIdx.map fun r => ⟨toString r.2, r.1.2.hits⟩

def comparableDomains (results : List Found) : SortedMap String (String × String) :=
  results.zipIdx.foldl (fun m r => m.insert (toString r.2)
    (r.1.1.lexicalDomain, r.1.1.parent ++ "/" ++ Retrieval.localVectorDomain)) .empty

def defaultMergeWeights : MergeWeights := ⟨1, 1, 0, .empty, ∅, 1⟩

def mergeFound (results : List Found) : List (String × SearchHit) :=
  Retrieval.mergeHitsInDomains (mergedInputs results)
    (results.map fun r => r.2.hits.length).sum 60 defaultMergeWeights (comparableDomains results)

/-- `str::parse::<usize>`. -/
def parseUsize (s : String) : Option ℕ :=
  let digits := if s.toList.head? = some '+' then s.toList.tail else s.toList
  if digits.isEmpty || !digits.all Char.isDigit then none
  else (some (Nat.ofDigitChars 10 digits 0)).filter fun n => n < 2 ^ 64

/-- The passages taken so far, with what is known of each. -/
structure Selection where
  sources : List AnswerSource := []
  references : SortedMap String SourceReference := .empty
  used : List (String × String × String) := []
  characters : ℕ := 0
  documents : SortedMap String (List String) := .empty

def Selection.nextId (sel : Selection) : String := "p" ++ toString (sel.sources.length + 1)

/-- A hit as a passage of the request. -/
def sourceOf (found : Found) (id : String) (hit : SearchHit) : AnswerSource :=
  ⟨id, found.1.info.id, found.2.indexVersion, hit.sourceId, hit.sourcePath, hit.sourceContentHash,
    hit.text⟩

def referenceTo (found : Found) (id : String) (hit : SearchHit) : SourceReference :=
  ⟨id, found.1.info.id, found.1.info.name, found.2.indexVersion, hit.sourceId, hit.sourcePath,
    hit.sourceContentHash, hit.chunkId, hit.metadata⟩

def Selection.take (sel : Selection) (found : Found) (hit : SearchHit) : Selection :=
  { sel with
    sources := sel.sources ++ [sourceOf found sel.nextId hit]
    references := sel.references.insert sel.nextId (referenceTo found sel.nextId hit)
    characters := sel.characters + (Json.quote hit.text).utf8ByteSize
    documents :=
      match found.1.publication with
      | none => sel.documents
      | some p => sel.documents.insert found.1.parent
          (p.documentId :: (sel.documents.get? found.1.parent).getD []) }

/-- What a passage is known by: it is taken once. -/
def SearchHit.passage (hit : SearchHit) : String × String × String :=
  (hit.sourceId, hit.sourceContentHash, hit.text)

/-- Passages in the order of the merge, while the budgets last. -/
def select (policy : QueryPolicy) (results : List Found) (sel : Selection) :
    List (String × SearchHit) → Result Selection
  | [] => .ok sel
  | (pool, hit) :: rest =>
      if sel.sources.length = policy.maxPassages then .ok sel
      else if (trim hit.text).isEmpty || sel.used.contains hit.passage then
        select policy results sel rest
      else
        let sel := { sel with used := hit.passage :: sel.used }
        if policy.maxContextCharacters <
            sel.characters + (Json.quote hit.text).utf8ByteSize then
          select policy results sel rest
        else match (parseUsize pool).bind fun i => results[i]? with
          | none => .error (.storage "retrieval provenance missing")
          | some found => select policy results (sel.take found hit) rest

def selectPassages (policy : QueryPolicy) (results : List Found) : Result Selection :=
  let results := StableSort.sortByKey orderKey results
  select policy results {} (mergeFound results)

def amendmentReview [CalendarText] (on : NaiveDate) (documents : SortedMap String (List String))
    (review : Bool) : List Snapshot → Result Bool
  | [] => .ok review
  | s :: rest =>
      match s.policy, documents.get? s.info.id with
      | some policy, some ds => do
          let found ← CollectionGovernance.needsAmendmentReview policy on ds
          amendmentReview on documents (review || found) rest
      | _, _ => amendmentReview on documents review rest

def noAnswer (status : String) : AnswerResponse :=
  { content :=
      { status := status
        answer :=
          if status = "review" then
            "The files require a governing-version review before an answer can be prepared."
          else "No answer was found in the available files."
        citations := [] }
    references := []
    provider := ""
    model := ""
    inputTokens := 0
    outputTokens := 0 }

def revisionsOf (revision : Snapshot → ℤ) (snapshots : List Snapshot) : SortedMap String ℤ :=
  snapshots.foldl (fun m s => m.insert s.info.id (revision s)) .empty

section Programs
variable {ω α : Type} [QueryWorld ω]

open AnswerWorld CollectionWorld QueryWorld

/-- The collections are still visible, under the policies and vocabularies of the request. -/
def recheckSnapshots (a : AccessCtx) (next : Shared (CollectionDb ω) (Result α)) :
    List Snapshot → Shared (CollectionDb ω) (Result α)
  | [] => next
  | s :: rest =>
      collection a.tenantId s.info.id fun info =>
        if info.status ≠ "active" ∨ !a.permits info.accessLevel info.compartments then
          .done (.error unavailable)
        else read (fun db => db.governance.load a.tenantId info.id) fun policy =>
          if policyRevision policy ≠ policyRevision s.policy then .done (.error unavailable)
          else loadVocabulary a.tenantId info.id fun vocabulary =>
            if vocabulary.revision ≠ s.vocabularyRevision then .done (.error unavailable)
            else recheckSnapshots a next rest

def recheckTargets (a : AccessCtx) (next : Shared (CollectionDb ω) (Result α)) :
    List Target → Shared (CollectionDb ω) (Result α)
  | [] => next
  | target :: rest =>
      read (fun s => scopeReadable s.world a.tenantId target.info.id) (onOk fun _ =>
        collection a.tenantId target.info.id fun info =>
          if info.status ≠ "active" ∨ a.level.toInt < info.accessLevel ∨
              info.accessLevel ≠ target.info.accessLevel ∨
              info.compartments ≠ target.info.compartments then
            .done (.error unavailable)
          else recheckTargets a next rest)

def recheck (token : String) (snapshots : List Snapshot) (targets : List Target)
    (next : Shared (CollectionDb ω) (Result α)) : Shared (CollectionDb ω) (Result α) :=
  read (fun s => access s.world token) (onOk fun a =>
    recheckSnapshots a (recheckTargets a next targets) snapshots)

/-- The member index of each publication, which is not above the collection's clearance. -/
def bindTargets (a : AccessCtx) (info : CollectionInfo)
    (next : List Target → Shared (CollectionDb ω) (Result α)) (members : List Target) :
    List CollectionPublication → Shared (CollectionDb ω) (Result α)
  | [] => next members
  | p :: rest =>
      collection a.tenantId p.collection fun member =>
        if member.status ≠ "active" ∨ info.accessLevel < member.accessLevel ∨
            a.level.toInt < member.accessLevel then
          .done (.error unavailable)
        else bindTargets a info next (members ++ [⟨member, info.id, some p, ""⟩]) rest

section Queries
variable [CalendarText]

/-- What is searched for a collection: itself, or the publications that govern; `none` where
they need a review. -/
def targetsOf (a : AccessCtx) (on : NaiveDate) (info : CollectionInfo)
    (next : Option (List Target) → Shared (CollectionDb ω) (Result α)) :
    Option CollectionGovernance → Shared (CollectionDb ω) (Result α)
  | none => next (some [⟨info, info.id, none, ""⟩])
  | some policy =>
      onOk (fun
        | none => next none
        | some publications => bindTargets a info (fun members => next (some members)) []
            publications) (CollectionGovernance.governing policy on)

def gatherCollection (a : AccessCtx) (today on : NaiveDate) (question : String)
    (next : Gathering → Shared (CollectionDb ω) (Result α)) (g : Gathering) (name : String) :
    Shared (CollectionDb ω) (Result α) :=
  collection a.tenantId name fun info =>
    if info.status ≠ "active" ∨ !a.permits info.accessLevel info.compartments then
      .done (.error (.notFound "collection" name))
    else if g.seen.contains info.id then next g
    else read (fun s => s.governance.load a.tenantId info.id) fun policy =>
      let q := (policy.map fun p => p.query.forAccessLevel a.level.toInt).getD {}
      if !q.enabled then .done (.error (.notFound "collection" name))
      else if on < today ∧ a.level.toInt < q.historicalAccessLevel then
        .done (.error (.forbidden "historical collection access requires additional clearance"))
      else onOk (fun combined =>
        loadVocabulary a.tenantId info.id fun vocabulary =>
          targetsOf a on info (fun members =>
            next (g.add question info policy q combined vocabulary members)) policy)
        (QueryPolicy.combine g.policy q)

def gather (a : AccessCtx) (today on : NaiveDate) (question : String)
    (next : Gathering → Shared (CollectionDb ω) (Result α)) (g : Gathering) :
    List String → Shared (CollectionDb ω) (Result α)
  | [] => next g
  | name :: rest => gatherCollection a today on question
      (fun g => gather a today on question next g rest) g name

end Queries

/-- The workers of one batch, in the order in which they finish. -/
def searchEach (tenant : String) (prepared : PreparedQuery)
    (next : List Found → Shared (CollectionDb ω) (Result α)) (results : List Found) :
    List Target → Shared (CollectionDb ω) (Result α)
  | [] => next results
  | target :: rest =>
      read (fun s => searchMeasured s.world tenant target.info.id prepared
        (target.publication.map CollectionPublication.indexVersion)) (onOk fun (result, domain) =>
      onOk (fun found => searchEach tenant prepared next (results ++ [found]) rest)
        (settleSearch target result domain))

/-- Batch after batch, each after another look at what the request goes by. -/
def searchBatches (token tenant : String) (snapshots : List Snapshot)
    (completions : List Target → List Target)
    (next : List Found → Shared (CollectionDb ω) (Result α)) (results : List Found) :
    List (PreparedQuery × List Target) → Shared (CollectionDb ω) (Result α)
  | [] => next results
  | (prepared, batch) :: rest =>
      recheck token snapshots [] (searchEach tenant prepared
        (fun results => searchBatches token tenant snapshots completions next results rest)
        results (completions batch))

variable [CalendarText] [AnswerText]

/-- The answer over the selected passages, or that there is none. -/
def answerSelection (tenant question : String) (sel : Selection) (policy : QueryPolicy)
    (review : Bool) : Shared (CollectionDb ω) (Result AnswerResponse) :=
  if sel.sources.isEmpty then
    .done (.ok (noAnswer (if review then "review" else "insufficient")))
  else composeVerified tenant { question := question, sources := sel.sources } sel.references
    (some policy) review

/-- From the hits to the response. -/
def answerFound (token tenant question : String) (on : NaiveDate) (g : Gathering)
    (policy : QueryPolicy) (results : List Found) :
    Shared (CollectionDb ω) (Result CollectionQueryResponse) :=
  onOk (fun sel => onOk (fun review =>
    recheck token g.snapshots g.targets
      ((answerSelection tenant question sel policy review).bind (onOk fun answer =>
        recheck token g.snapshots g.targets (.done (.ok
          { answer := answer
            governanceRevisions := revisionsOf (fun s => policyRevision s.policy) g.snapshots
            vocabularyRevisions := revisionsOf Snapshot.vocabularyRevision g.snapshots
            effectiveOn := on })))))
    (amendmentReview on sel.documents g.review g.snapshots))
    (selectPassages policy results)

/-- `POST /v1.2/query`; the workers of a batch finish in the order `completions` puts them in. -/
def queryCollections (token : String) (req : CollectionQuery)
    (completions : List Target → List Target) :
    Shared (CollectionDb ω) (Result CollectionQueryResponse) :=
  read (fun s => access s.world token) (onOk fun a =>
  read (fun s => today s.world) fun today => onOk (fun on =>
    if req.invalid on today then
      .done (.error (.invalidInput "invalid question, collection scope or future date"))
    else gather a today on req.question (fun g =>
      match g.policy with
      | none => .done (.error (.invalidInput "invalid question, collection scope or future date"))
      | some policy => searchBatches token a.tenantId g.snapshots completions
          (answerFound token a.tenantId req.question on g policy) []
          (if g.review then [] else batches policy g.pools)) {} req.collections)
    (effectiveDate today req.effectiveOn))

/-- `GET /v1.2/collections/{id}/publications/{publication_id}`. -/
def authorizePublication (token id publicationId : String) (effectiveOn : Option String) :
    Shared (CollectionDb ω) (Result CollectionPublication) :=
  let hidden : Shared (CollectionDb ω) (Result CollectionPublication) :=
    .done (.error (.notFound "publication" publicationId))
  read (fun s => access s.world token) (onOk fun a =>
  collection a.tenantId id fun info =>
    if info.status ≠ "active" ∨ !a.permits info.accessLevel info.compartments then hidden
    else read (fun s => s.governance.load a.tenantId info.id) fun
    | none => hidden
    | some policy => read (fun s => today s.world) fun today => onOk (fun on =>
      if today < on then .done (.error (.invalidInput "future date is unavailable"))
      else if on < today ∧ a.level.toInt < policy.query.historicalAccessLevel then
        .done (.error (.forbidden "historical collection access requires additional clearance"))
      else onOk (fun governing =>
        match (governing.getD []).find? fun p => p.id == publicationId with
        | none => hidden
        | some p => collection a.tenantId p.collection fun member =>
          if member.status ≠ "active" ∨ info.accessLevel < member.accessLevel ∨
              a.level.toInt < member.accessLevel then hidden
          else loadVocabulary a.tenantId info.id fun vocabulary =>
            recheck token [⟨info, some policy, vocabulary.revision⟩]
              [⟨member, info.id, some p, ""⟩]
              (read (fun s => sourcesReadable s.world a.tenantId [p.sourceId]) (onOk fun _ =>
                .done (.ok p))))
        (CollectionGovernance.governing policy on))
      (effectiveDate today effectiveOn))

end Programs

section Selections

theorem settleSearch_ok {target : Target} {result : SearchResult} {domain : String}
    {found : Found} (h : settleSearch target result domain = .ok found) :
    found.1.info = target.info ∧ found.1.parent = target.parent ∧
      found.1.publication = target.publication ∧ found.2.indexVersion = result.indexVersion ∧
      (∀ hit ∈ found.2.hits, hit ∈ result.hits) ∧
      ∀ p ∈ target.publication, result.indexVersion = p.indexVersion ∧
        ∀ hit ∈ found.2.hits, hit.sourceId = p.sourceId ∧
          hit.sourceContentHash = p.sourceContentHash := by
  unfold settleSearch at h
  extract_lets target' at h
  cases hp : target.publication with
  | none =>
    rw [show target'.publication = none from hp] at h
    cases h
    exact ⟨rfl, rfl, hp, rfl, fun _ h => h, nofun⟩
  | some p =>
    rw [show target'.publication = some p from hp] at h
    dsimp only at h
    split_ifs at h with hversion
    cases h
    refine ⟨rfl, rfl, hp, rfl, fun _ hhit => (List.mem_filter.mp hhit).1, ?_⟩
    rintro q ⟨⟩
    refine ⟨not_not.mp hversion, fun hit hhit => ?_⟩
    simpa using (List.mem_filter.mp hhit).2

theorem parseUsize_toString {i j : ℕ} (h : parseUsize (toString j) = some i) : i = j := by
  have hdigits : (toString j).toList = Nat.toDigits 10 j := Nat.toList_repr
  have hhead : (toString j).toList.head? ≠ some '+' := by
    intro hplus
    rw [hdigits] at hplus
    have hdigit := Nat.isDigit_of_mem_toDigits (b := 10) (n := j) (by decide) (by decide)
      (List.mem_of_head? hplus)
    revert hdigit
    decide
  unfold parseUsize at h
  rw [if_neg hhead, hdigits] at h
  dsimp only at h
  split_ifs at h
  simpa using (Option.filter_eq_some_iff.mp h).1.symm

theorem mem_mergeFound {results : List Found} {pool : String} {hit : SearchHit}
    (h : (pool, hit) ∈ mergeFound results) : ∃ (i : ℕ) (found : Found) (h : SearchHit) (score : ℚ),
      results[i]? = some found ∧ pool = toString i ∧ h ∈ found.2.hits ∧
        hit = h.withScore score := by
  unfold mergeFound Retrieval.mergeHitsInDomains at h
  extract_lets flat outcome at h
  obtain ⟨⟨n, score⟩, -, hn⟩ := List.mem_filterMap.mp h
  obtain ⟨⟨pool', hit'⟩, hflat, heq⟩ := Option.map_eq_some_iff.mp hn
  obtain ⟨rfl, rfl⟩ := Prod.mk.inj heq
  obtain ⟨c, hc, hmem⟩ := List.mem_flatMap.mp (List.mem_of_getElem? hflat)
  obtain ⟨⟨found, i⟩, hi, rfl⟩ := List.mem_map.mp hc
  obtain ⟨h', hh', heq⟩ := List.mem_map.mp hmem
  obtain ⟨rfl, rfl⟩ := Prod.mk.inj heq
  exact ⟨i, found, h', score, List.mem_zipIdx_iff_getElem?.mp hi, rfl, hh', rfl⟩

/-- A passage of an answer: a hit of one of the searches, listed and referred to under one id. -/
def PassageFrom (results : List Found) (sel : Selection) (s : AnswerSource) : Prop :=
  ∃ found ∈ results, ∃ hit ∈ found.2.hits, s = sourceOf found s.id hit ∧
    sel.references.get? s.id = some (referenceTo found s.id hit) ∧
    ∀ p ∈ found.1.publication, ∃ ds, sel.documents.get? found.1.parent = some ds ∧
      p.documentId ∈ ds

def AnswerSource.passage (s : AnswerSource) : String × String × String :=
  (s.sourceId, s.sourceContentHash, s.text)

/-- What holds of the passages that are taken: they are within the budgets, each is taken once,
and each comes from one of the searches. -/
structure Selection.Within (policy : QueryPolicy) (results : List Found) (sel : Selection) :
    Prop where
  few : sel.sources.length ≤ policy.maxPassages
  cost : sel.characters = (sel.sources.map fun s => (Json.quote s.text).utf8ByteSize).sum
  bounded : sel.characters ≤ policy.maxContextCharacters
  numbered : ∀ (i : ℕ) s, sel.sources[i]? = some s → s.id = "p" ++ toString (i + 1)
  once : (sel.sources.map AnswerSource.passage).Nodup
  used : ∀ s ∈ sel.sources, s.passage ∈ sel.used
  text : ∀ s ∈ sel.sources, (trim s.text).isEmpty = false
  taken : ∀ s ∈ sel.sources, PassageFrom results sel s
  known : ∀ id r, sel.references.get? id = some r → ∃ s ∈ sel.sources, s.id = id

theorem numberedId_injective {i j : ℕ} (h : "p" ++ toString i = "p" ++ toString j) : i = j := by
  have hlist := congrArg String.toList h
  simp only [String.toList_append, List.append_cancel_left_eq] at hlist
  have hrepr := congrArg (fun l => Nat.ofDigitChars 10 l 0) hlist
  simpa [Nat.toString_eq_repr, Nat.toList_repr] using hrepr

variable {policy : QueryPolicy} {results : List Found} {sel : Selection}

theorem Selection.Within.see (h : sel.Within policy results) (key : String × String × String) :
    Selection.Within policy results { sel with used := key :: sel.used } :=
  { h with used := fun s hs => List.mem_cons_of_mem _ (h.used s hs) }

theorem Selection.Within.nextId_new (h : sel.Within policy results) {s : AnswerSource}
    (hs : s ∈ sel.sources) : s.id ≠ sel.nextId := by
  intro heq
  obtain ⟨i, hi⟩ := List.mem_iff_getElem?.mp hs
  have hlt : i < sel.sources.length := (List.getElem?_eq_some_iff.mp hi).1
  have := numberedId_injective ((h.numbered i s hi).symm.trans heq)
  omega

/-- What is known of an earlier passage stays. -/
theorem PassageFrom.take {s : AnswerSource} (h : PassageFrom results sel s) {found : Found}
    {hit : SearchHit} (hs : s.id ≠ sel.nextId) : PassageFrom results (sel.take found hit) s := by
  obtain ⟨f, hf, k, hk, heq, hget, hdocs⟩ := h
  refine ⟨f, hf, k, hk, heq, ?_, fun p hp => ?_⟩
  · rw [Selection.take, SortedMap.get?_insert_of_ne hs]
    exact hget
  · obtain ⟨ds, hds, hmem⟩ := hdocs p hp
    simp only [Selection.take]
    split
    · exact ⟨ds, hds, hmem⟩
    · rw [SortedMap.get?_insert]
      split_ifs with hparent
      · exact ⟨_, rfl, by rw [← hparent, hds]; exact List.mem_cons_of_mem _ hmem⟩
      · exact ⟨ds, hds, hmem⟩

theorem passageFrom_take {found : Found} {hit : SearchHit} (hfound : found ∈ results)
    (hhit : hit ∈ found.2.hits) :
    PassageFrom results (sel.take found hit) (sourceOf found sel.nextId hit) := by
  refine ⟨found, hfound, hit, hhit, rfl, ?_, fun p hp => ?_⟩
  · simp [Selection.take, sourceOf]
  · have hp' : found.1.publication = some p := hp
    simp only [Selection.take, hp', SortedMap.get?_insert, if_true]
    exact ⟨_, rfl, List.mem_cons_self⟩

theorem Selection.Within.take (h : sel.Within policy results) {found : Found} {hit : SearchHit}
    (hfound : found ∈ results) (hhit : hit ∈ found.2.hits)
    (hroom : sel.sources.length ≠ policy.maxPassages) (htext : (trim hit.text).isEmpty = false)
    (hused : hit.passage ∈ sel.used) (hnew : ∀ s ∈ sel.sources, s.passage ≠ hit.passage)
    (hcost : sel.characters + (Json.quote hit.text).utf8ByteSize ≤ policy.maxContextCharacters) :
    (sel.take found hit).Within policy results := by
  have hsources : (sel.take found hit).sources = sel.sources ++ [sourceOf found sel.nextId hit] :=
    rfl
  have hmem : ∀ s, s ∈ (sel.take found hit).sources →
      s ∈ sel.sources ∨ s = sourceOf found sel.nextId hit := by
    intro s hs
    rw [hsources] at hs
    simpa using hs
  constructor
  · have := h.few
    rw [hsources, List.length_append, List.length_singleton]
    omega
  · rw [hsources, List.map_append, List.sum_append, ← h.cost]
    simp [Selection.take, sourceOf]
  · exact hcost
  · intro i s hi
    rw [hsources, List.getElem?_append] at hi
    split_ifs at hi with hlt
    · exact h.numbered i s hi
    · have hlast : i = sel.sources.length := by
        have := (List.getElem?_eq_some_iff.mp hi).1
        rw [List.length_singleton] at this
        omega
      subst hlast
      obtain rfl : sourceOf found sel.nextId hit = s := by simpa using hi
      rfl
  · rw [hsources, List.map_append, List.nodup_append]
    refine ⟨h.once, by simp, ?_⟩
    rintro x hx y hy rfl
    obtain ⟨s, hs, rfl⟩ := List.mem_map.mp hx
    exact hnew s hs (List.mem_singleton.mp hy)
  · intro s hs
    rcases hmem s hs with hs | rfl
    · exact h.used s hs
    · exact hused
  · intro s hs
    rcases hmem s hs with hs | rfl
    · exact h.text s hs
    · exact htext
  · intro s hs
    rcases hmem s hs with hs | rfl
    · exact (h.taken s hs).take (h.nextId_new hs)
    · exact passageFrom_take hfound hhit
  · intro id r hget
    simp only [Selection.take, SortedMap.get?_insert] at hget
    rw [hsources]
    split_ifs at hget with hid
    · exact ⟨_, List.mem_append_right _ (List.mem_singleton_self _), hid.symm⟩
    · obtain ⟨s, hs, hsid⟩ := h.known id r hget
      exact ⟨s, List.mem_append_left _ hs, hsid⟩

/-- The loop over the merged hits keeps to the budgets, and to the searches. -/
theorem Selection.Within.select {sel' : Selection} (h : sel.Within policy results)
    {hits : List (String × SearchHit)}
    (hhits : ∀ e ∈ hits, ∃ (i : ℕ) (found : Found) (hit : SearchHit) (score : ℚ),
      results[i]? = some found ∧ e.1 = toString i ∧ hit ∈ found.2.hits ∧
        e.2 = hit.withScore score)
    (hsel : select policy results sel hits = .ok sel') : sel'.Within policy results := by
  induction hits generalizing sel with
  | nil =>
    cases hsel
    exact h
  | cons e rest ih =>
    obtain ⟨⟨i, found, hit, score, hfound, hpool, hhit, hscored⟩, hrest⟩ :=
      List.forall_mem_cons.mp hhits
    obtain ⟨pool, scored⟩ := e
    obtain rfl : pool = toString i := hpool
    obtain rfl : scored = hit.withScore score := hscored
    unfold Munarium.select at hsel
    split_ifs at hsel with hfull hskip
    · cases hsel
      exact h
    · exact ih h hrest hsel
    · simp only [Bool.or_eq_true, List.contains_iff_mem, not_or, Bool.not_eq_true] at hskip
      extract_lets seen at hsel
      have hseen : seen.Within policy results := h.see _
      split_ifs at hsel with hcost
      · exact ih hseen hrest hsel
      · split at hsel
        · cases hsel
        · rename_i found' hlookup
          obtain ⟨j, hj, hfound'⟩ := Option.bind_eq_some_iff.mp hlookup
          obtain rfl := parseUsize_toString hj
          obtain rfl : found = found' := Option.some.inj (hfound.symm.trans hfound')
          refine ih (hseen.take (List.mem_of_getElem? hfound) hhit hfull hskip.1
            List.mem_cons_self ?_ (not_lt.mp hcost)) hrest hsel
          rintro s hs heq
          exact hskip.2 (heq ▸ h.used s hs)

theorem selection_empty : Selection.Within policy results {} where
  few := by simp
  cost := rfl
  bounded := Nat.zero_le _
  numbered := by simp
  once := by simp
  used := by simp
  text := by simp
  taken := by simp
  known := by
    intro id r h
    cases h

theorem selectPassages_ok (h : selectPassages policy results = .ok sel) :
    sel.Within policy (StableSort.sortByKey orderKey results) := by
  refine selection_empty.select ?_ h
  rintro ⟨pool, hit⟩ he
  exact mem_mergeFound he

end Selections

section Order

/-- The hits with their searches and the places of these. -/
def numbered (results : List Found) : List ((Found × ℕ) × SearchHit) :=
  results.zipIdx.flatMap fun r => r.1.2.hits.map fun hit => (r, hit)

def tagged (results : List Found) : List (Found × SearchHit) :=
  results.flatMap fun found => found.2.hits.map fun hit => (found, hit)

/-- What the merge reads of a hit, wherever its search stands. -/
def blind (e : Found × SearchHit) : PoolCandidate :=
  { pool := ""
    ordinal := 0
    chunkId := e.2.chunkId
    lexical := e.2.lexicalScore.map fun v => ⟨e.1.1.lexicalDomain, v⟩
    vector := e.2.vectorDistance.map fun d =>
      ⟨e.1.1.parent ++ "/" ++ Retrieval.localVectorDomain, d.neg⟩ }

def PoolCandidate.unplaced (c : PoolCandidate) : PoolCandidate :=
  { c with pool := "", ordinal := 0 }

def blindWeights : PoolMergeWeights := Retrieval.pooled 60 defaultMergeWeights

theorem mem_numbered {results : List Found} {e : (Found × ℕ) × SearchHit}
    (h : e ∈ numbered results) : results[e.1.2]? = some e.1.1 := by
  obtain ⟨r, hr, he⟩ := List.mem_flatMap.mp h
  obtain ⟨hit, -, rfl⟩ := List.mem_map.mp he
  exact List.mem_zipIdx_iff_getElem?.mp hr

theorem tagged_eq (results : List Found) :
    tagged results = (numbered results).map fun e => (e.1.1, e.2) := by
  unfold tagged numbered
  rw [List.map_flatMap]
  conv_lhs => rw [← List.zipIdx_map_fst 0 results, List.flatMap_map]
  simp [List.map_map, Function.comp_def]

theorem flatten_mergedInputs (results : List Found) : flatten (mergedInputs results) =
    (numbered results).map fun e => (toString e.1.2, e.2) := by
  simp [flatten, mergedInputs, numbered, List.flatMap_map, List.map_flatMap, Function.comp_def]

theorem toString_injective {i j : ℕ} (h : toString i = toString j) : i = j :=
  numberedId_injective (congrArg ("p" ++ ·) h)

theorem get?_comparableDomains {results : List Found} {i : ℕ} {found : Found}
    (h : results[i]? = some found) : (comparableDomains results).get? (toString i) =
      some (found.1.lexicalDomain, found.1.parent ++ "/" ++ Retrieval.localVectorDomain) := by
  have hstep : ∀ (m : SortedMap String (String × String)) (r : Found × ℕ) (k : String),
      (m.insert (toString r.2)
        (r.1.1.lexicalDomain, r.1.1.parent ++ "/" ++ Retrieval.localVectorDomain)).get? k =
        if (k == toString r.2) = true then
          some (r.1.1.lexicalDomain, r.1.1.parent ++ "/" ++ Retrieval.localVectorDomain)
        else m.get? k := by
    intro m r k
    rw [SortedMap.get?_insert]
    simp
  unfold comparableDomains
  rw [SortedMap.get?_foldl_last hstep]
  have hmem : (found, i) ∈ results.zipIdx.reverse :=
    List.mem_reverse.mpr (List.mem_zipIdx_iff_getElem?.mpr h)
  cases hfind : results.zipIdx.reverse.find? fun r => toString i == toString r.2 with
  | none => simpa using List.find?_eq_none.mp hfind _ hmem
  | some r =>
    obtain rfl : i = r.2 := toString_injective (by simpa using List.find?_some hfind)
    have hr := List.mem_zipIdx_iff_getElem?.mp
      (List.mem_reverse.mp (List.mem_of_find?_eq_some hfind))
    obtain rfl : found = r.1 := Option.some.inj (h.symm.trans hr)
    rfl

/-- The candidates of the merge, but for their places. -/
theorem unplaced_candidates (results : List Found) :
    (Retrieval.candidates (comparableDomains results) (flatten (mergedInputs results))).map
      PoolCandidate.unplaced = (tagged results).map blind := by
  rw [Retrieval.candidates, flatten_mergedInputs, tagged_eq, List.map_map, List.zipIdx_map,
    List.map_map, List.map_map]
  conv_rhs => rw [← List.zipIdx_map_fst 0 (numbered results), List.map_map]
  apply List.map_congr_left
  rintro ⟨e, n⟩ he
  have hget := get?_comparableDomains (mem_numbered (List.fst_mem_of_mem_zipIdx he))
  simp only [Function.comp_apply, Prod.map, Retrieval.candidate, PoolCandidate.unplaced, blind,
    hget, Option.map_some, Option.getD_some, id]

theorem score_unplaced (candidates : List PoolCandidate) (partialDomains : Bool)
    (c : PoolCandidate) :
    blindWeights.score (candidates.map PoolCandidate.unplaced) partialDomains c.unplaced =
      blindWeights.score candidates partialDomains c := by
  have hentry : ∀ probeStratum leg (c : PoolCandidate),
      blindWeights.entryOf probeStratum leg c.unplaced =
        blindWeights.entryOf probeStratum leg c := by
    intro probeStratum leg c
    cases leg <;> rfl
  have hentries : ∀ probeStratum leg,
      blindWeights.entries (candidates.map PoolCandidate.unplaced) probeStratum leg =
        blindWeights.entries candidates probeStratum leg := by
    intro probeStratum leg
    rw [PoolMergeWeights.entries, List.filterMap_map]
    exact List.filterMap_congr fun c _ => hentry probeStratum leg c
  simp only [PoolMergeWeights.score, PoolMergeWeights.legScore, hentry, hentries]
  rfl

theorem ranking_unplaced {candidates : List PoolCandidate}
    (hids : (candidates.map PoolCandidate.chunkId).Nodup) (topK : ℕ) (partialDomains : Bool) :
    ranking (candidates.map PoolCandidate.unplaced) (fusePoolsWithDomainPolicy
      (candidates.map PoolCandidate.unplaced) topK blindWeights partialDomains) =
      ranking candidates (fusePoolsWithDomainPolicy candidates topK blindWeights
        partialDomains) := by
  have hids' : ((candidates.map PoolCandidate.unplaced).map PoolCandidate.chunkId).Nodup := by
    rwa [List.map_map]
  rw [ranking_eq hids, ranking_eq hids', List.map_map]
  congr 2
  apply List.map_congr_left
  intro c _
  simp only [Function.comp_apply, score_unplaced]
  rfl

theorem lt_of_mem_ranked {candidates : List PoolCandidate} {w : PoolMergeWeights} {topK : ℕ}
    {partialDomains : Bool} (hids : (candidates.map PoolCandidate.chunkId).Nodup) {r : ℕ × ℚ}
    (h : r ∈ (fusePoolsWithDomainPolicy candidates topK w partialDomains).ranked) :
    r.1 < candidates.length := by
  rw [fusePoolsWithDomainPolicy, PoolMergeWeights.fused_eq hids] at h
  have hmem := (sortBy_perm _ _).mem_iff.mp (List.mem_of_mem_take h)
  obtain ⟨⟨score, n⟩, hn, rfl⟩ := List.mem_map.mp hmem
  have := (List.getElem?_eq_some_iff.mp (List.mem_zipIdx_iff_getElem?.mp hn)).1
  simpa using this

/-- The hit of a chunk, with its search. -/
def ofChunk (hits : List (Found × SearchHit)) (s : String × ℚ) : Option (Found × SearchHit) :=
  (hits.find? fun e => e.2.chunkId == s.1).map fun e => (e.1, e.2.withScore s.2)

theorem find?_chunk {hits : List (Found × SearchHit)}
    (hids : (hits.map fun e => e.2.chunkId).Nodup) {e : Found × SearchHit} (he : e ∈ hits) :
    hits.find? (fun d => d.2.chunkId == e.2.chunkId) = some e := by
  cases hfind : hits.find? fun d => d.2.chunkId == e.2.chunkId with
  | none => simpa using List.find?_eq_none.mp hfind e he
  | some d =>
    have hd : d.2.chunkId = e.2.chunkId := by simpa using List.find?_some hfind
    rw [List.inj_on_of_nodup_map hids (List.mem_of_find?_eq_some hfind) he hd]

theorem ofChunk_perm {hits hits' : List (Found × SearchHit)} (hp : hits.Perm hits')
    (hids : (hits.map fun e => e.2.chunkId).Nodup) : ofChunk hits = ofChunk hits' := by
  funext s
  unfold ofChunk
  congr 1
  cases hfind : hits'.find? fun e => e.2.chunkId == s.1 with
  | none =>
    rw [List.find?_eq_none] at hfind ⊢
    exact fun e he => hfind e (hp.mem_iff.mp he)
  | some e =>
    have heq : e.2.chunkId = s.1 := by simpa using List.find?_some hfind
    rw [← heq]
    exact find?_chunk hids (hp.mem_iff.mpr (List.mem_of_find?_eq_some hfind))

/-- The merged hits, each with the search that it comes from. -/
def mergedOf (results : List Found) : List ((Found × ℕ) × SearchHit) :=
  (fusePoolsWithDomainPolicy (Retrieval.candidates (comparableDomains results)
    (flatten (mergedInputs results))) (results.map fun r => r.2.hits.length).sum blindWeights
      true).ranked.filterMap fun s =>
    ((numbered results)[s.1]?).map fun e => (e.1, e.2.withScore s.2)

theorem mergeFound_eq {results : List Found} (hne : results ≠ []) :
    mergeFound results = (mergedOf results).map fun e => (toString e.1.2, e.2) := by
  have hdomains : (comparableDomains results).entries ≠ [] := by
    obtain ⟨found, rest, rfl⟩ := List.exists_cons_of_ne_nil hne
    intro hnil
    have hfirst : (found :: rest)[0]? = some found := rfl
    have hget := get?_comparableDomains hfirst
    rw [SortedMap.get?, hnil] at hget
    cases hget
  unfold mergeFound Retrieval.mergeHitsInDomains mergedOf
  extract_lets flat outcome
  have houtcome : outcome = fusePoolsWithDomainPolicy (Retrieval.candidates
      (comparableDomains results) flat) (results.map fun r => r.2.hits.length).sum blindWeights
        true := if_neg hdomains
  rw [houtcome, List.map_filterMap]
  apply List.filterMap_congr
  intro s _
  rw [show flat = _ from flatten_mergedInputs results, List.getElem?_map, Option.map_map,
    Option.map_map]
  rfl

theorem mem_mergedOf {results : List Found} {e : (Found × ℕ) × SearchHit}
    (h : e ∈ mergedOf results) : results[e.1.2]? = some e.1.1 := by
  obtain ⟨s, -, hs⟩ := List.mem_filterMap.mp h
  obtain ⟨d, hd, rfl⟩ := Option.map_eq_some_iff.mp hs
  exact mem_numbered (e := d) (List.mem_of_getElem? hd)

/-- The merge reads hits by their chunks. -/
theorem mergedOf_eq {results : List Found}
    (hids : ((tagged results).map fun e => e.2.chunkId).Nodup) :
    (mergedOf results).map (fun e => (e.1.1, e.2)) =
      (ranking ((tagged results).map blind) (fusePoolsWithDomainPolicy
        ((tagged results).map blind) (results.map fun r => r.2.hits.length).sum blindWeights
          true)).filterMap (ofChunk (tagged results)) := by
  set cs := Retrieval.candidates (comparableDomains results) (flatten (mergedInputs results))
    with hcs
  have hblind := unplaced_candidates results
  have hchunks : cs.map PoolCandidate.chunkId = (tagged results).map fun e => e.2.chunkId := by
    have := congrArg (List.map PoolCandidate.chunkId) hblind
    simpa [List.map_map, Function.comp_def, PoolCandidate.unplaced, blind] using this
  have hcids : (cs.map PoolCandidate.chunkId).Nodup := hchunks ▸ hids
  rw [← hblind, ranking_unplaced hcids, ranking, List.filterMap_map, mergedOf, List.map_filterMap]
  apply List.filterMap_congr
  intro s hs
  have hlt := lt_of_mem_ranked hcids hs
  have hlen : cs.length = (numbered results).length := by
    rw [← List.length_map PoolCandidate.chunkId, hchunks, tagged_eq, List.length_map,
      List.length_map]
  obtain ⟨e, he⟩ : ∃ e, (numbered results)[s.1]? = some e :=
    ⟨_, List.getElem?_eq_getElem (hlen ▸ hlt)⟩
  have htag : (tagged results)[s.1]? = some (e.1.1, e.2) := by
    rw [tagged_eq, List.getElem?_map, he]
    rfl
  have hchunk : chunkIdAt cs s.1 = e.2.chunkId := by
    have := congrArg (·[s.1]?) hchunks
    simp only [List.getElem?_map, htag, Option.map_some] at this
    rw [chunkIdAt, this]
    rfl
  simp only [Function.comp_apply, ofChunk, hchunk]
  rw [find?_chunk hids (List.mem_of_getElem? htag), he]
  rfl

theorem mergedOf_perm {results results' : List Found} (hp : results.Perm results')
    (hids : ((tagged results).map fun e => e.2.chunkId).Nodup) :
    (mergedOf results).map (fun e => (e.1.1, e.2)) =
      (mergedOf results').map fun e => (e.1.1, e.2) := by
  have htagged : (tagged results).Perm (tagged results') := hp.flatMap_right _
  have hids' := (htagged.map fun e => e.2.chunkId).nodup_iff.mp hids
  rw [mergedOf_eq hids, mergedOf_eq hids', ofChunk_perm htagged hids,
    ranking_perm (by rwa [List.map_map]) (htagged.map blind),
    (hp.map fun r => r.2.hits.length).sum_eq]

theorem parseUsize_of_lt {i : ℕ} (h : i < 2 ^ 64) : parseUsize (toString i) = some i := by
  have hdigits : (toString i).toList = Nat.toDigits 10 i := Nat.toList_repr
  have hall : ∀ c ∈ Nat.toDigits 10 i, c.isDigit = true :=
    fun c hc => Nat.isDigit_of_mem_toDigits (by decide) (by decide) hc
  have hhead : (Nat.toDigits 10 i).head? ≠ some '+' := by
    intro hplus
    have := hall _ (List.mem_of_head? hplus)
    revert this
    decide
  have hne : (Nat.toDigits 10 i).isEmpty = false :=
    List.isEmpty_eq_false_iff.mpr Nat.toDigits_ne_nil
  unfold parseUsize
  rw [hdigits, if_neg hhead]
  dsimp only
  rw [hne, List.all_eq_true.mpr hall]
  simpa using h

/-- The selection, when every hit comes with its search. -/
def selectOf (policy : QueryPolicy) (sel : Selection) : List (Found × SearchHit) → Selection
  | [] => sel
  | (found, hit) :: rest =>
      if sel.sources.length = policy.maxPassages then sel
      else if (trim hit.text).isEmpty || sel.used.contains hit.passage then
        selectOf policy sel rest
      else
        let sel := { sel with used := hit.passage :: sel.used }
        if policy.maxContextCharacters <
            sel.characters + (Json.quote hit.text).utf8ByteSize then selectOf policy sel rest
        else selectOf policy (sel.take found hit) rest

theorem select_eq (policy : QueryPolicy) {results : List Found} (hfits : results.length ≤ 2 ^ 64)
    (sel : Selection) {hits : List ((Found × ℕ) × SearchHit)}
    (hhits : ∀ e ∈ hits, results[e.1.2]? = some e.1.1) :
    select policy results sel (hits.map fun e => (toString e.1.2, e.2)) =
      .ok (selectOf policy sel (hits.map fun e => (e.1.1, e.2))) := by
  induction hits generalizing sel with
  | nil => rfl
  | cons e rest ih =>
    obtain ⟨he, hrest⟩ := List.forall_mem_cons.mp hhits
    have hlt : e.1.2 < 2 ^ 64 := (List.getElem?_eq_some_iff.mp he).1.trans_le hfits
    rw [List.map_cons, List.map_cons, select, selectOf]
    split_ifs
    · rfl
    · exact ih sel hrest
    · extract_lets seen
      split_ifs
      · exact ih seen hrest
      · rw [parseUsize_of_lt hlt, Option.bind_some, he]
        exact ih _ hrest

/-- The searches are told apart by what they are ordered by, or no two found the same chunk. -/
def Distinguished (results : List Found) : Prop :=
  (results.map orderKey).Nodup ∨
    ((tagged results).map fun e => e.2.chunkId).Nodup ∧ results.length ≤ 2 ^ 64

/-- The order in which the searches complete decides nothing about the passages. -/
theorem selectPassages_perm (policy : QueryPolicy) {results results' : List Found}
    (hp : results.Perm results') (h : Distinguished results) :
    selectPassages policy results = selectPassages policy results' := by
  rcases h with hkeys | ⟨hids, hfits⟩
  · unfold selectPassages
    rw [show sortByKey orderKey results = sortByKey orderKey results' from
      (keyedBy_compare orderKey).sortBy_eq_of_perm hp hkeys]
  · by_cases hnil : results = []
    · subst hnil
      rw [List.nil_perm.mp hp]
    have hsort : (sortByKey orderKey results).Perm (sortByKey orderKey results') :=
      (sortBy_perm _ _).trans (hp.trans (sortBy_perm _ _).symm)
    have hlen : ∀ l : List Found, l.Perm results → (sortByKey orderKey l).length ≤ 2 ^ 64 := by
      intro l hl
      have hperm : (sortByKey orderKey l).Perm l := sortBy_perm _ l
      rw [hperm.length_eq, hl.length_eq]
      exact hfits
    have hne : ∀ l : List Found, l.Perm results → sortByKey orderKey l ≠ [] := by
      intro l hl hempty
      exact hnil (List.perm_nil.mp (hempty ▸ (hl.symm.trans (sortBy_perm _ l).symm)))
    have hids' : ((tagged (sortByKey orderKey results)).map fun e => e.2.chunkId).Nodup := by
      have htag : (tagged (sortByKey orderKey results)).Perm (tagged results) :=
        (sortBy_perm _ _).flatMap_right _
      exact (htag.map _).nodup_iff.mpr hids
    unfold selectPassages
    extract_lets sorted sorted'
    rw [mergeFound_eq (hne results .rfl), mergeFound_eq (hne results' hp.symm),
      select_eq policy (hlen results .rfl) {} fun _ => mem_mergedOf,
      select_eq policy (hlen results' hp.symm) {} fun _ => mem_mergedOf, mergedOf_perm hsort hids']

/-- Whatever order the searches complete in, the same passages are selected, and they keep to the
budgets of the policy and to what the searches found. -/
theorem selection_of_completions (policy : QueryPolicy) {results results' : List Found}
    (hp : results.Perm results') (h : Distinguished results) {sel : Selection}
    (hsel : selectPassages policy results = .ok sel) : selectPassages policy results' = .ok sel ∧
      sel.Within policy (StableSort.sortByKey orderKey results) :=
  ⟨(selectPassages_perm policy hp h).symm.trans hsel, selectPassages_ok hsel⟩

/-- One hit in the index of each of two collections. -/
def foundIn (id text : String) : Found :=
  (⟨⟨id, id, 0, [], "active"⟩, id, none, id ++ "/l"⟩,
    ⟨"v1", [⟨"k" ++ id, "s", "a.md", "h", text, 1, none, none, none, none, none⟩]⟩)

theorem selection_of_completions_two : ∃ sel,
    selectPassages {} [foundIn "c" "blue", foundIn "b" "red"] = .ok sel ∧
      selectPassages {} [foundIn "b" "red", foundIn "c" "blue"] = .ok sel ∧
      sel.Within {} (StableSort.sortByKey orderKey [foundIn "c" "blue", foundIn "b" "red"]) := by
  have hkeys : ([foundIn "c" "blue", foundIn "b" "red"].map orderKey).Nodup := by decide +kernel
  cases hsel : selectPassages {} [foundIn "c" "blue", foundIn "b" "red"] with
  | ok sel => exact ⟨sel, rfl, selection_of_completions {} (.swap _ _ _) (.inl hkeys) hsel⟩
  | error e =>
    have hok : (selectPassages {} [foundIn "c" "blue", foundIn "b" "red"]).isOk = true := by
      decide +kernel
    rw [hsel] at hok
    cases hok

/-- Whatever order the workers complete in, the request goes on in the same way. -/
theorem answerFound_perm {ω : Type} [QueryWorld ω] [CalendarText] [AnswerText]
    (token tenant question : String) (on : NaiveDate) (g : Gathering) (policy : QueryPolicy)
    {results results' : List Found} (hp : results.Perm results') (h : Distinguished results) :
    (answerFound token tenant question on g policy results :
      Shared (CollectionDb ω) (Result CollectionQueryResponse)) =
      answerFound token tenant question on g policy results' := by
  unfold answerFound
  rw [selectPassages_perm policy hp h]

end Order
end Munarium
