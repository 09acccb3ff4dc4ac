import Munarium.Lib.FirstSeen
import Munarium.Retrieval.Merge
import Munarium.Server.CollectionWrites
import Munarium.Server.QuoteScan

/-! Answers composed from passages that retrieval has confirmed: a released answer quotes only
its passages, and refers to each of them once. -/
namespace Munarium

open Shared

structure AnswerSource where
  id : String
  collection : String
  indexVersion : String
  sourceId : String
  sourcePath : String
  sourceContentHash : String
  text : String
  deriving DecidableEq

structure AnswerRequest where
  question : String
  sources : List AnswerSource
  expectedProvider : Option String := none
  expectedModel : Option String := none
  deriving DecidableEq

structure AnswerCitation where
  id : String
  quote : String
  deriving DecidableEq

structure AnswerContent where
  status : String
  answer : String
  citations : List AnswerCitation
  deriving DecidableEq

structure SourceReference where
  id : String
  collectionId : String
  collectionName : String
  indexVersion : String
  sourceId : String
  sourcePath : String
  sourceContentHash : String
  chunkId : String
  metadata : Option Json

structure AnswerResponse where
  apiVersion : String := "1.2"
  content : AnswerContent
  references : List SourceReference
  provider : String
  model : String
  inputTokens : ℕ
  outputTokens : ℕ

/-- A passage as the model sees it, under an id of this request only. -/
structure ModelPassage where
  id : String
  collection : String
  indexVersion : String
  text : String
  deriving DecidableEq

def modelPassages (sources : List AnswerSource) : List ModelPassage :=
  sources.zipIdx.map fun s =>
    ⟨"p" ++ toString (s.2 + 1), s.1.collection, s.1.indexVersion, s.1.text⟩

structure AnswerPrompt where
  provider : String
  model : String
  tier : String
  reviewRequired : Bool
  question : String
  passages : List ModelPassage
  maxTokens : ℕ

/-- `serde_json` on the content of an answer. -/
class AnswerText where
  parse : String → Option AnswerContent
  render : AnswerContent → String

def restoreCitationId (passages : List ModelPassage) (sources : List AnswerSource)
    (c : AnswerCitation) : Result AnswerCitation :=
  match (passages.findIdx? fun p => p.id == c.id).bind fun i => sources[i]? with
  | none => .error (.provider "citation has an unknown passage id")
  | some source => .ok { c with id := source.id }

def restoreCitationIds (content : AnswerContent) (passages : List ModelPassage)
    (sources : List AnswerSource) : Result AnswerContent := do
  let citations ← content.citations.mapM (restoreCitationId passages sources)
  return { content with citations := citations }

def citationHolds (sources : List AnswerSource) (c : AnswerCitation) : Bool :=
  !(trim c.quote).isEmpty && sources.any fun s => s.id == c.id && containsText c.quote s.text

def validateContent [AnswerText] (raw : String) (sources : List AnswerSource) :
    Result AnswerContent :=
  match AnswerText.parse raw with
  | none => .error (.provider "answer response did not match the schema")
  | some content =>
      if !(["supported", "insufficient", "review"].contains content.status) ||
          16000 < content.answer.utf8ByteSize || 4 < content.citations.length then
        .error (.provider "invalid answer status or size")
      else if content.status == "supported" &&
          ((trim content.answer).isEmpty || content.citations.isEmpty) then
        .error (.provider "answer has no supporting references")
      else if content.citations.any fun c => !citationHolds sources c then
        .error (.provider "answer reference does not match the pinned passages")
      else .ok { content with citations := FirstSeen.scan id [] content.citations }

def citedReferences (content : AnswerContent) (verified : SortedMap String SourceReference) :
    Result (List SourceReference) :=
  (FirstSeen.scan AnswerCitation.id [] content.citations).mapM fun c =>
    match verified.get? c.id with
    | some r => .ok r
    | none => .error (.provider "citation has no verified source reference")

/-- What is made of the reply of the model. -/
def settleReply [AnswerText] (sources : List AnswerSource)
    (verified : SortedMap String SourceReference) (reviewRequired : Bool) (reply : CompleteReply) :
    Result (AnswerContent × List SourceReference) :=
  if ["length", "max_tokens", "content_filter"].contains reply.stopReason then
    .error (.provider "answer generation did not complete")
  else match AnswerText.parse reply.text with
    | none => .error (.provider "answer response did not match the schema")
    | some decoded => do
        let decoded ← restoreCitationIds decoded (modelPassages sources) sources
        let content ← validateContent (AnswerText.render decoded) sources
        let content := if reviewRequired then { content with status := "review" } else content
        let references ← citedReferences content verified
        return (content, references)

/-- What a reader may rely on in an answer over these sources. -/
structure Supported (sources : List AnswerSource) (verified : SortedMap String SourceReference)
    (reviewRequired : Bool) (content : AnswerContent) (references : List SourceReference) :
    Prop where
  status : content.status ∈ ["supported", "insufficient", "review"]
  review : reviewRequired = true → content.status = "review"
  answered : content.status = "supported" →
    (trim content.answer).isEmpty = false ∧ content.citations ≠ []
  few : content.citations.length ≤ 4
  distinct : content.citations.Nodup
  quoted : ∀ c ∈ content.citations, (trim c.quote).isEmpty = false ∧
    ∃ s ∈ sources, s.id = c.id ∧ c.quote.toList <:+: s.text.toList
  referred : ∀ c ∈ content.citations, ∃ r ∈ references, verified.get? c.id = some r
  cited : ∀ r ∈ references, ∃ c ∈ content.citations, verified.get? c.id = some r
  once : references.length = (content.citations.map AnswerCitation.id).dedup.length

theorem mapM_ok {α β : Type} {f : α → Result β} {xs : List α} {ys : List β}
    (h : xs.mapM f = .ok ys) : ys.length = xs.length ∧ (∀ x ∈ xs, ∃ y ∈ ys, f x = .ok y) ∧
      ∀ y ∈ ys, ∃ x ∈ xs, f x = .ok y := by
  induction xs generalizing ys with
  | nil =>
    cases h
    simp
  | cons x xs ih =>
    rw [List.mapM_cons] at h
    obtain ⟨y, hy, h⟩ := bind_eq_ok.mp h
    obtain ⟨rest, hrest, h⟩ := bind_eq_ok.mp h
    cases h
    obtain ⟨hlen, hleft, hright⟩ := ih hrest
    refine ⟨by simp [hlen], ?_, ?_⟩
    · rw [List.forall_mem_cons]
      refine ⟨⟨y, List.mem_cons_self, hy⟩, fun z hz => ?_⟩
      obtain ⟨w, hw, hzw⟩ := hleft z hz
      exact ⟨w, List.mem_cons_of_mem _ hw, hzw⟩
    · rw [List.forall_mem_cons]
      refine ⟨⟨x, List.mem_cons_self, hy⟩, fun z hz => ?_⟩
      obtain ⟨w, hw, hwz⟩ := hright z hz
      exact ⟨w, List.mem_cons_of_mem _ hw, hwz⟩

section Replies
variable [AnswerText] {sources : List AnswerSource} {verified : SortedMap String SourceReference}
  {reviewRequired : Bool} {reply : CompleteReply} {content : AnswerContent}
  {references : List SourceReference}

theorem validateContent_ok {raw : String} (h : validateContent raw sources = .ok content) :
    content.status ∈ ["supported", "insufficient", "review"] ∧ content.citations.length ≤ 4 ∧
      content.citations.Nodup ∧ (content.status = "supported" →
        (trim content.answer).isEmpty = false ∧ content.citations ≠ []) ∧
      ∀ c ∈ content.citations, citationHolds sources c = true := by
  unfold validateContent at h
  split at h
  · cases h
  rename_i parsed _
  split_ifs at h with hsize hempty hholds
  cases h
  have hsub := FirstSeen.scan_sublist id [] parsed.citations
  obtain ⟨hnodup, hkeys⟩ := FirstSeen.scan_keys id [] parsed.citations
  simp only [Bool.or_eq_true, Bool.not_eq_true', decide_eq_true_eq, not_or, Bool.not_eq_false,
    not_lt] at hsize
  obtain ⟨⟨hstatus, -⟩, hfew⟩ := hsize
  refine ⟨List.contains_iff_mem.mp hstatus, hsub.length_le.trans hfew, by simpa using hnodup, ?_,
    ?_⟩
  · intro hsupported
    have hparsed : parsed.status = "supported" := hsupported
    simp only [hparsed, beq_self_eq_true, Bool.true_and, Bool.or_eq_true, not_or,
      Bool.not_eq_true, List.isEmpty_eq_false_iff] at hempty
    refine ⟨hempty.1, fun hnil => hempty.2 ?_⟩
    rw [List.eq_nil_iff_forall_not_mem]
    intro c hc
    have hmem := (hkeys c).mpr (by simpa using hc)
    rw [show FirstSeen.scan id [] parsed.citations = [] from hnil] at hmem
    cases hmem
  · intro c hc
    simp only [List.any_eq_true, Bool.not_eq_true', not_exists, not_and, Bool.not_eq_false]
      at hholds
    exact hholds c (hsub.subset hc)

omit [AnswerText] in
theorem citedReferences_ok (h : citedReferences content verified = .ok references) :
    (∀ c ∈ content.citations, ∃ r ∈ references, verified.get? c.id = some r) ∧
      (∀ r ∈ references, ∃ c ∈ content.citations, verified.get? c.id = some r) ∧
      references.length = (content.citations.map AnswerCitation.id).dedup.length := by
  obtain ⟨hlen, hleft, hright⟩ := mapM_ok h
  have hget : ∀ (c : AnswerCitation) (r : SourceReference),
      (match verified.get? c.id with
        | some r => (.ok r : Result SourceReference)
        | none => .error (.provider "citation has no verified source reference")) = .ok r →
      verified.get? c.id = some r := by
    intro c r hr
    split at hr
    · cases hr
      assumption
    · cases hr
  have hsub := FirstSeen.scan_sublist AnswerCitation.id [] content.citations
  obtain ⟨hnodup, hkeys⟩ := FirstSeen.scan_keys AnswerCitation.id [] content.citations
  refine ⟨fun c hc => ?_, fun r hr => ?_, ?_⟩
  · obtain ⟨d, hd, hid⟩ := List.mem_map.mp ((hkeys c.id).mpr ⟨List.mem_map_of_mem hc, by simp⟩)
    obtain ⟨r, hr, hdr⟩ := hleft d hd
    exact ⟨r, hr, hid ▸ hget d r hdr⟩
  · obtain ⟨d, hd, hdr⟩ := hright r hr
    exact ⟨d, hsub.subset hd, hget d r hdr⟩
  · rw [hlen, ← List.length_map AnswerCitation.id]
    apply List.Perm.length_eq
    rw [List.perm_ext_iff_of_nodup hnodup (List.nodup_dedup _)]
    intro k
    rw [hkeys, List.mem_dedup]
    simp

/-- A reply that is accepted quotes only the passages, each citation from the passage it names,
and refers to each cited passage once, by what retrieval has confirmed of it. -/
theorem settleReply_supported
    (h : settleReply sources verified reviewRequired reply = .ok (content, references)) :
    Supported sources verified reviewRequired content references := by
  unfold settleReply at h
  split at h
  · cases h
  split at h
  · cases h
  obtain ⟨decoded, -, h⟩ := bind_eq_ok.mp h
  obtain ⟨validated, hvalid, h⟩ := bind_eq_ok.mp h
  obtain ⟨hstatus, hfew, hnodup, hanswered, hholds⟩ := validateContent_ok hvalid
  obtain ⟨refs, hrefs, h⟩ := bind_eq_ok.mp h
  obtain ⟨rfl, rfl⟩ := Prod.mk.inj (Except.ok.inj h)
  obtain ⟨hreferred, hcited, honce⟩ := citedReferences_ok hrefs
  have hsame : (if reviewRequired then { validated with status := "review" }
      else validated).citations = validated.citations := by split_ifs <;> rfl
  rw [hsame] at hreferred hcited honce
  constructor
  · split_ifs
    · simp
    · exact hstatus
  · rintro rfl
    rfl
  · split_ifs
    · intro hsupported
      simp at hsupported
    · exact hanswered
  · rwa [hsame]
  · rwa [hsame]
  · rw [hsame]
    intro c hc
    have hhold := hholds c hc
    simp only [citationHolds, Bool.and_eq_true, Bool.not_eq_true', List.any_eq_true,
      beq_iff_eq, containsText_iff] at hhold
    obtain ⟨hquote, s, hs, hid, htext⟩ := hhold
    exact ⟨hquote, s, hs, hid, htext⟩
  · rwa [hsame]
  · rwa [hsame]
  · rwa [hsame]

end Replies

structure SearchResult where
  indexVersion : String
  hits : List SearchHit

/-- Retrieval and the provider, as an answer uses them. -/
class AnswerWorld (ω : Type) extends CollectionWorld ω where
  sourcesReadable : ω → String → List String → Result Unit
  completeTokens : ω → String → Result ℕ
  searchCollection : ω → String → String → String → Option String → Result SearchResult
  composeReply : ω → String → AnswerPrompt → Result CompleteReply

section Programs
variable {ω : Type} [AnswerWorld ω] [AnswerText]

open AnswerWorld CollectionWorld

def eqIgnoreAsciiCase (a b : String) : Bool :=
  a.toList.map Char.toLower == b.toList.map Char.toLower

/-- The budget of output tokens: the policy's, else the server's. -/
def outputBudget (tenant : String) (policy : Option QueryPolicy)
    (next : ℕ → Shared (CollectionDb ω) (Result AnswerResponse)) :
    Shared (CollectionDb ω) (Result AnswerResponse) :=
  match policy.bind QueryPolicy.maxOutputTokens with
  | some budget => next budget
  | none => read (fun s => completeTokens s.world tenant) (onOk next)

def unexpectedModel (req : AnswerRequest) (entry : ProviderEntry) (model : String) : Bool :=
  (req.expectedProvider.any fun p => !eqIgnoreAsciiCase p entry.provider) ||
    req.expectedModel.any fun m => m != model

/-- Asking the model, and what is released of its reply. -/
def askModel (tenant : String) (sources : List AnswerSource)
    (verified : SortedMap String SourceReference) (prompt : AnswerPrompt) :
    Shared (CollectionDb ω) (Result AnswerResponse) :=
  read (fun s => composeReply s.world tenant prompt) (onOk fun reply =>
  onOk (fun (content, references) =>
    read (fun s => sourcesReadable s.world tenant (verified.values.map SourceReference.sourceId))
      (onOk fun _ => .done (.ok
        { content, references, provider := reply.provider, model := reply.model
          inputTokens := reply.inputTokens, outputTokens := reply.outputTokens })))
    (settleReply sources verified prompt.reviewRequired reply))

def composeVerified (tenant : String) (req : AnswerRequest)
    (verified : SortedMap String SourceReference) (policy : Option QueryPolicy)
    (reviewRequired : Bool) : Shared (CollectionDb ω) (Result AnswerResponse) :=
  read (fun s => sourcesReadable s.world tenant (verified.values.map SourceReference.sourceId))
    (onOk fun _ =>
  read (fun s => settings s.world tenant) (onOk fun config =>
  let provider := (policy.bind QueryPolicy.provider).getD config.provider
  let tier := (policy.bind QueryPolicy.tier).getD config.tier
  if !CollectionGovernance.tiers.contains tier then
    .done (.error (.invalidInput ("unknown tier '" ++ tier ++ "' (fast|capable|frontier)")))
  else
  read (fun s => providerOf s.world tenant provider) (onOk fun entry =>
  if (policy.any fun p => !p.allowExternalProcessing) && !entry.isLocal then
    .done (.error (.forbidden "external model processing is disabled for this collection"))
  else onOk (fun model =>
    if unexpectedModel req entry model then
      .done (.error (.forbidden
        "configured answer model does not match caller processing policy"))
    else outputBudget tenant policy fun maxTokens => askModel tenant req.sources verified
      ⟨if provider = "default" then entry.provider else provider, model, tier, reviewRequired,
        req.question, modelPassages req.sources, maxTokens⟩)
    (entry.completeModel tier))))

def answerRequestInvalid (req : AnswerRequest) : Bool :=
  (trim req.question).isEmpty || 8000 < req.question.utf8ByteSize || req.sources.isEmpty ||
    32 < req.sources.length || 100000 < (req.sources.map fun s => s.text.utf8ByteSize).sum ||
    (req.sources.any fun s => s.id.isEmpty || 100 < s.id.utf8ByteSize || (trim s.text).isEmpty) ||
    !decide (req.sources.map AnswerSource.id).Nodup

/-- The collection of each source, where the capability sees it. -/
def admitSources (a : AccessCtx)
    (next : List (AnswerSource × CollectionInfo) →
      Shared (CollectionDb ω) (Result AnswerResponse))
    (admitted : List (AnswerSource × CollectionInfo)) :
    List AnswerSource → Shared (CollectionDb ω) (Result AnswerResponse)
  | [] => next admitted
  | source :: rest =>
      collection a.tenantId source.collection fun info =>
        if info.status ≠ "active" ∨ !a.permits info.accessLevel info.compartments then
          .done (.error (.notFound "collection" source.collection))
        else admitSources a next (admitted ++ [(source, info)]) rest

def passageMatches (source : AnswerSource) (h : SearchHit) : Bool :=
  h.sourceId == source.sourceId && h.sourcePath == source.sourcePath &&
    h.sourceContentHash == source.sourceContentHash && containsText source.text h.text

def referenceOf (source : AnswerSource) (info : CollectionInfo) (result : SearchResult)
    (hit : SearchHit) : SourceReference :=
  ⟨source.id, info.id, info.name, result.indexVersion, hit.sourceId, hit.sourcePath,
    hit.sourceContentHash, hit.chunkId, hit.metadata⟩

/-- Each passage is found again by retrieval in its pinned index. -/
def verifySources (tenant : String)
    (next : SortedMap String SourceReference → Shared (CollectionDb ω) (Result AnswerResponse))
    (verified : SortedMap String SourceReference) :
    List (AnswerSource × CollectionInfo) → Shared (CollectionDb ω) (Result AnswerResponse)
  | [] => next verified
  | (source, info) :: rest =>
      read (fun s => searchCollection s.world tenant info.id source.text
        (some source.indexVersion)) (onOk fun result =>
      match result.hits.find? (passageMatches source) with
      | some hit =>
          if result.indexVersion ≠ source.indexVersion then
            .done (.error (.invalidInput "source passage does not match its pinned index"))
          else verifySources tenant next
            (verified.insert source.id (referenceOf source info result hit)) rest
      | none => .done (.error (.invalidInput "source passage does not match its pinned index")))

/-- The collections are still there for the capability as it is now. -/
def recheckCollections (current : AccessCtx) (tenant : String)
    (next : Shared (CollectionDb ω) (Result AnswerResponse)) :
    List CollectionInfo → Shared (CollectionDb ω) (Result AnswerResponse)
  | [] => next
  | c :: rest =>
      read (fun s => scopeReadable s.world tenant c.id) (onOk fun _ =>
      read (fun s => collectionById s.world tenant c.id) (onOk fun info =>
      if info.status ≠ "active" ∨ !current.permits info.accessLevel info.compartments then
        .done (.error (.forbidden "source scope changed during answer generation"))
      else recheckCollections current tenant next rest))

/-- `POST /v1.2/answers`. -/
def answerRequest (token : String) (req : AnswerRequest) :
    Shared (CollectionDb ω) (Result AnswerResponse) :=
  read (fun s => access s.world token) (onOk fun a =>
  if answerRequestInvalid req then
    .done (.error (.invalidInput "invalid question or source set"))
  else admitSources a (fun admitted => verifySources a.tenantId (fun verified =>
    (composeVerified a.tenantId req verified none false).bind (onOk fun response =>
      read (fun s => access s.world token) (onOk fun current =>
        recheckCollections current a.tenantId (.done (.ok response)) (admitted.map Prod.snd))))
    .empty admitted) [] req.sources)

end Programs

section Guarantees
variable {ω : Type} [AnswerWorld ω] [AnswerText] [CalendarText] {s : CollectionDb ω}

open AnswerWorld CollectionWorld CollectionDb

/-- An answer is what was made of a reply, which the provider gave while the request ran. -/
def ComposedFrom (tenant : String) (sources : List AnswerSource)
    (verified : SortedMap String SourceReference) (reviewRequired : Bool) (s : CollectionDb ω)
    (answer : Result AnswerResponse) (t : CollectionDb ω) : Prop :=
  ∀ response, answer = .ok response → ∃ m prompt reply, s.Moves m ∧ m.Moves t ∧
    composeReply m.world tenant prompt = .ok reply ∧ prompt.passages = modelPassages sources ∧
    settleReply sources verified reviewRequired reply = .ok (response.content, response.references)

theorem composed_error {tenant : String} {sources : List AnswerSource}
    {verified : SortedMap String SourceReference} {reviewRequired : Bool} (e : KernelError)
    (t : CollectionDb ω) : ComposedFrom tenant sources verified reviewRequired s (.error e) t :=
  fun _ h => by cases h

theorem askModel_ensures {s₀ : CollectionDb ω} {tenant : String} {sources : List AnswerSource}
    {verified : SortedMap String SourceReference} {prompt : AnswerPrompt} {reviewRequired : Bool}
    (hs₀ : s₀.Moves s) (hpassages : prompt.passages = modelPassages sources)
    (hreview : prompt.reviewRequired = reviewRequired) :
    (askModel tenant sources verified prompt).Ensures Moves Eq
      (ComposedFrom tenant sources verified reviewRequired s₀) s := by
  apply ensures_read fun _ => rfl
  intro m hm
  apply onOk_ensures composed_error
  intro reply hreply
  apply onOk_ensures composed_error
  rintro ⟨content, references⟩ hsettled
  apply ensures_read fun _ => rfl
  intro t ht
  apply onOk_ensures composed_error
  intro _ _ u hu response hresponse
  obtain rfl := Except.ok.inj hresponse
  exact ⟨m, prompt, reply, hs₀.trans hm, ht.trans hu, hreply, hpassages, hreview ▸ hsettled⟩

theorem composeVerified_ensures (s : CollectionDb ω) (tenant : String) (req : AnswerRequest)
    (verified : SortedMap String SourceReference) (policy : Option QueryPolicy)
    (reviewRequired : Bool) :
    (composeVerified tenant req verified policy reviewRequired).Ensures Moves Eq
      (ComposedFrom tenant req.sources verified reviewRequired s) s := by
  apply ensures_read fun _ => rfl
  intro t ht
  apply onOk_ensures composed_error
  intro _ _
  apply ensures_read fun _ => rfl
  intro u hu
  apply onOk_ensures composed_error
  intro config _
  extract_lets provider tier
  split
  · exact fun v _ => composed_error _ v
  apply ensures_read fun _ => rfl
  intro v hv
  apply onOk_ensures composed_error
  intro entry _
  split
  · exact fun w _ => composed_error _ w
  apply onOk_ensures composed_error
  intro model _
  split
  · exact fun w _ => composed_error _ w
  have hall := (ht.trans hu).trans hv
  unfold outputBudget
  split
  · exact askModel_ensures hall rfl rfl
  · apply ensures_read fun _ => rfl
    intro w hw
    apply onOk_ensures composed_error
    intro maxTokens _
    exact askModel_ensures (hall.trans hw) rfl rfl

/-- Retrieval has found a passage in its pinned index while the request ran. -/
def Confirmed (tenant : String) (s : CollectionDb ω) (source : AnswerSource)
    (info : CollectionInfo) (r : SourceReference) (t : CollectionDb ω) : Prop :=
  ∃ u result hit, s.Moves u ∧ u.Moves t ∧
    searchCollection u.world tenant info.id source.text (some source.indexVersion) = .ok result ∧
    result.indexVersion = source.indexVersion ∧ hit ∈ result.hits ∧
    hit.sourceId = source.sourceId ∧ hit.sourcePath = source.sourcePath ∧
    hit.sourceContentHash = source.sourceContentHash ∧
    source.text.toList <:+: hit.text.toList ∧ r = referenceOf source info result hit

omit [AnswerText] in
theorem Confirmed.later {tenant : String} {source : AnswerSource} {info : CollectionInfo}
    {r : SourceReference} {t t' : CollectionDb ω} (h : Confirmed tenant s source info r t)
    (ht : t.Moves t') : Confirmed tenant s source info r t' := by
  obtain ⟨u, result, hit, hu, hut, h⟩ := h
  exact ⟨u, result, hit, hu, hut.trans ht, h⟩

/-- The collection was there for the capability, between two states. -/
def Visible (tenant : String) (a : AccessCtx) (s : CollectionDb ω) (id : String)
    (t : CollectionDb ω) : Prop :=
  ∃ u info, s.Moves u ∧ u.Moves t ∧ collectionById u.world tenant id = .ok info ∧
    info.status = "active" ∧ a.permits info.accessLevel info.compartments = true

omit [AnswerText] in
theorem Visible.later {tenant id : String} {a : AccessCtx} {t t' : CollectionDb ω}
    (h : Visible tenant a s id t) (ht : t.Moves t') : Visible tenant a s id t' := by
  obtain ⟨u, info, hu, hut, h⟩ := h
  exact ⟨u, info, hu, hut.trans ht, h⟩

variable {Q : Result AnswerResponse → CollectionDb ω → Prop}

omit [AnswerText] in
theorem admitSources_ensures {a : AccessCtx}
    {next : List (AnswerSource × CollectionInfo) → Shared (CollectionDb ω) (Result AnswerResponse)}
    (hQ : ∀ e t, Q (.error e) t) (sources : List AnswerSource)
    (admitted : List (AnswerSource × CollectionInfo))
    (h : ∀ t all, s.Moves t → all.map Prod.fst = admitted.map Prod.fst ++ sources →
      (next all).Ensures Moves Eq Q t) :
    (admitSources a next admitted sources).Ensures Moves Eq Q s := by
  induction sources generalizing admitted s with
  | nil => exact h s admitted (.refl s) (by simp)
  | cons source rest ih =>
    apply collection_ensures (fun _ => rfl) hQ
    intro t info ht
    split_ifs
    · exact fun u _ => hQ _ u
    · apply ih
      intro u all hu hall
      exact h u all (ht.trans hu) (by simpa using hall)

omit [AnswerText] in
/-- What is verified of the sources is confirmed by retrieval. -/
theorem verifySources_ensures {s₀ : CollectionDb ω} {tenant : String}
    {next : SortedMap String SourceReference → Shared (CollectionDb ω) (Result AnswerResponse)}
    (hQ : ∀ e t, Q (.error e) t) (pairs : List (AnswerSource × CollectionInfo))
    (all : List (AnswerSource × CollectionInfo)) (hall : ∀ e ∈ pairs, e ∈ all)
    (verified : SortedMap String SourceReference) (hs₀ : s₀.Moves s)
    (hverified : ∀ id r, verified.get? id = some r → ∃ e ∈ all, e.1.id = id ∧
      Confirmed tenant s₀ e.1 e.2 r s)
    (h : ∀ t verified, s.Moves t → (∀ id r, verified.get? id = some r → ∃ e ∈ all, e.1.id = id ∧
      Confirmed tenant s₀ e.1 e.2 r t) → (next verified).Ensures Moves Eq Q t) :
    (verifySources tenant next verified pairs).Ensures Moves Eq Q s := by
  induction pairs generalizing verified s with
  | nil => exact h s verified (.refl s) hverified
  | cons e rest ih =>
    obtain ⟨source, info⟩ := e
    apply ensures_read fun _ => rfl
    intro t ht
    apply onOk_ensures hQ
    intro result hresult
    split
    · rename_i hit hfound
      split_ifs with hversion
      · exact fun u _ => hQ _ u
      have hmatch := List.find?_some hfound
      simp only [passageMatches, Bool.and_eq_true, beq_iff_eq, containsText_iff] at hmatch
      obtain ⟨⟨⟨hid, hpath⟩, hhash⟩, htext⟩ := hmatch
      have hconfirmed : Confirmed tenant s₀ source info (referenceOf source info result hit) t :=
        ⟨t, result, hit, hs₀.trans ht, .refl t, hresult, not_not.mp hversion,
          List.mem_of_find?_eq_some hfound, hid, hpath, hhash, htext, rfl⟩
      apply ih (fun e he => hall e (List.mem_cons_of_mem _ he)) _ (hs₀.trans ht)
      · intro id r hget
        rw [SortedMap.get?_insert] at hget
        split_ifs at hget with heq
        · obtain rfl := Option.some.inj hget
          exact ⟨(source, info), hall _ List.mem_cons_self, heq.symm, hconfirmed⟩
        · obtain ⟨e, he, heid, hold⟩ := hverified id r hget
          exact ⟨e, he, heid, hold.later ht⟩
      · exact fun u verified hu => h u verified (ht.trans hu)
    · exact fun u _ => hQ _ u

omit [AnswerText] in
theorem recheckCollections_ensures {s₀ : CollectionDb ω} {current : AccessCtx} {tenant : String}
    {next : Shared (CollectionDb ω) (Result AnswerResponse)} (hQ : ∀ e t, Q (.error e) t)
    (infos all : List CollectionInfo) (hs₀ : s₀.Moves s)
    (hseen : ∀ c ∈ all, c ∈ infos ∨ Visible tenant current s₀ c.id s)
    (h : ∀ t, s.Moves t → (∀ c ∈ all, Visible tenant current s₀ c.id t) →
      next.Ensures Moves Eq Q t) :
    (recheckCollections current tenant next infos).Ensures Moves Eq Q s := by
  induction infos generalizing s with
  | nil => exact h s (.refl s) fun c hc => (hseen c hc).resolve_left (by simp)
  | cons c rest ih =>
    apply ensures_read fun _ => rfl
    intro t ht
    apply onOk_ensures hQ
    intro _ _
    apply ensures_read fun _ => rfl
    intro u hu
    apply onOk_ensures hQ
    intro info hinfo
    split_ifs with hgone
    · exact fun v _ => hQ _ v
    simp only [not_or, not_not, Bool.not_eq_true', Bool.not_eq_false] at hgone
    apply ih (hs₀.trans (ht.trans hu))
    · intro d hd
      rcases hseen d hd with hmem | hvisible
      · rcases List.mem_cons.mp hmem with rfl | hmem
        · exact .inr ⟨u, info, hs₀.trans (ht.trans hu), .refl u, hinfo, hgone.1, hgone.2⟩
        · exact .inl hmem
      · exact .inr (hvisible.later (ht.trans hu))
    · exact fun v hv => h v ((ht.trans hu).trans hv)

/-- A released answer: it comes from a reply given while the request ran; every citation quotes a
passage of the request that retrieval found again in its pinned index; and after the reply the
capability, as it was then, still saw the collection of each cited passage. -/
def Released (token : String) (req : AnswerRequest) (s : CollectionDb ω)
    (response : AnswerResponse) (t : CollectionDb ω) : Prop :=
  ∃ (a current : AccessCtx) (m v : CollectionDb ω) (prompt : AnswerPrompt) (reply : CompleteReply)
    (verified : SortedMap String SourceReference),
    s.Moves m ∧ composeReply m.world a.tenantId prompt = .ok reply ∧ m.Moves v ∧
    access v.world token = .ok current ∧ v.Moves t ∧
    Supported req.sources verified false response.content response.references ∧
    ∀ c ∈ response.content.citations, ∃ source ∈ req.sources, ∃ info, ∃ r ∈ response.references,
      source.id = c.id ∧ c.quote.toList <:+: source.text.toList ∧
      Confirmed a.tenantId s source info r t ∧ Visible a.tenantId current v info.id t

theorem answerRequest_ensures (s : CollectionDb ω) (token : String) (req : AnswerRequest) :
    (answerRequest token req).Ensures Moves Eq
      (fun answer t => ∀ response, answer = .ok response → Released token req s response t) s := by
  have hQ : ∀ e (t : CollectionDb ω), (fun (answer : Result AnswerResponse) t =>
      ∀ response, answer = .ok response → Released token req s response t) (.error e) t :=
    fun _ _ _ h => by cases h
  apply ensures_read fun _ => rfl
  intro t ht
  apply onOk_ensures hQ
  intro a _
  split
  · exact fun u _ => hQ _ u
  rename_i hinvalid
  have hids : (req.sources.map AnswerSource.id).Nodup := by
    simp only [answerRequestInvalid, Bool.or_eq_true, not_or, Bool.not_eq_true',
      decide_eq_false_iff_not, not_not] at hinvalid
    exact hinvalid.2
  apply admitSources_ensures hQ
  intro u all hu hall
  rw [List.map_nil, List.nil_append] at hall
  apply verifySources_ensures hQ all all (fun _ he => he) .empty (ht.trans hu)
  · intro id r hget
    cases hget
  intro w verified hw hverified
  have hw' := (ht.trans hu).trans hw
  apply Ensures.bind Moves.refl
  refine (composeVerified_ensures w a.tenantId req verified none false).weaken (fun _ _ h => h) ?_
  intro answer x hcomposed
  apply onOk_ensures hQ
  rintro response rfl
  obtain ⟨m, prompt, reply, hm, hmx, hreply, -, hsettled⟩ := hcomposed response rfl
  have hsupported := settleReply_supported hsettled
  apply ensures_read fun _ => rfl
  intro v hv
  apply onOk_ensures hQ
  intro current hcurrent
  apply recheckCollections_ensures hQ _ (all.map Prod.snd) (CollectionDb.Moves.refl v)
    fun c hc => .inl hc
  intro y hy hvisible z hz response' hresponse
  obtain rfl := Except.ok.inj hresponse
  refine ⟨a, current, m, v, prompt, reply, verified, hw'.trans hm, hreply, hmx.trans hv, hcurrent,
    hy.trans hz, hsupported, fun c hc => ?_⟩
  obtain ⟨-, source, hsource, hid, hquote⟩ := hsupported.quoted c hc
  obtain ⟨r, hr, hget⟩ := hsupported.referred c hc
  obtain ⟨e, he, heid, hconfirmed⟩ := hverified c.id r hget
  have hmem : e.1 ∈ req.sources := hall ▸ List.mem_map_of_mem he
  obtain rfl : e.1 = source := List.inj_on_of_nodup_map hids hmem hsource (heid.trans hid.symm)
  have hwz : w.Moves z := (((hm.trans hmx).trans hv).trans hy).trans hz
  exact ⟨e.1, hmem, e.2, r, hr, hid, hquote, hconfirmed.later hwz,
    (hvisible e.2 (List.mem_map_of_mem he)).later hz⟩

end Guarantees

end Munarium
