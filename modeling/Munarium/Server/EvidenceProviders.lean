import Munarium.Core.Hierarchy
import Munarium.Evidence.Manifest
import Munarium.Std.JsonText
import Munarium.Std.Text

/-! The providers of structured evidence and of the ledger's facts. A session's authorization is
lowered to a data view's before it is sent; whether the session may read the view is not asked. -/
namespace Munarium

def REFUSAL_UNAVAILABLE : String := "source-unavailable"
def REFUSAL_TIMEOUT : String := "source-timeout"
def REFUSAL_CIRCUIT_OPEN : String := "source-circuit-open"
def REFUSAL_UNBOUND : String := "source-not-bound"
def REFUSAL_REJECTED : String := "source-request-rejected"
def REFUSAL_INTENT_UNRESOLVED : String := "intent-unresolved"

def refuse (code message : String) (source : Option String) : EvidenceBlock :=
  .refusal ⟨code, message, source⟩

/-- `str::strip_prefix`. -/
def stripStart (p s : String) : Option String :=
  if startsWith p s then some (String.ofList (s.toList.drop p.toList.length)) else none

/-- `trim_end_matches` of one character. -/
def trimEndMatches (c : Char) (s : String) : String :=
  String.ofList (s.toList.reverse.dropWhile (· == c)).reverse

/-- `str::parse::<i64>`. -/
def parseI64 (s : String) : Option ℤ :=
  let digits (cs : List Char) : Option ℕ :=
    if cs.isEmpty || !cs.all Char.isDigit then none
    else some (cs.foldl (fun n c => 10 * n + (c.toNat - 48)) 0)
  let signed : Option ℤ :=
    match s.toList with
    | '-' :: cs => (digits cs).map fun n => -(n : ℤ)
    | '+' :: cs => (digits cs).map fun n => (n : ℤ)
    | cs => (digits cs).map fun n => (n : ℤ)
  signed.filter fun n => -2 ^ 63 ≤ n ∧ n < 2 ^ 63

/-- A breaker; times are milliseconds since it was made. -/
structure CircuitBreaker where
  consecutiveFailures : ℕ
  openUntilMs : ℕ
  threshold : ℕ
  coolOff : ℕ
  deriving DecidableEq

namespace CircuitBreaker

def isOpen (b : CircuitBreaker) (now : ℕ) : Bool := b.openUntilMs != 0 && now < b.openUntilMs

def recordSuccess (b : CircuitBreaker) : CircuitBreaker :=
  { b with consecutiveFailures := 0, openUntilMs := 0 }

def recordFailure (b : CircuitBreaker) (now : ℕ) : CircuitBreaker :=
  let n := b.consecutiveFailures + 1
  { b with
    consecutiveFailures := n
    openUntilMs := if b.threshold ≤ n then now + b.coolOff else b.openUntilMs }

end CircuitBreaker

inductive DataViewKind where
  | contract
  | metricView
  | dataView
  deriving DecidableEq

def DataViewKind.route : DataViewKind → String
  | contract => "contracts"
  | metricView => "metricviews"
  | dataView => "dataviews"

def DataViewKind.isSemantic : DataViewKind → Bool
  | contract => false
  | _ => true

structure DataViewParam where
  kind : String
  value : String

def DataViewParam.toJson (p : DataViewParam) : Json :=
  Json.object [("type", .str p.kind), ("value", .str p.value)]

/-- A data view of a runbook. -/
structure DataViewSpec where
  name : String
  contract : String
  kind : DataViewKind
  parameters : SortedMap String DataViewParam
  accessLevel : ℤ
  compartments : List String

structure BoundDataView where
  contract : String
  kind : DataViewKind
  parameters : Json
  accessLevel : ℤ
  compartments : List String

structure SessionAuthorization where
  tenant : String
  uid : String
  accessLevel : ℤ
  compartments : List String
  sessionId : String
  runbookRef : String

/-- What a session must hold to read a view. -/
structure SessionAuthorization.Dominates (auth : SessionAuthorization) (view : BoundDataView) :
    Prop where
  level : view.accessLevel ≤ auth.accessLevel
  compartments : ∀ c ∈ view.compartments, c ∈ auth.compartments

structure MatrixProvider where
  baseUrl : String
  token : Option String
  auth : SessionAuthorization
  views : SortedMap String BoundDataView
  breaker : CircuitBreaker

def bindView (v : DataViewSpec) : BoundDataView :=
  { contract := v.contract
    kind := v.kind
    parameters := .obj (v.parameters.entries.map fun e => (e.1, e.2.toJson))
    accessLevel := v.accessLevel
    compartments := v.compartments }

/-- The provider of a turn; `none` where no base URL is configured. -/
def matrixProvider (baseUrl token : Option String) (breaker : CircuitBreaker)
    (auth : SessionAuthorization) (dataViews : List DataViewSpec) : Option MatrixProvider :=
  baseUrl.map fun baseUrl =>
    let views := dataViews.foldl (fun m v => m.insert v.name (bindView v)) SortedMap.empty
    ⟨baseUrl, token, auth, views, breaker⟩

/-- `authorization` of an intent, as sent. -/
structure SentAuthorization where
  tenant : String
  uid : String
  accessLevel : ℤ
  compartments : List String
  sessionId : String
  runbookRef : String

def sentAuthorization (view : BoundDataView) (auth : SessionAuthorization) : SentAuthorization :=
  { tenant := auth.tenant
    uid := auth.uid
    accessLevel := min auth.accessLevel view.accessLevel
    compartments := auth.compartments.filter fun c =>
      view.compartments.isEmpty || view.compartments.contains c
    sessionId := auth.sessionId
    runbookRef := auth.runbookRef }

def SentAuthorization.toJson (a : SentAuthorization) : Json :=
  Json.object [("tenant", .str a.tenant), ("uid", .str a.uid),
    ("access_level", .int a.accessLevel), ("compartments", .arr (a.compartments.map .str)),
    ("session_id", .str a.sessionId), ("runbook_ref", .str a.runbookRef)]

def requestLimits : Json := Json.object [("max_rows", .int 500), ("max_bytes", .int 1048576)]

def filterJson (f : SemanticFilterSelection) : Json :=
  Json.object [("dimension", .str f.dimension), ("op", .str "eq"),
    ("value", Json.object [("type", .str f.ty), ("value", .str f.value)])]

def semanticOrContractBody (view : BoundDataView) (selection : Option SemanticSelection)
    (auth : SessionAuthorization) : Json :=
  let authorization := (sentAuthorization view auth).toJson
  match selection with
  | some sel =>
      let semantic := Json.object [("provider", .str view.contract),
        ("measures", .arr (sel.measures.map .str)),
        ("dimensions", .arr (sel.dimensions.map .str)),
        ("filters", .arr (sel.filters.map filterJson))]
      Json.object [("contract_version", .str (trim CONTRACT_VERSION)), ("kind", .str "semantic"),
        ("semantic", semantic), ("authorization", authorization), ("limits", requestLimits),
        ("parameters", Json.object [])]
  | none =>
      Json.object [("contract_version", .str (trim CONTRACT_VERSION)),
        ("kind", .str "structured_query"), ("contract", .str view.contract),
        ("authorization", authorization), ("limits", requestLimits),
        ("parameters", view.parameters)]

/-- A request to the structured-evidence plane. -/
structure MatrixRequest where
  url : String
  deadlineMs : ℕ
  uid : String
  token : Option String
  body : Json

/-- Whatever comes of a request. -/
inductive MatrixReply where
  | timeout
  | unreachable
  | answered (status : ℕ) (body : Json)

def matrixRefusal (body : Json) (view : String) : EvidenceBlock :=
  let r := (body.get "refusal").getD body
  let code := ((r.get "code").bind Json.asStr).getD REFUSAL_REJECTED
  .refusal ⟨code, "the structured-evidence plane declined this request", some view⟩

def asBool : Json → Option Bool
  | .bool b => some b
  | _ => none

def cellText [FloatText] : Json → Option String
  | .null => none
  | .str s => some s
  | other => some other.display

/-- `format!("r{:04}", i + 1)`. -/
def positionId (i : ℕ) : String :=
  let digits := Nat.toDigits 10 (i + 1)
  String.ofList ('r' :: (List.replicate (4 - digits.length) '0' ++ digits))

def parseTable [FloatText] (body : Json) (truncated : Bool) (evidenceId : Option String) :
    TableBlock :=
  let schema := (body.get "manifest").bind fun m => m.get "schema"
  let columns := ((schema.bind fun s => s.get "columns").bind Json.asArray).getD []
  let rows := ((body.get "rows").bind Json.asArray).getD []
  { columns := columns.map fun c => ((c.get "name").bind Json.asStr).getD ""
    rows := rows.map fun row => (((row.get "cells").bind Json.asArray).getD []).map cellText
    rowIds := rows.mapIdx fun i row => ((row.get "row_id").bind Json.asStr).getD (positionId i)
    truncated := truncated
    evidenceId := evidenceId }

def parseMatrixResult [FloatText] (body : Json) (view : String) : EvidenceBlock :=
  let kind := ((body.get "kind").bind Json.asStr).getD ""
  let evidenceId := (body.get "evidence_id").bind Json.asStr
  let completeness := (body.get "manifest").bind fun m => m.get "completeness"
  let truncated := (((completeness.bind fun c => c.get "truncated").bind asBool).or
    ((body.get "truncated").bind asBool)).getD false
  if kind = "count" then
    match ((body.get "value").bind Json.asStr).bind parseI64 with
    | some value =>
        .count {
          value := value
          rowsCovered := (completeness.bind fun c => c.get "rows_covered").bind Json.asI64
          rowsExcluded := (completeness.bind fun c => c.get "rows_excluded").bind Json.asI64
          exclusionReason := (completeness.bind fun c => c.get "exclusion_reason").bind Json.asStr
          evidenceId := evidenceId }
    | none => refuse REFUSAL_UNAVAILABLE
        "the structured-evidence plane returned a count with no readable value" (some view)
  else if kind = "complete_table" then .completeTable (parseTable body truncated evidenceId)
  else if kind = "refusal" then matrixRefusal body view
  else refuse REFUSAL_UNAVAILABLE
    ("the structured-evidence plane returned an unrecognised block kind '" ++ kind ++ "'")
    (some view)

/-- What a fetch sent, the authorization within it, and what it answered. -/
structure Fetched where
  sent : Option (MatrixRequest × SentAuthorization)
  block : EvidenceBlock
  breaker : CircuitBreaker

namespace MatrixProvider

def id : String := "matrix"

/-- The view that a source names. -/
def viewOf (p : MatrixProvider) (source : String) : Option (String × BoundDataView) :=
  (stripStart "matrix:" source).bind fun v => (p.views.get? v).map fun b => (v, b)

def canServe (p : MatrixProvider) (source : String) : Bool := (p.viewOf source).isSome

/-- The first view that a layer's sources name. -/
def resolve (p : MatrixProvider) (layer : EvidenceLayer) : Option (String × BoundDataView) :=
  layer.sources.findSome? p.viewOf

def request (p : MatrixProvider) (layer : EvidenceLayer) (view : BoundDataView)
    (selection : Option SemanticSelection) : MatrixRequest :=
  { url := trimEndMatches '/' p.baseUrl ++ "/v1/" ++ view.kind.route ++ "/" ++ view.contract ++
      "/execute"
    deadlineMs := layer.deadlineMs.getD 10000
    uid := p.auth.uid
    token := p.token
    body := semanticOrContractBody view selection p.auth }

/-- What a reply is made into. -/
def receive [FloatText] (p : MatrixProvider) (viewName : String) (later : ℕ) :
    MatrixReply → EvidenceBlock × CircuitBreaker
  | .timeout =>
      (refuse REFUSAL_TIMEOUT "the structured-evidence plane did not answer in time"
        (some viewName), p.breaker.recordFailure later)
  | .unreachable =>
      (refuse REFUSAL_UNAVAILABLE "the structured-evidence plane could not be reached"
        (some viewName), p.breaker.recordFailure later)
  | .answered status body =>
      if 200 ≤ status ∧ status < 300 then
        (parseMatrixResult body viewName, p.breaker.recordSuccess)
      else if 500 ≤ status ∧ status < 600 then
        (matrixRefusal body viewName, p.breaker.recordFailure later)
      else (matrixRefusal body viewName, p.breaker.recordSuccess)

/-- The selection that a view is asked with; `none` where a semantic view has none. -/
def selectionFor (intent : QueryIntent) (viewName : String) (view : BoundDataView) :
    Option (Option SemanticSelection) :=
  if view.kind.isSemantic then (intent.selections.get? viewName).map some else some none

/-- The plane answers a request as it likes. -/
def fetch [FloatText] (p : MatrixProvider) (now later : ℕ) (plane : MatrixRequest → MatrixReply)
    (layer : EvidenceLayer) (intent : QueryIntent) : Fetched :=
  match p.resolve layer with
  | none =>
      ⟨none, refuse REFUSAL_UNBOUND "this layer names no data view this runbook declares" none,
        p.breaker⟩
  | some (viewName, view) =>
      if p.breaker.isOpen now then
        ⟨none, refuse REFUSAL_CIRCUIT_OPEN
          "the structured-evidence plane is unavailable and is not being retried yet"
          (some viewName), p.breaker⟩
      else
        match selectionFor intent viewName view with
        | none =>
            ⟨none, refuse REFUSAL_INTENT_UNRESOLVED
              ("no semantic selection was resolved for this view; the runbook's \x60intent\x60 " ++
                "task chooses its measures and dimensions and none was produced")
              (some viewName), p.breaker⟩
        | some selection =>
            let rq := p.request layer view selection
            let (block, breaker) := p.receive viewName later (plane rq)
            ⟨some (rq, sentAuthorization view p.auth), block, breaker⟩

theorem stripStart_append (p s : String) : stripStart p (p ++ s) = some s := by
  have hp : startsWith p (p ++ s) = true := by
    rw [startsWith, String.toList_append, List.isPrefixOf_iff_prefix]
    exact List.prefix_append _ _
  rw [stripStart, if_pos hp, String.toList_append, List.drop_left, String.ofList_toList]

theorem stripStart_eq_some {p s rest : String} (h : stripStart p s = some rest) :
    s = p ++ rest := by
  unfold stripStart at h
  split_ifs at h with hp
  have hrest := Option.some.inj h
  obtain ⟨tail, htail⟩ := List.isPrefixOf_iff_prefix.mp hp
  rw [← htail, List.drop_left] at hrest
  apply String.toList_inj.mp
  rw [String.toList_append, ← hrest, String.toList_ofList, htail]

section
variable {p : MatrixProvider} {layer : EvidenceLayer}

/-- A view is read only by a session that dominates it, and no more is sent than the session
holds, nor more than the view asks for. -/
structure Governed (p : MatrixProvider) (layer : EvidenceLayer) (f : Fetched) : Prop where
  read : ∀ rq sent, f.sent = some (rq, sent) →
    ∃ name view, p.resolve layer = some (name, view) ∧ p.auth.Dominates view ∧
      rq.body["authorization"] = sent.toJson ∧
      (sent.accessLevel ≤ p.auth.accessLevel ∧ ∀ c ∈ sent.compartments, c ∈ p.auth.compartments) ∧
      sent.accessLevel ≤ view.accessLevel ∧
        (view.compartments ≠ [] → ∀ c ∈ sent.compartments, c ∈ view.compartments)

/-- What is sent is at most what the session holds and at most what the view asks for. -/
theorem sentAuthorization_bounds (view : BoundDataView) (auth : SessionAuthorization) :
    ((sentAuthorization view auth).accessLevel ≤ auth.accessLevel ∧
      ∀ c ∈ (sentAuthorization view auth).compartments, c ∈ auth.compartments) ∧
    (sentAuthorization view auth).accessLevel ≤ view.accessLevel ∧
      (view.compartments ≠ [] →
        ∀ c ∈ (sentAuthorization view auth).compartments, c ∈ view.compartments) := by
  refine ⟨⟨min_le_left _ _, ?_⟩, min_le_right _ _, ?_⟩
  · intro c hc
    exact List.mem_of_mem_filter hc
  · intro hne c hc
    have hkept := List.of_mem_filter hc
    simpa [List.isEmpty_iff, hne] using hkept

theorem body_authorization (view : BoundDataView) (selection : Option SemanticSelection)
    (auth : SessionAuthorization) :
    (semanticOrContractBody view selection auth)["authorization"] =
      (sentAuthorization view auth).toJson := by
  cases selection with
  | none =>
    apply Json.index_object
    · simp only [List.map_cons, List.map_nil]
      decide
    · simp
  | some sel =>
    apply Json.index_object
    · simp only [List.map_cons, List.map_nil]
      decide
    · simp

theorem resolve_get {name : String} {view : BoundDataView}
    (h : p.resolve layer = some (name, view)) : p.views.get? name = some view := by
  obtain ⟨source, -, hview⟩ := List.exists_of_findSome?_eq_some h
  obtain ⟨v, -, hmap⟩ := Option.bind_eq_some_iff.mp hview
  obtain ⟨b, hb, heq⟩ := Option.map_eq_some_iff.mp hmap
  cases heq
  exact hb

/-- A layer that reads one view. -/
def viewLayer (name : String) : EvidenceLayer :=
  ⟨name, ["matrix:" ++ name], .required, .controlling, none, false, none⟩

/-- An intent with a selection for one view. -/
def viewIntent (name : String) : QueryIntent :=
  ⟨"", none, true, SortedMap.empty.insert name ⟨[], [], []⟩⟩

theorem resolve_viewLayer {name : String} {view : BoundDataView}
    (h : p.views.get? name = some view) : p.resolve (viewLayer name) = some (name, view) := by
  simp [resolve, viewLayer, viewOf, stripStart_append, h]

variable [FloatText] {now later : ℕ} {plane : MatrixRequest → MatrixReply} {intent : QueryIntent}

/-- When a fetch sends, and what. -/
theorem fetch_sent {rq : MatrixRequest} {sent : SentAuthorization}
    (h : (p.fetch now later plane layer intent).sent = some (rq, sent)) :
    p.breaker.isOpen now = false ∧ ∃ name view selection, p.resolve layer = some (name, view) ∧
      rq = p.request layer view selection ∧ sent = sentAuthorization view p.auth := by
  unfold fetch at h
  split at h
  · cases h
  · rename_i name view hresolve
    split_ifs at h with hopen
    · split at h
      · cases h
      · rename_i selection _
        simp only [Option.some.injEq, Prod.mk.injEq] at h
        exact ⟨Bool.not_eq_true _ ▸ hopen, name, view, selection, hresolve, h.1.symm, h.2.symm⟩

/-- Every declared view is asked by some layer and intent, unless the breaker is open. -/
theorem fetch_closed (plane : MatrixRequest → MatrixReply) {name : String} {view : BoundDataView}
    (h : p.views.get? name = some view) (hclosed : p.breaker.isOpen now = false) :
    ∃ rq sent, (p.fetch now 0 plane (viewLayer name) (viewIntent name)).sent =
      some (rq, sent) := by
  have hselection : ∃ selection, selectionFor (viewIntent name) name view = some selection := by
    unfold selectionFor
    split_ifs
    · exact ⟨some ⟨[], [], []⟩, by simp [viewIntent]⟩
    · exact ⟨none, rfl⟩
  obtain ⟨selection, hselection⟩ := hselection
  refine ⟨p.request (viewLayer name) view selection, sentAuthorization view p.auth, ?_⟩
  simp [fetch, resolve_viewLayer h, hclosed, hselection]

end

end MatrixProvider

/-- A slice of facts at a pinned version: what the store answers for a scope. -/
structure FactProvider where
  sliceFacts : String → Option String → Result (List Claim)

/-- `trim_start_matches`. -/
def trimStartMatches (p : List Char) : ℕ → List Char → List Char
  | 0, cs => cs
  | fuel + 1, cs => if p.isPrefixOf cs then trimStartMatches p fuel (cs.drop p.length) else cs

namespace FactProvider

def id : String := "facts"

def canServe (source : String) : Bool := startsWith "facts:" source

def scopeOf (layer : EvidenceLayer) : Option String :=
  (layer.sources.find? fun s => startsWith "scope:" s).map fun s =>
    String.ofList (trimStartMatches "scope:".toList s.toList.length s.toList)

def fetch (p : FactProvider) (layer : EvidenceLayer) : Result EvidenceBlock :=
  match layer.sources.findSome? (stripStart "facts:") with
  | none => .ok (refuse REFUSAL_UNBOUND "this layer names no memory version" none)
  | some versionId =>
      match p.sliceFacts versionId (scopeOf layer) with
      | .ok claims => .ok (.factSlice claims)
      | .error (.notFound _ _) =>
          .ok (refuse REFUSAL_UNAVAILABLE "the pinned memory version is not readable" none)
      | .error e => .error e

theorem fetch_not_documentHits {p : FactProvider} {layer : EvidenceLayer} {b : EvidenceBlock}
    (h : p.fetch layer = .ok b) : b.isDocumentHits = false := by
  unfold fetch at h
  split at h
  · cases h
    rfl
  · split at h
    · cases h
      rfl
    · cases h
      rfl
    · cases h

end FactProvider

namespace MatrixProvider

theorem receive_not_documentHits [FloatText] (p : MatrixProvider) (name : String) (later : ℕ)
    (reply : MatrixReply) : (p.receive name later reply).1.isDocumentHits = false := by
  cases reply with
  | timeout | unreachable => rfl
  | answered status body =>
    simp only [receive]
    split_ifs
    · unfold parseMatrixResult
      simp only
      split_ifs
      · split <;> rfl
      · rfl
      · rfl
      · rfl
    · rfl
    · rfl

/-- The plane's provider never answers with documents. -/
theorem fetch_not_documentHits [FloatText] (p : MatrixProvider) (now later : ℕ)
    (plane : MatrixRequest → MatrixReply) (layer : EvidenceLayer) (intent : QueryIntent) :
    (p.fetch now later plane layer intent).block.isDocumentHits = false := by
  unfold fetch
  split
  · rfl
  · split_ifs
    · rfl
    · split
      · rfl
      · exact receive_not_documentHits _ _ _ _

/-- A register that only level 3 with the tag `hr` may read. -/
def payroll : DataViewSpec := ⟨"payroll", "payroll@1", .contract, SortedMap.empty, 3, ["hr"]⟩

def guest : SessionAuthorization := ⟨"t", "u", 0, [], "ses-1", "rb@1"⟩

def clerk : SessionAuthorization := ⟨"t", "u", 3, ["hr", "it"], "ses-2", "rb@1"⟩

def payrollProvider (auth : SessionAuthorization) : MatrixProvider :=
  { baseUrl := "http://matrix"
    token := none
    auth := auth
    views := SortedMap.empty.insert "payroll" (bindView payroll)
    breaker := ⟨0, 0, 5, 30000⟩ }

theorem payroll_view (auth : SessionAuthorization) :
    (payrollProvider auth).views.get? "payroll" = some (bindView payroll) :=
  SortedMap.get?_insert_self _ _ _

end MatrixProvider
end Munarium
