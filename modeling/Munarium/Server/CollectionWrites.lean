import Munarium.Evidence.Seal
import Munarium.Platform.Transaction
import Munarium.Server.Governing
import Munarium.Server.Vocabulary

/-! The requests that change a collection's policy or vocabulary, as programs on the shared
database: they read the rest of the server as it is at each step. -/
namespace Munarium

open Shared

structure CollectionInfo where
  id : String
  name : String
  accessLevel : ℤ
  compartments : List String
  status : String
  deriving DecidableEq

/-- Level dominance, and every compartment tag of the collection. -/
def AccessCtx.permits (a : AccessCtx) (level : ℤ) (compartments : List String) : Bool :=
  level ≤ a.level.toInt &&
    (a.allCompartments || compartments.all fun c => a.compartments.contains c)

structure CompleteReply where
  stopReason : String
  text : String
  provider : String
  model : String
  inputTokens : ℕ
  outputTokens : ℕ

/-- A sampled document as the vocabulary prompt carries it. -/
structure SampledDocument where
  sourceId : String
  hash : String
  text : String
  deriving DecidableEq

/-- A configured provider: its family, and the model it serves a tier with. -/
structure ProviderEntry where
  provider : String
  completeModel : String → Result String

def ProviderEntry.isLocal (e : ProviderEntry) : Bool :=
  e.provider == "ollama" || e.provider == "local"

/-- What a request sees of the server beside the two tables: capabilities, the catalogue of
collections, sources, settings, providers and the clock. -/
class CollectionWorld (ω : Type) where
  access : ω → String → Result AccessCtx
  collectionById : ω → String → String → Result CollectionInfo
  collectionByName : ω → String → String → Result CollectionInfo
  indexed : ω → String → CollectionPublication → String → Result Bool
  scopeReadable : ω → String → String → Result Unit
  now : ω → ℤ
  newLease : ω → String
  draining : ω → Bool
  automaticCandidates : ω → String → Result (List String)
  settings : ω → String → Result VocabularySettings
  providerOf : ω → String → String → Result ProviderEntry
  corpusFingerprint : ω → String → String → Result String
  candidates : ω → String → String → List String → Result (List (String × String))
  sourceSample : ω → String → String → ℕ → Result (String × String)
  generateGroups : ω → String → String → String → ℕ → List SampledDocument → Result CompleteReply
  sourceHash : ω → String → String → Result String

/-- `serde_json` on the reply: an object with the one field `groups`. -/
class GroupsText where
  parse : String → Option (List (List String))

structure CollectionDb (ω : Type) where
  governance : GovernanceTable
  vocabularies : VocabularyTable
  world : ω

namespace CollectionDb
variable {ω : Type}

def setVocabularies (s : CollectionDb ω) (T : VocabularyTable) : CollectionDb ω :=
  { s with vocabularies := T }

@[simp] theorem setVocabularies_governance (s : CollectionDb ω) (T : VocabularyTable) :
    (s.setVocabularies T).governance = s.governance := rfl

@[simp] theorem setVocabularies_vocabularies (s : CollectionDb ω) (T : VocabularyTable) :
    (s.setVocabularies T).vocabularies = T := rfl

/-- What the parties may do to the database: policies gain revisions, vocabularies go on. -/
def Moves [CalendarText] (s t : CollectionDb ω) : Prop :=
  s.governance.Published t.governance ∧ VocabularyTable.Sound s.vocabularies t.vocabularies

/-- What holds of the tables at all times. -/
structure Sound [CalendarText] (s : CollectionDb ω) : Prop where
  governance : s.governance.History
  vocabularies : s.vocabularies.Positive

variable [CalendarText]

theorem Moves.refl (s : CollectionDb ω) : s.Moves s := ⟨.refl, .refl _⟩

theorem Moves.trans {s t u : CollectionDb ω} (h : s.Moves t) (h' : t.Moves u) : s.Moves u :=
  ⟨h.1.trans h'.1, h.2.trans h'.2⟩

theorem Moves.sound {s t : CollectionDb ω} (h : s.Moves t) (hs : s.Sound) : t.Sound :=
  ⟨h.1.history hs.governance, h.2.2 hs.vocabularies⟩

/-- A request's own step: the tables move, and the rest of the server stays. -/
def Writes (s t : CollectionDb ω) : Prop := s.Moves t ∧ t.world = s.world

theorem Writes.refl (s : CollectionDb ω) : s.Writes s := ⟨.refl s, rfl⟩

theorem writes_setVocabularies (s : CollectionDb ω) {T : VocabularyTable}
    (h : VocabularyTable.Sound s.vocabularies T) : s.Writes (s.setVocabularies T) :=
  ⟨⟨.refl, h⟩, rfl⟩

end CollectionDb

section Programs
variable {ω α : Type} [CollectionWorld ω]

open CollectionWorld

/-- By id, and where there is none by name. -/
def collection (tenant name : String) (next : CollectionInfo → Shared (CollectionDb ω) (Result α)) :
    Shared (CollectionDb ω) (Result α) :=
  read (fun s => collectionById s.world tenant name) fun
    | .ok info => next info
    | .error (.notFound _ _) =>
        read (fun s => collectionByName s.world tenant name) (onOk next)
    | .error e => .done (.error e)

section Governance
variable [CalendarText]

/-- Each publication bound to the index of its member collection, which is separate and not
above the parent's clearance. -/
def bindMembers (tenant : String) (info : CollectionInfo)
    (next : List CollectionPublication → Shared (CollectionDb ω) (Result α))
    (bound : List CollectionPublication) :
    List CollectionPublication → Shared (CollectionDb ω) (Result α)
  | [] => next bound
  | p :: rest =>
      collection tenant p.collection fun member =>
        if member.id = info.id ∨ info.accessLevel < member.accessLevel then
          .done (.error (.invalidInput
            "member index must be separate and not exceed parent clearance"))
        else read (fun s => indexed s.world tenant p member.id) (onOk fun found =>
          if !found && p.state ≠ "withdrawn" then
            .done (.error (.invalidInput "publication does not match its indexed source"))
          else bindMembers tenant info next (bound ++ [{ p with collection := member.id }]) rest)

def replaceIn (u : GovernanceUpdate) (s : CollectionDb ω) :
    Result CollectionGovernance × CollectionDb ω :=
  let (answer, rows) := s.governance.replace u
  (answer, { s with governance := rows })

def replaceCollectionGovernance (tenant name actorUid : String) (body : CollectionGovernance) :
    Shared (CollectionDb ω) (Result CollectionGovernance) :=
  collection tenant name fun info => onOk (fun _ =>
    bindMembers tenant info (fun publications =>
      call (replaceIn ⟨tenant, info.id, { body with publications := publications }, actorUid⟩)
        .done) [] body.publications) (CollectionGovernance.validate body none)

end Governance

def getCollectionGovernance (tenant name : String) :
    Shared (CollectionDb ω) (Result CollectionGovernance) :=
  collection tenant name fun info =>
    read (fun s => s.governance.load tenant info.id) fun policy => .done (.ok (policy.getD {}))

/-- A capability that sees the collection. -/
def authorized (token name : String)
    (next : AccessCtx → CollectionInfo → Shared (CollectionDb ω) (Result α)) :
    Shared (CollectionDb ω) (Result α) :=
  read (fun s => access s.world token) (onOk fun a =>
    collection a.tenantId name fun info =>
      if info.status ≠ "active" ∨ !a.permits info.accessLevel info.compartments then
        .done (.error (.notFound "collection" name))
      else next a info)

def loadVocabulary (tenant id : String) (next : Vocabulary → Shared (CollectionDb ω) (Result α)) :
    Shared (CollectionDb ω) (Result α) :=
  read (fun s => scopeReadable s.world tenant id) (onOk fun _ =>
    read (fun s => s.vocabularies.load (now s.world) tenant id) next)

section Vocabulary
variable [Unicode]

def saveIn (tenant id : String) (value : Vocabulary) (expected : ℤ) (s : CollectionDb ω) :
    Result Vocabulary × CollectionDb ω :=
  let (answer, T) := s.vocabularies.save tenant id value expected
  (answer, s.setVocabularies T)

def VocabularyUpdate.apply (u : VocabularyUpdate) (value : Vocabulary) : Vocabulary :=
  let value := if value.groups = u.groups then value
    else { value with origin := "manual", status := "ready" }
  { value with
    enabled := u.enabled
    autoGenerate := u.autoGenerate
    sampling := u.sampling
    groups := u.groups }

def VocabularyPatch.apply (u : VocabularyPatch) (value : Vocabulary) : Vocabulary :=
  let value := { value with enabled := u.enabled.getD value.enabled }
  let value := { value with autoGenerate := u.autoGenerate.or value.autoGenerate }
  match u.groups with
  | none => value
  | some groups => { value with groups := groups, origin := "manual", status := "ready" }

/-- Reading a vocabulary, changing it, and storing it over the revision the caller names. -/
def editVocabulary (change : Vocabulary → Vocabulary) (revision : ℤ) (tenant id : String) :
    Shared (CollectionDb ω) (Result Vocabulary) :=
  loadVocabulary tenant id fun value => call (saveIn tenant id (change value) revision) .done

def putVocabulary (token name : String) (body : VocabularyUpdate) :
    Shared (CollectionDb ω) (Result Vocabulary) :=
  authorized token name fun a info => editVocabulary body.apply body.revision a.tenantId info.id

def patchVocabulary (token name : String) (body : VocabularyPatch) :
    Shared (CollectionDb ω) (Result Vocabulary) :=
  authorized token name fun a info => editVocabulary body.apply body.revision a.tenantId info.id

def getVocabulary (token name : String) : Shared (CollectionDb ω) (Result Vocabulary) :=
  authorized token name fun a info => loadVocabulary a.tenantId info.id fun value =>
    .done (.ok value)

section Generation

/-- The documents a generation looks at: those with text. -/
def sampleDocuments (tenant : String) (characters : ℕ)
    (next : List SampledDocument → Shared (CollectionDb ω) (Result α))
    (documents : List SampledDocument) :
    List String → Shared (CollectionDb ω) (Result α)
  | [] => next documents
  | id :: rest =>
      read (fun s => sourceSample s.world tenant id characters) (onOk fun (hash, text) =>
        sampleDocuments tenant characters next
          (if (trim text).isEmpty then documents else documents ++ [⟨id, hash, text⟩]) rest)

def recheckSources (tenant : String) (next : Shared (CollectionDb ω) (Result α)) :
    List SampledDocument → Shared (CollectionDb ω) (Result α)
  | [] => next
  | d :: rest =>
      read (fun s => sourceHash s.world tenant d.sourceId) (onOk fun hash =>
        if hash ≠ d.hash then
          .done (.error (.invalidInput "sampled source changed during generation"))
        else recheckSources tenant next rest)

/-- A group is grounded by a phrase that occurs in one of the documents. -/
def grounded (documents : List SampledDocument) (group : List String) : Bool :=
  group.any fun term => documents.any fun d => containsText (toLowercase term) (toLowercase d.text)

variable [GroupsText]

/-- What is taken from the reply of the model. -/
def acceptGroups (maxGroups : ℕ) (documents : List SampledDocument) (reply : CompleteReply) :
    Result (List (List String)) :=
  if ["length", "max_tokens", "content_filter"].contains reply.stopReason then
    .error (.provider "vocabulary generation did not complete")
  else match GroupsText.parse reply.text with
    | none => .error (.provider "invalid vocabulary response")
    | some groups => do
        validateGroups groups
        if maxGroups < groups.length || groups.any fun g => !grounded documents g then
          throw (.provider "generated vocabulary did not match its sampled documents")
        return groups

/-- What a generation goes by, once it holds its lease. -/
structure GenerationPlan where
  tenant : String
  id : String
  config : VocabularySettings
  governance : Option CollectionGovernance
  provider : String
  tier : String
  fingerprint : String
  value : Vocabulary
  sampling : Sampling
  chosen : List String
  lease : String

def GenerationPlan.result (p : GenerationPlan) (groups : List (List String)) : Vocabulary :=
  { p.value with
    groups := groups
    origin := "generated"
    status := "ready"
    sampledSources := p.chosen
    corpusFingerprint := p.fingerprint }

def completeIn (p : GenerationPlan) (groups : List (List String)) (s : CollectionDb ω) :
    Result Vocabulary × CollectionDb ω :=
  match s.vocabularies.complete p.tenant p.id p.value.revision p.lease (p.result groups) with
  | (some revision, T) => (.ok { p.result groups with revision := revision }, s.setVocabularies T)
  | (none, T) => (.error (.invalidInput "vocabulary changed during generation; result discarded"),
      s.setVocabularies T)

/-- The work under the lease: sample, ask, and store only if nothing it rests on has changed. -/
def generateUnder (p : GenerationPlan) : Shared (CollectionDb ω) (Result Vocabulary) :=
  sampleDocuments p.tenant p.sampling.charactersPerDocument (fun documents =>
    if documents.isEmpty then
      .done (.error (.invalidInput "sampled sources contained no extractable text"))
    else
      read (fun s => generateGroups s.world p.tenant p.provider p.tier p.config.maxGroups documents)
        (onOk fun reply => onOk (fun groups =>
          read (fun s => settings s.world p.tenant) (onOk fun config =>
          if config ≠ p.config then
            .done (.error (.invalidInput "vocabulary defaults changed during generation"))
          else read (fun s => s.governance.load p.tenant p.id) fun governance =>
          if governance.map CollectionGovernance.revision ≠
              p.governance.map CollectionGovernance.revision then
            .done (.error (.invalidInput "collection governance changed during generation"))
          else recheckSources p.tenant
            (read (fun s => collectionById s.world p.tenant p.id) (onOk fun info =>
            if info.status ≠ "active" then
              .done (.error (.invalidInput "collection retired during generation"))
            else read (fun s => corpusFingerprint s.world p.tenant p.id) (onOk fun fingerprint =>
            if fingerprint ≠ p.fingerprint then
              .done (.error (.invalidInput "collection sources changed during generation"))
            else call (completeIn p groups) .done))) documents))
        (acceptGroups p.config.maxGroups documents reply)))
    [] p.chosen

def abandonIn (p : GenerationPlan) (s : CollectionDb ω) : CollectionDb ω :=
  s.setVocabularies (s.vocabularies.abandon p.tenant p.id p.value.revision p.lease)

/-- A failed generation gives its lease back. -/
def settleGeneration (p : GenerationPlan) :
    Result Vocabulary → Shared (CollectionDb ω) (Result Vocabulary)
  | .ok value => .done (.ok value)
  | .error e => .step (abandonIn p) fun _ => .done (.error e)

def claimIn (p : GenerationPlan) (s : CollectionDb ω) : Bool × CollectionDb ω :=
  let (claimed, T) := s.vocabularies.claim p.tenant p.id p.value.revision p.lease (now s.world)
  (claimed, s.setVocabularies T)

/-- Claiming the lease, for a vocabulary that has a row by now. -/
def claimAndGenerate (p : GenerationPlan) : Shared (CollectionDb ω) (Result Vocabulary) :=
  read (fun s => newLease s.world) fun lease =>
    let p := { p with lease := lease }
    call (claimIn p) fun claimed =>
      if !claimed then .done (.error (.invalidInput
        "vocabulary generation is already running or the configuration changed"))
      else (generateUnder p).bind (settleGeneration p)

def ensureRow (p : GenerationPlan) : Shared (CollectionDb ω) (Result Vocabulary) :=
  if p.value.revision = 0 then
    call (saveIn p.tenant p.id p.value 0) (onOk fun value =>
      claimAndGenerate { p with value := value })
  else claimAndGenerate p

/-- A collection that keeps its text from outside providers is served by a local one. -/
def checkProcessing (tenant provider : String) (governance : Option CollectionGovernance)
    (next : Shared (CollectionDb ω) (Result α)) : Shared (CollectionDb ω) (Result α) :=
  if governance.any fun g => !g.query.enabled then
    .done (.error (.invalidInput "collection publication is disabled"))
  else if governance.any fun g => !g.query.allowExternalProcessing then
    read (fun s => providerOf s.world tenant provider) (onOk fun entry =>
      if !entry.isLocal then .done (.error (.forbidden
        "external vocabulary processing is disabled for this collection"))
      else next)
  else next

def generationAllowed (config : VocabularySettings) (value : Vocabulary) : Bool :=
  value.enabled && value.autoGenerate.getD config.autoGenerate && value.origin != "manual"

def generate (tenant id : String) (expected : ℤ) (selected : List String) (automatic : Bool) :
    Shared (CollectionDb ω) (Result Vocabulary) :=
  read (fun s => settings s.world tenant) (onOk fun config =>
  read (fun s => s.governance.load tenant id) fun governance =>
  let provider := (governance.bind fun g => g.query.provider).getD config.provider
  let tier := (governance.bind fun g => g.query.tier).getD config.tier
  checkProcessing tenant provider governance
  (read (fun s => corpusFingerprint s.world tenant id) (onOk fun fingerprint =>
  loadVocabulary tenant id fun value =>
  if automatic && !generationAllowed config value then
    .done (.error (.invalidInput "automatic vocabulary generation is disabled"))
  else if value.revision ≠ expected then
    .done (.error (.invalidInput "vocabulary changed; reload before generating"))
  else
    let sampling := value.sampling.getD config.sampling
    onOk (fun _ =>
    read (fun s => candidates s.world tenant id sampling.mediaTypes) (onOk fun found =>
    if sampling.documentCount < selected.length || !decide selected.Nodup ||
        selected.any fun id => !found.any fun c => c.1 == id then
      .done (.error (.invalidInput
        "selected sources must belong to this collection and fit its sampling policy"))
    else
      let chosen := if selected.isEmpty then sample found sampling else selected
      if chosen.isEmpty then .done (.error (.invalidInput
        "no eligible source documents are available for vocabulary generation"))
      else ensureRow ⟨tenant, id, config, governance, provider, tier, fingerprint, value,
        sampling, chosen, ""⟩)) sampling.validate)))

/-- `POST …/vocabulary/refresh`; the timer drops the generation after some of its steps. -/
def refresh (token name : String) (revision : ℤ) (sourceIds : List String) (steps : ℕ) :
    Shared (CollectionDb ω) (Result Vocabulary) :=
  authorized token name fun a info =>
    ((generate a.tenantId info.id revision sourceIds false).cut steps).bind fun
      | none => .done (.error (.invalidInput "vocabulary generation timed out"))
      | some (.error e) => .done (.error e)
      | some (.ok value) => authorized token name fun _ _ => .done (.ok value)

def attemptIn (tenant id : String) (revision : ℤ) (s : CollectionDb ω) : CollectionDb ω :=
  s.setVocabularies (s.vocabularies.attempt tenant id revision (now s.world))

def markFailedIn (tenant id : String) (revision : ℤ) (s : CollectionDb ω) : CollectionDb ω :=
  s.setVocabularies (s.vocabularies.markFailed tenant id revision (now s.world))

/-- One collection of the worker's batch, with a row. -/
def attemptGeneration (tenant id : String) (value : Vocabulary) (steps : ℕ)
    (next : Shared (CollectionDb ω) (Result Unit)) : Shared (CollectionDb ω) (Result Unit) :=
  .step (attemptIn tenant id value.revision) fun _ =>
    let generateNow := ((generate tenant id value.revision [] true).cut steps).bind fun
      | some (.ok _) => next
      | _ => .step (markFailedIn tenant id value.revision) fun _ => next
    if value.origin = "generated" then
      read (fun s => corpusFingerprint s.world tenant id) (onOk fun fingerprint =>
        if fingerprint = value.corpusFingerprint then next else generateNow)
    else generateNow

/-- The worker's collections, one after the other. -/
def generateEach (tenant : String) (steps : String → ℕ) :
    List String → Shared (CollectionDb ω) (Result Unit)
  | [] => .done (.ok ())
  | id :: rest =>
      read (fun s => draining s.world) fun stop =>
      if stop then .done (.ok ())
      else read (fun s => settings s.world tenant) (onOk fun config =>
        loadVocabulary tenant id fun value =>
          if !generationAllowed config value then generateEach tenant steps rest
          else if value.revision = 0 then
            call (saveIn tenant id value 0) fun
              | .error _ => generateEach tenant steps rest
              | .ok _ => loadVocabulary tenant id fun value =>
                  attemptGeneration tenant id value (steps id) (generateEach tenant steps rest)
          else attemptGeneration tenant id value (steps id) (generateEach tenant steps rest))

def automaticBatch (tenant : String) (steps : String → ℕ) :
    Shared (CollectionDb ω) (Result Unit) :=
  read (fun s => automaticCandidates s.world tenant) (onOk (generateEach tenant steps))

end Generation
end Vocabulary

end Programs

instance [CalendarText] {ω : Type} : IsTrans (CollectionDb ω) CollectionDb.Moves :=
  ⟨fun _ _ _ => CollectionDb.Moves.trans⟩

section Guarantees
variable {ω α β : Type} {s : CollectionDb ω} {R G : CollectionDb ω → CollectionDb ω → Prop}
  {Q : Result α → CollectionDb ω → Prop}

open CollectionDb

theorem onOk_ensures (hQ : ∀ e t, Q (.error e) t) {r : Result β}
    {next : β → Shared (CollectionDb ω) (Result α)}
    (h : ∀ b, r = .ok b → (next b).Ensures R G Q s) : (onOk next r).Ensures R G Q s := by
  cases r with
  | error e => exact fun t _ => hQ e t
  | ok b => exact h b rfl

variable [CollectionWorld ω] [IsTrans (CollectionDb ω) R]

/-- The collection that is found: under its id, or by name where the id was not there. -/
def Located (R : CollectionDb ω → CollectionDb ω → Prop) (tenant name : String)
    (s t : CollectionDb ω) (info : CollectionInfo) : Prop :=
  CollectionWorld.collectionById t.world tenant name = .ok info ∨
    CollectionWorld.collectionByName t.world tenant name = .ok info ∧
      ∃ u kind id, R s u ∧ CollectionWorld.collectionById u.world tenant name =
        .error (.notFound kind id)

theorem collection_located (hG : ∀ t, G t t) (hQ : ∀ e t, Q (.error e) t) {tenant name : String}
    {next : CollectionInfo → Shared (CollectionDb ω) (Result α)}
    (h : ∀ t info, R s t → Located R tenant name s t info → (next info).Ensures R G Q t) :
    (collection tenant name next).Ensures R G Q s := by
  apply ensures_read hG
  intro t ht
  split
  · rename_i info hinfo
    exact h t info ht (.inl hinfo)
  · rename_i kind id hmissing
    apply ensures_read hG
    intro u hu
    exact onOk_ensures hQ fun info hinfo =>
      h u info (IsTrans.trans _ _ _ ht hu) (.inr ⟨hinfo, t, kind, id, ht, hmissing⟩)
  · exact fun u _ => hQ _ u

theorem collection_ensures (hG : ∀ t, G t t) (hQ : ∀ e t, Q (.error e) t) {tenant name : String}
    {next : CollectionInfo → Shared (CollectionDb ω) (Result α)}
    (h : ∀ t info, R s t → (next info).Ensures R G Q t) :
    (collection tenant name next).Ensures R G Q s :=
  collection_located hG hQ fun t info ht _ => h t info ht

theorem authorized_ensures (hG : ∀ t, G t t) (hQ : ∀ e t, Q (.error e) t) {token name : String}
    {next : AccessCtx → CollectionInfo → Shared (CollectionDb ω) (Result α)}
    (h : ∀ t a info, R s t → (next a info).Ensures R G Q t) :
    (authorized token name next).Ensures R G Q s := by
  apply ensures_read hG
  intro t ht
  apply onOk_ensures hQ
  intro a _
  apply collection_ensures hG hQ
  intro u info hu
  split_ifs
  · exact fun v _ => hQ _ v
  · exact h u a info (IsTrans.trans _ _ _ ht hu)

theorem loadVocabulary_ensures (hG : ∀ t, G t t) (hQ : ∀ e t, Q (.error e) t)
    {tenant id : String} {next : Vocabulary → Shared (CollectionDb ω) (Result α)}
    (h : ∀ t, R s t →
      (next (t.vocabularies.load (CollectionWorld.now t.world) tenant id)).Ensures R G Q t) :
    (loadVocabulary tenant id next).Ensures R G Q s := by
  apply ensures_read hG
  intro t ht
  apply onOk_ensures hQ
  intro _ _
  exact ensures_read hG fun u hu => h u (IsTrans.trans _ _ _ ht hu)

end Guarantees

section Guarantees
variable {ω α β : Type} [CollectionWorld ω] [CalendarText] {s : CollectionDb ω}
  {G : CollectionDb ω → CollectionDb ω → Prop} {Q : Result α → CollectionDb ω → Prop}

open CollectionDb

section Governance

omit [CollectionWorld ω] in
/-- The transaction adds the revision it answers with, or leaves the table as it is. -/
theorem replaceIn_writes (u : GovernanceUpdate) (s : CollectionDb ω) :
    s.Writes (replaceIn u s).2 ∧ ∀ stored, (replaceIn u s).1 = .ok stored →
      ⟨u.tenantId, u.collectionId, u.body.revision + 1, stored, u.actorUid⟩ ∈
        (replaceIn u s).2.governance := by
  unfold replaceIn
  cases hreplace : s.governance.replace u with
  | mk answer rows =>
    cases answer with
    | error e =>
      obtain rfl := GovernanceTable.replace_error hreplace
      exact ⟨.refl s, nofun⟩
    | ok stored =>
      refine ⟨⟨⟨.single ⟨u, stored, hreplace⟩, .refl _⟩, rfl⟩, ?_⟩
      rintro _ ⟨⟩
      obtain ⟨-, -, -, -, rfl⟩ := GovernanceTable.replace_ok hreplace
      exact List.mem_append_right _ (List.mem_singleton_self _)

/-- A stored revision is there from then on. -/
theorem GovernanceTable.Published.mem {rows rows' : GovernanceTable}
    (h : GovernanceTable.Published rows rows') {r : GovernanceRow} (hr : r ∈ rows) : r ∈ rows' := by
  induction h with
  | refl => exact hr
  | tail _ hstep ih =>
    obtain ⟨u, stored, hok⟩ := hstep
    obtain ⟨-, -, -, -, rfl⟩ := GovernanceTable.replace_ok hok
    exact List.mem_append_left _ ih

/-- An accepted policy is stored as the revision after the one it was sent against. -/
def Accepted (tenant : String) (body : CollectionGovernance) (answer : Result CollectionGovernance)
    (t : CollectionDb ω) : Prop :=
  ∀ stored, answer = .ok stored → ∃ row ∈ t.governance,
    row.tenantId = tenant ∧ row.policy = stored ∧ row.revision = body.revision + 1

theorem bindMembers_ensures {tenant : String} {info : CollectionInfo}
    {next : List CollectionPublication → Shared (CollectionDb ω) (Result α)} (hG : ∀ t, G t t)
    (hQ : ∀ e t, Q (.error e) t)
    (h : ∀ t publications, s.Moves t → (next publications).Ensures Moves G Q t)
    (bound publications : List CollectionPublication) :
    (bindMembers tenant info next bound publications).Ensures Moves G Q s := by
  induction publications generalizing bound s with
  | nil => exact h s bound (.refl s)
  | cons p rest ih =>
    apply collection_ensures hG hQ
    intro t member ht
    split_ifs
    · exact fun u _ => hQ _ u
    · apply ensures_read hG
      intro u hu
      apply onOk_ensures hQ
      intro found _
      split_ifs
      · exact fun v _ => hQ _ v
      · exact ih (fun v ps hv => h v ps ((ht.trans hu).trans hv)) _

theorem replaceCollectionGovernance_ensures (s : CollectionDb ω) (tenant name actorUid : String)
    (body : CollectionGovernance) :
    (replaceCollectionGovernance tenant name actorUid body).Ensures Moves Writes
      (Accepted tenant body) s := by
  have hQ : ∀ e (t : CollectionDb ω), Accepted tenant body (.error e) t := fun _ _ => nofun
  apply collection_ensures Writes.refl hQ
  intro t info _
  apply onOk_ensures hQ
  intro _ _
  apply bindMembers_ensures Writes.refl hQ
  intro u publications _
  apply ensures_call
  intro v _
  obtain ⟨hwrites, hstored⟩ := replaceIn_writes
    ⟨tenant, info.id, { body with publications := publications }, actorUid⟩ v
  refine ⟨hwrites, fun w hw stored hok => ?_⟩
  exact ⟨_, hw.1.mem (hstored stored hok), rfl, rfl, rfl⟩

end Governance

end Guarantees

end Munarium
