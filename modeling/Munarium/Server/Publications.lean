import Munarium.Core.Types
import Munarium.Evidence.Rfc3339

/-! Collection publication policies: what an authored policy must satisfy, and which
publications govern on a date. -/
namespace Munarium

/-- `NaiveDate::parse_from_str` with the format `%Y-%m-%d`. -/
class CalendarText where
  parse : String → Option NaiveDate

/-- The instant of `DateTime<Utc>`: seconds, then the nanoseconds the crate keeps. -/
abbrev UtcInstant := ℤ ×ₗ ℕ

/-- Nine digits of the fraction; a leap second runs on past them. -/
def Timestamp.nanosecond (t : Timestamp) : ℕ :=
  ((t.fraction ++ List.replicate 9 (digitOf '0')).take 9).foldl (fun n d => 10 * n + d.val) 0 +
    if t.second = 60 then 1000000000 else 0

def Timestamp.utc (t : Timestamp) : UtcInstant :=
  toLex ((t.localMinute - t.offset.minutes) * 60 + (min t.second 59 : ℕ), t.nanosecond)

structure CollectionPublication where
  id : String
  documentId : String
  collection : String
  indexVersion : String
  sourceId : String
  sourceContentHash : String
  effectiveFrom : String
  effectiveUntil : Option String
  publishedAt : String
  state : String
  deriving DecidableEq

structure DocumentRelation where
  fromDocument : String
  toDocument : String
  kind : String
  effectiveFrom : String
  effectiveUntil : Option String
  deriving DecidableEq

structure AccessModelRoute where
  accessLevel : ℤ
  provider : String
  tier : String
  maxContextCharacters : ℕ
  maxOutputTokens : ℕ
  enabled : Bool
  deriving DecidableEq

structure QueryPolicy where
  enabled : Bool := true
  historicalAccessLevel : ℤ := 2
  maxPassages : ℕ := 24
  maxContextCharacters : ℕ := 60000
  retrievalConcurrency : ℕ := 20
  candidatesPerIndex : ℕ := 12
  provider : Option String := none
  tier : Option String := none
  maxOutputTokens : Option ℕ := none
  modelRoutes : List AccessModelRoute := []
  allowExternalProcessing : Bool := false
  deriving DecidableEq

structure CollectionGovernance where
  revision : ℤ := 0
  publications : List CollectionPublication := []
  relations : List DocumentRelation := []
  query : QueryPolicy := {}
  deriving DecidableEq

def QueryPolicy.forAccessLevel (q : QueryPolicy) (level : ℤ) : QueryPolicy :=
  match q.modelRoutes.find? fun r => r.accessLevel == level with
  | none => q
  | some route =>
      { q with
        provider := some route.provider
        tier := some route.tier
        maxContextCharacters := min q.maxContextCharacters route.maxContextCharacters
        maxOutputTokens := some route.maxOutputTokens
        enabled := q.enabled && route.enabled }

/-- `char::is_control`. -/
def isControl (c : Char) : Bool := c.toNat ≤ 0x1F || (0x7F ≤ c.toNat && c.toNat ≤ 0x9F)

def isAsciiHexDigit (c : Char) : Bool :=
  c.isDigit || ('a' ≤ c && c ≤ 'f') || ('A' ≤ c && c ≤ 'F')

def validateContentHash (hash : String) : Result Unit :=
  if hash.isEmpty then .error (.invalidInput "content_hash is required")
  else if !hash.toList.all isAsciiHexDigit then
    .error (.invalidInput "content_hash must be a hex digest")
  else if hash.utf8ByteSize != 64 then
    .error (.invalidInput "content_hash must be a 64-character sha-256 hex digest")
  else .ok ()

namespace CollectionGovernance

def invalid (message : String) : KernelError := .invalidInput message

/-- The elements that pass a check which may fail. -/
def keepM {α : Type} (check : α → Result Bool) : List α → Result (List α)
  | [] => .ok []
  | a :: rest => do
      let keep ← check a
      let kept ← keepM check rest
      return if keep then a :: kept else kept

theorem keepM_of_checks {α : Type} {check : α → Result Bool} {P : α → Prop} {l : List α}
    (h : ∀ a ∈ l, ∃ b, check a = .ok b ∧ (b = true ↔ P a)) :
    ∃ kept, keepM check l = .ok kept ∧ kept.Sublist l ∧ ∀ a, a ∈ kept ↔ a ∈ l ∧ P a := by
  induction l with
  | nil => exact ⟨[], rfl, .slnil, by simp⟩
  | cons a rest ih =>
    obtain ⟨b, hb, hP⟩ := h a List.mem_cons_self
    obtain ⟨kept, hkept, hsub, hmem⟩ := ih fun c hc => h c (List.mem_cons_of_mem _ hc)
    cases b with
    | true =>
      have ha : P a := hP.mp rfl
      refine ⟨a :: kept, by simp [keepM, hb, hkept, bind, Except.bind, pure, Except.pure],
        hsub.cons_cons a, fun c => ?_⟩
      rw [List.mem_cons, hmem, List.mem_cons]
      constructor
      · rintro (rfl | ⟨hc, hPc⟩)
        · exact ⟨.inl rfl, ha⟩
        · exact ⟨.inr hc, hPc⟩
      · rintro ⟨rfl | hc, hPc⟩
        · exact .inl rfl
        · exact .inr ⟨hc, hPc⟩
    | false =>
      have ha : ¬ P a := fun hPa => by simpa using hP.mpr hPa
      refine ⟨kept, by simp [keepM, hb, hkept, bind, Except.bind, pure, Except.pure],
        hsub.cons a, fun c => ?_⟩
      rw [hmem, List.mem_cons]
      constructor
      · rintro ⟨hc, hPc⟩
        exact ⟨.inr hc, hPc⟩
      · rintro ⟨rfl | hc, hPc⟩
        · exact absurd hPc ha
        · exact ⟨hc, hPc⟩

section
variable [CalendarText]

def date (s : String) : Result NaiveDate :=
  match CalendarText.parse s with
  | some d => .ok d
  | none => .error (invalid "expected ISO calendar date")

def active (start : String) (ends : Option String) (on : NaiveDate) : Result Bool := do
  let first ← date start
  if first ≤ on then
    match ends with
    | none => return true
    | some s => return decide (on < (← date s))
  else return false

def published (s : String) : Result UtcInstant :=
  match parseFromRfc3339 s with
  | some t => .ok t.utc
  | none => .error (invalid "invalid publication timestamp")

def tiers : List String := ["fast", "capable", "frontier"]

def publicationStates : List String := ["approved", "superseded", "withdrawn"]

def dependentKinds : List String := ["requires", "amends", "applies-to", "exception-to"]

def routeInvalid (r : AccessModelRoute) : Bool :=
  r.accessLevel < 0 || r.provider.isEmpty || 100 < r.provider.utf8ByteSize ||
    !tiers.contains r.tier || r.maxContextCharacters < 2000 || 100000 < r.maxContextCharacters ||
    r.maxOutputTokens == 0 || 100000 < r.maxOutputTokens

/-- `levels` are the access levels of the routes before. -/
def routesInvalid (levels : List ℤ) : List AccessModelRoute → Bool
  | [] => false
  | r :: rest => routeInvalid r || levels.contains r.accessLevel ||
      routesInvalid (r.accessLevel :: levels) rest

def budgetInvalid (q : QueryPolicy) : Bool :=
  q.maxPassages < 1 || 32 < q.maxPassages || q.historicalAccessLevel < 0 ||
    q.maxContextCharacters < 2000 || 100000 < q.maxContextCharacters ||
    q.retrievalConcurrency < 1 || 64 < q.retrievalConcurrency ||
    q.candidatesPerIndex < 1 || 100 < q.candidatesPerIndex ||
    q.tier.any (fun t => !tiers.contains t) ||
    q.provider.any fun p => p.isEmpty || 100 < p.utf8ByteSize

def nameInvalid (s : String) : Bool :=
  s.isEmpty || 300 < s.utf8ByteSize || s.toList.any isControl

def checkEnd (message : String) (first : NaiveDate) : Option String → Result Unit
  | none => .ok ()
  | some s => do
      let d ← date s
      if d ≤ first then .error (invalid message) else .ok ()

/-- One publication, after those with the ids `seen`. -/
def checkPublication (seen : List String) (p : CollectionPublication) : Result Unit := do
  if [p.id, p.documentId, p.collection, p.indexVersion, p.sourceId].any nameInvalid ||
      seen.contains p.id || !publicationStates.contains p.state then
    throw (invalid "invalid or duplicate publication")
  validateContentHash p.sourceContentHash
  let first ← date p.effectiveFrom
  checkEnd "publication end must follow its start" first p.effectiveUntil
  let _ ← published p.publishedAt
  return ()

def checkPublications (seen : List String) : List CollectionPublication → Result Unit
  | [] => .ok ()
  | p :: rest => do
      checkPublication seen p
      checkPublications (p.id :: seen) rest

def checkRelation (r : DocumentRelation) : Result Unit := do
  if r.fromDocument == r.toDocument ||
      !("supersedes" :: "conflicts" :: dependentKinds).contains r.kind then
    throw (invalid "invalid document relation")
  let first ← date r.effectiveFrom
  checkEnd "invalid relation dates" first r.effectiveUntil

/-- What no later revision may change, and that a withdrawal stands. -/
def rewritten (old new : CollectionPublication) : Bool :=
  old.documentId != new.documentId || old.sourceId != new.sourceId ||
    old.sourceContentHash != new.sourceContentHash || old.effectiveFrom != new.effectiveFrom ||
    old.publishedAt != new.publishedAt || (old.state == "withdrawn" && new.state != "withdrawn")

def checkRetained (policy : CollectionGovernance) (old : CollectionPublication) : Result Unit :=
  match policy.publications.find? fun p => p.id == old.id with
  | none => .error
      (invalid "retain publication history; use withdrawal instead of deletion")
  | some new =>
      if rewritten old new then .error
        (invalid "published identity and chronology are immutable; publish a new revision")
      else .ok ()

def validate (policy : CollectionGovernance) (previous : Option CollectionGovernance) :
    Result Unit :=
  let q := policy.query
  if q.maxOutputTokens.any (fun n => n == 0 || 100000 < n) || routesInvalid [] q.modelRoutes then
    .error (invalid "invalid or duplicate access-level model route")
  else if budgetInvalid q then
    .error (invalid "invalid collection query budget or model routing")
  else do
    checkPublications [] policy.publications
    policy.relations.forM checkRelation
    match previous with
    | none => return ()
    | some previous => previous.publications.forM (checkRetained policy)

/-- The state of the pass that finds each document's latest publication. -/
structure LatestScan where
  latest : SortedMap String (CollectionPublication × NaiveDate ×ₗ UtcInstant) := .empty
  ambiguous : List String := []

def LatestScan.take (s : LatestScan) (p : CollectionPublication) (stamp : NaiveDate ×ₗ UtcInstant) :
    LatestScan where
  latest := s.latest.insert p.documentId (p, stamp)
  ambiguous := s.ambiguous.filter fun d => d != p.documentId

def LatestScan.offer (s : LatestScan) (p : CollectionPublication)
    (stamp : NaiveDate ×ₗ UtcInstant) : LatestScan :=
  match s.latest.get? p.documentId with
  | none => s.take p stamp
  | some (old, oldStamp) =>
      if stamp = oldStamp ∧ old.id ≠ p.id then
        { s with ambiguous := s.ambiguous.insert p.documentId }
      else if stamp < oldStamp then s
      else s.take p stamp

def consider (on : NaiveDate) (s : LatestScan) (p : CollectionPublication) : Result LatestScan := do
  let first ← date p.effectiveFrom
  if on < first then return s
  let time ← published p.publishedAt
  return s.offer p (toLex (first, time))

def standing (on : NaiveDate) (p : CollectionPublication) : Result Bool :=
  if p.state = "withdrawn" then .ok false else active p.effectiveFrom p.effectiveUntil on

/-- What is left of the selected publications under the relations in force; `none` for a
chain of supersessions, a conflict or a missing prerequisite. -/
def resolve (relations : List DocumentRelation) (selected : List CollectionPublication) :
    Option (List CollectionPublication) :=
  let families := selected.map CollectionPublication.documentId
  let superseded := (relations.filter fun r =>
    r.kind == "supersedes" && families.contains r.fromDocument).map DocumentRelation.toDocument
  if relations.any fun r => r.kind == "supersedes" && superseded.contains r.fromDocument then none
  else
    let kept := selected.filter fun p => !superseded.contains p.documentId
    let families := kept.map CollectionPublication.documentId
    if relations.any fun r => families.contains r.fromDocument && (r.kind == "conflicts" ||
        (dependentKinds.contains r.kind && !families.contains r.toDocument)) then none
    else some kept

/-- The publications that govern on a date, by document; `none` asks for a review. -/
def governing (policy : CollectionGovernance) (on : NaiveDate) :
    Result (Option (List CollectionPublication)) := do
  let scan ← policy.publications.foldlM (consider on) {}
  if !scan.ambiguous.isEmpty then return none
  let selected ← keepM (standing on) (scan.latest.values.map Prod.fst)
  let relations ← keepM (fun r => active r.effectiveFrom r.effectiveUntil on) policy.relations
  return resolve relations selected

def needsAmendmentReview (policy : CollectionGovernance) (on : NaiveDate)
    (documents : List String) : Result Bool :=
  amendmentIn policy.relations
where
  amendmentIn : List DocumentRelation → Result Bool
    | [] => .ok false
    | r :: rest => do
        if ["amends", "applies-to", "exception-to"].contains r.kind then
          if ← active r.effectiveFrom r.effectiveUntil on then
            if documents.contains r.fromDocument || documents.contains r.toDocument then
              return true
        amendmentIn rest

end
end CollectionGovernance
end Munarium
