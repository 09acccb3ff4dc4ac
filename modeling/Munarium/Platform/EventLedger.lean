import Munarium.Lib.NumberedChain
import Munarium.Platform.Record
import Munarium.Platform.Transaction

/-! `EventLedger::append`: an event is recorded when the events at one head allow it. -/
namespace Munarium

structure RecorderIdentity where
  origin : String
  actor : String
  originKind : String
  principalDigest : String

def RecorderIdentity.toJson (r : RecorderIdentity) : Json :=
  .object [("origin", .str r.origin), ("actor", .str r.actor),
    ("origin_kind", .str r.originKind), ("principal_digest", .str r.principalDigest)]

/-- What the receiving adapter has verified of its caller. -/
structure RecorderContext where
  identity : RecorderIdentity
  tenant : String
  service : String
  source : String
  epoch : UInt64
  canRecord : Bool
  canRead : Bool

/-- A tenant's ledger in its reserved version. -/
structure EventLedger where
  tenant : String
  version : String

namespace EventLedger
open PlatformRecord

def subject : String := "platform.decision-events"

def authorize (l : EventLedger) (c : RecorderContext) (write : Bool) : Result Unit :=
  if c.tenant ≠ l.tenant ∨ c.service ≠ c.source ∨
      ¬(c.identity.originKind = "agent" ∨ c.identity.originKind = "service") ∨
      c.identity.actor.isEmpty ∨ c.identity.origin.isEmpty ∨
      ¬hash c.identity.principalDigest ∨ (if write then !c.canRecord else !c.canRead) then
    .error deniedRecord
  else .ok ()

def ack (event : Json) (digest ledger : String) (position : ℕ) : Json :=
  .object [("schema_version", .int 1), ("tenant", event["tenant"]),
    ("event_id", event["event_id"]), ("payload_digest", event["payload_digest"]),
    ("event_digest", .str digest), ("ledger_id", .str ledger),
    ("ledger_position", .int position)]

/-- `>` on optional numbers, of which a missing one is the least. -/
def exceeds : Option ℕ → Option ℕ → Bool
  | some a, some b => decide (b < a)
  | some _, none => true
  | none, _ => false

theorem exceeds_succ (n : ℕ) : exceeds (some (n + 1)) (some n) = true := by simp [exceeds]

def sequence (event : Json) : Option ℕ := event["sequence"].asU64

/-- The stream of an event: its source and that source's epoch. -/
def stream (event : Json) : Json × Json := (event["source_service"], event["source_epoch"])

section
variable [SerdeJson]

def readEvent (claim : Claim) : Option Json := SerdeJson.fromSlice (utf8 claim.value)

/-- The recorded events against a new one: where it was recorded, or the last event of its
stream. -/
def scan (event : Json) : Option Json → List Claim → Result (ℕ ⊕ Option Json)
  | last, [] => .ok (.inr last)
  | last, claim :: rest =>
      match readEvent claim with
      | none => .error invalidRecord
      | some old =>
          if old["event_id"] = event["event_id"] then
            if old ≠ event then .error .idempotencyMismatch else .ok (.inl claim.seq)
          else if old["operation_id"] = event["operation_id"] ∧
              old["request_digest"] ≠ event["request_digest"] then .error .idempotencyMismatch
          else if old["operation_id"] = event["operation_id"] ∧
              old["kind"] ≠ .str "proposal" ∧ event["kind"] ≠ .str "proposal" ∧
              old["payload"] ≠ event["payload"] then .error .idempotencyMismatch
          else
            scan event (if stream old = stream event then newer exceeds sequence last old
              else last) rest

variable [Sha256]

def eventDigest (event : Json) : Result String := recordDigest "munarium:decision-event:v1" event

/-- An event continues its stream. -/
def checkSequence (event : Json) : Option Json → Result Unit
  | none => if event["sequence"] ≠ .int 1 then .error invalidRecord else .ok ()
  | some last =>
      if sequence event ≠ (sequence last).bind (checkedAdd · 1) then .error invalidRecord
      else do
        let digest ← eventDigest last
        require (event["prior_event_digest"] == .str digest)

/-- One attempt's decision on an event. -/
def judge (l : EventLedger) (c : RecorderContext) (raw : Bytes) (event : Json)
    (digest : String) (_ : ℕ) (prior : List Claim) : Result (Verdict Json) := do
  match ← scan event none (prior.filter fun p => p.subject == subject) with
  | .inl seq => .ok (.reply (ack event digest l.version seq))
  | .inr last =>
      checkSequence event last
      let id ← orInvalid event["event_id"].asStr
      let text ← orInvalid (fromUtf8 raw)
      let evidence := Json.object [("event_digest", .str digest),
        ("source_service", .str c.source), ("recorder", c.identity.toJson)]
      .ok (.append { NewClaim.fact subject id text with evidence := some evidence }
        fun stored => .ok (ack event digest l.version stored.seq))

variable [FoundationSchema]

/-- What is checked of an append before the ledger is read. -/
def prepare (l : EventLedger) (c : RecorderContext) (raw : Bytes) : Result (Json × String) := do
  l.authorize c true
  let event ← canonicalRecord raw
  validateRecord "event" event
  if event["tenant"] ≠ .str l.tenant ∨ event["source_service"] ≠ .str c.source ∨
      event["source_epoch"] ≠ .int c.epoch.toNat then .error deniedRecord
  else do
    let digest ← eventDigest event
    .ok (event, digest)

/-- `append`. -/
def append [Platform] [IdGenerator] (l : EventLedger) (c : RecorderContext) (raw : Bytes) :
    Shared State (Result Json) :=
  onOk (fun prepared =>
      retryAtHead l.version (.storage "platform event contention")
        (l.judge c raw prepared.1 prepared.2) 16)
    (l.prepare c raw)

end

section Scan
variable [SerdeJson]

/-- Two events that may stand in one ledger. -/
structure Compatible (old event : Json) : Prop where
  ids : old["event_id"] ≠ event["event_id"]
  request : old["operation_id"] = event["operation_id"] →
    old["request_digest"] = event["request_digest"]
  payload : old["operation_id"] = event["operation_id"] → old["kind"] ≠ .str "proposal" →
    event["kind"] ≠ .str "proposal" → old["payload"] = event["payload"]

/-- The events some rows hold. -/
def eventsOf (claims : List Claim) : List Json := claims.filterMap readEvent

/-- An event the scan lets through stands with every recorded one, and the scan gives the
newest of its stream. -/
theorem scan_through {event : Json} {last last' : Option Json} {claims : List Claim}
    (h : scan event last claims = .ok (.inr last')) :
    (∀ old ∈ eventsOf claims, Compatible old event) ∧
      last' = ((eventsOf claims).filter fun old => stream old = stream event).foldl
        (newer exceeds sequence) last := by
  induction claims generalizing last with
  | nil =>
    cases h
    simp [eventsOf]
  | cons claim rest ih =>
    unfold scan at h
    cases hr : readEvent claim with
    | none => simp [hr] at h
    | some old =>
      have hevents : eventsOf (claim :: rest) = old :: eventsOf rest := by simp [eventsOf, hr]
      rw [hevents, List.forall_mem_cons]
      simp only [hr] at h
      by_cases hid : old["event_id"] = event["event_id"]
      · rw [if_pos hid] at h
        split_ifs at h
        cases h
      rw [if_neg hid] at h
      by_cases hrequest : old["operation_id"] = event["operation_id"] ∧
          old["request_digest"] ≠ event["request_digest"]
      · rw [if_pos hrequest] at h
        cases h
      rw [if_neg hrequest] at h
      by_cases hpayload : old["operation_id"] = event["operation_id"] ∧
          old["kind"] ≠ .str "proposal" ∧ event["kind"] ≠ .str "proposal" ∧
          old["payload"] ≠ event["payload"]
      · rw [if_pos hpayload] at h
        cases h
      rw [if_neg hpayload] at h
      obtain ⟨hrest, hlast⟩ := ih h
      refine ⟨⟨⟨hid, ?_, ?_⟩, hrest⟩, ?_⟩
      · intro hop
        by_contra hne
        exact hrequest ⟨hop, hne⟩
      · intro hop hk hk'
        by_contra hne
        exact hpayload ⟨hop, hk, hk', hne⟩
      · by_cases hs : stream old = stream event
        · simpa [hs] using hlast
        · simpa [hs] using hlast

/-- A recorded event is found again: the rows before it do not stand in its way. -/
theorem scan_found {event : Json} {claim : Claim} {before after : List Claim}
    (hparse : ∀ c ∈ before, ∃ old, readEvent c = some old)
    (hbefore : ∀ old ∈ eventsOf before, Compatible old event)
    (hclaim : readEvent claim = some event) (last : Option Json) :
    scan event last (before ++ claim :: after) = .ok (.inl claim.seq) := by
  induction before generalizing last with
  | nil => simp [scan, hclaim]
  | cons c rest ih =>
    obtain ⟨old, hold⟩ := hparse c List.mem_cons_self
    have hevents : eventsOf (c :: rest) = old :: eventsOf rest := by
      simp [eventsOf, hold]
    rw [hevents] at hbefore
    have hcompatible := hbefore old List.mem_cons_self
    have hrequest : ¬(old["operation_id"] = event["operation_id"] ∧
        old["request_digest"] ≠ event["request_digest"]) :=
      fun h => h.2 (hcompatible.request h.1)
    have hpayload : ¬(old["operation_id"] = event["operation_id"] ∧
        old["kind"] ≠ .str "proposal" ∧ event["kind"] ≠ .str "proposal" ∧
        old["payload"] ≠ event["payload"]) :=
      fun h => h.2.2.2 (hcompatible.payload h.1 h.2.1 h.2.2.1)
    rw [List.cons_append, scan, hold]
    simp only [if_neg hcompatible.ids, if_neg hrequest, if_neg hpayload]
    exact ih (fun d hd => hparse d (List.mem_cons_of_mem _ hd))
      (fun x hx => hbefore x (List.mem_cons_of_mem _ hx)) _

theorem exists_of_scan_found {event : Json} {last : Option Json} {claims : List Claim} {q : ℕ}
    (h : scan event last claims = .ok (.inl q)) :
    ∃ c ∈ claims, readEvent c = some event ∧ c.seq = q := by
  induction claims generalizing last with
  | nil => cases h
  | cons claim rest ih =>
    have hlater {last : Option Json} (h : scan event last rest = .ok (.inl q)) :
        ∃ c ∈ claim :: rest, readEvent c = some event ∧ c.seq = q := by
      obtain ⟨c, hc, hread⟩ := ih h
      exact ⟨c, List.mem_cons_of_mem _ hc, hread⟩
    unfold scan at h
    cases hr : readEvent claim with
    | none => simp [hr] at h
    | some old =>
      simp only [hr] at h
      by_cases hid : old["event_id"] = event["event_id"]
      · rw [if_pos hid] at h
        split_ifs at h with hsame
        cases h
        exact ⟨claim, List.mem_cons_self, by rw [hr, not_not.mp hsame], rfl⟩
      · rw [if_neg hid] at h
        split_ifs at h
        · exact hlater h
        · exact hlater h

end Scan

section Spec
variable [SerdeJson] [Sha256]

/-- An event is stored when the scan lets it through, it continues its stream and its bytes
are text. -/
theorem judge_append {l : EventLedger} {c : RecorderContext} {raw : Bytes} {event : Json}
    {digest : String} {head : ℕ} {prior : List Claim} {claim : NewClaim}
    {reply : Claim → Result Json}
    (h : l.judge c raw event digest head prior = .ok (.append claim reply)) :
    ∃ last, scan event none (prior.filter fun p => p.subject == subject) = .ok (.inr last) ∧
      checkSequence event last = .ok () ∧ claim.subject = subject ∧
      claim.supersedesId = none ∧ claim.status = .accepted ∧ utf8 claim.value = raw ∧
      reply = fun stored => .ok (ack event digest l.version stored.seq) := by
  obtain ⟨found, hscan, h⟩ := bind_eq_ok.mp h
  cases found with
  | inl seq => cases h
  | inr last =>
    obtain ⟨⟨⟩, hcheck, h⟩ := bind_eq_ok.mp h
    obtain ⟨id, -, h⟩ := bind_eq_ok.mp h
    obtain ⟨text, htext, h⟩ := bind_eq_ok.mp h
    cases h
    exact ⟨last, hscan, hcheck, rfl, rfl, rfl, utf8_of_fromUtf8 (orInvalid_ok htext), rfl⟩

theorem judge_reply {l : EventLedger} {c : RecorderContext} {raw : Bytes} {event : Json}
    {digest : String} {head : ℕ} {prior : List Claim} {a : Json}
    (h : l.judge c raw event digest head prior = .ok (.reply a)) :
    ∃ seq, scan event none (prior.filter fun p => p.subject == subject) = .ok (.inl seq) ∧
      a = ack event digest l.version seq := by
  obtain ⟨found, hscan, h⟩ := bind_eq_ok.mp h
  cases found with
  | inl seq =>
    cases h
    exact ⟨seq, hscan, rfl⟩
  | inr last =>
    obtain ⟨⟨⟩, -, h⟩ := bind_eq_ok.mp h
    obtain ⟨id, -, h⟩ := bind_eq_ok.mp h
    obtain ⟨text, -, h⟩ := bind_eq_ok.mp h
    cases h

theorem judge_not_appendAll {l : EventLedger} {c : RecorderContext} {raw : Bytes} {event : Json}
    {digest : String} {head : ℕ} {prior : List Claim} {claims : List NewClaim}
    {reply : Result Json} :
    l.judge c raw event digest head prior ≠ .ok (.appendAll claims reply) := by
  intro h
  obtain ⟨found, -, h⟩ := bind_eq_ok.mp h
  cases found with
  | inl seq => cases h
  | inr last =>
    obtain ⟨⟨⟩, -, h⟩ := bind_eq_ok.mp h
    obtain ⟨id, -, h⟩ := bind_eq_ok.mp h
    obtain ⟨text, -, h⟩ := bind_eq_ok.mp h
    cases h

variable [FoundationSchema]

theorem prepare_ok {l : EventLedger} {c : RecorderContext} {raw : Bytes} {event : Json}
    {digest : String} (h : l.prepare c raw = .ok (event, digest)) :
    SerdeJson.fromSlice raw = some event ∧ check 0 event = true ∧
      validateRecord "event" event = .ok () ∧ event["tenant"] = .str l.tenant := by
  obtain ⟨⟨⟩, -, h⟩ := bind_eq_ok.mp h
  obtain ⟨event', hcanonical, h⟩ := bind_eq_ok.mp h
  obtain ⟨⟨⟩, hvalid, h⟩ := bind_eq_ok.mp h
  split_ifs at h with hdenied
  obtain ⟨digest', -, h⟩ := bind_eq_ok.mp h
  cases h
  obtain ⟨hread, hcheck, -⟩ := canonicalRecord_ok hcanonical
  refine ⟨hread, hcheck, hvalid, ?_⟩
  by_contra hne
  exact hdenied (.inl hne)

/-- A valid event with number one has no event before it. -/
theorem prior_null_of_first {event : Json} (h : validateRecord "event" event = .ok ())
    (hone : event["sequence"] = .int 1) : event["prior_event_digest"] = .null := by
  obtain ⟨⟨⟩, -, h⟩ := bind_eq_ok.mp (show validateEvent event = .ok () from h)
  obtain ⟨request, -, h⟩ := bind_eq_ok.mp h
  obtain ⟨digest, -, h⟩ := bind_eq_ok.mp h
  have hall := require_ok h
  simp only [Bool.and_eq_true, beq_iff_eq] at hall
  have hnull := hall.2
  rw [hone, beq_self_eq_true] at hnull
  exact Json.isNull_iff.mp hnull.symm

end Spec
end EventLedger
end Munarium
