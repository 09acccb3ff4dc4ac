import Munarium.Platform.ActionSpecs
import Munarium.Platform.Reserved

/-! The action ledger's rows and the log they hold, and what an attempt of each operation
adds to them. -/
namespace Munarium

namespace PlatformAction
open PlatformRecord (MAX check canonicalRecord canonicalRecord_ok)

/-- The subjects the ledger keeps to itself. -/
def reserved : List String := [ARTIFACTS, EVENTS, ENROLLMENT, APPLIED]

def isEnrollment (c : Claim) : Bool := c.subject == ENROLLMENT

section
variable [SerdeJson]

def entryOf (subject value : String) : Option Entry :=
  if subject = ARTIFACTS then (SerdeJson.fromSlice (utf8 value)).map .artifact
  else if subject = EVENTS then (SerdeJson.fromSlice (utf8 value)).map .event
  else none

def readEntry (c : Claim) : Option Entry := entryOf c.subject c.value

def newEntry (m : NewClaim) : Option Entry := entryOf m.subject m.value

/-- The entries of the rows, in their order. -/
def logOf (rows : List Claim) : List Entry := rows.filterMap readEntry

theorem logOf_append (rows more : List Claim) : logOf (rows ++ more) = logOf rows ++ logOf more :=
  List.filterMap_append

theorem logOf_filter (rows : List Claim) : logOf (rows.filter isRecord) = logOf rows := by
  induction rows with
  | nil => rfl
  | cons c rest ih =>
    by_cases hc : isRecord c = true
    · rw [List.filter_cons_of_pos hc, logOf, List.filterMap_cons, logOf, List.filterMap_cons]
      rw [logOf, logOf] at ih
      rw [ih]
    · have hnone : readEntry c = none := by
        simp only [isRecord, Bool.or_eq_true, beq_iff_eq, not_or] at hc
        rw [readEntry, entryOf, if_neg hc.1, if_neg hc.2]
      rw [List.filter_cons_of_neg hc, ih]
      rw [logOf, logOf, List.filterMap_cons_none hnone]

variable [Sha256]

omit [Sha256] in
theorem readStored_ok {l : ActionLedger} {c : Claim} {stored : Stored}
    (h : l.readStored c = .ok stored) : SerdeJson.fromSlice (utf8 c.value) = some stored.value ∧
      scopesWithin l.policy.scope.value stored.value = true := by
  obtain ⟨value, hvalue, h⟩ := bind_eq_ok.mp h
  obtain ⟨⟨⟩, hscope, h⟩ := bind_eq_ok.mp h
  obtain ⟨evidence, -, h⟩ := bind_eq_ok.mp h
  obtain ⟨receivedAt, -, h⟩ := bind_eq_ok.mp h
  cases h
  exact ⟨(canonicalRecord_ok hvalue).1, allow_ok hscope⟩

omit [Sha256] in
theorem readRows_ok {l : ActionLedger} {records : List Claim} {rows : List (String × Stored)}
    (hrecords : ∀ c ∈ records, isRecord c = true)
    (hrows : (records.mapM fun c => (l.readStored c).map fun stored => (c.subject, stored)) =
      .ok rows) :
    ((rows.filter fun r => r.1 == ARTIFACTS).map Prod.snd).map (·.value) =
      artifactsOf (logOf records) ∧
    ((rows.filter fun r => r.1 != ARTIFACTS).map Prod.snd).map (·.value) =
      eventsOf (logOf records) ∧
    ∀ v ∈ eventsOf (logOf records), scopesWithin l.policy.scope.value v = true := by
  induction records generalizing rows with
  | nil =>
    cases hrows
    exact ⟨rfl, rfl, by simp [logOf, eventsOf]⟩
  | cons c rest ih =>
    rw [List.mapM_cons] at hrows
    obtain ⟨row, hrow, hrows⟩ := bind_eq_ok.mp hrows
    obtain ⟨rows', hrows', hrows⟩ := bind_eq_ok.mp hrows
    cases hrows
    obtain ⟨hartifacts, hevents, hscope⟩ := ih (fun d hd =>
      hrecords d (List.mem_cons_of_mem _ hd)) hrows'
    obtain ⟨stored, hstored, rfl⟩ : ∃ stored, l.readStored c = .ok stored ∧
        row = (c.subject, stored) := by
      cases hr : l.readStored c with
      | error e => simp [hr, Except.map] at hrow
      | ok stored =>
        rw [hr] at hrow
        cases hrow
        exact ⟨stored, rfl, rfl⟩
    obtain ⟨hread, hwithin⟩ := readStored_ok hstored
    have hrecord := hrecords c List.mem_cons_self
    by_cases hsubject : c.subject = ARTIFACTS
    · have hentry : readEntry c = some (.artifact stored.value) := by
        rw [readEntry, entryOf, if_pos hsubject, hread, Option.map_some]
      have hlog : logOf (c :: rest) = .artifact stored.value :: logOf rest := by
        rw [logOf, List.filterMap_cons_some hentry, logOf]
      rw [hlog]
      refine ⟨?_, ?_, ?_⟩
      · simpa [hsubject, artifactsOf, Entry.artifact?] using hartifacts
      · simpa [hsubject, eventsOf, Entry.event?] using hevents
      · simpa [eventsOf, Entry.event?] using hscope
    · have hevent : c.subject = EVENTS := by simpa [isRecord, hsubject] using hrecord
      have hentry : readEntry c = some (.event stored.value) := by
        rw [readEntry, entryOf, if_neg hsubject, if_pos hevent, hread, Option.map_some]
      have hlog : logOf (c :: rest) = .event stored.value :: logOf rest := by
        rw [logOf, List.filterMap_cons_some hentry, logOf]
      rw [hlog]
      refine ⟨?_, ?_, ?_⟩
      · simpa [hsubject, artifactsOf, Entry.artifact?] using hartifacts
      · simpa [hsubject, eventsOf, Entry.event?] using hevents
      · have hcons : eventsOf (.event stored.value :: logOf rest) =
            stored.value :: eventsOf (logOf rest) := by simp [eventsOf, Entry.event?]
        rw [hcons, List.forall_mem_cons]
        exact ⟨hwithin, hscope⟩

omit [Sha256] in
/-- A snapshot holds the artifacts and the events of its rows, all of the policy's scope. -/
theorem snapshot_ok {l : ActionLedger} {head : ℕ} {facts : List Claim}
    {artifacts events : List Stored} (h : l.snapshot head facts = .ok (artifacts, events)) :
    artifacts.map (·.value) = artifactsOf (logOf facts) ∧
    events.map (·.value) = eventsOf (logOf facts) ∧
    ∀ v ∈ eventsOf (logOf facts), scopesWithin l.policy.scope.value v = true := by
  obtain ⟨⟨⟩, -, h⟩ := bind_eq_ok.mp h
  obtain ⟨rows, hrows, h⟩ := bind_eq_ok.mp h
  cases h
  rw [← logOf_filter facts]
  exact readRows_ok (fun c hc => (List.mem_filter.mp hc).2) hrows

/-- A claim that records an entry. -/
structure Records (claim : NewClaim) (e : Entry) : Prop where
  plain : claim.supersedesId = none
  accepted : claim.status = .accepted
  foreign : claim.subject ≠ ENROLLMENT
  entry : newEntry claim = some e

omit [Sha256] in
theorem records_artifact {value : Json} {key content : String} {evidence : Option Json}
    (h : SerdeJson.fromSlice (utf8 content) = some value) :
    Records { NewClaim.fact ARTIFACTS key content with evidence := evidence }
      (.artifact value) := by
  refine ⟨rfl, rfl, by simp [NewClaim.fact, ARTIFACTS, ENROLLMENT], ?_⟩
  show entryOf ARTIFACTS content = _
  rw [entryOf, if_pos rfl, h, Option.map_some]

omit [Sha256] in
theorem records_event {value : Json} {key content : String} {evidence : Option Json}
    (h : SerdeJson.fromSlice (utf8 content) = some value) :
    Records { NewClaim.fact EVENTS key content with evidence := evidence } (.event value) := by
  refine ⟨rfl, rfl, by simp [NewClaim.fact, EVENTS, ENROLLMENT], ?_⟩
  have hne : EVENTS ≠ ARTIFACTS := by simp [EVENTS, ARTIFACTS]
  show entryOf EVENTS content = _
  rw [entryOf, if_neg hne, if_pos rfl, h, Option.map_some]

section
variable [ActionSchema]

theorem prepareArchive_ok {l : ActionLedger} {a : ActionAdmission} {raw : Bytes} {value : Json}
    {kind digest : String} (h : l.prepareArchive a raw = .ok (value, kind, digest)) :
    SerdeJson.fromSlice raw = some value ∧ value["type"] = .str kind := by
  obtain ⟨⟨⟩, -, h⟩ := bind_eq_ok.mp h
  obtain ⟨value', hcanonical, h⟩ := bind_eq_ok.mp h
  obtain ⟨⟨⟩, -, h⟩ := bind_eq_ok.mp h
  obtain ⟨⟨⟩, -, h⟩ := bind_eq_ok.mp h
  obtain ⟨kind', hkind, h⟩ := bind_eq_ok.mp h
  obtain ⟨⟨⟩, -, h⟩ := bind_eq_ok.mp h
  obtain ⟨digest', -, h⟩ := bind_eq_ok.mp h
  cases h
  exact ⟨(canonicalRecord_ok hcanonical).1, text_ok hkind⟩

theorem prepareAppend_ok {l : ActionLedger} {a : ActionAdmission} {raw : Bytes} {event : Json}
    {digest : String} {recovery : Option RecoveryPermit}
    (h : l.prepareAppend a raw = .ok (event, digest, recovery)) :
    SerdeJson.fromSlice raw = some event ∧ validateActionRecord event = .ok () ∧
      event["type"] = .str "accountability-event" ∧ eventDigest event = .ok digest := by
  obtain ⟨⟨⟩, -, h⟩ := bind_eq_ok.mp h
  obtain ⟨event', hcanonical, h⟩ := bind_eq_ok.mp h
  obtain ⟨⟨⟩, hvalid, h⟩ := bind_eq_ok.mp h
  obtain ⟨⟨⟩, htype, h⟩ := bind_eq_ok.mp h
  obtain ⟨⟨⟩, -, h⟩ := bind_eq_ok.mp h
  obtain ⟨digest', hdigest, h⟩ := bind_eq_ok.mp h
  obtain ⟨recovery', -, h⟩ := bind_eq_ok.mp h
  cases h
  have htype := require_ok htype
  rw [beq_iff_eq] at htype
  exact ⟨(canonicalRecord_ok hcanonical).1, hvalid, htype, hdigest⟩

omit [ActionSchema] in
theorem judgeArchive_not_appendAll {l : ActionLedger} {a : ActionAdmission} {raw : Bytes}
    {value : Json} {kind digest : String} {head : ℕ} {facts : List Claim}
    {claims : List NewClaim} {reply : Result Json} :
    l.judgeArchive a raw value kind digest head facts ≠ .ok (.appendAll claims reply) := by
  intro h
  obtain ⟨⟨artifacts, events⟩, -, h⟩ := bind_eq_ok.mp h
  obtain ⟨found, -, h⟩ := bind_eq_ok.mp h
  cases found with
  | some old => cases h
  | none =>
    obtain ⟨⟨⟩, -, h⟩ := bind_eq_ok.mp h
    obtain ⟨content, -, h⟩ := bind_eq_ok.mp h
    cases h

/-- An artifact is archived when the log holds what it needs. -/
theorem judgeArchive_append {l : ActionLedger} {a : ActionAdmission} {raw : Bytes}
    {value : Json} {kind digest : String} {head : ℕ} {facts : List Claim} {claim : NewClaim}
    {reply : Claim → Result Json}
    (hprepared : l.prepareArchive a raw = .ok (value, kind, digest))
    (h : l.judgeArchive a raw value kind digest head facts = .ok (.append claim reply)) :
    Admits (logOf facts) (.artifact value) ∧ Records claim (.artifact value) ∧
      ∀ stored, ∃ j, reply stored = .ok j := by
  obtain ⟨hread, htype⟩ := prepareArchive_ok hprepared
  obtain ⟨⟨artifacts, events⟩, hsnapshot, h⟩ := bind_eq_ok.mp h
  obtain ⟨hartifacts, -, -⟩ := snapshot_ok hsnapshot
  obtain ⟨found, hmatch, h⟩ := bind_eq_ok.mp h
  cases found with
  | some old => cases h
  | none =>
    obtain ⟨⟨⟩, hvalid, h⟩ := bind_eq_ok.mp h
    obtain ⟨content, hcontent, h⟩ := bind_eq_ok.mp h
    cases h
    have hbytes := utf8_of_fromUtf8 (orInvalid_ok hcontent)
    refine ⟨validateArchive_needs hartifacts htype hmatch hvalid, ?_, fun stored => ⟨_, rfl⟩⟩
    exact records_artifact (hbytes ▸ hread)

omit [ActionSchema] in
theorem judgeAppend_not_appendAll {l : ActionLedger} {a : ActionAdmission} {raw : Bytes}
    {event : Json} {digest : String} {recovery : Option RecoveryPermit} {head : ℕ}
    {facts : List Claim} {claims : List NewClaim} {reply : Result Json} :
    l.judgeAppend a raw event digest recovery head facts ≠ .ok (.appendAll claims reply) := by
  intro h
  obtain ⟨⟨artifacts, events⟩, -, h⟩ := bind_eq_ok.mp h
  obtain ⟨found, -, h⟩ := bind_eq_ok.mp h
  cases found with
  | inl old =>
    obtain ⟨ack, -, h⟩ := bind_eq_ok.mp h
    cases h
  | inr last =>
    obtain ⟨⟨⟩, -, h⟩ := bind_eq_ok.mp h
    obtain ⟨⟨⟩, -, h⟩ := bind_eq_ok.mp h
    obtain ⟨⟨⟩, -, h⟩ := bind_eq_ok.mp h
    obtain ⟨id, -, h⟩ := bind_eq_ok.mp h
    obtain ⟨content, -, h⟩ := bind_eq_ok.mp h
    cases h

theorem judgeAppend_replies {l : ActionLedger} {a : ActionAdmission} {raw : Bytes} {event : Json}
    {digest : String} {recovery : Option RecoveryPermit} {head : ℕ} {facts : List Claim}
    {claim : NewClaim} {reply : Claim → Result Json}
    (hprepared : l.prepareAppend a raw = .ok (event, digest, recovery))
    (h : l.judgeAppend a raw event digest recovery head facts = .ok (.append claim reply))
    (stored : Claim) : ∃ j, reply stored = .ok j := by
  obtain ⟨-, -, -, hdigest⟩ := prepareAppend_ok hprepared
  obtain ⟨⟨artifacts, events⟩, -, h⟩ := bind_eq_ok.mp h
  obtain ⟨found, -, h⟩ := bind_eq_ok.mp h
  cases found with
  | inl old =>
    obtain ⟨ack, -, h⟩ := bind_eq_ok.mp h
    cases h
  | inr last =>
    obtain ⟨⟨⟩, -, h⟩ := bind_eq_ok.mp h
    obtain ⟨⟨⟩, -, h⟩ := bind_eq_ok.mp h
    obtain ⟨⟨⟩, -, h⟩ := bind_eq_ok.mp h
    obtain ⟨id, -, h⟩ := bind_eq_ok.mp h
    obtain ⟨content, -, h⟩ := bind_eq_ok.mp h
    cases h
    simp only [ActionLedger.acknowledgement, hdigest, bind, Except.bind]
    exact ⟨_, rfl⟩

/-- An event is recorded when the log holds what it needs. -/
theorem judgeAppend_append {l : ActionLedger} {a : ActionAdmission} {raw : Bytes} {event : Json}
    {digest : String} {recovery : Option RecoveryPermit} {head : ℕ} {facts : List Claim}
    {claim : NewClaim} {reply : Claim → Result Json} (hlog : Ledgered (logOf facts))
    (hprepared : l.prepareAppend a raw = .ok (event, digest, recovery))
    (h : l.judgeAppend a raw event digest recovery head facts = .ok (.append claim reply)) :
    Admits (logOf facts) (.event event) ∧ Records claim (.event event) := by
  obtain ⟨hread, hvalid, htype, -⟩ := prepareAppend_ok hprepared
  obtain ⟨⟨artifacts, events⟩, hsnapshot, h⟩ := bind_eq_ok.mp h
  obtain ⟨hartifacts, hevents, -⟩ := snapshot_ok hsnapshot
  obtain ⟨found, hmatch, h⟩ := bind_eq_ok.mp h
  cases found with
  | inl old =>
    obtain ⟨ack, -, h⟩ := bind_eq_ok.mp h
    cases h
  | inr last =>
    obtain ⟨⟨⟩, hcheck, h⟩ := bind_eq_ok.mp h
    obtain ⟨⟨⟩, hneeds, h⟩ := bind_eq_ok.mp h
    obtain ⟨⟨⟩, -, h⟩ := bind_eq_ok.mp h
    obtain ⟨id, -, h⟩ := bind_eq_ok.mp h
    obtain ⟨content, hcontent, h⟩ := bind_eq_ok.mp h
    cases h
    have hbytes := utf8_of_fromUtf8 (orInvalid_ok hcontent)
    obtain ⟨hfree, hnewest⟩ := matchEvents_through hmatch
    rw [hevents] at hfree hnewest
    rw [(hlog.gapless (streamOf event)).newest EventLedger.exceeds_succ] at hnewest
    obtain ⟨kind, hkind, -, hfamily⟩ := kind_of_valid hvalid htype
    have hadmits : EventStep (logOf facts) event :=
      { valid := hvalid
        event := htype
        ids := fun old hold => (hfree old hold).1
        payloads := fun old hold => (hfree old hold).2
        next := hnewest ▸ continues_of_check hcheck
        needs := prerequisites_needs hartifacts hevents hkind hfamily hneeds }
    exact ⟨hadmits, records_event (hbytes ▸ hread)⟩

omit [Sha256] [ActionSchema] in
/-- The enrollment is pinned where none was. -/
theorem judgeEnrollment_append {value : Json} {head : ℕ} {facts : List Claim}
    {claim : NewClaim} {reply : Claim → Result Unit}
    (h : ActionLedger.judgeEnrollment value head facts = .ok (.append claim reply)) :
    facts.filter isEnrollment = [] ∧ ∃ content, encoded value = .ok content ∧
      claim = .fact ENROLLMENT "initial" content := by
  unfold ActionLedger.judgeEnrollment at h
  cases hfind : facts.find? fun f => f.subject == ENROLLMENT with
  | some fact =>
    simp only [hfind] at h
    obtain ⟨old, -, h⟩ := bind_eq_ok.mp h
    split at h
    · cases h
    · cases h
  | none =>
    simp only [hfind] at h
    obtain ⟨content, hcontent, h⟩ := bind_eq_ok.mp h
    cases h
    refine ⟨?_, content, hcontent, rfl⟩
    rw [List.filter_eq_nil_iff]
    exact List.find?_eq_none.mp hfind

omit [Sha256] [ActionSchema] in
theorem judgeEnrollment_not_appendAll {value : Json} {head : ℕ} {facts : List Claim}
    {claims : List NewClaim} {reply : Result Unit} :
    ActionLedger.judgeEnrollment value head facts ≠ .ok (.appendAll claims reply) := by
  intro h
  unfold ActionLedger.judgeEnrollment at h
  split at h
  · obtain ⟨old, -, h⟩ := bind_eq_ok.mp h
    split at h <;> cases h
  · obtain ⟨content, -, h⟩ := bind_eq_ok.mp h
    cases h

omit [Sha256] [ActionSchema] in
/-- What was encoded is read back. -/
theorem encoded_ok [SerdeRoundTrip] {value : Json} {content : String}
    (h : encoded value = .ok content) : SerdeJson.fromSlice (utf8 content) = some value := by
  obtain ⟨value', hcanonical, h⟩ := bind_eq_ok.mp h
  rw [utf8_of_fromUtf8 (orInvalid_ok h)]
  obtain ⟨hread, hcheck, -⟩ := canonicalRecord_ok hcanonical
  rw [hread, SerdeRoundTrip.read_back _ _ hread hcheck]

theorem prepareActivation_ok {l : ActionLedger} {e : ActivationEnrollment} {t r : Json}
    {proof : ActivationEvidence} {digest : String} {stream : StreamRegistration}
    (h : l.prepareActivation e t proof = .ok (r, digest, stream)) :
    t["type"] = .str "activation" ∧ actionDigest "activation" t = .ok digest ∧
      r = receiptOf t "server" "applied" digest := by
  obtain ⟨⟨⟩, -, h⟩ := bind_eq_ok.mp h
  obtain ⟨⟨⟩, -, h⟩ := bind_eq_ok.mp h
  obtain ⟨⟨⟩, hallowed, h⟩ := bind_eq_ok.mp h
  obtain ⟨digest', hdigest, h⟩ := bind_eq_ok.mp h
  obtain ⟨⟨⟩, -, h⟩ := bind_eq_ok.mp h
  obtain ⟨start, -, h⟩ := bind_eq_ok.mp h
  obtain ⟨⟨⟩, -, h⟩ := bind_eq_ok.mp h
  obtain ⟨expires, -, h⟩ := bind_eq_ok.mp h
  obtain ⟨⟨⟩, -, h⟩ := bind_eq_ok.mp h
  obtain ⟨⟨⟩, -, h⟩ := bind_eq_ok.mp h
  obtain ⟨⟨⟩, -, h⟩ := bind_eq_ok.mp h
  obtain ⟨⟨⟩, -, h⟩ := bind_eq_ok.mp h
  obtain ⟨⟨⟩, -, h⟩ := bind_eq_ok.mp h
  obtain ⟨r', hr, h⟩ := bind_eq_ok.mp h
  obtain ⟨stream', -, h⟩ := bind_eq_ok.mp h
  cases h
  obtain ⟨digest'', hdigest', hr⟩ := bind_eq_ok.mp hr
  obtain ⟨⟨⟩, -, hr⟩ := bind_eq_ok.mp hr
  obtain rfl : digest = digest'' := Except.ok.inj (hdigest.symm.trans hdigest')
  have hallowed := allow_ok hallowed
  simp only [Bool.and_eq_true, beq_iff_eq] at hallowed
  exact ⟨hallowed.1.1.1, hdigest, (Except.ok.inj hr).symm⟩

omit [SerdeJson] [Sha256] [ActionSchema] in
/-- The fields of the audit event that the log looks at. -/
theorem activationEvent_index {l : ActionLedger} {e : ActivationEnrollment}
    {stream : StreamRegistration} {r predecessor event : Json} {digest payloadDigest : String}
    {now prior : ℕ}
    (h : event = l.activationEvent e stream r digest payloadDigest now prior predecessor) :
    event["type"] = .str "accountability-event" ∧ event["family"] = .str "activation" ∧
      event["kind"] = .str "activation-applied" ∧
      streamOf event = (streamRef l.policy.scope.value e.streamId, .int stream.generation) ∧
      event["sequence"] = .int (prior + 1) ∧ event["predecessor"] = predecessor ∧
      event["payload"]["receipt"] = r := by
  let fields := l.activationFields e stream r digest payloadDigest now prior predecessor
  have hnames : (fields.map Prod.fst).Nodup := by
    simp only [fields, ActionLedger.activationFields, List.map_cons, List.map_nil]
    decide
  have hindex {k : String} {v : Json} (hmem : (k, v) ∈ fields) : event[k] = v := by
    rw [h]
    exact Json.index_object hnames hmem
  have hpayload : event["payload"] = ActionLedger.activationPayload r :=
    hindex (by simp [fields, ActionLedger.activationFields])
  refine ⟨hindex ?_, hindex ?_, hindex ?_, Prod.ext (hindex ?_) (hindex ?_), hindex ?_,
    hindex ?_, ?_⟩
  all_goals try simp [fields, ActionLedger.activationFields]
  rw [hpayload]
  exact Json.index_object (by simp) (by simp)

omit [SerdeJson] [Sha256] [ActionSchema] in
theorem streamRef_index (scope : Json) (id : String) : (streamRef scope id)["id"] = .str id :=
  Json.index_object (by simp) (by simp)

/-- A recorded event of the scope is of a stream when it names the stream's id. -/
theorem stream_of_id [StreamSchema] {log : List Entry} (hlog : Ledgered log) {v scope : Json}
    (hv : v ∈ eventsOf log) (hscope : scopesWithin scope v = true) (id : String) :
    v["stream"]["id"] = .str id ↔ v["stream"] = streamRef scope id := by
  obtain ⟨_, _, _, hok⟩ := hlog.of_mem (mem_eventsOf.mp hv)
  obtain ⟨hvalid, -⟩ := accountability_of_valid hok.valid hok.event
  obtain ⟨scope', id', hstream⟩ := StreamSchema.stream v hvalid hok.event
  have hget : v["stream"].get "scope" = some scope' := by
    rw [hstream]
    exact Json.get_object_of_mem (by simp) (by simp)
  obtain rfl := scope_of_within (scopesWithin_index hscope "stream") hget
  rw [hstream, streamRef_index, Json.str.injEq]
  constructor
  · rintro rfl
    rfl
  · intro hsame
    have hid := congrArg (fun v : Json => v["id"]) hsame
    simp only [streamRef_index, Json.str.injEq] at hid
    exact hid

omit [SerdeJson] [Sha256] [ActionSchema] in
theorem atLeast_succ (n : ℕ) : atLeast (some (n + 1)) (some n) = true := by
  simp [atLeast, EventLedger.exceeds]

/-- The newest event of the server's stream is the last one of that stream in the log. -/
theorem lastActivation_eq [StreamSchema] {log : List Entry} (hlog : Ledgered log) {scope : Json}
    (hscope : ∀ v ∈ eventsOf log, scopesWithin scope v = true) {events : List Stored}
    (hevents : events.map (·.value) = eventsOf log) (e : ActivationEnrollment)
    (stream : StreamRegistration) :
    ActionLedger.lastActivation e stream events = ((eventsOf log).filter fun old =>
      streamOf old = (streamRef scope e.streamId, .int stream.generation)).getLast? := by
  rw [← (hlog.gapless _).newest atLeast_succ, ActionLedger.lastActivation, hevents]
  congr 1
  apply List.filter_congr
  intro v hv
  have hid := stream_of_id hlog hv (hscope v hv) e.streamId
  simp only [streamOf, Prod.mk.injEq, Bool.decide_and, ← hid, beq_eq_decide]

omit [ActionSchema] in
/-- The audit event continues the server's stream. -/
theorem activationEvent_continues {l : ActionLedger} {e : ActivationEnrollment}
    {stream : StreamRegistration} {r predecessor event : Json} {digest payloadDigest : String}
    {now prior : ℕ} {last : Option Json}
    (hevent : event = l.activationEvent e stream r digest payloadDigest now prior predecessor)
    (hprior : ActionLedger.priorSequence last = .ok prior)
    (hpredecessor : ActionLedger.predecessorOf last = .ok predecessor) :
    Continues event last := by
  obtain ⟨-, -, -, -, hsequence, hpoints, -⟩ := activationEvent_index hevent
  cases last with
  | none =>
    cases hprior
    cases hpredecessor
    exact ⟨by simp [sequence, hsequence, Json.asU64], hpoints⟩
  | some v =>
    obtain ⟨hnumber, hle⟩ := number_ok hprior
    refine ⟨prior, hnumber, ?_, ?_⟩
    · have hroom : (0 : ℤ) ≤ prior + 1 ∧ (prior : ℤ) + 1 < 2 ^ 64 := by
        unfold MAX at hle
        omega
      rw [sequence, hsequence, Json.asU64, if_pos hroom]
      congr 1
    · cases hdigest : eventDigest v with
      | error e => simp [ActionLedger.predecessorOf, hdigest, Except.map] at hpredecessor
      | ok d =>
        simp only [ActionLedger.predecessorOf, hdigest, Except.map,
          Except.ok.injEq] at hpredecessor
        exact ⟨d, hdigest, hpoints.trans hpredecessor.symm⟩

omit [SerdeJson] [Sha256] [ActionSchema] in
theorem receiptOf_index (t : Json) (digest : String) :
    (receiptOf t "server" "applied" digest)["transition"] = t["transition"] ∧
      (receiptOf t "server" "applied" digest)["transition_digest"] = .str digest := by
  unfold receiptOf
  constructor
  · exact Json.index_object (by simp) (by simp)
  · exact Json.index_object (by simp) (by simp)

omit [Sha256] [ActionSchema] in
theorem archiveRows_ok [SerdeRoundTrip] {e : ActivationEnrollment} {proof : ActivationEvidence}
    {t : Json} {digest : String} {old : Option Stored} {rows : List NewClaim}
    (h : ActionLedger.archiveRows e proof t digest old = .ok rows) :
    (old = none ∧ ∃ m, rows = [m] ∧ Records m (.artifact t)) ∨
      ((∃ a, old = some a) ∧ rows = []) := by
  unfold ActionLedger.archiveRows at h
  cases old with
  | none =>
    obtain ⟨content, hcontent, h⟩ := bind_eq_ok.mp h
    cases h
    exact .inl ⟨rfl, _, rfl, records_artifact (encoded_ok hcontent)⟩
  | some a =>
    cases h
    exact .inr ⟨⟨a, rfl⟩, rfl⟩

/-- The audit event joins a log that holds the transition. -/
theorem activation_admitted {log : List Entry} {event t : Json} {digest : String}
    (hvalid : validateActionRecord event = .ok ())
    (htype : event["type"] = .str "accountability-event")
    (hfamily : event["family"] = .str "activation")
    (hkind : event["kind"] = .str "activation-applied")
    (hreceipt : event["payload"]["receipt"] = receiptOf t "server" "applied" digest)
    (hids : ∀ old ∈ eventsOf log, old["event_id"] ≠ event["event_id"])
    (hnext : Continues event
      ((eventsOf log).filter fun old => streamOf old = streamOf event).getLast?)
    (ht : t ∈ artifactsOf log) (hactivation : t["type"] = .str "activation")
    (hdigest : actionDigest "activation" t = .ok digest) : EventStep log event := by
  have hother {kind : String} (hne : kind ≠ "activation-applied") :
      event["kind"] ≠ .str kind := by
    rw [hkind]
    intro hsame
    exact hne (Json.str.inj hsame).symm
  obtain ⟨htransition, hnames⟩ := receiptOf_index t digest
  refine ⟨hvalid, htype, hids, ?_, hnext, ?_, ?_, ?_, ?_, ?_⟩
  · intro old _ _ haction
    simp [hfamily] at haction
  · exact fun hne => absurd hkind hne
  · exact fun happroval => absurd happroval (hother (by decide))
  · intro later earlier hprecedes hlater
    have hne : later ≠ "activation-applied" := by
      rintro rfl
      simp [precedes] at hprecedes
    exact absurd hlater (hother hne)
  · exact fun hreconciled => absurd hreconciled (hother (by decide))
  · intro _
    refine ⟨t, ht, hactivation, ?_, digest, hdigest, ?_⟩
    · rw [hreceipt, htransition]
    · rw [hreceipt, hnames]

/-- An attempt to apply an activation is answered with the receipt, at once or by a batch. -/
theorem judgeApply_verdict {l : ActionLedger} {e : ActivationEnrollment} {t r : Json}
    {proof : ActivationEvidence} {digest : String} {stream : StreamRegistration} {head : ℕ}
    {facts : List Claim} {verdict : Verdict Json}
    (h : l.judgeApply e t proof r digest stream head facts = .ok verdict) :
    verdict = .reply r ∨ ∃ claims, claims ≠ [] ∧ verdict = .appendAll claims (.ok r) := by
  obtain ⟨⟨artifacts, events⟩, -, h⟩ := bind_eq_ok.mp h
  obtain ⟨found, -, h⟩ := bind_eq_ok.mp h
  cases found with
  | none =>
    cases h
    exact .inl rfl
  | some current =>
    obtain ⟨⟨epoch, set⟩, -, h⟩ := bind_eq_ok.mp h
    simp only at h
    split at h
    · cases h
    obtain ⟨prior, -, h⟩ := bind_eq_ok.mp h
    obtain ⟨predecessor, -, h⟩ := bind_eq_ok.mp h
    obtain ⟨payloadDigest, -, h⟩ := bind_eq_ok.mp h
    obtain ⟨⟨⟩, -, h⟩ := bind_eq_ok.mp h
    split at h
    · cases h
    split at h
    · cases h
    obtain ⟨archive, -, h⟩ := bind_eq_ok.mp h
    obtain ⟨id, -, h⟩ := bind_eq_ok.mp h
    obtain ⟨audit, -, h⟩ := bind_eq_ok.mp h
    obtain ⟨transition, -, h⟩ := bind_eq_ok.mp h
    obtain ⟨applied, -, h⟩ := bind_eq_ok.mp h
    cases h
    exact .inr ⟨_, by simp, rfl⟩

/-- An activation that goes through leaves the log as justified as it was. -/
theorem judgeApply_appendAll [StreamSchema] [SerdeRoundTrip] {l : ActionLedger}
    {e : ActivationEnrollment} {t r : Json} {proof : ActivationEvidence} {digest : String}
    {stream : StreamRegistration} {head : ℕ} {facts : List Claim} {claims : List NewClaim}
    {reply : Result Json} (hlog : Ledgered (logOf facts))
    (hprepared : l.prepareActivation e t proof = .ok (r, digest, stream))
    (h : l.judgeApply e t proof r digest stream head facts = .ok (.appendAll claims reply)) :
    Ledgered (logOf facts ++ claims.filterMap newEntry) ∧
      (∀ m ∈ claims, (∃ entry, Records m entry) ∨ m.subject = APPLIED ∧
        m.supersedesId = none ∧ m.status = .accepted) := by
  obtain ⟨htype, hdigest, hr⟩ := prepareActivation_ok hprepared
  obtain ⟨⟨artifacts, events⟩, hsnapshot, h⟩ := bind_eq_ok.mp h
  obtain ⟨hartifacts, hevents, hscope⟩ := snapshot_ok hsnapshot
  obtain ⟨found, -, h⟩ := bind_eq_ok.mp h
  cases found with
  | none => cases h
  | some current =>
    obtain ⟨⟨epoch, set⟩, -, h⟩ := bind_eq_ok.mp h
    simp only at h
    split at h
    · cases h
    obtain ⟨prior, hprior, h⟩ := bind_eq_ok.mp h
    obtain ⟨predecessor, hpredecessor, h⟩ := bind_eq_ok.mp h
    obtain ⟨payloadDigest, -, h⟩ := bind_eq_ok.mp h
    obtain ⟨⟨⟩, hvalid, h⟩ := bind_eq_ok.mp h
    split at h
    · cases h
    rename_i hids
    split at h
    · cases h
    rename_i hold
    obtain ⟨archive, harchive, h⟩ := bind_eq_ok.mp h
    obtain ⟨id, -, h⟩ := bind_eq_ok.mp h
    obtain ⟨audit, haudit, h⟩ := bind_eq_ok.mp h
    obtain ⟨transition, -, h⟩ := bind_eq_ok.mp h
    obtain ⟨applied, -, h⟩ := bind_eq_ok.mp h
    generalize hevent : l.activationEvent e stream r digest payloadDigest proof.now prior
      predecessor = event at hvalid hids haudit h
    cases h
    obtain ⟨hetype, hfamily, hkind, hstream, -, -, hreceipt⟩ := activationEvent_index hevent.symm
    have hnext := activationEvent_continues hevent.symm hprior hpredecessor
    rw [lastActivation_eq hlog hscope hevents, ← hstream] at hnext
    have hfresh : ∀ old ∈ eventsOf (logOf facts), old["event_id"] ≠ event["event_id"] := by
      intro old hold hsame
      rw [← hevents, List.mem_map] at hold
      obtain ⟨stored, hstored, rfl⟩ := hold
      exact hids (List.any_eq_true.mpr ⟨stored, hstored, by simpa using hsame⟩)
    have hadmitted {log : List Entry} (hsame : eventsOf log = eventsOf (logOf facts))
        (ht : t ∈ artifactsOf log) : Admits log (.event event) := by
      apply activation_admitted hvalid hetype hfamily hkind (hreceipt.trans hr) _ _ ht htype hdigest
      · rwa [hsame]
      · rwa [hsame]
    have hrecord : Records (ActionLedger.activationRow e proof EVENTS id audit) (.event event) :=
      records_event (encoded_ok haudit)
    have hentries (rows : List NewClaim) :
        (rows ++ [ActionLedger.activationRow e proof EVENTS id audit,
          ActionLedger.activationRow e proof APPLIED transition applied]).filterMap
            newEntry =
          rows.filterMap newEntry ++ [.event event] := by
      have happlied : newEntry (ActionLedger.activationRow e proof APPLIED transition applied) =
          none := by
        simp [newEntry, ActionLedger.activationRow, NewClaim.fact, entryOf, APPLIED, ARTIFACTS,
          EVENTS]
      rw [List.filterMap_append, List.filterMap_cons_some hrecord.entry,
        List.filterMap_cons_none happlied, List.filterMap_nil]
    have hrow : ∀ m ∈ [ActionLedger.activationRow e proof EVENTS id audit,
        ActionLedger.activationRow e proof APPLIED transition applied],
        (∃ entry, Records m entry) ∨ m.subject = APPLIED ∧ m.supersedesId = none ∧
          m.status = .accepted := by
      intro m hm
      rcases List.mem_cons.mp hm with rfl | hm
      · exact .inl ⟨_, hrecord⟩
      · obtain rfl := List.mem_singleton.mp hm
        exact .inr ⟨rfl, rfl, rfl⟩
    rw [hentries]
    rcases archiveRows_ok harchive with ⟨-, m, rfl, hm⟩ | ⟨⟨a, ha⟩, rfl⟩
    · have hone : [m].filterMap newEntry = [.artifact t] := by
        rw [List.filterMap_cons_some hm.entry, List.filterMap_nil]
      have hneeds : Admits (logOf facts) (.artifact t) := by
        refine ⟨fun hne => absurd htype hne, ?_, ?_⟩
        · intro hdecision
          simp [htype] at hdecision
        · intro happroval
          simp [htype] at happroval
      constructor
      · rw [hone, ← List.append_assoc]
        apply Justified.snoc (Justified.snoc hlog hneeds)
        apply hadmitted (eventsOf_artifact _ _)
        rw [mem_artifactsOf]
        simp
      · intro n hn
        rcases List.mem_append.mp hn with hn | hn
        · obtain rfl := List.mem_singleton.mp hn
          exact .inl ⟨_, hm⟩
        · exact hrow n hn
    · refine ⟨?_, hrow⟩
      rw [List.filterMap_nil, List.nil_append]
      apply Justified.snoc hlog
      apply hadmitted rfl
      have hmem := List.mem_map_of_mem (f := (·.value)) (List.mem_of_find?_eq_some ha)
      have hsame : a.value = t := by
        rw [ha] at hold
        simpa using hold
      rwa [hartifacts, hsame] at hmem

end

end
end PlatformAction
end Munarium
