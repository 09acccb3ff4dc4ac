import Munarium.Platform.EventLedger

/-! `EventLedger::archive_replay` and `EventLedger::replay`: the bytes of a decision's replay are
kept once for its operation, after its proposal and its result are recorded. -/
namespace Munarium

namespace EventLedger
open PlatformRecord

def replaySubject : String := "platform.decision-replays"

/-- What an archive reads off its bytes. -/
structure ReplayBundle where
  operation : String
  requestDigest : String
  digest : String
  request : Json
  result : Json

/-- The row holds the replay of the operation. -/
def isReplayOf (operation : String) (fact : Claim) : Bool :=
  fact.subject == replaySubject && fact.key == operation

section
variable [SerdeJson]

/-- The facts against a bundle: its bytes are archived, or whether its proposal and its result
are recorded. -/
def scanReplay (raw : Bytes) (b : ReplayBundle) :
    Bool × Bool → List Claim → Result (Unit ⊕ Bool × Bool)
  | flags, [] => .ok (.inr flags)
  | (proposal, decision), fact :: rest =>
      if isReplayOf b.operation fact then
        if utf8 fact.value ≠ raw then .error .idempotencyMismatch else .ok (.inl ())
      else if fact.subject = subject then
        match readEvent fact with
        | none => .error invalidRecord
        | some event =>
            if event["operation_id"] = .str b.operation then
              if event["request_digest"] ≠ .str b.requestDigest then .error .idempotencyMismatch
              else scanReplay raw b
                (proposal || (event["kind"] == .str "proposal" && event["payload"] == b.request),
                  decision || event["payload"] == b.result) rest
            else scanReplay raw b (proposal, decision) rest
      else scanReplay raw b (proposal, decision) rest

/-- One attempt's decision on an archive. -/
def judgeReplay (c : RecorderContext) (raw : Bytes) (b : ReplayBundle) (_ : ℕ)
    (facts : List Claim) : Result (Verdict String) := do
  match ← scanReplay raw b (false, false) facts with
  | .inl () => .ok (.reply b.digest)
  | .inr (proposal, decision) =>
      require (proposal && decision)
      let text ← orInvalid (fromUtf8 raw)
      let evidence := Json.object [("replay_digest", .str b.digest),
        ("request_digest", .str b.requestDigest), ("recorder", c.identity.toJson)]
      .ok (.append { NewClaim.fact replaySubject b.operation text with evidence := some evidence }
        fun _ => .ok b.digest)

variable [Sha256]

def replayDigest (raw : Bytes) : String :=
  "sha256:" ++ sha256Hex (utf8 "munarium:decision-replay:v1" ++ [0] ++ raw)

/-- The facts of a lookup: the one replay of the operation, with its digest checked. -/
def findReplay (l : EventLedger) (operation : String) :
    Option (Bytes × String) → List Claim → Result (Option (Bytes × String))
  | found, [] => .ok found
  | found, fact :: rest =>
      if isReplayOf operation fact then
        if found.isSome then .error invalidRecord
        else
          match SerdeJson.fromSlice (utf8 fact.value) with
          | none => .error invalidRecord
          | some v =>
              if v["request"]["tenant"] ≠ .str l.tenant then .error deniedRecord
              else if fact.evidence.all fun e =>
                  e["replay_digest"] != .str (replayDigest (utf8 fact.value)) then
                .error invalidRecord
              else l.findReplay operation
                (some (utf8 fact.value, replayDigest (utf8 fact.value))) rest
      else l.findReplay operation found rest

variable [FoundationSchema]

/-- The checks of the bytes themselves. -/
def unpackReplay (l : EventLedger) (raw : Bytes) : Result ReplayBundle := do
  require (raw.length ≤ 8 * 1024 * 1024)
  let bundle ← orInvalid (SerdeJson.fromSlice raw)
  require (SerdeJson.toVec bundle == raw)
  let request := bundle["request"]
  validateRecord "request" request
  let result := bundle["decision"]
  validateRecord (if (result.get "outcome").isSome then "decision" else "refusal") result
  let operation ← orInvalid request["operation_id"].asStr
  let requestDigest ← recordDigest "munarium:decision-request:v1" request
  if request["tenant"] ≠ .str l.tenant ∨ result["tenant"] ≠ .str l.tenant ∨
      result["operation_id"] ≠ .str operation ∨ result["request_digest"] ≠ .str requestDigest then
    .error deniedRecord
  else .ok ⟨operation, requestDigest, replayDigest raw, request, result⟩

/-- What is checked of an archive before the ledger is read. -/
def prepareReplay (l : EventLedger) (c : RecorderContext) (raw : Bytes) :
    Result ReplayBundle := do
  l.authorize c true
  l.unpackReplay raw

variable [Platform] [IdGenerator]

/-- `archive_replay`. -/
def archiveReplay (l : EventLedger) (c : RecorderContext) (raw : Bytes) :
    Shared State (Result String) :=
  onOk (fun b => retryAtHead l.version (.storage "platform replay contention")
      (judgeReplay c raw b) 16) (l.prepareReplay c raw)

omit [FoundationSchema] [IdGenerator] in
/-- `replay`. -/
def replay (l : EventLedger) (c : RecorderContext) (operation : String) :
    Shared State (Result (Option (Bytes × String))) :=
  onOk (fun _ =>
      Shared.read (fun s => s.headOf l.version) (onOk fun head =>
      Shared.read (fun s => s.sliceFacts l.version { asOfSeq := some head }) (onOk fun facts =>
      .done (l.findReplay operation none facts))))
    (l.authorize c false)

end

section Scan
variable [SerdeJson] {raw : Bytes} {b : ReplayBundle} {facts : List Claim}

/-- An event of the operation among some rows, bound to its request and of some kind. -/
def Recorded (facts : List Claim) (b : ReplayBundle) (P : Json → Prop) : Prop :=
  ∃ fact ∈ facts, fact.subject = subject ∧ ∃ event, readEvent fact = some event ∧
    event["operation_id"] = .str b.operation ∧ event["request_digest"] = .str b.requestDigest ∧
    P event

def IsProposal (b : ReplayBundle) (event : Json) : Prop :=
  event["kind"] = .str "proposal" ∧ event["payload"] = b.request

def IsResult (b : ReplayBundle) (event : Json) : Prop := event["payload"] = b.result

theorem Recorded.mono {P : Json → Prop} {more : List Claim} (h : Recorded facts b P)
    (hsub : facts ⊆ more) : Recorded more b P := by
  obtain ⟨fact, hfact, hrest⟩ := h
  exact ⟨fact, hsub hfact, hrest⟩

/-- The rows do not stand in the way of a bundle: those of its operation are its own. -/
structure Consistent (raw : Bytes) (b : ReplayBundle) (fact : Claim) : Prop where
  same : isReplayOf b.operation fact = true → utf8 fact.value = raw
  bound : fact.subject = subject → ∃ event, readEvent fact = some event ∧
    (event["operation_id"] = .str b.operation → event["request_digest"] = .str b.requestDigest)

/-- Archived bytes are found again. -/
theorem scanReplay_archived (hconsistent : ∀ fact ∈ facts, Consistent raw b fact)
    (harchived : ∃ fact ∈ facts, isReplayOf b.operation fact = true) (flags : Bool × Bool) :
    scanReplay raw b flags facts = .ok (.inl ()) := by
  induction facts generalizing flags with
  | nil =>
    obtain ⟨fact, hfact, -⟩ := harchived
    cases hfact
  | cons fact rest ih =>
    obtain ⟨hfact, hrest⟩ := List.forall_mem_cons.mp hconsistent
    unfold scanReplay
    by_cases hmine : isReplayOf b.operation fact = true
    · rw [if_pos hmine, if_neg (not_not.mpr (hfact.same hmine))]
    rw [if_neg hmine]
    have harchived : ∃ fact ∈ rest, isReplayOf b.operation fact = true := by
      obtain ⟨row, hrow, hreplay⟩ := harchived
      rcases List.mem_cons.mp hrow with rfl | hrow
      · exact absurd hreplay hmine
      · exact ⟨row, hrow, hreplay⟩
    by_cases hevent : fact.subject = subject
    · obtain ⟨event, hread, hbound⟩ := hfact.bound hevent
      rw [if_pos hevent, hread]
      simp only
      by_cases hop : event["operation_id"] = .str b.operation
      · rw [if_pos hop, if_neg (not_not.mpr (hbound hop))]
        exact ih hrest harchived _
      · rw [if_neg hop]
        exact ih hrest harchived _
    · rw [if_neg hevent]
      exact ih hrest harchived _

/-- Bytes that are found are archived. -/
theorem exists_of_scanReplay {flags : Bool × Bool}
    (h : scanReplay raw b flags facts = .ok (.inl ())) :
    ∃ fact ∈ facts, isReplayOf b.operation fact = true ∧ utf8 fact.value = raw := by
  induction facts generalizing flags with
  | nil => cases h
  | cons fact rest ih =>
    have hlater {flags : Bool × Bool} (h : scanReplay raw b flags rest = .ok (.inl ())) :
        ∃ row ∈ fact :: rest, isReplayOf b.operation row = true ∧ utf8 row.value = raw := by
      obtain ⟨row, hrow, hreplay⟩ := ih h
      exact ⟨row, List.mem_cons_of_mem _ hrow, hreplay⟩
    unfold scanReplay at h
    by_cases hmine : isReplayOf b.operation fact = true
    · rw [if_pos hmine] at h
      split_ifs at h with hsame
      exact ⟨fact, List.mem_cons_self, hmine, not_not.mp hsame⟩
    rw [if_neg hmine] at h
    by_cases hevent : fact.subject = subject
    · rw [if_pos hevent] at h
      cases hread : readEvent fact with
      | none => simp [hread] at h
      | some event =>
        simp only [hread] at h
        split_ifs at h
        · exact hlater h
        · exact hlater h
    · rw [if_neg hevent] at h
      exact hlater h

/-- Bytes that are new have no replay of their operation before them, and what the scan has
seen of their proposal and their result is recorded. -/
theorem scanReplay_new {flags seen : Bool × Bool}
    (h : scanReplay raw b flags facts = .ok (.inr seen)) :
    (∀ fact ∈ facts, isReplayOf b.operation fact = false) ∧
      (seen.1 = true → flags.1 = true ∨ Recorded facts b (IsProposal b)) ∧
      (seen.2 = true → flags.2 = true ∨ Recorded facts b (IsResult b)) := by
  induction facts generalizing flags with
  | nil =>
    cases h
    exact ⟨by simp, .inl, .inl⟩
  | cons fact rest ih =>
    have hsub : rest ⊆ fact :: rest := List.subset_cons_self _ _
    unfold scanReplay at h
    by_cases hmine : isReplayOf b.operation fact = true
    · rw [if_pos hmine] at h
      split_ifs at h
      cases h
    rw [if_neg hmine] at h
    have hskip (h : scanReplay raw b flags rest = .ok (.inr seen)) :
        (∀ row ∈ fact :: rest, isReplayOf b.operation row = false) ∧
          (seen.1 = true → flags.1 = true ∨ Recorded (fact :: rest) b (IsProposal b)) ∧
          (seen.2 = true → flags.2 = true ∨ Recorded (fact :: rest) b (IsResult b)) := by
      obtain ⟨hnone, hproposal, hresult⟩ := ih h
      refine ⟨List.forall_mem_cons.mpr ⟨by simpa using hmine, hnone⟩, ?_, ?_⟩
      · exact fun hseen => (hproposal hseen).imp_right fun h => h.mono hsub
      · exact fun hseen => (hresult hseen).imp_right fun h => h.mono hsub
    by_cases hevent : fact.subject = subject
    · rw [if_pos hevent] at h
      cases hread : readEvent fact with
      | none => simp [hread] at h
      | some event =>
        simp only [hread] at h
        by_cases hop : event["operation_id"] = .str b.operation
        · rw [if_pos hop] at h
          split_ifs at h with hbound
          have hrecorded {P : Json → Prop} (hP : P event) : Recorded (fact :: rest) b P :=
            ⟨fact, List.mem_cons_self, hevent, event, hread, hop, not_not.mp hbound, hP⟩
          obtain ⟨hnone, hproposal, hresult⟩ := ih h
          refine ⟨List.forall_mem_cons.mpr ⟨by simpa using hmine, hnone⟩, ?_, ?_⟩
          · intro hseen
            rcases hproposal hseen with hflag | hlater
            · rw [Bool.or_eq_true, Bool.and_eq_true, beq_iff_eq, beq_iff_eq] at hflag
              exact hflag.imp_right hrecorded
            · exact .inr (hlater.mono hsub)
          · intro hseen
            rcases hresult hseen with hflag | hlater
            · rw [Bool.or_eq_true, beq_iff_eq] at hflag
              exact hflag.imp_right hrecorded
            · exact .inr (hlater.mono hsub)
        · rw [if_neg hop] at h
          exact hskip h
    · rw [if_neg hevent] at h
      exact hskip h

end Scan
section Find
variable [SerdeJson] [Sha256] {l : EventLedger} {operation : String}

/-- A lookup goes by the rows of its operation. -/
theorem findReplay_filter (found : Option (Bytes × String)) (facts : List Claim) :
    l.findReplay operation found facts =
      l.findReplay operation found (facts.filter (isReplayOf operation)) := by
  induction facts generalizing found with
  | nil => rfl
  | cons fact rest ih =>
    by_cases hmine : isReplayOf operation fact = true
    · rw [List.filter_cons_of_pos hmine]
      simp only [findReplay, hmine, if_true, ih]
    · rw [List.filter_cons_of_neg hmine, ← ih]
      simp only [findReplay, hmine]
      rfl

/-- What a lookup finds is in a row of its operation. -/
theorem exists_of_findReplay {found : Option (Bytes × String)} {facts : List Claim}
    {r : Bytes × String} (h : l.findReplay operation found facts = .ok (some r)) :
    found = some r ∨ ∃ fact ∈ facts, isReplayOf operation fact = true ∧
      r = (utf8 fact.value, replayDigest (utf8 fact.value)) := by
  induction facts generalizing found with
  | nil =>
    cases h
    exact .inl rfl
  | cons fact rest ih =>
    have hlater {P : Prop} (h : P ∨ ∃ row ∈ rest, isReplayOf operation row = true ∧
        r = (utf8 row.value, replayDigest (utf8 row.value))) :
        P ∨ ∃ row ∈ fact :: rest, isReplayOf operation row = true ∧
          r = (utf8 row.value, replayDigest (utf8 row.value)) := by
      apply h.imp_right
      rintro ⟨row, hrow, hrest⟩
      exact ⟨row, List.mem_cons_of_mem _ hrow, hrest⟩
    unfold findReplay at h
    by_cases hmine : isReplayOf operation fact = true
    · rw [if_pos hmine] at h
      by_cases hfound : found.isSome = true
      · rw [if_pos hfound] at h
        cases h
      rw [if_neg hfound] at h
      cases hread : SerdeJson.fromSlice (utf8 fact.value) with
      | none => simp [hread] at h
      | some v =>
        simp only [hread] at h
        split_ifs at h
        rcases ih h with hsame | hrow
        · cases hsame
          exact .inr ⟨fact, List.mem_cons_self, hmine, rfl⟩
        · exact hlater (.inr hrow)
    · rw [if_neg hmine] at h
      exact hlater (ih h)

/-- A row that reads as this tenant's and names its own digest. -/
structure Attested (l : EventLedger) (row : Claim) : Prop where
  tenant : ∃ v, SerdeJson.fromSlice (utf8 row.value) = some v ∧
    v["request"]["tenant"] = .str l.tenant
  digest : ∃ e, row.evidence = some e ∧
    e["replay_digest"] = .str (replayDigest (utf8 row.value))

theorem findReplay_one {row : Claim} (hmine : isReplayOf operation row = true)
    (hrow : l.Attested row) :
    l.findReplay operation none [row] =
      .ok (some (utf8 row.value, replayDigest (utf8 row.value))) := by
  obtain ⟨v, hread, htenant⟩ := hrow.tenant
  obtain ⟨e, hevidence, hdigest⟩ := hrow.digest
  simp [findReplay, hmine, hread, htenant, hevidence, hdigest]

end Find

section Spec
variable [SerdeJson] {c : RecorderContext} {raw : Bytes} {b : ReplayBundle} {head : ℕ}
  {facts : List Claim}

/-- A replay is stored when none of its operation is there and both its events are. -/
theorem judgeReplay_append {claim : NewClaim} {reply : Claim → Result String}
    (h : judgeReplay c raw b head facts = .ok (.append claim reply)) :
    (∀ fact ∈ facts, isReplayOf b.operation fact = false) ∧ Recorded facts b (IsProposal b) ∧
      Recorded facts b (IsResult b) ∧ claim.subject = replaySubject ∧
      claim.key = b.operation ∧ claim.supersedesId = none ∧ claim.status = .accepted ∧
      utf8 claim.value = raw ∧
      (∃ e, claim.evidence = some e ∧ e["replay_digest"] = .str b.digest) ∧
      reply = fun _ => .ok b.digest := by
  obtain ⟨found, hscan, h⟩ := bind_eq_ok.mp h
  rcases found with ⟨⟨⟩⟩ | ⟨proposal, decision⟩
  · cases h
  · obtain ⟨⟨⟩, hboth, h⟩ := bind_eq_ok.mp h
    obtain ⟨text, htext, h⟩ := bind_eq_ok.mp h
    cases h
    have hboth := require_ok hboth
    rw [Bool.and_eq_true] at hboth
    obtain ⟨hnone, hproposal, hresult⟩ := scanReplay_new hscan
    refine ⟨hnone, ?_, ?_, rfl, rfl, rfl, rfl, utf8_of_fromUtf8 (orInvalid_ok htext), ?_, rfl⟩
    · exact (hproposal hboth.1).resolve_left (by simp)
    · exact (hresult hboth.2).resolve_left (by simp)
    · refine ⟨_, rfl, ?_⟩
      apply Json.index_object
      · simp
      · simp

theorem judgeReplay_reply {digest : String}
    (h : judgeReplay c raw b head facts = .ok (.reply digest)) :
    scanReplay raw b (false, false) facts = .ok (.inl ()) ∧ digest = b.digest := by
  obtain ⟨found, hscan, h⟩ := bind_eq_ok.mp h
  rcases found with ⟨⟨⟩⟩ | ⟨proposal, decision⟩
  · cases h
    exact ⟨hscan, rfl⟩
  · obtain ⟨⟨⟩, -, h⟩ := bind_eq_ok.mp h
    obtain ⟨text, -, h⟩ := bind_eq_ok.mp h
    cases h

theorem judgeReplay_not_appendAll {claims : List NewClaim} {reply : Result String} :
    judgeReplay c raw b head facts ≠ .ok (.appendAll claims reply) := by
  intro h
  obtain ⟨found, -, h⟩ := bind_eq_ok.mp h
  rcases found with ⟨⟨⟩⟩ | ⟨proposal, decision⟩
  · cases h
  · obtain ⟨⟨⟩, -, h⟩ := bind_eq_ok.mp h
    obtain ⟨text, -, h⟩ := bind_eq_ok.mp h
    cases h

theorem judgeReplay_archived (hconsistent : ∀ fact ∈ facts, Consistent raw b fact)
    (harchived : ∃ fact ∈ facts, isReplayOf b.operation fact = true) :
    judgeReplay c raw b head facts = .ok (.reply b.digest) := by
  simp only [judgeReplay, scanReplay_archived hconsistent harchived, bind, Except.bind]

/-- Where the operation has other bytes no judgement stores or finds these. -/
theorem judgeReplay_refuses (harchived : ∃ fact ∈ facts, isReplayOf b.operation fact = true)
    (hother : ∀ fact ∈ facts, isReplayOf b.operation fact = true → utf8 fact.value ≠ raw) :
    ∃ e, judgeReplay c raw b head facts = .error e := by
  cases hjudge : judgeReplay c raw b head facts with
  | error e => exact ⟨e, rfl⟩
  | ok verdict =>
    obtain ⟨row, hrow, hmine⟩ := harchived
    cases verdict with
    | reply digest =>
      obtain ⟨fact, hfact, hreplay, hsame⟩ := exists_of_scanReplay (judgeReplay_reply hjudge).1
      exact absurd hsame (hother fact hfact hreplay)
    | append claim reply =>
      have hnone := (judgeReplay_append hjudge).1 row hrow
      rw [hmine] at hnone
      cases hnone
    | appendAll claims reply => exact absurd hjudge judgeReplay_not_appendAll

variable [Sha256] [FoundationSchema] {l : EventLedger}

theorem unpackReplay_ok (h : l.unpackReplay raw = .ok b) :
    b.digest = replayDigest raw ∧ ∃ bundle, SerdeJson.fromSlice raw = some bundle ∧
      b.request = bundle["request"] ∧ b.result = bundle["decision"] ∧
      bundle["request"]["operation_id"] = .str b.operation ∧
      bundle["request"]["tenant"] = .str l.tenant ∧
      recordDigest "munarium:decision-request:v1" b.request = .ok b.requestDigest := by
  obtain ⟨⟨⟩, -, h⟩ := bind_eq_ok.mp h
  obtain ⟨bundle, hbundle, h⟩ := bind_eq_ok.mp h
  obtain ⟨⟨⟩, -, h⟩ := bind_eq_ok.mp h
  obtain ⟨⟨⟩, -, h⟩ := bind_eq_ok.mp h
  obtain ⟨⟨⟩, -, h⟩ := bind_eq_ok.mp h
  obtain ⟨operation, hoperation, h⟩ := bind_eq_ok.mp h
  obtain ⟨requestDigest, hdigest, h⟩ := bind_eq_ok.mp h
  split_ifs at h with hdenied
  cases h
  push Not at hdenied
  refine ⟨rfl, bundle, orInvalid_ok hbundle, rfl, rfl, ?_, hdenied.1, hdigest⟩
  exact Json.asStr_eq_some.mp (orInvalid_ok hoperation)

theorem prepareReplay_ok (h : l.prepareReplay c raw = .ok b) :
    l.authorize c true = .ok () ∧ l.unpackReplay raw = .ok b := by
  obtain ⟨⟨⟩, hauthorized, h⟩ := bind_eq_ok.mp h
  exact ⟨hauthorized, h⟩

end Spec
end EventLedger
end Munarium
