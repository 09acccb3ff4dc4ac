import Munarium.Platform.ActionRuns

/-! What the ledger's rows keep of the scope they were written under: a caller who could record
anything reads all of them. -/
namespace Munarium

namespace PlatformAction
open PlatformRecord (MAX canonicalRecord canonicalRecord_ok)

section
variable [SerdeJson]

/-- A row as a ledger of this scope reads it. -/
def readAs (scope : Json) (fact : Claim) : Result Stored := do
  let value ← canonicalRecord (utf8 fact.value)
  checkScope value scope
  let evidence ← orInvalid fact.evidence
  let receivedAt ← number evidence["received_at"]
  .ok ⟨value, fact.seq, receivedAt⟩

theorem readStored_eq (l : ActionLedger) : l.readStored = readAs l.policy.scope.value := rfl

/-- Every record can be read under the scope. -/
def Legible (scope : Json) (rows : List Claim) : Prop :=
  ∀ c ∈ rows, isRecord c = true → ∃ stored, readAs scope c = .ok stored

/-- The records can be read under the scope of any recorded event. -/
def OneScope (rows : List Claim) : Prop :=
  ∀ event scope, .event event ∈ logOf rows → event.get "scope" = some scope → Legible scope rows

theorem readAs_ok {scope : Json} {c : Claim} {stored : Stored} (h : readAs scope c = .ok stored) :
    SerdeJson.fromSlice (utf8 c.value) = some stored.value ∧ stored.seq = c.seq ∧
      scopesWithin scope stored.value = true := by
  obtain ⟨value, hvalue, h⟩ := bind_eq_ok.mp h
  obtain ⟨⟨⟩, hscope, h⟩ := bind_eq_ok.mp h
  obtain ⟨evidence, -, h⟩ := bind_eq_ok.mp h
  obtain ⟨receivedAt, -, h⟩ := bind_eq_ok.mp h
  cases h
  exact ⟨(canonicalRecord_ok hvalue).1, rfl, allow_ok hscope⟩

/-- What makes a new claim readable. -/
structure WrittenUnder (scope : Json) (m : NewClaim) : Prop where
  value : ∃ value, canonicalRecord (utf8 m.value) = .ok value ∧ scopesWithin scope value = true
  received : ∃ evidence n, m.evidence = some evidence ∧ number evidence["received_at"] = .ok n

theorem WrittenUnder.reads [IdGenerator] {scope : Json} {m : NewClaim} (h : WrittenUnder scope m)
    (v : String) (seq n : ℕ) :
    ∃ stored, readAs scope (State.storedClaim v seq n m) = .ok stored := by
  obtain ⟨value, hvalue, hscope⟩ := h.value
  obtain ⟨evidence, received, hevidence, hreceived⟩ := h.received
  refine ⟨⟨value, seq, received⟩, ?_⟩
  simp [readAs, State.storedClaim, hvalue, checkScope, hscope, allow, hevidence, orInvalid,
    hreceived, bind, Except.bind]

theorem Legible.append [IdGenerator] {scope : Json} {rows : List Claim} (h : Legible scope rows)
    {v : String} {seq n : ℕ} {batch : List NewClaim}
    (hbatch : ∀ m ∈ batch, m.subject = ARTIFACTS ∨ m.subject = EVENTS → WrittenUnder scope m) :
    Legible scope (rows ++ State.stampClaims v seq n batch) := by
  intro c hc hrecord
  rcases List.mem_append.mp hc with hc | hc
  · exact h c hc hrecord
  · obtain ⟨m, hm, i, j, rfl⟩ := exists_of_mem_stampClaims hc
    refine (hbatch m hm ?_).reads v i j
    simpa [isRecord, State.storedClaim] using hrecord

theorem exists_row_of_event {rows : List Claim} {event : Json} (h : .event event ∈ logOf rows) :
    ∃ c ∈ rows, isRecord c = true ∧ SerdeJson.fromSlice (utf8 c.value) = some event := by
  obtain ⟨c, hc, hentry⟩ := List.mem_filterMap.mp h
  refine ⟨c, hc, ?_⟩
  unfold readEntry entryOf at hentry
  split_ifs at hentry with hartifact hevent
  · obtain ⟨value, -, hvalue⟩ := Option.map_eq_some_iff.mp hentry
    cases hvalue
  · obtain ⟨value, hread, hvalue⟩ := Option.map_eq_some_iff.mp hentry
    cases hvalue
    exact ⟨by simp [isRecord, hevent], hread⟩

/-- Rows that one scope reads are of that scope. -/
theorem Legible.scope_eq {scope scope' event : Json} {rows : List Claim} (h : Legible scope rows)
    (hevent : .event event ∈ logOf rows) (hscope : event.get "scope" = some scope') :
    scope' = scope := by
  obtain ⟨c, hc, hrecord, hread⟩ := exists_row_of_event hevent
  obtain ⟨stored, hstored⟩ := h c hc hrecord
  obtain ⟨hread', -, hwithin⟩ := readAs_ok hstored
  obtain rfl := Option.some.inj (hread.symm.trans hread')
  exact scope_of_within hwithin hscope

theorem Legible.oneScope {scope : Json} {rows : List Claim} (h : Legible scope rows) :
    OneScope rows := by
  intro event scope' hevent hscope
  rw [h.scope_eq hevent hscope]
  exact h

/-- Rows that are no records change nothing. -/
theorem OneScope.foreign [IdGenerator] {rows : List Claim} (h : OneScope rows) {v : String}
    {seq n : ℕ} {batch : List NewClaim}
    (hbatch : ∀ m ∈ batch, m.subject ≠ ARTIFACTS ∧ m.subject ≠ EVENTS) :
    OneScope (rows ++ State.stampClaims v seq n batch) := by
  have hnone : batch.filterMap newEntry = [] := by
    rw [List.filterMap_eq_nil_iff]
    intro m hm
    rw [newEntry, entryOf, if_neg (hbatch m hm).1, if_neg (hbatch m hm).2]
  intro event scope hevent hscope
  rw [logOf_append, logOf_stampClaims, hnone, List.append_nil] at hevent
  refine (h event scope hevent hscope).append fun m hm hrecord => ?_
  rcases hrecord with hrecord | hrecord
  · exact absurd hrecord (hbatch m hm).1
  · exact absurd hrecord (hbatch m hm).2

/-- A snapshot that is taken reads every record. -/
theorem legible_of_snapshot {l : ActionLedger} {head : ℕ} {facts : List Claim}
    {out : List Stored × List Stored} (h : l.snapshot head facts = .ok out) :
    Legible l.policy.scope.value facts ∧ head ≤ MAX := by
  obtain ⟨⟨⟩, hhead, h⟩ := bind_eq_ok.mp h
  obtain ⟨rows, hrows, -⟩ := bind_eq_ok.mp h
  refine ⟨fun c hc hrecord => ?_, of_decide_eq_true (require_ok hhead)⟩
  have hmem : c ∈ facts.filter fun f => f.subject == ARTIFACTS || f.subject == EVENTS :=
    List.mem_filter.mpr ⟨hc, hrecord⟩
  generalize (facts.filter fun f => f.subject == ARTIFACTS || f.subject == EVENTS) = records
    at hrows hmem
  clear h
  induction records generalizing rows with
  | nil => cases hmem
  | cons d rest ih =>
    rw [List.mapM_cons] at hrows
    obtain ⟨row, hrow, hrows⟩ := bind_eq_ok.mp hrows
    obtain ⟨rows', hrows', -⟩ := bind_eq_ok.mp hrows
    rcases List.mem_cons.mp hmem with rfl | hmem
    · cases hr : l.readStored c with
      | error e => simp [hr, Except.map] at hrow
      | ok stored => exact ⟨stored, hr⟩
    · exact ih rows' hrows' hmem

/-- A snapshot can be taken of rows that the scope reads. -/
theorem Legible.snapshot {l : ActionLedger} {head : ℕ} {facts : List Claim}
    (h : Legible l.policy.scope.value facts) (hhead : head ≤ MAX) :
    ∃ out, l.snapshot head facts = .ok out := by
  obtain ⟨rows, hrows⟩ : ∃ rows, ((facts.filter fun f =>
      f.subject == ARTIFACTS || f.subject == EVENTS).mapM fun f =>
        (l.readStored f).map fun stored => (f.subject, stored)) = .ok rows := by
    refine exists_mapM_ok fun c hc => ?_
    obtain ⟨hc, hrecord⟩ := List.mem_filter.mp hc
    obtain ⟨stored, hstored⟩ := h c hc hrecord
    refine ⟨(c.subject, stored), ?_⟩
    rw [readStored_eq, hstored]
    rfl
  unfold ActionLedger.snapshot
  simp only [require, hhead, decide_true, if_true, bind, Except.bind, hrows]
  exact ⟨_, rfl⟩

variable [Sha256] [ActionSchema]

theorem Orderly.legible_slice {rows : List Claim} (h : Orderly rows) {scope : Json} :
    Legible scope (acceptedSlice rows) ↔ Legible scope rows := by
  have hmem (c : Claim) : c ∈ acceptedSlice rows ∧ isRecord c = true ↔
      c ∈ rows ∧ isRecord c = true := by
    rw [← List.mem_filter, ← List.mem_filter, h.record_slice]
  constructor
  · exact fun hlegible c hc hrecord => hlegible c ((hmem c).mpr ⟨hc, hrecord⟩).1 hrecord
  · exact fun hlegible c hc hrecord => hlegible c ((hmem c).mp ⟨hc, hrecord⟩).1 hrecord

omit [SerdeJson] [Sha256] [ActionSchema] in
theorem number_int {n : ℕ} (h : n ≤ MAX) : number (.int n) = .ok n := by
  have hroom : (0 : ℤ) ≤ n ∧ (n : ℤ) < 2 ^ 64 := by
    unfold MAX at h
    omega
  have hread : (Json.int n).asU64 = some n := by
    rw [Json.asU64, if_pos hroom]
    rfl
  rw [number, hread, Option.filter_some_pos (by simpa using h)]
  rfl

omit [SerdeJson] [Sha256] [ActionSchema] in
theorem authorize_now {l : ActionLedger} {a : ActionAdmission} {write : Bool}
    (h : l.authorize a write = .ok ()) : a.now ≤ MAX := by
  obtain ⟨⟨⟩, -, h⟩ := bind_eq_ok.mp h
  have h := allow_ok h
  simp only [Bool.and_eq_true, decide_eq_true_eq] at h
  exact h.1.2

omit [Sha256] [ActionSchema] in
/-- The bytes of a checked record with the time of their receipt. -/
theorem writtenUnder_of_raw {scope value evidence : Json} {raw : Bytes}
    {subject key content : String} {now : ℕ} (hcanonical : canonicalRecord raw = .ok value)
    (hscope : checkScope value scope = .ok ())
    (hcontent : orInvalid (fromUtf8 raw) = .ok content) (hnow : now ≤ MAX)
    (hreceived : evidence["received_at"] = .int now) :
    WrittenUnder scope { NewClaim.fact subject key content with evidence := some evidence } := by
  have hbytes := utf8_of_fromUtf8 (orInvalid_ok hcontent)
  refine ⟨⟨value, ?_, allow_ok hscope⟩, evidence, now, rfl, ?_⟩
  · show canonicalRecord (utf8 content) = .ok value
    rw [hbytes, hcanonical]
  · rw [hreceived, number_int hnow]

theorem judgeArchive_written {l : ActionLedger} {a : ActionAdmission} {raw : Bytes} {value : Json}
    {kind digest : String} {head : ℕ} {facts : List Claim} {claim : NewClaim}
    {reply : Claim → Result Json}
    (hprepared : l.prepareArchive a raw = .ok (value, kind, digest))
    (h : l.judgeArchive a raw value kind digest head facts = .ok (.append claim reply)) :
    Legible l.policy.scope.value facts ∧ WrittenUnder l.policy.scope.value claim ∧
      validateActionRecord value = .ok () := by
  obtain ⟨⟨⟩, hauthorized, hprepared⟩ := bind_eq_ok.mp hprepared
  obtain ⟨value', hcanonical, hprepared⟩ := bind_eq_ok.mp hprepared
  obtain ⟨⟨⟩, hvalid, hprepared⟩ := bind_eq_ok.mp hprepared
  obtain ⟨⟨⟩, hscope, hprepared⟩ := bind_eq_ok.mp hprepared
  obtain ⟨kind', -, hprepared⟩ := bind_eq_ok.mp hprepared
  obtain ⟨⟨⟩, -, hprepared⟩ := bind_eq_ok.mp hprepared
  obtain ⟨digest', -, hprepared⟩ := bind_eq_ok.mp hprepared
  cases hprepared
  obtain ⟨⟨artifacts, events⟩, hsnapshot, h⟩ := bind_eq_ok.mp h
  obtain ⟨found, -, h⟩ := bind_eq_ok.mp h
  cases found with
  | some old => cases h
  | none =>
    obtain ⟨⟨⟩, -, h⟩ := bind_eq_ok.mp h
    obtain ⟨content, hcontent, h⟩ := bind_eq_ok.mp h
    cases h
    exact ⟨(legible_of_snapshot hsnapshot).1, writtenUnder_of_raw hcanonical hscope hcontent
      (authorize_now hauthorized) (Json.index_object (by simp) (by simp)), hvalid⟩

theorem judgeAppend_written {l : ActionLedger} {a : ActionAdmission} {raw : Bytes} {event : Json}
    {digest : String} {recovery : Option RecoveryPermit} {head : ℕ} {facts : List Claim}
    {claim : NewClaim} {reply : Claim → Result Json}
    (hprepared : l.prepareAppend a raw = .ok (event, digest, recovery))
    (h : l.judgeAppend a raw event digest recovery head facts = .ok (.append claim reply)) :
    Legible l.policy.scope.value facts ∧ WrittenUnder l.policy.scope.value claim := by
  obtain ⟨⟨⟩, hauthorized, hprepared⟩ := bind_eq_ok.mp hprepared
  obtain ⟨event', hcanonical, hprepared⟩ := bind_eq_ok.mp hprepared
  obtain ⟨⟨⟩, -, hprepared⟩ := bind_eq_ok.mp hprepared
  obtain ⟨⟨⟩, -, hprepared⟩ := bind_eq_ok.mp hprepared
  obtain ⟨⟨⟩, hscope, hprepared⟩ := bind_eq_ok.mp hprepared
  obtain ⟨digest', -, hprepared⟩ := bind_eq_ok.mp hprepared
  obtain ⟨recovery', -, hprepared⟩ := bind_eq_ok.mp hprepared
  cases hprepared
  obtain ⟨⟨artifacts, events⟩, hsnapshot, h⟩ := bind_eq_ok.mp h
  obtain ⟨found, -, h⟩ := bind_eq_ok.mp h
  cases found with
  | inl old =>
    obtain ⟨ack, -, h⟩ := bind_eq_ok.mp h
    cases h
  | inr last =>
    obtain ⟨⟨⟩, -, h⟩ := bind_eq_ok.mp h
    obtain ⟨⟨⟩, -, h⟩ := bind_eq_ok.mp h
    obtain ⟨⟨⟩, -, h⟩ := bind_eq_ok.mp h
    obtain ⟨id, -, h⟩ := bind_eq_ok.mp h
    obtain ⟨content, hcontent, h⟩ := bind_eq_ok.mp h
    cases h
    exact ⟨(legible_of_snapshot hsnapshot).1, writtenUnder_of_raw hcanonical hscope hcontent
      (authorize_now hauthorized) (Json.index_object (by simp) (by simp))⟩

end

end PlatformAction
end Munarium
