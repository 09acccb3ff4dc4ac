import Munarium.Platform.EpochChain

/-! The rows of the ledger's version as every run keeps them: orderly, of one scope, of valid
records, and with their activations in one chain; what each operation adds keeps them so. -/
namespace Munarium

namespace PlatformAction
open PlatformRecord (MAX canonicalRecord canonicalRecord_ok)

theorem artifactsOf_append (log more : List Entry) :
    artifactsOf (log ++ more) = artifactsOf log ++ artifactsOf more := List.filterMap_append

theorem eventsOf_append (log more : List Entry) :
    eventsOf (log ++ more) = eventsOf log ++ eventsOf more := List.filterMap_append

section
variable [SerdeJson] [Sha256] [ActionSchema]

structure LinkedRows (rows : List Claim) : Prop where
  orderly : Orderly rows
  oneScope : OneScope rows
  valid : ∀ value ∈ artifactsOf (logOf rows), validateActionRecord value = .ok ()
  generations : ∀ value ∈ eventsOf (logOf rows), ∃ n, number value["source_generation"] = .ok n
  chained : ∃ start ts, Chained rows start ts

theorem linkedRows_nil : LinkedRows [] where
  orderly := ⟨by simp, by simp, by simp, .nil, by simp⟩
  oneScope := by simp [OneScope, logOf]
  valid := by simp [logOf, artifactsOf]
  generations := by simp [logOf, eventsOf]
  chained := ⟨(0, ""), [], chained_nil rfl _⟩

variable [IdGenerator] {rows : List Claim} {v : String} {seq n : ℕ}

omit [SerdeJson] [Sha256] [ActionSchema] in
theorem isApplied_of_stamped {batch : List NewClaim} {c : Claim}
    (h : ∀ m ∈ batch, m.subject ≠ APPLIED ∧ m.subject ≠ ENROLLMENT)
    (hc : c ∈ State.stampClaims v seq n batch) : isApplied c = false ∧ isEnrollment c = false := by
  obtain ⟨m, hm, i, j, rfl⟩ := exists_of_mem_stampClaims hc
  simpa [isApplied, isEnrollment, State.storedClaim] using h m hm

/-- A record of the scope joins rows that the scope reads. -/
theorem LinkedRows.record (h : LinkedRows rows) {scope : Json} {m : NewClaim} {e : Entry}
    (hm : Records m e) (he : Admits (logOf rows) e) (hlegible : Legible scope rows)
    (hwritten : WrittenUnder scope m)
    (hvalid : ∀ value, e = .artifact value → validateActionRecord value = .ok ())
    (hgeneration : ∀ value, e = .event value → ∃ n, number value["source_generation"] = .ok n) :
    LinkedRows (rows ++ State.stampClaims v seq n [m]) := by
  obtain ⟨start, ts, hchain⟩ := h.chained
  have hlog : logOf (rows ++ State.stampClaims v seq n [m]) = logOf rows ++ [e] := by
    rw [logOf_append, logOf_stampClaims, List.filterMap_cons_some hm.entry, List.filterMap_nil]
  refine ⟨h.orderly.record hm he, ?_, ?_, ?_, start, ts, hchain.append ?_⟩
  · apply Legible.oneScope
    apply hlegible.append
    intro m' hm' _
    obtain rfl := List.mem_singleton.mp hm'
    exact hwritten
  · rw [hlog, artifactsOf_append]
    intro value hvalue
    rcases List.mem_append.mp hvalue with hvalue | hvalue
    · exact h.valid value hvalue
    · exact hvalid value (List.mem_singleton.mp (mem_artifactsOf.mp hvalue)).symm
  · rw [hlog, eventsOf_append]
    intro value hvalue
    rcases List.mem_append.mp hvalue with hvalue | hvalue
    · exact h.generations value hvalue
    · exact hgeneration value (List.mem_singleton.mp (mem_eventsOf.mp hvalue)).symm
  · intro c hc
    obtain ⟨m', hm', i, j, rfl⟩ := exists_of_mem_stampClaims hc
    obtain rfl := List.mem_singleton.mp hm'
    exact subject_of_entry (e := e) hm.entry

theorem LinkedRows.archive (h : LinkedRows rows) {l : ActionLedger} {a : ActionAdmission}
    {raw : Bytes} {value : Json} {kind digest : String} {head : ℕ} {claim : NewClaim}
    {reply : Claim → Result Json}
    (hprepared : l.prepareArchive a raw = .ok (value, kind, digest))
    (hjudge : l.judgeArchive a raw value kind digest head (acceptedSlice rows) =
      .ok (.append claim reply)) :
    LinkedRows (rows ++ State.stampClaims v seq n [claim]) := by
  obtain ⟨hadmits, hrecords, -⟩ := judgeArchive_append hprepared hjudge
  obtain ⟨hlegible, hwritten, hvalid⟩ := judgeArchive_written hprepared hjudge
  rw [h.orderly.log_slice] at hadmits
  refine h.record hrecords hadmits (h.orderly.legible_slice.mp hlegible) hwritten ?_ nofun
  rintro _ ⟨⟩
  exact hvalid

omit [IdGenerator] in
theorem prepareAppend_generation {l : ActionLedger} {a : ActionAdmission} {raw : Bytes}
    {event : Json} {digest : String} {recovery : Option RecoveryPermit}
    (h : l.prepareAppend a raw = .ok (event, digest, recovery)) :
    ∃ n, number event["source_generation"] = .ok n := by
  obtain ⟨⟨⟩, -, h⟩ := bind_eq_ok.mp h
  obtain ⟨event', -, h⟩ := bind_eq_ok.mp h
  obtain ⟨⟨⟩, -, h⟩ := bind_eq_ok.mp h
  obtain ⟨⟨⟩, -, h⟩ := bind_eq_ok.mp h
  obtain ⟨⟨⟩, -, h⟩ := bind_eq_ok.mp h
  obtain ⟨digest', -, h⟩ := bind_eq_ok.mp h
  obtain ⟨recovery', hadmission, h⟩ := bind_eq_ok.mp h
  cases h
  obtain ⟨id, -, h⟩ := bind_eq_ok.mp hadmission
  obtain ⟨stream, -, h⟩ := bind_eq_ok.mp h
  obtain ⟨generation, hgeneration, -⟩ := bind_eq_ok.mp h
  exact ⟨generation, hgeneration⟩

theorem LinkedRows.event (h : LinkedRows rows) {l : ActionLedger} {a : ActionAdmission}
    {raw : Bytes} {event : Json} {digest : String} {recovery : Option RecoveryPermit} {head : ℕ}
    {claim : NewClaim} {reply : Claim → Result Json}
    (hprepared : l.prepareAppend a raw = .ok (event, digest, recovery))
    (hjudge : l.judgeAppend a raw event digest recovery head (acceptedSlice rows) =
      .ok (.append claim reply)) :
    LinkedRows (rows ++ State.stampClaims v seq n [claim]) := by
  have hlog : Ledgered (logOf (acceptedSlice rows)) := by
    rw [h.orderly.log_slice]
    exact h.orderly.ledgered
  obtain ⟨hadmits, hrecords⟩ := judgeAppend_append hlog hprepared hjudge
  obtain ⟨hlegible, hwritten⟩ := judgeAppend_written hprepared hjudge
  rw [h.orderly.log_slice] at hadmits
  refine h.record hrecords hadmits (h.orderly.legible_slice.mp hlegible) hwritten nofun ?_
  rintro _ ⟨⟩
  exact prepareAppend_generation hprepared

/-- Rows on other subjects change nothing of the ledger. -/
theorem LinkedRows.foreign (h : LinkedRows rows) {batch : List NewClaim}
    (hbatch : ∀ m ∈ batch, m.subject ∉ reserved ∧ m.supersedesId = none) :
    LinkedRows (rows ++ State.stampClaims v seq n batch) := by
  obtain ⟨start, ts, hchain⟩ := h.chained
  have hsubjects : ∀ m ∈ batch, m.subject ≠ ARTIFACTS ∧ m.subject ≠ EVENTS ∧
      m.subject ≠ ENROLLMENT ∧ m.subject ≠ APPLIED := by
    intro m hm
    have hforeign := (hbatch m hm).1
    simpa [reserved] using hforeign
  have hentries : batch.filterMap newEntry = [] := by
    rw [List.filterMap_eq_nil_iff]
    intro m hm
    rw [newEntry, entryOf, if_neg (hsubjects m hm).1, if_neg (hsubjects m hm).2.1]
  refine ⟨h.orderly.append (fun m hm => filed_foreign (hbatch m hm).2 (hbatch m hm).1) ?_ ?_,
    h.oneScope.foreign fun m hm => ⟨(hsubjects m hm).1, (hsubjects m hm).2.1⟩, ?_, ?_, start, ts,
    hchain.append fun c hc => isApplied_of_stamped (fun m hm => ?_) hc⟩
  · rw [hentries, List.append_nil]
    exact h.orderly.ledgered
  · rw [filter_enrollment_append fun m hm => (hsubjects m hm).2.2.1]
    exact h.orderly.enrolled
  · rw [logOf_append, logOf_stampClaims, hentries, List.append_nil]
    exact h.valid
  · rw [logOf_append, logOf_stampClaims, hentries, List.append_nil]
    exact h.generations
  · exact ⟨(hsubjects m hm).2.2.2, (hsubjects m hm).2.2.1⟩

/-- The enrollment joins rows without one, and nothing was applied before. -/
theorem LinkedRows.enroll (h : LinkedRows rows) (hnone : rows.filter isEnrollment = [])
    {content : String} :
    LinkedRows (rows ++ State.stampClaims v seq n [.fact ENROLLMENT "initial" content]) := by
  obtain ⟨start, ts, hchain⟩ := h.chained
  obtain rfl := hchain.unpinned hnone
  have hentries : [NewClaim.fact ENROLLMENT "initial" content].filterMap newEntry = [] := by
    simp [newEntry, entryOf, NewClaim.fact, ENROLLMENT, ARTIFACTS, EVENTS]
  refine ⟨h.orderly.enroll hnone, h.oneScope.foreign ?_, ?_, ?_, start, [],
    chained_nil ?_ start⟩
  · simp [NewClaim.fact, ENROLLMENT, ARTIFACTS, EVENTS]
  · rw [logOf_append, logOf_stampClaims, hentries, List.append_nil]
    exact h.valid
  · rw [logOf_append, logOf_stampClaims, hentries, List.append_nil]
    exact h.generations
  · rw [appliedOf_append, hchain.applied, List.map_nil, List.nil_append]
    apply appliedOf_eq_nil
    intro c hc
    obtain ⟨m, hm, i, j, rfl⟩ := exists_of_mem_stampClaims hc
    obtain rfl := List.mem_singleton.mp hm
    simp [isApplied, State.storedClaim, NewClaim.fact, ENROLLMENT, APPLIED]

section Activation
variable {l : ActionLedger} {e : ActivationEnrollment} {t r : Json} {proof : ActivationEvidence}
  {digest : String} {stream : StreamRegistration} {facts : List Claim}
  {archive : List NewClaim} {audit applied : NewClaim} {event : Json}

omit [Sha256] [ActionSchema] [IdGenerator] in
theorem activationRow_written [SerdeRoundTrip] {scope value : Json} {content : String}
    (hcontent : encoded value = .ok content) (hscope : scopesWithin scope value = true)
    (hnow : proof.now ≤ MAX) (subject key : String) :
    WrittenUnder scope (ActionLedger.activationRow e proof subject key content) := by
  refine ⟨⟨value, encoded_canonical hcontent, hscope⟩, ActionLedger.provenance e proof, proof.now,
    rfl, ?_⟩
  have hreceived : (ActionLedger.provenance e proof)["received_at"] = .int proof.now :=
    Json.index_object (by simp) (by simp)
  rw [hreceived, number_int hnow]

omit [Sha256] [ActionSchema] [IdGenerator] in
/-- The records an activation stores can be read under its policy's scope. -/
theorem Enacts.written [SerdeRoundTrip]
    (h : Enacts l e t proof r digest facts archive audit applied event)
    (hscope : scopesWithin l.policy.scope.value t = true) (hnow : proof.now ≤ MAX) :
    ∀ m ∈ archive ++ [audit, applied], m.subject = ARTIFACTS ∨ m.subject = EVENTS →
      WrittenUnder l.policy.scope.value m := by
  intro m hm hsubject
  rcases List.mem_append.mp hm with hm | hm
  · rcases h.archive with ⟨rfl, -⟩ | ⟨content, hcontent, rfl⟩
    · cases hm
    · obtain rfl := List.mem_singleton.mp hm
      exact activationRow_written hcontent hscope hnow _ _
  rcases List.mem_cons.mp hm with rfl | hm
  · obtain ⟨id, content, hcontent, rfl⟩ := h.audit
    exact activationRow_written hcontent h.scope.1 hnow _ _
  · obtain rfl := List.mem_singleton.mp hm
    obtain ⟨id, content, -, rfl⟩ := h.applied
    simp [ActionLedger.activationRow, NewClaim.fact, APPLIED, ARTIFACTS, EVENTS] at hsubject

omit [Sha256] [ActionSchema] in
/-- An attempt that goes through adds all of an activation's rows. -/
theorem Enacts.activates [SerdeRoundTrip]
    (h : Enacts l e t proof r digest facts archive audit applied event)
    (hlog : logOf facts = logOf rows) : Activates l.policy.scope.value t r rows
      (rows ++ State.stampClaims v seq n (archive ++ [audit, applied])) := by
  obtain ⟨id, content, hcontent, haudit⟩ := h.audit
  obtain ⟨id', content', hcontent', happlied⟩ := h.applied
  have hevent (i j : ℕ) : readEntry (State.storedClaim v i j audit) = some (.event event) := by
    have hrecords : Records audit (.event event) := by
      subst haudit
      exact records_event (encoded_ok hcontent)
    exact hrecords.entry
  have hreceipt (i j : ℕ) : isApplied (State.storedClaim v i j applied) = true ∧
      storedValue (State.storedClaim v i j applied) = some (appliedRecord r) := by
    subst happlied
    exact ⟨rfl, storedValue_eq_some.mpr (encoded_canonical hcontent')⟩
  rcases h.archive with ⟨rfl, hold⟩ | ⟨content'', hcontent'', rfl⟩
  · exact ⟨[], _, _, event, rfl, .inl ⟨rfl, hlog ▸ hold⟩, hevent _ _, h.scope.2, h.receipt,
      h.generation, hreceipt _ _⟩
  · have hrecords : Records (ActionLedger.activationRow e proof ARTIFACTS digest content'')
        (.artifact t) := records_artifact (encoded_ok hcontent'')
    exact ⟨[_], _, _, event, rfl, .inr ⟨_, rfl, hrecords.entry⟩, hevent _ _, h.scope.2,
      h.receipt, h.generation, hreceipt _ _⟩

/-- An activation that goes through is the next link, and adds its rows together. -/
theorem LinkedRows.activate [StreamSchema] [SerdeRoundTrip] (h : LinkedRows rows) {value : Json}
    (hascending : rows.Pairwise fun a b => a.seq < b.seq)
    (henrolled : l.activationEnrollment e = .ok value) (hpin : Pinned rows value)
    (hprepared : l.prepareActivation e t proof = .ok (r, digest, stream)) {head : ℕ}
    {claims : List NewClaim} {reply : Result Json}
    (hjudge : l.judgeApply e t proof r digest stream head (acceptedSlice rows) =
      .ok (.appendAll claims reply)) :
    reply = .ok r ∧
      Activates l.policy.scope.value t r rows (rows ++ State.stampClaims v seq n claims) ∧
      LinkedRows (rows ++ State.stampClaims v seq n claims) := by
  obtain ⟨start, ts, hchain⟩ := h.chained
  obtain rfl := activationEnrollment_ok henrolled
  have hchain := hchain.restart hpin
  obtain ⟨rfl, archive, audit, applied, event, rfl, henacts⟩ := judgeApply_enacts hprepared hjudge
  obtain ⟨hvalid, hscope, hnow⟩ := prepareActivation_checked hprepared
  have hadds : Activates l.policy.scope.value t r rows
      (rows ++ State.stampClaims v seq n (archive ++ [audit, applied])) :=
    henacts.activates h.orderly.log_slice
  have hnext := henacts.succeeds h.orderly hascending hchain rfl hprepared
  refine ⟨rfl, hadds, h.orderly.activate hprepared hjudge, ?_, ?_, ?_, _, _,
    hchain.activate hadds (prepareActivation_receipt hprepared) hnext hpin⟩
  · apply Legible.oneScope
    exact (h.orderly.legible_slice.mp henacts.legible).append (henacts.written hscope hnow)
  · obtain ⟨archive', audit', applied', event', hrows, hadds⟩ := hadds
    rw [hrows, logOf_append, artifactsOf_append]
    intro value hvalue
    rcases List.mem_append.mp hvalue with hvalue | hvalue
    · exact h.valid value hvalue
    · rcases hadds.mem_log (mem_artifactsOf.mp hvalue) with hartifact | hevent
      · cases hartifact
        exact hvalid
      · cases hevent
  · obtain ⟨archive', audit', applied', event', hrows, hadds⟩ := hadds
    rw [hrows, logOf_append, eventsOf_append]
    intro value hvalue
    rcases List.mem_append.mp hvalue with hvalue | hvalue
    · exact h.generations value hvalue
    · rcases hadds.mem_log (mem_eventsOf.mp hvalue) with hartifact | hevent
      · cases hartifact
      · cases hevent
        exact hadds.generation

end Activation

end

end PlatformAction
end Munarium
