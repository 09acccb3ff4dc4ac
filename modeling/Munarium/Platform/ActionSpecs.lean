import Munarium.Platform.ActionLog

/-! What the action ledger's operations decide, in the words of its log: an archive and an
append that go through are admitted by the log they were judged against. -/
namespace Munarium

namespace PlatformAction
open PlatformRecord (MAX check canonicalRecord canonicalRecord_ok)

def isRecord (c : Claim) : Bool := c.subject == ARTIFACTS || c.subject == EVENTS

theorem sameTry_of_sameAttempt {a b : Json} (h : sameAttempt a b = true) : SameTry a b := by
  simp only [sameAttempt, Bool.and_eq_true, beq_iff_eq] at h
  exact ⟨h.1.1.1, h.1.1.2⟩

theorem artifactFor_ok {kind : String} {record v : Json} {artifacts : List Stored}
    (h : artifactFor kind record artifacts = .ok v) :
    v ∈ artifacts.map (·.value) ∧ v["type"] = .str kind ∧ SameTry v record := by
  have hsome := orInvalid_ok h
  rw [Option.map_eq_some_iff] at hsome
  obtain ⟨a, hfind, rfl⟩ := hsome
  have hmem := List.mem_of_find?_eq_some hfind
  have hmatch := List.find?_some hfind
  simp only [Bool.and_eq_true, beq_iff_eq] at hmatch
  exact ⟨List.mem_map_of_mem hmem, hmatch.1.1, hmatch.2, hmatch.1.2⟩

theorem priorEvent_ok {kind : String} {payload : Json} {events : List Stored} {e : Stored}
    (h : priorEvent kind payload events = .ok e) :
    e.value ∈ events.map (·.value) ∧ e.value["kind"] = .str kind ∧
      SameTry e.value["payload"] payload := by
  have hfind := orInvalid_ok h
  have hmem := List.mem_of_find?_eq_some hfind
  have hmatch := List.find?_some hfind
  simp only [Bool.and_eq_true, beq_iff_eq] at hmatch
  exact ⟨List.mem_map_of_mem hmem, hmatch.1, sameTry_of_sameAttempt hmatch.2⟩

theorem artifactKey_of {v : Json} {kind : String} (h : v["type"] = .str kind)
    (hkind : kind ≠ "activation") {key : String × String} (hkey : artifactKey v = .ok key) :
    key.1 = kind ∧ v["attempt"]["id"] = .str key.2 := by
  obtain ⟨kind', hk, hkey⟩ := bind_eq_ok.mp hkey
  have hsame := text_ok hk
  rw [h, Json.str.injEq] at hsame
  subst hsame
  rw [if_neg hkind] at hkey
  obtain ⟨id, hid, hkey⟩ := bind_eq_ok.mp hkey
  cases hkey
  exact ⟨rfl, text_ok hid⟩

/-- An artifact that matches no other is the only one of its kind and attempt. -/
theorem matchArchive_none {kind : String} {value : Json} {artifacts : List Stored}
    (h : matchArchive kind value artifacts = .ok none) (hkind : kind ≠ "activation")
    (htype : value["type"] = .str kind) :
    ∀ old ∈ artifacts, old.value["type"] = value["type"] →
      old.value["attempt"]["id"] ≠ value["attempt"]["id"] := by
  induction artifacts with
  | nil => exact fun old hold => nomatch hold
  | cons first rest ih =>
    unfold matchArchive at h
    split at h
    · cases h
    split at h
    · cases h
    obtain ⟨a, ha, h⟩ := bind_eq_ok.mp h
    obtain ⟨b, hb, h⟩ := bind_eq_ok.mp h
    split at h
    · split at h <;> cases h
    rename_i hab
    intro old hold hold_type hattempt
    rcases List.mem_cons.mp hold with rfl | hold
    · obtain ⟨ha1, ha2⟩ := artifactKey_of (hold_type.trans htype) hkind ha
      obtain ⟨hb1, hb2⟩ := artifactKey_of htype hkind hb
      rw [ha2, hb2, Json.str.injEq] at hattempt
      exact hab (Prod.ext (ha1.trans hb1.symm) hattempt)
    · exact ih h old hold hold_type hattempt

section
variable [SerdeJson] [Sha256]

theorem requestFor_ok {record v : Json} {artifacts : List Stored} {log : List Entry}
    (hlog : artifacts.map (·.value) = artifactsOf log)
    (h : requestFor record artifacts = .ok v) : RequestFor log record v := by
  obtain ⟨request, hrequest, h⟩ := bind_eq_ok.mp h
  obtain ⟨digest, hdigest, h⟩ := bind_eq_ok.mp h
  obtain ⟨⟨⟩, hagree, h⟩ := bind_eq_ok.mp h
  cases h
  obtain ⟨hmem, htype, hsame⟩ := artifactFor_ok hrequest
  have hagree := require_ok hagree
  simp only [Bool.and_eq_true, beq_iff_eq] at hagree
  exact ⟨hlog ▸ hmem, htype, hsame, ⟨digest, hdigest, hagree.1⟩, hagree.2⟩

/-- What an archived artifact found in the log. -/
theorem validateArchive_needs {v : Json} {kind : String} {artifacts : List Stored}
    {log : List Entry} (hlog : artifacts.map (·.value) = artifactsOf log)
    (htype : v["type"] = .str kind) (hmatch : matchArchive kind v artifacts = .ok none)
    (h : validateArchive v artifacts = .ok ()) : ArtifactNeeds log v := by
  obtain ⟨kind', hkind, h⟩ := bind_eq_ok.mp h
  have hsame := text_ok hkind
  rw [htype, Json.str.injEq] at hsame
  subst hsame
  refine ⟨?_, ?_, ?_⟩
  · intro hne old hold
    rw [← hlog, List.mem_map] at hold
    obtain ⟨stored, hstored, rfl⟩ := hold
    have hkind' : kind ≠ "activation" := by
      rintro rfl
      exact hne htype
    exact matchArchive_none hmatch hkind' htype stored hstored
  · intro hdecision
    rw [htype, Json.str.injEq] at hdecision
    subst hdecision
    obtain ⟨request, hrequest, -⟩ := bind_eq_ok.mp h
    exact ⟨request, requestFor_ok hlog hrequest⟩
  · intro happroval
    rw [htype, Json.str.injEq] at happroval
    subst happroval
    obtain ⟨request, hrequest, h⟩ := bind_eq_ok.mp h
    obtain ⟨decision, hdecision, h⟩ := bind_eq_ok.mp h
    obtain ⟨⟨⟩, houtcome, h⟩ := bind_eq_ok.mp h
    obtain ⟨digest, hdigest, h⟩ := bind_eq_ok.mp h
    obtain ⟨hmem, hdtype, hdsame⟩ := artifactFor_ok hdecision
    have hall := require_ok h
    simp only [Bool.and_eq_true, beq_iff_eq, bne_iff_ne] at hall
    have houtcome := require_ok houtcome
    rw [beq_iff_eq] at houtcome
    exact ⟨⟨request, requestFor_ok hlog hrequest, hall.1.2, hall.2⟩, decision, hlog ▸ hmem,
      hdtype, hdsame, houtcome, digest, hdigest, hall.1.1⟩

omit [SerdeJson] [Sha256] in
theorem matchEvents_through {event : Json} {last : Option Json} {events : List Stored}
    {newest : Option Json} (h : matchEvents event last events = .ok (.inr newest)) :
    (∀ old ∈ events.map (·.value), old["event_id"] ≠ event["event_id"] ∧
      (old["family"] = .str "action" → event["family"] = .str "action" →
        payloadsClash old["payload"] event["payload"] = .ok false)) ∧
    newest = ((events.map (·.value)).filter fun old =>
      streamOf old = streamOf event).foldl (newer EventLedger.exceeds sequence) last := by
  induction events generalizing last with
  | nil =>
    cases h
    exact ⟨by simp, rfl⟩
  | cons first rest ih =>
    unfold matchEvents at h
    split at h
    · split at h <;> cases h
    rename_i hid
    obtain ⟨clash, hclash, h⟩ := bind_eq_ok.mp h
    split at h
    · cases h
    rename_i hfree
    rw [Bool.not_eq_true] at hfree
    subst hfree
    obtain ⟨hrest, hnewest⟩ := ih h
    constructor
    · intro old hold
      rcases List.mem_cons.mp hold with rfl | hold
      · refine ⟨hid, ?_⟩
        intro hfamilyOld hfamily
        rwa [eventsClash, if_pos ⟨hfamily, hfamilyOld⟩] at hclash
      · exact hrest old hold
    · rw [hnewest, List.map_cons, List.filter_cons]
      by_cases hkey : streamOf first.value = streamOf event
      · simp [hkey]
      · simp [hkey]

/-- An event that passes the check continues its stream. -/
theorem continues_of_check {event : Json} {last : Option Json}
    (h : checkSequence event last = .ok ()) : Continues event last := by
  cases last with
  | none =>
    have hall := require_ok h
    simp only [Bool.and_eq_true, beq_iff_eq] at hall
    exact ⟨by simp [sequence, hall.1, Json.asU64], Json.isNull_iff.mp hall.2⟩
  | some last =>
    obtain ⟨next, hnext, h⟩ := bind_eq_ok.mp h
    obtain ⟨prior, hprior, h⟩ := bind_eq_ok.mp h
    obtain ⟨⟨⟩, hsucc, h⟩ := bind_eq_ok.mp h
    obtain ⟨digest, hdigest, h⟩ := bind_eq_ok.mp h
    have hsucc := require_ok hsucc
    have hpoints := require_ok h
    rw [beq_iff_eq] at hsucc hpoints
    exact ⟨prior, (number_ok hprior).1, by rw [sequence, (number_ok hnext).1, hsucc], digest,
      hdigest, hpoints⟩

/-- What the events that follow a claim find in the log. -/
theorem stepPrerequisites_finds {l : ActionLedger} {kind : String} {payload request : Json}
    {events : List Stored} (h : l.stepPrerequisites kind payload request events = .ok ())
    {earlier : String} (hneeds : (kind, earlier) ∈ precedes) (hclaim : earlier ≠ "claim-created")
    (happroval : earlier ≠ "approval-recorded") :
    ∃ e, priorEvent earlier payload events = .ok e := by
  unfold ActionLedger.stepPrerequisites at h
  simp only [precedes, List.mem_cons, Prod.mk.injEq, List.not_mem_nil, or_false] at hneeds
  rcases hneeds with ⟨rfl, rfl⟩ | ⟨rfl, rfl⟩ | ⟨rfl, rfl⟩ | ⟨rfl, rfl⟩ | ⟨rfl, rfl⟩ | ⟨rfl, rfl⟩
  · exact absurd rfl happroval
  · exact absurd rfl hclaim
  · exact absurd rfl hclaim
  · obtain ⟨e, he, -⟩ := bind_eq_ok.mp h
    exact ⟨e, he⟩
  · obtain ⟨e, he, -⟩ := bind_eq_ok.mp h
    exact ⟨e, he⟩
  · obtain ⟨e, he, -⟩ := bind_eq_ok.mp h
    exact ⟨e, he⟩

theorem followPrerequisites_finds {l : ActionLedger} {kind : String} {payload request : Json}
    {events : List Stored} (h : l.followPrerequisites kind payload request events = .ok ()) :
    (∃ claim, priorEvent "claim-created" payload events = .ok claim) ∧
      (kind ≠ "grant-issued" → l.stepPrerequisites kind payload request events = .ok ()) := by
  obtain ⟨claim, hclaim, h⟩ := bind_eq_ok.mp h
  obtain ⟨⟨⟩, -, h⟩ := bind_eq_ok.mp h
  refine ⟨⟨claim, hclaim⟩, ?_⟩
  intro hgrant
  rw [if_neg hgrant] at h
  obtain ⟨⟨⟩, -, h⟩ := bind_eq_ok.mp h
  exact h

theorem activationPrerequisites_finds {event : Json} {artifacts : List Stored}
    {log : List Entry} (hlog : artifacts.map (·.value) = artifactsOf log)
    (h : ActionLedger.activationPrerequisites event artifacts = .ok ()) :
    ∃ transition ∈ artifactsOf log, transition["type"] = .str "activation" ∧
      transition["transition"] = event["payload"]["receipt"]["transition"] ∧
      ∃ d, actionDigest "activation" transition = .ok d ∧
        event["payload"]["receipt"]["transition_digest"] = .str d := by
  obtain ⟨stored, hfind, h⟩ := bind_eq_ok.mp h
  obtain ⟨digest, hdigest, h⟩ := bind_eq_ok.mp h
  have hfind := orInvalid_ok hfind
  have hmem := List.mem_map_of_mem (f := (·.value)) (List.mem_of_find?_eq_some hfind)
  have hmatch := List.find?_some hfind
  have hagree := require_ok h
  simp only [Bool.and_eq_true, beq_iff_eq] at hmatch hagree
  exact ⟨stored.value, hlog ▸ hmem, hmatch.1, hmatch.2, digest, hdigest, hagree.1⟩

/-- What an event that meets its prerequisites found in the log. -/
theorem prerequisites_needs {l : ActionLedger} {event : Json} {kind : String}
    {artifacts events : List Stored} {log : List Entry}
    (hartifacts : artifacts.map (·.value) = artifactsOf log)
    (hevents : events.map (·.value) = eventsOf log) (hkind : event["kind"] = .str kind)
    (hfamily : event["family"] =
      .str (if kind = "activation-applied" then "activation" else "action"))
    (h : l.prerequisites event artifacts events = .ok ()) : EventNeeds log event := by
  unfold ActionLedger.prerequisites at h
  by_cases hactivation : kind = "activation-applied"
  · subst hactivation
    rw [if_pos rfl] at hfamily
    simp only [hfamily, if_pos] at h
    have hfound := activationPrerequisites_finds hartifacts h
    refine ⟨fun hne => absurd hkind hne, ?_, ?_, ?_, fun _ => hfound⟩
    · intro happroval
      simp [hkind] at happroval
    · intro later earlier hprecedes hlater
      rw [hkind, Json.str.injEq] at hlater
      subst hlater
      simp [precedes] at hprecedes
    · intro hreconciled
      simp [hkind] at hreconciled
  rw [if_neg hactivation] at hfamily
  have haction : ¬event["family"] = .str "activation" := by simp [hfamily]
  simp only [if_neg haction] at h
  obtain ⟨request, hrequest, h⟩ := bind_eq_ok.mp h
  obtain ⟨⟨⟩, -, h⟩ := bind_eq_ok.mp h
  obtain ⟨kind', hkind', h⟩ := bind_eq_ok.mp h
  have hsame := text_ok hkind'
  rw [hkind, Json.str.injEq] at hsame
  subst hsame
  have hprior {earlier : String} {e : Stored}
      (he : priorEvent earlier event["payload"] events = .ok e) :
      ∃ prior ∈ eventsOf log, prior["kind"] = .str earlier ∧
        SameTry prior["payload"] event["payload"] := by
    obtain ⟨hmem, hpriorKind, hsame⟩ := priorEvent_ok he
    exact ⟨e.value, hevents ▸ hmem, hpriorKind, hsame⟩
  refine ⟨fun _ => ⟨request, requestFor_ok hartifacts hrequest⟩, ?_, ?_, ?_, ?_⟩
  · intro happroval
    rw [hkind, Json.str.injEq] at happroval
    rw [if_pos happroval] at h
    obtain ⟨approval, hfind, h⟩ := bind_eq_ok.mp h
    obtain ⟨⟨⟩, hid, h⟩ := bind_eq_ok.mp h
    obtain ⟨digest, hdigest, h⟩ := bind_eq_ok.mp h
    obtain ⟨hmem, htype, hsame⟩ := artifactFor_ok hfind
    have hid := require_ok hid
    have hdigestIs := require_ok h
    rw [beq_iff_eq] at hid hdigestIs
    exact ⟨approval, hartifacts ▸ hmem, htype, hsame, hid, digest, hdigest, hdigestIs⟩
  · intro later earlier hprecedes hlater
    rw [hkind, Json.str.injEq] at hlater
    subst hlater
    have hnot : kind ≠ "approval-recorded" := by
      rintro rfl
      simp [precedes] at hprecedes
    rw [if_neg hnot] at h
    by_cases hclaim : kind = "claim-created"
    · rw [if_pos hclaim] at h
      subst hclaim
      obtain ⟨e, he, -⟩ := bind_eq_ok.mp h
      obtain rfl : earlier = "approval-recorded" := by simpa [precedes] using hprecedes
      exact hprior he
    rw [if_neg hclaim] at h
    obtain ⟨⟨claim, hfound⟩, hstep⟩ := followPrerequisites_finds h
    by_cases hearlier : earlier = "claim-created"
    · exact hearlier ▸ hprior hfound
    have happroval : earlier ≠ "approval-recorded" := by
      rintro rfl
      simp [precedes, hclaim] at hprecedes
    have hgrant : kind ≠ "grant-issued" := by
      rintro rfl
      exact hearlier (by simpa [precedes] using hprecedes)
    obtain ⟨e, he⟩ := stepPrerequisites_finds (hstep hgrant) hprecedes hearlier happroval
    exact hprior he
  · intro hreconciled
    rw [hkind, Json.str.injEq] at hreconciled
    subst hreconciled
    obtain ⟨-, hstep⟩ := followPrerequisites_finds h
    have hstep := hstep (by decide)
    obtain ⟨prior, hfind, -⟩ := bind_eq_ok.mp hstep
    have hfind := orInvalid_ok hfind
    have hmem := List.mem_map_of_mem (f := (·.value)) (List.mem_of_find?_eq_some hfind)
    have hmatch := List.find?_some hfind
    simp only [Bool.and_eq_true, Bool.or_eq_true, beq_iff_eq] at hmatch
    exact ⟨prior.value, hevents ▸ hmem, hmatch.1.1, sameTry_of_sameAttempt hmatch.1.2⟩
  · intro happlied
    rw [hkind, Json.str.injEq] at happlied
    exact absurd happlied hactivation

end
end PlatformAction
end Munarium
