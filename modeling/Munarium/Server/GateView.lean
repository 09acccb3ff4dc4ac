import Munarium.Server.AppendEvents

/-! What a command has read against what the store holds. A command whose reads are up to
date appends what the gates make of the store it appends to. -/
namespace Munarium

section
variable [Unicode]

/-- The gates read a snapshot's facts and anchors only. -/
theorem runGates_congr {m m' : MeshSnapshot} (hf : m.facts = m'.facts)
    (ha : m.anchors = m'.anchors) (candidate : Candidate) (comparisons : ComparisonPolicies) :
    runGatesWithPolicies m candidate comparisons =
      runGatesWithPolicies m' candidate comparisons := by
  have hanchor (p : ProposedClaim) : anchorFinding m candidate.scopePath comparisons p =
      anchorFinding m' candidate.scopePath comparisons p := by
    simp only [anchorFinding, ha]
  have hledger (p : ProposedClaim) : ledgerFinding m candidate.scopePath comparisons p =
      ledgerFinding m' candidate.scopePath comparisons p := by
    simp only [ledgerFinding, hf]
  have horphan : checkOrphanedReference m candidate = checkOrphanedReference m' candidate := by
    simp only [checkOrphanedReference, hf]
  simp only [runGatesWithPolicies, checkAnchorConsistencyWithPolicies,
    checkLedgerConflictWithPolicies, funext hanchor, funext hledger, horphan]

theorem AppendRequest.findings_congr (r : AppendRequest) {m m' : MeshSnapshot}
    (hf : m.facts = m'.facts) (ha : m.anchors = m'.anchors)
    (comparisons : ComparisonPolicies) : r.findings m comparisons = r.findings m' comparisons := by
  have hchrono (rules : ChronologyRules) : checkChronology m r.candidate rules none =
      checkChronology m' r.candidate rules none := by
    simp only [checkChronology, hf]
  simp only [AppendRequest.findings, runGates_congr hf ha, hchrono]

theorem AppendRequest.blocked_of_runGates (r : AppendRequest) {m : MeshSnapshot}
    {comparisons : ComparisonPolicies} {key : String}
    (h : key ∈ blockedClaimKeys (runGatesWithPolicies m r.candidate comparisons)) :
    key ∈ blockedClaimKeys (r.findings m comparisons) := by
  simp only [AppendRequest.findings, blockedClaimKeys_append, List.mem_append]
  exact .inl (.inl h)

omit [Unicode] in
theorem AppendRequest.not_blocked_of_accepted (r : AppendRequest) {findings : List GateFinding}
    {m : NewClaim} (hm : m ∈ r.batch findings) (h : m.status = .accepted) :
    claimKeyOf m.subject m.key ∉ blockedClaimKeys findings := by
  obtain ⟨c, -, rfl⟩ := List.mem_map.mp hm
  intro hblocked
  have hkey : c.claimKey ∈ blockedClaimKeys findings := hblocked
  simp [ProposeClaimRequest.toNewClaim, hkey] at h

end

section
variable [Platform]

/-- The snapshot's facts and anchors are the version's at its head. -/
structure State.Shows (s : State) (v : String) (head : ℕ) (snapshot : MeshSnapshot) : Prop where
  at_head : s.headOf v = .ok head
  facts : s.sliceFacts v { asOfSeq := some head } = .ok snapshot.facts
  anchors : s.anchorsAt v (some head) = .ok snapshot.anchors

theorem State.shows_of_loadSnapshot {s : State} {v : String} {head : ℕ}
    {snapshot : MeshSnapshot} (hh : s.headOf v = .ok head)
    (h : s.loadSnapshot v none none (some head) = .ok snapshot) : s.Shows v head snapshot := by
  obtain ⟨facts, hf, h⟩ := bind_eq_ok.mp h
  obtain ⟨anchors, ha, h⟩ := bind_eq_ok.mp h
  obtain ⟨promises, -, h⟩ := bind_eq_ok.mp h
  obtain ⟨counters, -, h⟩ := bind_eq_ok.mp h
  cases h
  exact ⟨hh, hf, ha⟩

omit [Platform] in
theorem State.versionMetadata_eq_ok {s : State} {v : String} {metadata : Option Json}
    (h : s.versionMetadata v = .ok metadata) : metadata = s.versionMeta v := by
  unfold State.versionMetadata at h
  split at h
  · cases h
  · cases h
    rfl

end

namespace Phase

theorem after_eq {α : Type} {read : Result α} {next : α → Phase} {P : Phase → Prop}
    (hok : ∀ a, read = .ok a → P (next a)) (herr : ∀ e, P (.returned (.error e))) :
    P (after read next) := by
  cases hr : read with
  | error e => exact herr e
  | ok a => exact hok a hr

section
variable [Unicode] [Platform]

/-- The findings and the batch are those of a snapshot the version shows. -/
def Gated (r : AppendRequest) (s : State) (head : ℕ) (batch : List NewClaim)
    (findings : List GateFinding) : Prop :=
  ∃ snapshot comparisons, s.Shows r.versionId head snapshot ∧
    AppendRequest.comparisonsOf (s.versionMeta r.versionId) = .ok comparisons ∧
    findings = r.findings snapshot comparisons ∧ batch = r.batch findings

/-- What the command has read so far is what the store holds. -/
def UpToDate (r : AppendRequest) (s : State) : Phase → Prop
  | readFacts _ head => s.headOf r.versionId = .ok head
  | readAnchors _ head snapshot => s.headOf r.versionId = .ok head ∧
      s.sliceFacts r.versionId { asOfSeq := some head } = .ok snapshot.facts
  | readPromises _ head snapshot => s.Shows r.versionId head snapshot
  | readCounters _ head snapshot => s.Shows r.versionId head snapshot
  | readMetadata _ head snapshot => s.Shows r.versionId head snapshot
  | append _ head batch findings _ => Gated r s head batch findings
  | _ => True

theorem upToDate_start (r : AppendRequest) (s : State) : UpToDate r s (start r) := by
  unfold start
  split_ifs <;> trivial

theorem upToDate_appendFailed (r : AppendRequest) (s : State) (attempt : ℕ) (e : KernelError) :
    UpToDate r s (appendFailed r attempt e) := by
  unfold appendFailed
  split
  · split_ifs <;> trivial
  · trivial

variable [IdGenerator]

/-- A read leaves the store as it is and keeps the command up to date. -/
theorem UpToDate.read {r : AppendRequest} {s : State} {p : Phase} (h : UpToDate r s p)
    (happend : ∀ attempt head batch findings recorded,
      p ≠ .append attempt head batch findings recorded)
    (hpersist : ∀ head findings, p ≠ .persist head findings) :
    (step r s p).2 = s ∧ UpToDate r s (step r s p).1 := by
  cases p with
  | readHead attempt =>
    refine ⟨rfl, after_eq (fun head hh => ?_) fun e => trivial⟩
    unfold observe
    split
    · split_ifs
      · trivial
      · exact hh
    · exact hh
  | readFacts attempt head => exact ⟨rfl, after_eq (fun facts hf => ⟨h, hf⟩) fun e => trivial⟩
  | readAnchors attempt head snapshot =>
    exact ⟨rfl, after_eq (fun anchors ha => ⟨h.1, h.2, ha⟩) fun e => trivial⟩
  | readPromises attempt head snapshot =>
    exact ⟨rfl, after_eq (fun promises _ => ⟨h.at_head, h.facts, h.anchors⟩) fun e => trivial⟩
  | readCounters attempt head snapshot =>
    exact ⟨rfl, after_eq (fun counters _ => ⟨h.at_head, h.facts, h.anchors⟩) fun e => trivial⟩
  | readMetadata attempt head snapshot =>
    refine ⟨rfl, after_eq (fun metadata hm => ?_) fun e => trivial⟩
    have hmeta := State.versionMetadata_eq_ok hm
    subst hmeta
    refine after_eq (fun comparisons hc => ?_) fun e => trivial
    dsimp only
    split_ifs
    · trivial
    · exact after_eq (fun recorded _ => ⟨snapshot, comparisons, h, hc, rfl, rfl⟩)
        fun e => trivial
  | append attempt head batch findings recorded => exact absurd rfl (happend _ _ _ _ _)
  | persist head findings => exact absurd rfl (hpersist _ _)
  | returned outcome => exact ⟨rfl, trivial⟩

end
end Phase

section
variable [Unicode] [Platform] [IdGenerator]

/-- What a command does to the store it runs on alone: nothing, a record of findings, or
the append of the batch the gates make of that store. -/
inductive CommandEffect (r : AppendRequest) (s : State) : State → Prop
  | nothing : CommandEffect r s s
  | found {seq : ℕ} {findings : List GateFinding} {s' : State}
      (h : s.recordFindings r.versionId seq findings = .ok ((), s')) : CommandEffect r s s'
  | appended {head : ℕ} {batch : List NewClaim} {findings recorded : List GateFinding}
      {stored : List Claim} {s' : State} (hg : Phase.Gated r s head batch findings)
      (h : s.appendEvaluatedClaims r.versionId batch head recorded = .ok (stored, s')) :
      CommandEffect r s s'

theorem Phase.runAlone_returned (r : AppendRequest) (n : ℕ) (outcome : Result CommandOutcome)
    (s : State) : runAlone r n (.returned outcome, s) = (.returned outcome, s) := by
  induction n with
  | zero => rfl
  | succ n ih => exact ih

theorem Phase.runAlone_effect {r : AppendRequest} {s : State} (n : ℕ) {p : Phase}
    (h : UpToDate r s p) : CommandEffect r s (runAlone r n (p, s)).2 := by
  induction n generalizing p with
  | zero => exact .nothing
  | succ n ih =>
    show CommandEffect r s (runAlone r n (step r s p)).2
    have hread (hstep : (step r s p).2 = s) (hup : UpToDate r s (step r s p).1) :
        CommandEffect r s (runAlone r n (step r s p)).2 := by
      rw [← Prod.mk.eta (p := step r s p), hstep]
      exact ih hup
    cases p with
    | append attempt head batch findings recorded =>
      cases hx : s.appendEvaluatedClaims r.versionId batch head recorded with
      | ok out =>
        have hstep : step r s (.append attempt head batch findings recorded) =
            (.returned (.ok ⟨out.1, findings, (out.1.getLast?.map (·.seq)).getD head⟩), out.2) := by
          simp only [step, callAppend, hx]
        rw [hstep, runAlone_returned]
        exact .appended h hx
      | error e =>
        have hstep : step r s (.append attempt head batch findings recorded) =
            (appendFailed r attempt e, s) := by
          simp only [step, callAppend, hx]
        rw [hstep]
        exact ih (upToDate_appendFailed r s attempt e)
    | persist head findings =>
      by_cases he : findings.isEmpty = true
      · have hstep : step r s (.persist head findings) =
            (.returned (.ok ⟨[], findings, head⟩), s) := by
          simp only [step, callPersist, he, if_true]
        rw [hstep, runAlone_returned]
        exact .nothing
      · cases hx : s.recordFindings r.versionId head findings with
        | ok out =>
          have hstep : step r s (.persist head findings) =
              (.returned (.ok ⟨[], findings, head⟩), out.2) := by
            simp only [step, callPersist, he, hx, if_false, Bool.false_eq_true]
          rw [hstep, runAlone_returned]
          exact .found hx
        | error e =>
          have hstep : step r s (.persist head findings) =
              (.returned (.ok ⟨[], findings, head⟩), s) := by
            simp only [step, callPersist, he, hx, if_false, Bool.false_eq_true]
          rw [hstep, runAlone_returned]
          exact .nothing
    | _ =>
      obtain ⟨hstep, hup⟩ := h.read (by simp) (by simp)
      exact hread hstep hup

/-- Inversion of a command that runs alone. -/
theorem appendEvents_effect (s : State) (r : AppendRequest) :
    CommandEffect r s (appendEvents s r).2 :=
  Phase.runAlone_effect _ (Phase.upToDate_start r s)

end
end Munarium
