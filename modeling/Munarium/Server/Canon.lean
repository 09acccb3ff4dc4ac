import Munarium.Server.GateView
import Munarium.Store.Rows

/-! Canon of a root version under commands: what a command stores is its batch, gated
against the accepted slice, and what readers see changes by that batch alone. -/
namespace Munarium

section
variable [Unicode] [Platform] [IdGenerator]

/-- A command is a step of the store. -/
theorem CommandEffect.step {r : AppendRequest} {s s' : State} (h : CommandEffect r s s') :
    s' = s ∨ ∃ c : Command, s' = c.step s := by
  cases h with
  | nothing => exact .inl rfl
  | @found seq findings _ h =>
    refine .inr ⟨.recordFindings r.versionId seq findings, ?_⟩
    simp only [Command.step, Command.exec, h, Except.map]
  | @appended head batch findings recorded _ _ hg h =>
    refine .inr ⟨.appendEvaluatedClaims r.versionId batch head recorded, ?_⟩
    simp only [Command.step, Command.exec, h, Except.map]

theorem appendEvents_reachable {s : State} (h : Reachable s) (r : AppendRequest) :
    Reachable (appendEvents s r).2 := by
  rcases (appendEvents_effect s r).step with hsame | ⟨c, hc⟩
  · rwa [hsame]
  · exact h.tail ⟨c, trivial, hc⟩

theorem appendEvents_version_kept {s : State} (h : Sound s) (r : AppendRequest) {v : String}
    (hv : s.versions v ≠ none) : (appendEvents s r).2.versions v = s.versions v ∧
      (appendEvents s r).2.versionMeta v = s.versionMeta v := by
  rcases (appendEvents_effect s r).step with hsame | ⟨c, hc⟩
  · rw [hsame]
    exact ⟨rfl, rfl⟩
  · rw [hc]
    exact (Command.step_effect s c).version_kept h hv

/-- The plain read of a root version. -/
theorem Reachable.root_read {s : State} (h : Reachable s) {v : String}
    (hroot : s.versions v = some none) :
    s.sliceFacts v {} = .ok (acceptedSlice (s.claims v)) := by
  refine h.sound.root_slice h.rowsSound hroot rfl rfl rfl fun c _ => ?_
  simp [FactQuery.pinAdmits]

/-- The gates judge the accepted slice of a root version. -/
theorem State.Shows.facts_eq {s : State} {v : String} {head : ℕ} {snapshot : MeshSnapshot}
    (hshows : s.Shows v head snapshot) (h : Reachable s) (hroot : s.versions v = some none) :
    snapshot.facts = acceptedSlice (s.claims v) := by
  have hslice := h.sound.root_slice_at_head h.rowsSound hroot hshows.at_head
  rw [hshows.facts] at hslice
  exact Except.ok.inj hslice

/-- The rows a command stored: none, or its batch as the gates leave it, stamped and drawn
past all that was there. -/
structure Stores (r : AppendRequest) (s : State) (stored : List Claim) : Prop where
  drawn : ∀ c ∈ stored, ∃ i, s.issued ≤ i ∧ c.id = claimId i
  supersedes : ∀ c ∈ stored, ∀ sup, c.supersedesId = some sup → ∃ i < s.issued, sup = claimId i
  gated : stored ≠ [] → ∃ head snapshot comparisons, s.Shows r.versionId head snapshot ∧
    AppendRequest.comparisonsOf (s.versionMeta r.versionId) = .ok comparisons ∧
    stored = State.stampClaims r.versionId (head + 1) s.issued
      (r.batch (r.findings snapshot comparisons))

theorem stores_nil (r : AppendRequest) (s : State) : Stores r s [] :=
  ⟨by simp, by simp, fun h => absurd rfl h⟩

theorem appendEvents_stores {s : State} (hrows : RowsSound s) (r : AppendRequest) :
    ∃ stored, (appendEvents s r).2.claims r.versionId = s.claims r.versionId ++ stored ∧
      Stores r s stored := by
  have he := appendEvents_effect s r
  generalize (appendEvents s r).2 = s' at he ⊢
  cases he with
  | nothing => exact ⟨[], by simp, stores_nil r _⟩
  | found h =>
    obtain ⟨lineage, -, h⟩ := bind_eq_ok.mp h
    cases h
    exact ⟨[], by simp, stores_nil r s⟩
  | appended hg h =>
    obtain ⟨snapshot, comparisons, hshows, hcomparisons, rfl, rfl⟩ := hg
    rcases appendBatch_eq_ok h with ⟨-, -, hsame⟩ | hbatch
    · exact ⟨[], by simp [hsame], stores_nil r s⟩
    · obtain ⟨hne, head, existing, recorded, hh, -, hex, hs, rfl, rfl⟩ := hbatch
      refine ⟨_, Function.update_self _ _ _, ?_, ?_, ?_⟩
      · intro c hc
        obtain ⟨i, hle, -, hid⟩ := stampClaims_drawn hc
        exact ⟨i, hle, hid⟩
      · intro c hc sup hsup
        obtain ⟨m, hm, i, j, rfl⟩ := exists_of_mem_stampClaims hc
        obtain ⟨x, hx, rfl⟩ := checkSupersedes_ok hs hm hsup
        obtain ⟨lineage, -, hlineage⟩ := bind_eq_ok.mp hex
        cases hlineage
        obtain ⟨u, -, hu⟩ := List.mem_flatMap.mp hx
        exact hrows.drawn u x hu
      · intro _
        have hhead := hshows.at_head
        rw [hh] at hhead
        cases hhead
        exact ⟨_, snapshot, comparisons, hshows, hcomparisons, rfl⟩

/-- The rows of a command are superseded by nothing. -/
theorem Stores.not_superseded {r : AppendRequest} {s : State} {stored : List Claim}
    (h : Stores r s stored) (hrows : RowsSound s) {c : Claim} (hc : c ∈ stored) :
    c.id ∉ supersededIds (s.claims r.versionId) ∧ c.id ∉ supersededIds stored := by
  obtain ⟨i, hle, hid⟩ := h.drawn c hc
  constructor
  · intro hmem
    obtain ⟨d, hd, hsup⟩ := mem_supersededIds.mp hmem
    obtain ⟨j, hlt, hj⟩ := hrows.supersedes _ d hd _ hsup
    have := claimId_injective (hid.symm.trans hj)
    omega
  · intro hmem
    obtain ⟨d, hd, hsup⟩ := mem_supersededIds.mp hmem
    obtain ⟨j, hlt, hj⟩ := h.supersedes d hd _ hsup
    have := claimId_injective (hid.symm.trans hj)
    omega

/-- How a command changes the accepted slice of its version. -/
theorem Stores.acceptedSlice {r : AppendRequest} {s : State} {stored : List Claim}
    (h : Stores r s stored) (hrows : RowsSound s) :
    acceptedSlice (s.claims r.versionId ++ stored) =
      (Munarium.acceptedSlice (s.claims r.versionId)).filter
          (fun c => !(supersededIds stored).contains c.id) ++
        stored.filter fun c => decide (c.status = .accepted) :=
  acceptedSlice_append (fun _ hc => (h.not_superseded hrows hc).1)
    fun _ hc => (h.not_superseded hrows hc).2

/-- In every reachable state a command changes the accepted slice of its root version by
its own rows alone: the facts these supersede leave, whatever their own status, and those
stored as accepted join. -/
theorem accepted_slice_after_command {s : State} (hs : Reachable s) (r : AppendRequest)
    (hroot : s.versions r.versionId = some none) :
    ∃ facts stored, s.sliceFacts r.versionId {} = .ok facts ∧
      (appendEvents s r).2.claims r.versionId = s.claims r.versionId ++ stored ∧
      (appendEvents s r).2.sliceFacts r.versionId {} =
        .ok (facts.filter (fun f => ∀ c ∈ stored, c.supersedesId ≠ some f.id) ++
          stored.filter fun c => c.status = .accepted) := by
  have hknown : s.versions r.versionId ≠ none := by simp [hroot]
  have hkept := (appendEvents_version_kept hs.sound r hknown).1
  have hs' := appendEvents_reachable hs r
  obtain ⟨stored, hclaims, hstores⟩ := appendEvents_stores hs.rowsSound r
  refine ⟨_, stored, hs.root_read hroot, hclaims, ?_⟩
  rw [hs'.root_read (hkept.trans hroot), hclaims, hstores.acceptedSlice hs.rowsSound]
  congr 2
  refine List.filter_congr fun f _ => ?_
  rw [Bool.eq_iff_iff]
  simp [mem_supersededIds]

end

section
attribute [local instance] asciiUnicode samplePlatform unaryIds

/-- A root version with one fact, whose value an anchor locks. -/
def anchoredCommands : List Command :=
  [.createVersion none none, .appendClaim "memv-" (.fact "hero" "eyes" "blue") none,
    .lockAnchor "memv-" "hero" "eyes" "blue" none none]

/-- A correction of that fact to another value. -/
def correctEyes : AppendRequest where
  versionId := "memv-"
  claims := [{ claimType := .correction, subject := "hero", key := "eyes", value := "green",
               supersedesId := some "claim-x" }]

/-- A correction the anchor blocks is stored disputed and still takes the fact away. -/
theorem accepted_slice_after_disputed_correction :
    let s := Command.run {} anchoredCommands
    (∃ facts stored, s.sliceFacts correctEyes.versionId {} = .ok facts ∧
      (appendEvents s correctEyes).2.claims correctEyes.versionId =
        s.claims correctEyes.versionId ++ stored ∧
      (appendEvents s correctEyes).2.sliceFacts correctEyes.versionId {} =
        .ok (facts.filter (fun f => ∀ c ∈ stored, c.supersedesId ≠ some f.id) ++
          stored.filter fun c => c.status = .accepted)) ∧
      ((appendEvents s correctEyes).2.claims correctEyes.versionId).map (·.status) =
        [.accepted, .disputed] := by
  have hroot : (Command.run {} anchoredCommands).versions correctEyes.versionId = some none := by
    decide +kernel
  have hslice := accepted_slice_after_command (RunWhere.of_run {} anchoredCommands)
    correctEyes hroot
  exact ⟨hslice, by decide +kernel⟩

/-- So a command all of whose claims are disputed can change the accepted slice. -/
theorem disputed_correction_changes_slice :
    ¬∀ (s : State) (r : AppendRequest), Reachable s → s.versions r.versionId = some none →
      ∃ facts stored, s.sliceFacts r.versionId {} = .ok facts ∧
        (appendEvents s r).2.claims r.versionId = s.claims r.versionId ++ stored ∧
        (appendEvents s r).2.sliceFacts r.versionId {} =
          .ok (facts.filter (fun f => ∀ c ∈ stored, c.status = .accepted →
              c.supersedesId ≠ some f.id) ++
            stored.filter fun c => c.status = .accepted) := by
  intro h
  obtain ⟨facts, stored, hbefore, hclaims, hafter⟩ := h (Command.run {} anchoredCommands)
    correctEyes (RunWhere.of_run {} anchoredCommands) (by decide +kernel)
  have hrows : ((appendEvents (Command.run {} anchoredCommands) correctEyes).2.claims
      correctEyes.versionId).map (·.status) =
        ((Command.run {} anchoredCommands).claims correctEyes.versionId).map (·.status) ++
          [.disputed] := by
    decide +kernel
  have hdisputed : stored.map (·.status) = [.disputed] := by
    rw [hclaims, List.map_append, List.append_cancel_left_eq] at hrows
    exact hrows
  have hone : ((Command.run {} anchoredCommands).sliceFacts correctEyes.versionId
      {}).toOption.map List.length = some 1 := by
    decide +kernel
  have hzero : ((appendEvents (Command.run {} anchoredCommands) correctEyes).2.sliceFacts
      correctEyes.versionId {}).toOption.map List.length = some 0 := by
    decide +kernel
  rw [hbefore] at hone
  rw [hafter] at hzero
  have hnone : ∀ c ∈ stored, c.status ≠ .accepted := by
    intro c hc hacc
    have hmem := List.mem_map_of_mem (f := (·.status)) hc
    rw [hdisputed, hacc] at hmem
    simp at hmem
  have hkeep : (facts.filter fun f => ∀ c ∈ stored, c.status = .accepted →
      c.supersedesId ≠ some f.id) = facts := by
    refine List.filter_eq_self.mpr fun f _ => ?_
    simpa using fun c hc hacc => absurd hacc (hnone c hc)
  rw [hkeep] at hzero
  simp only [Except.toOption, Option.map_some, Option.some.injEq, List.length_append] at hone hzero
  omega

end

section
variable [Unicode] [Platform] [IdGenerator]

/-- A run of commands, each run alone, all of which meet a condition. -/
def CommandRun (C : State → AppendRequest → Prop) : State → State → Prop :=
  Relation.ReflTransGen fun s s' => ∃ r, C s r ∧ s' = (appendEvents s r).2

def runCommands (s : State) (commands : List AppendRequest) : State :=
  commands.foldl (fun s r => (appendEvents s r).2) s

theorem CommandRun.of_run {C : State → AppendRequest → Prop} (s : State)
    (commands : List AppendRequest) (h : ∀ r ∈ commands, ∀ s, C s r) :
    CommandRun C s (runCommands s commands) := by
  induction commands generalizing s with
  | nil => exact .refl
  | cons r rest ih =>
    have hrest := ih (appendEvents s r).2 fun r' hr' => h r' (List.mem_cons_of_mem _ hr')
    exact hrest.head ⟨r, h r List.mem_cons_self s, rfl⟩

/-- Neither a correction nor a supersession. -/
def Plain (r : AppendRequest) : Prop :=
  ∀ c ∈ r.claims, c.claimType ≠ .correction ∧ c.supersedesId = none

/-- A key without an accepted fact is proposed with equivalent values only. -/
def Uncontested (key : String) (comparisons : ComparisonPolicies) (s : State)
    (r : AppendRequest) : Prop :=
  (∀ f ∈ s.claims r.versionId, f.status = .accepted → f.claimKey ≠ key) →
    ∀ c ∈ r.claims, ∀ d ∈ r.claims, c.claimKey = key → d.claimKey = key →
      valuesEquivalentWithPolicy c.value d.value (comparisons.policyFor key) = true

/-- The accepted rows of a key all have one compared form. -/
def Agrees (key : String) (comparisons : ComparisonPolicies) (rows : List Claim) : Prop :=
  ∀ a ∈ rows, ∀ b ∈ rows, a.status = .accepted → b.status = .accepted → a.claimKey = key →
    b.claimKey = key → comparedForm (comparisons.policyFor key) a.value =
      comparedForm (comparisons.policyFor key) b.value

/-- What a run of plain commands keeps of its root version. -/
structure PlainCanon (v key : String) (comparisons : ComparisonPolicies) (s : State) : Prop where
  reachable : Reachable s
  root : s.versions v = some none
  policy : AppendRequest.comparisonsOf (s.versionMeta v) = .ok comparisons
  plain : ∀ c ∈ s.claims v, c.supersedesId = none
  agrees : Agrees key comparisons (s.claims v)

omit [Unicode] [Platform] [IdGenerator] in
theorem acceptedSlice_plain {rows : List Claim} (h : ∀ c ∈ rows, c.supersedesId = none)
    {c : Claim} : c ∈ acceptedSlice rows ↔ c ∈ rows ∧ c.status = .accepted := by
  have hnone : c.id ∉ supersededIds rows := by
    intro hmem
    obtain ⟨d, hd, hsup⟩ := mem_supersededIds.mp hmem
    rw [h d hd] at hsup
    cases hsup
  simp [mem_acceptedSlice, hnone]

omit [Unicode] [Platform] in
/-- A stored row comes from a proposed claim, and is accepted only if no gate blocks it. -/
theorem exists_proposal {r : AppendRequest} {findings : List GateFinding}
    {v : String} {seq n : ℕ} {c : Claim}
    (h : c ∈ State.stampClaims v seq n (r.batch findings)) :
    ∃ p ∈ r.claims, c.claimType = p.claimType ∧ c.subject = p.subject ∧ c.key = p.key ∧
      c.value = p.value ∧ c.supersedesId = p.supersedesId ∧
      (c.status = .accepted ↔ p.claimKey ∉ blockedClaimKeys findings) := by
  obtain ⟨m, hm, i, j, rfl⟩ := exists_of_mem_stampClaims h
  obtain ⟨p, hp, rfl⟩ := List.mem_map.mp hm
  refine ⟨p, hp, rfl, rfl, rfl, rfl, rfl, ?_⟩
  by_cases hb : p.claimKey ∈ blockedClaimKeys findings
  · simp [State.storedClaim, ProposeClaimRequest.toNewClaim, hb]
  · simp [State.storedClaim, ProposeClaimRequest.toNewClaim, hb]

/-- An unblocked plain proposal agrees with every accepted row of its key. -/
theorem PlainCanon.agrees_with_stored {v key : String} {comparisons : ComparisonPolicies}
    {s : State} (h : PlainCanon v key comparisons s) {r : AppendRequest} (hr : Plain r)
    {snapshot : MeshSnapshot} (hfacts : snapshot.facts = acceptedSlice (s.claims v))
    {p : ProposeClaimRequest} (hp : p ∈ r.claims) (hkey : p.claimKey = key)
    (hfree : p.claimKey ∉ blockedClaimKeys (r.findings snapshot comparisons)) {a : Claim}
    (ha : a ∈ s.claims v) (hacc : a.status = .accepted) (hak : a.claimKey = key) :
    comparedForm (comparisons.policyFor key) p.value =
      comparedForm (comparisons.policyFor key) a.value := by
  obtain ⟨hplain, hsup⟩ := hr p hp
  have hslice : a ∈ snapshot.facts := by
    rw [hfacts]
    exact (acceptedSlice_plain h.plain).mpr ⟨ha, hacc⟩
  obtain ⟨f, hf⟩ := exists_isLatest hslice
  rw [hak] at hf
  have hfrow := hf.mem
  rw [hfacts] at hfrow
  obtain ⟨hfm, hfacc⟩ := (acceptedSlice_plain h.plain).mp hfrow
  have hfa := h.agrees f hfm a ha hfacc hacc hf.1 hak
  refine Eq.trans ?_ hfa
  by_contra hne
  refine hfree (r.blocked_of_runGates (blocked_iff_mismatch.mpr (.inr ?_)))
  have hproposed : p.toProposed ∈ r.candidate.claims := by
    refine List.mem_map.mpr ⟨p, List.mem_filter.mpr ⟨hp, ?_⟩, rfl⟩
    simpa using hplain
  have hpk : p.toProposed.claimKey = key := hkey
  refine ⟨p.toProposed, hproposed, rfl, hsup, f, ?_, ?_⟩
  · rw [hpk]
    exact hf
  · rw [hpk]
    exact valuesEquivalent_false_iff.mpr hne

/-- One plain command keeps the accepted rows of the key in agreement. -/
theorem PlainCanon.step {v key : String} {comparisons : ComparisonPolicies} {s : State}
    (h : PlainCanon v key comparisons s) {r : AppendRequest} (hv : r.versionId = v)
    (hr : Plain r) (hu : Uncontested key comparisons s r) :
    PlainCanon v key comparisons (appendEvents s r).2 := by
  subst hv
  have hknown : s.versions r.versionId ≠ none := by simp [h.root]
  obtain ⟨hversions, hmeta⟩ := appendEvents_version_kept h.reachable.sound r hknown
  obtain ⟨stored, hclaims, hstores⟩ := appendEvents_stores h.reachable.rowsSound r
  have hreachable := appendEvents_reachable h.reachable r
  rcases eq_or_ne stored [] with rfl | hne
  · rw [List.append_nil] at hclaims
    exact ⟨hreachable, hversions.trans h.root, hmeta ▸ h.policy, hclaims ▸ h.plain,
      hclaims ▸ h.agrees⟩
  obtain ⟨head, snapshot, comparisons', hshows, hpolicy, rfl⟩ := hstores.gated hne
  rw [h.policy] at hpolicy
  cases hpolicy
  have hfacts := hshows.facts_eq h.reachable h.root
  refine ⟨hreachable, hversions.trans h.root, hmeta ▸ h.policy, ?_, ?_⟩
  · intro c hc
    rw [hclaims] at hc
    rcases List.mem_append.mp hc with hold | hnew
    · exact h.plain c hold
    · obtain ⟨p, hp, -, -, -, -, hsup, -⟩ := exists_proposal hnew
      rw [hsup]
      exact (hr p hp).2
  · -- a stored row of the key against an accepted row that was there
    have hcross : ∀ a ∈ s.claims r.versionId, ∀ c ∈ State.stampClaims r.versionId (head + 1)
        s.issued (r.batch (r.findings snapshot comparisons)), a.status = .accepted →
        c.status = .accepted → a.claimKey = key → c.claimKey = key →
        comparedForm (comparisons.policyFor key) c.value =
          comparedForm (comparisons.policyFor key) a.value := by
      intro a ha c hc haacc hcacc hak hck
      obtain ⟨p, hp, -, hsubject, hkey, hvalue, -, hstatus⟩ := exists_proposal hc
      have hpk : p.claimKey = key := by
        rw [← hck, Claim.claimKey, hsubject, hkey]
        rfl
      rw [hvalue]
      exact h.agrees_with_stored hr hfacts hp hpk (hstatus.mp hcacc) ha haacc hak
    intro a ha b hb haacc hbacc hak hbk
    rw [hclaims] at ha hb
    rcases List.mem_append.mp ha with ha | ha <;> rcases List.mem_append.mp hb with hb | hb
    · exact h.agrees a ha b hb haacc hbacc hak hbk
    · exact (hcross a ha b hb haacc hbacc hak hbk).symm
    · exact hcross b hb a ha hbacc haacc hbk hak
    · by_cases hold : ∃ f ∈ s.claims r.versionId, f.status = .accepted ∧ f.claimKey = key
      · obtain ⟨f, hf, hfacc, hfk⟩ := hold
        exact (hcross f hf a ha hfacc haacc hfk hak).trans
          (hcross f hf b hb hfacc hbacc hfk hbk).symm
      · -- the key is new, so the batch itself has to agree
        push Not at hold
        obtain ⟨p, hp, -, hps, hpk, hpv, -, -⟩ := exists_proposal ha
        obtain ⟨q, hq, -, hqs, hqk, hqv, -, -⟩ := exists_proposal hb
        rw [hpv, hqv]
        refine valuesEquivalent_iff.mp (hu hold p hp q hq ?_ ?_)
        · rw [← hak, Claim.claimKey, hps, hpk]
          rfl
        · rw [← hbk, Claim.claimKey, hqs, hqk]
          rfl

theorem PlainCanon.run {v key : String} {comparisons : ComparisonPolicies} {s s' : State}
    (h : PlainCanon v key comparisons s)
    (hrun : CommandRun (fun s r => r.versionId = v ∧ Plain r ∧ Uncontested key comparisons s r)
      s s') : PlainCanon v key comparisons s' := by
  induction hrun with
  | refl => exact h
  | tail _ hstep ih =>
    obtain ⟨r, ⟨hv, hr, hu⟩, rfl⟩ := hstep
    exact ih.step hv hr hu

/-- A fresh store with one root version. -/
theorem createRoot_spec {metadata : Option Json} {v : String} {s : State}
    (h : State.createVersion {} none metadata = .ok (v, s)) :
    Reachable s ∧ s.versions v = some none ∧ s.claims v = [] := by
  refine ⟨.single ⟨.createVersion none metadata, trivial, ?_⟩, ?_⟩
  · simp only [Command.step, Command.exec, h, Except.map]
  · obtain ⟨snapshot, -, h⟩ := bind_eq_ok.mp h
    obtain ⟨prepared, -, h⟩ := bind_eq_ok.mp h
    cases h
    exact ⟨Function.update_self _ _ _, rfl⟩

theorem createRoot_eq {metadata : Option Json}
    (h : (State.createVersion {} none metadata).toOption.isSome = true) :
    State.createVersion {} none metadata =
      .ok ("memv-" ++ IdGenerator.next 0, Command.step {} (.createVersion none metadata)) := by
  cases hc : State.createVersion {} none metadata with
  | error e =>
    rw [hc] at h
    cases h
  | ok out =>
    have hstep : Command.step {} (.createVersion none metadata) = out.2 := by
      simp only [Command.step, Command.exec, hc, Except.map]
    rw [hstep]
    obtain ⟨snapshot, -, hc⟩ := bind_eq_ok.mp hc
    obtain ⟨prepared, -, hc⟩ := bind_eq_ok.mp hc
    cases hc
    rfl

/-- Canon never contradicts itself on a key whose first accepted values were proposed in
agreement: any two accepted facts of the key that a read returns are equivalent. -/
theorem canon_never_contradicts {metadata : Option Json} {v key : String} {s₀ s : State}
    {comparisons : ComparisonPolicies} {q : FactQuery} {facts : List Claim}
    (hcreate : State.createVersion {} none metadata = .ok (v, s₀))
    (hpolicy : AppendRequest.comparisonsOf (s₀.versionMeta v) = .ok comparisons)
    (hrun : CommandRun (fun s r => r.versionId = v ∧ Plain r ∧ Uncontested key comparisons s r)
      s₀ s) (hread : s.sliceFacts v q = .ok facts) :
    ∀ a ∈ facts, ∀ b ∈ facts, a.status = .accepted → b.status = .accepted →
      a.claimKey = key → b.claimKey = key →
      valuesEquivalentWithPolicy a.value b.value (comparisons.policyFor key) = true := by
  obtain ⟨hreachable, hroot, hempty⟩ := createRoot_spec hcreate
  have hstart : PlainCanon v key comparisons s₀ :=
    ⟨hreachable, hroot, hpolicy, by simp [hempty], by simp [Agrees, hempty]⟩
  have hcanon := hstart.run hrun
  obtain ⟨rows, hrows, hfacts⟩ := bind_eq_ok.mp hread
  rw [hcanon.reachable.sound.root_claims hcanon.root] at hrows
  cases hrows
  cases hfacts
  intro a ha b hb haacc hbacc hak hbk
  have harow := (mem_resolveSlice ha).1
  have hbrow := (mem_resolveSlice hb).1
  exact valuesEquivalent_iff.mpr (hcanon.agrees a harow b hbrow haacc hbacc hak hbk)

end

theorem plain_proposeFact (v subject key value : String) :
    Plain (proposeFact v subject key value) := by
  simp [Plain, proposeFact]

/-- A single proposal agrees with itself. -/
theorem uncontested_proposeFact [Unicode] (k : String) (comparisons : ComparisonPolicies)
    (s : State) (v subject key value : String) :
    Uncontested k comparisons s (proposeFact v subject key value) := by
  intro _ c hc d hd _ _
  rw [List.mem_singleton.mp hc, List.mem_singleton.mp hd]
  exact valuesEquivalent_iff.mpr rfl

section
attribute [local instance] asciiUnicode samplePlatform unaryIds

/-- Two spellings of one value, one command after the other. -/
def spelledCommands : List AppendRequest :=
  [proposeFact "memv-" "hero" "eyes" "blue", proposeFact "memv-" "hero" "eyes" "Blue"]

/-- Both spellings are accepted and agree. -/
theorem equivalent_spellings_do_not_contradict :
    let s := runCommands (Command.step {} (.createVersion none none)) spelledCommands
    (∀ facts, s.sliceFacts "memv-" {} = .ok facts → ∀ a ∈ facts, ∀ b ∈ facts,
      a.status = .accepted → b.status = .accepted → a.claimKey = "hero.eyes" →
      b.claimKey = "hero.eyes" → valuesEquivalentWithPolicy a.value b.value
        (({} : ComparisonPolicies).policyFor "hero.eyes") = true) ∧
    (s.sliceFacts "memv-" {}).toOption.map (fun fs => fs.map (·.value)) =
      some ["blue", "Blue"] := by
  have hmeta : (Command.step {} (.createVersion none none)).versionMeta "memv-" = none :=
    Option.isNone_iff_eq_none.mp (by decide +kernel)
  have hcreate : State.createVersion {} none none =
      .ok ("memv-", Command.step {} (.createVersion none none)) :=
    createRoot_eq (by decide +kernel)
  have hpolicy : AppendRequest.comparisonsOf
      ((Command.step {} (.createVersion none none)).versionMeta "memv-") = .ok {} := by
    rw [hmeta]
    rfl
  have hrun : CommandRun (fun s r => r.versionId = "memv-" ∧ Plain r ∧
      Uncontested "hero.eyes" {} s r) (Command.step {} (.createVersion none none))
      (runCommands (Command.step {} (.createVersion none none)) spelledCommands) := by
    refine CommandRun.of_run _ _ fun r hr s => ?_
    simp only [spelledCommands, List.mem_cons, List.not_mem_nil, or_false] at hr
    rcases hr with rfl | rfl
    · exact ⟨rfl, plain_proposeFact _ _ _ _, uncontested_proposeFact _ _ _ _ _ _ _⟩
    · exact ⟨rfl, plain_proposeFact _ _ _ _, uncontested_proposeFact _ _ _ _ _ _ _⟩
  refine ⟨fun facts hread => ?_, by decide +kernel⟩
  exact canon_never_contradicts hcreate hpolicy hrun hread

/-- Two values of one new key in one batch. -/
def contestedBatch : AppendRequest where
  versionId := "memv-"
  claims := [{ claimType := .fact, subject := "hero", key := "eyes", value := "blue" },
    { claimType := .fact, subject := "hero", key := "eyes", value := "green" }]

/-- A batch is gated as one unit against what was there before it, so the two values of a
new key are both accepted. -/
theorem contested_batch_contradicts :
    ¬∀ (metadata : Option Json) (v key : String) (s₀ s : State)
      (comparisons : ComparisonPolicies) (q : FactQuery) (facts : List Claim),
      State.createVersion {} none metadata = .ok (v, s₀) →
      AppendRequest.comparisonsOf (s₀.versionMeta v) = .ok comparisons →
      CommandRun (fun _ r => r.versionId = v ∧ Plain r) s₀ s → s.sliceFacts v q = .ok facts →
      ∀ a ∈ facts, ∀ b ∈ facts, a.status = .accepted → b.status = .accepted →
        a.claimKey = key → b.claimKey = key →
        valuesEquivalentWithPolicy a.value b.value (comparisons.policyFor key) = true := by
  intro h
  have hmeta : (Command.step {} (.createVersion none none)).versionMeta "memv-" = none :=
    Option.isNone_iff_eq_none.mp (by decide +kernel)
  have hplain : Plain contestedBatch := by simp [Plain, contestedBatch]
  have hbad : (State.sliceFacts (appendEvents (Command.step {} (.createVersion none none))
      contestedBatch).2 "memv-" {}).toOption.any (fun fs => fs.any fun a => fs.any fun b =>
        a.status = .accepted && b.status = .accepted && a.claimKey = "hero.eyes" &&
          b.claimKey = "hero.eyes" &&
          !valuesEquivalentWithPolicy a.value b.value .legacyTextV1) = true := by
    decide +kernel
  cases hread : State.sliceFacts (appendEvents (Command.step {} (.createVersion none none))
      contestedBatch).2 "memv-" {} with
  | error e =>
    rw [hread] at hbad
    cases hbad
  | ok facts =>
    rw [hread] at hbad
    simp only [Except.toOption, Option.any_some, List.any_eq_true, Bool.and_eq_true,
      decide_eq_true_eq, Bool.not_eq_true'] at hbad
    obtain ⟨a, ha, b, hb, ⟨⟨⟨hacc, hbacc⟩, hak⟩, hbk⟩, hne⟩ := hbad
    have hcreate : State.createVersion {} none none =
        .ok ("memv-", Command.step {} (.createVersion none none)) :=
      createRoot_eq (by decide +kernel)
    have heq := h none "memv-" "hero.eyes" _ _ {} {} facts hcreate (by rw [hmeta]; rfl)
      (.single ⟨contestedBatch, ⟨rfl, hplain⟩, rfl⟩) hread a ha b hb hacc
      hbacc hak hbk
    rw [show ({} : ComparisonPolicies).policyFor "hero.eyes" = .legacyTextV1 from rfl, hne] at heq
    cases heq

end
end Munarium
