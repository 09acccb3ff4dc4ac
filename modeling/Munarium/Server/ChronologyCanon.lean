import Munarium.Core.Timeline
import Munarium.Server.Canon

/-! Canon of a root version under commands that arm chronology rules. The gate judges the
slice overlaid with a whole batch, and what canon then shows is that overlay only where
nothing disputed, reordered or uncovered stands behind it. -/
namespace Munarium

section Batch
variable [IdGenerator]

/-- What is kept of every claim of a batch is kept of its rows. -/
theorem map_stampClaims {α : Type} {f : Claim → α} {g : NewClaim → α} {v : String}
    (h : ∀ i j m, f (State.storedClaim v i j m) = g m) (seq n : ℕ) (batch : List NewClaim) :
    (State.stampClaims v seq n batch).map f = batch.map g := by
  induction batch generalizing seq n with
  | nil => rfl
  | cons m rest ih =>
    simp only [State.stampClaims, List.map_cons, h, ih]

namespace AppendRequest
variable (r : AppendRequest)

/-- The proposals in the order they are stored. -/
def proposals : List ProposedClaim := r.claims.map (·.toProposed)

/-- The proposals in the order the gate reads them. -/
def gateOrder : List ProposedClaim := r.candidate.claims ++ r.candidate.corrections

/-- The facts the command does not supersede. -/
def leaves (facts : List Claim) : List Claim :=
  facts.filter fun f => !(r.claims.filterMap (·.supersedesId)).contains f.id

omit [IdGenerator] in
theorem mem_gateOrder {p : ProposedClaim} : p ∈ r.gateOrder ↔ p ∈ r.proposals := by
  unfold gateOrder proposals candidate
  simp only [List.mem_append, List.mem_map, List.mem_filter]
  constructor
  · rintro (⟨c, ⟨hc, -⟩, rfl⟩ | ⟨c, ⟨hc, -⟩, rfl⟩)
    · exact ⟨c, hc, rfl⟩
    · exact ⟨c, hc, rfl⟩
  · rintro ⟨c, hc, rfl⟩
    by_cases hcorrection : c.claimType = .correction
    · exact .inr ⟨c, ⟨hc, by simpa using hcorrection⟩, rfl⟩
    · exact .inl ⟨c, ⟨hc, by simpa using hcorrection⟩, rfl⟩

/-- The rows of a batch assert what was proposed. -/
theorem map_proposed (v : String) (seq n : ℕ) (findings : List GateFinding) :
    (State.stampClaims v seq n (r.batch findings)).map Claim.proposed = r.proposals := by
  rw [map_stampClaims (g := fun m => ⟨m.claimType, m.subject, m.key, m.value, m.supersedesId⟩)
    (fun _ _ _ => rfl), batch, List.map_map]
  rfl

/-- The rows of a batch that readers see. -/
def acceptedRows (v : String) (seq n : ℕ) (findings : List GateFinding) : List Claim :=
  (State.stampClaims v seq n (r.batch findings)).filter fun c => decide (c.status = .accepted)

/-- The accepted rows of a batch assert its unblocked proposals. -/
theorem map_proposed_accepted (v : String) (seq n : ℕ) (findings : List GateFinding) :
    (r.acceptedRows v seq n findings).map Claim.proposed =
      r.proposals.filter fun p => !(blockedClaimKeys findings).contains p.claimKey := by
  have hpairs := map_stampClaims (v := v)
    (f := fun c : Claim => (decide (c.status = .accepted), c.proposed))
    (g := fun m => (decide (m.status = .accepted),
      ⟨m.claimType, m.subject, m.key, m.value, m.supersedesId⟩)) (fun _ _ _ => rfl) seq n
    (r.batch findings)
  have hfilter (rows : List Claim) :
      (rows.filter fun c => decide (c.status = .accepted)).map Claim.proposed =
        ((rows.map fun c => (decide (c.status = .accepted), c.proposed)).filter
          Prod.fst).map Prod.snd := by
    rw [List.filter_map, List.map_map]
    rfl
  rw [acceptedRows, hfilter, hpairs, batch, List.map_map, proposals, List.filter_map,
    List.filter_map, List.map_map]
  refine congrArg _ (List.filter_congr fun c _ => ?_)
  by_cases hb : c.claimKey ∈ blockedClaimKeys findings
  · have hp : c.toProposed.claimKey ∈ blockedClaimKeys findings := hb
    simp [ProposeClaimRequest.toNewClaim, hb, hp]
  · have hp : c.toProposed.claimKey ∉ blockedClaimKeys findings := hb
    simp [ProposeClaimRequest.toNewClaim, hb, hp]

end AppendRequest
end Batch

section
variable [Unicode] (rules : ChronologyRules)

def AppendRequest.Proposes (r : AppendRequest) (k : String) : Prop :=
  ∃ p ∈ r.proposals, tracksProposed rules k p = true

/-- The command shows the gate what canon will show: it disputes no governed proposal whose
key keeps an older event while it accepts another, what it accepts of a key comes last in
both orders, and superseding uncovers no older event. -/
structure Orderly (r : AppendRequest) (facts : List Claim) (blocked : List String) : Prop where
  settled : (∀ k, r.Proposes rules k → k ∈ blocked) ∨
    ∀ k ∈ blocked, r.Proposes rules k → (timelineOf rules (r.leaves facts) []).get? k = none
  ordered : ∀ k, k ∉ blocked →
    (timelineOf rules [] r.gateOrder).get? k = (timelineOf rules [] r.proposals).get? k
  covered : ∀ k, r.Proposes rules k ∧ k ∉ blocked ∨
    (timelineOf rules (r.leaves facts) []).get? k = none ∨
      (timelineOf rules (r.leaves facts) []).get? k = (timelineOf rules facts []).get? k

variable {rules}

theorem AppendRequest.latestProposed_gateOrder {r : AppendRequest} {k : String} :
    latestProposed rules r.gateOrder k = none ↔ ¬r.Proposes rules k := by
  simp [latestProposed, AppendRequest.Proposes, r.mem_gateOrder]

theorem AppendRequest.latestProposed_proposals {r : AppendRequest} {k : String} :
    latestProposed rules r.proposals k = none ↔ ¬r.Proposes rules k := by
  simp [latestProposed, AppendRequest.Proposes]

variable (rules) in
/-- The latest accepted row of an unblocked key is its last proposal. -/
theorem AppendRequest.latestTracked_accepted [IdGenerator] (r : AppendRequest)
    {findings : List GateFinding} {k : String} (hk : k ≠ ".")
    (hfree : k ∉ blockedClaimKeys findings) (v : String) (seq n : ℕ) :
    (latestTracked rules (r.acceptedRows v seq n findings) k).map Claim.proposed =
      latestProposed rules r.proposals k := by
  rw [map_latestTracked rules hk, r.map_proposed_accepted]
  unfold latestProposed
  rw [← List.filter_reverse, List.find?_filter]
  congr 1
  funext p
  by_cases hp : tracksProposed rules k p = true
  · have hpk := tracksProposed_claimKey hp
    simp [hp, hpk, hfree]
  · simp [hp]

variable (rules) in
/-- A blocked key has no accepted row. -/
theorem AppendRequest.latestTracked_blocked [IdGenerator] (r : AppendRequest)
    {findings : List GateFinding} {k : String} (hblocked : k ∈ blockedClaimKeys findings)
    (v : String) (seq n : ℕ) :
    latestTracked rules (r.acceptedRows v seq n findings) k = none := by
  refine List.find?_eq_none.mpr fun c hc htracks => ?_
  obtain ⟨hrow, hacc⟩ := List.mem_filter.mp (List.mem_reverse.mp hc)
  obtain ⟨p, -, -, hs, hkey, -, -, hstatus⟩ := exists_proposal hrow
  refine hstatus.mp (of_decide_eq_true hacc) ?_
  have hpk : p.claimKey = c.claimKey := by
    rw [Claim.claimKey, hs, hkey]
    rfl
  rwa [hpk, tracks_claimKey htracks]

theorem Claim.chronoEvent_proposed {f : Claim} {a : ChronoEvent} (h : f.chronoEvent = some a) :
    ∃ e, f.proposed.chronoEvent = some e ∧ e.origin = .candidate ∧ a.SameAs e := by
  obtain ⟨w, hw, rfl⟩ := Option.map_eq_some_iff.mp h
  have hproposed : parseWhen f.proposed.value = some w := hw
  have he : f.proposed.chronoEvent = some ⟨f.subject, f.key, f.value, w, none, .candidate⟩ := by
    rw [ProposedClaim.chronoEvent, hproposed]
    rfl
  exact ⟨_, he, rfl, rfl, rfl, rfl⟩

/-- The slice after a command: what it does not supersede, and its accepted rows. -/
def AppendRequest.after [IdGenerator] (r : AppendRequest) (facts : List Claim) (v : String)
    (seq n : ℕ) (findings : List GateFinding) : List Claim :=
  r.leaves facts ++ r.acceptedRows v seq n findings

section
variable [IdGenerator] {r : AppendRequest} {facts : List Claim} {findings : List GateFinding}
  {v : String} {seq n : ℕ}

/-- An event of the timeline after an orderly command is the gate's event of an accepted
proposal, or an event the timeline had before. -/
theorem Orderly.event (ho : Orderly rules r facts (blockedClaimKeys findings)) {k : String}
    {a : ChronoEvent} (h : (timelineOf rules (r.after facts v seq n findings) []).get? k = some a) :
    ((r.Proposes rules k ∧ k ∉ blockedClaimKeys findings) ∧
      ∃ e, (timelineOf rules facts r.gateOrder).get? k = some e ∧ e.origin = .candidate ∧
        a.SameAs e) ∨
    ¬(r.Proposes rules k ∧ k ∉ blockedClaimKeys findings) ∧
      (timelineOf rules (r.leaves facts) []).get? k = some a ∧
      (timelineOf rules facts []).get? k = some a := by
  rw [get?_timelineOf_facts] at h
  have hk : k ≠ "." := by
    rintro rfl
    rw [latestTracked_dot] at h
    cases h
  obtain ⟨f, hf, ha⟩ := Option.bind_eq_some_iff.mp h
  rw [AppendRequest.after, latestTracked_append] at hf
  cases hstored : latestTracked rules (r.acceptedRows v seq n findings) k with
  | some g =>
    rw [hstored, Option.some_or] at hf
    cases hf
    have hfree : k ∉ blockedClaimKeys findings := by
      intro hblocked
      rw [r.latestTracked_blocked rules hblocked] at hstored
      cases hstored
    have hlast := r.latestTracked_accepted rules hk hfree v seq n
    rw [hstored, Option.map_some] at hlast
    have hproposes : r.Proposes rules k := by
      by_contra hno
      rw [AppendRequest.latestProposed_proposals.mpr hno] at hlast
      cases hlast
    obtain ⟨e, he, horigin, hsame⟩ := Claim.chronoEvent_proposed ha
    refine .inl ⟨⟨hproposes, hfree⟩, e, ?_, horigin, hsame⟩
    have horder := ho.ordered k hfree
    rw [get?_timelineOf_proposed, get?_timelineOf_proposed, ← hlast, Option.bind_some, he] at horder
    obtain ⟨p, hp, hpe⟩ := Option.bind_eq_some_iff.mp horder
    rw [get?_timelineOf, hp]
    exact hpe
  | none =>
    rw [hstored, Option.none_or] at hf
    have hleft : (timelineOf rules (r.leaves facts) []).get? k = some a := by
      rw [get?_timelineOf_facts, hf, Option.bind_some, ha]
    have hno : ¬(r.Proposes rules k ∧ k ∉ blockedClaimKeys findings) := by
      rintro ⟨hproposes, hfree⟩
      have hlast := r.latestTracked_accepted rules hk hfree v seq n
      rw [hstored, Option.map_none] at hlast
      exact AppendRequest.latestProposed_proposals.mp hlast.symm hproposes
    refine .inr ⟨hno, hleft, ?_⟩
    rcases ho.covered k with hproposes | hnone | hsame
    · exact absurd hproposes hno
    · rw [hleft] at hnone
      cases hnone
    · rw [← hsame, hleft]

/-- An orderly command keeps the timeline consistent: a broken pair after it would be a
broken pair of the gate's timeline, and the gate blocks one of its proposals. -/
theorem Orderly.consistent (ho : Orderly rules r facts (blockedClaimKeys findings))
    (hblocking : rules.Blocking) (hold : Consistent rules (timelineOf rules facts []))
    {snapshot : MeshSnapshot} (hfacts : snapshot.facts = facts)
    (hfiled : ∀ k ∈ blockedClaimKeys (checkChronology snapshot r.candidate rules none),
      k ∈ blockedClaimKeys findings) :
    Consistent rules (timelineOf rules (r.after facts v seq n findings) []) := by
  subst hfacts
  intro a ha b hb hbroken
  obtain ⟨j, hj⟩ := SortedMap.mem_values_iff.mp ha
  obtain ⟨k, hk⟩ := SortedMap.mem_values_iff.mp hb
  rcases ho.settled with hall | hgone
  · -- nothing governed is accepted, so both events were there before
    have hkept {i : String} {e : ChronoEvent}
        (h : (timelineOf rules (r.after snapshot.facts v seq n findings) []).get? i = some e) :
        e ∈ (timelineOf rules snapshot.facts []).values := by
      rcases ho.event h with ⟨⟨hproposes, hfree⟩, -⟩ | ⟨-, -, hold⟩
      · exact absurd (hall i hproposes) hfree
      · exact SortedMap.mem_values_iff.mpr ⟨i, hold⟩
    exact hold a (hkept hj) b (hkept hk) hbroken
  · -- the gate's timeline shows every event of the new one
    have hshown {i : String} {e : ChronoEvent}
        (h : (timelineOf rules (r.after snapshot.facts v seq n findings) []).get? i = some e) :
        ∃ e', (timelineOf rules snapshot.facts r.gateOrder).get? i = some e' ∧ e.SameAs e' ∧
          (e'.origin = .candidate ∧ i ∉ blockedClaimKeys findings ∨
            e'.origin = .ledger ∧ (timelineOf rules snapshot.facts []).get? i = some e) := by
      rcases ho.event h with ⟨⟨-, hfree⟩, e', he', horigin, hsame⟩ | ⟨hno, hleft, hold⟩
      · exact ⟨e', he', hsame, .inl ⟨horigin, hfree⟩⟩
      · have hnot : ¬r.Proposes rules i := by
          intro hproposes
          have hblocked : i ∈ blockedClaimKeys findings := by
            by_contra hfree
            exact hno ⟨hproposes, hfree⟩
          rw [hgone i hblocked hproposes] at hleft
          cases hleft
        have hsame : (timelineOf rules snapshot.facts r.gateOrder).get? i = some e := by
          rw [get?_timelineOf, AppendRequest.latestProposed_gateOrder.mpr hnot]
          rwa [get?_timelineOf_facts] at hold
        exact ⟨e, hsame, ⟨rfl, rfl, rfl⟩, .inr ⟨timelineOf_facts_origin hold, hold⟩⟩
    obtain ⟨a', ha', hasame, ha0⟩ := hshown hj
    obtain ⟨b', hb', hbsame, hb0⟩ := hshown hk
    by_cases hcandidate : a'.origin = .candidate ∨ b'.origin = .candidate
    · obtain ⟨e, heq, horigin, hfiledKey⟩ := blocked_of_broken hblocking
        (SortedMap.mem_values_iff.mpr ⟨j, ha'⟩) (SortedMap.mem_values_iff.mpr ⟨k, hb'⟩)
        (hbroken.congr hasame hbsame) hcandidate
      have hblocked := hfiled _ hfiledKey
      rcases heq with rfl | rfl
      · rw [(timelineOf_spec ha').1] at hblocked
        rcases ha0 with ⟨-, hfree⟩ | ⟨hledger, -⟩
        · exact hfree hblocked
        · rw [hledger] at horigin
          cases horigin
      · rw [(timelineOf_spec hb').1] at hblocked
        rcases hb0 with ⟨-, hfree⟩ | ⟨hledger, -⟩
        · exact hfree hblocked
        · rw [hledger] at horigin
          cases horigin
    · push Not at hcandidate
      rcases ha0 with ⟨h, -⟩ | ⟨-, haold⟩
      · exact hcandidate.1 h
      rcases hb0 with ⟨h, -⟩ | ⟨-, hbold⟩
      · exact hcandidate.2 h
      exact hold a (SortedMap.mem_values_iff.mpr ⟨j, haold⟩) b
        (SortedMap.mem_values_iff.mpr ⟨k, hbold⟩) hbroken

end
end
section
variable [Unicode] [Platform] [IdGenerator]

/-- The claim keys that the gates block for the command on this store. -/
def AppendRequest.Blocks (r : AppendRequest) (s : State) (blocked : List String) : Prop :=
  ∃ head snapshot comparisons, s.Shows r.versionId head snapshot ∧
    AppendRequest.comparisonsOf (s.versionMeta r.versionId) = .ok comparisons ∧
    blocked = blockedClaimKeys (r.findings snapshot comparisons)

/-- A step of a run that arms the rules: an orderly command on the version, or a write of
anything but claims of the version. -/
inductive ArmedStep (rules : ChronologyRules) (v : String) : State → State → Prop
  | command {s : State} {r : AppendRequest} (hv : r.versionId = v)
      (hr : r.chronology = some rules) (ho : ∀ facts blocked, s.sliceFacts v {} = .ok facts →
        r.Blocks s blocked → Orderly rules r facts blocked) :
      ArmedStep rules v s (appendEvents s r).2
  | other {s : State} {c : Command} (hc : c.claimTarget ≠ some v) :
      ArmedStep rules v s (c.step s)

/-- What a run that arms the rules keeps of its root version. -/
structure ChronologyCanon (rules : ChronologyRules) (v : String) (s : State) : Prop where
  reachable : Reachable s
  root : s.versions v = some none
  consistent : Consistent rules (timelineOf rules (acceptedSlice (s.claims v)) [])

/-- The accepted slice after a command, in terms of the command. -/
theorem acceptedSlice_after {r : AppendRequest} {s : State} {seq n : ℕ}
    {findings : List GateFinding} (hrows : RowsSound s)
    (h : Stores r s (State.stampClaims r.versionId seq n (r.batch findings))) :
    acceptedSlice (s.claims r.versionId ++
        State.stampClaims r.versionId seq n (r.batch findings)) =
      r.after (acceptedSlice (s.claims r.versionId)) r.versionId seq n findings := by
  have hids (rows : List Claim) : supersededIds rows =
      (rows.map Claim.proposed).filterMap (·.supersedesId) := by
    rw [List.filterMap_map]
    rfl
  rw [h.acceptedSlice hrows, hids, r.map_proposed, AppendRequest.proposals, List.filterMap_map]
  rfl

theorem ChronologyCanon.command {rules : ChronologyRules} (hblocking : rules.Blocking)
    {v : String} {s : State} (h : ChronologyCanon rules v s) {r : AppendRequest}
    (hv : r.versionId = v) (hr : r.chronology = some rules)
    (ho : ∀ facts blocked, s.sliceFacts v {} = .ok facts → r.Blocks s blocked →
      Orderly rules r facts blocked) : ChronologyCanon rules v (appendEvents s r).2 := by
  subst hv
  have hknown : s.versions r.versionId ≠ none := by simp [h.root]
  obtain ⟨hversions, -⟩ := appendEvents_version_kept h.reachable.sound r hknown
  obtain ⟨stored, hclaims, hstores⟩ := appendEvents_stores h.reachable.rowsSound r
  refine ⟨appendEvents_reachable h.reachable r, hversions.trans h.root, ?_⟩
  rw [hclaims]
  rcases eq_or_ne stored [] with rfl | hne
  · rw [List.append_nil]
    exact h.consistent
  obtain ⟨head, snapshot, comparisons, hshows, hpolicy, rfl⟩ := hstores.gated hne
  have hread := h.reachable.root_read h.root
  have hfacts := hshows.facts_eq h.reachable h.root
  rw [acceptedSlice_after h.reachable.rowsSound hstores]
  refine (ho _ _ hread ⟨head, snapshot, comparisons, hshows, hpolicy, rfl⟩).consistent
    hblocking h.consistent hfacts fun k hk => ?_
  simp only [AppendRequest.findings, hr, blockedClaimKeys_append, List.mem_append]
  exact .inl (.inr hk)

theorem ChronologyCanon.other {rules : ChronologyRules} {v : String} {s : State}
    (h : ChronologyCanon rules v s) {c : Command} (hc : c.claimTarget ≠ some v) :
    ChronologyCanon rules v (c.step s) := by
  have heffect := Command.step_effect s c
  have hknown : s.versions v ≠ none := by simp [h.root]
  have hclaims : (c.step s).claims v = s.claims v := by
    by_contra hne
    exact hc (heffect.claims_raise hne).1
  refine ⟨h.reachable.tail ⟨c, trivial, rfl⟩,
    (heffect.version_kept h.reachable.sound hknown).1.trans h.root, ?_⟩
  rw [hclaims]
  exact h.consistent

theorem ChronologyCanon.run {rules : ChronologyRules} (hblocking : rules.Blocking) {v : String}
    {s s' : State} (h : ChronologyCanon rules v s)
    (hrun : Relation.ReflTransGen (ArmedStep rules v) s s') : ChronologyCanon rules v s' := by
  induction hrun with
  | refl => exact h
  | tail _ hstep ih =>
    cases hstep with
    | command hv hr ho => exact ih.command hblocking hv hr ho
    | other hc => exact ih.other hc

/-- In every run of orderly commands that arm one asset of blocking rules, no pair of the
latest accepted facts that the rules follow certainly breaks an order, contains or duration
rule. -/
theorem chronology_canon_stays_consistent {rules : ChronologyRules} (hblocking : rules.Blocking)
    {metadata : Option Json} {v : String} {s₀ s : State} {facts : List Claim}
    (hcreate : State.createVersion {} none metadata = .ok (v, s₀))
    (hrun : Relation.ReflTransGen (ArmedStep rules v) s₀ s)
    (hread : s.sliceFacts v {} = .ok facts) :
    ∀ a ∈ latestEvents facts, ∀ b ∈ latestEvents facts, rules.Follows a → rules.Follows b →
      ¬CertainlyBroken rules a b := by
  obtain ⟨hreachable, hroot, hempty⟩ := createRoot_spec hcreate
  have hstart : ChronologyCanon rules v s₀ := by
    refine ⟨hreachable, hroot, ?_⟩
    rw [hempty]
    intro a ha
    cases ha
  have hcanon := hstart.run hblocking hrun
  rw [hcanon.reachable.root_read hcanon.root] at hread
  cases hread
  intro a ha b hb hfa hfb
  exact hcanon.consistent a (mem_timelineOf_of_latest ha hfa) b (mem_timelineOf_of_latest hb hfb)

omit [Platform] [IdGenerator] in
/-- One claim that supersedes nothing is an orderly command. -/
theorem orderly_single (rules : ChronologyRules) {r : AppendRequest} {c : ProposeClaimRequest}
    (hc : r.claims = [c]) (hs : c.supersedesId = none) (facts : List Claim)
    (blocked : List String) : Orderly rules r facts blocked := by
  have hproposals : r.proposals = [c.toProposed] := by
    rw [AppendRequest.proposals, hc]
    rfl
  have hgate : r.gateOrder = [c.toProposed] := by
    by_cases hcorrection : c.claimType = .correction
    · simp [AppendRequest.gateOrder, AppendRequest.candidate, hc, hcorrection]
    · simp [AppendRequest.gateOrder, AppendRequest.candidate, hc, hcorrection]
  have hleaves : r.leaves facts = facts := by simp [AppendRequest.leaves, hc, hs]
  have hkey {k : String} (h : r.Proposes rules k) : c.claimKey = k := by
    obtain ⟨p, hp, htracks⟩ := h
    rw [hproposals] at hp
    cases List.mem_singleton.mp hp
    exact tracksProposed_claimKey htracks
  refine ⟨?_, fun k _ => by rw [hgate, hproposals], fun k => .inr (.inr (by rw [hleaves]))⟩
  by_cases hblocked : c.claimKey ∈ blocked
  · exact .inl fun k hk => hkey hk ▸ hblocked
  · refine .inr fun k hk hproposes => ?_
    rw [← hkey hproposes] at hk
    exact absurd hk hblocked

end

def arm (rules : ChronologyRules) (r : AppendRequest) : AppendRequest :=
  { r with chronology := some rules }

section
variable [Unicode]

/-- Armed commands on a fresh root version after which two of its latest accepted facts
certainly break a blocking rule. -/
def Contradicts [Platform] [IdGenerator] (rules : ChronologyRules)
    (commands : List AppendRequest) : Prop :=
  rules.Blocking ∧ ∃ v s₀ facts, State.createVersion {} none none = .ok (v, s₀) ∧
    (∀ r ∈ commands, r.versionId = v ∧ r.chronology = some rules) ∧
    (runCommands s₀ commands).sliceFacts v {} = .ok facts ∧
    ∃ a ∈ latestEvents facts, ∃ b ∈ latestEvents facts, CertainlyBroken rules a b

/-- Two latest facts in the wrong order for some rule. -/
def misordered (rules : ChronologyRules) (facts : List Claim) : Bool :=
  (latestEvents facts).any fun a => (latestEvents facts).any fun b => rules.order.any fun r =>
    targetMatches r.before a && targetMatches r.after b && a.claimKey != b.claimKey &&
      a.subject == b.subject && b.when.definitelyBefore a.when

theorem broken_of_misordered {rules : ChronologyRules} {facts : List Claim}
    (h : misordered rules facts = true) :
    ∃ a ∈ latestEvents facts, ∃ b ∈ latestEvents facts, CertainlyBroken rules a b := by
  simp only [misordered, List.any_eq_true, Bool.and_eq_true, bne_iff_ne, beq_iff_eq,
    When.definitelyBefore, Bool.not_eq_true', decide_eq_true_eq] at h
  obtain ⟨a, ha, b, hb, r, hr, ⟨⟨⟨hbefore, hafter⟩, hkey⟩, hsubject⟩, ⟨hbc, hac⟩, hlt⟩ := h
  refine ⟨a, ha, b, hb, ⟨hac, hbc⟩, .inl ⟨r, hr, ⟨hbefore, hafter, hkey, .inl hsubject⟩, ?_⟩⟩
  exact (always_before_iff (latestEvents_ordered ha) (latestEvents_ordered hb)).mpr hlt

end

section
attribute [local instance] asciiUnicode samplePlatform unaryIds

def orderBefore (before after : String) : ChronologyRules where
  order := [{ before := before, after := after, severity := "block" }]

theorem orderBefore_blocking (before after : String) : (orderBefore before after).Blocking :=
  ⟨by simp [orderBefore], by simp [orderBefore], by simp [orderBefore]⟩

/-- A birth, and a death before it. -/
def lifeCommands : List AppendRequest :=
  [arm (orderBefore "birth_date" "death_date")
      (proposeFact "memv-" "hero" "birth_date" "1930"),
    arm (orderBefore "birth_date" "death_date")
      (proposeFact "memv-" "hero" "death_date" "1920")]

/-- The death is disputed and canon stays consistent. -/
theorem early_death_is_disputed :
    let s := runCommands (Command.step {} (.createVersion none none)) lifeCommands
    (∀ facts, s.sliceFacts "memv-" {} = .ok facts →
      ∀ a ∈ latestEvents facts, ∀ b ∈ latestEvents facts,
        (orderBefore "birth_date" "death_date").Follows a →
        (orderBefore "birth_date" "death_date").Follows b →
        ¬CertainlyBroken (orderBefore "birth_date" "death_date") a b) ∧
    (s.claims "memv-").map (·.status) = [.accepted, .disputed] := by
  have hcreate : State.createVersion {} none none =
      .ok ("memv-", Command.step {} (.createVersion none none)) :=
    createRoot_eq (by decide +kernel)
  have hrun : CommandRun (fun _ r => r.versionId = "memv-" ∧
      r.chronology = some (orderBefore "birth_date" "death_date") ∧
      ∀ facts blocked, Orderly (orderBefore "birth_date" "death_date") r facts blocked)
      (Command.step {} (.createVersion none none))
      (runCommands (Command.step {} (.createVersion none none)) lifeCommands) := by
    refine CommandRun.of_run _ _ fun r hr _ => ?_
    simp only [lifeCommands, List.mem_cons, List.not_mem_nil, or_false] at hr
    rcases hr with rfl | rfl
    · exact ⟨rfl, rfl, fun facts blocked => orderly_single _ rfl rfl facts blocked⟩
    · exact ⟨rfl, rfl, fun facts blocked => orderly_single _ rfl rfl facts blocked⟩
  have harmed : Relation.ReflTransGen (ArmedStep (orderBefore "birth_date" "death_date") "memv-")
      (Command.step {} (.createVersion none none))
      (runCommands (Command.step {} (.createVersion none none)) lifeCommands) := by
    refine Relation.ReflTransGen.mono ?_ _ _ hrun
    rintro s s' ⟨r, ⟨hv, hr, ho⟩, rfl⟩
    exact .command hv hr fun facts blocked _ _ => ho facts blocked
  refine ⟨fun facts hread => ?_, by decide +kernel⟩
  exact chronology_canon_stays_consistent (orderBefore_blocking _ _) hcreate harmed hread

/-- A rule about keys that neither a pattern nor an absolute target names. -/
def unfollowedCommands : List AppendRequest :=
  [arm (orderBefore "born" "died") (proposeFact "memv-" "hero" "born" "1930"),
    arm (orderBefore "born" "died") (proposeFact "memv-" "hero" "died" "1920")]

def proposeLife (claims : List ProposeClaimRequest) : AppendRequest where
  versionId := "memv-"
  claims := claims
  chronology := some (orderBefore "birth_date" "death_date")

/-- The ledger gate disputes the birth that the chronology gate judged the death against. -/
def disputedBirth : List AppendRequest :=
  [proposeLife [{ claimType := .fact, subject := "hero", key := "birth_date", value := "1930" }],
    proposeLife [{ claimType := .fact, subject := "hero", key := "birth_date", value := "1900" },
      { claimType := .fact, subject := "hero", key := "death_date", value := "1920" }]]

/-- The chronology gate disputes the death, which canon has already, and not the birth. -/
def repeatedDeath : List AppendRequest :=
  [proposeLife [{ claimType := .fact, subject := "hero", key := "death_date", value := "1920" }],
    proposeLife [{ claimType := .fact, subject := "hero", key := "birth_date", value := "1930" },
      { claimType := .fact, subject := "hero", key := "death_date", value := "1920" }]]

/-- The gate reads the correction last, and the plain claim is stored last. -/
def correctedFirst : List AppendRequest :=
  [proposeLife [{ claimType := .fact, subject := "hero", key := "death_date", value := "1920" }],
    proposeLife
      [{ claimType := .correction, subject := "hero", key := "birth_date", value := "1900" },
        { claimType := .fact, subject := "hero", key := "birth_date", value := "1930" }]]

/-- Superseding the corrected birth uncovers the first one. -/
def uncoveredBirth : List AppendRequest :=
  [proposeLife [{ claimType := .fact, subject := "hero", key := "birth_date", value := "1930" }],
    proposeLife
      [{ claimType := .correction, subject := "hero", key := "birth_date", value := "1900" }],
    proposeLife [{ claimType := .fact, subject := "hero", key := "death_date", value := "1920" }],
    proposeLife [{ claimType := .update, subject := "hero", key := "note", value := "withdrawn",
                   supersedesId := some "claim-xx" }]]

theorem contradicts_of_run {before after : String} {commands : List AppendRequest}
    (harmed : ∀ r ∈ commands, r.versionId = "memv-" ∧
      r.chronology = some (orderBefore before after))
    (h : ((runCommands (Command.step {} (.createVersion none none)) commands).sliceFacts "memv-"
      {}).toOption.any (misordered (orderBefore before after)) = true) :
    Contradicts (orderBefore before after) commands := by
  have hcreate : State.createVersion {} none none =
      .ok ("memv-", Command.step {} (.createVersion none none)) :=
    createRoot_eq (by decide +kernel)
  cases hread : (runCommands (Command.step {} (.createVersion none none)) commands).sliceFacts
      "memv-" {} with
  | error e =>
    rw [hread] at h
    cases h
  | ok facts =>
    rw [hread] at h
    exact ⟨orderBefore_blocking before after, _, _, facts, hcreate, harmed, hread,
      broken_of_misordered h⟩

/-- The gates let canon break a blocking rule where the rule does not follow its keys, where
a batch is disputed in part, where gate order and storage order differ, and where a
supersession uncovers an older fact. -/
theorem chronology_canon_contradicted :
    Contradicts (orderBefore "born" "died") unfollowedCommands ∧
      Contradicts (orderBefore "birth_date" "death_date") disputedBirth ∧
      Contradicts (orderBefore "birth_date" "death_date") repeatedDeath ∧
      Contradicts (orderBefore "birth_date" "death_date") correctedFirst ∧
      Contradicts (orderBefore "birth_date" "death_date") uncoveredBirth := by
  refine ⟨?_, ?_, ?_, ?_, ?_⟩
  · exact contradicts_of_run (by simp [unfollowedCommands, arm, proposeFact]) (by decide +kernel)
  · exact contradicts_of_run (by simp [disputedBirth, proposeLife]) (by decide +kernel)
  · exact contradicts_of_run (by simp [repeatedDeath, proposeLife]) (by decide +kernel)
  · exact contradicts_of_run (by simp [correctedFirst, proposeLife]) (by decide +kernel)
  · exact contradicts_of_run (by simp [uncoveredBirth, proposeLife]) (by decide +kernel)

end
end Munarium
