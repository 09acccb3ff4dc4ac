import Munarium.Core.Chronology

/-! The timeline key by key, and the pairs of it that are certainly broken. A broken pair
with a proposal in it blocks the claim key of one of its proposals. -/
namespace Munarium

def Claim.chronoEvent [Unicode] (f : Claim) : Option ChronoEvent :=
  (parseWhen f.value).map fun w => {
    subject := f.subject
    key := f.key
    value := f.value
    when := w
    claimId := some f.id
    origin := .ledger }

def ProposedClaim.chronoEvent [Unicode] (p : ProposedClaim) : Option ChronoEvent :=
  (parseWhen p.value).map fun w => {
    subject := p.subject
    key := p.key
    value := p.value
    when := w
    claimId := none
    origin := .candidate }

/-- What a fact asserts, as a proposal. -/
def Claim.proposed (f : Claim) : ProposedClaim where
  claimType := f.claimType
  subject := f.subject
  key := f.key
  value := f.value
  supersedesId := f.supersedesId

section
variable [Unicode] (rules : ChronologyRules)

/-- The fact is an assertion of the key that the rules govern. -/
def tracks (k : String) (f : Claim) : Bool :=
  (f.subject != "" || f.key != "") && (rules.governs f.subject f.key && f.claimKey == k)

def tracksProposed (k : String) (p : ProposedClaim) : Bool :=
  rules.governs p.subject p.key && p.claimKey == k

def latestTracked (facts : List Claim) (k : String) : Option Claim :=
  facts.reverse.find? (tracks rules k)

def latestProposed (proposed : List ProposedClaim) (k : String) : Option ProposedClaim :=
  proposed.reverse.find? (tracksProposed rules k)

theorem latestTracked_append (facts more : List Claim) (k : String) :
    latestTracked rules (facts ++ more) k =
      (latestTracked rules more k).or (latestTracked rules facts k) := by
  unfold latestTracked
  rw [List.reverse_append, List.find?_append]

omit [Unicode] in
theorem claimKeyOf_eq_dot {subject key : String} (h : claimKeyOf subject key = ".") :
    subject = "" ∧ key = "" := by
  have hlen := congrArg String.length h
  simp only [claimKeyOf, String.length_append] at hlen
  have hdot : ".".length = 1 := rfl
  constructor
  · exact String.length_eq_zero_iff.mp (by omega)
  · exact String.length_eq_zero_iff.mp (by omega)

/-- The gate skips facts without a subject and a key. -/
theorem latestTracked_dot (facts : List Claim) : latestTracked rules facts "." = none := by
  refine List.find?_eq_none.mpr fun f _ htracks => ?_
  simp only [tracks, Bool.and_eq_true, Bool.or_eq_true, bne_iff_ne, beq_iff_eq] at htracks
  obtain ⟨hnamed, -, hkey⟩ := htracks
  obtain ⟨hs, hk⟩ := claimKeyOf_eq_dot hkey
  exact hnamed.elim (fun h => h hs) fun h => h hk

theorem tracks_eq_proposed {k : String} (hk : k ≠ ".") (f : Claim) :
    tracks rules k f = tracksProposed rules k f.proposed := by
  by_cases hkey : f.claimKey = k
  · have hnamed : (f.subject != "" || f.key != "") = true := by
      by_contra h
      simp only [Bool.or_eq_true, bne_iff_ne, not_or, not_not] at h
      refine hk (hkey.symm.trans ?_)
      rw [Claim.claimKey, h.1, h.2]
      rfl
    rw [tracks, hnamed, Bool.true_and]
    rfl
  · have hfact : (f.claimKey == k) = false := beq_eq_false_iff_ne.mpr hkey
    have hproposed : (f.proposed.claimKey == k) = false := hfact
    simp only [tracks, tracksProposed, hfact, hproposed, Bool.and_false]

/-- A ledger asserts of a key what its facts, proposed in their order, would. -/
theorem map_latestTracked {k : String} (hk : k ≠ ".") (facts : List Claim) :
    (latestTracked rules facts k).map Claim.proposed =
      latestProposed rules (facts.map Claim.proposed) k := by
  unfold latestTracked latestProposed
  rw [← List.map_reverse, List.find?_map]
  congr 2
  funext f
  exact tracks_eq_proposed rules hk f

theorem get?_consider (timeline : SortedMap String ChronoEvent) (subject key value : String)
    (claimId : Option String) (origin : EventOrigin) (k : String) :
    (consider rules timeline subject key value claimId origin).get? k =
      if rules.governs subject key && claimKeyOf subject key == k then
        (parseWhen value).map fun w => {
          subject := subject
          key := key
          value := value
          when := w
          claimId := claimId
          origin := origin }
      else timeline.get? k := by
  unfold consider
  by_cases hg : rules.governs subject key = true
  · cases hw : parseWhen value with
    | some w =>
      simp only [hg, Bool.not_true, Bool.false_eq_true, if_false, SortedMap.get?_insert,
        Bool.true_and, beq_iff_eq, Option.map_some, eq_comm (a := k)]
    | none =>
      simp only [hg, Bool.not_true, Bool.false_eq_true, if_false, SortedMap.get?_erase,
        Bool.true_and, beq_iff_eq, Option.map_none, eq_comm (a := k)]
  · simp [hg]

theorem get?_considerFact (timeline : SortedMap String ChronoEvent) (f : Claim) (k : String) :
    (considerFact rules timeline f).get? k =
      if tracks rules k f then f.chronoEvent else timeline.get? k := by
  unfold considerFact tracks
  by_cases hn : (f.subject != "" || f.key != "") = true
  · rw [if_pos hn, get?_consider]
    simp only [hn, Bool.true_and]
    rfl
  · simp [hn]

theorem get?_considerProposed (timeline : SortedMap String ChronoEvent) (p : ProposedClaim)
    (k : String) : (considerProposed rules timeline p).get? k =
      if tracksProposed rules k p then p.chronoEvent else timeline.get? k :=
  get?_consider rules timeline p.subject p.key p.value none .candidate k

/-- The latest proposal of a key decides, else its latest fact. -/
theorem get?_timelineOf (facts : List Claim) (proposed : List ProposedClaim) (k : String) :
    (timelineOf rules facts proposed).get? k =
      match latestProposed rules proposed k with
      | some p => p.chronoEvent
      | none => (latestTracked rules facts k).bind Claim.chronoEvent := by
  unfold timelineOf
  rw [SortedMap.get?_foldl_last (get?_considerProposed rules),
    SortedMap.get?_foldl_last (get?_considerFact rules)]
  unfold latestProposed latestTracked
  cases proposed.reverse.find? (tracksProposed rules k) with
  | some p => rfl
  | none =>
    cases facts.reverse.find? (tracks rules k) with
    | some f => rfl
    | none => rfl

theorem get?_timelineOf_facts (facts : List Claim) (k : String) :
    (timelineOf rules facts []).get? k = (latestTracked rules facts k).bind Claim.chronoEvent := by
  rw [get?_timelineOf]
  rfl

theorem get?_timelineOf_proposed (proposed : List ProposedClaim) (k : String) :
    (timelineOf rules [] proposed).get? k =
      (latestProposed rules proposed k).bind ProposedClaim.chronoEvent := by
  rw [get?_timelineOf]
  cases latestProposed rules proposed k with
  | some p => rfl
  | none => rfl

variable {rules}

theorem latestTracked_tracks {facts : List Claim} {k : String} {f : Claim}
    (h : latestTracked rules facts k = some f) : tracks rules k f = true :=
  List.find?_some h

theorem latestProposed_tracks {proposed : List ProposedClaim} {k : String} {p : ProposedClaim}
    (h : latestProposed rules proposed k = some p) : tracksProposed rules k p = true :=
  List.find?_some (p := tracksProposed rules k) h

theorem tracks_claimKey {k : String} {f : Claim} (h : tracks rules k f = true) :
    f.claimKey = k := by
  simp only [tracks, Bool.and_eq_true, beq_iff_eq] at h
  exact h.2.2

theorem tracksProposed_claimKey {k : String} {p : ProposedClaim}
    (h : tracksProposed rules k p = true) : p.claimKey = k := by
  simp only [tracksProposed, Bool.and_eq_true, beq_iff_eq] at h
  exact h.2

/-- Every event of a timeline is the parsed latest assertion of its key. -/
theorem exists_of_get?_timelineOf {facts : List Claim} {proposed : List ProposedClaim}
    {k : String} {e : ChronoEvent} (h : (timelineOf rules facts proposed).get? k = some e) :
    (∃ p, latestProposed rules proposed k = some p ∧ p.chronoEvent = some e) ∨
      latestProposed rules proposed k = none ∧
        ∃ f, latestTracked rules facts k = some f ∧ f.chronoEvent = some e := by
  rw [get?_timelineOf] at h
  cases hp : latestProposed rules proposed k with
  | some p =>
    rw [hp] at h
    exact .inl ⟨p, rfl, h⟩
  | none =>
    rw [hp] at h
    obtain ⟨f, hf, he⟩ := Option.bind_eq_some_iff.mp h
    exact .inr ⟨rfl, f, hf, he⟩

theorem timelineOf_spec {facts : List Claim} {proposed : List ProposedClaim} {k : String}
    {e : ChronoEvent} (h : (timelineOf rules facts proposed).get? k = some e) :
    e.claimKey = k ∧ e.when.Ordered := by
  rcases exists_of_get?_timelineOf h with ⟨p, hp, he⟩ | ⟨-, f, hf, he⟩
  · obtain ⟨w, hw, rfl⟩ := Option.map_eq_some_iff.mp he
    exact ⟨tracksProposed_claimKey (latestProposed_tracks hp), parseWhen_ordered hw⟩
  · obtain ⟨w, hw, rfl⟩ := Option.map_eq_some_iff.mp he
    exact ⟨tracks_claimKey (latestTracked_tracks hf), parseWhen_ordered hw⟩

theorem timelineOf_nodup (facts : List Claim) (proposed : List ProposedClaim) :
    ((timelineOf rules facts proposed).values.map (·.claimKey)).Nodup := by
  have hkeys : (timelineOf rules facts proposed).values.map (·.claimKey) =
      (timelineOf rules facts proposed).entries.map Prod.fst := by
    unfold SortedMap.values
    rw [List.map_map]
    refine List.map_congr_left fun e he => ?_
    exact (timelineOf_spec (SortedMap.mem_entries_iff.mp he)).1
  rw [hkeys]
  exact SortedMap.keys_nodup _

theorem timelineOf_ordered {facts : List Claim} {proposed : List ProposedClaim}
    {e : ChronoEvent} (h : e ∈ (timelineOf rules facts proposed).values) : e.when.Ordered := by
  obtain ⟨k, hk⟩ := SortedMap.mem_values_iff.mp h
  exact (timelineOf_spec hk).2

theorem timelineOf_facts_origin {facts : List Claim} {k : String} {e : ChronoEvent}
    (h : (timelineOf rules facts []).get? k = some e) : e.origin = .ledger := by
  rw [get?_timelineOf_facts] at h
  obtain ⟨f, -, he⟩ := Option.bind_eq_some_iff.mp h
  obtain ⟨w, -, rfl⟩ := Option.map_eq_some_iff.mp he
  rfl

end

section
variable [Unicode]

/-- The latest fact of each claim key, where its value parses. -/
def latestEvents (facts : List Claim) : List ChronoEvent :=
  facts.filterMap fun f => (latestFact facts f.claimKey).bind Claim.chronoEvent

/-- The rules take the event up from the ledger: a pattern or an absolute target names its
key, and it has a subject or a key. -/
def ChronologyRules.Follows (rules : ChronologyRules) (e : ChronoEvent) : Prop :=
  rules.governs e.subject e.key = true ∧ e.claimKey ≠ "."

theorem latestTracked_of_latestFact {rules : ChronologyRules} {facts : List Claim} {k : String}
    {f : Claim} (h : latestFact facts k = some f) (ht : tracks rules k f = true) :
    latestTracked rules facts k = some f := by
  obtain ⟨-, newer, older, heq, hnewer⟩ := List.find?_eq_some_iff_append.mp h
  refine List.find?_eq_some_iff_append.mpr ⟨ht, newer, older, heq, fun g hg => ?_⟩
  have hkey := hnewer g hg
  simp only [Bool.not_eq_true', beq_eq_false_iff_ne] at hkey
  rw [Bool.not_eq_true', Bool.eq_false_iff]
  exact fun hgt => hkey (tracks_claimKey hgt)

/-- The latest events that the rules follow are on the timeline. -/
theorem mem_timelineOf_of_latest {rules : ChronologyRules} {facts : List Claim}
    {e : ChronoEvent} (h : e ∈ latestEvents facts) (hfollows : rules.Follows e) :
    e ∈ (timelineOf rules facts []).values := by
  obtain ⟨g, -, he⟩ := List.mem_filterMap.mp h
  obtain ⟨f, hf, he⟩ := Option.bind_eq_some_iff.mp he
  refine SortedMap.mem_values_iff.mpr ⟨g.claimKey, ?_⟩
  have hkey : f.claimKey = g.claimKey := (latestFact_eq_some.mp hf).1
  have htracks : tracks rules g.claimKey f = true := by
    obtain ⟨w, -, rfl⟩ := Option.map_eq_some_iff.mp he
    obtain ⟨hgoverns, hdot⟩ := hfollows
    have hne : g.claimKey ≠ "." := hkey ▸ hdot
    rw [tracks_eq_proposed rules hne, tracksProposed, Bool.and_eq_true, beq_iff_eq]
    exact ⟨hgoverns, hkey⟩
  rw [get?_timelineOf_facts, latestTracked_of_latestFact hf htracks]
  exact he

theorem latestEvents_ordered {facts : List Claim} {e : ChronoEvent}
    (h : e ∈ latestEvents facts) : e.when.Ordered := by
  obtain ⟨g, -, he⟩ := List.mem_filterMap.mp h
  obtain ⟨f, -, he⟩ := Option.bind_eq_some_iff.mp he
  obtain ⟨w, hw, rfl⟩ := Option.map_eq_some_iff.mp he
  exact parseWhen_ordered hw

/-- The pair breaks an order, contains or duration rule under every choice of days. -/
def CertainlyBroken (rules : ChronologyRules) (a b : ChronoEvent) : Prop :=
  (a.when.uncertain = false ∧ b.when.uncertain = false) ∧
    ((∃ r ∈ rules.order, Paired r.before r.after a b ∧ Always (fun d e => e < d) a b) ∨
      (∃ r ∈ rules.contains, Paired r.outer r.inner a b ∧ Always (fun d e => d ≠ e) a b) ∨
      ∃ r ∈ rules.durations, Paired r.start r.stop a b ∧
        ((∃ m, r.maxDays = some m ∧ Always (fun d e => m < e.day - d.day) a b) ∨
          ∃ m, r.minDays = some m ∧ Always (fun d e => e.day - d.day < m) a b))

/-- All order, contains and duration rules block. -/
structure ChronologyRules.Blocking (rules : ChronologyRules) : Prop where
  order : ∀ r ∈ rules.order, r.severity = "block"
  contains : ∀ r ∈ rules.contains, r.severity = "block"
  durations : ∀ r ∈ rules.durations, r.severity = "block"

/-- No pair of the timeline is certainly broken. -/
def Consistent (rules : ChronologyRules) (timeline : SortedMap String ChronoEvent) : Prop :=
  ∀ a ∈ timeline.values, ∀ b ∈ timeline.values, ¬CertainlyBroken rules a b

/-- Two events that say the same of the same key. -/
def ChronoEvent.SameAs (a b : ChronoEvent) : Prop :=
  a.subject = b.subject ∧ a.key = b.key ∧ a.when = b.when

omit [Unicode] in
theorem ChronoEvent.SameAs.claimKey {a b : ChronoEvent} (h : a.SameAs b) :
    a.claimKey = b.claimKey := by
  unfold ChronoEvent.claimKey
  rw [h.1, h.2.1]

theorem CertainlyBroken.congr {rules : ChronologyRules} {a a' b b' : ChronoEvent}
    (h : CertainlyBroken rules a b) (ha : a.SameAs a') (hb : b.SameAs b') :
    CertainlyBroken rules a' b' := by
  obtain ⟨sa, ka, va, wa, ia, oa⟩ := a
  obtain ⟨sb, kb, vb, wb, ib, ob⟩ := b
  obtain ⟨sa', ka', va', wa', ia', oa'⟩ := a'
  obtain ⟨sb', kb', vb', wb', ib', ob'⟩ := b'
  obtain ⟨rfl, rfl, rfl⟩ := ha
  obtain ⟨rfl, rfl, rfl⟩ := hb
  exact h

/-- A broken pair with a candidate in it is filed as a violation of a blocking rule. -/
theorem exists_violation {rules : ChronologyRules} (hblocking : rules.Blocking)
    {events : List ChronoEvent} {a b : ChronoEvent} (ha : a ∈ events) (hb : b ∈ events)
    (h : CertainlyBroken rules a b) (hc : a.origin = .candidate ∨ b.origin = .candidate) :
    ∃ v ∈ certainViolations events rules, v.severity = "block" ∧
      v.candidateClaims = candidateClaimsOf [a, b] := by
  obtain ⟨hcertain, hbroken⟩ := h
  have hj : Judged a b := ⟨hc, hcertain⟩
  unfold certainViolations
  rcases hbroken with ⟨r, hr, hp, halways⟩ | ⟨r, hr, hp, halways⟩ | ⟨r, hr, hp, hbound⟩
  · have hfails : (a, b) ∈ pairsWhere events r.Fails :=
      mem_pairsWhere.mpr ⟨ha, hb, hp, hj, halways⟩
    refine ⟨orderViolation r a b, ?_, hblocking.order r hr, rfl⟩
    simp only [List.mem_append, List.mem_flatMap]
    exact .inl (.inl (.inl (.inl ⟨r, hr, List.mem_map.mpr ⟨_, hfails, rfl⟩⟩)))
  · have hfails : (a, b) ∈ pairsWhere events r.Fails :=
      mem_pairsWhere.mpr ⟨ha, hb, hp, hj, halways⟩
    refine ⟨containsViolation r a b, ?_, hblocking.contains r hr, rfl⟩
    simp only [List.mem_append, List.mem_flatMap]
    exact .inl (.inl (.inl (.inr ⟨r, hr, List.mem_map.mpr ⟨_, hfails, rfl⟩⟩)))
  · have hfails : (a, b) ∈ pairsWhere events r.Fails :=
      mem_pairsWhere.mpr ⟨ha, hb, hp, hj, hbound⟩
    refine ⟨durationViolation r a b ((durationProblem r a b).getD ""), ?_,
      hblocking.durations r hr, rfl⟩
    simp only [List.mem_append, List.mem_flatMap]
    exact .inr ⟨r, hr, List.mem_map.mpr ⟨_, hfails, rfl⟩⟩

omit [Unicode] in
/-- The last candidate of a pair is one of its two events. -/
theorem getLast?_candidateClaimsOf {a b : ChronoEvent}
    (h : a.origin = .candidate ∨ b.origin = .candidate) :
    ∃ e, (e = a ∨ e = b) ∧ e.origin = .candidate ∧
      (candidateClaimsOf [a, b]).getLast? = some e.claimKey := by
  by_cases hb : b.origin = .candidate
  · refine ⟨b, .inr rfl, hb, ?_⟩
    by_cases ha : a.origin = .candidate
    · simp [candidateClaimsOf, ha, hb]
    · simp [candidateClaimsOf, ha, hb]
  · have ha : a.origin = .candidate := h.resolve_right hb
    exact ⟨a, .inl rfl, ha, by simp [candidateClaimsOf, ha, hb]⟩

omit [Unicode] in
theorem chronologyFinding_claimKey {scope : Option String} {v : ChronoViolation}
    {last : String} (h : v.candidateClaims.getLast? = some last) :
    (chronologyFinding scope v).claimKey = some last := by
  simp only [GateFinding.claimKey, chronologyFinding, h, Option.map_some, Option.toList_some,
    Option.bind_some]
  rw [Json.get_object_last]
  rfl

/-- A broken pair with a proposal in it blocks the key of one of its proposals. -/
theorem blocked_of_broken {snapshot : MeshSnapshot} {candidate : Candidate}
    {rules : ChronologyRules} (hblocking : rules.Blocking) {a b : ChronoEvent}
    (ha : a ∈ (timelineOf rules snapshot.facts
      (candidate.claims ++ candidate.corrections)).values)
    (hb : b ∈ (timelineOf rules snapshot.facts
      (candidate.claims ++ candidate.corrections)).values)
    (h : CertainlyBroken rules a b) (hc : a.origin = .candidate ∨ b.origin = .candidate) :
    ∃ e, (e = a ∨ e = b) ∧ e.origin = .candidate ∧
      e.claimKey ∈ blockedClaimKeys (checkChronology snapshot candidate rules none) := by
  have hsort (e : ChronoEvent) (he : e ∈ (timelineOf rules snapshot.facts
      (candidate.claims ++ candidate.corrections)).values) :
      e ∈ sortEvents (timelineOf rules snapshot.facts
        (candidate.claims ++ candidate.corrections)).values :=
    (sortEvents_perm _).mem_iff.mpr he
  obtain ⟨v, hv, hsev, hclaims⟩ := exists_violation hblocking (hsort a ha) (hsort b hb) h hc
  rw [← evaluate_eq (timelineOf_nodup _ _) fun e he => timelineOf_ordered he] at hv
  obtain ⟨e, heq, horigin, hlast⟩ := getLast?_candidateClaimsOf hc
  refine ⟨e, heq, horigin, mem_blockedClaimKeys.mpr
    ⟨chronologyFinding candidate.scopePath v, ?_, ?_, ?_⟩⟩
  · have hne : (timelineOf rules snapshot.facts
        (candidate.claims ++ candidate.corrections)).entries.isEmpty = false := by
      obtain ⟨x, hx, -⟩ := List.mem_map.mp ha
      simpa using List.ne_nil_of_mem hx
    simp only [checkChronology, hne, Bool.false_eq_true, if_false]
    exact List.mem_map_of_mem hv
  · simp [chronologyFinding, hsev]
  · exact chronologyFinding_claimKey (hclaims ▸ hlast)

end
end Munarium
