import Mathlib.Data.Rat.Floor
import Munarium.Core.Ledger
import Munarium.Core.Similarity

/-! The five always-on gates over a snapshot and a candidate, and the claim keys whose
claims the accept path records as disputed. -/
namespace Munarium

/-- Comparison policies by claim key; a key without a binding keeps the legacy one. -/
structure ComparisonPolicies where
  bindings : SortedMap String ComparisonPolicy := .empty

namespace ComparisonPolicies

def bindAll (resolved : SortedMap String ComparisonPolicy) :
    List (String × ComparisonPolicy) → Result (SortedMap String ComparisonPolicy)
  | [] => .ok resolved
  | (key, policy) :: rest =>
      match resolved.get? key with
      | some previous =>
          if previous ≠ policy then
            .error (.invalidInput ("conflicting comparison policies for '" ++ key ++ "'"))
          else bindAll (resolved.insert key policy) rest
      | none => bindAll (resolved.insert key policy) rest

def tryFromBindings (bindings : List (String × ComparisonPolicy)) : Result ComparisonPolicies :=
  (bindAll .empty bindings).map ComparisonPolicies.mk

def policyFor (p : ComparisonPolicies) (claimKey : String) : ComparisonPolicy :=
  (p.bindings.get? claimKey).getD .legacyTextV1

end ComparisonPolicies

def ruleAnchor : String := "gate.anchor-consistency"
def ruleLedger : String := "gate.ledger-conflict"
def ruleOrphan : String := "gate.orphaned-reference"
def ruleMeta : String := "gate.meta-leakage"
def ruleSimilarity : String := "gate.lexical-similarity"

def similarityThreshold : ℚ := 9 / 10

def metaMarkers : List String :=
  ["as an ai", "as a language model", "i cannot assist", "i'm sorry, but", "[insert",
    "lorem ipsum"]

/-- The `claim_key` text in a finding's detail. -/
def GateFinding.claimKey (f : GateFinding) : Option String :=
  (f.detail.bind (·.get "claim_key")).bind Json.asStr

/-- Which claim keys carry a block; the accept path records those claims disputed. -/
def blockedClaimKeys (findings : List GateFinding) : List String :=
  (findings.filter fun f => f.severity = .block).filterMap (·.claimKey)

/-- Facts are seq-ascending, so the last one with the key is canon for it. -/
def latestFact (facts : List Claim) (key : String) : Option Claim :=
  facts.reverse.find? fun f => f.claimKey == key

section
variable [Unicode]

/-- Gate 1 on one proposal: its value differs from the locked anchor of its key. -/
def anchorFinding (snapshot : MeshSnapshot) (scopePath : Option String)
    (policies : ComparisonPolicies) (proposed : ProposedClaim) : Option GateFinding :=
  let key := proposed.claimKey
  match snapshot.anchors.get? key with
  | none => none
  | some anchor =>
      if valuesEquivalentWithPolicy proposed.value anchor.lockedValue (policies.policyFor key)
      then none
      else some {
        ruleId := ruleAnchor
        severity := .block
        message := "claim '" ++ key ++ "=" ++ proposed.value ++
          "' contradicts locked anchor value '" ++ anchor.lockedValue ++ "'"
        scopePath := scopePath
        detail := some (.object [("claim_key", .str key),
          ("proposed_value", .str proposed.value), ("locked_value", .str anchor.lockedValue),
          ("anchor_id", .str anchor.id)]) }

def checkAnchorConsistencyWithPolicies (snapshot : MeshSnapshot) (candidate : Candidate)
    (policies : ComparisonPolicies) : List GateFinding :=
  (candidate.claims ++ candidate.corrections).filterMap
    (anchorFinding snapshot candidate.scopePath policies)

/-- Gate 2 on one proposal: a plain claim contradicts the latest accepted value of its
key. A claim that declares what it supersedes is exempt. -/
def ledgerFinding (snapshot : MeshSnapshot) (scopePath : Option String)
    (policies : ComparisonPolicies) (proposed : ProposedClaim) : Option GateFinding :=
  if proposed.supersedesId.isSome then none
  else
    let key := proposed.claimKey
    match latestFact snapshot.facts key with
    | none => none
    | some existing =>
        if valuesEquivalentWithPolicy proposed.value existing.value (policies.policyFor key)
        then none
        else some {
          ruleId := ruleLedger
          severity := .block
          message := "claim '" ++ key ++ "=" ++ proposed.value ++
            "' conflicts with accepted canon '" ++ key ++ "=" ++ existing.value ++
            "' (use a correction to supersede)"
          scopePath := scopePath
          detail := some (.object [("claim_key", .str key),
            ("proposed_value", .str proposed.value), ("canon_value", .str existing.value),
            ("canon_claim_id", .str existing.id), ("canon_seq", .int existing.seq)]) }

/-- Corrections sit in their own list, so only facts and updates are compared. -/
def checkLedgerConflictWithPolicies (snapshot : MeshSnapshot) (candidate : Candidate)
    (policies : ComparisonPolicies) : List GateFinding :=
  candidate.claims.filterMap (ledgerFinding snapshot candidate.scopePath policies)

/-- Gate 3 (warn): a correction targets a subject or key canon never established. -/
def checkOrphanedReference (snapshot : MeshSnapshot) (candidate : Candidate) :
    List GateFinding :=
  let knownKeys := snapshot.facts.map (·.claimKey)
  let knownSubjects := snapshot.facts.map (·.subject)
  candidate.corrections.filterMap fun correction =>
    let key := correction.claimKey
    let orphaned :=
      if knownSubjects.contains correction.subject then !knownKeys.contains key else true
    if orphaned then some {
      ruleId := ruleOrphan
      severity := .warn
      message := "correction targets '" ++ key ++ "' but no such canon was established"
      scopePath := candidate.scopePath
      detail := some (.object [("claim_key", .str key)]) }
    else none

/-- Gate 4 (warn): assistant markers in the output text. -/
def checkMetaLeakage (candidate : Candidate) : List GateFinding :=
  let lowered := toLowercase candidate.text
  (metaMarkers.filter fun marker => containsText marker lowered).map fun marker => {
    ruleId := ruleMeta
    severity := .warn
    message := "output contains meta-leakage marker '" ++ marker ++ "'"
    scopePath := candidate.scopePath
    detail := some (.object [("marker", .str marker)]) }

/-- `format!("{:.0}%", ratio * 100.0)`: nearest integer, ties to even. -/
def percent (ratio : ℚ) : String :=
  let q := ratio * 100
  let d := q - ⌊q⌋
  let n := if d < 1 / 2 then ⌊q⌋ else if 1 / 2 < d then ⌊q⌋ + 1
    else if ⌊q⌋ % 2 = 0 then ⌊q⌋ else ⌊q⌋ + 1
  toString n ++ "%"

/-- Gate 5 (warn): near-duplicate of a previous unit's text. -/
def checkLexicalSimilarity (candidate : Candidate) : List GateFinding :=
  if trim candidate.text = "" then []
  else candidate.previousTexts.zipIdx.filterMap fun (prev, idx) =>
    let ratio := Similarity.similarityRatio candidate.text prev
    if similarityThreshold ≤ ratio then some {
      ruleId := ruleSimilarity
      severity := .warn
      message := "output is " ++ percent ratio ++ " similar to previous unit " ++
        toString idx ++ " (threshold " ++ percent similarityThreshold ++ ")"
      scopePath := candidate.scopePath
      detail := some (.object [("previous_index", .int idx), ("ratio", .float ratio)]) }
    else none

/-- All five gates. A ledger finding for a key that drew an anchor finding is dropped. -/
def runGatesWithPolicies (snapshot : MeshSnapshot) (candidate : Candidate)
    (policies : ComparisonPolicies) : List GateFinding :=
  let anchored := checkAnchorConsistencyWithPolicies snapshot candidate policies
  let anchoredKeys := anchored.filterMap (·.claimKey)
  let ledger := (checkLedgerConflictWithPolicies snapshot candidate policies).filter fun f =>
    match f.claimKey with
    | some k => !anchoredKeys.contains k
    | none => true
  anchored ++ ledger ++ checkOrphanedReference snapshot candidate ++
    checkMetaLeakage candidate ++ checkLexicalSimilarity candidate

end

/-! What the gates decide, in terms of proposals and not of findings. -/

/-- `f` is the last of `facts` with key `key`. -/
def IsLatest (facts : List Claim) (key : String) (f : Claim) : Prop :=
  f.claimKey = key ∧ ∃ older newer, facts = older ++ f :: newer ∧
    ∀ g ∈ newer, g.claimKey ≠ key

theorem latestFact_eq_some {facts : List Claim} {key : String} {f : Claim} :
    latestFact facts key = some f ↔ IsLatest facts key f := by
  simp only [latestFact, List.find?_eq_some_iff_append, beq_iff_eq, IsLatest,
    List.reverse_eq_append_iff, List.reverse_cons, List.append_assoc, List.singleton_append,
    Bool.not_eq_true', beq_eq_false_iff_ne, ne_eq]
  refine and_congr_right fun _ => ⟨?_, ?_⟩
  · rintro ⟨newer, older, he, hn⟩
    exact ⟨older.reverse, newer.reverse, he, fun g hg => hn g (List.mem_reverse.mp hg)⟩
  · rintro ⟨older, newer, he, hn⟩
    refine ⟨newer.reverse, older.reverse, ?_, fun g hg => hn g (List.mem_reverse.mp hg)⟩
    simpa using he

theorem IsLatest.mem {facts : List Claim} {key : String} {f : Claim}
    (h : IsLatest facts key f) : f ∈ facts := by
  obtain ⟨-, older, newer, rfl, -⟩ := h
  simp

theorem exists_isLatest {facts : List Claim} {g : Claim} (hg : g ∈ facts) :
    ∃ f, IsLatest facts g.claimKey f := by
  cases h : latestFact facts g.claimKey with
  | some f => exact ⟨f, latestFact_eq_some.mp h⟩
  | none =>
    have := List.find?_eq_none.mp h g (List.mem_reverse.mpr hg)
    simp at this

theorem mem_blockedClaimKeys {findings : List GateFinding} {key : String} :
    key ∈ blockedClaimKeys findings ↔
      ∃ f ∈ findings, f.severity = .block ∧ f.claimKey = some key := by
  simp [blockedClaimKeys, and_assoc]

@[simp] theorem blockedClaimKeys_append (fs gs : List GateFinding) :
    blockedClaimKeys (fs ++ gs) = blockedClaimKeys fs ++ blockedClaimKeys gs := by
  simp [blockedClaimKeys]

theorem blockedClaimKeys_eq_nil {findings : List GateFinding}
    (h : ∀ f ∈ findings, f.severity ≠ .block) : blockedClaimKeys findings = [] := by
  have hnone : (findings.filter fun f => decide (f.severity = .block)) = [] :=
    List.filter_eq_nil_iff.mpr fun f hf => by simpa using h f hf
  simp [blockedClaimKeys, hnone]

section
variable [Unicode]

/-- The proposal's value is not the one its key is locked at. -/
def AnchorMismatch (snapshot : MeshSnapshot) (policies : ComparisonPolicies)
    (p : ProposedClaim) : Prop :=
  ∃ a, snapshot.anchors.get? p.claimKey = some a ∧
    valuesEquivalentWithPolicy p.value a.lockedValue (policies.policyFor p.claimKey) = false

/-- The proposal supersedes nothing and its value is not the latest one of its key. -/
def LedgerMismatch (snapshot : MeshSnapshot) (policies : ComparisonPolicies)
    (p : ProposedClaim) : Prop :=
  p.supersedesId = none ∧ ∃ f, IsLatest snapshot.facts p.claimKey f ∧
    valuesEquivalentWithPolicy p.value f.value (policies.policyFor p.claimKey) = false

/-- Spec of gate 1 on one proposal. -/
theorem anchorFinding_eq_some {snapshot : MeshSnapshot} {scope : Option String}
    {policies : ComparisonPolicies} {p : ProposedClaim} {f : GateFinding}
    (h : anchorFinding snapshot scope policies p = some f) :
    f.severity = .block ∧ f.claimKey = some p.claimKey ∧
      AnchorMismatch snapshot policies p := by
  unfold anchorFinding at h
  cases ha : snapshot.anchors.get? p.claimKey with
  | none => simp [ha] at h
  | some a =>
    simp only [ha] at h
    split_ifs at h with hv
    cases h
    refine ⟨rfl, ?_, a, ha, by simpa using hv⟩
    simp only [GateFinding.claimKey, Option.bind_some]
    rw [Json.get_object_head (by simp)]
    rfl

theorem anchorFinding_isSome {snapshot : MeshSnapshot} (scope : Option String)
    {policies : ComparisonPolicies} {p : ProposedClaim}
    (h : AnchorMismatch snapshot policies p) :
    ∃ f, anchorFinding snapshot scope policies p = some f := by
  obtain ⟨a, ha, hv⟩ := h
  simp [anchorFinding, ha, hv]

/-- Spec of gate 2 on one proposal. -/
theorem ledgerFinding_eq_some {snapshot : MeshSnapshot} {scope : Option String}
    {policies : ComparisonPolicies} {p : ProposedClaim} {f : GateFinding}
    (h : ledgerFinding snapshot scope policies p = some f) :
    f.severity = .block ∧ f.claimKey = some p.claimKey ∧
      LedgerMismatch snapshot policies p := by
  unfold ledgerFinding at h
  split_ifs at h with hs
  cases hl : latestFact snapshot.facts p.claimKey with
  | none => simp [hl] at h
  | some g =>
    simp only [hl] at h
    split_ifs at h with hv
    cases h
    refine ⟨rfl, ?_, by simpa using hs, g, latestFact_eq_some.mp hl, by simpa using hv⟩
    simp only [GateFinding.claimKey, Option.bind_some]
    rw [Json.get_object_head (by simp)]
    rfl

theorem ledgerFinding_isSome {snapshot : MeshSnapshot} (scope : Option String)
    {policies : ComparisonPolicies} {p : ProposedClaim}
    (h : LedgerMismatch snapshot policies p) :
    ∃ f, ledgerFinding snapshot scope policies p = some f := by
  obtain ⟨hs, g, hg, hv⟩ := h
  simp [ledgerFinding, hs, latestFact_eq_some.mpr hg, hv]

theorem mem_blocked_anchor {snapshot : MeshSnapshot} {candidate : Candidate}
    {policies : ComparisonPolicies} {key : String} :
    key ∈ blockedClaimKeys (checkAnchorConsistencyWithPolicies snapshot candidate policies) ↔
      ∃ p ∈ candidate.claims ++ candidate.corrections, p.claimKey = key ∧
        AnchorMismatch snapshot policies p := by
  rw [mem_blockedClaimKeys]
  constructor
  · rintro ⟨f, hf, -, hk⟩
    obtain ⟨p, hp, he⟩ := List.mem_filterMap.mp hf
    obtain ⟨-, hk', hm⟩ := anchorFinding_eq_some he
    exact ⟨p, hp, by simpa [hk'] using hk, hm⟩
  · rintro ⟨p, hp, rfl, hm⟩
    obtain ⟨f, he⟩ := anchorFinding_isSome candidate.scopePath hm
    obtain ⟨hb, hk, -⟩ := anchorFinding_eq_some he
    exact ⟨f, List.mem_filterMap.mpr ⟨p, hp, he⟩, hb, hk⟩

theorem mem_blocked_ledger {snapshot : MeshSnapshot} {candidate : Candidate}
    {policies : ComparisonPolicies} {key : String} :
    key ∈ blockedClaimKeys (checkLedgerConflictWithPolicies snapshot candidate policies) ↔
      ∃ p ∈ candidate.claims, p.claimKey = key ∧ LedgerMismatch snapshot policies p := by
  rw [mem_blockedClaimKeys]
  constructor
  · rintro ⟨f, hf, -, hk⟩
    obtain ⟨p, hp, he⟩ := List.mem_filterMap.mp hf
    obtain ⟨-, hk', hm⟩ := ledgerFinding_eq_some he
    exact ⟨p, hp, by simpa [hk'] using hk, hm⟩
  · rintro ⟨p, hp, rfl, hm⟩
    obtain ⟨f, he⟩ := ledgerFinding_isSome candidate.scopePath hm
    obtain ⟨hb, hk, -⟩ := ledgerFinding_eq_some he
    exact ⟨f, List.mem_filterMap.mpr ⟨p, hp, he⟩, hb, hk⟩

/-- The three text gates only warn. -/
theorem blocked_warn_gates (snapshot : MeshSnapshot) (candidate : Candidate) :
    blockedClaimKeys (checkOrphanedReference snapshot candidate) = [] ∧
      blockedClaimKeys (checkMetaLeakage candidate) = [] ∧
      blockedClaimKeys (checkLexicalSimilarity candidate) = [] := by
  refine ⟨blockedClaimKeys_eq_nil ?_, blockedClaimKeys_eq_nil ?_, blockedClaimKeys_eq_nil ?_⟩
  · intro f hf
    obtain ⟨p, -, he⟩ := List.mem_filterMap.mp hf
    cases (Option.ite_none_right_eq_some.mp he).2
    simp
  · intro f hf
    obtain ⟨m, -, rfl⟩ := List.mem_map.mp hf
    simp
  · intro f hf
    unfold checkLexicalSimilarity at hf
    split_ifs at hf
    · simp at hf
    · obtain ⟨p, -, he⟩ := List.mem_filterMap.mp hf
      dsimp only at he
      split_ifs at he
      cases he
      simp

/-- The dedup changes the findings and never the blocked keys: what it drops is
blocked by the anchor gate already. -/
theorem mem_blocked_runGates {snapshot : MeshSnapshot} {candidate : Candidate}
    {policies : ComparisonPolicies} {key : String} :
    key ∈ blockedClaimKeys (runGatesWithPolicies snapshot candidate policies) ↔
      key ∈ blockedClaimKeys (checkAnchorConsistencyWithPolicies snapshot candidate policies) ∨
      key ∈ blockedClaimKeys (checkLedgerConflictWithPolicies snapshot candidate policies) := by
  obtain ⟨ho, hm, hs⟩ := blocked_warn_gates snapshot candidate
  simp only [runGatesWithPolicies, blockedClaimKeys_append, ho, hm, hs, List.append_nil,
    List.mem_append]
  constructor
  · rintro (h | h)
    · exact .inl h
    · obtain ⟨f, hf, hb, hk⟩ := mem_blockedClaimKeys.mp h
      exact .inr (mem_blockedClaimKeys.mpr ⟨f, (List.mem_filter.mp hf).1, hb, hk⟩)
  · rintro (h | h)
    · exact .inl h
    · by_cases ha : key ∈ (checkAnchorConsistencyWithPolicies snapshot candidate
          policies).filterMap (·.claimKey)
      · obtain ⟨f, hf, hk⟩ := List.mem_filterMap.mp ha
        obtain ⟨p, -, he⟩ := List.mem_filterMap.mp hf
        exact .inl (mem_blockedClaimKeys.mpr ⟨f, hf, (anchorFinding_eq_some he).1, hk⟩)
      · obtain ⟨f, hf, hb, hk⟩ := mem_blockedClaimKeys.mp h
        refine .inr (mem_blockedClaimKeys.mpr ⟨f, List.mem_filter.mpr ⟨hf, ?_⟩, hb, hk⟩)
        simp only [hk, List.contains_eq_mem, Bool.not_eq_true', decide_eq_false_iff_not]
        exact ha

/-- Which keys the five gates block, for every snapshot, candidate and policy set. -/
theorem blocked_iff_mismatch {snapshot : MeshSnapshot} {candidate : Candidate}
    {policies : ComparisonPolicies} {key : String} :
    key ∈ blockedClaimKeys (runGatesWithPolicies snapshot candidate policies) ↔
      (∃ p ∈ candidate.claims ++ candidate.corrections, p.claimKey = key ∧
        AnchorMismatch snapshot policies p) ∨
      ∃ p ∈ candidate.claims, p.claimKey = key ∧ LedgerMismatch snapshot policies p := by
  rw [mem_blocked_runGates, mem_blocked_anchor, mem_blocked_ledger]

omit [Unicode] in
/-- In stamp order the latest fact of a key carries the greatest stamp. -/
theorem IsLatest.seq_le {facts : List Claim} {key : String} {f g : Claim}
    (h : IsLatest facts key f) (hseq : facts.Pairwise fun a b => a.seq ≤ b.seq)
    (hg : g ∈ facts) (hk : g.claimKey = key) : g.seq ≤ f.seq := by
  obtain ⟨-, older, newer, rfl, hn⟩ := h
  rcases List.mem_append.mp hg with ho | hn'
  · exact (List.pairwise_append.mp hseq).2.2 g ho f List.mem_cons_self
  · rcases List.mem_cons.mp hn' with rfl | hn'
    · exact le_rfl
    · exact absurd hk (hn g hn')

/-- Without chronology rules and shapes a key is blocked exactly when a proposal for it
misses its anchor, or a plain proposal for it misses the latest fact. The dedup unblocks
nothing, and only proposed keys are blocked. -/
theorem gates_block_exactly_mismatches (snapshot : MeshSnapshot) (candidate : Candidate)
    (policies : ComparisonPolicies) (key : String) :
    (key ∈ blockedClaimKeys (runGatesWithPolicies snapshot candidate policies) ↔
      (∃ p ∈ candidate.claims ++ candidate.corrections, p.claimKey = key ∧
        ∃ a, snapshot.anchors.get? key = some a ∧
          valuesEquivalentWithPolicy p.value a.lockedValue (policies.policyFor key) = false) ∨
      ∃ p ∈ candidate.claims, p.claimKey = key ∧ p.supersedesId = none ∧
        ∃ f, IsLatest snapshot.facts key f ∧
          valuesEquivalentWithPolicy p.value f.value (policies.policyFor key) = false) ∧
    (key ∈ blockedClaimKeys (checkAnchorConsistencyWithPolicies snapshot candidate policies ++
        checkLedgerConflictWithPolicies snapshot candidate policies) →
      key ∈ blockedClaimKeys (runGatesWithPolicies snapshot candidate policies)) ∧
    (key ∈ blockedClaimKeys (runGatesWithPolicies snapshot candidate policies) →
      ∃ p ∈ candidate.claims ++ candidate.corrections, p.claimKey = key) := by
  refine ⟨?_, ?_, ?_⟩
  · rw [blocked_iff_mismatch]
    constructor
    · rintro (⟨p, hp, rfl, hm⟩ | ⟨p, hp, rfl, hm⟩)
      · exact .inl ⟨p, hp, rfl, hm⟩
      · exact .inr ⟨p, hp, rfl, hm⟩
    · rintro (⟨p, hp, rfl, hm⟩ | ⟨p, hp, rfl, hm⟩)
      · exact .inl ⟨p, hp, rfl, hm⟩
      · exact .inr ⟨p, hp, rfl, hm⟩
  · rw [blockedClaimKeys_append, List.mem_append, mem_blocked_runGates]
    exact id
  · rw [blocked_iff_mismatch]
    rintro (⟨p, hp, hk, -⟩ | ⟨p, hp, hk, -⟩)
    · exact ⟨p, hp, hk⟩
    · exact ⟨p, List.mem_append_left _ hp, hk⟩

end
end Munarium
