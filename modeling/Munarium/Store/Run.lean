import Mathlib.Logic.Relation
import Mathlib.Order.Lattice
import Munarium.Core.PolicyRevision
import Munarium.Store.Memory

/-! Runs of the store: its commands, what one step can do, and what every reachable
state keeps. -/
namespace Munarium

inductive Command where
  | createVersion (parentId : Option String) (metadata : Option Json)
  | appendClaim (v : String) (claim : NewClaim) (expectedHead : Option ℕ)
  | appendClaims (v : String) (claims : List NewClaim) (expectedHead : Option ℕ)
  | appendEvaluatedClaims (v : String) (claims : List NewClaim) (expectedHead : ℕ)
      (findings : List GateFinding)
  | lockAnchor (v subject key value : String) (scopePath : Option String)
      (evidence : Option Json)
  | registerPromise (v key kind description : String) (originScope dueScope : Option String)
  | fulfillPromise (v key : String)
  | recordCounts (v key scopePath : String) (count : ℕ) (budget : Option ℕ)
  | recordFindings (v : String) (seq : ℕ) (findings : List GateFinding)

namespace Command

section
variable [Unicode] [Platform] [IdGenerator]

def exec (s : State) : Command → Result State
  | createVersion parentId metadata => (s.createVersion parentId metadata).map Prod.snd
  | appendClaim v claim expectedHead => (s.appendClaim v claim expectedHead).map Prod.snd
  | appendClaims v claims expectedHead => (s.appendClaims v claims expectedHead).map Prod.snd
  | appendEvaluatedClaims v claims expectedHead findings =>
      (s.appendEvaluatedClaims v claims expectedHead findings).map Prod.snd
  | lockAnchor v subject key value scopePath evidence =>
      (s.lockAnchor v subject key value scopePath evidence).map Prod.snd
  | registerPromise v key kind description originScope dueScope =>
      (s.registerPromise v key kind description originScope dueScope).map Prod.snd
  | fulfillPromise v key => (s.fulfillPromise v key).map Prod.snd
  | recordCounts v key scopePath count budget =>
      (s.recordCounts v key scopePath count budget).map Prod.snd
  | recordFindings v seq findings => (s.recordFindings v seq findings).map Prod.snd

/-- A failed command leaves the state as it was. -/
def step (s : State) (c : Command) : State :=
  match c.exec s with
  | .ok s' => s'
  | .error _ => s

def run (s : State) (commands : List Command) : State := commands.foldl step s

end

/-- The version a command stores claims into. -/
def claimTarget : Command → Option String
  | appendClaim v _ _ => some v
  | appendClaims v claims _ => if claims.isEmpty then none else some v
  | appendEvaluatedClaims v claims _ _ => if claims.isEmpty then none else some v
  | _ => none

/-- The version a command locks an anchor in. -/
def anchorTarget : Command → Option String
  | lockAnchor v _ _ _ _ _ => some v
  | _ => none

/-- The version a command stores claims or an anchor into. -/
def ledgerTarget (c : Command) : Option String := c.claimTarget.or c.anchorTarget

theorem ledgerTarget_of_claim {c : Command} {w : String} (h : c.claimTarget = some w) :
    c.ledgerTarget = some w := by simp [ledgerTarget, h]

theorem ledgerTarget_of_anchor {c : Command} {w : String} (h : c.anchorTarget = some w) :
    c.ledgerTarget = some w := by
  cases c with
  | lockAnchor => exact h
  | _ => cases h

/-- How many claims or anchors a command stores. -/
def rowCount : Command → ℕ
  | appendClaim _ _ _ => 1
  | appendClaims _ claims _ => claims.length
  | appendEvaluatedClaims _ claims _ _ => claims.length
  | lockAnchor _ _ _ _ _ _ => 1
  | _ => 0

/-- The version a command registers a promise in. -/
def promiseTarget : Command → Option String
  | registerPromise v _ _ _ _ _ => some v
  | _ => none

end Command

section
variable [Unicode] [Platform] [IdGenerator]

/-- Everything a successful command can do to the state. -/
inductive Effect (s : State) (c : Command) : State → Prop
  | nothing : Effect s c s
  | version {parent : Option String} {metadata prepared : Option Json}
      {snapshot : Option MeshSnapshot} {recorded : List StoredFinding}
      (hc : c = .createVersion parent metadata)
      (hs : s.snapshotOfParent (metadata.bind (·.get "governance_transition")).isSome parent =
        .ok snapshot)
      (hm : prepareVersionMetadata metadata (parent.bind s.versionMeta) snapshot = .ok prepared) :
      Effect s c { s with
        versions := Function.update s.versions ("memv-" ++ IdGenerator.next s.issued) (some parent)
        versionMeta :=
          Function.update s.versionMeta ("memv-" ++ IdGenerator.next s.issued) prepared
        findings := Function.update s.findings ("memv-" ++ IdGenerator.next s.issued)
          (s.findings ("memv-" ++ IdGenerator.next s.issued) ++ recorded)
        issued := s.issued + 1 }
  | claims {v : String} {head : ℕ} {existing : List Claim} {batch : List NewClaim}
      {recorded : List StoredFinding}
      (hc : c.claimTarget = some v) (hh : s.headOf v = .ok head)
      (he : s.lineageClaims v = .ok existing) (hs : State.checkSupersedes existing batch = .ok ())
      (hne : batch ≠ []) (hn : c.rowCount = batch.length) :
      Effect s c { s with
        claims := Function.update s.claims v
          (s.claims v ++ State.stampClaims v (head + 1) s.issued batch)
        findings := Function.update s.findings v (s.findings v ++ recorded)
        issued := s.issued + batch.length }
  | anchor {v : String} {head : ℕ} {anchor : Anchor} (hc : c.anchorTarget = some v)
      (hh : s.headOf v = .ok head) (ha : anchor.seq = head + 1) (hl : anchor.status = .locked)
      (hn : c.rowCount = 1) :
      Effect s c { s with
        anchors := Function.update s.anchors v (s.anchors v ++ [anchor])
        issued := s.issued + 1 }
  | promise {v : String} {head : ℕ} {promise : Promise} (hc : c.promiseTarget = some v)
      (hh : s.headOf v = .ok head) (hp : promise.seq = head + 1) (ho : promise.status = .opened)
      (hf : promise.fulfilledSeq = none) :
      Effect s c { s with
        promises := Function.update s.promises v (s.promises v ++ [promise])
        issued := s.issued + 1 }
  | fulfilled {u w key : String} {head : ℕ} {lineage : List String}
      (hc : c = .fulfillPromise u key) (hh : s.headOf u = .ok head)
      (hl : s.lineageOf u = .ok lineage)
      (hw : lineage.find? (fun w => (s.promises w).any (State.isOpenPromise key)) = some w) :
      Effect s c { s with
        promises := Function.update s.promises w
          (State.fulfillFirst key (head + 1) (s.promises w)) }
  | counted {v key scopePath : String} {count : ℕ} {budget : Option ℕ} {head : ℕ}
      (hc : c = .recordCounts v key scopePath count budget) (hh : s.headOf v = .ok head) :
      Effect s c { s with
        counters := Function.update s.counters v
          (State.recordRow key scopePath count budget (head + 1) (s.counters v)) }
  | found {v : String} {recorded : List StoredFinding} :
      Effect s c { s with
        findings := Function.update s.findings v (s.findings v ++ recorded) }

omit [Unicode] in
/-- Inversion of a batch append. -/
theorem appendBatch_eq_ok {s s' : State} {v : String} {batch : List NewClaim}
    {expectedHead : Option ℕ} {findings : List GateFinding} {stored : List Claim}
    (h : s.appendBatch v batch expectedHead findings = .ok (stored, s')) :
    (batch = [] ∧ stored = [] ∧ s' = s) ∨ batch ≠ [] ∧ ∃ head existing recorded,
      s.headOf v = .ok head ∧ (∀ expected, expectedHead = some expected → expected = head) ∧
      s.lineageClaims v = .ok existing ∧ State.checkSupersedes existing batch = .ok () ∧
      stored = State.stampClaims v (head + 1) s.issued batch ∧ s' = { s with
        claims := Function.update s.claims v (s.claims v ++ stored)
        findings := Function.update s.findings v (s.findings v ++ recorded)
        issued := s.issued + batch.length } := by
  unfold State.appendBatch at h
  split_ifs at h with he
  · cases h
    exact .inl ⟨by simpa using he, rfl, rfl⟩
  · have hne : batch ≠ [] := by simpa using he
    obtain ⟨head, hh, h⟩ := bind_eq_ok.mp h
    obtain ⟨⟨⟩, hcheck, h⟩ := bind_eq_ok.mp h
    obtain ⟨existing, hex, h⟩ := bind_eq_ok.mp h
    obtain ⟨⟨⟩, hs, h⟩ := bind_eq_ok.mp h
    cases h
    refine .inr ⟨hne, head, existing, _, hh, ?_, hex, hs, rfl, rfl⟩
    rintro expected rfl
    by_contra hexpected
    simp [State.checkHead, hexpected] at hcheck

theorem appendBatch_effect {s s' : State} {c : Command} {v : String} {batch : List NewClaim}
    {expectedHead : Option ℕ} {findings : List GateFinding} {stored : List Claim}
    (hc : batch ≠ [] → c.claimTarget = some v) (hn : c.rowCount = batch.length)
    (h : s.appendBatch v batch expectedHead findings = .ok (stored, s')) : Effect s c s' := by
  rcases appendBatch_eq_ok h with ⟨-, -, rfl⟩ | hbatch
  · exact .nothing
  · obtain ⟨hne, head, existing, recorded, hh, -, hex, hs, rfl, rfl⟩ := hbatch
    exact .claims (hc hne) hh hex hs hne hn

/-- Inversion of a step. -/
theorem Command.exec_effect {s s' : State} {c : Command} (h : c.exec s = .ok s') :
    Effect s c s' := by
  cases c with
  | createVersion parentId metadata =>
    obtain ⟨id, h⟩ := map_snd_eq_ok h
    obtain ⟨snapshot, hs, h⟩ := bind_eq_ok.mp h
    obtain ⟨prepared, hm, h⟩ := bind_eq_ok.mp h
    cases h
    exact .version rfl hs hm
  | appendClaim v claim expectedHead =>
    obtain ⟨out, h⟩ := map_snd_eq_ok h
    obtain ⟨head, hh, h⟩ := bind_eq_ok.mp h
    obtain ⟨⟨⟩, -, h⟩ := bind_eq_ok.mp h
    obtain ⟨existing, he, h⟩ := bind_eq_ok.mp h
    obtain ⟨⟨⟩, hs, h⟩ := bind_eq_ok.mp h
    cases h
    have heff := @Effect.claims _ _ _ s (.appendClaim v claim expectedHead) v head existing
      [claim] [] rfl hh he hs (List.cons_ne_nil claim []) rfl
    simpa [State.stampClaims] using heff
  | appendClaims v claims expectedHead =>
    obtain ⟨out, h⟩ := map_snd_eq_ok h
    exact appendBatch_effect (fun hne => by simp [claimTarget, hne]) rfl h
  | appendEvaluatedClaims v claims expectedHead findings =>
    obtain ⟨out, h⟩ := map_snd_eq_ok h
    exact appendBatch_effect (fun hne => by simp [claimTarget, hne]) rfl h
  | lockAnchor v subject key value scopePath evidence =>
    obtain ⟨out, h⟩ := map_snd_eq_ok h
    obtain ⟨head, hh, h⟩ := bind_eq_ok.mp h
    cases h
    exact .anchor rfl hh rfl rfl rfl
  | registerPromise v key kind description originScope dueScope =>
    obtain ⟨out, h⟩ := map_snd_eq_ok h
    obtain ⟨head, hh, h⟩ := bind_eq_ok.mp h
    cases h
    exact .promise rfl hh rfl rfl rfl
  | fulfillPromise v key =>
    obtain ⟨out, h⟩ := map_snd_eq_ok h
    obtain ⟨head, hh, h⟩ := bind_eq_ok.mp h
    obtain ⟨lineage, hl, h⟩ := bind_eq_ok.mp h
    split at h
    · rename_i w hw
      cases h
      exact .fulfilled rfl hh hl hw
    · cases h
      exact .nothing
  | recordCounts v key scopePath count budget =>
    obtain ⟨out, h⟩ := map_snd_eq_ok h
    obtain ⟨head, hh, h⟩ := bind_eq_ok.mp h
    cases h
    exact .counted rfl hh
  | recordFindings v seq findings =>
    obtain ⟨out, h⟩ := map_snd_eq_ok h
    obtain ⟨lineage, -, h⟩ := bind_eq_ok.mp h
    cases h
    exact .found

theorem Command.step_effect (s : State) (c : Command) : Effect s c (c.step s) := by
  unfold Command.step
  cases hx : c.exec s with
  | error e => exact .nothing
  | ok s' => exact Command.exec_effect hx

end
end Munarium
