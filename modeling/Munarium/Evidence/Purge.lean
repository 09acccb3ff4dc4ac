import Munarium.Evidence.Retention
import Mathlib.Logic.Function.Basic

/-! The janitor's sweep and the operator's purge as interleaved steps: list or read, delete
the bytes in the object store, mark the row. The hold is looked at only in the first of
the three, so a hold that arrives later is too late; a hold that arrives while the artifact
is in nobody's hands protects its bytes and its row. -/
namespace Munarium

/-- A running `purge_once` or `op_purge`: what it read and has not handled, and the
artifact whose bytes it has deleted but whose row it has not marked. A sweep marks with the
time it started at. -/
structure Purger where
  queue : List EvidenceArtifact
  marking : Option EvidenceArtifact
  sweepAt : Option String

def Purger.inFlight (p : Purger) : List EvidenceArtifact := p.marking.toList ++ p.queue

structure PurgeSystem where
  store : MemEvidenceStore
  blobs : SortedMap String Bytes
  purgers : ℕ → Option Purger

inductive PurgeEvent where
  | call (c : EvidenceCall)
  | upload (name : String) (bytes : Bytes)
  | purgeOnce (i : ℕ) (now : String) (limit : ℕ)
  | opPurge (i : ℕ) (tenant evidenceId : String)
  | skip (i : ℕ)
  | delete (i : ℕ)
  | mark (i : ℕ) (now : String)
  | finish (i : ℕ)

def EvidenceArtifact.sourceKey (a : EvidenceArtifact) : Result SourceKey :=
  SourceKey.create a.tenant a.blobPath (trimHash a.manifest.artifactHash)

/-- Rows are marked by purgers only, and registered under the path of their id. -/
def EvidenceCall.Allowed : EvidenceCall → Prop
  | .register a _ => a.blobPath = blobPath a.evidenceId
  | .markPurged _ _ _ => False
  | _ => True

instance (c : EvidenceCall) : Decidable c.Allowed := by
  cases c <;> unfold EvidenceCall.Allowed <;> infer_instance

namespace PurgeSystem

def start (blobs : SortedMap String Bytes) : PurgeSystem := ⟨.empty, blobs, fun _ => none⟩

def setPurger (s : PurgeSystem) (i : ℕ) (p : Option Purger) : PurgeSystem :=
  { s with purgers := Function.update s.purgers i p }

section
variable [Sha256]

/-- One step, where it is enabled. A refused or failed request leaves the system as it is;
`skip` is an unusable key or a failed deletion, which a sweep passes over. -/
def next (s : PurgeSystem) : PurgeEvent → Option PurgeSystem
  | .call c => if c.Allowed then some { s with store := s.store.after c } else none
  | .upload name bytes => some { s with blobs := s.blobs.insert name bytes }
  | .purgeOnce i now limit =>
      if (s.purgers i).isSome then none
      else some (s.setPurger i (some ⟨s.store.purgeDue now limit, none, some now⟩))
  | .opPurge i tenant evidenceId =>
      if (s.purgers i).isSome then none
      else match s.store.get tenant evidenceId with
        | none => some s
        | some a =>
            if a.legalHold then some s
            else if a.state = .purged then some s
            else some (s.setPurger i (some ⟨[a], none, none⟩))
  | .skip i =>
      match s.purgers i with
      | some ⟨_ :: rest, none, sweepAt⟩ => some (s.setPurger i (some ⟨rest, none, sweepAt⟩))
      | _ => none
  | .delete i =>
      match s.purgers i with
      | some ⟨a :: rest, none, sweepAt⟩ =>
          match a.sourceKey with
          | .error _ => none
          | .ok k => some ({ s with blobs := s.blobs.erase k.blobName }.setPurger i
              (some ⟨rest, some a, sweepAt⟩))
      | _ => none
  | .mark i now =>
      match s.purgers i with
      | some ⟨rest, some a, sweepAt⟩ =>
          let marked := s.store.after (.markPurged a.tenant a.evidenceId (sweepAt.getD now))
          some ({ s with store := marked }.setPurger i (some ⟨rest, none, sweepAt⟩))
      | _ => none
  | .finish i =>
      match s.purgers i with
      | some ⟨[], none, _⟩ => some (s.setPurger i none)
      | _ => none

end

/-- No held artifact loses its bytes or becomes purged in the step. -/
def HoldsKept (s t : PurgeSystem) : Prop :=
  ∀ tenant evidenceId b, s.store.get tenant evidenceId = some b → b.legalHold = true →
    (∀ k, b.sourceKey = .ok k → (s.blobs.get? k.blobName).isSome →
      (t.blobs.get? k.blobName).isSome) ∧
    (b.state ≠ .purged → ∀ b', t.store.get tenant evidenceId = some b' → b'.state ≠ .purged)

/-- A hold is placed only on an artifact that no purger has in its hands. -/
def HoldWaits (s : PurgeSystem) (e : PurgeEvent) : Prop :=
  ∀ tenant evidenceId, e = .call (.setLegalHold tenant evidenceId true) →
    ∀ i p, s.purgers i = some p → ∀ a ∈ p.inFlight,
      ¬ (a.tenant = tenant ∧ a.evidenceId = evidenceId)

section
variable [Sha256]

/-- The states of the runs in which every hold waits. -/
inductive Reachable : PurgeSystem → Prop
  | start (blobs : SortedMap String Bytes) : Reachable (start blobs)
  | step {s t : PurgeSystem} (e : PurgeEvent) (h : Reachable s) (hwait : s.HoldWaits e)
      (hnext : s.next e = some t) : Reachable t

end

/-- Rows stand under their ids and path, and what a purger has in its hands is a row
without a hold. -/
structure Consistent (s : PurgeSystem) : Prop where
  row : ∀ tenant evidenceId a, s.store.get tenant evidenceId = some a →
    a.tenant = tenant ∧ a.evidenceId = evidenceId ∧ a.blobPath = blobPath evidenceId
  inFlight : ∀ i p, s.purgers i = some p → ∀ a ∈ p.inFlight,
    a.blobPath = blobPath a.evidenceId ∧
      ∃ b, s.store.get a.tenant a.evidenceId = some b ∧ b.legalHold = false

theorem legalHold_withRetention (a : EvidenceArtifact) {update : Retention → Retention}
    (h : ∀ r, (update r).legalHold = r.legalHold) :
    (a.withRetention update).legalHold = a.legalHold := by
  simp [EvidenceArtifact.legalHold, EvidenceArtifact.withRetention, h]

theorem not_held_of_mem_purgeDue {s : MemEvidenceStore} {now : String} {limit : ℕ}
    {a : EvidenceArtifact} (h : a ∈ s.purgeDue now limit) :
    a ∈ s.artifacts.values ∧ a.legalHold = false := by
  have hmem := List.mem_of_mem_take h
  rw [List.mem_insertionSort, List.mem_filter] at hmem
  refine ⟨hmem.1, ?_⟩
  have hexp := hmem.2
  unfold EvidenceArtifact.expiry at hexp
  unfold EvidenceArtifact.legalHold
  split_ifs at hexp
  · cases hr : a.manifest.retention with
    | none => rfl
    | some r =>
      simp only [hr] at hexp
      split_ifs at hexp with hheld
      · simp at hexp
      · simp only [Bool.or_eq_true, not_or, Bool.not_eq_true] at hheld
        exact hheld.1
  · simp at hexp

section
variable [Sha256]

omit [Sha256] in
theorem Consistent.start (blobs : SortedMap String Bytes) :
    (PurgeSystem.start blobs).Consistent where
  row tenant evidenceId a h := by cases h
  inFlight i p h := by cases h

/-- An allowed call keeps rows under their ids and leaves what is in flight unheld, if
the hold it may place waits. -/
theorem Consistent.call {s : PurgeSystem} (hs : s.Consistent) {c : EvidenceCall}
    (hrow : ∀ a grant, c = .register a grant → a.blobPath = blobPath a.evidenceId)
    (hwait : s.HoldWaits (.call c)) :
    ({ s with store := s.store.after c } : PurgeSystem).Consistent where
  row tenant evidenceId a h := by
    have hchange := s.store.change_after c tenant evidenceId
    simp only at h
    rw [h] at hchange
    generalize hold : s.store.get tenant evidenceId = old at hchange
    cases hchange with
    | same => exact hs.row _ _ _ hold
    | created _ g ht hid => exact ⟨ht, hid, hid ▸ hrow _ _ rfl⟩
    | committed b now hp =>
      have hb := hs.row _ _ _ hold
      exact hb
    | purged b now hp =>
      have hb := hs.row _ _ _ hold
      exact hb
    | held b hold' =>
      have hb := hs.row _ _ _ hold
      exact hb
  inFlight i p hp a ha := by
    obtain ⟨hpath, b, hb, hheld⟩ := hs.inFlight i p hp a ha
    refine ⟨hpath, ?_⟩
    have hchange := s.store.change_after c a.tenant a.evidenceId
    rw [hb] at hchange
    simp only
    generalize hnew : (s.store.after c).get a.tenant a.evidenceId = new at hchange
    cases hchange with
    | same => exact ⟨b, rfl, hheld⟩
    | committed _ now hpending => exact ⟨_, rfl, hheld⟩
    | purged _ now hlive =>
      refine ⟨_, rfl, ?_⟩
      rw [legalHold_withRetention _ (by intro r; rfl)]
      exact hheld
    | held _ hold =>
      cases hold with
      | true => exact absurd ⟨rfl, rfl⟩ (hwait _ _ rfl i p hp a ha)
      | false => exact ⟨_, rfl, rfl⟩

omit [Sha256] in
/-- A purger may come to hold what is an unheld row, or what it held before. -/
theorem Consistent.setPurger {s : PurgeSystem} (hs : s.Consistent) (i : ℕ) {p : Option Purger}
    (h : ∀ q, p = some q → ∀ a ∈ q.inFlight,
      (∃ old, s.purgers i = some old ∧ a ∈ old.inFlight) ∨
        ∃ tenant evidenceId, s.store.get tenant evidenceId = some a ∧ a.legalHold = false) :
    (s.setPurger i p).Consistent where
  row := hs.row
  inFlight j q hq a ha := by
    by_cases hj : j = i
    · subst hj
      simp only [PurgeSystem.setPurger, Function.update_self] at hq
      rcases h q hq a ha with ⟨old, hold, hmem⟩ | ⟨tenant, evidenceId, hget, hheld⟩
      · exact hs.inFlight _ old hold a hmem
      · obtain ⟨rfl, rfl, hpath⟩ := hs.row _ _ _ hget
        exact ⟨hpath, a, hget, hheld⟩
    · simp only [PurgeSystem.setPurger, Function.update_of_ne hj] at hq
      exact hs.inFlight j q hq a ha

theorem Consistent.next {s t : PurgeSystem} (hs : s.Consistent) {e : PurgeEvent}
    (hwait : s.HoldWaits e) (hnext : s.next e = some t) : t.Consistent := by
  cases e with
  | call c =>
    simp only [PurgeSystem.next] at hnext
    split_ifs at hnext with hallowed
    cases hnext
    apply hs.call _ hwait
    rintro a grant rfl
    exact hallowed
  | upload name bytes =>
    cases hnext
    exact ⟨hs.row, hs.inFlight⟩
  | purgeOnce i now limit =>
    simp only [PurgeSystem.next] at hnext
    split_ifs at hnext
    cases hnext
    apply hs.setPurger
    rintro q ⟨⟩ a ha
    obtain ⟨hmem, hheld⟩ := not_held_of_mem_purgeDue (by simpa [Purger.inFlight] using ha)
    obtain ⟨k, hk⟩ := SortedMap.mem_values_iff.mp hmem
    exact .inr ⟨(ofLex k).1, (ofLex k).2, hk, hheld⟩
  | opPurge i tenant evidenceId =>
    simp only [PurgeSystem.next] at hnext
    split_ifs at hnext
    split at hnext
    · cases hnext
      exact hs
    · next a hget =>
      split_ifs at hnext with hheld hpurged
      · cases hnext
        exact hs
      · cases hnext
        exact hs
      · cases hnext
        apply hs.setPurger
        rintro q ⟨⟩ b hb
        obtain rfl : b = a := by simpa [Purger.inFlight] using hb
        exact .inr ⟨tenant, evidenceId, hget, by simpa using hheld⟩
  | skip i =>
    simp only [PurgeSystem.next] at hnext
    split at hnext
    · next b rest sweepAt hp =>
      cases hnext
      apply hs.setPurger
      rintro q ⟨⟩ a ha
      exact .inl ⟨_, hp, by
        have : a ∈ rest := by simpa [Purger.inFlight] using ha
        simp [Purger.inFlight, this]⟩
    · cases hnext
  | delete i =>
    simp only [PurgeSystem.next] at hnext
    split at hnext
    · next b rest sweepAt hp =>
      split at hnext
      · cases hnext
      · next k hk =>
        cases hnext
        have hblobs : ({ s with blobs := s.blobs.erase k.blobName } : PurgeSystem).Consistent :=
          ⟨hs.row, hs.inFlight⟩
        apply hblobs.setPurger
        rintro q ⟨⟩ a ha
        exact .inl ⟨_, hp, by simpa [Purger.inFlight] using ha⟩
    · cases hnext
  | mark i now =>
    simp only [PurgeSystem.next] at hnext
    split at hnext
    · next rest b sweepAt hp =>
      cases hnext
      have hmarked := hs.call (c := .markPurged b.tenant b.evidenceId (sweepAt.getD now))
        (by rintro a grant ⟨⟩) (by rintro tenant evidenceId ⟨⟩)
      apply hmarked.setPurger
      rintro q ⟨⟩ a ha
      exact .inl ⟨_, hp, by
        have : a ∈ rest := by simpa [Purger.inFlight] using ha
        simp [Purger.inFlight, this]⟩
    · cases hnext
  | finish i =>
    simp only [PurgeSystem.next] at hnext
    split at hnext
    · cases hnext
      apply hs.setPurger
      rintro q ⟨⟩
    · cases hnext

theorem Reachable.consistent {s : PurgeSystem} (h : Reachable s) : s.Consistent := by
  induction h with
  | start blobs => exact .start blobs
  | step e _ hwait hnext ih => exact ih.next hwait hnext

omit [Sha256] in
theorem holdsKept_of_store_eq {s t : PurgeSystem} (hstore : t.store = s.store)
    (hblobs : ∀ b tenant evidenceId k, s.store.get tenant evidenceId = some b →
      b.legalHold = true → b.sourceKey = .ok k → (s.blobs.get? k.blobName).isSome →
      (t.blobs.get? k.blobName).isSome) : s.HoldsKept t := by
  intro tenant evidenceId b hb hheld
  refine ⟨fun k hk hsome => hblobs b _ _ k hb hheld hk hsome, ?_⟩
  intro hlive b' hb'
  rw [hstore, hb] at hb'
  cases hb'
  exact hlive

omit [Sha256] in
theorem holdsKept_setPurger (s : PurgeSystem) (i : ℕ) (p : Option Purger) :
    s.HoldsKept (s.setPurger i p) :=
  holdsKept_of_store_eq rfl fun _ _ _ _ _ _ _ hsome => hsome

omit [Sha256] in
theorem holdsKept_self (s : PurgeSystem) : s.HoldsKept s :=
  holdsKept_of_store_eq rfl fun _ _ _ _ _ _ _ hsome => hsome

/-- A deletion touches no blob of a held artifact: its blob name gives the id back, and
what a purger has in its hands is not held. -/
theorem Consistent.holdsKept_delete {s t : PurgeSystem} (hs : s.Consistent) {i : ℕ}
    (hnext : s.next (.delete i) = some t) : s.HoldsKept t := by
  simp only [PurgeSystem.next] at hnext
  split at hnext
  · next a rest sweepAt hp =>
    split at hnext
    · cases hnext
    · next k hk =>
      cases hnext
      refine holdsKept_of_store_eq ?_ ?_
      · rfl
      intro b tenant evidenceId kb hb hheld hkb hsome
      simp only [PurgeSystem.setPurger, SortedMap.get?_erase]
      split_ifs with hname
      · exfalso
        obtain ⟨htenant, hpath⟩ := SourceKey.blobName_inj hkb hk hname
        obtain ⟨hapath, c, hc, hfree⟩ := hs.inFlight i _ hp a (by simp [Purger.inFlight])
        obtain ⟨rfl, rfl, hbpath⟩ := hs.row _ _ _ hb
        have hid : b.evidenceId = a.evidenceId := by
          apply blobPath_injective
          rw [← hbpath, ← hapath, hpath]
        rw [← htenant, ← hid, hb] at hc
        cases hc
        rw [hheld] at hfree
        cases hfree
      · exact hsome
  · cases hnext

/-- Only the artifact in the purger's hands becomes purged, and it is not held. -/
theorem Consistent.holdsKept_mark {s t : PurgeSystem} (hs : s.Consistent) {i : ℕ}
    {now : String} (hnext : s.next (.mark i now) = some t) : s.HoldsKept t := by
  simp only [PurgeSystem.next] at hnext
  split at hnext
  · next rest a sweepAt hp =>
    cases hnext
    intro tenant evidenceId b hb hheld
    refine ⟨fun k _ hsome => hsome, ?_⟩
    intro hlive b' hb'
    simp only [PurgeSystem.setPurger] at hb'
    have hchange := s.store.change_after (.markPurged a.tenant a.evidenceId (sweepAt.getD now))
      tenant evidenceId
    rw [hb, hb'] at hchange
    obtain ⟨-, c, hc, hfree⟩ := hs.inFlight i _ hp a (by simp [Purger.inFlight])
    cases hchange with
    | same => exact hlive
    | purged _ now' hp' =>
      rw [hb] at hc
      cases hc
      rw [hheld] at hfree
      cases hfree
  · cases hnext

theorem Consistent.holdsKept {s t : PurgeSystem} (hs : s.Consistent) {e : PurgeEvent}
    (hnext : s.next e = some t) : s.HoldsKept t := by
  cases e with
  | call c =>
    simp only [PurgeSystem.next] at hnext
    split_ifs at hnext with hallowed
    cases hnext
    intro tenant evidenceId b hb hheld
    refine ⟨fun k _ hsome => hsome, ?_⟩
    intro hlive b' hb'
    have hchange := s.store.change_after c tenant evidenceId
    simp only at hb'
    rw [hb, hb'] at hchange
    cases hchange with
    | same => exact hlive
    | committed _ now hp => simp
    | purged _ now hp => exact absurd hallowed id
    | held _ hold => exact hlive
  | upload name bytes =>
    cases hnext
    refine holdsKept_of_store_eq ?_ ?_
    · rfl
    intro b tenant evidenceId k _ _ _ hsome
    simp only [SortedMap.get?_insert]
    split_ifs <;> simp [hsome]
  | delete i => exact hs.holdsKept_delete hnext
  | mark i now => exact hs.holdsKept_mark hnext
  | purgeOnce i now limit =>
    simp only [PurgeSystem.next] at hnext
    split_ifs at hnext
    cases hnext
    exact holdsKept_setPurger _ _ _
  | opPurge i tenant evidenceId =>
    simp only [PurgeSystem.next] at hnext
    split_ifs at hnext
    split at hnext
    · cases hnext
      exact holdsKept_self s
    · split_ifs at hnext <;> cases hnext
      · exact holdsKept_self s
      · exact holdsKept_self s
      · exact holdsKept_setPurger _ _ _
  | skip i =>
    simp only [PurgeSystem.next] at hnext
    split at hnext <;> cases hnext
    exact holdsKept_setPurger _ _ _
  | finish i =>
    simp only [PurgeSystem.next] at hnext
    split at hnext <;> cases hnext
    exact holdsKept_setPurger _ _ _

/-- A run of events, if every one is enabled. -/
def afterAll (s : PurgeSystem) (events : List PurgeEvent) : Option PurgeSystem :=
  events.foldlM next s

end

section
attribute [local instance] EvidenceManifest.sampleSha256

/-- An expired artifact with its bytes in the object store, listed by a sweep, before and
after a hold is placed on it. -/
abbrev listed : Option PurgeSystem :=
  (start (SortedMap.empty.insert "demo/evidence/ev-1" [1])).afterAll
    [.call (.register (MemEvidenceStore.expiring "2026-01-01T00:00:00.000Z") none),
      .purgeOnce 0 "2026-02-01T00:00:00.000Z" 500]

abbrev listedThenHeld : Option PurgeSystem :=
  listed.bind fun s => s.next (.call (.setLegalHold "demo" "ev-1" true))

/-- What one look at the sample shows: its row, and whether its bytes are there. -/
structure Glance where
  held : Bool
  state : EvidenceState
  key : Option SourceKey
  stored : Bool
  deriving DecidableEq

def glance (s : PurgeSystem) : Option Glance :=
  (s.store.get "demo" "ev-1").map fun b =>
    ⟨b.legalHold, b.state, b.sourceKey.toOption, (s.blobs.get? "demo/evidence/ev-1").isSome⟩

abbrev sampleKey : SourceKey where
  tenant := "demo"
  path := "evidence/ev-1"
  contentHash := "bbbbbbbbbbbbbbbbbbbbbbbbbbbbbbbbbbbbbbbbbbbbbbbbbbbbbbbbbbbbbbbb"

end

end PurgeSystem

end Munarium
