import Munarium.Evidence.Store
import Munarium.Evidence.TextOrder

/-! The retention sweep picks artifacts by comparing expiry texts. It picks by instants
exactly where text order is the order of instants, and between two shapes of timestamps
that is exactly their compatibility. -/
namespace Munarium

namespace EvidenceArtifact

/-- Committed, unheld, not yet purged, and expired at an instant. -/
def dueBy (now : Timestamp) (a : EvidenceArtifact) : Bool :=
  (a.expiry.bind parseFromRfc3339).any fun t => decide (t.instant ≤ now.instant)

theorem expiresAt_withRetention (a : EvidenceArtifact) {update : Retention → Retention}
    (h : ∀ r, (update r).expiresAt = r.expiresAt) :
    (a.withRetention update).manifest.retention.bind (·.expiresAt) =
      a.manifest.retention.bind (·.expiresAt) := by
  cases hr : a.manifest.retention <;> simp [withRetention, hr, h]

theorem expiry_eq_some {a : EvidenceArtifact} {e : String} (h : a.expiry = some e) :
    a.manifest.retention.bind (·.expiresAt) = some e := by
  unfold expiry at h
  split_ifs at h
  cases hr : a.manifest.retention with
  | none => simp [hr] at h
  | some r =>
    simp only [hr] at h
    split_ifs at h
    simpa using h

end EvidenceArtifact

theorem EvidenceManifest.Accepted.expiry_parses {m : EvidenceManifest} (h : m.Accepted)
    {e : String} (he : m.retention.bind (·.expiresAt) = some e) :
    (parseFromRfc3339 e).isSome := by
  obtain ⟨hframe, -⟩ := EvidenceManifest.accepted_iff.mp h
  have hr := hframe.2.2.2.2.2.2.2.2.2.1
  cases hm : m.retention with
  | none => simp [hm] at he
  | some r =>
    have hexp : r.expiresAt = some e := by simpa [hm] using he
    unfold EvidenceManifest.validateRetention at hr
    simp only [hm, bind_unit_eq_ok, hexp, validateTimestamp, refuseWhen_eq_ok] at hr
    simpa using hr.1

namespace MemEvidenceStore

section
variable [Sha256]

theorem Reachable.expiry_parses {s : MemEvidenceStore} (h : Reachable s)
    {tenant evidenceId : String} {a : EvidenceArtifact} (hg : s.get tenant evidenceId = some a)
    {e : String} (he : a.manifest.retention.bind (·.expiresAt) = some e) :
    (parseFromRfc3339 e).isSome := by
  induction h generalizing tenant evidenceId a e with
  | empty => cases hg
  | @step s call hs hmanifest ih =>
    have hchange := change_after s call tenant evidenceId
    rw [hg] at hchange
    generalize hold : s.get tenant evidenceId = old at hchange
    cases hchange with
    | same => exact ih hold he
    | created => exact (hmanifest a _ rfl).expiry_parses he
    | committed b now hp => exact ih hold he
    | purged b now hp =>
      rw [EvidenceArtifact.expiresAt_withRetention _ (by intro r; rfl)] at he
      exact ih hold he
    | held b hold' =>
      rw [EvidenceArtifact.expiresAt_withRetention _ (by intro r; rfl)] at he
      exact ih hold he

end

theorem exists_get_of_mem_values {s : MemEvidenceStore} {a : EvidenceArtifact}
    (h : a ∈ s.artifacts.values) : ∃ tenant evidenceId, s.get tenant evidenceId = some a := by
  obtain ⟨k, hk⟩ := SortedMap.mem_values_iff.mp h
  exact ⟨(ofLex k).1, (ofLex k).2, hk⟩

/-- The sweep returns the due artifacts, each as often as the store holds it. -/
def PurgesByInstant (s : MemEvidenceStore) (now : String) (limit : ℕ) : Prop :=
  ∃ t, parseFromRfc3339 now = some t ∧
    (s.purgeDue now limit).Perm (s.artifacts.values.filter (EvidenceArtifact.dueBy t))

theorem filter_perm_filter_iff {α : Type*} {p q : α → Bool} {l : List α} :
    (l.filter p).Perm (l.filter q) ↔ ∀ a ∈ l, p a = q a := by
  constructor
  · intro h a ha
    have := h.mem_iff (a := a)
    simp only [List.mem_filter, ha, true_and] at this
    exact Bool.eq_iff_iff.mpr this
  · intro h
    rw [List.filter_congr h]

theorem purgeDue_perm (s : MemEvidenceStore) (now : String) {limit : ℕ}
    (h : s.artifacts.values.length ≤ limit) :
    (s.purgeDue now limit).Perm
      (s.artifacts.values.filter fun a => a.expiry.any (fun e => decide (e ≤ now))) := by
  unfold purgeDue
  rw [List.take_of_length_le]
  · exact List.perm_insertionSort _ _
  · rw [List.length_insertionSort]
    exact (List.length_filter_le _ _).trans h

/-- A committed artifact of the sample manifest that expires at a given text. -/
abbrev expiring (e : String) : EvidenceArtifact where
  evidenceId := "ev-1"
  tenant := "demo"
  state := .committed
  manifest := { EvidenceManifest.sample none [] with retention := some ⟨some e, false, none⟩ }
  blobPath := Munarium.blobPath "ev-1"
  createdAt := "2025-01-01T00:00:00.000Z"
  committedAt := some "2025-01-01T00:00:00.000Z"

theorem accepted_expiring {e : String} (h : (parseFromRfc3339 e).isSome) :
    (expiring e).manifest.Accepted := by
  have hsample : (EvidenceManifest.sample none []).Accepted := by decide +kernel
  obtain ⟨⟨h₁, h₂, h₃, h₄, h₅, h₆, h₇, h₈, h₉, -, h₁₁⟩, hrest⟩ :=
    EvidenceManifest.accepted_iff.mp hsample
  apply EvidenceManifest.accepted_iff.mpr
  refine ⟨⟨h₁, h₂, h₃, h₄, h₅, h₆, h₇, h₈, h₉, ?_, h₁₁⟩, hrest⟩
  simp only [EvidenceManifest.validateRetention, bind_unit_eq_ok, validateTimestamp,
    refuseWhen_eq_ok, and_true]
  simpa using h

section
variable [Sha256]

/-- The sweep decides by instants exactly when every candidate's expiry stands to `now`
as a text the way it does as an instant. -/
theorem purgesByInstant_iff {s : MemEvidenceStore} (hs : Reachable s) {now : String}
    {n : Timestamp} (hn : parseFromRfc3339 now = some n) {limit : ℕ}
    (hlimit : s.artifacts.values.length ≤ limit) :
    s.PurgesByInstant now limit ↔ ∀ a ∈ s.artifacts.values, ∀ e t, a.expiry = some e →
      parseFromRfc3339 e = some t → (e ≤ now ↔ t.instant ≤ n.instant) := by
  have hperm := purgeDue_perm s now hlimit
  have hiff : s.PurgesByInstant now limit ↔ ∀ a ∈ s.artifacts.values,
      (a.expiry.any fun e => decide (e ≤ now)) = a.dueBy n := by
    rw [← filter_perm_filter_iff]
    constructor
    · rintro ⟨t, ht, h⟩
      obtain rfl : n = t := Option.some.inj (hn.symm.trans ht)
      exact hperm.symm.trans h
    · intro h
      exact ⟨n, hn, hperm.trans h⟩
  rw [hiff]
  apply forall₂_congr
  intro a ha
  obtain ⟨tenant, evidenceId, hg⟩ := exists_get_of_mem_values ha
  unfold EvidenceArtifact.dueBy
  cases he : a.expiry with
  | none => simp
  | some e =>
    have hparse := hs.expiry_parses hg (EvidenceArtifact.expiry_eq_some he)
    obtain ⟨t, ht⟩ := Option.isSome_iff_exists.mp hparse
    simp only [Option.any_some, Option.bind_some, ht, decide_eq_decide]
    constructor
    · rintro h e' t' ⟨⟩ ht'
      obtain rfl := Option.some.inj (ht.symm.trans ht')
      exact h
    · intro h
      exact h e t rfl ht

/-- The store that holds nothing else. -/
abbrev holding (e : String) : MemEvidenceStore := empty.after (.register (expiring e) none)

theorem reachable_holding {e : String} (h : (parseFromRfc3339 e).isSome) :
    Reachable (holding e) := by
  apply Reachable.step _ .empty
  rintro artifact grant ⟨⟩
  exact accepted_expiring h

theorem values_holding (e : String) : (holding e).artifacts.values = [expiring e] := rfl

/-- Between expiries of one shape and sweeps of another the sweep decides by instants, in
every state and for every such text, exactly when the shapes are compatible. -/
theorem purgesByInstant_iff_compatible (σ τ : Shape) :
    (∀ s : MemEvidenceStore, Reachable s →
      (∀ a ∈ s.artifacts.values, ∀ e t, a.expiry = some e → parseFromRfc3339 e = some t →
        t.shape = σ) →
      ∀ now n, parseFromRfc3339 now = some n → n.shape = τ →
        ∀ limit, s.artifacts.values.length ≤ limit → s.PurgesByInstant now limit) ↔
      σ.Compatible τ := by
  rw [← Shape.compatible_iff]
  constructor
  · rintro h t u rfl rfl
    have ht : parseFromRfc3339 t.text = some t := parseFromRfc3339_eq_some_iff.mpr rfl
    have hu : parseFromRfc3339 u.text = some u := parseFromRfc3339_eq_some_iff.mpr rfl
    have hreach := reachable_holding (e := t.text) (by simp [ht])
    have hsweep := h _ hreach (by
      intro a ha e t' he ht'
      rw [values_holding, List.mem_singleton] at ha
      subst ha
      cases he
      rw [Option.some.inj (ht.symm.trans ht')]) u.text u hu rfl _ le_rfl
    exact (purgesByInstant_iff hreach hu le_rfl).mp hsweep (expiring t.text)
      (by rw [values_holding]; simp) t.text t rfl ht
  · intro h s hs hshape now n hn hnshape limit hlimit
    apply (purgesByInstant_iff hs hn hlimit).mpr
    intro a ha e t he ht
    have hagree := h t n (hshape a ha e t he ht) hnshape
    rwa [parseFromRfc3339_eq_some_iff.mp ht, parseFromRfc3339_eq_some_iff.mp hn] at hagree

/-- Retention by instants: in a state exactly when its candidates' texts order as their
instants do, and for all texts of two shapes exactly when the shapes are compatible. -/
theorem retention_decided_by_instants :
    (∀ s : MemEvidenceStore, Reachable s → ∀ now n, parseFromRfc3339 now = some n →
      ∀ limit, s.artifacts.values.length ≤ limit →
        (s.PurgesByInstant now limit ↔ ∀ a ∈ s.artifacts.values, ∀ e t, a.expiry = some e →
          parseFromRfc3339 e = some t → (e ≤ now ↔ t.instant ≤ n.instant))) ∧
    ∀ σ τ : Shape,
      (∀ s : MemEvidenceStore, Reachable s →
        (∀ a ∈ s.artifacts.values, ∀ e t, a.expiry = some e → parseFromRfc3339 e = some t →
          t.shape = σ) →
        ∀ now n, parseFromRfc3339 now = some n → n.shape = τ →
          ∀ limit, s.artifacts.values.length ≤ limit → s.PurgesByInstant now limit) ↔
        σ.Compatible τ := by
  constructor
  · intro s hs now n hn limit hlimit
    exact purgesByInstant_iff hs hn hlimit
  · exact purgesByInstant_iff_compatible

end

section
attribute [local instance] EvidenceManifest.sampleSha256

/-- Five hours west of UTC the sweep comes early, two hours east it comes late. -/
theorem retention_decided_by_texts :
    Reachable (holding "2026-01-01T00:00:00-05:00") ∧
      (holding "2026-01-01T00:00:00-05:00").purgeDue "2026-01-01T01:00:00Z" 1 =
        [expiring "2026-01-01T00:00:00-05:00"] ∧
      ¬ (holding "2026-01-01T00:00:00-05:00").PurgesByInstant "2026-01-01T01:00:00Z" 1 ∧
      Reachable (holding "2026-01-01T00:00:00+02:00") ∧
      (holding "2026-01-01T00:00:00+02:00").purgeDue "2025-12-31T23:30:00Z" 1 = [] ∧
      ¬ (holding "2026-01-01T00:00:00+02:00").PurgesByInstant "2025-12-31T23:30:00Z" 1 := by
  have hwest : (holding "2026-01-01T00:00:00-05:00").purgeDue "2026-01-01T01:00:00Z" 1 =
      [expiring "2026-01-01T00:00:00-05:00"] := by decide +kernel
  have heast : (holding "2026-01-01T00:00:00+02:00").purgeDue "2025-12-31T23:30:00Z" 1 = [] := by
    decide +kernel
  refine ⟨reachable_holding (by decide +kernel), hwest, ?_, reachable_holding (by decide +kernel),
    heast, ?_⟩
  · rintro ⟨n, hn, hperm⟩
    have hdue : (parseFromRfc3339 "2026-01-01T01:00:00Z").map
        (fun n => (expiring "2026-01-01T00:00:00-05:00").dueBy n) = some false := by
      decide +kernel
    simp only [hn, Option.map_some, Option.some.injEq] at hdue
    rw [hwest, values_holding, List.filter_cons, hdue] at hperm
    simpa using hperm.length_eq
  · rintro ⟨n, hn, hperm⟩
    have hdue : (parseFromRfc3339 "2025-12-31T23:30:00Z").map
        (fun n => (expiring "2026-01-01T00:00:00+02:00").dueBy n) = some true := by
      decide +kernel
    simp only [hn, Option.map_some, Option.some.injEq] at hdue
    rw [heast, values_holding, List.filter_cons, hdue] at hperm
    simpa using hperm.length_eq

end

end MemEvidenceStore

end Munarium
