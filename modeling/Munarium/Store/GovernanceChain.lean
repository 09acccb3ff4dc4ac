import Mathlib.Data.List.Induction
import Munarium.Store.Clock

/-! The chain of governance policies along the version tree. A version keeps its metadata,
so its revision is settled when it is created, against the head its parent has then. -/
namespace Munarium

section
variable [Platform]

/-- The revision of the policy a version is governed by. -/
def State.revisionOf (s : State) (v : String) : Result String := do
  let policy ← GovernancePolicy.fromStoredMetadata (s.versionMeta v)
  policy.revision

theorem State.revisionOf_eq {s : State} {v : String} {p : GovernancePolicy}
    (h : GovernancePolicy.fromStoredMetadata (s.versionMeta v) = .ok p) :
    s.revisionOf v = p.revision := by
  simp only [State.revisionOf, h, bind, Except.bind]

theorem fromStoredMetadata_revision {metadata : Option Json} {p : GovernancePolicy}
    (h : GovernancePolicy.fromStoredMetadata metadata = .ok p)
    (hgoverned : (metadata.bind (·.get "governance_policy")).isSome) :
    ∃ r, p.revision = .ok r ∧
      (metadata.bind (·.get "governance_revision")).bind Json.asStr = some r := by
  obtain ⟨q, -, h⟩ := bind_eq_ok.mp h
  rw [if_pos hgoverned] at h
  obtain ⟨r, hr, h⟩ := bind_eq_ok.mp h
  split_ifs at h with hstored
  · cases h
    exact ⟨r, hr, hstored⟩
  · cases h

end

section
variable [Unicode] [Platform]

omit [Unicode] in
/-- The parent's snapshot is pinned at its head. -/
theorem snapshotOfParent_pinned {s : State} {assess : Bool} {w : String}
    {snapshot : Option MeshSnapshot} (h : s.snapshotOfParent assess (some w) = .ok snapshot) :
    ∃ m head, snapshot = some m ∧ s.headOf w = .ok head ∧ m.asOfSeq = some head := by
  cases hw : s.versions w with
  | none => simp [State.snapshotOfParent, hw] at h
  | some parent =>
    simp only [State.snapshotOfParent, hw] at h
    cases hp : s.parentSnapshot w assess with
    | error e => simp [hp, Except.map] at h
    | ok m =>
      rw [hp] at h
      cases h
      obtain ⟨head, hh, hm⟩ := bind_eq_ok.mp hp
      refine ⟨m, head, rfl, hh, ?_⟩
      split_ifs at hm
      · obtain ⟨lineage, -, hm⟩ := bind_eq_ok.mp hm
        cases hm
        rfl
      · cases hm
        rfl

variable [IdGenerator]

theorem Effect.revisionOf_eq {s s' : State} {c : Command} (he : Effect s c s') (h : Sound s)
    {v : String} (hv : s.versions v ≠ none) : s'.revisionOf v = s.revisionOf v := by
  simp only [State.revisionOf, (he.version_kept h hv).2]

/-- The revision of an existing version never changes. -/
theorem run_revisionOf_eq {s : State} (h : Sound s) {v : String} (hv : s.versions v ≠ none)
    (more : List Command) : (Command.run s more).revisionOf v = s.revisionOf v := by
  induction more generalizing s with
  | nil => rfl
  | cons c rest ih =>
    have he := Command.step_effect s c
    have hv' : (c.step s).versions v ≠ none := by
      rw [(he.version_kept h hv).1]
      exact hv
    exact (ih (h.step c) hv').trans (he.revisionOf_eq h hv)

/-- Inversion of the step that creates a child. -/
theorem Effect.created {s s' : State} {c : Command} (he : Effect s c s') {v w : String}
    (hnew : s.versions v = none) (hv : s'.versions v = some (some w)) :
    ∃ metadata head old next, c = .createVersion (some w) metadata ∧ s.versions w ≠ none ∧
      s.headOf w = .ok head ∧
      GovernancePolicy.fromStoredMetadata (s.versionMeta w) = .ok old ∧
      GovernancePolicy.fromStoredMetadata (s'.versionMeta v) = .ok next ∧
      (old.revision = next.revision ∨ TransitionsFrom (s'.versionMeta v) old head) := by
  cases he with
  | @version parent metadata prepared snapshot recorded hc hsnap hprep =>
    dsimp only at hv ⊢
    have hid : v = "memv-" ++ IdGenerator.next s.issued := by
      by_contra hne
      rw [Function.update_of_ne hne, hnew] at hv
      cases hv
    subst hid
    rw [Function.update_self] at hv
    cases hv
    obtain ⟨m, head, rfl, hh, hpin⟩ := snapshotOfParent_pinned hsnap
    obtain ⟨old, next, hold, hnext, hlink⟩ := prepareVersionMetadata_spec hprep
    refine ⟨metadata, head, old, next, hc, snapshotOfParent_known hsnap, hh, hold, ?_, ?_⟩
    · rw [Function.update_self]
      exact hnext
    · rw [Function.update_self]
      refine (hlink m rfl).imp_right ?_
      intro htransition
      obtain ⟨head', hhead', htransition⟩ := htransition
      rw [hpin] at hhead'
      cases hhead'
      exact htransition
  | _ => simp [hnew] at hv

/-- The run creates `v` under `w` where the head of `w` is `head`. -/
def CreatedAt (commands : List Command) (v w : String) (head : ℕ) : Prop :=
  ∃ before metadata after,
    commands = before ++ Command.createVersion (some w) metadata :: after ∧
    (Command.run {} before).versions v = none ∧
    (Command.run {} before).headOf w = .ok head ∧
    (Command.run {} (before ++ [.createVersion (some w) metadata])).versions v = some (some w)

theorem CreatedAt.append {commands : List Command} {v w : String} {head : ℕ}
    (h : CreatedAt commands v w head) (c : Command) : CreatedAt (commands ++ [c]) v w head := by
  obtain ⟨before, metadata, after, rfl, h⟩ := h
  exact ⟨before, metadata, after ++ [c], by simp, h⟩

/-- A child has its parent's revision, or its metadata transitions from the parent's policy
at the head the parent had when the child was created. -/
def Linked (commands : List Command) (v w : String) : Prop :=
  (Command.run {} commands).revisionOf v = (Command.run {} commands).revisionOf w ∨
    ∃ head old, CreatedAt commands v w head ∧
      GovernancePolicy.fromStoredMetadata ((Command.run {} commands).versionMeta w) = .ok old ∧
      TransitionsFrom ((Command.run {} commands).versionMeta v) old head

theorem run_append (s : State) (commands : List Command) (c : Command) :
    Command.run s (commands ++ [c]) = c.step (Command.run s commands) := by
  simp [Command.run]

/-- A step keeps the link of a version it did not create. -/
theorem Linked.append {commands : List Command} {v w : String} (h : Linked commands v w)
    (hv : (Command.run {} commands).versions v ≠ none)
    (hw : (Command.run {} commands).versions w ≠ none) (c : Command) :
    Linked (commands ++ [c]) v w := by
  have hs := sound_init.run commands
  have he := Command.step_effect (Command.run {} commands) c
  unfold Linked
  rw [run_append, he.revisionOf_eq hs hv, he.revisionOf_eq hs hw, (he.version_kept hs hv).2,
    (he.version_kept hs hw).2]
  refine h.imp_right ?_
  rintro ⟨head, old, hcreated, hold, htransition⟩
  exact ⟨head, old, hcreated.append c, hold, htransition⟩

/-- Creating a version links it to its parent. -/
theorem Linked.create {commands : List Command} {c : Command} {v w : String}
    (hnew : (Command.run {} commands).versions v = none)
    (hv : (Command.run {} (commands ++ [c])).versions v = some (some w)) :
    Linked (commands ++ [c]) v w := by
  have hs := sound_init.run commands
  have he := Command.step_effect (Command.run {} commands) c
  have hcreated := hv
  rw [run_append] at hcreated
  obtain ⟨metadata, head, old, next, rfl, hw, hh, hold, hnext, hlink⟩ :=
    he.created hnew hcreated
  have hkept := (he.version_kept hs hw).2
  rw [← hkept] at hold
  unfold Linked
  rw [run_append, State.revisionOf_eq hold, State.revisionOf_eq hnext]
  rcases hlink with hsame | htransition
  · exact .inl hsame.symm
  · exact .inr ⟨head, old, ⟨commands, metadata, [], rfl, hnew, hh, hv⟩, hold, htransition⟩

/-- Every child of a run is linked to its parent. -/
theorem linked_of_parent (commands : List Command) {v w : String}
    (hv : (Command.run {} commands).versions v = some (some w)) : Linked commands v w := by
  induction commands using List.reverseRecOn with
  | nil => simp [Command.run] at hv
  | append_singleton commands c ih =>
    have hs := sound_init.run commands
    by_cases hnew : (Command.run {} commands).versions v = none
    · exact Linked.create hnew hv
    · have he := Command.step_effect (Command.run {} commands) c
      rw [run_append, (he.version_kept hs hnew).1] at hv
      obtain ⟨rank, hr⟩ := hs.ranked
      exact (ih hv).append hnew (hr.older v w hv).1 c

omit [Unicode] in
theorem Sound.stored {s : State} (h : Sound s) {v : String} (hv : s.versions v ≠ none) :
    ∃ p r, GovernancePolicy.fromStoredMetadata (s.versionMeta v) = .ok p ∧
      p.revision = .ok r := by
  obtain ⟨p, hp⟩ := State.verifyMetadata_ok_iff.mp (h.verified v hv)
  obtain ⟨r, hr⟩ := (fromStoredMetadata_valid hp).revision
  exact ⟨p, r, hp, hr⟩

/-- The governance policy chain: in the state any run reaches every version has a lineage
and metadata that verifies against its own revision, every child is linked to its parent,
revisions ignore the order of bindings, and no later step changes a version's revision. -/
theorem governance_policy_chain (commands : List Command) :
    let s := Command.run {} commands
    (∀ v, s.versions v ≠ none → (∃ lineage, s.lineageOf v = .ok lineage) ∧
      ∃ r, s.revisionOf v = .ok r ∧
        ((s.versionMeta v).bind (·.get "governance_policy") ≠ none →
          ((s.versionMeta v).bind (·.get "governance_revision")).bind Json.asStr = some r)) ∧
    (∀ v w, s.versions v = some (some w) → Linked commands v w) ∧
    (∀ (p q : GovernancePolicy) (r : String), p.values.Perm q.values → p.revision = .ok r →
      (q.revision = .ok r ↔ q.schemaVersion = 1)) ∧
    ∀ v, s.versions v ≠ none → ∀ more, (Command.run s more).revisionOf v = s.revisionOf v := by
  intro s
  have hs : Sound s := sound_init.run commands
  refine ⟨fun v hv => ⟨hs.exists_lineage hv, ?_⟩, fun v w => linked_of_parent commands, ?_,
    fun v hv => run_revisionOf_eq hs hv⟩
  · obtain ⟨p, r, hp, hr⟩ := hs.stored hv
    refine ⟨r, (State.revisionOf_eq hp).trans hr, fun hgoverned => ?_⟩
    obtain ⟨r', hr', hstored⟩ :=
      fromStoredMetadata_revision hp (Option.isSome_iff_ne_none.mpr hgoverned)
    rw [hr] at hr'
    cases hr'
    exact hstored
  · intro p q r hperm hp
    have hschema : p.schemaVersion = 1 := (GovernancePolicy.revision_eq_ok.mp hp).1.schema
    constructor
    · intro hq
      exact (GovernancePolicy.revision_eq_ok.mp hq).1.schema
    · intro hq
      exact GovernancePolicy.revision_of_perm hperm (hschema.trans hq.symm) hp

end
end Munarium
