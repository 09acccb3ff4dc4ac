import Munarium.Server.CollectionQuery
import Munarium.Server.VocabularyRuns
import Mathlib.Data.Int.ConditionallyCompleteOrder

/-! What a collection-scoped answer tells its reader while policies, vocabularies and collections
change under it: there is one moment at which everything it reports was in force at once. -/
namespace Munarium

open Shared CollectionDb CollectionGovernance CollectionWorld AnswerWorld QueryWorld

/-- The database under the other requests, while the rest of the server changes by `W`. -/
def Follows {ω : Type} [CalendarText] (W : ω → ω → Prop) (s t : CollectionDb ω) : Prop :=
  s.Moves t ∧ W s.world t.world

/-- What the rest of the server keeps to: a capability stays with its tenant, a collection is
found by its id, and its id stays known. -/
structure Catalogue {ω : Type} [CollectionWorld ω] (W : ω → ω → Prop) : Prop where
  tenant : ∀ {w w' token a a'}, W w w' → access w token = .ok a → access w' token = .ok a' →
    a'.tenantId = a.tenantId
  byId : ∀ {w : ω} {tenant id info}, collectionById w tenant id = .ok info → info.id = id
  known : ∀ {w w' tenant name info}, W w w' →
    (collectionById w tenant name = .ok info ∨ collectionByName w tenant name = .ok info) →
      ∀ kind id, collectionById w' tenant info.id ≠ .error (.notFound kind id)

section Tables
variable [CalendarText] {rows : GovernanceTable}

theorem GovernanceTable.History.load_valid (h : rows.History) {tenant id : String}
    {policy : CollectionGovernance} (hload : rows.load tenant id = some policy) :
    WellFormed policy ∧ Budgeted policy.query := by
  rw [h.load_eq] at hload
  obtain ⟨r, hr, rfl⟩ := Option.map_eq_some_iff.mp hload
  have hmem : r ∈ rows := (List.mem_filter.mp (List.mem_of_getLast? hr)).1
  obtain ⟨hwell, hbudget⟩ := h.valid r hmem
  exact ⟨⟨hwell.ids, hwell.stamped, hwell.ended, hwell.related⟩, hbudget⟩

variable {ω : Type} {W : ω → ω → Prop}

theorem versioned_governance (tenant id : String) :
    Versioned CollectionDb.Sound (Follows W) (fun s => s.governance.revision tenant id)
      fun s => s.governance.load tenant id where
  le s t hs hst := by
    have hpub := hst.1.1
    rw [hs.governance.revision_eq, (hpub.history hs.governance).revision_eq]
    cases hold : s.governance.load tenant id with
    | some old =>
      obtain ⟨new, hnew, -, hlater⟩ := hpub.load hs.governance hold
      have hrev := hs.governance.revision_eq tenant id
      have hrev' := (hpub.history hs.governance).revision_eq tenant id
      simp only [GovernanceTable.revision, hold, hnew, Option.map_some, Option.getD_some]
        at hrev hrev'
      rw [← hrev, ← hrev']
      rcases hlater with rfl | hlater
      · exact le_rfl
      · exact hlater.le
    | none =>
      have hrev := hs.governance.revision_eq tenant id
      rw [GovernanceTable.revision, hold] at hrev
      rw [← hrev]
      exact Int.natCast_nonneg _
  same _ _ hs hst heq := hst.1.1.load_eq hs.governance heq

theorem versioned_vocabulary (tenant id : String) :
    Versioned CollectionDb.Sound (Follows W)
      (fun s => VocabularyTable.revisionAt s.vocabularies tenant id)
      fun s => VocabularyTable.contentAt s.vocabularies tenant id where
  le _ _ hs hst := hst.1.2.1.revisionAt_le (hst.1.2.2 hs.vocabularies) tenant id
  same _ _ hs hst heq := hst.1.2.1.load_content (hst.1.2.2 hs.vocabularies) heq

end Tables

section Rechecks
variable {ω α : Type} [QueryWorld ω] [CalendarText] {W : ω → ω → Prop} [IsPreorder ω W]
  {s : CollectionDb ω}

omit [QueryWorld ω] in
theorem Follows.refl (s : CollectionDb ω) : Follows W s s := ⟨.refl s, refl_of W s.world⟩

omit [QueryWorld ω] in
theorem Follows.trans {t u : CollectionDb ω} (h : Follows W s t) (h' : Follows W t u) :
    Follows W s u := ⟨h.1.trans h'.1, trans_of W h.2 h'.2⟩

omit [QueryWorld ω] [IsPreorder ω W] in
theorem Follows.sound {t : CollectionDb ω} (h : Follows W s t) (hs : s.Sound) : t.Sound :=
  h.1.sound hs

instance : IsTrans (CollectionDb ω) (Follows W) := ⟨fun _ _ _ => Follows.trans⟩

/-- Something that is so at a moment between two states. -/
def Between (W : ω → ω → Prop) (s t : CollectionDb ω) (P : CollectionDb ω → Prop) : Prop :=
  ∃ u, Follows W s u ∧ Follows W u t ∧ P u

omit [QueryWorld ω] in
theorem Between.later {t t' : CollectionDb ω} {P : CollectionDb ω → Prop} (h : Between W s t P)
    (ht : Follows W t t') : Between W s t' P := by
  obtain ⟨u, hu, hut, hP⟩ := h
  exact ⟨u, hu, hut.trans ht, hP⟩

omit [QueryWorld ω] in
theorem Between.earlier {s₀ t : CollectionDb ω} {P : CollectionDb ω → Prop} (h : Between W s t P)
    (hs : Follows W s₀ s) : Between W s₀ t P := by
  obtain ⟨u, hu, hut, hP⟩ := h
  exact ⟨u, hs.trans hu, hut, hP⟩

/-- The id is one that has been handed out. -/
def Known (W : ω → ω → Prop) (tenant id : String) (s : CollectionDb ω) : Prop :=
  ∀ w', W s.world w' → ∀ kind name, collectionById w' tenant id ≠ .error (.notFound kind name)

theorem Known.later {tenant id : String} {t : CollectionDb ω} (h : Known W tenant id s)
    (ht : Follows W s t) : Known W tenant id t := fun w' hw => h w' (trans_of W ht.2 hw)

/-- The capability stays in one tenant from here on. -/
def Bound (W : ω → ω → Prop) (token tenant : String) (s : CollectionDb ω) : Prop :=
  ∀ w' a, W s.world w' → access w' token = .ok a → a.tenantId = tenant

theorem Bound.later {token tenant : String} {t : CollectionDb ω} (h : Bound W token tenant s)
    (ht : Follows W s t) : Bound W token tenant t := fun w' a hw => h w' a (trans_of W ht.2 hw)

omit [IsPreorder ω W] in
/-- What is found under an id that is known is the collection of that id. -/
theorem Located.byId {tenant id : String} {t : CollectionDb ω} {info : CollectionInfo}
    (h : Located (Follows W) tenant id s t info) (hknown : Known W tenant id s) :
    collectionById t.world tenant id = .ok info := by
  rcases h with h | ⟨-, u, kind, name, hu, hmissing⟩
  · exact h
  · exact absurd hmissing (hknown u.world hu.2 kind name)

omit [IsPreorder ω W] in
theorem Located.known {tenant name : String} {t : CollectionDb ω} {info : CollectionInfo}
    (hcat : Catalogue W) (h : Located (Follows W) tenant name s t info) :
    Known W tenant info.id t :=
  fun _ hw kind id => hcat.known hw (h.imp_right And.left) kind id

/-- The policy and the vocabulary are those of the request, each at a moment, and the collection
is visible to the capability. -/
structure Current (W : ω → ω → Prop) (a : AccessCtx) (s t : CollectionDb ω) (sn : Snapshot) :
    Prop where
  visible : Between W s t fun u => ∃ info, collectionById u.world a.tenantId sn.info.id = .ok info ∧
    info.status = "active" ∧ a.permits info.accessLevel info.compartments = true
  policy : Between W s t fun u =>
    u.governance.revision a.tenantId sn.info.id = policyRevision sn.policy
  vocabulary : Between W s t fun u =>
    VocabularyTable.revisionAt u.vocabularies a.tenantId sn.info.id = sn.vocabularyRevision

/-- The index is that of an active collection within the clearance of the capability. -/
def OpenTo (W : ω → ω → Prop) (a : AccessCtx) (s t : CollectionDb ω) (target : Target) : Prop :=
  Between W s t fun u => ∃ info, collectionById u.world a.tenantId target.info.id = .ok info ∧
    info.status = "active" ∧ info.accessLevel ≤ a.level.toInt ∧
    info.accessLevel = target.info.accessLevel ∧ info.compartments = target.info.compartments

theorem Current.later {a : AccessCtx} {t t' : CollectionDb ω} {sn : Snapshot}
    (h : Current W a s t sn) (ht : Follows W t t') : Current W a s t' sn :=
  ⟨h.visible.later ht, h.policy.later ht, h.vocabulary.later ht⟩

variable {Q : Result α → CollectionDb ω → Prop} {next : Shared (CollectionDb ω) (Result α)}

theorem recheckSnapshots_ensures (hcat : Catalogue W) (hQ : ∀ e t, Q (.error e) t) {a : AccessCtx}
    (snapshots : List Snapshot) {v : CollectionDb ω} (hv : Follows W v s)
    (hknown : ∀ sn ∈ snapshots, Known W a.tenantId sn.info.id s)
    (h : ∀ t, Follows W s t → (∀ sn ∈ snapshots, Current W a v t sn) →
      next.Ensures (Follows W) Eq Q t) :
    (recheckSnapshots a next snapshots).Ensures (Follows W) Eq Q s := by
  induction snapshots generalizing s with
  | nil => exact h s (.refl s) (by simp)
  | cons sn rest ih =>
    obtain ⟨hsn, hrest⟩ := List.forall_mem_cons.mp hknown
    apply collection_located (fun _ => rfl) hQ
    intro t info ht hlocated
    have hfound := hlocated.byId hsn
    have hid := hcat.byId hfound
    split_ifs with hvisible
    · exact fun u _ => hQ _ u
    simp only [not_or, not_not, Bool.not_eq_true', Bool.not_eq_false] at hvisible
    apply ensures_read fun _ => rfl
    intro u hu
    split_ifs with hpolicy
    · exact fun u _ => hQ _ u
    apply loadVocabulary_ensures (fun _ => rfl) hQ
    intro x hx
    split_ifs with hvocabulary
    · exact fun u _ => hQ _ u
    rw [not_not] at hpolicy hvocabulary
    rw [VocabularyTable.load_revision, hid] at hvocabulary
    rw [hid] at hpolicy
    have htx := (ht.trans hu).trans hx
    have hcurrent : Current W a v x sn :=
      ⟨⟨t, hv.trans ht, hu.trans hx, info, hfound, hvisible.1, hvisible.2⟩,
        ⟨u, (hv.trans ht).trans hu, hx, hpolicy⟩, ⟨x, hv.trans htx, .refl x, hvocabulary⟩⟩
    apply ih (hv.trans htx) fun sn hmem => (hrest sn hmem).later htx
    intro y hy hall
    refine h y (htx.trans hy) (List.forall_mem_cons.mpr ⟨hcurrent.later hy, hall⟩)

theorem recheckTargets_ensures (hQ : ∀ e t, Q (.error e) t) {a : AccessCtx} (targets : List Target)
    {v : CollectionDb ω} (hv : Follows W v s)
    (hknown : ∀ target ∈ targets, Known W a.tenantId target.info.id s)
    (h : ∀ t, Follows W s t → (∀ target ∈ targets, OpenTo W a v t target) →
      next.Ensures (Follows W) Eq Q t) :
    (recheckTargets a next targets).Ensures (Follows W) Eq Q s := by
  induction targets generalizing s with
  | nil => exact h s (.refl s) (by simp)
  | cons target rest ih =>
    obtain ⟨htarget, hrest⟩ := List.forall_mem_cons.mp hknown
    apply ensures_read fun _ => rfl
    intro t ht
    apply onOk_ensures hQ
    intro _ _
    apply collection_located (fun _ => rfl) hQ
    intro u info hu hlocated
    have hfound := hlocated.byId (htarget.later ht)
    split_ifs with hclosed
    · exact fun u _ => hQ _ u
    simp only [not_or, not_not, not_lt] at hclosed
    have htu := ht.trans hu
    have hopen : OpenTo W a v u target := ⟨u, hv.trans htu, .refl u, info, hfound, hclosed⟩
    apply ih (hv.trans htu) fun target hmem => (hrest target hmem).later htu
    intro x hx hall
    exact h x (htu.trans hx) (List.forall_mem_cons.mpr ⟨Between.later hopen hx, hall⟩)

/-- Past a recheck, each policy and vocabulary is still the one that the request went by, and each
index is still open to it. -/
theorem recheck_ensures (hcat : Catalogue W) (hQ : ∀ e t, Q (.error e) t) {token tenant : String}
    (snapshots : List Snapshot) (targets : List Target) (hbound : Bound W token tenant s)
    (hsnapshots : ∀ sn ∈ snapshots, Known W tenant sn.info.id s)
    (htargets : ∀ target ∈ targets, Known W tenant target.info.id s)
    (h : ∀ t a, Follows W s t → a.tenantId = tenant →
      Between W s t (fun u => access u.world token = .ok a) →
      (∀ sn ∈ snapshots, Current W a s t sn) → (∀ target ∈ targets, OpenTo W a s t target) →
      next.Ensures (Follows W) Eq Q t) :
    (recheck token snapshots targets next).Ensures (Follows W) Eq Q s := by
  apply ensures_read fun _ => rfl
  intro t ht
  apply onOk_ensures hQ
  intro a ha
  obtain rfl := hbound t.world a ht.2 ha
  apply recheckSnapshots_ensures hcat hQ snapshots ht fun sn hsn => (hsnapshots sn hsn).later ht
  intro u hu hcurrent
  apply recheckTargets_ensures hQ targets (ht.trans hu) fun target hmem =>
    (htargets target hmem).later (ht.trans hu)
  intro x hx hopen
  exact h x a ((ht.trans hu).trans hx) rfl ⟨t, ht, hu.trans hx, ha⟩
    (fun sn hsn => (hcurrent sn hsn).later hx) hopen

end Rechecks

section Reading
variable {ω α : Type} [QueryWorld ω] [CalendarText] {W : ω → ω → Prop} [IsPreorder ω W]
  {s s₀ : CollectionDb ω} {tenant : String} {on : NaiveDate}

/-- A snapshot as it was read, between two states. -/
structure SnapshotRead (W : ω → ω → Prop) (tenant : String) (s t : CollectionDb ω)
    (sn : Snapshot) : Prop where
  policy : Between W s t fun u => u.governance.load tenant sn.info.id = sn.policy
  vocabulary : Between W s t fun u =>
    VocabularyTable.revisionAt u.vocabularies tenant sn.info.id = sn.vocabularyRevision
  known : Known W tenant sn.info.id t

/-- A target of a collection: itself, or the index of a publication that governs there. -/
def Admitted (on : NaiveDate) (info : CollectionInfo) (policy : Option CollectionGovernance)
    (target : Target) : Prop :=
  target.parent = info.id ∧
    (target.publication = none ∧ policy = none ∧ target.info = info ∨
      ∃ p held, target.publication = some p ∧ policy = some held ∧ Governs held on p ∧
        target.info.accessLevel ≤ info.accessLevel)

/-- What the loop over the collections keeps to. -/
structure Gathering.Sound (W : ω → ω → Prop) (tenant : String) (on : NaiveDate)
    (s t : CollectionDb ω) (g : Gathering) : Prop where
  read : ∀ sn ∈ g.snapshots, SnapshotRead W tenant s t sn
  seen : ∀ sn ∈ g.snapshots, sn.info.id ∈ g.seen
  distinct : (g.snapshots.map fun sn => sn.info.id).Nodup
  known : ∀ target ∈ g.targets, Known W tenant target.info.id t
  admitted : ∀ target ∈ g.targets, ∃ sn ∈ g.snapshots, Admitted on sn.info sn.policy target
  pools : ∀ pool ∈ g.pools, ∀ target ∈ pool.members, target ∈ g.targets
  clear : g.review = false → ∀ sn ∈ g.snapshots, ∀ policy ∈ sn.policy, ¬ NeedsReview policy on

theorem SnapshotRead.later {t t' : CollectionDb ω} {sn : Snapshot}
    (h : SnapshotRead W tenant s t sn) (ht : Follows W t t') : SnapshotRead W tenant s t' sn :=
  ⟨h.policy.later ht, h.vocabulary.later ht, h.known.later ht⟩

theorem Gathering.Sound.later {t t' : CollectionDb ω} {g : Gathering}
    (h : g.Sound W tenant on s t) (ht : Follows W t t') : g.Sound W tenant on s t' :=
  { h with
    read := fun sn hsn => (h.read sn hsn).later ht
    known := fun target hmem => (h.known target hmem).later ht }

omit [IsPreorder ω W] in
theorem gathered_empty (s t : CollectionDb ω) : Gathering.Sound W tenant on s t {} :=
  ⟨by simp, by simp, by simp, by simp, by simp, by simp, by simp⟩

/-- What the targets of a collection are, where it does not need a review. -/
def Members (W : ω → ω → Prop) (tenant : String) (on : NaiveDate) (info : CollectionInfo)
    (policy : Option CollectionGovernance) (t : CollectionDb ω) : Option (List Target) → Prop
  | none => True
  | some members => (∀ held ∈ policy, ¬ NeedsReview held on) ∧
      ∀ target ∈ members, Known W tenant target.info.id t ∧ Admitted on info policy target

omit [IsPreorder ω W] in
theorem Gathering.Sound.add {t : CollectionDb ω} {g : Gathering} (h : g.Sound W tenant on s t)
    {question : String} {info : CollectionInfo} {policy : Option CollectionGovernance}
    {q combined : QueryPolicy} {vocabulary : Vocabulary} {members : Option (List Target)}
    (hnew : info.id ∉ g.seen)
    (hread : SnapshotRead W tenant s t ⟨info, policy, vocabulary.revision⟩)
    (hmembers : Members W tenant on info policy t members) :
    (g.add question info policy q combined vocabulary members).Sound W tenant on s t := by
  have hmem : ∀ target ∈ members.getD [],
      Known W tenant target.info.id t ∧ Admitted on info policy target := by
    intro target htarget
    cases members with
    | none => simp at htarget
    | some members => exact hmembers.2 target htarget
  constructor
  · intro sn hsn
    rcases List.mem_append.mp hsn with hsn | hsn
    · exact h.read sn hsn
    · exact List.mem_singleton.mp hsn ▸ hread
  · intro sn hsn
    rcases List.mem_append.mp hsn with hsn | hsn
    · exact List.mem_cons_of_mem _ (h.seen sn hsn)
    · exact List.mem_singleton.mp hsn ▸ List.mem_cons_self
  · simp only [Gathering.add, List.map_append, List.map_singleton]
    refine List.nodup_append.mpr ⟨h.distinct, by simp, ?_⟩
    rintro x hx y hy rfl
    obtain ⟨sn, hsn, rfl⟩ := List.mem_map.mp hx
    exact hnew (List.mem_singleton.mp hy ▸ h.seen sn hsn)
  · intro target htarget
    rcases List.mem_append.mp htarget with htarget | htarget
    · exact h.known target htarget
    · exact (hmem target htarget).1
  · intro target htarget
    rcases List.mem_append.mp htarget with htarget | htarget
    · obtain ⟨sn, hsn, hadmitted⟩ := h.admitted target htarget
      exact ⟨sn, List.mem_append_left _ hsn, hadmitted⟩
    · exact ⟨_, List.mem_append_right _ (List.mem_singleton_self _), (hmem target htarget).2⟩
  · intro pool hpool target htarget
    rcases List.mem_append.mp hpool with hpool | hpool
    · exact List.mem_append_left _ (h.pools pool hpool target htarget)
    · rw [List.mem_singleton.mp hpool] at htarget
      exact List.mem_append_right _ htarget
  · intro hreview sn hsn
    simp only [Gathering.add, Bool.or_eq_false_iff] at hreview
    rcases List.mem_append.mp hsn with hsn | hsn
    · exact h.clear hreview.1 sn hsn
    · rw [List.mem_singleton.mp hsn]
      cases members with
      | none => simp at hreview
      | some members => exact hmembers.1

variable {Q : Result α → CollectionDb ω → Prop}

theorem bindTargets_ensures (hcat : Catalogue W) (hQ : ∀ e t, Q (.error e) t) {a : AccessCtx}
    {info : CollectionInfo} {next : List Target → Shared (CollectionDb ω) (Result α)}
    {policy : CollectionGovernance} (publications : List CollectionPublication)
    (hgoverns : ∀ p ∈ publications, Governs policy on p) (members : List Target)
    (hmembers : ∀ target ∈ members,
      Known W a.tenantId target.info.id s ∧ Admitted on info (some policy) target)
    (h : ∀ t members, Follows W s t → (∀ target ∈ members,
      Known W a.tenantId target.info.id t ∧ Admitted on info (some policy) target) →
      (next members).Ensures (Follows W) Eq Q t) :
    (bindTargets a info next members publications).Ensures (Follows W) Eq Q s := by
  induction publications generalizing members s with
  | nil => exact h s members (.refl s) hmembers
  | cons p rest ih =>
    obtain ⟨hp, hrest⟩ := List.forall_mem_cons.mp hgoverns
    apply collection_located (fun _ => rfl) hQ
    intro t member ht hlocated
    split_ifs with hclosed
    · exact fun u _ => hQ _ u
    simp only [not_or, not_lt] at hclosed
    apply ih hrest
    · intro target htarget
      rcases List.mem_append.mp htarget with htarget | htarget
      · exact ⟨(hmembers target htarget).1.later ht, (hmembers target htarget).2⟩
      · rw [List.mem_singleton.mp htarget]
        exact ⟨hlocated.known hcat, rfl, .inr ⟨p, policy, rfl, rfl, hp, hclosed.2.1⟩⟩
    · exact fun u members hu => h u members (ht.trans hu)

theorem targetsOf_ensures (hcat : Catalogue W) (hQ : ∀ e t, Q (.error e) t) {a : AccessCtx}
    {info : CollectionInfo} {next : Option (List Target) → Shared (CollectionDb ω) (Result α)}
    {policy : Option CollectionGovernance} (hvalid : ∀ held ∈ policy, WellFormed held)
    (hknown : Known W a.tenantId info.id s)
    (h : ∀ t members, Follows W s t → Members W a.tenantId on info policy t members →
      (next members).Ensures (Follows W) Eq Q t) :
    (targetsOf a on info next policy).Ensures (Follows W) Eq Q s := by
  cases policy with
  | none =>
    apply h s _ (.refl s)
    refine ⟨by simp, fun target htarget => ?_⟩
    rw [List.mem_singleton.mp htarget]
    exact ⟨hknown, rfl, .inl ⟨rfl, rfl, rfl⟩⟩
  | some held =>
    apply onOk_ensures hQ
    intro governing hgoverning
    rcases (hvalid held rfl).governing on with ⟨hnone, -⟩ | ⟨ps, hps, hgoverns⟩
    · obtain rfl := Except.ok.inj (hnone.symm.trans hgoverning)
      exact h s none (.refl s) trivial
    · obtain rfl := Except.ok.inj (hps.symm.trans hgoverning)
      apply bindTargets_ensures hcat hQ ps (fun p hp => (hgoverns.mem p).mp hp) [] (by simp)
      intro t members ht hmembers
      refine h t (some members) ht ⟨?_, hmembers⟩
      rintro _ ⟨⟩
      exact hgoverns.clear

theorem gatherCollection_ensures (hcat : Catalogue W) (hQ : ∀ e t, Q (.error e) t)
    (hs₀ : s₀.Sound) (hs : Follows W s₀ s) {a : AccessCtx} {today : NaiveDate}
    {question name : String} {next : Gathering → Shared (CollectionDb ω) (Result α)} {g : Gathering}
    (hg : g.Sound W a.tenantId on s₀ s)
    (h : ∀ t g, Follows W s t → g.Sound W a.tenantId on s₀ t →
      (next g).Ensures (Follows W) Eq Q t) :
    (gatherCollection a today on question next g name).Ensures (Follows W) Eq Q s := by
  apply collection_located (fun _ => rfl) hQ
  intro t info ht hlocated
  have hknown := hlocated.known hcat
  split_ifs with hvisible hseen
  · exact fun u _ => hQ _ u
  · exact h t g ht (hg.later ht)
  apply ensures_read fun _ => rfl
  intro u hu
  extract_lets q
  split_ifs
  · exact fun v _ => hQ _ v
  · exact fun v _ => hQ _ v
  apply onOk_ensures hQ
  intro combined _
  apply loadVocabulary_ensures (fun _ => rfl) hQ
  intro v hv
  have hsu : Follows W s₀ u := (hs.trans ht).trans hu
  apply targetsOf_ensures hcat hQ
  · intro held hheld
    exact ((hsu.sound hs₀).governance.load_valid hheld).1
  · exact hknown.later (hu.trans hv)
  intro x members hx hmembers
  have htx : Follows W t x := (hu.trans hv).trans hx
  apply h x _ (ht.trans htx)
  apply (hg.later (ht.trans htx)).add (by simpa using hseen) ?_ hmembers
  refine ⟨⟨u, hsu, hv.trans hx, rfl⟩, ⟨v, hsu.trans hv, hx, ?_⟩, hknown.later htx⟩
  exact (VocabularyTable.load_revision _ _ _ _).symm

/-- The collections of a request are read one after the other. -/
theorem gather_ensures (hcat : Catalogue W) (hQ : ∀ e t, Q (.error e) t) (hs₀ : s₀.Sound)
    (hs : Follows W s₀ s) {a : AccessCtx} {today : NaiveDate} {question : String}
    {next : Gathering → Shared (CollectionDb ω) (Result α)} (names : List String) {g : Gathering}
    (hg : g.Sound W a.tenantId on s₀ s)
    (h : ∀ t g, Follows W s t → g.Sound W a.tenantId on s₀ t →
      (next g).Ensures (Follows W) Eq Q t) :
    (gather a today on question next g names).Ensures (Follows W) Eq Q s := by
  induction names generalizing g s with
  | nil => exact h s g (.refl s) hg
  | cons name rest ih =>
    apply gatherCollection_ensures hcat hQ hs₀ hs hg
    intro t g ht hg
    exact ih (hs.trans ht) hg fun u g hu => h u g (ht.trans hu)

end Reading

section Amendments
variable [CalendarText] {policy : CollectionGovernance} {on : NaiveDate}

/-- A relation in force says that the document does not stand alone. -/
def Amended (policy : CollectionGovernance) (on : NaiveDate) (document : String) : Prop :=
  ∃ r, Relates policy on r ∧ r.kind ∈ ["amends", "applies-to", "exception-to"] ∧
    (r.fromDocument = document ∨ r.toDocument = document)

theorem CollectionGovernance.InForce.active {start : String} {ends : Option String}
    (h : InForce start ends on) :
    active start ends on = .ok true := by
  obtain ⟨⟨d, hd, -⟩, hends⟩ := id h
  have hdates : ∀ s ∈ ends, ∃ e, date s = .ok e := fun s hs => (hends s hs).imp fun _ => And.left
  obtain ⟨b, hb, hiff⟩ := active_of_dates ⟨d, hd⟩ hdates
  rw [hb, hiff.mpr h]

theorem needsAmendmentReview_ok {documents : List String} {b : Bool}
    (h : needsAmendmentReview policy on documents = .ok b) {document : String}
    (hmem : document ∈ documents) (hamended : Amended policy on document) : b = true := by
  obtain ⟨r, ⟨hr, hforce⟩, hkind, htouches⟩ := hamended
  unfold needsAmendmentReview at h
  generalize policy.relations = relations at hr h
  induction relations with
  | nil => cases hr
  | cons r' rest ih =>
    have hcontains : (documents.contains r.fromDocument || documents.contains r.toDocument) =
        true := by
      rcases htouches with rfl | rfl
      · simp [hmem]
      · simp [hmem]
    by_cases heq : r = r'
    · subst heq
      rw [needsAmendmentReview.amendmentIn, if_pos (by simpa using hkind), hforce.active] at h
      simp only [Bind.bind, Except.bind, pure, Except.pure, hcontains, if_true] at h
      exact (Except.ok.inj h).symm
    · have hrest := ih (List.mem_of_ne_of_mem heq hr)
      rw [needsAmendmentReview.amendmentIn] at h
      split_ifs at h
      · obtain ⟨holds, -, h⟩ := bind_eq_ok.mp h
        cases holds with
        | true => exact (Except.ok.inj h).symm
        | false => exact hrest h
      · obtain ⟨holds, -, h⟩ := bind_eq_ok.mp h
        cases holds with
        | true => exact hrest h
        | false => exact hrest h
      · exact hrest h

theorem amendmentReview_ok {documents : SortedMap String (List String)} {review b : Bool}
    {snapshots : List Snapshot} (h : amendmentReview on documents review snapshots = .ok b) :
    (review = true → b = true) ∧ ∀ sn ∈ snapshots, ∀ policy ∈ sn.policy, ∀ ds,
      documents.get? sn.info.id = some ds → ∀ d ∈ ds, Amended policy on d → b = true := by
  induction snapshots generalizing review with
  | nil =>
    cases h
    exact ⟨id, by simp⟩
  | cons sn rest ih =>
    unfold amendmentReview at h
    split at h
    · rename_i policy ds hpolicy hds
      obtain ⟨found, hfound, h⟩ := bind_eq_ok.mp h
      obtain ⟨hkept, hrest⟩ := ih h
      refine ⟨fun hreview => hkept (by simp [hreview]), List.forall_mem_cons.mpr ⟨?_, hrest⟩⟩
      intro policy' hpolicy' ds' hds' d hd hamended
      obtain rfl := Option.some.inj (hpolicy.symm.trans hpolicy')
      obtain rfl := Option.some.inj (hds.symm.trans hds')
      apply hkept
      rw [needsAmendmentReview_ok hfound hd hamended, Bool.or_true]
    · rename_i hnone
      obtain ⟨hkept, hrest⟩ := ih h
      refine ⟨hkept, List.forall_mem_cons.mpr ⟨?_, hrest⟩⟩
      intro policy hpolicy ds hds
      exact absurd hds (hnone policy ds hpolicy)

end Amendments

theorem revisionsOf_get? {revision : Snapshot → ℤ} {snapshots : List Snapshot}
    (hdistinct : (snapshots.map fun sn => sn.info.id).Nodup) {id : String} {n : ℤ} :
    (revisionsOf revision snapshots).get? id = some n ↔
      ∃ sn ∈ snapshots, sn.info.id = id ∧ revision sn = n := by
  have hstep : ∀ (m : SortedMap String ℤ) (sn : Snapshot) (k : String),
      (m.insert sn.info.id (revision sn)).get? k =
        if (k == sn.info.id) = true then some (revision sn) else m.get? k := by
    intro m sn k
    rw [SortedMap.get?_insert]
    simp
  unfold revisionsOf
  rw [SortedMap.get?_foldl_last hstep]
  cases hfind : snapshots.reverse.find? fun sn => id == sn.info.id with
  | none =>
    constructor
    · intro h
      cases h
    · rintro ⟨sn, hsn, rfl, -⟩
      simpa using List.find?_eq_none.mp hfind sn (List.mem_reverse.mpr hsn)
  | some sn =>
    have hid : id = sn.info.id := by simpa using List.find?_some hfind
    have hsn : sn ∈ snapshots := List.mem_reverse.mp (List.mem_of_find?_eq_some hfind)
    constructor
    · intro h
      exact ⟨sn, hsn, hid.symm, Option.some.inj h⟩
    · rintro ⟨sn', hsn', hid', rfl⟩
      obtain rfl : sn' = sn := List.inj_on_of_nodup_map hdistinct hsn' hsn (hid'.trans hid)
      rfl

section Composition
variable {policy : QueryPolicy} {results : List Found} {sel : Selection} {review : Bool}

/-- What an answer over a selection is. -/
def AnswersFrom (sel : Selection) (review : Bool) (answer : AnswerResponse) : Prop :=
  (sel.sources = [] ∧ answer = noAnswer (if review then "review" else "insufficient")) ∨
    Supported sel.sources sel.references review answer.content answer.references

theorem Selection.Within.id_inj (h : sel.Within policy results) {s s' : AnswerSource}
    (hs : s ∈ sel.sources) (hs' : s' ∈ sel.sources) (hid : s.id = s'.id) : s = s' := by
  obtain ⟨i, hi⟩ := List.mem_iff_getElem?.mp hs
  obtain ⟨j, hj⟩ := List.mem_iff_getElem?.mp hs'
  rw [h.numbered i s hi, h.numbered j s' hj] at hid
  obtain rfl : i = j := by simpa using numberedId_injective hid
  exact Option.some.inj (hi.symm.trans hj)

/-- Every reference of an answer is to a hit that was selected. -/
theorem AnswersFrom.reference {answer : AnswerResponse} (h : AnswersFrom sel review answer)
    (hsel : sel.Within policy results) {r : SourceReference} (hr : r ∈ answer.references) :
    ∃ found ∈ results, ∃ hit ∈ found.2.hits, r = referenceTo found r.id hit ∧
      (∀ p ∈ found.1.publication, ∃ ds, sel.documents.get? found.1.parent = some ds ∧
        p.documentId ∈ ds) ∧
      (review = true → answer.content.status = "review") ∧
      ∀ c ∈ answer.content.citations, c.id = r.id → c.quote.toList <:+: hit.text.toList := by
  rcases h with ⟨-, rfl⟩ | h
  · cases hr
  obtain ⟨c, hc, hget⟩ := h.cited r hr
  obtain ⟨s, hs, hid⟩ := hsel.known _ _ hget
  obtain ⟨found, hfound, hit, hhit, hsource, href, hdocs⟩ := hsel.taken s hs
  rw [← hid, href] at hget
  obtain rfl := Option.some.inj hget
  refine ⟨found, hfound, hit, hhit, rfl, hdocs, h.review, fun c' hc' hid' => ?_⟩
  obtain ⟨-, s', hs', hsid, hquote⟩ := h.quoted c' hc'
  obtain rfl := hsel.id_inj hs' hs (hsid.trans hid')
  rw [hsource] at hquote
  exact hquote

theorem AnswersFrom.cited {answer : AnswerResponse} (h : AnswersFrom sel review answer)
    (hsel : sel.Within policy results) {c : AnswerCitation}
    (hc : c ∈ answer.content.citations) : ∃ r ∈ answer.references, r.id = c.id := by
  rcases h with ⟨-, rfl⟩ | h
  · cases hc
  obtain ⟨r, hr, hget⟩ := h.referred c hc
  obtain ⟨s, hs, hid⟩ := hsel.known _ _ hget
  obtain ⟨found, -, hit, -, -, href, -⟩ := hsel.taken s hs
  rw [← hid, href] at hget
  exact ⟨r, hr, by rw [← Option.some.inj hget]; exact hid⟩

/-- Without passages there is nothing to refer to, and a review is asked for where it is due. -/
theorem AnswersFrom.empty {answer : AnswerResponse} (h : AnswersFrom sel true answer)
    (hsel : sel.Within policy []) :
    answer.content.status = "review" ∧ answer.references = [] := by
  have hnone : ∀ s, s ∉ sel.sources := by
    intro s hs
    obtain ⟨found, hfound, -⟩ := hsel.taken s hs
    cases hfound
  rcases h with ⟨-, rfl⟩ | h
  · exact ⟨rfl, rfl⟩
  · refine ⟨h.review rfl, List.eq_nil_iff_forall_not_mem.mpr fun r hr => ?_⟩
    obtain ⟨c, -, hget⟩ := h.cited r hr
    obtain ⟨s, hs, -⟩ := hsel.known _ _ hget
    exact hnone s hs

end Composition

section Answering
variable {ω α : Type} [QueryWorld ω] [CalendarText] {W : ω → ω → Prop} [IsPreorder ω W]
  {s s₀ : CollectionDb ω} {tenant : String} {on : NaiveDate}

/-- What a worker has made of a search, between two states. -/
def Retrieved (W : ω → ω → Prop) (tenant : String) (targets : List Target)
    (s t : CollectionDb ω) (found : Found) : Prop :=
  ∃ target ∈ targets, ∃ prepared result domain,
    settleSearch target result domain = .ok found ∧ Between W s t fun u =>
      searchMeasured u.world tenant target.info.id prepared
        (target.publication.map CollectionPublication.indexVersion) = .ok (result, domain)

theorem Retrieved.later {targets : List Target} {t t' : CollectionDb ω} {found : Found}
    (h : Retrieved W tenant targets s t found) (ht : Follows W t t') :
    Retrieved W tenant targets s t' found := by
  obtain ⟨target, hmem, prepared, result, domain, hsettled, hsearch⟩ := h
  exact ⟨target, hmem, prepared, result, domain, hsettled, hsearch.later ht⟩

section Searches
variable {Q : Result α → CollectionDb ω → Prop}
  {next : List Found → Shared (CollectionDb ω) (Result α)}

theorem searchEach_ensures (hQ : ∀ e t, Q (.error e) t) (hs : Follows W s₀ s)
    {prepared : PreparedQuery} {targets : List Target} (batch : List Target)
    (hbatch : ∀ target ∈ batch, target ∈ targets) {results : List Found}
    (hresults : ∀ found ∈ results, Retrieved W tenant targets s₀ s found)
    (h : ∀ t results, Follows W s t →
      (∀ found ∈ results, Retrieved W tenant targets s₀ t found) →
      (next results).Ensures (Follows W) Eq Q t) :
    (searchEach tenant prepared next results batch).Ensures (Follows W) Eq Q s := by
  induction batch generalizing results s with
  | nil => exact h s results (.refl s) hresults
  | cons target rest ih =>
    obtain ⟨htarget, hrest⟩ := List.forall_mem_cons.mp hbatch
    apply ensures_read fun _ => rfl
    intro t ht
    apply onOk_ensures hQ
    rintro ⟨result, domain⟩ hsearch
    apply onOk_ensures hQ
    intro found hsettled
    apply ih (hs.trans ht) hrest
    · intro f hf
      rcases List.mem_append.mp hf with hf | hf
      · exact (hresults f hf).later ht
      · rw [List.mem_singleton.mp hf]
        exact ⟨target, htarget, prepared, result, domain, hsettled, t, hs.trans ht, .refl t,
          hsearch⟩
    · exact fun u results hu => h u results (ht.trans hu)

theorem searchBatches_ensures (hcat : Catalogue W) (hQ : ∀ e t, Q (.error e) t)
    (hs : Follows W s₀ s) {token : String} {completions : List Target → List Target}
    (hcompletions : ∀ batch, (completions batch).Perm batch) {g : Gathering}
    (hg : g.Sound W tenant on s₀ s) (hbound : Bound W token tenant s)
    (bs : List (PreparedQuery × List Target)) (hbs : ∀ b ∈ bs, ∀ target ∈ b.2, target ∈ g.targets)
    {results : List Found}
    (hresults : ∀ found ∈ results, Retrieved W tenant g.targets s₀ s found)
    (h : ∀ t results, Follows W s t →
      (∀ found ∈ results, Retrieved W tenant g.targets s₀ t found) →
      (next results).Ensures (Follows W) Eq Q t) :
    (searchBatches token tenant g.snapshots completions next results bs).Ensures
      (Follows W) Eq Q s := by
  induction bs generalizing results s with
  | nil => exact h s results (.refl s) hresults
  | cons b rest ih =>
    obtain ⟨hb, hrest⟩ := List.forall_mem_cons.mp hbs
    apply recheck_ensures hcat hQ g.snapshots [] hbound (fun sn hsn => (hg.read sn hsn).known)
      (by simp)
    intro t a ht _ _ _ _
    apply searchEach_ensures hQ (hs.trans ht) (completions b.2)
      (fun target hmem => hb target ((hcompletions b.2).mem_iff.mp hmem))
      fun found hf => (hresults found hf).later ht
    intro u results hu hresults
    have htu := ht.trans hu
    exact ih (hs.trans htu) (hg.later htu) (hbound.later htu) hrest hresults
      fun v results hv => h v results (htu.trans hv)

end Searches

/-- What a reference rests on, under the policies of one moment: an ungoverned collection, or a
publication that governs on the date; an amended document has the answer reviewed. -/
def RestsOn (tenant : String) (on : NaiveDate) (m : CollectionDb ω)
    (response : CollectionQueryResponse) (r : SourceReference) : Prop :=
  ∃ parent,
    (m.governance.load tenant parent = none ∧
      response.governanceRevisions.get? parent = some 0 ∧ r.collectionId = parent) ∨
    ∃ policy p, m.governance.load tenant parent = some policy ∧
      response.governanceRevisions.get? parent = some policy.revision ∧ Governs policy on p ∧
      r.indexVersion = p.indexVersion ∧ r.sourceId = p.sourceId ∧
      r.sourceContentHash = p.sourceContentHash ∧
      (Amended policy on p.documentId → response.answer.content.status = "review")

/-- A reference is to a hit of a search, and what is cited under it stands in the text of it. -/
def Quoted (W : ω → ω → Prop) (tenant : String) (s m : CollectionDb ω) (content : AnswerContent)
    (r : SourceReference) : Prop :=
  ∃ (prepared : PreparedQuery) (pin : Option String) (result : SearchResult) (domain : String)
    (hit : SearchHit),
    Between W s m (fun u =>
      searchMeasured u.world tenant r.collectionId prepared pin = .ok (result, domain)) ∧
    hit ∈ result.hits ∧ result.indexVersion = r.indexVersion ∧ hit.sourceId = r.sourceId ∧
    hit.sourcePath = r.sourcePath ∧ hit.sourceContentHash = r.sourceContentHash ∧
    hit.chunkId = r.chunkId ∧
    ∀ c ∈ content.citations, c.id = r.id → c.quote.toList <:+: hit.text.toList

/-- What a response says held at one moment `m` of the request, all of it at once. -/
structure Simultaneous (W : ω → ω → Prop) (a : AccessCtx) (on : NaiveDate)
    (s m t : CollectionDb ω) (response : CollectionQueryResponse) : Prop where
  governance : ∀ id n, response.governanceRevisions.get? id = some n →
    m.governance.revision a.tenantId id = n
  vocabulary : ∀ id n, response.vocabularyRevisions.get? id = some n →
    VocabularyTable.revisionAt m.vocabularies a.tenantId id = n
  visible : ∀ id n, response.governanceRevisions.get? id = some n → Between W m t fun u =>
    ∃ info, collectionById u.world a.tenantId id = .ok info ∧ info.status = "active" ∧
      a.permits info.accessLevel info.compartments = true
  reviewed : ∀ id n policy, response.governanceRevisions.get? id = some n →
    m.governance.load a.tenantId id = some policy → NeedsReview policy on →
      response.answer.content.status = "review" ∧ response.answer.references = []
  rests : ∀ r ∈ response.answer.references, RestsOn a.tenantId on m response r
  quoted : ∀ r ∈ response.answer.references,
    Quoted W a.tenantId s m response.answer.content r
  opened : ∀ r ∈ response.answer.references, Between W m t fun u =>
    ∃ info, collectionById u.world a.tenantId r.collectionId = .ok info ∧
      info.status = "active" ∧ info.accessLevel ≤ a.level.toInt
  cited : ∀ c ∈ response.answer.content.citations, ∃ r ∈ response.answer.references, r.id = c.id

/-- Read before `m` and unchanged after it: at `m` the snapshot is the table. -/
theorem SnapshotRead.held {a : AccessCtx} {m t : CollectionDb ω} {sn : Snapshot}
    (hs : s.Sound) (h : SnapshotRead W a.tenantId s m sn) (hcurrent : Current W a m t sn) :
    m.governance.load a.tenantId sn.info.id = sn.policy ∧
      m.governance.revision a.tenantId sn.info.id = policyRevision sn.policy ∧
      VocabularyTable.revisionAt m.vocabularies a.tenantId sn.info.id = sn.vocabularyRevision := by
  obtain ⟨u, hu, hum, hload⟩ := h.policy
  obtain ⟨v, hmv, -, hrevision⟩ := hcurrent.policy
  have hread : u.governance.revision a.tenantId sn.info.id = policyRevision sn.policy := by
    rw [GovernanceTable.revision, hload]
    rfl
  have hm := (hu.trans hum).sound hs
  obtain ⟨hversion, hsame⟩ := (versioned_governance a.tenantId sn.info.id).between (hu.sound hs) hm
    hum hmv (hrevision.trans hread.symm)
  obtain ⟨x, hx, hxm, hvocabulary⟩ := h.vocabulary
  obtain ⟨y, hmy, -, hagain⟩ := hcurrent.vocabulary
  obtain ⟨hkept, -⟩ := (versioned_vocabulary a.tenantId sn.info.id).between (hx.sound hs) hm
    hxm hmy (hagain.trans hvocabulary.symm)
  exact ⟨hsame.trans hload, hversion.trans hread, hkept.trans hvocabulary⟩

/-- What is read before `m`, searched and answered by then, and found unchanged after it. -/
theorem simultaneous {a : AccessCtx} {m t : CollectionDb ω} {g : Gathering} {policy : QueryPolicy}
    {results : List Found} {sel : Selection} {review : Bool} {answer : AnswerResponse}
    (hs : s.Sound) (hg : g.Sound W a.tenantId on s m)
    (hretrieved : ∀ found ∈ results, Retrieved W a.tenantId g.targets s m found)
    (hnone : g.review = true → results = []) (hsel : selectPassages policy results = .ok sel)
    (hreview : amendmentReview on sel.documents g.review g.snapshots = .ok review)
    (hanswer : AnswersFrom sel review answer) (hcurrent : ∀ sn ∈ g.snapshots, Current W a m t sn)
    (hopen : ∀ target ∈ g.targets, OpenTo W a m t target) :
    Simultaneous W a on s m t
      { answer := answer
        governanceRevisions := revisionsOf (fun s => policyRevision s.policy) g.snapshots
        vocabularyRevisions := revisionsOf Snapshot.vocabularyRevision g.snapshots
        effectiveOn := on } := by
  have hheld := fun sn hsn => (hg.read sn hsn).held hs (hcurrent sn hsn)
  have hwithin := selectPassages_ok hsel
  obtain ⟨hkept, hamended⟩ := amendmentReview_ok hreview
  have hperm : (StableSort.sortByKey orderKey results).Perm results := StableSort.sortBy_perm _ _
  constructor
  · intro id n hget
    obtain ⟨sn, hsn, rfl, rfl⟩ := (revisionsOf_get? hg.distinct).mp hget
    exact (hheld sn hsn).2.1
  · intro id n hget
    obtain ⟨sn, hsn, rfl, rfl⟩ := (revisionsOf_get? hg.distinct).mp hget
    exact (hheld sn hsn).2.2
  · intro id n hget
    obtain ⟨sn, hsn, rfl, -⟩ := (revisionsOf_get? hg.distinct).mp hget
    exact (hcurrent sn hsn).visible
  · intro id n policy hget hload hneeds
    obtain ⟨sn, hsn, rfl, -⟩ := (revisionsOf_get? hg.distinct).mp hget
    have hreviewed : g.review = true := by
      by_contra hfalse
      rw [Bool.not_eq_true] at hfalse
      exact hg.clear hfalse sn hsn policy ((hheld sn hsn).1.symm.trans hload) hneeds
    rw [hnone hreviewed] at hwithin
    exact AnswersFrom.empty (hkept hreviewed ▸ hanswer) hwithin
  · intro r hr
    obtain ⟨found, hfound, hit, hhit, href, hdocs, hstatus, -⟩ := hanswer.reference hwithin hr
    obtain ⟨target, htarget, -, result, domain, hsettled, -⟩ :=
      hretrieved found (hperm.mem_iff.mp hfound)
    obtain ⟨hinfo, hparent, hpublication, hversion, -, hpin⟩ := settleSearch_ok hsettled
    obtain ⟨sn, hsn, hparent', hrole⟩ := hg.admitted target htarget
    have hreported : (revisionsOf (fun s => policyRevision s.policy) g.snapshots).get? sn.info.id =
        some (policyRevision sn.policy) := (revisionsOf_get? hg.distinct).mpr ⟨sn, hsn, rfl, rfl⟩
    refine ⟨sn.info.id, ?_⟩
    rcases hrole with ⟨-, hnopolicy, hself⟩ | ⟨p, held, hp, hpolicy, hgoverns, -⟩
    · left
      refine ⟨(hheld sn hsn).1.trans hnopolicy, by rw [hreported, hnopolicy]; rfl, ?_⟩
      rw [href]
      exact congrArg CollectionInfo.id (hinfo.trans hself)
    · right
      obtain ⟨hresult, hhits⟩ := hpin p hp
      obtain ⟨hsource, hhash⟩ := hhits hit hhit
      refine ⟨held, p, (hheld sn hsn).1.trans hpolicy, by rw [hreported, hpolicy]; rfl, hgoverns,
        ?_, ?_, ?_, fun ham => ?_⟩
      · rw [href]
        exact hversion.trans hresult
      · rw [href]
        exact hsource
      · rw [href]
        exact hhash
      · obtain ⟨ds, hds, hmem⟩ := hdocs p (hpublication.trans hp)
        rw [hparent, hparent'] at hds
        exact hstatus (hamended sn hsn held hpolicy ds hds _ hmem ham)
  · intro r hr
    obtain ⟨found, hfound, hit, hhit, href, -, -, hquotes⟩ := hanswer.reference hwithin hr
    obtain ⟨target, -, prepared, result, domain, hsettled, hsearch⟩ :=
      hretrieved found (hperm.mem_iff.mp hfound)
    obtain ⟨hinfo, -, -, hversion, hsub, -⟩ := settleSearch_ok hsettled
    refine ⟨prepared, target.publication.map CollectionPublication.indexVersion, result, domain,
      hit, ?_, hsub hit hhit, ?_, ?_, ?_, ?_, ?_, hquotes⟩
    · rw [href, show (referenceTo found r.id hit).collectionId = target.info.id from
        congrArg CollectionInfo.id hinfo]
      exact hsearch
    · rw [href]
      exact hversion.symm
    all_goals
      rw [href]
      rfl
  · intro r hr
    obtain ⟨found, hfound, hit, -, href, -⟩ := hanswer.reference hwithin hr
    obtain ⟨target, htarget, -, result, domain, hsettled, -⟩ :=
      hretrieved found (hperm.mem_iff.mp hfound)
    obtain ⟨hinfo, -⟩ := settleSearch_ok hsettled
    obtain ⟨u, hmu, hut, info, hid, hactive, hlevel, -⟩ := hopen target htarget
    refine ⟨u, hmu, hut, info, ?_, hactive, hlevel⟩
    rw [href, show (referenceTo found r.id hit).collectionId = target.info.id from
      congrArg CollectionInfo.id hinfo]
    exact hid
  · intro c hc
    exact hanswer.cited hwithin hc

section Requests
variable [AnswerText]

/-- A response that was released: what it says held at one moment, before which the request had
read and answered everything, and after which its capability still saw the collections. -/
def ReleasedAt (W : ω → ω → Prop) (token : String) (req : CollectionQuery) (s : CollectionDb ω)
    (answer : Result CollectionQueryResponse) (t : CollectionDb ω) : Prop :=
  ∀ response, answer = .ok response → ∃ m a today, Follows W s m ∧ Follows W m t ∧
    Between W m t (fun u => access u.world token = .ok a) ∧
    Between W s m (fun u => QueryWorld.today u.world = today) ∧
    effectiveDate today req.effectiveOn = .ok response.effectiveOn ∧
    response.effectiveOn ≤ today ∧ Simultaneous W a response.effectiveOn s m t response

omit [AnswerText] [IsPreorder ω W] in
theorem releasedAt_error {token : String} {req : CollectionQuery} (e : KernelError)
    (t : CollectionDb ω) : ReleasedAt W token req s (.error e) t :=
  fun _ h => by cases h

omit [IsPreorder ω W] in
theorem answerSelection_ensures (tenant question : String) (sel : Selection) (policy : QueryPolicy)
    (review : Bool) : (answerSelection tenant question sel policy review).Ensures (Follows W) Eq
      (fun answer _ => ∀ response, answer = .ok response → AnswersFrom sel review response) s := by
  by_cases hempty : sel.sources.isEmpty = true
  · rw [answerSelection, if_pos hempty]
    rintro t - response hresponse
    exact .inl ⟨List.isEmpty_iff.mp hempty, (Except.ok.inj hresponse).symm⟩
  · rw [answerSelection, if_neg hempty]
    have hmoves : ∀ s t : CollectionDb ω, Follows W s t → s.Moves t := fun _ _ => And.left
    refine ((composeVerified_ensures s tenant _ sel.references (some policy) review).rely
      hmoves).weaken (fun _ _ h => h) ?_
    intro answer t hcomposed response hresponse
    obtain ⟨m, prompt, reply, -, -, -, -, hsettled⟩ := hcomposed response hresponse
    exact .inr (settleReply_supported hsettled)

theorem answerFound_ensures (hcat : Catalogue W) (hs : s.Sound) (token question : String)
    (req : CollectionQuery) (a : AccessCtx) {today : NaiveDate} {v : CollectionDb ω}
    (hv : Follows W s v) (hbound : Bound W token a.tenantId v)
    (htoday : Between W s v fun u => QueryWorld.today u.world = today) (hle : on ≤ today)
    (hon : effectiveDate today req.effectiveOn = .ok on) {g : Gathering}
    (hg : g.Sound W a.tenantId on s v) {policy : QueryPolicy} {results : List Found}
    (hretrieved : ∀ found ∈ results, Retrieved W a.tenantId g.targets s v found)
    (hnone : g.review = true → results = []) :
    (answerFound token a.tenantId question on g policy results).Ensures (Follows W) Eq
      (ReleasedAt W token req s) v := by
  have hQ : ∀ e t, ReleasedAt W token req s (.error e) t := releasedAt_error
  have hknown := fun (x : CollectionDb ω) (hx : Follows W v x) sn hsn =>
    ((hg.later hx).read sn hsn).known
  have htargets := fun (x : CollectionDb ω) (hx : Follows W v x) => (hg.later hx).known
  apply onOk_ensures hQ
  intro sel hsel
  apply onOk_ensures hQ
  intro review hreview
  apply recheck_ensures hcat hQ g.snapshots g.targets hbound (hknown v (.refl v))
    (htargets v (.refl v))
  intro w _ hw _ _ _ _
  apply Ensures.bind Follows.refl
  have hstays : ∀ x y : CollectionDb ω, x = y → Follows W x y := by
    rintro x _ rfl
    exact .refl x
  have hanswered := (answerSelection_ensures (W := W) (s := w) a.tenantId question sel policy
    review).kept (I := Follows W w) (fun _ _ hx hxy => hx.trans hxy) hstays (.refl w)
  refine hanswered.weaken (fun _ _ h => h) ?_
  rintro answer m ⟨hanswer, hwm⟩
  apply onOk_ensures hQ
  rintro response rfl
  have hvm := hw.trans hwm
  apply recheck_ensures hcat hQ g.snapshots g.targets (hbound.later hvm) (hknown m hvm)
    (htargets m hvm)
  intro x current hmx htenant haccess hcurrent hopen t ht answer hanswered
  obtain rfl := Except.ok.inj hanswered
  rw [← htenant] at hg hretrieved
  refine ⟨m, current, today, hv.trans hvm, hmx.trans ht, haccess.later ht, htoday.later hvm, hon,
    hle, simultaneous hs (hg.later hvm) (fun found hf => (hretrieved found hf).later hvm) hnone
      hsel hreview (hanswer response rfl) (fun sn hsn => (hcurrent sn hsn).later ht)
      fun target htarget => Between.later (hopen target htarget) ht⟩

/-- A released response is one snapshot: policies and vocabularies at the revisions it reports
were in force together, and every reference rests on a publication that governed then. -/
theorem queryCollections_ensures (hcat : Catalogue W) (hs : s.Sound) (token : String)
    (req : CollectionQuery) {completions : List Target → List Target}
    (hcompletions : ∀ batch, (completions batch).Perm batch) :
    (queryCollections token req completions).Ensures (Follows W) Eq
      (ReleasedAt W token req s) s := by
  have hQ : ∀ e t, ReleasedAt W token req s (.error e) t := releasedAt_error
  apply ensures_read fun _ => rfl
  intro t ht
  apply onOk_ensures hQ
  intro a ha
  apply ensures_read fun _ => rfl
  intro u hu
  apply onOk_ensures hQ
  intro on hon
  apply ensures_ite
  · exact fun _ v _ => hQ _ v
  intro hinvalid
  have htoday : on ≤ QueryWorld.today u.world := by
    simp only [CollectionQuery.invalid, Bool.or_eq_true, not_or, decide_eq_true_eq, not_lt]
      at hinvalid
    exact hinvalid.2
  have hbound : Bound W token a.tenantId t := fun _ _ hw ha' => hcat.tenant hw ha ha'
  apply gather_ensures hcat hQ hs (ht.trans hu) req.collections (gathered_empty s u)
  intro v g hv hg
  have hsv := (ht.trans hu).trans hv
  split
  · exact fun x _ => hQ _ x
  rename_i policy _
  have hbatches : ∀ b ∈ (if g.review then [] else batches policy g.pools),
      ∀ target ∈ b.2, target ∈ g.targets := by
    intro b hb target htarget
    split_ifs at hb
    · cases hb
    obtain ⟨pool, hpool, hmem⟩ := List.mem_flatMap.mp hb
    obtain ⟨batch, hbatch, rfl⟩ := List.mem_map.mp hmem
    obtain ⟨i, -, rfl⟩ := List.mem_map.mp hbatch
    exact hg.pools pool hpool target (List.mem_of_mem_drop (List.mem_of_mem_take htarget))
  have htoday' : Between W s v fun x => QueryWorld.today x.world = QueryWorld.today u.world :=
    ⟨u, ht.trans hu, hv, rfl⟩
  by_cases hreview : g.review = true
  · rw [if_pos hreview, searchBatches]
    generalize hnothing : ([] : List Found) = results
    exact answerFound_ensures hcat hs token req.question req a hsv (hbound.later (hu.trans hv))
      htoday' htoday hon hg (by simp [← hnothing]) fun _ => hnothing.symm
  · apply searchBatches_ensures hcat hQ hsv hcompletions hg (hbound.later (hu.trans hv)) _ hbatches
      (by simp)
    intro x results hx hretrieved
    exact answerFound_ensures hcat hs token req.question req a (hsv.trans hx)
      (hbound.later ((hu.trans hv).trans hx)) (htoday'.later hx) htoday hon (hg.later hx)
      hretrieved fun h => absurd h hreview

omit [AnswerText] in
/-- A publication is handed out for a date on which it governs under the policy that is current at
one moment of the request, to a capability that sees the collection and its index after that. -/
def HandedOut (W : ω → ω → Prop) (token publicationId : String) (effectiveOn : Option String)
    (s : CollectionDb ω) (answer : Result CollectionPublication) (t : CollectionDb ω) : Prop :=
  ∀ p, answer = .ok p → p.id = publicationId ∧ ∃ m a today on policy id, Follows W s m ∧
    Follows W m t ∧ Between W m t (fun u => access u.world token = .ok a) ∧
    Between W s m (fun u => QueryWorld.today u.world = today) ∧
    effectiveDate today effectiveOn = .ok on ∧ on ≤ today ∧
    m.governance.load a.tenantId id = some policy ∧ Governs policy on p ∧
    Between W m t (fun u => ∃ info, collectionById u.world a.tenantId id = .ok info ∧
      info.status = "active" ∧ a.permits info.accessLevel info.compartments = true) ∧
    Between W m t fun u => ∃ member, collectionById u.world a.tenantId member.id = .ok member ∧
      member.status = "active" ∧ member.accessLevel ≤ a.level.toInt

omit [AnswerText] in
theorem authorizePublication_ensures (hcat : Catalogue W) (hs : s.Sound)
    (token id publicationId : String) (effectiveOn : Option String) :
    (authorizePublication token id publicationId effectiveOn).Ensures (Follows W) Eq
      (HandedOut W token publicationId effectiveOn s) s := by
  have hQ : ∀ e t, HandedOut W token publicationId effectiveOn s (.error e) t :=
    fun _ _ _ h => by cases h
  unfold authorizePublication
  extract_lets hidden
  have hrefused : ∀ e t, (.done (.error e) : Shared (CollectionDb ω)
      (Result CollectionPublication)).Ensures (Follows W) Eq
        (HandedOut W token publicationId effectiveOn s) t := fun e _ u _ => hQ e u
  apply ensures_read fun _ => rfl
  intro t ht
  apply onOk_ensures hQ
  intro a ha
  have hbound : Bound W token a.tenantId t := fun _ _ hw ha' => hcat.tenant hw ha ha'
  apply collection_located (fun _ => rfl) hQ
  intro u info hu hlocated
  apply ensures_ite fun _ => hrefused _ u
  intro _
  apply ensures_read fun _ => rfl
  intro v hv
  have hsv : Follows W s v := (ht.trans hu).trans hv
  cases hload : v.governance.load a.tenantId info.id with
  | none => exact hrefused _ v
  | some policy =>
    have hwell := ((hsv.sound hs).governance.load_valid hload).1
    apply ensures_read fun _ => rfl
    intro w hw
    apply onOk_ensures hQ
    intro on hon
    apply ensures_ite fun _ => hrefused _ w
    intro hle
    apply ensures_ite fun _ => hrefused _ w
    intro _
    apply onOk_ensures hQ
    intro governing hgoverning
    cases hfind : (governing.getD []).find? fun p => p.id == publicationId with
    | none => exact hrefused _ w
    | some p =>
      have hgoverns : Governs policy on p := by
        rcases hwell.governing on with ⟨hnone, -⟩ | ⟨ps, hps, hall⟩
        · obtain rfl := Except.ok.inj (hnone.symm.trans hgoverning)
          cases hfind
        · obtain rfl := Except.ok.inj (hps.symm.trans hgoverning)
          exact (hall.mem p).mp (List.mem_of_find?_eq_some hfind)
      apply collection_located (fun _ => rfl) hQ
      intro x member hx hmember
      apply ensures_ite fun _ => hrefused _ x
      intro _
      apply loadVocabulary_ensures (fun _ => rfl) hQ
      intro m hm
      have hvm : Follows W v m := (hw.trans hx).trans hm
      generalize hversion : (m.vocabularies.load (CollectionWorld.now m.world) a.tenantId
        info.id).revision = n
      rw [VocabularyTable.load_revision] at hversion
      have hread : SnapshotRead W a.tenantId s m ⟨info, some policy, n⟩ :=
        ⟨⟨v, hsv, hvm, hload⟩, ⟨m, hsv.trans hvm, .refl m, hversion⟩,
          (hlocated.known hcat).later (hv.trans hvm)⟩
      apply recheck_ensures hcat hQ _ _ (hbound.later ((hu.trans hv).trans hvm))
        (List.forall_mem_singleton.mpr hread.known)
        (List.forall_mem_singleton.mpr ((hmember.known hcat).later hm))
      intro y current hmy htenant haccess hcurrent hopen
      rw [← htenant] at hread
      obtain ⟨hheld, -⟩ := hread.held hs (List.forall_mem_singleton.mp hcurrent)
      obtain ⟨z, hmz, hzy, found, hfound, hactive, hlevel, -⟩ := List.forall_mem_singleton.mp hopen
      have hid := hcat.byId hfound
      apply ensures_read fun _ => rfl
      intro r hr
      apply onOk_ensures hQ
      intro _ _ b hb q hq
      obtain rfl := Except.ok.inj hq
      have hyb := hr.trans hb
      refine ⟨by simpa using List.find?_some hfind, m, current, _, on, policy, info.id,
        hsv.trans hvm, hmy.trans hyb, haccess.later hyb, ⟨w, hsv.trans hw, hx.trans hm, rfl⟩, hon,
        not_lt.mp hle, hheld, hgoverns,
        (List.forall_mem_singleton.mp hcurrent).visible.later hyb,
        z, hmz, hzy.trans hyb, found, ?_, hactive, hlevel⟩
      rw [hid]
      exact hfound

end Requests

end Answering

end Munarium
