import Munarium.Server.QueryRuns

/-! The requests on collections side by side, on one database: what holds over every run, however
their steps interleave, while the rest of the server goes on by itself. -/
namespace Munarium

open Shared CollectionDb CollectionGovernance CollectionWorld AnswerWorld QueryWorld

section Atomicity
variable {ω α β : Type} {s : CollectionDb ω} {R C : CollectionDb ω → CollectionDb ω → Prop}
  {A : Result α → Prop}

theorem refused_atomic (hA : ∀ e, ¬ A (.error e)) (e : KernelError) (s : CollectionDb ω) :
    (.done (.error e) : Shared (CollectionDb ω) (Result α)).Atomic R C A s := hA e

theorem onOk_atomic (hA : ∀ e, ¬ A (.error e)) {r : Result β}
    {next : β → Shared (CollectionDb ω) (Result α)}
    (h : ∀ b, r = .ok b → (next b).Atomic R C A s) : (onOk next r).Atomic R C A s := by
  cases r with
  | error e => exact hA e
  | ok b => exact h b rfl

variable [CollectionWorld ω] [IsTrans (CollectionDb ω) R]

/-- What a name stands for: the collection of that id, or of that name. -/
def FoundAs (w : ω) (tenant name : String) (info : CollectionInfo) : Prop :=
  collectionById w tenant name = .ok info ∨ collectionByName w tenant name = .ok info

theorem collection_atomic (hA : ∀ e, ¬ A (.error e)) {tenant name : String}
    {next : CollectionInfo → Shared (CollectionDb ω) (Result α)}
    (h : ∀ t info, R s t → FoundAs t.world tenant name info → (next info).Atomic R C A t) :
    (collection tenant name next).Atomic R C A s := by
  apply atomic_read
  intro t ht
  split
  · rename_i info hinfo
    exact h t info ht (.inl hinfo)
  · apply atomic_read
    intro u hu
    exact onOk_atomic hA fun info hinfo => h u info (IsTrans.trans _ _ _ ht hu) (.inr hinfo)
  · exact hA _

theorem authorized_atomic (hA : ∀ e, ¬ A (.error e)) {token name : String}
    {next : AccessCtx → CollectionInfo → Shared (CollectionDb ω) (Result α)}
    (h : ∀ t u a info, R s t → access t.world token = .ok a → R t u →
      FoundAs u.world a.tenantId name info → info.status = "active" →
      a.permits info.accessLevel info.compartments = true → (next a info).Atomic R C A u) :
    (authorized token name next).Atomic R C A s := by
  apply atomic_read
  intro t ht
  apply onOk_atomic hA
  intro a ha
  apply collection_atomic hA
  intro u info hu hfound
  apply atomic_ite fun _ => refused_atomic hA _ _
  intro hseen
  simp only [not_or, not_not, Bool.not_eq_true', Bool.not_eq_false] at hseen
  exact h t u a info ht ha hu hfound hseen.1 hseen.2

theorem loadVocabulary_atomic (hA : ∀ e, ¬ A (.error e)) {tenant id : String}
    {next : Vocabulary → Shared (CollectionDb ω) (Result α)}
    (h : ∀ t, R s t →
      (next (t.vocabularies.load (now t.world) tenant id)).Atomic R C A t) :
    (loadVocabulary tenant id next).Atomic R C A s := by
  apply atomic_read
  intro t ht
  apply onOk_atomic hA
  intro _ _
  exact atomic_read fun u hu => h u (IsTrans.trans _ _ _ ht hu)

/-- The same publications, each with the id of its collection in the place of the name. -/
def Rebound (publications bound : List CollectionPublication) : Prop :=
  List.Forall₂ (fun p q => { q with collection := p.collection } = p) publications bound

theorem bindMembers_atomic [CalendarText] (hA : ∀ e, ¬ A (.error e)) {tenant : String}
    {info : CollectionInfo} {next : List CollectionPublication → Shared (CollectionDb ω) (Result α)}
    {s₀ : CollectionDb ω} (publications bound : List CollectionPublication) (hs : R s₀ s)
    (h : ∀ t rest, R s₀ t → Rebound publications rest → (next (bound ++ rest)).Atomic R C A t) :
    (bindMembers tenant info next bound publications).Atomic R C A s := by
  induction publications generalizing bound s with
  | nil =>
    have hnext := h s [] hs .nil
    rwa [List.append_nil] at hnext
  | cons p rest ih =>
    apply collection_atomic hA
    intro t member ht _
    apply atomic_ite fun _ => refused_atomic hA _ _
    intro _
    apply atomic_read
    intro u hu
    apply onOk_atomic hA
    intro found _
    apply atomic_ite fun _ => refused_atomic hA _ _
    intro _
    apply ih _ (IsTrans.trans _ _ _ (IsTrans.trans _ _ _ hs ht) hu)
    intro v bound' hv hbound
    rw [List.append_assoc, List.singleton_append]
    exact h v _ hv (.cons rfl hbound)

end Atomicity

/-- An order of completion: it loses no worker and adds none. -/
structure Completions where
  order : List Target → List Target
  perm : ∀ batch, (order batch).Perm batch

inductive CollectionRequest where
  | replaceGovernance (tenant name actorUid : String) (body : CollectionGovernance)
  | getGovernance (tenant name : String)
  | putVocabulary (token name : String) (body : VocabularyUpdate)
  | patchVocabulary (token name : String) (body : VocabularyPatch)
  | getVocabulary (token name : String)
  | refresh (token name : String) (revision : ℤ) (sourceIds : List String) (steps : ℕ)
  | automaticBatch (tenant : String) (steps : String → ℕ)
  | answer (token : String) (req : AnswerRequest)
  | query (token : String) (req : CollectionQuery) (completions : Completions)
  | authorizePublication (token id publicationId : String) (effectiveOn : Option String)

inductive CollectionReply where
  | governance (answer : Result CollectionGovernance)
  | vocabulary (answer : Result Vocabulary)
  | swept (answer : Result Unit)
  | answer (answer : Result AnswerResponse)
  | query (answer : Result CollectionQueryResponse)
  | publication (answer : Result CollectionPublication)

section Runs
variable {ω : Type} [QueryWorld ω] [CalendarText] [AnswerText] [Unicode] [GroupsText]

def serve : CollectionRequest → Shared (CollectionDb ω) CollectionReply
  | .replaceGovernance tenant name actorUid body =>
      (replaceCollectionGovernance tenant name actorUid body).map .governance
  | .getGovernance tenant name => (getCollectionGovernance tenant name).map .governance
  | .putVocabulary token name body => (putVocabulary token name body).map .vocabulary
  | .patchVocabulary token name body => (patchVocabulary token name body).map .vocabulary
  | .getVocabulary token name => (getVocabulary token name).map .vocabulary
  | .refresh token name revision sourceIds steps =>
      (refresh token name revision sourceIds steps).map .vocabulary
  | .automaticBatch tenant steps => (Munarium.automaticBatch tenant steps).map .swept
  | .answer token req => (answerRequest token req).map .answer
  | .query token req completions => (queryCollections token req completions.order).map .query
  | .authorizePublication token id publicationId effectiveOn =>
      (Munarium.authorizePublication token id publicationId effectiveOn).map .publication

def CollectionRequest.isAutomatic : CollectionRequest → Bool
  | .automaticBatch _ _ => true
  | _ => false

/-- What a revision is counted of. -/
inductive Edition where
  | policy
  | vocabulary

def Edition.revision (e : Edition) (s : CollectionDb ω) (tenant id : String) : ℤ :=
  match e with
  | .policy => s.governance.revision tenant id
  | .vocabulary => VocabularyTable.revisionAt s.vocabularies tenant id

/-- The revision that a request asks to replace. -/
def CollectionRequest.replaces : CollectionRequest → Option (Edition × ℤ)
  | .replaceGovernance _ _ _ body => some (.policy, body.revision)
  | .putVocabulary _ _ body => some (.vocabulary, body.revision)
  | .patchVocabulary _ _ body => some (.vocabulary, body.revision)
  | _ => none

def CollectionReply.isOk : CollectionReply → Bool
  | .governance (.ok _) => true
  | .vocabulary (.ok _) => true
  | _ => false

/-- The rest of the server goes on by itself. -/
def Elsewhere (W : ω → ω → Prop) (f : CollectionDb ω → CollectionDb ω) : Prop :=
  ∀ s, (f s).governance = s.governance ∧ (f s).vocabularies = s.vocabularies ∧
    W s.world (f s).world

variable {W : ω → ω → Prop} [IsPreorder ω W] {s : CollectionDb ω}

omit [QueryWorld ω] [AnswerText] [Unicode] [GroupsText] in
theorem Within.follows {spare : Bool} {t : CollectionDb ω} (h : Within spare s t) :
    Follows W s t := ⟨h.1.1, h.1.2 ▸ refl_of W s.world⟩

omit [QueryWorld ω] [AnswerText] [Unicode] [GroupsText] [IsPreorder ω W] in
theorem Elsewhere.follows {f : CollectionDb ω → CollectionDb ω} (h : Elsewhere W f)
    (s : CollectionDb ω) : Follows W s (f s) := by
  obtain ⟨hgovernance, hvocabularies, hworld⟩ := h s
  refine ⟨⟨hgovernance ▸ .refl, ?_⟩, hworld⟩
  rw [hvocabularies]
  exact .refl _

/-- What a name stands for at a moment. -/
def Named (W : ω → ω → Prop) (s t : CollectionDb ω) (tenant name id : String) : Prop :=
  Between W s t fun u => ∃ info, info.id = id ∧ FoundAs u.world tenant name info

/-- The collection that a name stands for, where the capability sees it. -/
def Seen (W : ω → ω → Prop) (s t : CollectionDb ω) (token name tenant id : String) : Prop :=
  ∃ a, a.tenantId = tenant ∧ Between W s t (fun u => access u.world token = .ok a) ∧
    Between W s t fun u => ∃ info, info.id = id ∧ FoundAs u.world tenant name info ∧
      info.status = "active" ∧ a.permits info.accessLevel info.compartments = true

/-- The step of an edit: one row goes from the revision that is named to the next. The change is
made to what is stored then, if that revision had been reached when the request came in. -/
def EditOf (W : ω → ω → Prop) (s : CollectionDb ω) (token name : String)
    (change : Vocabulary → Vocabulary) (revision : ℤ) (u v : CollectionDb ω) : Prop :=
  u.Writes v ∧ v.governance = u.governance ∧ ∃ tenant id, Seen W s u token name tenant id ∧
    VocabularyTable.revisionAt u.vocabularies tenant id = revision ∧
    VocabularyTable.revisionAt v.vocabularies tenant id = revision + 1 ∧
    (revision ≤ VocabularyTable.revisionAt s.vocabularies tenant id →
      Edited change revision tenant id u v)

/-- The step of a replacement: the policy joins as the revision after the one it names. -/
def ReplacementOf (W : ω → ω → Prop) (s : CollectionDb ω) (tenant name actorUid : String)
    (body : CollectionGovernance) (u v : CollectionDb ω) : Prop :=
  u.Writes v ∧ v.vocabularies = u.vocabularies ∧ ∃ id publications stored,
    Named W s u tenant name id ∧ Rebound body.publications publications ∧
    u.governance.replace ⟨tenant, id, { body with publications := publications }, actorUid⟩ =
      (.ok stored, v.governance)

/-- The one step by which a request changes the tables. -/
def CollectionRequest.Edits (W : ω → ω → Prop) (s : CollectionDb ω) :
    CollectionRequest → CollectionDb ω → CollectionDb ω → Prop
  | .replaceGovernance tenant name actorUid body => ReplacementOf W s tenant name actorUid body
  | .putVocabulary token name body => EditOf W s token name body.apply body.revision
  | .patchVocabulary token name body => EditOf W s token name body.apply body.revision
  | _ => fun _ _ => False

omit [AnswerText] [GroupsText] in
theorem edit_atomic (hs : s.Sound) {change : Vocabulary → Vocabulary}
    (hchange : ReadsContent change) (revision : ℤ) (token name : String) :
    (authorized token name fun a info =>
      editVocabulary change revision a.tenantId info.id).Atomic (Follows W)
        (EditOf W s token name change revision)
        (fun answer => (CollectionReply.vocabulary answer).isOk = true) s := by
  have hA : ∀ e, ¬ (CollectionReply.vocabulary (.error e)).isOk = true := fun e h => by cases h
  apply authorized_atomic hA
  intro t u a info ht ha hu hfound hactive hpermits
  have hseen : Seen W s u token name a.tenantId info.id :=
    ⟨a, rfl, ⟨t, ht, hu, ha⟩, u, ht.trans hu, .refl u, info, rfl, hfound, hactive, hpermits⟩
  apply loadVocabulary_atomic hA
  intro v hv
  apply atomic_call
  intro x hx
  have hsv := (ht.trans hu).trans hv
  rcases saveIn_edits hchange a.tenantId info.id
    (v.vocabularies.load (CollectionWorld.now v.world) a.tenantId info.id) revision x with
    ⟨e, he⟩ | ⟨stored, y, hstored, hgovernance, hbefore, hafter, hedited⟩
  · rw [he]
    exact .inl ⟨rfl, hA e⟩
  · have hwrites := saveIn_writes a.tenantId info.id (change
      (v.vocabularies.load (CollectionWorld.now v.world) a.tenantId info.id)) revision x
    rw [hstored] at hwrites ⊢
    have hseen' : Seen W s x token name a.tenantId info.id := by
      obtain ⟨a', htenant, haccess, hthere⟩ := hseen
      exact ⟨a', htenant, haccess.later (hv.trans hx), hthere.later (hv.trans hx)⟩
    refine .inr ⟨⟨hwrites, hgovernance, _, _, hseen', hbefore, hafter, fun hreached => ?_⟩, _, rfl,
      rfl⟩
    apply hedited
    -- The revision cannot have moved between the reading and the storing.
    have hle := hsv.1.2.1.revisionAt_le (hsv.sound hs).vocabularies a.tenantId info.id
    have hle' := hx.1.2.1.revisionAt_le (hx.sound (hsv.sound hs)).vocabularies a.tenantId info.id
    rw [← VocabularyTable.load_content x.vocabularies 0]
    refine (hx.1.2.1.load_content (hx.sound (hsv.sound hs)).vocabularies ?_).symm
    rw [VocabularyTable.load_revision, VocabularyTable.load_revision]
    omega

omit [AnswerText] [Unicode] [GroupsText] in
theorem replacement_atomic (tenant name actorUid : String) (body : CollectionGovernance)
    (s : CollectionDb ω) : (replaceCollectionGovernance tenant name actorUid body).Atomic
      (Follows W) (ReplacementOf W s tenant name actorUid body)
      (fun answer => (CollectionReply.governance answer).isOk = true) s := by
  have hA : ∀ e, ¬ (CollectionReply.governance (.error e)).isOk = true := fun e h => by cases h
  apply collection_atomic hA
  intro t info ht hfound
  apply onOk_atomic hA
  intro _ _
  apply bindMembers_atomic hA _ _ (.refl t)
  intro u publications hu hbound
  apply atomic_call
  intro v hv
  rw [List.nil_append]
  generalize hbody : ({ body with publications := publications } : CollectionGovernance) = body'
  obtain ⟨hwrites, -⟩ := replaceIn_writes ⟨tenant, info.id, body', actorUid⟩ v
  unfold replaceIn at hwrites ⊢
  cases hreplace : v.governance.replace ⟨tenant, info.id, body', actorUid⟩ with
  | mk answer rows =>
    simp only [hreplace] at hwrites ⊢
    cases answer with
    | error e =>
      obtain rfl := GovernanceTable.replace_error hreplace
      exact .inl ⟨rfl, hA e⟩
    | ok stored =>
      right
      refine ⟨⟨hwrites, rfl, info.id, publications, stored, ?_, hbound, ?_⟩, _, rfl, rfl⟩
      · exact ⟨t, ht, hu.trans hv, info, rfl, hfound⟩
      · rw [hbody, hreplace]

/-- An edit makes one change, which is its last step. -/
theorem edits_atomic (hs : s.Sound) {r : CollectionRequest} (hr : r.replaces.isSome = true) :
    (serve r).Atomic (Follows W) (r.Edits W s) (fun reply => reply.isOk = true) s := by
  cases r with
  | replaceGovernance tenant name actorUid body =>
    exact (replacement_atomic tenant name actorUid body s).map
  | putVocabulary token name body =>
    exact (edit_atomic hs (readsContent_update body) body.revision token name).map
  | patchVocabulary token name body =>
    exact (edit_atomic hs (readsContent_patch body) body.revision token name).map
  | _ => cases hr

/-- The collection that an edit is about. -/
def CollectionRequest.About (W : ω → ω → Prop) (s t : CollectionDb ω) (r : CollectionRequest)
    (tenant id : String) : Prop :=
  match r with
  | .replaceGovernance tenant' name _ _ => tenant' = tenant ∧ Named W s t tenant name id
  | .putVocabulary token name _ => Seen W s t token name tenant id
  | .patchVocabulary token name _ => Seen W s t token name tenant id
  | _ => False

/-- An edit takes what it is about from the revision that it names to the next. -/
def CollectionRequest.Takes (W : ω → ω → Prop) (s : CollectionDb ω) (r : CollectionRequest)
    (u v : CollectionDb ω) : Prop :=
  Follows W u v ∧ v.Sound ∧ ∃ e n tenant id, r.replaces = some (e, n) ∧ r.About W s u tenant id ∧
    e.revision u tenant id = n ∧ e.revision v tenant id = n + 1

omit [AnswerText] [Unicode] [GroupsText] in
theorem Seen.earlier {s₀ t : CollectionDb ω} {token name tenant id : String}
    (h : Seen W s t token name tenant id) (hs : Follows W s₀ s) :
    Seen W s₀ t token name tenant id := by
  obtain ⟨a, htenant, haccess, hthere⟩ := h
  exact ⟨a, htenant, haccess.earlier hs, hthere.earlier hs⟩

omit [AnswerText] [Unicode] [GroupsText] in
theorem CollectionRequest.About.later {t t' : CollectionDb ω} {r : CollectionRequest}
    {tenant id : String} (h : r.About W s t tenant id) (ht : Follows W t t') :
    r.About W s t' tenant id := by
  have hseen : ∀ {token name}, Seen W s t token name tenant id →
      Seen W s t' token name tenant id :=
    fun ⟨a, htenant, haccess, hthere⟩ => ⟨a, htenant, haccess.later ht, hthere.later ht⟩
  cases r with
  | replaceGovernance => exact ⟨h.1, Between.later h.2 ht⟩
  | putVocabulary => exact hseen h
  | patchVocabulary => exact hseen h
  | _ => exact h

omit [QueryWorld ω] [AnswerText] [Unicode] [GroupsText] [IsPreorder ω W] in
theorem Edition.revision_le (e : Edition) {t : CollectionDb ω} (hs : s.Sound)
    (h : Follows W s t) (tenant id : String) : e.revision s tenant id ≤ e.revision t tenant id := by
  cases e with
  | policy => exact (versioned_governance tenant id).le s t hs h
  | vocabulary => exact (versioned_vocabulary tenant id).le s t hs h

omit [AnswerText] [Unicode] [GroupsText] in
theorem CollectionRequest.Edits.takes {s₀ u v : CollectionDb ω} {r : CollectionRequest}
    (h : r.Edits W s u v) (hs : Follows W s₀ s) (hu : u.Sound) : r.Takes W s₀ u v := by
  have hfollows : ∀ {v}, u.Writes v → Follows W u v :=
    fun hw => ⟨hw.1, hw.2 ▸ refl_of W u.world⟩
  cases r with
  | replaceGovernance tenant name actorUid body =>
    obtain ⟨hwrites, -, id, publications, stored, hnamed, -, hreplace⟩ := h
    refine ⟨hfollows hwrites, hwrites.1.sound hu, .policy, _, tenant, id, rfl,
      ⟨rfl, hnamed.earlier hs⟩, (GovernanceTable.replace_ok hreplace).1, ?_⟩
    have hhistory := hu.governance.replace hreplace
    obtain ⟨hrevision, -, -, -, hrows⟩ := GovernanceTable.replace_ok hreplace
    rw [hu.governance.revision_eq] at hrevision
    simp only [Edition.revision]
    rw [hhistory.revision_eq, hrows, GovernanceTable.rowsOf_append]
    simpa using hrevision
  | putVocabulary token name body =>
    obtain ⟨hwrites, -, tenant, id, hseen, hbefore, hafter, -⟩ := h
    exact ⟨hfollows hwrites, hwrites.1.sound hu, .vocabulary, _, tenant, id, rfl,
      hseen.earlier hs, hbefore, hafter⟩
  | patchVocabulary token name body =>
    obtain ⟨hwrites, -, tenant, id, hseen, hbefore, hafter, -⟩ := h
    exact ⟨hfollows hwrites, hwrites.1.sound hu, .vocabulary, _, tenant, id, rfl,
      hseen.earlier hs, hbefore, hafter⟩
  | _ => exact h.elim

/-- A request is accepted as an edit only by a step that takes a revision to the next. -/
theorem serve_commits {s₀ : CollectionDb ω} (hs : s.Sound) (h : Follows W s₀ s)
    (r : CollectionRequest) : (serve r).Commits (Follows W) (r.Takes W s₀)
      (fun reply => r.replaces.isSome = true ∧ reply.isOk = true) s := by
  by_cases hr : r.replaces.isSome = true
  · have hkeeps : ∀ t u : CollectionDb ω, t.Sound → Follows W t u → u.Sound :=
      fun _ _ ht hu => hu.sound ht
    have hkept := (edits_atomic hs hr).kept hkeeps hs
    have htakes : (serve r).Atomic (Follows W) (r.Takes W s₀) (fun reply => reply.isOk = true) s :=
      hkept.weaken fun u v hstep => CollectionRequest.Edits.takes hstep.2 h hstep.1
    simpa only [hr, true_and] using htakes.commits
  · exact commits_never (fun _ hok => hr hok.1) _ _

omit [AnswerText] [GroupsText] in
theorem edit_ensures {token name : String} (change : Vocabulary → Vocabulary) (revision : ℤ)
    (s : CollectionDb ω) : (authorized token name fun a info =>
      editVocabulary change revision a.tenantId info.id).Ensures Moves Writes
        (fun _ _ => True) s := by
  apply authorized_ensures Writes.refl fun _ _ => trivial
  intro t a info _
  apply loadVocabulary_ensures Writes.refl fun _ _ => trivial
  intro u _
  apply ensures_call
  intro v _
  exact ⟨saveIn_writes .., fun _ _ => trivial⟩

/-- Every request keeps to its bounds, whatever runs beside it. -/
theorem serve_ensures (hcat : Catalogue W) (hs : s.Sound) (r : CollectionRequest) :
    (serve r).Ensures (Follows W) (Within r.isAutomatic) (fun _ _ => True) s := by
  have hmoves : ∀ s t : CollectionDb ω, Follows W s t → s.Moves t := fun _ _ => And.left
  have hwrites : ∀ s t : CollectionDb ω, s.Writes t → Within false s t :=
    fun _ _ h => ⟨h, fun h => by cases h⟩
  have heq : ∀ s t : CollectionDb ω, s = t → Within false s t := by
    rintro s _ rfl
    exact .refl s
  cases r with
  | replaceGovernance tenant name actorUid body =>
    exact (((replaceCollectionGovernance_ensures s tenant name actorUid body).rely hmoves).weaken
      hwrites fun _ _ _ => trivial).map
  | getGovernance tenant name =>
    apply Ensures.map
    apply collection_ensures Within.refl fun _ _ => trivial
    intro t info _
    exact ensures_read Within.refl fun _ _ _ _ => trivial
  | putVocabulary token name body =>
    exact (((edit_ensures body.apply body.revision s).rely hmoves).weaken hwrites
      fun _ _ _ => trivial).map
  | patchVocabulary token name body =>
    exact (((edit_ensures body.apply body.revision s).rely hmoves).weaken hwrites
      fun _ _ _ => trivial).map
  | getVocabulary token name =>
    apply Ensures.map
    apply authorized_ensures Within.refl fun _ _ => trivial
    intro t a info _
    apply loadVocabulary_ensures Within.refl fun _ _ => trivial
    exact fun _ _ _ _ => trivial
  | refresh token name revision sourceIds steps =>
    exact (((refresh_ensures s token name revision sourceIds steps).rely hmoves).weaken hwrites
      fun _ _ _ => trivial).map
  | automaticBatch tenant steps =>
    exact ((automaticBatch_ensures s tenant steps).rely hmoves).map
  | answer token req =>
    exact (((answerRequest_ensures s token req).rely hmoves).weaken heq fun _ _ _ => trivial).map
  | query token req completions =>
    exact ((queryCollections_ensures hcat hs token req completions.perm).weaken heq
      fun _ _ _ => trivial).map
  | authorizePublication token id publicationId effectiveOn =>
    exact ((authorizePublication_ensures hcat hs token id publicationId effectiveOn).weaken heq
      fun _ _ _ => trivial).map

theorem serve_bounds (hcat : Catalogue W) : Pool.Bounds (serve (ω := ω)) (Elsewhere W)
    CollectionDb.Sound (Follows W) (fun r => Within r.isAutomatic) fun _ _ _ => True where
  refl := Follows.refl
  trans _ _ _ h h' := h.trans h'
  keeps _ _ hs h := h.sound hs
  start r _ hs := serve_ensures hcat hs r
  guarantee _ _ _ _ h := h.follows
  outside _ hf s _ := hf.follows s

/-- The pools that runs lead to from a sound database with nothing in flight. -/
def Arises (W : ω → ω → Prop) (s : CollectionDb ω)
    (g : Pool (CollectionDb ω) CollectionRequest CollectionReply) : Prop :=
  Pool.Run serve (Elsewhere W) { state := s } g

variable {g g' : Pool (CollectionDb ω) CollectionRequest CollectionReply}

omit [QueryWorld ω] [AnswerText] [Unicode] [GroupsText] [IsPreorder ω W] in
theorem arises_start (hs : s.Sound) :
    Pool.Sound CollectionDb.Sound (Follows W) (fun r => Within r.isAutomatic) (fun _ _ _ => True)
      ({ state := s } : Pool (CollectionDb ω) CollectionRequest CollectionReply) := by
  refine ⟨hs, fun i r p hp => ?_⟩
  simp at hp

theorem Arises.sound (hcat : Catalogue W) (hs : s.Sound) (h : Arises W s g) :
    g.Sound CollectionDb.Sound (Follows W) (fun r => Within r.isAutomatic) fun _ _ _ => True :=
  ((arises_start hs).run (serve_bounds hcat) h).1

/-- A request that starts in a run keeps what it promised then when it is answered. -/
theorem Arises.answered (hcat : Catalogue W) (hs : s.Sound) (h : Arises W s g)
    {r : CollectionRequest} {reply : CollectionReply} {G : CollectionDb ω → CollectionDb ω → Prop}
    {Q : CollectionReply → CollectionDb ω → Prop} (hr : (serve r).Ensures (Follows W) G Q g.state)
    (hrun : Pool.Run serve (Elsewhere W) (g.step serve (.start r)) g')
    (hanswer : g'.calls[g.calls.length]? = some (r, .done reply)) : Q reply g'.state := by
  obtain ⟨p, hp, hensures⟩ := (h.sound hcat hs).started (serve_bounds hcat) hrun hr
  obtain ⟨-, rfl⟩ := Prod.mk.inj (Option.some.inj (hanswer.symm.trans hp))
  exact hensures _ (.refl _)

theorem Arises.published (hcat : Catalogue W) (hs : s.Sound) (h : Arises W s g)
    (hrun : Pool.Run serve (Elsewhere W) g g') :
    g.state.governance.History ∧ g.state.governance.Published g'.state.governance := by
  have hsound := h.sound hcat hs
  exact ⟨hsound.state.governance, (hsound.run (serve_bounds hcat) hrun).2.1.1⟩

end Runs

/-- A server with a collection `c` and an index `m` of one document. -/
inductive Desk where
  | open

namespace Desk

def info (id : String) : CollectionInfo := ⟨id, id, 0, [], "active"⟩

def hash : String := "00000000000000000000000000000000000000000000000000000000000000aa"

def hit : SearchHit :=
  ⟨"k", "s", "a.md", hash, "the sky is blue", 1, none, none, none, none, none⟩

def day (year : ℤ) (month day : ℕ) : NaiveDate := (NaiveDate.ofDay (dayNumber year month day)).getD
  ⟨1, by decide⟩

scoped instance : QueryWorld Desk where
  access _ token := if token = "key" then .ok ⟨"t", 1, [], true⟩ else .error (.forbidden "token")
  collectionById _ _ id :=
    if id = "c" ∨ id = "m" then .ok (info id) else .error (.notFound "collection" id)
  collectionByName _ _ name := .error (.notFound "collection" name)
  indexed _ _ _ _ := .ok true
  scopeReadable _ _ _ := .ok ()
  now _ := 0
  newLease _ := "lease"
  draining _ := false
  automaticCandidates _ _ := .ok ["c"]
  settings _ _ := .ok {}
  providerOf _ _ _ := .ok ⟨"local", fun _ => .ok "model"⟩
  corpusFingerprint _ _ _ := .ok ""
  candidates _ _ _ _ := .ok []
  sourceSample _ _ _ _ := .ok (hash, hit.text)
  generateGroups _ _ _ _ _ _ := .error (.provider "offline")
  sourceHash _ _ _ := .ok hash
  sourcesReadable _ _ _ := .ok ()
  completeTokens _ _ := .ok 100
  searchCollection _ _ _ _ _ := .ok ⟨"v1", [hit]⟩
  composeReply _ _ _ := .ok ⟨"end_turn", "blue", "local", "model", 1, 1⟩
  today _ := day 2024 3 1
  searchMeasured _ _ _ _ _ := .ok (⟨"v1", [hit]⟩, "l")

scoped instance : CalendarText where
  parse s :=
    if s = "2024-01-01" then some (day 2024 1 1)
    else if s = "2024-02-01" then some (day 2024 2 1) else none

scoped instance : Unicode := ⟨fun c => [c], fun _ => false, fun _ => false⟩

scoped instance : GroupsText := ⟨fun _ => none⟩

scoped instance : AnswerText where
  parse _ := some ⟨"supported", "It is blue.", [⟨"p1", "sky is blue"⟩]⟩
  render _ := "blue"

def db : CollectionDb Desk := ⟨[], fun _ _ => none, .open⟩

theorem db_sound : db.Sound := ⟨GovernanceTable.history_nil, fun _ _ _ h => by cases h⟩

theorem catalogue : Catalogue (ω := Desk) Eq where
  tenant := by
    rintro w _ token a a' rfl h h'
    obtain rfl := Except.ok.inj (h.symm.trans h')
    rfl
  byId := by
    intro w tenant id info h
    simp only [collectionById] at h
    split_ifs at h
    cases h
    rfl
  known := by
    rintro w _ tenant name info rfl (h | h) kind id hmissing
    · simp only [collectionById] at h hmissing
      split_ifs at h with hname
      cases h
      simp [Desk.info, hname] at hmissing
    · cases h

def publication (id date state : String) : CollectionPublication :=
  ⟨id, "document", "m", "v1", "s", hash, date, none, "2024-01-01T00:00:00Z", state⟩

abbrev Calls := Pool (CollectionDb Desk) CollectionRequest CollectionReply

abbrev Events := List (Pool.Event (CollectionDb Desk) CollectionRequest)

/-- A request is let in, and then left to itself. -/
def alone (r : CollectionRequest) (i : ℕ) : Events :=
  .start r :: List.replicate 50 (.advance i)

/-- The call has an answer that passes the test. -/
def settled (b : CollectionReply → Bool) : Shared (CollectionDb Desk) CollectionReply → Bool
  | .done a => b a
  | .step _ _ => false

theorem run (g : Calls) (events : Events) (h : ∀ f, .outside f ∉ events) :
    Pool.Run serve (Elsewhere Eq) g (g.play serve events) :=
  .of_play serve g events fun f hf => absurd hf (h f)

theorem outside_alone (r : CollectionRequest) (i : ℕ) (f : CollectionDb Desk → CollectionDb Desk) :
    .outside f ∉ alone r i := by
  simp [alone]

/-- From when the request has come in. -/
theorem run_alone (g : Calls) (r : CollectionRequest) (i : ℕ) :
    Pool.Run serve (Elsewhere Eq) (g.step serve (.start r)) (g.play serve (alone r i)) := by
  rw [alone, Pool.play_cons]
  exact run _ _ (by simp)

/-- What a call that has come in is answered with. -/
theorem answered {g g' : Calls} {r : CollectionRequest} {b : CollectionReply → Bool}
    (h : Arises Eq db g) (hrun : Pool.Run serve (Elsewhere Eq) (g.step serve (.start r)) g')
    (hok : (g'.calls[g.calls.length]?.any fun c => settled b c.2) = true) :
    ∃ reply, g'.calls[g.calls.length]? = some (r, .done reply) ∧ b reply = true := by
  obtain ⟨p, hp, -⟩ := (h.sound catalogue db_sound).started (serve_bounds catalogue) hrun
    (serve_ensures catalogue (h.sound catalogue db_sound).state r)
  rw [hp] at hok
  cases p with
  | done reply => exact ⟨reply, hp, hok⟩
  | step f next => cases hok

def policy (revision : ℤ) (publications : List CollectionPublication) : CollectionGovernance :=
  { revision := revision, publications := publications }

def replace (revision : ℤ) (publications : List CollectionPublication) : CollectionRequest :=
  .replaceGovernance "t" "c" "admin" (policy revision publications)

/-- After the one publication has been withdrawn. -/
def before : Calls := Pool.play serve ⟨db, []⟩
  (alone (replace 0 [publication "p1" "2024-01-01" "withdrawn"]) 0)

/-- After another one has been approved as well. -/
def after : Calls := before.play serve
  (alone (replace 1 [publication "p1" "2024-01-01" "withdrawn",
    publication "p2" "2024-02-01" "approved"]) 1)

def later : CollectionGovernance := policy 2
  [publication "p1" "2024-01-01" "withdrawn", publication "p2" "2024-02-01" "approved"]

theorem arises_before : Arises Eq db before := run _ _ (outside_alone _ _)

theorem run_after : Pool.Run serve (Elsewhere Eq) before after := run before _ (outside_alone _ _)

/-- What the two replacements leave, and what governs in March. -/
theorem policies_replaced :
    before.state.governance.load "t" "c" =
      some (policy 1 [publication "p1" "2024-01-01" "withdrawn"]) ∧
    after.state.governance.load "t" "c" = some later ∧ validate later none = .ok () ∧
    governing later (day 2024 3 1) = .ok (some [publication "p2" "2024-02-01" "approved"]) ∧
    date "2024-01-01" = .ok (day 2024 1 1) ∧ day 2024 1 1 ≤ day 2024 3 1 := by
  decide +kernel

end Desk

section Policies
variable {ω : Type} [QueryWorld ω] [CalendarText] [AnswerText] [Unicode] [GroupsText]
  {W : ω → ω → Prop} [IsPreorder ω W] {s : CollectionDb ω}
  {g g' : Pool (CollectionDb ω) CollectionRequest CollectionReply}

/-- The policies of a run: numbered without gaps and valid at every moment, and from one moment to
a later one each is the same or has been replaced by a later revision that retains it. -/
theorem policies_over_runs (hcat : Catalogue W) (hs : s.Sound) (h : Arises W s g)
    (hrun : Pool.Run serve (Elsewhere W) g g') : g.state.governance.History ∧
      ∀ tenant id, (∀ old, g.state.governance.load tenant id = some old →
          ∃ new, g'.state.governance.load tenant id = some new ∧ Retains old new ∧
            (new = old ∨ old.revision < new.revision)) ∧
        (g'.state.governance.revision tenant id = g.state.governance.revision tenant id →
          g'.state.governance.load tenant id = g.state.governance.load tenant id) := by
  obtain ⟨hhistory, hpub⟩ := h.published hcat hs hrun
  exact ⟨hhistory, fun tenant id => ⟨fun _ => hpub.load hhistory, hpub.load_eq hhistory⟩⟩

/-- What is withdrawn at one moment of a run governs at no later one: on a date from which it
was effective, only what was published after it in its document's chronology does. -/
theorem withdrawn_over_runs (hcat : Catalogue W) (hs : s.Sound) (h : Arises W s g)
    (hrun : Pool.Run serve (Elsewhere W) g g') {tenant id : String}
    {old new : CollectionGovernance} (hold : g.state.governance.load tenant id = some old)
    (hnew : g'.state.governance.load tenant id = some new) {w p : CollectionPublication}
    (hw : w ∈ old.publications) (hstate : w.state = "withdrawn") {on : NaiveDate}
    {stamp st : NaiveDate ×ₗ UtcInstant} (hstamp : Stamped w stamp)
    (hle : (ofLex stamp).1 ≤ on) (hp : Governs new on p) (hdoc : p.documentId = w.documentId)
    (hst : Stamped p st) : stamp < st := by
  obtain ⟨hhistory, hpub⟩ := h.published hcat hs hrun
  obtain ⟨new', hnew', hretains, -⟩ := hpub.load hhistory hold
  obtain rfl := Option.some.inj (hnew.symm.trans hnew')
  exact hretains.governs_later hw hstate hstamp hle hp hdoc hst

end Policies

section
open Desk

theorem policies_over_runs_desk : ∃ new, after.state.governance.load "t" "c" = some new ∧
    Retains (policy 1 [publication "p1" "2024-01-01" "withdrawn"]) new := by
  obtain ⟨-, hall⟩ := policies_over_runs catalogue db_sound arises_before run_after
  obtain ⟨new, hnew, hretains, -⟩ := (hall "t" "c").1 _ policies_replaced.1
  exact ⟨new, hnew, hretains⟩

theorem withdrawn_over_runs_desk : ∃ stamp st,
    Stamped (publication "p1" "2024-01-01" "withdrawn") stamp ∧
    Stamped (publication "p2" "2024-02-01" "approved") st ∧ stamp < st := by
  obtain ⟨hold, hnew, hvalid, hgoverning, hday, hmarch⟩ := policies_replaced
  have hwell := (validate_ok hvalid).1
  obtain ⟨stamp, hstamp⟩ := hwell.stamped (publication "p1" "2024-01-01" "withdrawn") (by decide)
  obtain ⟨st, hst⟩ := hwell.stamped (publication "p2" "2024-02-01" "approved") (by decide)
  have hle : (ofLex stamp).1 ≤ day 2024 3 1 := by
    rw [← Except.ok.inj (hday.symm.trans hstamp.1)]
    exact hmarch
  rcases hwell.governing (day 2024 3 1) with ⟨hnone, -⟩ | ⟨ps, hps, hall⟩
  · cases hnone.symm.trans hgoverning
  · cases hps.symm.trans hgoverning
    exact ⟨stamp, st, hstamp, hst, withdrawn_over_runs catalogue db_sound arises_before run_after
      hold hnew (List.mem_singleton_self _) rfl hstamp hle
      ((hall.mem _).mp (List.mem_singleton_self _)) rfl hst⟩

end

section Edits
variable {ω : Type} [QueryWorld ω] [CalendarText] [AnswerText] [Unicode] [GroupsText]
  {W : ω → ω → Prop} [IsPreorder ω W] {s : CollectionDb ω}
  {g g' : Pool (CollectionDb ω) CollectionRequest CollectionReply}

/-- In every state a run reaches, a step of the worker leaves alone what is written by hand. -/
theorem automatic_over_runs (hcat : Catalogue W) (hs : s.Sound) (h : Arises W s g) {i : ℕ}
    {tenant : String} {steps : String → ℕ} {p : Shared (CollectionDb ω) CollectionReply}
    (hcall : g.calls[i]? = some (.automaticBatch tenant steps, p)) :
    VocabularyTable.Spares g.state.vocabularies (g.advance i).state.vocabularies := by
  rcases g.advance_cases i with hsame | ⟨r, f, next, hi, hadv⟩
  · rw [hsame]
    exact .refl _
  · obtain ⟨rfl, rfl⟩ := Prod.mk.inj (Option.some.inj (hcall.symm.trans hi))
    rw [hadv]
    exact ((h.sound hcat hs).calls i _ _ hi g.state (.refl _)).1.2 rfl

/-- No edit is lost: of two that a run has accepted of the policy or the vocabulary of one
collection, each has replaced a revision of its own. -/
theorem no_edit_lost (hcat : Catalogue W) (hs : s.Sound) (h : Arises W s g) {i j : ℕ}
    (hij : i ≠ j) {r r' : CollectionRequest} {reply reply' : CollectionReply}
    (hi : g.calls[i]? = some (r, .done reply)) (hj : g.calls[j]? = some (r', .done reply'))
    (hok : reply.isOk = true) (hok' : reply'.isOk = true) {e : Edition} {n n' : ℤ}
    (hr : r.replaces = some (e, n)) (hr' : r'.replaces = some (e, n')) :
    ∃ tenant id tenant' id', r.About W s g.state tenant id ∧
      r'.About W s g.state tenant' id' ∧ (tenant = tenant' ∧ id = id' → n ≠ n') := by
  have htracked := Pool.Sound.tracked (serve_bounds hcat)
    (arises_start (W := W) hs) rfl (fun r t ht hst => serve_commits ht hst r) h
  have hfirst : ∀ {r r' : CollectionRequest} {n n' : ℤ}, r.replaces = some (e, n) →
      r'.replaces = some (e, n') →
      Pool.After (Follows W) (r.Takes W s) (r'.Takes W s) g.state →
      ∃ tenant id tenant' id', r.About W s g.state tenant id ∧
        r'.About W s g.state tenant' id' ∧ (tenant = tenant' ∧ id = id' → n < n') := by
    rintro r r' n n' hr hr' ⟨u, v, u', v', ⟨huv, hv, e₁, n₁, tenant, id, h₁, habout, -, hafter⟩,
      hvu, ⟨huv', -, e₂, n₂, tenant', id', h₂, habout', hbefore, -⟩, hnow⟩
    obtain ⟨rfl, rfl⟩ := Prod.mk.inj (Option.some.inj (hr.symm.trans h₁))
    obtain ⟨rfl, rfl⟩ := Prod.mk.inj (Option.some.inj (hr'.symm.trans h₂))
    have hnow' := huv'.trans hnow
    refine ⟨tenant, id, tenant', id', habout.later ((huv.trans hvu).trans hnow'),
      habout'.later hnow', ?_⟩
    rintro ⟨rfl, rfl⟩
    have hle := e.revision_le hv hvu tenant id
    omega
  have hcommitted : ∀ {r : CollectionRequest} {reply : CollectionReply} {n : ℤ},
      r.replaces = some (e, n) → reply.isOk = true →
      ¬ (Shared.done reply : Shared (CollectionDb ω) CollectionReply).Commits (Follows W)
        (r.Takes W s) (fun reply => r.replaces.isSome = true ∧ reply.isOk = true) g.state :=
    fun hr hok hpending => hpending ⟨by rw [hr]; rfl, hok⟩
  rcases ((htracked.pairs i j r r' _ _ hij hi hj).resolve_left (hcommitted hr hok)).resolve_left
    (hcommitted hr' hok') with hbefore | hbefore
  · obtain ⟨tenant, id, tenant', id', habout, habout', hlt⟩ := hfirst hr hr' hbefore
    exact ⟨tenant, id, tenant', id', habout, habout', fun heq => (hlt heq).ne⟩
  · obtain ⟨tenant', id', tenant, id, habout', habout, hlt⟩ := hfirst hr' hr hbefore
    exact ⟨tenant, id, tenant', id', habout, habout', fun heq => (hlt ⟨heq.1.symm, heq.2.symm⟩).ne'⟩

end Edits

namespace Desk

def put : CollectionRequest := .putVocabulary "key" "c" ⟨0, true, none, none, [["sky", "heaven"]]⟩

def patch : CollectionRequest := .patchVocabulary "key" "c" ⟨1, some false, none, none⟩

/-- An edit has come in and a second one after it, and both have been answered. -/
def edited : Calls := Pool.play serve ⟨db, []⟩ (alone put 0)

def twice : Calls := edited.play serve (alone patch 1)

/-- Both edits are accepted. -/
theorem edits_accepted :
    (edited.calls[0]?.any fun c => settled CollectionReply.isOk c.2) = true ∧
    (twice.calls[0]?.any fun c => settled CollectionReply.isOk c.2) = true ∧
    (twice.calls[1]?.any fun c => settled CollectionReply.isOk c.2) = true ∧
    edited.calls.length = 1 ∧ twice.calls.length = 2 := by
  decide +kernel

/-- The worker comes by after the edits. -/
def sweeping : Calls := (twice.step serve (.start (.automaticBatch "t" fun _ => 10))).play serve
  (List.replicate 3 (.advance 2))

theorem arises_edited : Arises Eq db edited := run _ _ (outside_alone _ _)

theorem run_twice : Pool.Run serve (Elsewhere Eq) edited twice := run edited _ (outside_alone _ _)

theorem arises_twice : Arises Eq db twice := arises_edited.trans run_twice

end Desk

section
open Desk

theorem automatic_over_runs_desk : VocabularyTable.Spares sweeping.state.vocabularies
    (sweeping.advance 2).state.vocabularies := by
  have hstart : Pool.Run serve (Elsewhere Eq) twice
      (twice.step serve (.start (.automaticBatch "t" fun _ => 10))) :=
    .single ⟨.start _, by simp, rfl⟩
  have hrun : Pool.Run serve (Elsewhere Eq) _ sweeping :=
    run (twice.step serve (.start (.automaticBatch "t" fun _ => 10))) _ (by simp)
  obtain ⟨p, hp, -⟩ := (arises_twice.sound catalogue db_sound).started (serve_bounds catalogue) hrun
    (serve_ensures catalogue (arises_twice.sound catalogue db_sound).state _)
  obtain ⟨-, -, -, -, hcount⟩ := edits_accepted
  rw [hcount] at hp
  exact automatic_over_runs catalogue db_sound (arises_twice.trans (hstart.trans hrun)) hp

theorem no_edit_lost_desk : ∃ tenant id tenant' id', put.About Eq db twice.state tenant id ∧
    patch.About Eq db twice.state tenant' id' ∧
      (tenant = tenant' ∧ id = id' → (0 : ℤ) ≠ 1) := by
  have hput := (run_alone ⟨db, []⟩ put 0).trans run_twice
  have hpatch := run_alone edited patch 1
  obtain ⟨-, hfirst, hsecond, hcount, -⟩ := edits_accepted
  obtain ⟨reply, hi, hok⟩ := answered (b := CollectionReply.isOk) (g := ⟨db, []⟩) .refl hput hfirst
  rw [← hcount] at hsecond
  obtain ⟨reply', hj, hok'⟩ := answered (b := CollectionReply.isOk) arises_edited hpatch hsecond
  have hne : (0 : ℕ) ≠ edited.calls.length := by simp [hcount]
  exact no_edit_lost catalogue db_sound arises_twice hne hi hj hok hok'
    (e := .vocabulary) rfl rfl

end

section Answered
variable {ω : Type} [QueryWorld ω] [CalendarText] [AnswerText] [Unicode] [GroupsText]
  {W : ω → ω → Prop} [IsPreorder ω W] {s : CollectionDb ω}
  {g g' : Pool (CollectionDb ω) CollectionRequest CollectionReply}

/-- A query of a run that has been answered: what it says held at one moment of the run, after
its start. -/
theorem query_over_runs (hcat : Catalogue W) (hs : s.Sound) (h : Arises W s g) (token : String)
    (req : CollectionQuery) (completions : Completions)
    (hrun : Pool.Run serve (Elsewhere W)
      (g.step serve (.start (.query token req completions))) g')
    {answer : Result CollectionQueryResponse}
    (hanswer : g'.calls[g.calls.length]? = some (.query token req completions,
      .done (.query answer))) : ReleasedAt W token req g.state answer g'.state := by
  have hr : (serve (.query token req completions)).Ensures (Follows W) Eq
      (fun reply t => ∀ answer, reply = .query answer → ReleasedAt W token req g.state answer t)
      g.state := by
    refine Ensures.map ((queryCollections_ensures hcat (h.sound hcat hs).state token req
      completions.perm).weaken (fun _ _ h => h) ?_)
    rintro answer t h _ ⟨⟩
    exact h
  exact h.answered hcat hs hr hrun hanswer answer rfl

end Answered

namespace Desk

def source : AnswerSource := ⟨"p1", "m", "v1", "s", "a.md", hash, "the sky is blue"⟩

def asked : AnswerRequest := ⟨"What is the sky?", [source], none, none⟩

def ask : CollectionQuery := ⟨"What is the sky?", ["c"], none⟩

def inOrder : Completions := ⟨id, fun _ => .refl _⟩

/-- A policy is in force. -/
def governed : Calls := Pool.play serve ⟨db, []⟩
  (alone (replace 0 [publication "p1" "2024-01-01" "approved"]) 0)

theorem arises_governed : Arises Eq db governed := run _ _ (outside_alone _ _)

def isAnswer : CollectionReply → Bool
  | .answer (.ok _) => true
  | _ => false

def isReferring : CollectionReply → Bool
  | .query (.ok response) => !response.answer.references.isEmpty
  | _ => false

def isPublication : CollectionReply → Bool
  | .publication (.ok _) => true
  | _ => false

/-- Whether a request that comes in under the policy is answered so. -/
def meets (r : CollectionRequest) (b : CollectionReply → Bool) : Bool :=
  (governed.play serve (alone r 1)).calls[governed.calls.length]?.any fun c => settled b c.2

/-- The answer, the query and the publication are all granted. -/
theorem requests_met : meets (.answer "key" asked) isAnswer = true ∧
    meets (.query "key" ask inOrder) isReferring = true ∧
    meets (.authorizePublication "key" "c" "p1" none) isPublication = true := by
  decide +kernel

end Desk

section
open Desk

theorem query_over_runs_desk : ∃ response : CollectionQueryResponse,
    response.answer.references ≠ [] ∧ ReleasedAt Eq "key" ask governed.state (.ok response)
      (governed.play serve (alone (.query "key" ask inOrder) 1)).state := by
  have hrun := run_alone governed (.query "key" ask inOrder) 1
  obtain ⟨reply, hreply, hok⟩ := answered (b := isReferring) arises_governed hrun requests_met.2.1
  cases reply with
  | query result =>
    cases result with
    | ok response =>
      refine ⟨response, fun hnil => ?_, query_over_runs catalogue db_sound arises_governed "key" ask
        inOrder hrun hreply⟩
      simp [isReferring, hnil] at hok
    | error e => cases hok
  | _ => cases hok

end

end Munarium
