import Munarium.Server.CollectionWrites

/-! What the requests on vocabularies keep to while others run: an edit changes what it names in
the revision it names, and an automatic generation leaves alone what is written by hand. -/
namespace Munarium

open Shared CollectionDb VocabularyTable

/-- A change that looks at contents only. -/
def ReadsContent (change : Vocabulary → Vocabulary) : Prop :=
  ∀ a b : Vocabulary, a.content = b.content → (change a).content = (change b).content

theorem readsContent_update (body : VocabularyUpdate) : ReadsContent body.apply := by
  intro a b h
  cases a
  cases b
  simp only [Vocabulary.content, Vocabulary.mk.injEq, true_and] at h
  obtain ⟨rfl, rfl, rfl, rfl, rfl, rfl, rfl⟩ := h
  simp only [VocabularyUpdate.apply]
  split_ifs
  · rfl
  · rfl

theorem readsContent_patch (body : VocabularyPatch) : ReadsContent body.apply := by
  intro a b h
  cases a
  cases b
  simp only [Vocabulary.content, Vocabulary.mk.injEq, true_and] at h
  obtain ⟨rfl, rfl, rfl, rfl, rfl, rfl, rfl⟩ := h
  cases hgroups : body.groups with
  | none => simp [VocabularyPatch.apply, Vocabulary.content, hgroups]
  | some groups => simp [VocabularyPatch.apply, Vocabulary.content, hgroups]

variable {ω α β : Type} [CollectionWorld ω] [CalendarText] {s : CollectionDb ω}
  {G : CollectionDb ω → CollectionDb ω → Prop} {Q : Result α → CollectionDb ω → Prop}

/-- A step within bounds that, where it has to, spares what is written by hand. -/
def Within (spare : Bool) (s t : CollectionDb ω) : Prop :=
  s.Writes t ∧ (spare = true → Spares s.vocabularies t.vocabularies)

omit [CollectionWorld ω] in
theorem Within.refl {spare : Bool} (s : CollectionDb ω) : Within spare s s :=
  ⟨.refl s, fun _ => .refl _⟩

omit [CollectionWorld ω] in
theorem within_setVocabularies {spare : Bool} {T : VocabularyTable}
    (hsound : VocabularyTable.Sound s.vocabularies T)
    (hspares : spare = true → Spares s.vocabularies T) : Within spare s (s.setVocabularies T) :=
  ⟨writes_setVocabularies s hsound, hspares⟩

/-- The row has reached a revision, and at that revision it is not written by hand. -/
def Unwritten (T : VocabularyTable) (tenant id : String) (revision : ℤ) : Prop :=
  ∃ row, T tenant id = some row ∧ revision ≤ row.revision ∧
    (row.revision = revision → row.vocabulary.origin ≠ "manual")

omit [CalendarText] in
theorem Unwritten.later {T T' : VocabularyTable} {tenant id : String} {revision : ℤ}
    (h : Unwritten T tenant id revision) (hgrows : Grows T T') :
    Unwritten T' tenant id revision := by
  obtain ⟨row, hrow, hle, horigin⟩ := h
  obtain ⟨row', hrow', hlater⟩ := hgrows _ _ _ hrow
  refine ⟨row', hrow', ?_, fun heq => ?_⟩
  · rcases hlater with hlt | ⟨heq, -⟩
    · omega
    · omega
  · rcases hlater with hlt | ⟨heq', hcontent⟩
    · omega
    · have hsame : row'.vocabulary.origin = row.vocabulary.origin := by
        simpa [Vocabulary.content] using congrArg Vocabulary.origin hcontent
      rw [hsame]
      exact horigin (by omega)

omit [CalendarText] in
/-- What an update conditional on such a revision touches is not written by hand. -/
theorem Unwritten.spares {T : VocabularyTable} {tenant id : String} {revision : ℤ}
    (h : Unwritten T tenant id revision) {cond : VocabularyRow → Bool}
    (hcond : ∀ row, cond row = true → row.revision = revision)
    (set : VocabularyRow → VocabularyRow) : Spares T (T.update tenant id cond set).2 := by
  obtain ⟨row, hrow, -, horigin⟩ := h
  refine spares_update fun row' hrow' hmet hmanual => ?_
  obtain rfl := Option.some.inj (hrow.symm.trans hrow')
  exact absurd hmanual (horigin (hcond row hmet))

section
variable [Unicode]

omit [CollectionWorld ω] in
theorem saveIn_writes (tenant id : String) (value : Vocabulary) (expected : ℤ)
    (s : CollectionDb ω) : s.Writes (saveIn tenant id value expected s).2 :=
  writes_setVocabularies s (sound_save value expected)

omit [CollectionWorld ω] [CalendarText] in
/-- Creating a row spares all there are; it is at its first revision then. -/
theorem saveIn_zero (tenant id : String) (value : Vocabulary) (s : CollectionDb ω) :
    Spares s.vocabularies (saveIn tenant id value 0 s).2.vocabularies ∧
      ∀ stored, (saveIn tenant id value 0 s).1 = .ok stored →
        stored = { value with revision := 1 } ∧
        (saveIn tenant id value 0 s).2.vocabularies tenant id = some { vocabulary := value } := by
  unfold saveIn
  rcases s.vocabularies.save_cases tenant id value 0 with ⟨e, h⟩ | ⟨revision, T, hstore, h⟩
  · rw [h]
    exact ⟨.refl _, fun _ hok => by cases hok⟩
  · rw [h]
    rcases s.vocabularies.store_cases tenant id value 0 with hs | ⟨-, hrow, hs⟩ | ⟨_, hzero, _⟩
    · rw [hs] at hstore
      cases hstore
    · rw [hs] at hstore
      obtain ⟨hrevision, rfl⟩ := Prod.mk.inj hstore
      obtain rfl := Option.some.inj hrevision
      have hchanges := s.vocabularies.changes_setRow tenant id { vocabulary := value }
      refine ⟨hchanges.spares fun row hrow' => by simp [hrow] at hrow', fun stored hok => ?_⟩
      exact ⟨(Except.ok.inj hok).symm, hchanges.here⟩
    · exact absurd rfl hzero

/-- One row goes from a revision to the next by a change of its content; nothing else moves. -/
structure Edited (change : Vocabulary → Vocabulary) (revision : ℤ) (tenant id : String)
    (s t : CollectionDb ω) : Prop where
  before : revisionAt s.vocabularies tenant id = revision
  after : revisionAt t.vocabularies tenant id = revision + 1
  content : contentAt t.vocabularies tenant id =
    (change (contentAt s.vocabularies tenant id)).content
  elsewhere : ∀ tenant' id', ¬ (tenant' = tenant ∧ id' = id) →
    t.vocabularies tenant' id' = s.vocabularies tenant' id'

omit [CollectionWorld ω] [CalendarText] in
/-- Storing over a revision takes just that row to the next one, or is refused. -/
theorem saveIn_edits {change : Vocabulary → Vocabulary} (hchange : ReadsContent change)
    (tenant id : String) (value : Vocabulary) (revision : ℤ) (s : CollectionDb ω) :
    (∃ e, saveIn tenant id (change value) revision s = (.error e, s)) ∨
      ∃ stored t, saveIn tenant id (change value) revision s = (.ok stored, t) ∧
        t.governance = s.governance ∧ revisionAt s.vocabularies tenant id = revision ∧
        revisionAt t.vocabularies tenant id = revision + 1 ∧
        (value.content = contentAt s.vocabularies tenant id →
          Edited change revision tenant id s t) := by
  unfold saveIn
  rcases s.vocabularies.save_cases tenant id (change value) revision with
    ⟨e, h⟩ | ⟨next, T, hstore, h⟩
  · rw [h]
    exact .inl ⟨e, rfl⟩
  · rw [h]
    right
    refine ⟨_, _, rfl, rfl, ?_⟩
    have edited : ∀ row', T = s.vocabularies.setRow tenant id row' →
        revisionAt s.vocabularies tenant id = revision → row'.revision = revision + 1 →
        row'.vocabulary = change value → revisionAt s.vocabularies tenant id = revision ∧
          revisionAt (s.setVocabularies T).vocabularies tenant id = revision + 1 ∧
          (value.content = contentAt s.vocabularies tenant id →
            Edited change revision tenant id s (s.setVocabularies T)) := by
      rintro row' rfl hbefore hafter hvocabulary
      have hchanges := s.vocabularies.changes_setRow tenant id row'
      have hrevision : revisionAt (s.vocabularies.setRow tenant id row') tenant id =
          revision + 1 := by simp [revisionAt, VocabularyTable.load, hchanges.here, hafter]
      refine ⟨hbefore, hrevision, fun hvalue => ⟨hbefore, hrevision, ?_, hchanges.elsewhere⟩⟩
      have hnew : contentAt (s.vocabularies.setRow tenant id row') tenant id =
          (change value).content := by
        simp [contentAt, VocabularyTable.load, hchanges.here, hvocabulary, Vocabulary.content]
      rw [setVocabularies_vocabularies, hnew]
      exact hchange _ _ hvalue
    rcases s.vocabularies.store_cases tenant id (change value) revision with
      hs | ⟨hzero, hrow, hs⟩ | ⟨row, -, hrow, hrevision, hs⟩
    · rw [hs] at hstore
      cases hstore
    · rw [hs] at hstore
      obtain ⟨-, rfl⟩ := Prod.mk.inj hstore
      exact edited _ rfl (by simp [revisionAt, VocabularyTable.load, hrow, hzero]) (by simp [hzero])
        rfl
    · rw [hs] at hstore
      obtain ⟨-, rfl⟩ := Prod.mk.inj hstore
      exact edited _ rfl (by simp [revisionAt, VocabularyTable.load, hrow, hrevision]) rfl rfl

omit [Unicode] in
theorem sampleDocuments_ensures {tenant : String} {characters : ℕ}
    {next : List SampledDocument → Shared (CollectionDb ω) (Result α)} (hG : ∀ t, G t t)
    (hQ : ∀ e t, Q (.error e) t)
    (h : ∀ t documents, s.Moves t → (next documents).Ensures Moves G Q t)
    (documents : List SampledDocument) (ids : List String) :
    (sampleDocuments tenant characters next documents ids).Ensures Moves G Q s := by
  induction ids generalizing documents s with
  | nil => exact h s documents (.refl s)
  | cons id rest ih =>
    apply ensures_read hG
    intro t ht
    apply onOk_ensures hQ
    rintro ⟨hash, text⟩ _
    exact ih (fun u ds hu => h u ds (ht.trans hu)) _

omit [Unicode] in
theorem recheckSources_ensures {tenant : String} {next : Shared (CollectionDb ω) (Result α)}
    (hG : ∀ t, G t t) (hQ : ∀ e t, Q (.error e) t)
    (h : ∀ t, s.Moves t → next.Ensures Moves G Q t) (documents : List SampledDocument) :
    (recheckSources tenant next documents).Ensures Moves G Q s := by
  induction documents generalizing s with
  | nil => exact h s (.refl s)
  | cons d rest ih =>
    apply ensures_read hG
    intro t ht
    apply onOk_ensures hQ
    intro hash _
    split_ifs
    · exact fun u _ => hQ _ u
    · exact ih fun u hu => h u (ht.trans hu)

variable [GroupsText] {automatic : Bool}

/-- The generation's own row may be replaced at its revision. -/
def MayReplace (automatic : Bool) (p : GenerationPlan) (s : CollectionDb ω) : Prop :=
  automatic = true → Unwritten s.vocabularies p.tenant p.id p.value.revision

omit [CollectionWorld ω] [Unicode] [GroupsText] in
theorem MayReplace.later {p : GenerationPlan} {t : CollectionDb ω} (h : MayReplace automatic p s)
    (hst : s.Moves t) : MayReplace automatic p t := fun ha => (h ha).later hst.2.1

omit [CollectionWorld ω] [Unicode] [GroupsText] in
theorem completeIn_within {p : GenerationPlan} (h : MayReplace automatic p s)
    (groups : List (List String)) : Within automatic s (completeIn p groups s).2 := by
  have hstate : (completeIn p groups s).2 = s.setVocabularies (s.vocabularies.complete p.tenant p.id
      p.value.revision p.lease (p.result groups)).2 := by
    unfold completeIn
    split
    · rename_i hcomplete
      rw [hcomplete]
    · rename_i hcomplete
      rw [hcomplete]
  rw [hstate]
  apply within_setVocabularies (sound_complete ..)
  intro ha
  exact (h ha).spares (fun row hcond => by simpa using (Bool.and_eq_true_iff.mp hcond).1) _

theorem generateUnder_ensures {p : GenerationPlan} (h : MayReplace automatic p s) :
    (generateUnder p).Ensures Moves (Within automatic) (fun _ _ => True) s := by
  have hQ : ∀ (e : KernelError) (t : CollectionDb ω),
      (fun (_ : Result Vocabulary) (_ : CollectionDb ω) => True) (.error e) t := fun _ _ => trivial
  apply sampleDocuments_ensures Within.refl hQ
  intro t documents ht
  split_ifs
  · exact fun _ _ => trivial
  apply ensures_read Within.refl
  intro u hu
  apply onOk_ensures hQ
  intro reply _
  apply onOk_ensures hQ
  intro groups _
  apply ensures_read Within.refl
  intro v hv
  apply onOk_ensures hQ
  intro config _
  split_ifs
  · exact fun _ _ => trivial
  apply ensures_read Within.refl
  intro w hw
  split_ifs
  · exact fun _ _ => trivial
  apply recheckSources_ensures Within.refl hQ
  intro x hx
  apply ensures_read Within.refl
  intro y hy
  apply onOk_ensures hQ
  intro info _
  split_ifs
  · exact fun _ _ => trivial
  apply ensures_read Within.refl
  intro z hz
  apply onOk_ensures hQ
  intro fingerprint _
  split_ifs
  · exact fun _ _ => trivial
  apply ensures_call
  intro l hl
  have hall := (((((((ht.trans hu).trans hv).trans hw).trans hx).trans hy).trans hz).trans hl)
  exact ⟨completeIn_within (h.later hall) groups, fun _ _ => trivial⟩

omit [CollectionWorld ω] [Unicode] [GroupsText] in
theorem settleGeneration_ensures {p : GenerationPlan} (h : MayReplace automatic p s)
    (answer : Result Vocabulary) :
    (settleGeneration p answer).Ensures Moves (Within automatic) (fun _ _ => True) s := by
  cases answer with
  | ok value => exact fun _ _ => trivial
  | error e =>
    intro t ht
    refine ⟨within_setVocabularies (sound_abandon ..) fun ha => ?_, fun _ _ => trivial⟩
    apply (h.later ht ha).spares
    exact fun row hcond => by simpa using (Bool.and_eq_true_iff.mp hcond).1

theorem claimAndGenerate_ensures {p : GenerationPlan} (h : MayReplace automatic p s) :
    (claimAndGenerate p).Ensures Moves (Within automatic) (fun _ _ => True) s := by
  apply ensures_read Within.refl
  intro t ht
  apply ensures_call
  intro u hu
  have hmay : MayReplace automatic p u := h.later (ht.trans hu)
  have hclaim : Within automatic u
      (claimIn { p with lease := CollectionWorld.newLease t.world } u).2 :=
    within_setVocabularies (sound_claim ..) fun ha =>
      (hmay ha).spares (fun row hcond => by simpa using (Bool.and_eq_true_iff.mp hcond).1) _
  refine ⟨hclaim, ?_⟩
  split_ifs
  · exact fun _ _ => trivial
  have hnow : MayReplace automatic { p with lease := CollectionWorld.newLease t.world }
      (claimIn { p with lease := CollectionWorld.newLease t.world } u).2 :=
    hmay.later hclaim.1.1
  apply Ensures.bind Moves.refl
  have hkept := (generateUnder_ensures hnow).kept (fun _ _ hi hr => hi.later hr)
    (fun _ _ hg => hg.1.1) hnow
  exact hkept.weaken (fun _ _ hg => hg) fun answer v hv => settleGeneration_ensures hv.2 answer

/-- A new row is not written by hand, or nothing of it is spared. -/
theorem ensureRow_ensures {p : GenerationPlan}
    (horigin : automatic = true → p.value.origin ≠ "manual")
    (h : p.value.revision ≠ 0 → MayReplace automatic p s) :
    (ensureRow p).Ensures Moves (Within automatic) (fun _ _ => True) s := by
  unfold ensureRow
  split_ifs with hzero
  · apply ensures_call
    intro t ht
    obtain ⟨hspares, hrow⟩ := saveIn_zero p.tenant p.id p.value t
    refine ⟨⟨saveIn_writes .., fun _ => hspares⟩, ?_⟩
    apply onOk_ensures fun _ _ => trivial
    intro stored hok
    obtain ⟨rfl, hstored⟩ := hrow stored hok
    apply claimAndGenerate_ensures
    exact fun ha => ⟨_, hstored, le_rfl, fun _ => horigin ha⟩
  · exact claimAndGenerate_ensures (h hzero)

omit [Unicode] [GroupsText] in
theorem checkProcessing_ensures {tenant provider : String}
    {governance : Option CollectionGovernance} {next : Shared (CollectionDb ω) (Result α)}
    (hG : ∀ t, G t t) (hQ : ∀ e t, Q (.error e) t)
    (h : ∀ t, s.Moves t → next.Ensures Moves G Q t) :
    (checkProcessing tenant provider governance next).Ensures Moves G Q s := by
  unfold checkProcessing
  split_ifs
  · exact fun t _ => hQ _ t
  · apply ensures_read hG
    intro t ht
    apply onOk_ensures hQ
    intro kind _
    split_ifs
    · exact fun u _ => hQ _ u
    · exact h t ht
  · exact h s (.refl s)

omit [CollectionWorld ω] [CalendarText] [Unicode] [GroupsText] in
/-- What a generation has read allows it to replace the row it has read. -/
theorem mayReplace_of_load {p : GenerationPlan} {now : ℤ}
    (hvalue : p.value = s.vocabularies.load now p.tenant p.id)
    (horigin : automatic = true → p.value.origin ≠ "manual") (hne : p.value.revision ≠ 0) :
    MayReplace automatic p s := by
  intro ha
  cases hrow : s.vocabularies p.tenant p.id with
  | none =>
    simp [hvalue, VocabularyTable.load, hrow] at hne
  | some row =>
    refine ⟨row, hrow, ?_, fun _ => ?_⟩
    · simp [hvalue, VocabularyTable.load, hrow]
    · simpa [hvalue, VocabularyTable.load, hrow] using horigin ha

/-- A generation stays within bounds, and an automatic one spares what is written by hand. -/
theorem generate_ensures (automatic : Bool) (s : CollectionDb ω) (tenant id : String)
    (expected : ℤ) (selected : List String) :
    (generate tenant id expected selected automatic).Ensures Moves (Within automatic)
      (fun _ _ => True) s := by
  have hQ : ∀ (e : KernelError) (t : CollectionDb ω),
      (fun (_ : Result Vocabulary) (_ : CollectionDb ω) => True) (.error e) t := fun _ _ => trivial
  apply ensures_read Within.refl
  intro t ht
  apply onOk_ensures hQ
  intro config _
  apply ensures_read Within.refl
  intro u hu
  apply checkProcessing_ensures Within.refl hQ
  intro v hv
  apply ensures_read Within.refl
  intro w hw
  apply onOk_ensures hQ
  intro fingerprint _
  apply loadVocabulary_ensures Within.refl hQ
  intro x hx
  split
  · exact fun _ _ => trivial
  rename_i hallowed
  split
  · exact fun _ _ => trivial
  extract_lets sampling
  apply onOk_ensures hQ
  intro _ _
  apply ensures_read Within.refl
  intro y hy
  apply onOk_ensures hQ
  intro found _
  split
  · exact fun _ _ => trivial
  extract_lets chosen
  generalize chosen = chosen
  split_ifs
  · exact fun _ _ => trivial
  have horigin : automatic = true →
      (x.vocabularies.load (CollectionWorld.now x.world) tenant id).origin ≠ "manual" := by
    rintro rfl
    simp only [Bool.true_and, Bool.not_eq_true', Bool.not_eq_false, generationAllowed,
      Bool.and_eq_true, bne_iff_ne] at hallowed
    exact hallowed.2
  apply ensureRow_ensures horigin
  exact fun hne => MayReplace.later (mayReplace_of_load rfl horigin hne) hy

theorem refresh_ensures (s : CollectionDb ω) (token name : String) (revision : ℤ)
    (sourceIds : List String) (steps : ℕ) :
    (refresh token name revision sourceIds steps).Ensures Moves Writes (fun _ _ => True) s := by
  have hQ : ∀ (e : KernelError) (t : CollectionDb ω),
      (fun (_ : Result Vocabulary) (_ : CollectionDb ω) => True) (.error e) t := fun _ _ => trivial
  apply authorized_ensures Writes.refl hQ
  intro t a info _
  apply Ensures.bind Moves.refl
  have hgenerate := (generate_ensures false t a.tenantId info.id revision sourceIds).cut
    steps
  refine hgenerate.weaken (fun _ _ hg => hg.1) fun answer u _ => ?_
  split
  · exact fun _ _ => trivial
  · exact fun _ _ => trivial
  · apply authorized_ensures Writes.refl hQ
    exact fun _ _ _ _ _ _ => trivial

theorem attemptGeneration_ensures {tenant id : String} {value : Vocabulary} {steps : ℕ}
    {next : Shared (CollectionDb ω) (Result Unit)}
    (h : ∀ t, s.Moves t → next.Ensures Moves (Within true) (fun _ _ => True) t) :
    (attemptGeneration tenant id value steps next).Ensures Moves (Within true)
      (fun _ _ => True) s := by
  intro t ht
  have hattempt : Within true t (attemptIn tenant id value.revision t) :=
    within_setVocabularies (sound_attempt ..) fun _ => spares_update fun _ _ _ _ => ⟨rfl, rfl⟩
  have hmark (u : CollectionDb ω) : Within true u (markFailedIn tenant id value.revision u) := by
    apply within_setVocabularies (sound_markFailed ..)
    refine fun _ => spares_update fun row _ hcond hmanual => ?_
    simp [hmanual] at hcond
  refine ⟨hattempt, ?_⟩
  -- whatever the generation answers, the batch goes on, perhaps after noting the failure
  have hgenerate : ∀ u, s.Moves u → ∀ k : Option (Result Vocabulary) → Shared (CollectionDb ω) _,
      (∀ answer, k answer = next ∨
        k answer = .step (markFailedIn tenant id value.revision) fun _ => next) →
      (((generate tenant id value.revision [] true).cut steps).bind k).Ensures Moves
        (Within true) (fun _ _ => True) u := by
    intro u hu k hk
    apply Ensures.bind Moves.refl
    have hcut := ((generate_ensures true u tenant id value.revision []).cut
      steps).kept
      (I := fun v => s.Moves v) (fun _ _ hi hr => hi.trans hr) (fun _ _ hg => hg.1.1) hu
    refine hcut.weaken (fun _ _ hg => hg) fun answer v hv => ?_
    obtain hnext | hfailed := hk answer
    · rw [hnext]
      exact h v hv.2
    · rw [hfailed]
      intro w hw
      exact ⟨hmark w, h _ ((hv.2.trans hw).trans (hmark w).1.1)⟩
  have hall := ht.trans hattempt.1.1
  dsimp only
  split_ifs
  · apply ensures_read Within.refl
    intro u hu
    apply onOk_ensures fun _ _ => trivial
    intro fingerprint _
    split_ifs
    · exact h u (hall.trans hu)
    · exact hgenerate u (hall.trans hu) _ fun answer => by split <;> simp
  · exact hgenerate _ hall _ fun answer => by split <;> simp

theorem generateEach_ensures (tenant : String) (steps : String → ℕ) (ids : List String)
    (s : CollectionDb ω) :
    (generateEach tenant steps ids).Ensures Moves (Within true) (fun _ _ => True) s := by
  have hQ : ∀ (e : KernelError) (t : CollectionDb ω),
      (fun (_ : Result Unit) (_ : CollectionDb ω) => True) (.error e) t := fun _ _ => trivial
  induction ids generalizing s with
  | nil => exact fun _ _ => trivial
  | cons id rest ih =>
    apply ensures_read Within.refl
    intro t _
    split_ifs
    · exact fun _ _ => trivial
    apply ensures_read Within.refl
    intro u _
    apply onOk_ensures hQ
    intro config _
    apply loadVocabulary_ensures Within.refl hQ
    intro v _
    split
    · exact ih v
    split
    · apply ensures_call
      intro w _
      refine ⟨⟨saveIn_writes .., fun _ => (saveIn_zero ..).1⟩, ?_⟩
      split
      · exact ih _
      · apply loadVocabulary_ensures Within.refl hQ
        exact fun x _ => attemptGeneration_ensures fun y _ => ih y
    · exact attemptGeneration_ensures fun w _ => ih w

/-- The worker stays within bounds and spares what is written by hand, whatever the others do
and wherever its timers drop a generation. -/
theorem automaticBatch_ensures (s : CollectionDb ω) (tenant : String) (steps : String → ℕ) :
    (automaticBatch tenant steps).Ensures Moves (Within true) (fun _ _ => True) s := by
  apply ensures_read Within.refl
  intro t _
  apply onOk_ensures fun _ _ => trivial
  exact fun ids _ => generateEach_ensures tenant steps ids t

end

end Munarium
