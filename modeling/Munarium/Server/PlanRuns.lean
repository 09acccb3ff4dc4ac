import Munarium.Server.EvidenceHierarchy

/-! Which layers of a plan run, and when what they give is what the profile requires of them. -/
namespace Munarium

/-- A layer that runs, its position in the plan, and its block. -/
abbrev Ran := (EvidenceLayer × ℕ) × EvidenceBlock

/-- The layers that run, up to the first source that fails. -/
def consult (t : Turn) (intent : QueryIntent) :
    Bool → List (EvidenceLayer × ℕ) → List Ran × Option ApiError
  | _, [] => ([], none)
  | produced, entry :: rest =>
      if entry.1.requirement = .fallback ∧ produced = true then consult t intent produced rest
      else
        match t.answer intent entry.2 entry.1 with
        | .error e => ([], some e)
        | .ok a =>
            let (ran, e) := consult t intent (produced || !a.toBlock.isEmpty) rest
            ((entry, a.toBlock) :: ran, e)

/-- What the outcome of a plan records of the layers that ran. -/
structure Executed (plan : EvidencePlan) (ran : List Ran) (o : HierarchyOutcome) : Prop where
  order : (ran.map Prod.fst).Sublist plan.layers.zipIdx
  rule : ∀ entry ∈ plan.layers.zipIdx, entry ∈ ran.map Prod.fst ↔
    (entry.1.requirement = .fallback → ∀ r ∈ ran, r.1.2 < entry.2 → r.2.isEmpty = true)
  blocks : o.blocks = ran.map fun r => (r.1.1.name, r.2)
  outcomes : (o.decision.layers.map fun l => (l.layer, l.requirement, l.block)) =
    ran.map fun r => (r.1.1.name, r.1.1.requirement, r.2.kindStr)

/-- Required layers deliver, and no plane's layer is answered with documents. -/
structure Kept (r : Ran) : Prop where
  required : r.1.1.requirement = .required → r.2.isEmpty = false
  plane : r.1.1.sources.any isPlane = true → r.2.isDocumentHits = false

/-- The layers of a plan that run in a turn. -/
def ranOf (plan : EvidencePlan) (t : Turn) : List Ran :=
  (consult t plan.intent false plan.layers.zipIdx).1

/-- What a plan's outcome has to be. -/
structure Delivers (plan : EvidencePlan) (t : Turn) (o : HierarchyOutcome) : Prop where
  executed : Executed plan (ranOf plan t) o
  kept : ∀ r ∈ ranOf plan t, Kept r

/-- A source fails, a required layer is refused, or every layer that runs is kept. -/
def SourcesDeliver (plan : EvidencePlan) (t : Turn) : Prop :=
  (consult t plan.intent false plan.layers.zipIdx).2.isSome = true ∨
    (∃ r ∈ ranOf plan t, r.1.1.requirement = .required ∧ r.2.isRefusal = true) ∨
      ∀ r ∈ ranOf plan t, Kept r

section
variable {t : Turn} {intent : QueryIntent}

theorem consult_sublist (produced : Bool) (entries : List (EvidenceLayer × ℕ)) :
    ((consult t intent produced entries).1.map Prod.fst).Sublist entries := by
  induction entries generalizing produced with
  | nil => exact List.Sublist.slnil
  | cons entry rest ih =>
    unfold consult
    split_ifs with hskip
    · exact (ih produced).cons entry
    · split
      · exact List.nil_sublist _
      · rename_i a _
        exact (ih (produced || !a.toBlock.isEmpty)).cons_cons entry

/-- A fallback runs where nothing before it produced evidence, and every other layer runs. -/
theorem mem_consult_iff {produced : Bool} {entries : List (EvidenceLayer × ℕ)}
    (hsorted : entries.Pairwise fun a b => a.2 < b.2)
    (hnone : (consult t intent produced entries).2 = none) {entry : EvidenceLayer × ℕ}
    (hentry : entry ∈ entries) :
    entry ∈ (consult t intent produced entries).1.map Prod.fst ↔
      (entry.1.requirement = .fallback → produced = false ∧
        ∀ r ∈ (consult t intent produced entries).1, r.1.2 < entry.2 → r.2.isEmpty = true) := by
  induction entries generalizing produced with
  | nil => cases hentry
  | cons first rest ih =>
    obtain ⟨hfirst, hrest⟩ := List.pairwise_cons.mp hsorted
    have hlater {b : Bool} {r : Ran} (hr : r ∈ (consult t intent b rest).1) :
        first.2 < r.1.2 :=
      hfirst r.1 ((consult_sublist b rest).subset (List.mem_map_of_mem hr))
    unfold consult at hnone ⊢
    split_ifs at hnone ⊢ with hskip
    · rcases List.mem_cons.mp hentry with rfl | hin
      · constructor
        · intro hmem
          obtain ⟨r, hr, heq⟩ := List.mem_map.mp hmem
          have hlt := hlater hr
          rw [heq] at hlt
          omega
        · intro hrule
          have hfalse := (hrule hskip.1).1
          rw [hskip.2] at hfalse
          cases hfalse
      · exact ih hrest hnone hin
    · cases hanswer : t.answer intent first.2 first.1 with
      | error e =>
        rw [hanswer] at hnone
        cases hnone
      | ok a =>
        rw [hanswer] at hnone
        simp only [List.map_cons, List.mem_cons, forall_eq_or_imp]
        rcases List.mem_cons.mp hentry with rfl | hin
        · simp only [true_or, lt_self_iff_false, IsEmpty.forall_iff, true_and, true_iff]
          intro hfallback
          constructor
          · cases produced with
            | false => rfl
            | true => exact absurd ⟨hfallback, rfl⟩ hskip
          · intro r hr hlt
            have := hlater hr
            omega
        · have hlt : first.2 < entry.2 := hfirst entry hin
          have hne : entry ≠ first := by
            rintro rfl
            omega
          simp only [hne, false_or, ih hrest hnone hin, hlt, forall_const, Bool.or_eq_false_iff,
            Bool.not_eq_false', and_assoc]

/-- One layer that runs adds its block and its outcome. -/
theorem runLayer_ok {s : Progress} {layer : EvidenceLayer} {i : ℕ} {a : LayerAnswer}
    (hskip : ¬(layer.requirement = .fallback ∧ s.producedAny = true))
    (hanswer : t.answer intent i layer = .ok a) :
    ∃ s', runLayer t intent s layer i = (s', none) ∧
      s'.producedAny = (s.producedAny || !a.toBlock.isEmpty) ∧
      s'.blocks = s.blocks ++ [(layer.name, a.toBlock)] ∧
      s'.outcomes = s.outcomes ++ [Progress.outcomeOf layer a.toBlock (t.elapsedMs i)] := by
  rw [runLayer, if_neg hskip, hanswer]
  cases a <;> exact ⟨_, rfl, rfl, rfl, rfl⟩

/-- The loop gathers what the layers that run give. -/
theorem runLayers_eq (entries : List (EvidenceLayer × ℕ)) (s : Progress) :
    (runLayers t intent entries s).2 = (consult t intent s.producedAny entries).2 ∧
      (runLayers t intent entries s).1.blocks = s.blocks ++
        (consult t intent s.producedAny entries).1.map (fun r => (r.1.1.name, r.2)) ∧
      (runLayers t intent entries s).1.outcomes = s.outcomes ++
        (consult t intent s.producedAny entries).1.map
          fun r => Progress.outcomeOf r.1.1 r.2 (t.elapsedMs r.1.2) := by
  induction entries generalizing s with
  | nil => simp [runLayers, consult]
  | cons entry rest ih =>
    obtain ⟨layer, i⟩ := entry
    rw [runLayers, consult]
    by_cases hskip : layer.requirement = .fallback ∧ s.producedAny = true
    · rw [runLayer, if_pos hskip, if_pos hskip]
      exact ih s
    · rw [if_neg hskip]
      cases hanswer : t.answer intent i layer with
      | error e =>
        rw [runLayer, if_neg hskip, hanswer]
        simp [Progress.emit]
      | ok a =>
        obtain ⟨s', hrun, hproduced, hblocks, houtcomes⟩ := runLayer_ok hskip hanswer
        obtain ⟨herror, hb, ho⟩ := ih s'
        rw [hproduced] at herror hb ho
        rw [hrun]
        refine ⟨herror, ?_, ?_⟩
        · rw [hb, hblocks, List.append_assoc]
          rfl
        · rw [ho, houtcomes, List.append_assoc]
          rfl

end

theorem zipIdx_sorted (layers : List EvidenceLayer) :
    layers.zipIdx.Pairwise fun a b => a.2 < b.2 := by
  have h : (List.range' 0 layers.length).Pairwise (· < ·) := List.pairwise_lt_range'
  rw [← List.zipIdx_map_snd] at h
  exact List.pairwise_map.mp h

/-- The required layer that failed is one whose block is a refusal. -/
theorem requiredLayerFailed_isSome (plan : EvidencePlan) {s : Progress} {ran : List Ran}
    {f : ℕ → ℕ}
    (h : s.outcomes = ran.map fun r => Progress.outcomeOf r.1.1 r.2 (f r.1.2)) :
    (decisionOf plan s).requiredLayerFailed.isSome = true ↔
      ∃ r ∈ ran, r.1.1.requirement = .required ∧ r.2.isRefusal = true := by
  simp only [EvidenceHierarchyDecision.requiredLayerFailed, decisionOf, h, List.find?_isSome,
    List.mem_map, Bool.and_eq_true, beq_iff_eq, exists_exists_and_eq_and, Progress.outcomeOf,
    EvidenceBlock.kindStr_eq_refusal]

theorem runLayers_started (plan : EvidencePlan) (t : Turn) :
    (runLayers t plan.intent plan.layers.zipIdx (started plan)).2 =
        (consult t plan.intent false plan.layers.zipIdx).2 ∧
      (runLayers t plan.intent plan.layers.zipIdx (started plan)).1.blocks =
        (ranOf plan t).map (fun r => (r.1.1.name, r.2)) ∧
      (runLayers t plan.intent plan.layers.zipIdx (started plan)).1.outcomes =
        (ranOf plan t).map fun r => Progress.outcomeOf r.1.1 r.2 (t.elapsedMs r.1.2) :=
  runLayers_eq plan.layers.zipIdx (started plan)

/-- When a plan has an outcome, and what it then records. -/
theorem executePlan_spec (plan : EvidencePlan) (t : Turn) :
    ((∃ o, (executePlan plan t).2 = .ok o) ↔
      (consult t plan.intent false plan.layers.zipIdx).2 = none ∧
        ¬ ∃ r ∈ ranOf plan t, r.1.1.requirement = .required ∧ r.2.isRefusal = true) ∧
      ∀ o, (executePlan plan t).2 = .ok o → Executed plan (ranOf plan t) o := by
  have hrun := runLayers_started plan t
  unfold executePlan
  generalize runLayers t plan.intent plan.layers.zipIdx (started plan) = out at hrun
  obtain ⟨herror, hblocks, houtcomes⟩ := hrun
  obtain ⟨s, e⟩ := out
  simp only at herror hblocks houtcomes
  have hfailed := requiredLayerFailed_isSome plan houtcomes
  cases e with
  | some e => simp [conclude, ← herror]
  | none =>
    rw [← herror]
    simp only [conclude, true_and]
    cases hreq : (decisionOf plan s).requiredLayerFailed with
    | some failed =>
      rw [hreq] at hfailed
      refine ⟨⟨?_, ?_⟩, ?_⟩
      · rintro ⟨o, ho⟩
        cases ho
      · intro hno
        exact absurd (hfailed.mp rfl) hno
      · intro o ho
        cases ho
    | none =>
      rw [hreq] at hfailed
      refine ⟨⟨?_, fun _ => ⟨_, rfl⟩⟩, ?_⟩
      · rintro - hex
        cases hfailed.mpr hex
      · intro o ho
        cases ho
        refine ⟨consult_sublist false _, ?_, hblocks, ?_⟩
        · intro entry hentry
          have hrule := mem_consult_iff (zipIdx_sorted plan.layers) herror.symm hentry
          simp only [true_and] at hrule
          exact hrule
        · simp only [decisionOf, houtcomes, List.map_map]
          rfl

/-- A provider with evidence of its own: it is not the document path, and it answers with no
documents. -/
structure Structured (p : EvidenceProvider) : Prop where
  id_ne : p.id ≠ "documents"
  blocks : ∀ i layer intent b, p.fetch i layer intent = .ok b → b.isDocumentHits = false

theorem structured_matrix [FloatText] (p : MatrixProvider) (calls : PlaneCalls) :
    Structured (p.provider calls) where
  id_ne := (by decide : MatrixProvider.id ≠ "documents")
  blocks i layer intent b h := by
    cases h
    exact MatrixProvider.fetch_not_documentHits _ _ _ _ _ _

theorem structured_facts (p : FactProvider) : Structured p.provider where
  id_ne := (by decide : FactProvider.id ≠ "documents")
  blocks _ _ _ _ h := FactProvider.fetch_not_documentHits h

theorem answer_plane {t : Turn} {intent : QueryIntent} {i : ℕ} {layer : EvidenceLayer}
    {a : LayerAnswer} (hproviders : ∀ p ∈ t.providers, Structured p)
    (hplane : layer.sources.any isPlane = true) (h : t.answer intent i layer = .ok a) :
    a.toBlock.isDocumentHits = false := by
  unfold Turn.answer at h
  split at h
  · rw [if_pos hplane] at h
    cases h
    rfl
  · rename_i p hmatched
    have hp := hproviders p (List.mem_of_find?_eq_some hmatched)
    rw [if_pos hp.id_ne] at h
    split at h
    · rename_i b hfetch
      cases h
      exact hp.blocks _ _ _ b hfetch
    · cases h

theorem answer_of_mem_consult {t : Turn} {intent : QueryIntent} {r : Ran} {produced : Bool}
    {entries : List (EvidenceLayer × ℕ)} (h : r ∈ (consult t intent produced entries).1) :
    ∃ a, t.answer intent r.1.2 r.1.1 = .ok a ∧ r.2 = a.toBlock := by
  induction entries generalizing produced with
  | nil => cases h
  | cons entry rest ih =>
    unfold consult at h
    split_ifs at h with hskip
    · exact ih h
    · split at h
      · cases h
      · rename_i a hanswer
        rcases List.mem_cons.mp h with rfl | hrest
        · exact ⟨a, hanswer, rfl⟩
        · exact ih hrest

/-- With the providers of a turn, only what required layers give is in question. -/
theorem kept_of_structured {plan : EvidencePlan} {t : Turn}
    (hproviders : ∀ p ∈ t.providers, Structured p) {r : Ran} (hr : r ∈ ranOf plan t)
    (hrequired : r.1.1.requirement = .required → r.2.isEmpty = false) : Kept r := by
  refine ⟨hrequired, fun hplane => ?_⟩
  obtain ⟨a, hanswer, hblock⟩ := answer_of_mem_consult hr
  rw [hblock]
  exact answer_plane hproviders hplane hanswer

/-- A required layer over a collection, and a search that finds nothing. -/
def requiredDocs : EvidencePlan :=
  ⟨"p", ⟨"q", none, true, SortedMap.empty⟩,
    [⟨"docs", ["contracts"], .required, .primary, none, false, none⟩], none,
    "preserve_and_disclose"⟩

def emptySearch : Turn := ⟨[], fun _ _ => .ok {}, fun _ => 0⟩

end Munarium
