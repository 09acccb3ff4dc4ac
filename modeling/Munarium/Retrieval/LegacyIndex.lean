import Munarium.Lib.GuardedRun
import Munarium.Retrieval.IndexVersions

/-! The legacy, shape-scoped index: its build, its cutover, and which version is active per shape
along a run. A cutover clears by shape and sets by id; the two agree when the id is the
shape's own. -/
namespace Munarium

structure LegacyStore extends IndexStore where
  sources : SourceTable := {}

/-- The ids of the shape's active legacy versions. -/
def activeFor (shapeRef : String) (versions : List IndexVersionRow) : List String :=
  (versions.filter fun v => v.shapeRef == shapeRef && v.active && v.collectionId == none).map
    IndexVersionRow.id

/-- A legacy version of this id is a version of this shape. -/
def OwnVersion (shapeRef indexId : String) (versions : List IndexVersionRow) : Prop :=
  ∀ v ∈ versions, v.id = indexId → v.collectionId = none → v.shapeRef = shapeRef

/-- No other shape's active version changes, and the shape has one after an activation. -/
def RightCutover (shapeRef : String) (activates : Bool)
    (versions versions' : List IndexVersionRow) : Prop :=
  (∀ other, other ≠ shapeRef → activeFor other versions' = activeFor other versions) ∧
    if activates then activeFor shapeRef versions' ≠ []
    else activeFor shapeRef versions' = activeFor shapeRef versions

namespace LegacyStore

def shapeRows (shapeRef : String) (s : LegacyStore) : List SourceRow :=
  s.sources.rows.values.filter fun row => row.shapeRef == some shapeRef

/-- A call, or a change of the sources between calls. -/
inductive Call where
  | sources (t : SourceTable)
  | build (shapeRef : String) (b : BuildCall)
  | activate (shapeRef indexId : String)

section
variable [Sha256]

def indexId (shapeRef : String) (extractors : List ExtractorKind) (s : LegacyStore) : String :=
  rowsIndexId (.shape shapeRef) extractors (s.shapeRows shapeRef)

/-- The id that a call activates is a version of the shape that it names. -/
def OwnTarget (s : LegacyStore) : Call → Prop
  | .sources _ => True
  | .build shapeRef b =>
      b.activate → OwnVersion shapeRef (s.indexId shapeRef b.extractors) s.versions
  | .activate shapeRef id => OwnVersion shapeRef id s.versions

variable [Extraction]

def buildIndex (tenant shapeRef : String) (b : BuildCall) (s : LegacyStore) :
    Result IndexVersionRow × LegacyStore :=
  let id := s.indexId shapeRef b.extractors
  match s.ensureVersion tenant s.sources (.shape shapeRef) (s.shapeRows shapeRef) b with
  | .error e => (.error e, s)
  | .ok index =>
      let s' := { s with toIndexStore := index }
      if b.activate then
        match activateIndex shapeRef id s'.versions with
        | .error e => (.error e, s')
        | .ok versions => (indexVersionById id versions, { s' with versions })
      else (indexVersionById id s'.versions, s')

/-- The store after a call. A refused activation rolls back. -/
def step (tenant : String) (s : LegacyStore) : Call → LegacyStore
  | .sources t => { s with sources := t }
  | .build shapeRef b => (s.buildIndex tenant shapeRef b).2
  | .activate shapeRef id =>
      match activateIndex shapeRef id s.versions with
      | .error _ => s
      | .ok versions => { s with versions }

end
end LegacyStore

section Cutover
variable {shapeRef indexId other : String} {versions versions' : List IndexVersionRow}

theorem activeFor_marks (shapeRef : String) (s : IndexStore) :
    activeFor shapeRef s.marks = activeFor shapeRef s.versions := by
  rw [activeFor, IndexStore.marks, List.filter_map, List.map_map]
  rfl

theorem activeFor_append_inactive {v : IndexVersionRow} (h : v.active = false) :
    activeFor shapeRef (versions ++ [v]) = activeFor shapeRef versions := by
  rw [activeFor, List.filter_append]
  simp [h, activeFor]

/-- After a cutover the shape's active versions are its own of the named id. -/
theorem activeFor_activateIndex_self
    (h : activateIndex shapeRef indexId versions = .ok versions') :
    activeFor shapeRef versions' = (versions.filter fun v =>
      v.shapeRef == shapeRef && v.id == indexId && v.collectionId == none).map
        IndexVersionRow.id := by
  rw [(activateIndex_eq_ok h).2, activeFor, List.filter_map, List.map_map]
  have hset : ∀ v ∈ versions, ((fun v : IndexVersionRow =>
      v.shapeRef == shapeRef && v.active && v.collectionId == none) ∘ fun v => { v with
        active := (v.id == indexId && v.collectionId == none) ||
          (v.active && !(v.shapeRef == shapeRef && v.active && v.collectionId == none)) }) v =
      (v.shapeRef == shapeRef && v.id == indexId && v.collectionId == none) := by
    intro v _
    simp only [Function.comp_apply]
    cases v.shapeRef == shapeRef <;> cases v.active <;> cases v.id == indexId <;>
      cases v.collectionId == none <;> rfl
  rw [List.filter_congr hset]
  rfl

/-- A cutover to the shape's own version leaves the other shapes alone. -/
theorem activeFor_activateIndex_other
    (h : activateIndex shapeRef indexId versions = .ok versions') (hne : other ≠ shapeRef)
    (hown : OwnVersion shapeRef indexId versions) :
    activeFor other versions' = activeFor other versions := by
  rw [(activateIndex_eq_ok h).2, activeFor, List.filter_map, List.map_map]
  have hkept : ∀ v ∈ versions, ((fun v : IndexVersionRow =>
      v.shapeRef == other && v.active && v.collectionId == none) ∘ fun v => { v with
        active := (v.id == indexId && v.collectionId == none) ||
          (v.active && !(v.shapeRef == shapeRef && v.active && v.collectionId == none)) }) v =
      (v.shapeRef == other && v.active && v.collectionId == none) := by
    intro v hv
    simp only [Function.comp_apply]
    by_cases hother : v.shapeRef = other
    · have hshape : (v.shapeRef == shapeRef) = false :=
        beq_eq_false_iff_ne.mpr fun heq => hne (hother.symm.trans heq)
      have hunnamed : (v.id == indexId && v.collectionId == none) = false := by
        rw [Bool.and_eq_false_iff, beq_eq_false_iff_ne, beq_eq_false_iff_ne,
          ← not_and_or]
        rintro ⟨hid, hnone⟩
        exact hne (hother.symm.trans (hown v hv hid hnone))
      rw [hshape, hunnamed, Bool.false_or, Bool.false_and, Bool.false_and, Bool.not_false,
        Bool.and_true]
    · rw [beq_eq_false_iff_ne.mpr hother, Bool.false_and, Bool.false_and, Bool.false_and,
        Bool.false_and]
  rw [List.filter_congr hkept]
  rfl

theorem ownVersion_marks (shapeRef indexId : String) (s : IndexStore) :
    OwnVersion shapeRef indexId s.marks ↔ OwnVersion shapeRef indexId s.versions := by
  simp [OwnVersion, IndexStore.marks]

theorem length_filter_id_le_one (indexId : String)
    (hids : (versions.map IndexVersionRow.id).Nodup) {p : IndexVersionRow → Bool}
    (hp : ∀ v, p v → v.id = indexId) :
    ((versions.filter p).map IndexVersionRow.id).length ≤ 1 := by
  have hnodup := hids.sublist (List.filter_sublist (p := p).map IndexVersionRow.id)
  have hsame : (versions.filter p).map IndexVersionRow.id =
      List.replicate ((versions.filter p).map IndexVersionRow.id).length indexId := by
    rw [List.eq_replicate_iff]
    refine ⟨rfl, ?_⟩
    intro id hid
    obtain ⟨v, hv, rfl⟩ := List.mem_map.mp hid
    exact hp v (List.of_mem_filter hv)
  rw [hsame] at hnodup
  exact List.nodup_replicate.mp hnodup

theorem length_activeFor_activateIndex_self
    (h : activateIndex shapeRef indexId versions = .ok versions')
    (hids : (versions.map IndexVersionRow.id).Nodup) :
    (activeFor shapeRef versions').length ≤ 1 := by
  rw [activeFor_activateIndex_self h]
  apply length_filter_id_le_one indexId hids
  intro v hv
  simp only [Bool.and_eq_true, beq_iff_eq] at hv
  exact hv.1.2

/-- An accepted activation is right exactly when the version is the shape's own. -/
theorem rightCutover_activateIndex
    (h : activateIndex shapeRef indexId versions = .ok versions')
    (hids : (versions.map IndexVersionRow.id).Nodup) :
    RightCutover shapeRef true versions versions' ↔ OwnVersion shapeRef indexId versions := by
  obtain ⟨⟨named, hnamed, hid, hlegacy⟩, -⟩ := activateIndex_eq_ok h
  constructor
  · rintro ⟨-, hactive⟩
    rw [if_pos rfl, activeFor_activateIndex_self h] at hactive
    obtain ⟨id, hmem⟩ := List.exists_mem_of_ne_nil _ hactive
    obtain ⟨own, hown, -⟩ := List.mem_map.mp hmem
    have hkept := List.of_mem_filter hown
    simp only [Bool.and_eq_true, beq_iff_eq] at hkept
    -- ids are distinct, so the shape's version of this id is the only one
    intro v hv hvid _
    have hsame := List.inj_on_of_nodup_map hids hv (List.mem_of_mem_filter hown)
      (hvid.trans hkept.1.2.symm)
    rw [hsame, hkept.1.1]
  · intro hown
    refine ⟨fun other hne => activeFor_activateIndex_other h hne hown, ?_⟩
    rw [if_pos rfl, activeFor_activateIndex_self h]
    apply List.ne_nil_of_mem (a := named.id)
    apply List.mem_map_of_mem
    simp [hnamed, hid, hlegacy, hown named hnamed hid hlegacy]

end Cutover

namespace LegacyStore

/-- Ids are distinct and every shape has at most one active version. -/
structure Sound (s : LegacyStore) : Prop where
  distinct : (s.versions.map IndexVersionRow.id).Nodup
  one : ∀ shapeRef, (activeFor shapeRef s.versions).length ≤ 1

theorem sound_empty : ({} : LegacyStore).Sound where
  distinct := List.nodup_nil
  one _ := by simp [activeFor]

theorem ids_marks (s : IndexStore) :
    s.marks.map IndexVersionRow.id = s.versions.map IndexVersionRow.id := by
  rw [IndexStore.marks, List.map_map]
  rfl

theorem ids_activateIndex {shapeRef indexId : String} {versions versions' : List IndexVersionRow}
    (h : activateIndex shapeRef indexId versions = .ok versions') :
    versions'.map IndexVersionRow.id = versions.map IndexVersionRow.id := by
  rw [(activateIndex_eq_ok h).2, List.map_map]
  rfl

/-- An activation of the shape's own version keeps a sound table. -/
theorem Sound.activate {s : LegacyStore} (hs : s.Sound) {shapeRef indexId : String}
    {versions : List IndexVersionRow}
    (h : activateIndex shapeRef indexId s.versions = .ok versions)
    (hown : OwnVersion shapeRef indexId s.versions) :
    Sound { s with versions } where
  distinct := by
    show (versions.map IndexVersionRow.id).Nodup
    rw [ids_activateIndex h]
    exact hs.distinct
  one other := by
    by_cases hother : other = shapeRef
    · rw [hother]
      exact length_activeFor_activateIndex_self h hs.distinct
    · show (activeFor other versions).length ≤ 1
      rw [activeFor_activateIndex_other h hother hown]
      exact hs.one other

section
variable [Sha256] [Extraction]

/-- Ensuring a version changes no active one, and adds at most a version of its shape. -/
theorem ensureVersion_active {tenant shapeRef : String} {b : BuildCall} {s : LegacyStore}
    {index : IndexStore} (hs : s.Sound)
    (h : s.ensureVersion tenant s.sources (.shape shapeRef) (s.shapeRows shapeRef) b =
      .ok index) :
    Sound { s with toIndexStore := index } ∧
      (∀ other, activeFor other index.versions = activeFor other s.versions) ∧
      (OwnVersion shapeRef (s.indexId shapeRef b.extractors) index.versions ↔
        OwnVersion shapeRef (s.indexId shapeRef b.extractors) s.versions) := by
  have hmarks : (index.marks.map IndexVersionRow.id).Nodup ∧
      (∀ other, activeFor other index.marks = activeFor other s.marks) ∧
      (OwnVersion shapeRef (s.indexId shapeRef b.extractors) index.marks ↔
        OwnVersion shapeRef (s.indexId shapeRef b.extractors) s.marks) := by
    obtain ⟨-, hensured⟩ := IndexStore.ensureVersion_ok h
    have hids : (s.marks.map IndexVersionRow.id).Nodup := by
      rw [ids_marks]
      exact hs.distinct
    cases hensured with
    | skipped _ hmarks _ =>
      rw [hmarks]
      exact ⟨hids, fun _ => rfl, Iff.rfl⟩
    | built hhas _ hmarks _ =>
      rw [IndexStore.hasVersion_iff] at hhas
      rw [hmarks]
      refine ⟨?_, fun other => activeFor_append_inactive rfl, ?_⟩
      · rw [List.map_append, List.map_singleton, List.nodup_append]
        refine ⟨hids, List.nodup_singleton _, ?_⟩
        intro id hid new hnew heq
        rw [heq, List.mem_singleton.mp hnew] at hid
        exact hhas hid
      · constructor
        · exact fun hown v hv => hown v (List.mem_append_left _ hv)
        · intro hown v hv
          rcases List.mem_append.mp hv with hv | hv
          · exact hown v hv
          · rw [List.mem_singleton.mp hv]
            exact fun _ _ => rfl
  rw [ids_marks, ownVersion_marks, ownVersion_marks] at hmarks
  obtain ⟨hdistinct, hactive, hown⟩ := hmarks
  have hsame (other : String) : activeFor other index.versions = activeFor other s.versions := by
    rw [← activeFor_marks, ← activeFor_marks, hactive other]
  exact ⟨⟨hdistinct, fun other => by
    show (activeFor other index.versions).length ≤ 1
    rw [hsame]
    exact hs.one other⟩, hsame, hown⟩

/-- A build ends in its error, in the ensured version, or in that version's cutover. -/
theorem buildIndex_cases (tenant shapeRef : String) (b : BuildCall) (s : LegacyStore) :
    (∃ e, s.buildIndex tenant shapeRef b = (.error e, s)) ∨
      ∃ index, s.ensureVersion tenant s.sources (.shape shapeRef) (s.shapeRows shapeRef) b =
          .ok index ∧
        ((b.activate = false ∧
            (s.buildIndex tenant shapeRef b).2 = { s with toIndexStore := index }) ∨
          (b.activate = true ∧ ∃ e, s.buildIndex tenant shapeRef b =
            (.error e, { s with toIndexStore := index })) ∨
          b.activate = true ∧ ∃ versions,
            activateIndex shapeRef (s.indexId shapeRef b.extractors) index.versions =
              .ok versions ∧
            (s.buildIndex tenant shapeRef b).2 =
              { s with toIndexStore := { index with versions } }) := by
  rw [buildIndex]
  split
  · rename_i e _
    exact .inl ⟨e, rfl⟩
  · rename_i index hindex
    refine .inr ⟨index, hindex, ?_⟩
    simp only
    cases hact : b.activate with
    | false => exact .inl ⟨rfl, by simp⟩
    | true =>
      rw [if_pos rfl]
      split
      · rename_i e _
        exact .inr (.inl ⟨rfl, e, rfl⟩)
      · rename_i versions hversions
        exact .inr (.inr ⟨rfl, versions, hversions, rfl⟩)

theorem Sound.step {tenant : String} {s : LegacyStore} (hs : s.Sound) {call : Call}
    (hok : s.OwnTarget call) : (s.step tenant call).Sound := by
  cases call with
  | sources t => exact ⟨hs.distinct, hs.one⟩
  | activate shapeRef id =>
    simp only [LegacyStore.step]
    split
    · exact hs
    · rename_i versions hversions
      exact hs.activate hversions hok
  | build shapeRef b =>
    show (s.buildIndex tenant shapeRef b).2.Sound
    rcases s.buildIndex_cases tenant shapeRef b with
      ⟨e, he⟩ | ⟨index, hindex, ⟨-, hbuild⟩ | ⟨-, e, he⟩ | ⟨hact, versions, hversions, hbuild⟩⟩
    · rw [he]
      exact hs
    · rw [hbuild]
      exact (ensureVersion_active hs hindex).1
    · rw [he]
      exact (ensureVersion_active hs hindex).1
    · rw [hbuild]
      obtain ⟨hsound, -, hown⟩ := ensureVersion_active hs hindex
      exact hsound.activate hversions (hown.mpr (hok hact))

/-- An accepted build is right exactly when what it activates is the shape's own. -/
theorem rightCutover_buildIndex {tenant shapeRef : String} {b : BuildCall} {s : LegacyStore}
    (hs : s.Sound) {v : IndexVersionRow} (h : (s.buildIndex tenant shapeRef b).1 = .ok v) :
    RightCutover shapeRef b.activate s.versions (s.buildIndex tenant shapeRef b).2.versions ↔
      s.OwnTarget (.build shapeRef b) := by
  rcases s.buildIndex_cases tenant shapeRef b with
    ⟨e, he⟩ | ⟨index, hindex, ⟨hact, hbuild⟩ | ⟨-, e, he⟩ | ⟨hact, versions, hversions, hbuild⟩⟩
  · rw [he] at h
    cases h
  · obtain ⟨-, hsame, -⟩ := ensureVersion_active hs hindex
    rw [hbuild, hact]
    constructor
    · intro _ hactive
      exact absurd (hact.symm.trans hactive) (by decide)
    · intro _
      exact ⟨fun other _ => hsame other, by simpa using hsame shapeRef⟩
  · rw [he] at h
    cases h
  · obtain ⟨hsound, hsame, hown⟩ := ensureVersion_active hs hindex
    have hright := rightCutover_activateIndex hversions hsound.distinct
    rw [hbuild, hact]
    constructor
    · intro hcut _
      refine hown.mp (hright.mp ⟨fun other hne => ?_, hcut.2⟩)
      rw [hsame]
      exact hcut.1 other hne
    · intro hok
      obtain ⟨hother, hself⟩ := hright.mpr (hown.mpr (hok hact))
      refine ⟨fun other hne => ?_, hself⟩
      exact (hother other hne).trans (hsame other)

/-- In every run whose calls activate only versions of the shape they name, each shape has at
most one active version; and there an accepted call is right exactly when it does so. -/
theorem legacy_cutovers_right (tenant : String) {s : LegacyStore}
    (hreach : Reached (step tenant) OwnTarget {} s) :
    (∀ shapeRef, (activeFor shapeRef s.versions).length ≤ 1) ∧
      (∀ shapeRef id versions, activateIndex shapeRef id s.versions = .ok versions →
        (RightCutover shapeRef true s.versions versions ↔
          s.OwnTarget (.activate shapeRef id))) ∧
      ∀ shapeRef b v, (s.buildIndex tenant shapeRef b).1 = .ok v →
        (RightCutover shapeRef b.activate s.versions
          (s.buildIndex tenant shapeRef b).2.versions ↔ s.OwnTarget (.build shapeRef b)) := by
  have hs : s.Sound := hreach.invariant sound_empty fun _ _ hs hok => hs.step hok
  refine ⟨hs.one, ?_, ?_⟩
  · intro shapeRef id versions h
    exact rightCutover_activateIndex h hs.distinct
  · intro shapeRef b v h
    exact rightCutover_buildIndex hs h

end

section Runs

attribute [local instance] reversingSha256 asciiExtraction

/-- One source for each of two shapes; the second one's content varies. -/
def twoShapes (letter : UInt8) : SourceTable where
  rows := (SortedMap.empty.insert (sourceId "t" "a")
      ⟨sourceId "t" "a", "a", sha256Hex [97], "text/plain", some "s1@1"⟩).insert
    (sourceId "t" "b")
      ⟨sourceId "t" "b", "b", sha256Hex [letter], "text/plain", some "s2@1"⟩
  blobs := (SortedMap.empty.insert "t/a" [97]).insert "t/b" [letter]

def activatingBuild : BuildCall := ⟨[], 100, 0, true, 0⟩

theorem legacy_cutovers_right_once :
    (activeFor "s1@1" (step "t" (step "t" {} (.sources (twoShapes 97)))
      (.build "s1@1" activatingBuild)).versions).length ≤ 1 := by
  apply (legacy_cutovers_right "t" ?_).1
  apply Reached.next
  · exact Reached.next .start trivial
  · intro _ v hv
    cases hv

/-- Both shapes indexed, the second one twice. -/
def bothIndexed : LegacyStore :=
  [Call.sources (twoShapes 97), .build "s1@1" activatingBuild, .build "s2@1" activatingBuild,
    .sources (twoShapes 98), .build "s2@1" activatingBuild].foldl (step "t") {}

theorem activation_crosses_shapes :
    Reached (step "t") anyLabel {} bothIndexed ∧
      ∃ id versions, activateIndex "s1@1" id bothIndexed.versions = .ok versions ∧
        activeFor "s1@1" bothIndexed.versions ≠ [] ∧ activeFor "s1@1" versions = [] ∧
        (activeFor "s2@1" bothIndexed.versions).length = 1 ∧
        (activeFor "s2@1" versions).length = 2 := by
  obtain ⟨hrun, hbefore⟩ : (activateIndex "s1@1" "idx-31363a3437663232"
      bothIndexed.versions).map (fun versions =>
        (activeFor "s1@1" versions, (activeFor "s2@1" versions).length)) = .ok ([], 2) ∧
      activeFor "s1@1" bothIndexed.versions ≠ [] ∧
      (activeFor "s2@1" bothIndexed.versions).length = 1 := by decide +kernel
  refine ⟨Reached.of_labels _ _ _, "idx-31363a3437663232", ?_⟩
  cases hact : activateIndex "s1@1" "idx-31363a3437663232" bothIndexed.versions with
  | error e =>
    rw [hact] at hrun
    cases hrun
  | ok versions =>
    rw [hact] at hrun
    injection hrun with hrun
    injection hrun with hnone htwo
    exact ⟨versions, rfl, hbefore.1, hnone, hbefore.2, htwo⟩

end Runs
end LegacyStore
end Munarium
