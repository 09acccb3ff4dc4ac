import Munarium.Lib.GuardedRun
import Munarium.Retrieval.CollectionIndex
import Munarium.Retrieval.IndexIdentity

/-! Histories of one collection: when a build that skips an existing version still serves the
chunks of the sources bound at that build. -/
namespace Munarium

namespace CollectionStore

theorem rows_get_of_mem_boundRows {s : CollectionStore} {row : SourceRow}
    (h : row ∈ s.boundRows) : ∃ id, s.sources.rows.get? id = some row := by
  obtain ⟨⟨id, row'⟩, hmem, rfl⟩ := List.mem_map.mp h
  exact ⟨id, SortedMap.mem_entries_iff.mp (List.mem_of_mem_filter hmem)⟩

/-- The versions' ids with the collection they belong to. -/
def owners (s : CollectionStore) : List (String × Option String) :=
  s.marks.map fun v => (v.id, v.collectionId)

theorem hasVersion_iff_owners {s : CollectionStore} {id : String} :
    s.hasVersion id ↔ id ∈ s.owners.map Prod.fst := by
  rw [IndexStore.hasVersion_iff, owners, List.map_map]
  rfl

theorem owners_eq (s : CollectionStore) :
    s.owners = s.versions.map fun v => (v.id, v.collectionId) := by
  rw [owners, IndexStore.marks, List.map_map]
  rfl

theorem mem_owners_of_mem_retiring {s : CollectionStore} {c : Collection} {keep : ℕ}
    {id : String} (h : id ∈ s.retiring c keep) : id ∈ s.owners.map Prod.fst := by
  obtain ⟨v, hv, rfl⟩ := List.mem_map.mp h
  have hsorted := (List.perm_insertionSort _ _).mem_iff.mp (List.mem_of_mem_drop hv)
  rw [owners_eq, List.map_map]
  exact List.mem_map.mpr ⟨v, List.mem_of_mem_filter hsorted, rfl⟩

end CollectionStore

section
variable [Sha256]

/-- A source row with its path's bytes. -/
def SourceTable.bound (tenant : String) (t : SourceTable) (row : SourceRow) : BoundSource where
  filename := row.filename
  mediaType := row.mediaType
  bytes := (t.blobs.get? (SourceKey.blobName ⟨tenant, row.filename, row.contentHash⟩)).getD []

theorem SourceTable.Coherent.bound {tenant : String} {t : SourceTable}
    (h : t.Coherent tenant) {id : String} {row : SourceRow} (hrow : t.rows.get? id = some row) :
    sourceId tenant (t.bound tenant row).filename = row.sourceId ∧
      (t.bound tenant row).contentHash = row.contentHash ∧
      ∃ k, SourceKey.create tenant row.filename row.contentHash = .ok k ∧
        t.get k = .ok (t.bound tenant row).bytes := by
  obtain ⟨k, bytes, hk, hget, hhash⟩ := h.describes id row hrow
  obtain ⟨hrowid, hid⟩ := h.id id row hrow
  have hbytes : (t.bound tenant row).bytes = bytes := by
    have hblob := get_eq_ok.mp hget
    rw [(SourceKey.create_eq_ok hk).1] at hblob
    simp [SourceTable.bound, hblob]
  refine ⟨hid.trans hrowid.symm, ?_, k, hk, hbytes ▸ hget⟩
  rw [BoundSource.contentHash, hbytes, hhash]

namespace CollectionStore

def boundSources (tenant : String) (s : CollectionStore) : List BoundSource :=
  s.boundRows.map (s.sources.bound tenant)

theorem boundSources_identity {tenant : String} {s : CollectionStore}
    (h : s.sources.Coherent tenant) :
    (s.boundSources tenant).map (BoundSource.identity tenant) =
      s.boundRows.map SourceRow.identity := by
  rw [boundSources, List.map_map]
  apply List.map_congr_left
  intro row hrow
  obtain ⟨id, hget⟩ := rows_get_of_mem_boundRows hrow
  obtain ⟨hid, hhash, -⟩ := h.bound hget
  rw [Function.comp_apply, BoundSource.identity, SourceRow.identity, hid, hhash]

/-- The id that a build reads off the rows is the id of the sources behind them. -/
theorem indexId_eq {tenant : String} {s : CollectionStore} (h : s.sources.Coherent tenant)
    (c : Collection) (extractors : List ExtractorKind) :
    s.indexId c extractors =
      buildIndexId tenant c.scope extractors (s.boundSources tenant) := by
  rw [indexId, rowsIndexId, buildIndexId, buildIdentity, boundSources_identity h]

/-- What one build of the collection computes from. -/
def current (tenant : String) (c : Collection) (b : BuildCall) (s : CollectionStore) : Build :=
  ⟨c.scope, b.extractors, s.boundSources tenant, b.maxChars⟩

variable [Extraction]

theorem mapM_chunkRows {tenant : String} {s : CollectionStore}
    (h : s.sources.Coherent tenant) (b : BuildCall) :
    (s.boundRows.mapM (s.sources.chunkRows tenant b)).map List.flatten =
      chunkRows tenant b.extractors b.maxChars (s.boundSources tenant) := by
  have hrows : s.boundRows.mapM (s.sources.chunkRows tenant b) =
      (s.boundSources tenant).mapM fun src => sourceRows (sourceId tenant src.filename)
        src.contentHash (src.chunks b.extractors b.maxChars) := by
    rw [boundSources, List.mapM_map]
    apply mapM_congr_of_keys (show s.boundRows.map id = s.boundRows.map id from rfl)
    rintro row hrow _ - rfl
    obtain ⟨id, hget⟩ := rows_get_of_mem_boundRows hrow
    obtain ⟨hid, hhash, k, hk, hbytes⟩ := h.bound hget
    simp only [SourceTable.chunkRows, hk, hbytes, bind, Except.bind]
    rw [← hid, ← hhash]
    rfl
  rw [chunkRows, hrows]
  rfl

/-- A build either changes nothing or leaves the version ensured, whatever it answers. -/
theorem buildCollectionIndex_cases (tenant : String) (c : Collection) (b : BuildCall)
    (s : CollectionStore) :
    (s.buildCollectionIndex tenant c b).2 = s ∨
      ∃ index, s.ensureVersion tenant s.sources c.scope s.boundRows b = .ok index ∧
        (s.buildCollectionIndex tenant c b).2.sources = s.sources ∧
        (s.buildCollectionIndex tenant c b).2.chunks = index.chunks ∧
        (s.buildCollectionIndex tenant c b).2.owners =
          index.marks.map fun v => (v.id, v.collectionId) := by
  rw [buildCollectionIndex]
  split
  · exact .inl rfl
  · rename_i index hindex
    refine .inr ⟨index, hindex, ?_⟩
    simp only
    split_ifs
    · split
      · exact ⟨rfl, rfl, rfl⟩
      · rename_i versions hact
        obtain ⟨-, hversions⟩ := activateCollectionIndex_eq_ok hact
        refine ⟨rfl, rfl, ?_⟩
        rw [owners_eq, hversions, IndexStore.marks, List.map_map, List.map_map]
        rfl
    · exact ⟨rfl, rfl, rfl⟩

/-- What a successful build with its cutover did to the versions. -/
theorem buildCollectionIndex_activates {tenant : String} {c : Collection} {b : BuildCall}
    {s : CollectionStore} {v : IndexVersionRow} (hact : b.activate = true)
    (h : (s.buildCollectionIndex tenant c b).1 = .ok v) :
    ∃ index, s.ensureVersion tenant s.sources c.scope s.boundRows b = .ok index ∧
      activateCollectionIndex c.id (s.indexId c b.extractors) index.versions =
        .ok (s.buildCollectionIndex tenant c b).2.versions := by
  rw [buildCollectionIndex] at h ⊢
  simp only [hact, if_true] at h ⊢
  split at h
  · cases h
  · rename_i index hindex
    refine ⟨index, hindex, ?_⟩
    split at h
    · cases h
    · rename_i versions hversions
      exact hversions

end CollectionStore

/-- A history of the collection: its store, the build behind each version, and the versions
whose chunk rows a retirement deleted. -/
structure CollectionHistory where
  store : CollectionStore := {}
  built : SortedMap String Build := .empty
  cleared : List String := []

namespace CollectionHistory
open CollectionStore

variable [Extraction]

def step (tenant : String) (c : Collection) (h : CollectionHistory)
    (call : CollectionStore.Call) : CollectionHistory where
  store := h.store.step tenant c call
  built := match call with
    | .build b =>
        let id := h.store.indexId c b.extractors
        if h.store.hasVersion id then h.built else h.built.insert id (h.store.current tenant c b)
    | _ => h.built
  cleared := match call with
    | .retire keep =>
        h.cleared ++ (h.store.retiring c keep).filter fun id => h.store.chunksOf id ≠ []
    | _ => h.cleared

theorem built_build (tenant : String) (c : Collection) {h : CollectionHistory} {b : BuildCall}
    (hfresh : ¬h.store.hasVersion (h.store.indexId c b.extractors)) :
    (h.step tenant c (.build b)).built.get? (h.store.indexId c b.extractors) =
      some (h.store.current tenant c b) := by
  simp only [step]
  rw [if_neg hfresh, SortedMap.get?_insert_self]

/-- No two paths that are put share a source id. -/
def DistinctPaths (tenant : String) (h : CollectionHistory) : CollectionStore.Call → Prop
  | .putSource r => ∀ row, h.store.sources.rows.get? (sourceId tenant r.filename) = some row →
      row.filename = r.filename
  | _ => True

/-- A version that the build finds under its id was cut alike, and its rows are still there. -/
def CutAlike (tenant : String) (c : Collection) (h : CollectionHistory) (b : BuildCall) : Prop :=
  h.store.hasVersion (h.store.indexId c b.extractors) →
    h.store.indexId c b.extractors ∉ h.cleared ∧
      ∀ first, h.built.get? (h.store.indexId c b.extractors) = some first →
        first.maxChars = b.maxChars ∧ SameMedia tenant first (h.store.current tenant c b) ∧
          DistinctDigits tenant first (h.store.current tenant c b)

/-- The rows of a version are what its build cuts. -/
structure Cut (tenant : String) (h : CollectionHistory) (id : String) (first : Build) :
    Prop where
  found : h.built.get? id = some first
  sources : first.sources ≠ []
  identity : buildIndexId tenant first.scope first.extractors first.sources = id
  rows : id ∉ h.cleared →
    chunkRows tenant first.extractors first.maxChars first.sources = .ok (h.store.chunksOf id)

structure Sound (tenant : String) (c : Collection) (h : CollectionHistory) : Prop where
  coherent : h.store.sources.Coherent tenant
  distinct : (h.store.owners.map Prod.fst).Nodup
  owned : ∀ e ∈ h.store.owners, e.2 = some c.id
  chunked : ∀ e ∈ h.store.chunks, e.1 ∈ h.store.owners.map Prod.fst
  cleared : ∀ id ∈ h.cleared, id ∈ h.store.owners.map Prod.fst
  cut : ∀ id ∈ h.store.owners.map Prod.fst, ∃ first, h.Cut tenant id first

theorem sound_empty (tenant : String) (c : Collection) :
    ({} : CollectionHistory).Sound tenant c where
  coherent := SourceTable.coherent_empty tenant
  distinct := List.nodup_nil
  owned := by simp [owners, IndexStore.marks]
  chunked := by simp
  cleared := by simp
  cut := by simp [owners, IndexStore.marks]

/-- Calls that leave versions and chunks alone keep what is known of them. -/
theorem Sound.of_same {tenant : String} {c : Collection} {h h' : CollectionHistory}
    (hs : h.Sound tenant c) (hcoherent : h'.store.sources.Coherent tenant)
    (howners : h'.store.owners = h.store.owners) (hchunks : h'.store.chunks = h.store.chunks)
    (hbuilt : ∀ id ∈ h.store.owners.map Prod.fst, h'.built.get? id = h.built.get? id)
    (hcleared : h'.cleared = h.cleared) : h'.Sound tenant c where
  coherent := hcoherent
  distinct := by
    rw [howners]
    exact hs.distinct
  owned := by
    rw [howners]
    exact hs.owned
  chunked := by
    rw [howners, hchunks]
    exact hs.chunked
  cleared := by
    rw [howners, hcleared]
    exact hs.cleared
  cut := by
    rw [howners]
    intro id hid
    obtain ⟨first, hfirst⟩ := hs.cut id hid
    refine ⟨first, (hbuilt id hid).trans hfirst.found, hfirst.sources, hfirst.identity, ?_⟩
    rw [hcleared, IndexStore.chunksOf, hchunks]
    exact hfirst.rows

/-- Deleting chunk rows of versions that the history then counts as cleared. -/
theorem Sound.retire {tenant : String} {c : Collection} {h : CollectionHistory}
    (hs : h.Sound tenant c) (keep : ℕ) : (h.step tenant c (.retire keep)).Sound tenant c where
  coherent := hs.coherent
  distinct := hs.distinct
  owned := hs.owned
  chunked e he := hs.chunked e (List.mem_of_mem_filter he)
  cleared id hid := by
    rcases List.mem_append.mp hid with hid | hid
    · exact hs.cleared id hid
    · exact mem_owners_of_mem_retiring (List.mem_of_mem_filter hid)
  cut id hid := by
    obtain ⟨first, hfirst⟩ := hs.cut id hid
    refine ⟨first, hfirst.found, hfirst.sources, hfirst.identity, ?_⟩
    intro hnot
    rw [step] at hnot
    simp only [List.mem_append, not_or] at hnot
    rw [hfirst.rows hnot.1]
    congr 1
    show h.store.chunksOf id = ((h.store.chunks.filter fun e =>
      !(h.store.retiring c keep).contains e.1).filter fun e => e.1 == id).map Prod.snd
    rw [List.filter_filter]
    by_cases hretiring : id ∈ h.store.retiring c keep
    · -- a version that retires uncleared has no chunk rows to lose
      have hempty : h.store.chunksOf id = [] := by
        by_contra hne
        exact hnot.2 (List.mem_filter.mpr ⟨hretiring, by simpa using hne⟩)
      have hnone : ∀ e ∈ h.store.chunks, e.1 ≠ id := by
        intro e he heq
        have hmem : e.2 ∈ h.store.chunksOf id :=
          List.mem_map.mpr ⟨e, List.mem_filter.mpr ⟨he, by simpa using heq⟩, rfl⟩
        simp [hempty] at hmem
      rw [hempty, List.filter_eq_nil_iff.mpr, List.map_nil]
      intro e he
      simp [hnone e he]
    · rw [IndexStore.chunksOf]
      congr 1
      apply List.filter_congr
      intro e _
      by_cases heq : e.1 = id
      · simp [heq, hretiring]
      · simp [heq]

/-- A version joins with the rows that its build cuts. -/
theorem Sound.insert {tenant : String} {c : Collection} {h h' : CollectionHistory}
    {b : BuildCall} {rows : List (List ChunkRow)} (hs : h.Sound tenant c)
    (hne : h.store.boundRows ≠ []) (hfresh : ¬h.store.hasVersion (h.store.indexId c b.extractors))
    (hrows : h.store.boundRows.mapM (h.store.sources.chunkRows tenant b) = .ok rows)
    (hcoherent : h'.store.sources.Coherent tenant)
    (howners : h'.store.owners = h.store.owners ++ [(h.store.indexId c b.extractors, some c.id)])
    (hchunks : h'.store.chunks = h.store.chunks ++
      rows.flatten.map fun row => (h.store.indexId c b.extractors, row))
    (hbuilt : h'.built = h.built.insert (h.store.indexId c b.extractors)
      (h.store.current tenant c b))
    (hcleared : h'.cleared = h.cleared) : h'.Sound tenant c := by
  have hadded := IndexStore.chunksOf_append hchunks
  rw [hasVersion_iff_owners] at hfresh
  constructor
  · exact hcoherent
  · rw [howners, List.map_append, List.map_singleton, List.nodup_append]
    refine ⟨hs.distinct, List.nodup_singleton _, ?_⟩
    intro id hid new hnew heq
    rw [heq, List.mem_singleton.mp hnew] at hid
    exact hfresh hid
  · rw [howners]
    intro e he
    rcases List.mem_append.mp he with he | he
    · exact hs.owned e he
    · rw [List.mem_singleton.mp he]
  · rw [howners, hchunks, List.map_append]
    intro e he
    rcases List.mem_append.mp he with he | he
    · exact List.mem_append_left _ (hs.chunked e he)
    · obtain ⟨row, -, rfl⟩ := List.mem_map.mp he
      exact List.mem_append_right _ (by simp)
  · rw [howners, hcleared, List.map_append]
    intro id hid
    exact List.mem_append_left _ (hs.cleared id hid)
  · rw [howners, List.map_append, List.map_singleton]
    intro id hid
    rcases List.mem_append.mp hid with hid | hid
    · obtain ⟨first, hfirst⟩ := hs.cut id hid
      have hother : id ≠ h.store.indexId c b.extractors := by
        rintro rfl
        exact hfresh hid
      refine ⟨first, ?_, hfirst.sources, hfirst.identity, ?_⟩
      · rw [hbuilt, SortedMap.get?_insert_of_ne hother, hfirst.found]
      · rw [hcleared, hadded, if_neg hother]
        exact hfirst.rows
    · obtain rfl := List.mem_singleton.mp hid
      have hnone : h.store.chunksOf (h.store.indexId c b.extractors) = [] := by
        rw [IndexStore.chunksOf, List.filter_eq_nil_iff.mpr, List.map_nil]
        intro e he heq
        rw [beq_iff_eq] at heq
        exact hfresh (heq ▸ hs.chunked e he)
      refine ⟨h.store.current tenant c b, ?_, ?_, (indexId_eq hs.coherent c _).symm, ?_⟩
      · rw [hbuilt, SortedMap.get?_insert_self]
      · simpa [current, boundSources] using hne
      · intro _
        have hcut := mapM_chunkRows hs.coherent b
        rw [hrows] at hcut
        rw [hadded, if_pos rfl, hnone, List.nil_append]
        exact hcut.symm

theorem Sound.build {tenant : String} {c : Collection} {h : CollectionHistory}
    (hs : h.Sound tenant c) (b : BuildCall) : (h.step tenant c (.build b)).Sound tenant c := by
  have hkeeps (id : String) (hid : id ∈ h.store.owners.map Prod.fst) :
      (h.step tenant c (.build b)).built.get? id = h.built.get? id := by
    simp only [step]
    split_ifs with hhas
    · rfl
    · apply SortedMap.get?_insert_of_ne
      rintro rfl
      exact hhas (hasVersion_iff_owners.mpr hid)
  rcases h.store.buildCollectionIndex_cases tenant c b with
    hsame | ⟨index, hindex, hsources, hchunks, howners⟩
  · have hstore : (h.step tenant c (.build b)).store = h.store := hsame
    exact hs.of_same (hstore ▸ hs.coherent) (by rw [hstore]) (by rw [hstore]) hkeeps rfl
  · obtain ⟨hne, hensured⟩ := IndexStore.ensureVersion_ok hindex
    have hcoherent : (h.step tenant c (.build b)).store.sources.Coherent tenant := by
      show (h.store.buildCollectionIndex tenant c b).2.sources.Coherent tenant
      rw [hsources]
      exact hs.coherent
    cases hensured with
    | skipped _ hmarks hchunks' =>
      exact hs.of_same hcoherent (howners.trans (by rw [hmarks]; rfl)) (hchunks.trans hchunks')
        hkeeps rfl
    | built hhas hcut hmarks hchunks' =>
      refine hs.insert hne hhas hcut hcoherent (howners.trans ?_) (hchunks.trans hchunks')
        (if_neg hhas) rfl
      rw [hmarks, List.map_append]
      rfl

theorem Sound.step {tenant : String} {c : Collection} {h : CollectionHistory}
    (hs : h.Sound tenant c) {call : CollectionStore.Call} (hok : DistinctPaths tenant h call) :
    (h.step tenant c call).Sound tenant c := by
  cases call with
  | putSource r =>
    cases hput : h.store.sources.putSource tenant r with
    | error e =>
      have hstore : (h.step tenant c (.putSource r)).store = h.store := by
        simp only [CollectionHistory.step, CollectionStore.step, hput]
      exact hs.of_same (hstore ▸ hs.coherent) (by rw [hstore]) (by rw [hstore])
        (fun _ _ => rfl) rfl
    | ok answer =>
      obtain ⟨a, sources⟩ := answer
      have hstore : (h.step tenant c (.putSource r)).store = { h.store with sources } := by
        simp only [CollectionHistory.step, CollectionStore.step, hput]
      exact hs.of_same (hstore ▸ hs.coherent.putSource hok hput) (by rw [hstore]; rfl)
        (by rw [hstore]) (fun _ _ => rfl) rfl
  | bindSource id =>
    have hstore : ∃ bound, (h.step tenant c (.bindSource id)).store = { h.store with bound } := by
      simp only [CollectionHistory.step, CollectionStore.step, CollectionStore.bindSource]
      split_ifs
      · exact ⟨_, rfl⟩
      · exact ⟨_, rfl⟩
      · exact ⟨_, rfl⟩
    obtain ⟨bound, hstore⟩ := hstore
    exact hs.of_same (hstore ▸ hs.coherent) (by rw [hstore]; rfl) (by rw [hstore])
      (fun _ _ => rfl) rfl
  | bindSources ids => exact hs.of_same hs.coherent rfl rfl (fun _ _ => rfl) rfl
  | build b => exact hs.build b
  | retire keep => exact hs.retire keep

end CollectionHistory

namespace CollectionStore

/-- `active_collection_index`. -/
def activeCollectionIndex (c : Collection) (s : CollectionStore) : Option String :=
  (s.versions.find? fun v => v.collectionId == some c.id && v.active).map IndexVersionRow.id

variable [Extraction]

/-- Exactly one version is active, and its chunk rows are those of the sources bound before. -/
def ServesBound (tenant : String) (c : Collection) (b : BuildCall) (s s' : CollectionStore) :
    Prop :=
  ∃ id rows, s'.activeCollectionIndex c = some id ∧
    (∀ v ∈ s'.versions, v.collectionId = some c.id → v.active → v.id = id) ∧
    chunkRows tenant b.extractors b.maxChars (s.boundSources tenant) = .ok rows ∧
    s'.chunksOf id = rows

end CollectionStore

namespace CollectionHistory
open CollectionStore

variable [Extraction]

theorem Sound.of_reached {tenant : String} {c : Collection} {h : CollectionHistory}
    (hreach : Reached (CollectionHistory.step tenant c) (DistinctPaths tenant) {} h) :
    h.Sound tenant c :=
  hreach.invariant (sound_empty tenant c) fun _ _ hs hok => hs.step hok

/-- A version that stands under the id of a build cut alike holds the rows of that build. -/
theorem Sound.chunksOf_indexId {tenant : String} {c : Collection} {h : CollectionHistory}
    (hs : h.Sound tenant c) (hsha : Function.Injective Sha256.digest) {b : BuildCall}
    (hne : h.store.boundRows ≠ []) (halike : h.CutAlike tenant c b)
    (hafter : h.store.indexId c b.extractors ∈
      (h.step tenant c (.build b)).store.owners.map Prod.fst) :
    chunkRows tenant b.extractors b.maxChars (h.store.boundSources tenant) =
      .ok ((h.step tenant c (.build b)).store.chunksOf (h.store.indexId c b.extractors)) := by
  obtain ⟨first, hfirst⟩ := (hs.build b).cut _ hafter
  have hfound := hfirst.found
  simp only [CollectionHistory.step] at hfound
  split_ifs at hfound with hhas
  · obtain ⟨hkept, hcut⟩ := halike hhas
    obtain ⟨hmax, hmedia, hdigits⟩ := hcut first hfound
    have hsame := chunkRows_eq_of_same hsha hfirst.sources
      (show (h.store.current tenant c b).sources ≠ [] by simpa [current, boundSources] using hne)
      (hfirst.identity.trans (indexId_eq hs.coherent c _)) hdigits hmax hmedia
    exact hsame.symm.trans (hfirst.rows hkept)
  · rw [SortedMap.get?_insert_self] at hfound
    obtain rfl := Option.some.inj hfound
    exact hfirst.rows fun hcleared => hhas (hasVersion_iff_owners.mpr (hs.cleared _ hcleared))

end CollectionHistory
end

section Runs
open CollectionStore

attribute [local instance] reversingSha256 asciiExtraction

def notes : Collection := ⟨"col-1", "notes", "notes@1"⟩

/-- Four times one letter, put at one path. -/
def putLetters (letter : UInt8) : CollectionStore.Call :=
  .putSource ⟨"", "text/plain", "a", none, List.replicate 4 letter⟩

def notesBuild : BuildCall := ⟨[], 100, 0, true, 0⟩

def playCalls (calls : List CollectionStore.Call) : CollectionHistory :=
  calls.foldl (CollectionHistory.step "t" notes) {}

/-- The first letters, indexed once. -/
def indexedOnce : List CollectionStore.Call :=
  [putLetters 97, .bindSource (sourceId "t" "a"), .build notesBuild]

/-- Back to the first letters after their version was superseded and retired. -/
def returned : List CollectionStore.Call :=
  indexedOnce ++ [putLetters 98, .build notesBuild, .retire 0, putLetters 97]

end Runs
end Munarium
