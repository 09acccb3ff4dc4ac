import Munarium.Datastore.L1Cache
import Munarium.Lib.Delimited
import Munarium.Lib.Positions

/-! What the cache keeps for each key, as long as no step of another thread comes between two
sections that belong together. -/
namespace Munarium

namespace ArtifactCacheKey
variable [DebugText] {k k' : ArtifactCacheKey} {path path' : String}

/-- The bytes of an accepted key's path. -/
theorem utf8_l1RelativePath (h : k.l1RelativePath = .ok path) :
    utf8 path = utf8 k.isolationDomain ++ 0x2f ::
        (utf8 k.logicalVersionId ++ 0x2f :: utf8 k.artifactId) ∧
      ∀ part ∈ [k.isolationDomain, k.logicalVersionId, k.artifactId],
        (utf8 part).all isPathByte = true := by
  unfold l1RelativePath at h
  cases hfind : k.elements.findSome? fun e => elementError e.1 e.2 with
  | some e => simp [hfind] at h
  | none =>
    simp only [hfind, Except.ok.injEq] at h
    have hslash : utf8 "/" = [0x2f] := rfl
    refine ⟨?_, ?_⟩
    · rw [← h]
      simp [utf8_append, hslash]
    · have hall {label part : String} (he : elementError label part = none) :
          (utf8 part).all isPathByte = true := by
        unfold elementError at he
        split_ifs at he with hempty hbytes
        exact hbytes
      simp only [elements, List.findSome?_eq_none_iff, List.mem_cons, List.not_mem_nil, or_false,
        forall_eq_or_imp, forall_eq] at hfind
      simp only [List.mem_cons, List.not_mem_nil, or_false, forall_eq_or_imp, forall_eq]
      exact ⟨hall hfind.1, hall hfind.2.1, hall hfind.2.2⟩

omit [DebugText] in
theorem not_mem_utf8 {part : String} {b : UInt8} (h : (utf8 part).all isPathByte = true)
    (hb : isPathByte b = false) : b ∉ utf8 part := by
  intro hmem
  have hpath := List.all_eq_true.mp h b hmem
  rw [hb] at hpath
  cases hpath

omit [DebugText] in
theorem split_slash {a b a' b' : Bytes} (h : a ++ 0x2f :: b = a' ++ 0x2f :: b')
    (ha : (0x2f : UInt8) ∉ a) (ha' : (0x2f : UInt8) ∉ a') : a = a' ∧ b = b' := by
  have hcut : Delimited.cut 0x2f (a ++ 0x2f :: b) = some (a, b) :=
    Delimited.cut_eq_some_iff.mpr ⟨rfl, ha⟩
  rw [h, Delimited.cut_eq_some_iff.mpr ⟨rfl, ha'⟩] at hcut
  simpa using hcut.symm

/-- Keys have leaves of their own. -/
theorem l1RelativePath_injective (h : k.l1RelativePath = .ok path)
    (h' : k'.l1RelativePath = .ok path) : k = k' := by
  obtain ⟨hpath, hparts⟩ := utf8_l1RelativePath h
  obtain ⟨hpath', hparts'⟩ := utf8_l1RelativePath h'
  simp only [List.mem_cons, List.not_mem_nil, or_false, forall_eq_or_imp, forall_eq]
    at hparts hparts'
  have hslash : isPathByte 0x2f = false := by decide
  obtain ⟨hdomain, hrest⟩ := split_slash (hpath.symm.trans hpath')
    (not_mem_utf8 hparts.1 hslash) (not_mem_utf8 hparts'.1 hslash)
  obtain ⟨hversion, hartifact⟩ := split_slash hrest
    (not_mem_utf8 hparts.2.1 hslash) (not_mem_utf8 hparts'.2.1 hslash)
  cases k
  cases k'
  simp only [mk.injEq]
  exact ⟨utf8_injective hdomain, utf8_injective hversion, utf8_injective hartifact⟩

/-- No leaf is where a download is kept. -/
theorem ne_partialPath (h : k.l1RelativePath = .ok path) (h' : k'.l1RelativePath = .ok path') :
    path ≠ partialPath path' := by
  rintro rfl
  obtain ⟨hpath, hparts⟩ := utf8_l1RelativePath h
  obtain ⟨hpath', hparts'⟩ := utf8_l1RelativePath h'
  simp only [List.mem_cons, List.not_mem_nil, or_false, forall_eq_or_imp, forall_eq]
    at hparts hparts'
  have hslash : isPathByte 0x2f = false := by decide
  have hdot : isPathByte 0x2e = false := by decide
  simp only [partialPath, utf8_append, hpath', List.append_assoc, List.cons_append] at hpath
  obtain ⟨-, hrest⟩ := split_slash hpath
    (not_mem_utf8 hparts'.1 hslash) (not_mem_utf8 hparts.1 hslash)
  obtain ⟨-, hartifact⟩ := split_slash hrest
    (not_mem_utf8 hparts'.2.1 hslash) (not_mem_utf8 hparts.2.1 hslash)
  apply not_mem_utf8 hparts.2.2 hdot
  rw [← hartifact]
  exact List.mem_append_right _ (by decide)

end ArtifactCacheKey

theorem partialPath_injective : Function.Injective partialPath := by
  intro path path' h
  have hbytes := congrArg utf8 h
  simp only [partialPath, utf8_append] at hbytes
  exact utf8_injective (List.append_cancel_right hbytes)

namespace Dir

theorem lookup_filter_ne {path other : String} (h : other ≠ path) (d : Dir) :
    List.lookup other (d.filter (·.1 != path)) = List.lookup other d := by
  induction d with
  | nil => rfl
  | cons e rest ih =>
    rw [List.filter_cons]
    by_cases he : e.1 = path
    · have hother : (other == e.1) = false := by simpa [he] using h
      rw [if_neg (by simpa using he), List.lookup_cons, hother, ih]
    · rw [if_pos (by simpa using he), List.lookup_cons, List.lookup_cons, ih]

theorem lookup_write (d : Dir) (path other : String) (bytes : Bytes) :
    (d.write path bytes).lookup other = if other = path then some bytes else d.lookup other := by
  unfold write
  rw [List.lookup_cons]
  split_ifs with h
  · simp [h]
  · have hne : (other == path) = false := by simpa using h
    rw [hne]
    exact lookup_filter_ne h d

/-- The files are in the directory. -/
def Keeps (d : Dir) (files : List (String × Bytes)) : Prop :=
  ∀ f ∈ files, d.lookup f.1 = some f.2

/-- Writing another file keeps them. -/
theorem Keeps.write {d : Dir} {files : List (String × Bytes)} (h : d.Keeps files) {path : String}
    (hpath : path ∉ files.map Prod.fst) (bytes : Bytes) : (d.write path bytes).Keeps files := by
  intro f hf
  rw [lookup_write, if_neg]
  · exact h f hf
  · rintro rfl
    exact hpath (List.mem_map_of_mem hf)

end Dir

/-- A component that no file of the hydration's own replaces by another. -/
def IsPlain (path : String) (bytes : Bytes) : Prop :=
  (path = COMPLETE_MARKER → bytes = []) ∧ path ≠ Shard.MANIFEST

/-- What was verified so far is in the directory, and what is left comes beside it. -/
structure Gathered (dir : Option Dir) (files : List (String × Bytes))
    (rest : List ManifestComponent) : Prop where
  kept : ∃ d, dir = some d ∧ d.Keeps files
  apart : (files.map Prod.fst ++ rest.map (·.path)).Nodup
  plain : ∀ f ∈ files, IsPlain f.1 f.2

/-- How far a download has come, by its directory, its leaf and the files it verified. -/
def DownloadPoint.Progress (dir leaf : Option Dir) (files : List (String × Bytes)) :
    DownloadPoint → Prop
  | .clearing => files = []
  | .sweeping => files = []
  | .creating => files = []
  | .fetchingManifest => files = [] ∧ dir.isSome
  | .listing rest => Gathered dir files rest
  | .fetching c rest => Gathered dir files (c :: rest)
  | .writing c bytes rest => ∃ before, files = before ++ [(c.path, bytes)] ∧
      Gathered dir before (c :: rest)
  | .failing _ => True
  | .marking => Gathered leaf files []
  | .inserting => ∃ d, leaf = some d ∧ d.Keeps files ∧ d.lookup COMPLETE_MARKER = some []
  | _ => Gathered dir files []

namespace CachePhase

def downloadKey : CachePhase → Option ArtifactCacheKey
  | downloading d _ => some d.request.key
  | _ => none

/-- A download whose directory stands at the leaf's path before the entry does. -/
def sealing : CachePhase → Option ArtifactCacheKey
  | downloading d .marking => some d.request.key
  | downloading d .inserting => some d.request.key
  | _ => none

/-- The key whose in-flight mark the thread has set. -/
def holding : CachePhase → Option ArtifactCacheKey
  | downloading d _ => some d.request.key
  | unwinding key => some key
  | concluded rq _ => some rq.key
  | _ => none

end CachePhase

def Eviction.returning : Eviction → Option ArtifactCacheKey
  | direct => none
  | lowWatermark returning => returning.map (·.key)

namespace CachePhase

/-- The key whose entry a hydration has brought in and is about to return. -/
def returning : CachePhase → Option ArtifactCacheKey
  | concluded _ (.ok r) => some r.key
  | released _ (.ok r) => some r.key
  | choosing returning => returning.map (·.key)
  | removing ev _ => ev.returning
  | probingLeaf ev _ _ => ev.returning
  | deleting ev _ _ => ev.returning
  | _ => none

/-- The entry that an eviction to the low watermark has chosen. -/
def chosen : CachePhase → Option ArtifactCacheKey
  | removing (.lowWatermark _) key => some key
  | _ => none

/-- The leaf that an eviction is about to delete. -/
def doomed : CachePhase → Option (ArtifactCacheKey × String)
  | probingLeaf _ key path => some (key, path)
  | deleting _ key path => some (key, path)
  | _ => none

/-- The key whose failure of integrity is not recorded yet. -/
def failed : CachePhase → Option ArtifactCacheKey
  | concluded rq (.error (.integrity _)) => some rq.key
  | released rq (.error (.integrity _)) => some rq.key
  | _ => none

theorem downloadKey_of_sealing {p : CachePhase} {k : ArtifactCacheKey} (h : p.sealing = some k) :
    p.downloadKey = some k := by
  unfold sealing at h
  split at h <;> first | exact h | cases h

theorem holding_of_downloadKey {p : CachePhase} {k : ArtifactCacheKey}
    (h : p.downloadKey = some k) : p.holding = some k := by
  unfold downloadKey at h
  split at h <;> first | exact h | cases h

end CachePhase

namespace L1State

def Has (s : L1State) (k : ArtifactCacheKey) : Prop := ∃ r ∈ s.resident, r.key = k

/-- The directory is a sealed leaf with the files. -/
def Leaf (s : L1State) (path : String) (files : List (String × Bytes)) : Prop :=
  ∃ d, s.disk path = some d ∧ d.lookup COMPLETE_MARKER = some [] ∧ d.Keeps files

section
variable [DebugText]

/-- What holds for one key between any two steps. -/
structure KeySound (s : L1State) (k : ArtifactCacheKey) : Prop where
  held : ∀ (i : ℕ) (p : CachePhase), s.threads[i]? = some p → p.holding = some k → k ∈ s.inFlight
  alone : ∀ (i j : ℕ) (p q : CachePhase), s.threads[i]? = some p → s.threads[j]? = some q →
    p.holding = some k → q.holding = some k → i = j
  absent : ∀ (i : ℕ) (p : CachePhase), s.threads[i]? = some p → p.downloadKey = some k → ¬ s.Has k
  progress : ∀ (i : ℕ) (d : Download) (p : DownloadPoint),
    s.threads[i]? = some (.downloading d p) → d.request.key = k →
    k.l1RelativePath = .ok d.path ∧
      p.Progress (s.disk (partialPath d.path)) (s.disk d.path) (s.verified k)
  single : ∀ r ∈ s.resident, ∀ r' ∈ s.resident, r.key = k → r'.key = k → r = r'
  leaf : ∀ r ∈ s.resident, r.key = k →
    k.l1RelativePath = .ok r.path ∧ s.Leaf r.path (s.verified k)
  doomed : ∀ (i : ℕ) (p : CachePhase) (path : String), s.threads[i]? = some p →
    p.doomed = some (k, path) →
    k.l1RelativePath = .ok path ∧ ¬ s.Has k ∧
      ∀ (j : ℕ) (q : CachePhase), s.threads[j]? = some q → q.sealing ≠ some k
  chosen : ∀ (i : ℕ) (p : CachePhase), s.threads[i]? = some p → p.chosen = some k →
    (∀ r ∈ s.resident, r.key = k → r.residency ≠ .pinned) ∧
      ∀ (j : ℕ) (q : CachePhase), s.threads[j]? = some q → q.returning ≠ some k
  corrupt : k ∈ s.corrupt → ¬ s.Has k ∧
    (∀ (j : ℕ) (q : CachePhase), s.threads[j]? = some q → q.downloadKey ≠ some k) ∧
    (k ∈ s.quarantined ∨ ∃ (j : ℕ) (q : CachePhase), s.threads[j]? = some q ∧ q.failed = some k)

/-- A change that leaves a key alone. -/
structure Elsewhere (s s' : L1State) (k : ArtifactCacheKey) : Prop where
  threads : s'.threads = s.threads
  resident : ∀ r : ResidentArtifact, r.key = k → (r ∈ s'.resident ↔ r ∈ s.resident)
  inFlight : k ∈ s'.inFlight ↔ k ∈ s.inFlight
  quarantined : k ∈ s'.quarantined ↔ k ∈ s.quarantined
  corrupt : k ∈ s'.corrupt ↔ k ∈ s.corrupt
  disk : ∀ path, k.l1RelativePath = .ok path → s'.disk path = s.disk path ∧
    s'.disk (partialPath path) = s.disk (partialPath path)
  verified : s'.verified k = s.verified k

end

/-- A thread that takes up nothing of a key. -/
structure Sheds (p p' : CachePhase) (k : ArtifactCacheKey) : Prop where
  holding : p'.holding = some k → p.holding = some k
  download : p'.downloadKey ≠ some k
  returning : p'.returning = some k → p.returning = some k
  chosen : p'.chosen = some k → p.chosen = some k
  doomed : ∀ path, p'.doomed = some (k, path) → p.doomed = some (k, path)

section
variable [DebugText] {s s' : L1State} {k : ArtifactCacheKey} {i : ℕ} {p p' : CachePhase}

theorem Elsewhere.refl (s : L1State) (k : ArtifactCacheKey) : Elsewhere s s k :=
  ⟨rfl, fun _ _ => .rfl, .rfl, .rfl, .rfl, fun _ _ => ⟨rfl, rfl⟩, rfl⟩

theorem Elsewhere.has (h : Elsewhere s s' k) : s'.Has k ↔ s.Has k := by
  constructor
  · rintro ⟨r, hr, hk⟩
    exact ⟨r, (h.resident r hk).mp hr, hk⟩
  · rintro ⟨r, hr, hk⟩
    exact ⟨r, (h.resident r hk).mpr hr, hk⟩

omit [DebugText] in
/-- The threads after a step: the one that acted, or another one as it was. -/
theorem getElem?_setThread (hthreads : s'.threads = s.threads) {j : ℕ} {q : CachePhase}
    (h : (s'.setThread i p').threads[j]? = some q) :
    j = i ∧ q = p' ∨ j ≠ i ∧ s.threads[j]? = some q := by
  have hset : (s.threads.set i p')[j]? = some q := hthreads ▸ h
  exact Positions.getElem?_set_cases hset

omit [DebugText] in
theorem setThread_self (hthreads : s'.threads = s.threads) (hi : s.threads[i]? = some p) :
    (s'.setThread i p').threads[i]? = some p' := by
  rw [setThread, hthreads]
  exact Positions.getElem?_set_some hi

omit [DebugText] in
theorem setThread_ne (hthreads : s'.threads = s.threads) {j : ℕ} (hj : j ≠ i) :
    (s'.setThread i p').threads[j]? = s.threads[j]? := by
  rw [setThread, hthreads]
  exact List.getElem?_set_ne hj.symm

omit [DebugText] in
/-- What a thread is about that takes up nothing, it was about before. -/
theorem Sheds.back (hp : Sheds p p' k) (hthreads : s'.threads = s.threads)
    (hi : s.threads[i]? = some p) (j : ℕ) (q : CachePhase)
    (hq : (s'.setThread i p').threads[j]? = some q) :
    ∃ q₀, s.threads[j]? = some q₀ ∧ (q.holding = some k → q₀.holding = some k) ∧
      (q.downloadKey = some k → q₀ = q) ∧ (q.returning = some k → q₀.returning = some k) ∧
      (q.chosen = some k → q₀.chosen = some k) ∧
      ∀ path, q.doomed = some (k, path) → q₀.doomed = some (k, path) := by
  rcases getElem?_setThread hthreads hq with ⟨rfl, rfl⟩ | ⟨-, hold⟩
  · exact ⟨p, hi, hp.holding, fun hd => absurd hd hp.download, hp.returning, hp.chosen, hp.doomed⟩
  · exact ⟨q, hold, id, fun _ => rfl, id, id, fun _ => id⟩

/-- A step of a thread that takes up nothing of the key. -/
theorem KeySound.shed (h : s.KeySound k) (hthreads : s'.threads = s.threads)
    (hi : s.threads[i]? = some p) (hp : Sheds p p' k)
    (hheld : ∀ (j : ℕ) (q : CachePhase), (s'.setThread i p').threads[j]? = some q →
      q.holding = some k → k ∈ s.inFlight → k ∈ s'.inFlight)
    (hhas : s'.Has k → s.Has k)
    (hprogress : ∀ (j : ℕ) (d : Download) (pt : DownloadPoint),
      (s'.setThread i p').threads[j]? = some (.downloading d pt) →
      s.threads[j]? = some (.downloading d pt) → d.request.key = k →
      k.l1RelativePath = .ok d.path →
      pt.Progress (s.disk (partialPath d.path)) (s.disk d.path) (s.verified k) →
      pt.Progress (s'.disk (partialPath d.path)) (s'.disk d.path) (s'.verified k))
    (hsingle : ∀ r ∈ s'.resident, ∀ r' ∈ s'.resident, r.key = k → r'.key = k → r = r')
    (hleaf : ∀ r ∈ s'.resident, r.key = k →
      k.l1RelativePath = .ok r.path ∧ s'.Leaf r.path (s'.verified k))
    (hresidency : ∀ (j : ℕ) (q : CachePhase), s.threads[j]? = some q → q.chosen = some k →
      ∀ r ∈ s'.resident, r.key = k → r.residency ≠ .pinned)
    (hcorrupt : k ∈ s'.corrupt → ¬ s'.Has k ∧
      (∀ (j : ℕ) (q : CachePhase), (s'.setThread i p').threads[j]? = some q →
        q.downloadKey ≠ some k) ∧
      (k ∈ s'.quarantined ∨ ∃ (j : ℕ) (q : CachePhase),
        (s'.setThread i p').threads[j]? = some q ∧ q.failed = some k)) :
    (s'.setThread i p').KeySound k := by
  have hback := hp.back hthreads hi
  constructor
  case held =>
    intro j q hq hholding
    obtain ⟨q₀, hq₀, hold, -⟩ := hback j q hq
    exact hheld j q hq hholding (h.held j q₀ hq₀ (hold hholding))
  case alone =>
    intro j l q r hq hr hq' hr'
    obtain ⟨q₀, hq₀, hholding, -⟩ := hback j q hq
    obtain ⟨r₀, hr₀, hholding', -⟩ := hback l r hr
    exact h.alone j l q₀ r₀ hq₀ hr₀ (hholding hq') (hholding' hr')
  case absent =>
    intro j q hq hdownload hnew
    obtain ⟨q₀, hq₀, -, hsame, -⟩ := hback j q hq
    obtain rfl := hsame hdownload
    exact h.absent j q₀ hq₀ hdownload (hhas hnew)
  case progress =>
    intro j d pt hq hkey
    obtain ⟨q₀, hq₀, -, hsame, -⟩ := hback j _ hq
    obtain rfl := hsame (congrArg some hkey)
    obtain ⟨hpath, hold⟩ := h.progress j d pt hq₀ hkey
    exact ⟨hpath, hprogress j d pt hq hq₀ hkey hpath hold⟩
  case single => exact hsingle
  case leaf => exact hleaf
  case doomed =>
    intro j q path hq hdoomed
    obtain ⟨q₀, hq₀, -, -, -, -, hold⟩ := hback j q hq
    obtain ⟨hpath, habsent, hsealing⟩ := h.doomed j q₀ path hq₀ (hold path hdoomed)
    refine ⟨hpath, fun hnew => habsent (hhas hnew), ?_⟩
    intro l r hr hr'
    obtain ⟨r₀, hr₀, -, hsame, -⟩ := hback l r hr
    obtain rfl := hsame (CachePhase.downloadKey_of_sealing hr')
    exact hsealing l r₀ hr₀ hr'
  case chosen =>
    intro j q hq hchosen
    obtain ⟨q₀, hq₀, -, -, -, hold, -⟩ := hback j q hq
    refine ⟨hresidency j q₀ hq₀ (hold hchosen), ?_⟩
    intro l r hr hr'
    obtain ⟨r₀, hr₀, -, -, hreturning, -⟩ := hback l r hr
    exact (h.chosen j q₀ hq₀ (hold hchosen)).2 l r₀ hr₀ (hreturning hr')
  case corrupt => exact hcorrupt

/-- What a key whose failure stands keeps, as long as the failure is not recorded otherwise. -/
theorem KeySound.corrupt_shed (h : s.KeySound k) (hthreads : s'.threads = s.threads)
    (hi : s.threads[i]? = some p) (hp : Sheds p p' k) (hhas : s'.Has k → s.Has k)
    (hcorrupt : k ∈ s'.corrupt → k ∈ s.corrupt)
    (hrecorded : k ∈ s.quarantined ∨ p.failed = some k → k ∈ s'.quarantined ∨ p'.failed = some k)
    (hk : k ∈ s'.corrupt) : ¬ s'.Has k ∧
      (∀ (j : ℕ) (q : CachePhase), (s'.setThread i p').threads[j]? = some q →
        q.downloadKey ≠ some k) ∧
      (k ∈ s'.quarantined ∨ ∃ (j : ℕ) (q : CachePhase),
        (s'.setThread i p').threads[j]? = some q ∧ q.failed = some k) := by
  obtain ⟨habsent, hdownload, hold⟩ := h.corrupt (hcorrupt hk)
  have hown (hor : k ∈ s.quarantined ∨ p.failed = some k) : k ∈ s'.quarantined ∨
      ∃ (j : ℕ) (q : CachePhase),
        (s'.setThread i p').threads[j]? = some q ∧ q.failed = some k :=
    (hrecorded hor).imp_right fun hfailed => ⟨i, p', setThread_self hthreads hi, hfailed⟩
  refine ⟨fun hnew => habsent (hhas hnew), ?_, ?_⟩
  · intro j q hq hq'
    obtain ⟨q₀, hq₀, -, hsame, -⟩ := hp.back hthreads hi j q hq
    obtain rfl := hsame hq'
    exact hdownload j q₀ hq₀ hq'
  · rcases hold with hquarantined | ⟨j, q, hq, hfailed⟩
    · exact hown (.inl hquarantined)
    · by_cases hj : j = i
      · subst hj
        rw [hi] at hq
        cases hq
        exact hown (.inr hfailed)
      · exact .inr ⟨j, q, (setThread_ne hthreads hj).trans hq, hfailed⟩

/-- A step that leaves a key alone keeps what holds for it. -/
theorem KeySound.elsewhere (h : s.KeySound k) (hs : Elsewhere s s' k)
    (hi : s.threads[i]? = some p) (hp : Sheds p p' k)
    (hfailed : p.failed = some k → p'.failed = some k) : (s'.setThread i p').KeySound k := by
  apply h.shed hs.threads hi hp
  · intro j q _ _ hin
    exact hs.inFlight.mpr hin
  · exact hs.has.mp
  · intro j d pt _ _ _ hpath hprogress
    obtain ⟨hleaf, hdir⟩ := hs.disk d.path hpath
    rw [hleaf, hdir, hs.verified]
    exact hprogress
  · intro r hr r' hr' hkey hkey'
    exact h.single r ((hs.resident r hkey).mp hr) r' ((hs.resident r' hkey').mp hr') hkey hkey'
  · intro r hr hkey
    obtain ⟨hpath, d, hd, hmarker, hkeeps⟩ := h.leaf r ((hs.resident r hkey).mp hr) hkey
    exact ⟨hpath, d, (hs.disk r.path hpath).1.trans hd, hmarker, hs.verified ▸ hkeeps⟩
  · intro j q hq hchosen r hr hkey
    exact (h.chosen j q hq hchosen).1 r ((hs.resident r hkey).mp hr) hkey
  · apply h.corrupt_shed hs.threads hi hp hs.has.mp hs.corrupt.mp
    exact Or.imp hs.quarantined.mpr hfailed

end
end L1State
end Munarium
