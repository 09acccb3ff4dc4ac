import Munarium.Datastore.L1Sound

/-! What each section and each file operation keeps for the key that it is about. -/
namespace Munarium
namespace L1State

section
variable [DebugText] {s s' : L1State} {k : ArtifactCacheKey} {i : ℕ} {p p' : CachePhase}
  {d d' : Download} {pt pt' : DownloadPoint}

omit [DebugText] in
theorem isSome_find_iff : (s.find k).isSome = true ↔ s.Has k := by
  simp [find, Has]

omit [DebugText] in
theorem mem_of_find {r : ResidentArtifact} (h : s.find k = some r) :
    r ∈ s.resident ∧ r.key = k := by
  refine ⟨List.mem_of_find?_eq_some h, ?_⟩
  simpa using List.find?_some h

/-- The lists of the cache, as they were. -/
structure SameLists (s s' : L1State) : Prop where
  threads : s'.threads = s.threads
  resident : s'.resident = s.resident
  inFlight : s'.inFlight = s.inFlight
  quarantined : s'.quarantined = s.quarantined
  corrupt : s'.corrupt = s.corrupt

omit [DebugText] in
theorem SameLists.has (h : SameLists s s') : s'.Has k ↔ s.Has k := by
  rw [Has, h.resident]
  rfl

/-- No thread but the one that downloads a key is at work on it. -/
theorem KeySound.only (h : s.KeySound k) (hi : s.threads[i]? = some p) (hp : p.holding = some k)
    {j : ℕ} {q : CachePhase} (hq : s.threads[j]? = some q) (hj : j ≠ i) : q.holding ≠ some k :=
  fun hholding => hj (h.alone j i q p hq hi hholding hp)

theorem KeySound.not_corrupt (h : s.KeySound k) (hi : s.threads[i]? = some p)
    (hp : p.downloadKey = some k) : k ∉ s.corrupt :=
  fun hcorrupt => (h.corrupt hcorrupt).2.1 i p hi hp

/-- A download moves on in its own directory, or in a leaf that nobody is about to delete. -/
theorem KeySound.work (h : s.KeySound k) (hi : s.threads[i]? = some (.downloading d pt))
    (hkey : d.request.key = k) (hpath : d'.path = d.path)
    (hsame : SameLists s s')
    (hprogress : k.l1RelativePath = .ok d.path →
      pt.Progress (s.disk (partialPath d.path)) (s.disk d.path) (s.verified k) →
      pt'.Progress (s'.disk (partialPath d.path)) (s'.disk d.path) (s'.verified k))
    (hsealing : (CachePhase.downloading d' pt').sealing = some k →
      (CachePhase.downloading d pt).sealing = some k ∨
        ∀ (j : ℕ) (q : CachePhase) (path : String), s.threads[j]? = some q →
          q.doomed ≠ some (k, path)) :
    (s'.setThread i (.downloading d' pt')).KeySound k := by
  have hdownload : (CachePhase.downloading d pt).downloadKey = some k := congrArg some hkey
  have hholding : (CachePhase.downloading d pt).holding = some k := congrArg some hkey
  have habsent : ¬ s.Has k := h.absent i _ hi hdownload
  have hnone : ∀ r ∈ s'.resident, r.key ≠ k := by
    intro r hr hrk
    exact habsent (hsame.has.mp ⟨r, hr, hrk⟩)
  constructor
  case held =>
    intro j q hq _
    rw [show (s'.setThread i (.downloading d' pt')).inFlight = s'.inFlight from rfl,
      hsame.inFlight]
    exact h.held i _ hi hholding
  case alone =>
    intro j l q r hq hr hq' hr'
    rcases getElem?_setThread hsame.threads hq with ⟨rfl, -⟩ | ⟨hj, hold⟩
    · rcases getElem?_setThread hsame.threads hr with ⟨rfl, -⟩ | ⟨hl, hold'⟩
      · rfl
      · exact absurd hr' (h.only hi hholding hold' hl)
    · exact absurd hq' (h.only hi hholding hold hj)
  case absent =>
    intro j q _ _ hnew
    exact habsent (hsame.has.mp hnew)
  case progress =>
    intro j e qt hq hqk
    rcases getElem?_setThread hsame.threads hq with ⟨-, heq⟩ | ⟨hj, hold⟩
    · cases heq
      obtain ⟨hvalid, hold⟩ := h.progress i d pt hi hkey
      rw [hpath]
      exact ⟨hvalid, hprogress hvalid hold⟩
    · exact absurd (congrArg some hqk) (h.only hi hholding hold hj)
  case single =>
    intro r hr r' _ hrk
    exact absurd hrk (hnone r hr)
  case leaf =>
    intro r hr hrk
    exact absurd hrk (hnone r hr)
  case doomed =>
    intro j q path hq hdoomed
    rcases getElem?_setThread hsame.threads hq with ⟨-, rfl⟩ | ⟨hj, hold⟩
    · cases hdoomed
    · obtain ⟨hvalid, -, hnot⟩ := h.doomed j q path hold hdoomed
      refine ⟨hvalid, fun hnew => habsent (hsame.has.mp hnew), ?_⟩
      intro l r hr hr'
      rcases getElem?_setThread hsame.threads hr with ⟨-, rfl⟩ | ⟨-, hold'⟩
      · rcases hsealing hr' with hbefore | hclear
        · exact hnot i _ hi hbefore
        · exact hclear j q path hold hdoomed
      · exact hnot l r hold' hr'
  case chosen =>
    intro j q hq hchosen
    rcases getElem?_setThread hsame.threads hq with ⟨-, rfl⟩ | ⟨hj, hold⟩
    · cases hchosen
    · refine ⟨fun r hr hrk => absurd hrk (hnone r hr), ?_⟩
      intro l r hr hr'
      rcases getElem?_setThread hsame.threads hr with ⟨-, rfl⟩ | ⟨-, hold'⟩
      · cases hr'
      · exact (h.chosen j q hold hchosen).2 l r hold' hr'
  case corrupt =>
    intro hcorrupt
    exact absurd (hsame.corrupt ▸ hcorrupt) (h.not_corrupt hi hdownload)

/-- A key is taken up that no one downloads, no one has, and no failure keeps away. -/
theorem KeySound.claim (h : s.KeySound k) {rq : HydrateRequest} (hrq : rq.key = k)
    (hquarantined : k ∉ s.quarantined) (habsent : ¬ s.Has k) (hfree : k ∉ s.inFlight)
    (hrecorded : ∀ (j : ℕ) (q : CachePhase), s.threads[j]? = some q → q.failed ≠ some k) :
    ((s.claim k).setThread i (startDownload rq)).KeySound k := by
  have hthreads : (s.claim k).threads = s.threads := rfl
  have hidle (j : ℕ) (q : CachePhase) (hq : s.threads[j]? = some q) : q.holding ≠ some k :=
    fun hholding => hfree (h.held j q hq hholding)
  have hreturning : (startDownload rq).returning = none := by
    unfold startDownload
    split <;> rfl
  have hchosen : (startDownload rq).chosen = none := by
    unfold startDownload
    split <;> rfl
  have hdoomed : (startDownload rq).doomed = none := by
    unfold startDownload
    split <;> rfl
  have hsealing : (startDownload rq).sealing = none := by
    unfold startDownload
    split <;> rfl
  constructor
  case held =>
    intro j q _ _
    exact List.mem_cons_self
  case alone =>
    intro j l q r hq hr hq' hr'
    rcases getElem?_setThread hthreads hq with ⟨rfl, -⟩ | ⟨-, hold⟩
    · rcases getElem?_setThread hthreads hr with ⟨rfl, -⟩ | ⟨-, hold'⟩
      · rfl
      · exact absurd hr' (hidle l r hold')
    · exact absurd hq' (hidle j q hold)
  case absent =>
    intro _ _ _ _
    exact habsent
  case progress =>
    intro j d pt hq hkey
    rcases getElem?_setThread hthreads hq with ⟨-, heq⟩ | ⟨-, hold⟩
    · unfold startDownload at heq
      split at heq
      case h_1 path hpath =>
        cases heq
        exact ⟨hrq ▸ hpath, Function.update_self ..⟩
      case h_2 => cases heq
    · exact absurd (congrArg some hkey) (hidle j _ hold)
  case single =>
    intro r hr r' _ hrk
    exact absurd ⟨r, hr, hrk⟩ habsent
  case leaf =>
    intro r hr hrk
    exact absurd ⟨r, hr, hrk⟩ habsent
  case doomed =>
    intro j q path hq hq'
    rcases getElem?_setThread hthreads hq with ⟨-, rfl⟩ | ⟨-, hold⟩
    · rw [hdoomed] at hq'
      cases hq'
    · obtain ⟨hvalid, hnone, hnot⟩ := h.doomed j q path hold hq'
      refine ⟨hvalid, hnone, ?_⟩
      intro l r hr hr'
      rcases getElem?_setThread hthreads hr with ⟨-, rfl⟩ | ⟨-, hold'⟩
      · rw [hsealing] at hr'
        cases hr'
      · exact hnot l r hold' hr'
  case chosen =>
    intro j q hq hq'
    rcases getElem?_setThread hthreads hq with ⟨-, rfl⟩ | ⟨-, hold⟩
    · rw [hchosen] at hq'
      cases hq'
    · obtain ⟨hresidency, hnot⟩ := h.chosen j q hold hq'
      refine ⟨hresidency, ?_⟩
      intro l r hr hr'
      rcases getElem?_setThread hthreads hr with ⟨-, rfl⟩ | ⟨-, hold'⟩
      · rw [hreturning] at hr'
        cases hr'
      · exact hnot l r hold' hr'
  case corrupt =>
    intro hcorrupt
    obtain ⟨-, -, hknown⟩ := h.corrupt hcorrupt
    rcases hknown with hyes | ⟨j, q, hq, hfailed⟩
    · exact absurd hyes hquarantined
    · exact absurd hfailed (hrecorded j q hq)

/-- A sealed leaf gets its entry, while no eviction has chosen it. -/
theorem KeySound.insert (h : s.KeySound k) (hi : s.threads[i]? = some (.downloading d .inserting))
    (hkey : d.request.key = k) {r : ResidentArtifact} (hr : r.key = k) (hpath : r.path = d.path)
    (hchosen : ∀ (j : ℕ) (q : CachePhase), s.threads[j]? = some q → q.chosen ≠ some k)
    (rq : HydrateRequest) :
    ((s.insert r).setThread i (.concluded rq (.ok r))).KeySound k := by
  have hthreads : (s.insert r).threads = s.threads := rfl
  have hdownload : (CachePhase.downloading d .inserting).downloadKey = some k := congrArg some hkey
  have hholding : (CachePhase.downloading d .inserting).holding = some k := congrArg some hkey
  have habsent : ¬ s.Has k := h.absent i _ hi hdownload
  have hmem : ∀ x ∈ (s.insert r).resident, x.key = k → x = r := by
    intro x hx hxk
    rcases List.mem_cons.mp hx with rfl | hold
    · rfl
    · exact absurd ⟨x, List.mem_of_mem_filter hold, hxk⟩ habsent
  have hnone (j : ℕ) (q : CachePhase)
      (hq : ((s.insert r).setThread i (.concluded rq (.ok r))).threads[j]? = some q) :
      q.downloadKey ≠ some k := by
    intro hq'
    rcases getElem?_setThread hthreads hq with ⟨-, rfl⟩ | ⟨hj, hold⟩
    · cases hq'
    · exact h.only hi hholding hold hj (CachePhase.holding_of_downloadKey hq')
  constructor
  case held =>
    intro _ _ _ _
    exact h.held i _ hi hholding
  case alone =>
    intro j l q t hq ht hq' ht'
    rcases getElem?_setThread hthreads hq with ⟨rfl, -⟩ | ⟨hj, hold⟩
    · rcases getElem?_setThread hthreads ht with ⟨rfl, -⟩ | ⟨hl, hold'⟩
      · rfl
      · exact absurd ht' (h.only hi hholding hold' hl)
    · exact absurd hq' (h.only hi hholding hold hj)
  case absent =>
    intro j q hq hq'
    exact absurd hq' (hnone j q hq)
  case progress =>
    intro j e pt hq hek
    exact absurd (congrArg some hek) (hnone j _ hq)
  case single =>
    intro x hx y hy hxk hyk
    rw [hmem x hx hxk, hmem y hy hyk]
  case leaf =>
    intro x hx hxk
    obtain ⟨hvalid, dir, hdir, hkeeps, hmarker⟩ := h.progress i d .inserting hi hkey
    rw [hmem x hx hxk, hpath]
    exact ⟨hvalid, dir, hdir, hmarker, hkeeps⟩
  case doomed =>
    intro j q path hq hq'
    rcases getElem?_setThread hthreads hq with ⟨-, rfl⟩ | ⟨-, hold⟩
    · cases hq'
    · exact absurd (congrArg some hkey) ((h.doomed j q path hold hq').2.2 i _ hi)
  case chosen =>
    intro j q hq hq'
    rcases getElem?_setThread hthreads hq with ⟨-, rfl⟩ | ⟨-, hold⟩
    · cases hq'
    · exact absurd hq' (hchosen j q hold)
  case corrupt =>
    intro hcorrupt
    exact absurd hcorrupt (h.not_corrupt hi hdownload)

/-- An eviction chooses an entry that is not pinned and that no hydration is returning. -/
theorem KeySound.choose (h : s.KeySound k) {returning : Option ResidentArtifact}
    (hi : s.threads[i]? = some (.choosing returning))
    (hresidency : ∀ r ∈ s.resident, r.key = k → r.residency ≠ .pinned)
    (hreturning : ∀ (j : ℕ) (q : CachePhase), s.threads[j]? = some q → q.returning ≠ some k) :
    (s.setThread i (.removing (.lowWatermark returning) k)).KeySound k := by
  have hthreads : s.threads = s.threads := rfl
  constructor
  case held =>
    intro j q hq hq'
    rcases getElem?_setThread hthreads hq with ⟨-, rfl⟩ | ⟨-, hold⟩
    · cases hq'
    · exact h.held j q hold hq'
  case alone =>
    intro j l q r hq hr hq' hr'
    rcases getElem?_setThread hthreads hq with ⟨-, rfl⟩ | ⟨-, hold⟩
    · cases hq'
    · rcases getElem?_setThread hthreads hr with ⟨-, rfl⟩ | ⟨-, hold'⟩
      · cases hr'
      · exact h.alone j l q r hold hold' hq' hr'
  case absent =>
    intro j q hq hq'
    rcases getElem?_setThread hthreads hq with ⟨-, rfl⟩ | ⟨-, hold⟩
    · cases hq'
    · exact h.absent j q hold hq'
  case progress =>
    intro j d pt hq hkey
    rcases getElem?_setThread hthreads hq with ⟨-, heq⟩ | ⟨-, hold⟩
    · cases heq
    · exact h.progress j d pt hold hkey
  case single => exact h.single
  case leaf => exact h.leaf
  case doomed =>
    intro j q path hq hq'
    rcases getElem?_setThread hthreads hq with ⟨-, rfl⟩ | ⟨-, hold⟩
    · cases hq'
    · obtain ⟨hvalid, hnone, hnot⟩ := h.doomed j q path hold hq'
      refine ⟨hvalid, hnone, ?_⟩
      intro l r hr hr'
      rcases getElem?_setThread hthreads hr with ⟨-, rfl⟩ | ⟨-, hold'⟩
      · cases hr'
      · exact hnot l r hold' hr'
  case chosen =>
    intro j q _ _
    refine ⟨hresidency, ?_⟩
    intro l r hr hr'
    rcases getElem?_setThread hthreads hr with ⟨-, rfl⟩ | ⟨-, hold'⟩
    · exact hreturning i _ hi hr'
    · exact hreturning l r hold' hr'
  case corrupt =>
    intro hcorrupt
    obtain ⟨hnone, hdownload, hknown⟩ := h.corrupt hcorrupt
    refine ⟨hnone, ?_, ?_⟩
    · intro j q hq hq'
      rcases getElem?_setThread hthreads hq with ⟨-, rfl⟩ | ⟨-, hold⟩
      · cases hq'
      · exact hdownload j q hold hq'
    · rcases hknown with hyes | ⟨j, q, hq, hfailed⟩
      · exact .inl hyes
      · have hj : j ≠ i := by
          rintro rfl
          rw [hi] at hq
          cases hq
          cases hfailed
        exact .inr ⟨j, q, (setThread_ne hthreads hj).trans hq, hfailed⟩

/-- An entry goes, and its leaf is still to be deleted. -/
theorem KeySound.remove (h : s.KeySound k) {ev : Eviction} {r : ResidentArtifact}
    (hi : s.threads[i]? = some (.removing ev k)) (hfind : s.find k = some r) :
    ((s.remove k).setThread i (.probingLeaf ev k r.path)).KeySound k := by
  have hthreads : (s.remove k).threads = s.threads := rfl
  obtain ⟨hr, hkey⟩ := mem_of_find hfind
  have hhas : s.Has k := ⟨r, hr, hkey⟩
  have hnone : ∀ x ∈ (s.remove k).resident, x.key ≠ k := by
    intro x hx
    simpa using (List.mem_filter.mp hx).2
  have hgone : ¬ (s.remove k).Has k := by
    rintro ⟨x, hx, hxk⟩
    exact hnone x hx hxk
  have hidle (j : ℕ) (q : CachePhase)
      (hq : ((s.remove k).setThread i (.probingLeaf ev k r.path)).threads[j]? = some q) :
      q.downloadKey ≠ some k := by
    intro hq'
    rcases getElem?_setThread hthreads hq with ⟨-, rfl⟩ | ⟨-, hold⟩
    · cases hq'
    · exact h.absent j q hold hq' hhas
  constructor
  case held =>
    intro j q hq hq'
    rcases getElem?_setThread hthreads hq with ⟨-, rfl⟩ | ⟨-, hold⟩
    · cases hq'
    · exact h.held j q hold hq'
  case alone =>
    intro j l q t hq ht hq' ht'
    rcases getElem?_setThread hthreads hq with ⟨-, rfl⟩ | ⟨-, hold⟩
    · cases hq'
    · rcases getElem?_setThread hthreads ht with ⟨-, rfl⟩ | ⟨-, hold'⟩
      · cases ht'
      · exact h.alone j l q t hold hold' hq' ht'
  case absent =>
    intro j q hq hq'
    exact absurd hq' (hidle j q hq)
  case progress =>
    intro j d pt hq hdk
    exact absurd (congrArg some hdk) (hidle j _ hq)
  case single =>
    intro x hx y _ hxk
    exact absurd hxk (hnone x hx)
  case leaf =>
    intro x hx hxk
    exact absurd hxk (hnone x hx)
  case doomed =>
    intro j q path hq hq'
    rcases getElem?_setThread hthreads hq with ⟨-, rfl⟩ | ⟨-, hold⟩
    · cases hq'
      refine ⟨(h.leaf r hr hkey).1, hgone, ?_⟩
      intro l t ht ht'
      exact hidle l t ht (CachePhase.downloadKey_of_sealing ht')
    · exact absurd hhas (h.doomed j q path hold hq').2.1
  case chosen =>
    intro j q hq hq'
    refine ⟨fun x hx hxk => absurd hxk (hnone x hx), ?_⟩
    rcases getElem?_setThread hthreads hq with ⟨-, rfl⟩ | ⟨-, hold⟩
    · cases hq'
    · intro l t ht ht'
      rcases getElem?_setThread hthreads ht with ⟨-, rfl⟩ | ⟨-, hold'⟩
      · exact (h.chosen j q hold hq').2 i _ hi ht'
      · exact (h.chosen j q hold hq').2 l t hold' ht'
  case corrupt =>
    intro hcorrupt
    exact absurd hhas (h.corrupt hcorrupt).1

/-- Entries are adjusted in place. -/
theorem KeySound.adjust (h : s.KeySound k) (hi : s.threads[i]? = some p) (hp : Sheds p p' k)
    (hfailed : p.failed = some k → p'.failed = some k) {f : ResidentArtifact → ResidentArtifact}
    (hpath : ∀ r, (f r).path = r.path)
    (hchosen : ∀ (j : ℕ) (q : CachePhase), s.threads[j]? = some q → q.chosen = some k →
      ∀ r ∈ s.resident, r.key = k → (f r).residency ≠ .pinned) :
    ((s.adjust k f).setThread i p').KeySound k := by
  have hthreads : (s.adjust k f).threads = s.threads := rfl
  have hback : ∀ x ∈ (s.adjust k f).resident, x.key = k →
      ∃ r ∈ s.resident, r.key = k ∧ x = f r := by
    intro x hx hxk
    obtain ⟨r, hr, rfl⟩ := List.mem_map.mp hx
    split_ifs at hxk ⊢ with hrk
    · exact ⟨r, hr, hrk, rfl⟩
    · exact absurd hxk hrk
  have hhas : (s.adjust k f).Has k → s.Has k := by
    rintro ⟨x, hx, hxk⟩
    obtain ⟨r, hr, hrk, -⟩ := hback x hx hxk
    exact ⟨r, hr, hrk⟩
  apply h.shed hthreads hi hp
  · intro _ _ _ _ hin
    exact hin
  · exact hhas
  · intro _ _ _ _ _ _ _ hprogress
    exact hprogress
  · intro x hx y hy hxk hyk
    obtain ⟨r, hr, hrk, rfl⟩ := hback x hx hxk
    obtain ⟨t, ht, htk, rfl⟩ := hback y hy hyk
    rw [h.single r hr t ht hrk htk]
  · intro x hx hxk
    obtain ⟨r, hr, hrk, rfl⟩ := hback x hx hxk
    rw [hpath]
    exact h.leaf r hr hrk
  · intro j q hq hq' x hx hxk
    obtain ⟨r, hr, hrk, rfl⟩ := hback x hx hxk
    exact hchosen j q hq hq' r hr hrk
  · exact h.corrupt_shed hthreads hi hp hhas id (Or.imp id hfailed)

/-- A leaf that no entry names is deleted. -/
theorem KeySound.delete (h : s.KeySound k) {path : String} (hi : s.threads[i]? = some p)
    (hdoomed : p.doomed = some (k, path)) (hp : Sheds p p' k) (hfailed : p.failed ≠ some k)
    (dir : Option Dir) : ((s.put path dir).setThread i p').KeySound k := by
  have hthreads : (s.put path dir).threads = s.threads := rfl
  obtain ⟨hvalid, hnone, hsealing⟩ := h.doomed i p path hi hdoomed
  apply h.shed hthreads hi hp
  · intro _ _ _ _ hin
    exact hin
  · exact id
  · intro j d pt _ hq hdk hpath hprogress
    have hleaf : d.path = path := by
      rw [hvalid] at hpath
      cases hpath
      rfl
    have hdir : (s.put path dir).disk (partialPath d.path) = s.disk (partialPath d.path) := by
      apply Function.update_of_ne
      rw [hleaf]
      exact (ArtifactCacheKey.ne_partialPath hvalid hvalid).symm
    have hpt := hsealing j _ hq
    rw [hdir]
    cases pt with
    | marking => exact absurd (congrArg some hdk) hpt
    | inserting => exact absurd (congrArg some hdk) hpt
    | _ => exact hprogress
  · exact h.single
  · intro r hr hrk
    exact absurd ⟨r, hr, hrk⟩ hnone
  · intro j q hq hq' r hr hrk
    exact absurd ⟨r, hr, hrk⟩ hnone
  · apply h.corrupt_shed hthreads hi hp id id
    rintro (hquarantined | hyes)
    · exact .inl hquarantined
    · exact absurd hyes hfailed

/-- The in-flight mark of a download that is over. -/
theorem KeySound.release (h : s.KeySound k) (hi : s.threads[i]? = some p)
    (hholding : p.holding = some k) (hp : Sheds p p' k) (hp' : p'.holding ≠ some k)
    (hfailed : p.failed = some k → p'.failed = some k) :
    ((s.release k).setThread i p').KeySound k := by
  have hthreads : (s.release k).threads = s.threads := rfl
  apply h.shed hthreads hi hp
  · intro j q hq hq' _
    rcases getElem?_setThread hthreads hq with ⟨-, rfl⟩ | ⟨hj, hold⟩
    · exact absurd hq' hp'
    · exact absurd hq' (h.only hi hholding hold hj)
  · exact id
  · intro _ _ _ _ _ _ _ hprogress
    exact hprogress
  · exact h.single
  · exact h.leaf
  · intro j q hq hq'
    exact (h.chosen j q hq hq').1
  · exact h.corrupt_shed hthreads hi hp id id (Or.imp id hfailed)

/-- A failure of integrity is recorded. -/
theorem KeySound.quarantine (h : s.KeySound k) (hi : s.threads[i]? = some p) (hp : Sheds p p' k) :
    ((s.quarantine k).setThread i p').KeySound k := by
  have hthreads : (s.quarantine k).threads = s.threads := rfl
  apply h.shed hthreads hi hp
  · intro _ _ _ _ hin
    exact hin
  · exact id
  · intro _ _ _ _ _ _ _ hprogress
    exact hprogress
  · exact h.single
  · exact h.leaf
  · intro j q hq hq'
    exact (h.chosen j q hq hq').1
  · apply h.corrupt_shed hthreads hi hp id id
    intro _
    exact .inl List.mem_cons_self

theorem KeySound.clearQuarantine (h : s.KeySound k) (hi : s.threads[i]? = some p)
    (hp : Sheds p p' k) : ((s.clearQuarantine k).setThread i p').KeySound k := by
  have hthreads : (s.clearQuarantine k).threads = s.threads := rfl
  apply h.shed hthreads hi hp
  · intro _ _ _ _ hin
    exact hin
  · exact id
  · intro _ _ _ _ _ _ _ hprogress
    exact hprogress
  · exact h.single
  · exact h.leaf
  · intro j q hq hq'
    exact (h.chosen j q hq hq').1
  · intro hcorrupt
    simp [L1State.clearQuarantine] at hcorrupt

/-- A download fails, with an error of whatever kind. -/
theorem KeySound.fail (h : s.KeySound k) (hi : s.threads[i]? = some (.downloading d pt))
    (hkey : d.request.key = k) (hsame : SameLists s s') (e : DatastoreError) :
    ((s'.conclude d.request (.error e)).1.setThread i
      (s'.conclude d.request (.error e)).2).KeySound k := by
  have hdownload : (CachePhase.downloading d pt).downloadKey = some k := congrArg some hkey
  have hholding : (CachePhase.downloading d pt).holding = some k := congrArg some hkey
  have hthreads : (s'.conclude d.request (.error e)).1.threads = s.threads := by
    rw [← hsame.threads]
    cases e <;> rfl
  have hresident : (s'.conclude d.request (.error e)).1.resident = s.resident := by
    rw [← hsame.resident]
    cases e <;> rfl
  have hnone : ∀ r ∈ (s'.conclude d.request (.error e)).1.resident, r.key ≠ k := by
    rw [hresident]
    intro r hr hrk
    exact h.absent i _ hi hdownload ⟨r, hr, hrk⟩
  have hgone : ¬ (s'.conclude d.request (.error e)).1.Has k := by
    rintro ⟨r, hr, hrk⟩
    exact hnone r hr hrk
  have hp : Sheds (.downloading d pt) (s'.conclude d.request (.error e)).2 k :=
    ⟨id, nofun, nofun, nofun, nofun⟩
  apply h.shed hthreads hi hp
  · intro _ _ _ _ _
    rw [show (s'.conclude d.request (.error e)).1.inFlight = s.inFlight by
      rw [← hsame.inFlight]
      cases e <;> rfl]
    exact h.held i _ hi hholding
  · exact fun hnew => absurd hnew hgone
  · intro j q qt hq _ hqk
    rcases getElem?_setThread hthreads hq with ⟨-, heq⟩ | ⟨hj, hold⟩
    · cases heq
    · exact absurd (congrArg some hqk) (h.only hi hholding hold hj)
  · intro r hr r' _ hrk
    exact absurd hrk (hnone r hr)
  · intro r hr hrk
    exact absurd hrk (hnone r hr)
  · intro j q _ _ r hr hrk
    exact absurd hrk (hnone r hr)
  · intro hcorrupt
    refine ⟨hgone, ?_, ?_⟩
    · intro j q hq hq'
      rcases getElem?_setThread hthreads hq with ⟨-, rfl⟩ | ⟨hj, hold⟩
      · cases hq'
      · exact h.only hi hholding hold hj (CachePhase.holding_of_downloadKey hq')
    · right
      refine ⟨i, _, setThread_self hthreads hi, ?_⟩
      have hnot := h.not_corrupt hi hdownload
      rw [← hsame.corrupt] at hnot
      cases e with
      | integrity message => exact congrArg some hkey
      | _ => exact absurd hcorrupt hnot

end
end L1State
end Munarium
