import Munarium.Datastore.L1Downloads
import Munarium.Lib.GuardedRun

/-! Runs of the cache: while no section comes between two of another thread that belong together,
entries have whole leaves, a failure of integrity stands until it is cleared, and an eviction to the
low watermark removes nothing pinned and nothing that is just returned. -/
namespace Munarium
namespace L1State

/-- A victim is evictable, and next to go. -/
theorem victim_goesNext {s : L1State} {returning : Option ResidentArtifact}
    {first : Option ArtifactCacheKey} {key : ArtifactCacheKey}
    (h : s.victim returning first = some key) :
    ∃ r ∈ s.candidates returning, r.key = key ∧ s.GoesNext returning first r := by
  unfold victim at h
  split_ifs at h with hbytes
  obtain ⟨r, hr, rfl⟩ := Option.map_eq_some_iff.mp h
  have hleast (q : ResidentArtifact) : (q ∈ (s.candidates returning).filter fun r =>
      (s.candidates returning).all fun q => !goesFirst q r) ↔ s.Least returning q := by
    simp only [Least, List.mem_filter, List.all_eq_true, Bool.not_eq_true']
  rcases Option.or_eq_some_iff.mp hr with hfound | ⟨hnone, hhead⟩
  · have hmem := (hleast r).mp (List.mem_of_find?_eq_some hfound)
    have hfirst : first = some r.key := by simpa using List.find?_some hfound
    refine ⟨r, hmem.1, rfl, by omega, hmem, ?_⟩
    intro q _ _ hq
    exact Option.some.inj (hq.symm.trans hfirst)
  · have hmem := (hleast r).mp (List.mem_of_head? hhead)
    refine ⟨r, hmem.1, rfl, by omega, hmem, ?_⟩
    intro q _ hq hfirst
    have hnot := List.find?_eq_none.mp hnone q ((hleast q).mpr hq)
    exact absurd hfirst (by simpa using hnot)

section
variable [DebugText] {s s' : L1State} {i : ℕ} {p p' : CachePhase}

section Steps
variable [Sha256] [ManifestText]

omit [Sha256] [ManifestText] in
/-- A thread moves on that takes nothing up. -/
theorem idle_sound {k : ArtifactCacheKey} (h : ∀ k, s.KeySound k) (hi : s.threads[i]? = some p)
    (hp : ∀ k, Sheds p p' k) (hfailed : ∀ k, p.failed = some k → p'.failed = some k) :
    (s.setThread i p').KeySound k :=
  (h k).elsewhere (.refl s k) hi (hp k) (hfailed k)

omit [DebugText] [Sha256] [ManifestText] in
theorem max_ne_pinned {a b : Residency} (ha : a ≠ .pinned) (hb : b ≠ .pinned) :
    a.max b ≠ .pinned := by
  unfold Residency.max
  split_ifs
  · exact hb
  · exact ha

omit [Sha256] [ManifestText] in
/-- A failure that is not recorded, of a key that is not in flight, has dropped its mark. -/
theorem KeySound.unrecorded_of_failed {k : ArtifactCacheKey} (h : s.KeySound k)
    (hfree : k ∉ s.inFlight) (hi : s.threads[i]? = some p) (hp : p.failed = some k) :
    unrecorded p = some k := by
  unfold CachePhase.failed at hp
  split at hp
  · exact absurd (h.held i _ hi hp) hfree
  · exact hp
  · cases hp

omit [Sha256] [ManifestText] in
theorem sheds_startDownload {rq : HydrateRequest} {k : ArtifactCacheKey} (hk : k ≠ rq.key) :
    Sheds p (startDownload rq) k := by
  unfold startDownload
  split
  · refine ⟨?_, ?_, nofun, nofun, nofun⟩
    · intro hkey
      exact absurd (Option.some.inj hkey).symm hk
    · intro hkey
      exact hk (Option.some.inj hkey).symm
  · apply sheds_conclude hk
    intro r hr
    cases hr

omit [Sha256] [ManifestText] in
theorem take_sound (h : ∀ k, s.KeySound k) (hi : s.threads[i]? = some p) {rq : HydrateRequest}
    (hover : ∀ k, Sheds p .over k) (hwaiting : ∀ k, Sheds p (.waiting rq) k)
    (hnone : ∀ k, p.failed ≠ some k) (hok : s.OrderlyTake rq) (now : ℤ) (k : ArtifactCacheKey) :
    ((s.take rq now).1.setThread i (s.take rq now).2).KeySound k := by
  fun_cases take s rq now
  case case1 => exact idle_sound h hi hover (fun k hk => absurd hk (hnone k))
  case case2 hquarantined hfound =>
    have hhas := isSome_find_iff.mp hfound
    apply sound_of h hi rq.key
    · apply (h rq.key).adjust hi (hover rq.key) (fun hk => absurd hk (hnone rq.key))
      · intro r
        rfl
      · intro j q hq hchosen r hr hrk
        apply max_ne_pinned (((h rq.key).chosen j q hq hchosen).1 r hr hrk)
        intro hpinned
        exact (hok hquarantined).2 hhas hpinned q (List.mem_of_getElem? hq) hchosen
    · intro k hk
      exact .adjust hk fun _ => rfl
    · intro k _
      exact hover k
    · intro k _ hk
      exact absurd hk (hnone k)
  case case3 => exact idle_sound h hi hwaiting (fun k hk => absurd hk (hnone k))
  case case4 hquarantined hfound hfree =>
    have habsent : ¬ s.Has rq.key := fun hhas => hfound (isSome_find_iff.mpr hhas)
    apply sound_of h hi rq.key
    · apply (h rq.key).claim rfl hquarantined habsent hfree
      intro j q hq hfailed
      have hunrecorded := (h rq.key).unrecorded_of_failed hfree hq hfailed
      exact (hok hquarantined).1 habsent hfree q (List.mem_of_getElem? hq) hunrecorded
    · intro k hk
      exact .claim hk
    · intro k hk
      exact sheds_startDownload hk
    · intro k _ hk
      exact absurd hk (hnone k)

omit [DebugText] [Sha256] [ManifestText] in
/-- What follows an eviction is about the entry that the eviction was to spare. -/
theorem sheds_afterEvict {ev : Eviction} {k : ArtifactCacheKey}
    (hp : p.returning = ev.returning) : Sheds p (afterEvict ev) k := by
  cases ev with
  | direct => exact ⟨nofun, nofun, nofun, nofun, nofun⟩
  | lowWatermark returning => exact ⟨nofun, nofun, fun hk => hp.trans hk, nofun, nofun⟩

omit [DebugText] [Sha256] [ManifestText] in
theorem sheds_over {k : ArtifactCacheKey} : Sheds p .over k := ⟨nofun, nofun, nofun, nofun, nofun⟩

omit [Sha256] [ManifestText] in
/-- An eviction deletes the leaf, or fails in between. -/
theorem deleting_sound (h : ∀ k, s.KeySound k) {ev : Eviction} {key : ArtifactCacheKey}
    {path : String} (hi : s.threads[i]? = some (.deleting ev key path))
    (hp : ∀ k, Sheds (.deleting ev key path) p' k) (dir : Option Dir) (k : ArtifactCacheKey) :
    ((s.put path dir).setThread i p').KeySound k := by
  have hpath := ((h key).doomed i _ path hi rfl).1
  apply sound_of h hi key
  · exact (h key).delete hi rfl (hp key) nofun dir
  · intro k hk
    exact .put hpath hk dir
  · intro k _
    exact hp k
  · intro k _ hfailed
    cases hfailed

omit [Sha256] [ManifestText] in
/-- A thread that drops its in-flight mark. -/
theorem release_sound (h : ∀ k, s.KeySound k) {key : ArtifactCacheKey}
    (hi : s.threads[i]? = some p) (hholding : p.holding = some key)
    (hp : ∀ k, Sheds p p' k) (hp' : p'.holding = none)
    (hfailed : ∀ k, p.failed = some k → p'.failed = some k) (k : ArtifactCacheKey) :
    ((s.release key).setThread i p').KeySound k := by
  apply sound_of h hi key
  · apply (h key).release hi hholding (hp key) _ (hfailed key)
    rw [hp']
    nofun
  · intro k hk
    exact .release hk
  · intro k _
    exact hp k
  · intro k _
    exact hfailed k

theorem advance_sound (h : ∀ k, s.KeySound k) (hi : s.threads[i]? = some p) {a : CacheAnswer}
    (hok : s.OrderlyAt a p) (k : ArtifactCacheKey) :
    ((s.advance a p).1.setThread i (s.advance a p).2).KeySound k := by
  fun_cases advance s a p
  case case1 rq =>
    apply take_sound h hi _ _ nofun hok
    · intro k
      exact sheds_over
    · intro k
      exact ⟨nofun, nofun, nofun, nofun, nofun⟩
  case case2 => exact idle_sound h hi (fun _ => ⟨nofun, nofun, nofun, nofun, nofun⟩) nofun
  case case3 => exact idle_sound h hi (fun _ => ⟨nofun, nofun, nofun, nofun, nofun⟩) nofun
  case case4 key residency =>
    apply sound_of h hi key
    · apply (h key).adjust hi sheds_over nofun
      · intro r
        rfl
      · intro j q hq hchosen r hr hrk hpinned
        exact hok hpinned ⟨r, hr, hrk⟩ q (List.mem_of_getElem? hq) hchosen
    · intro k hk
      exact .adjust hk fun _ => rfl
    · intro k _
      exact sheds_over
    · nofun
  case case5 key =>
    apply sound_of h hi key
    · exact (h key).clearQuarantine hi sheds_over
    · intro k hk
      exact .clearQuarantine hk
    · intro k _
      exact sheds_over
    · nofun
  case case6 rq =>
    fun_cases wake s rq a.now
    case case1 => exact idle_sound h hi (fun _ => ⟨nofun, nofun, nofun, nofun, nofun⟩) nofun
    case case2 hfree =>
      apply take_sound h hi _ _ nofun (hok hfree)
      · intro k
        exact sheds_over
      · intro k
        exact ⟨nofun, nofun, nofun, nofun, nofun⟩
  case case7 => exact idle_sound h hi (fun _ => ⟨id, nofun, nofun, nofun, nofun⟩) nofun
  case case8 => exact download_sound h hi hok k
  case case9 => exact release_sound h hi rfl (fun _ => sheds_over) rfl nofun k
  case case10 rq outcome =>
    apply release_sound h hi rfl _ rfl
    · intro k hk
      cases outcome with
      | ok r => cases hk
      | error e => cases e <;> exact hk
    · intro k
      refine ⟨nofun, nofun, ?_, nofun, nofun⟩
      cases outcome with
      | ok r => exact id
      | error e => nofun
  case case11 r => exact idle_sound h hi (fun _ => ⟨nofun, nofun, id, nofun, nofun⟩) nofun
  case case12 rq message =>
    apply sound_of h hi rq.key
    · exact (h rq.key).quarantine hi sheds_over
    · intro k hk
      exact .quarantine hk
    · intro k _
      exact sheds_over
    · intro k hk hfailed
      exact absurd (Option.some.inj hfailed).symm hk
  case case13 rq e hother =>
    apply idle_sound h hi fun _ => sheds_over
    intro k hk
    cases e with
    | integrity message => exact absurd rfl (hother message)
    | _ => cases hk
  case case14 => exact idle_sound h hi (fun _ => sheds_over) nofun
  case case15 returning key hvictim =>
    obtain ⟨r, hr, rfl, hnext⟩ := victim_goesNext hvictim
    have hcandidate := (List.mem_filter.mp hr).1
    apply sound_of h hi r.key
    · apply (h r.key).choose hi
      · intro t ht htk
        rw [(h r.key).single t ht r hcandidate htk rfl]
        intro hpinned
        have hrank := (List.mem_filter.mp hr).2
        simp [hpinned] at hrank
      · intro j q hq
        exact hok r hr hnext q (List.mem_of_getElem? hq)
    · intro k _
      exact .refl s k
    · intro k hk
      refine ⟨nofun, nofun, id, ?_, nofun⟩
      intro hchosen
      exact absurd (Option.some.inj hchosen).symm hk
    · nofun
  case case16 ev key _ => exact idle_sound h hi (fun _ => sheds_afterEvict rfl) nofun
  case case17 ev key r hfind =>
    apply sound_of h hi key
    · exact (h key).remove hi hfind
    · intro k hk
      exact .remove hk
    · intro k hk
      refine ⟨nofun, nofun, id, nofun, ?_⟩
      intro path hdoomed
      exact absurd (congrArg Prod.fst (Option.some.inj hdoomed)).symm hk
    · nofun
  case case18 => exact idle_sound h hi (fun _ => ⟨nofun, nofun, id, nofun, fun _ => id⟩) nofun
  case case19 => exact idle_sound h hi (fun _ => sheds_afterEvict rfl) nofun
  case case20 => exact deleting_sound h hi (fun _ => sheds_afterEvict rfl) none k
  case case21 => exact deleting_sound h hi (fun _ => sheds_over) _ k
  case case22 => exact idle_sound h hi (fun _ => sheds_over) nofun
  case case23 => exact idle_sound h hi (fun _ => sheds_over) nofun

omit [Sha256] [ManifestText] in
/-- A call that has only begun changes nothing. -/
theorem begins_sound {k : ArtifactCacheKey} (h : s.KeySound k) (call : CacheCall) :
    ({ s with threads := s.threads ++ [.called call] } : L1State).KeySound k := by
  have hback {j : ℕ} {q : CachePhase} (hq : (s.threads ++ [.called call])[j]? = some q) :
      s.threads[j]? = some q ∨ q = .called call := by
    rcases Positions.getElem?_append_cases hq with ⟨-, hold⟩ | ⟨-, hnew⟩
    · exact .inl hold
    · exact .inr hnew
  constructor
  case held =>
    intro j q hq hholding
    rcases hback hq with hold | rfl
    · exact h.held j q hold hholding
    · cases hholding
  case alone =>
    intro j l q r hq hr hq' hr'
    rcases hback hq with hold | rfl
    · rcases hback hr with hold' | rfl
      · exact h.alone j l q r hold hold' hq' hr'
      · cases hr'
    · cases hq'
  case absent =>
    intro j q hq hdownload
    rcases hback hq with hold | rfl
    · exact h.absent j q hold hdownload
    · cases hdownload
  case progress =>
    intro j d pt hq hkey
    rcases hback hq with hold | hnew
    · exact h.progress j d pt hold hkey
    · cases hnew
  case single => exact h.single
  case leaf => exact h.leaf
  case doomed =>
    intro j q path hq hdoomed
    rcases hback hq with hold | rfl
    · obtain ⟨hpath, hnone, hnot⟩ := h.doomed j q path hold hdoomed
      refine ⟨hpath, hnone, ?_⟩
      intro l r hr hr'
      rcases hback hr with hold' | rfl
      · exact hnot l r hold' hr'
      · cases hr'
    · cases hdoomed
  case chosen =>
    intro j q hq hchosen
    rcases hback hq with hold | rfl
    · refine ⟨(h.chosen j q hold hchosen).1, ?_⟩
      intro l r hr hr'
      rcases hback hr with hold' | rfl
      · exact (h.chosen j q hold hchosen).2 l r hold' hr'
      · cases hr'
    · cases hchosen
  case corrupt =>
    intro hcorrupt
    obtain ⟨hnone, hdownload, hknown⟩ := h.corrupt hcorrupt
    refine ⟨hnone, ?_, ?_⟩
    · intro l r hr hr'
      rcases hback hr with hold' | rfl
      · exact hdownload l r hold' hr'
      · cases hr'
    · apply hknown.imp_right
      rintro ⟨j, q, hq, hfailed⟩
      refine ⟨j, q, ?_, hfailed⟩
      rw [List.getElem?_append_left (List.getElem?_eq_some_iff.mp hq).1]
      exact hq

theorem step_sound (h : ∀ k, s.KeySound k) (e : CacheEvent) (hok : s.Orderly e)
    (k : ArtifactCacheKey) : (s.step e).KeySound k := by
  fun_cases step s e with
  | case1 call => exact begins_sound (h k) call
  | case2 i a p hi => exact advance_sound h hi (hok p hi) k
  | case3 => exact h k

omit [Sha256] [ManifestText] in
theorem start_sound (budget : CacheBudget) (disk : String → Option Dir) (k : ArtifactCacheKey) :
    (start budget disk).KeySound k := by
  constructor <;> simp [start]

/-- What the cache promises of a state. -/
structure Consistent (s : L1State) : Prop where
  oneDownload : ∀ (i j : ℕ) (p q : CachePhase) (key : ArtifactCacheKey),
    s.threads[i]? = some p → s.threads[j]? = some q →
    p.downloadKey = some key → q.downloadKey = some key → i = j
  resident : ∀ r ∈ s.resident, r.key.l1RelativePath = .ok r.path ∧
    s.Leaf r.path (s.verified r.key)
  quarantine : ∀ key ∈ s.corrupt, ¬ s.Has key ∧ ∀ p ∈ s.threads, p.downloadKey ≠ some key
  lowWatermark : ∀ (returning : Option ResidentArtifact) (key : ArtifactCacheKey),
    .removing (.lowWatermark returning) key ∈ s.threads →
    (∀ r ∈ s.resident, r.key = key → r.residency ≠ .pinned) ∧
      ∀ p ∈ s.threads, p.returning ≠ some key

omit [Sha256] [ManifestText] in
theorem consistent_of_sound (h : ∀ k, s.KeySound k) : s.Consistent where
  oneDownload i j p q key hi hj hp hq :=
    (h key).alone i j p q hi hj (CachePhase.holding_of_downloadKey hp)
      (CachePhase.holding_of_downloadKey hq)
  resident r hr := (h r.key).leaf r hr rfl
  quarantine key hkey := by
    obtain ⟨hnone, hdownload, -⟩ := (h key).corrupt hkey
    refine ⟨hnone, fun p hp => ?_⟩
    obtain ⟨j, hj⟩ := List.mem_iff_getElem?.mp hp
    exact hdownload j p hj
  lowWatermark returning key hmem := by
    obtain ⟨i, hi⟩ := List.mem_iff_getElem?.mp hmem
    obtain ⟨hresidency, hreturning⟩ := (h key).chosen i _ hi rfl
    refine ⟨hresidency, fun p hp => ?_⟩
    obtain ⟨j, hj⟩ := List.mem_iff_getElem?.mp hp
    exact hreturning j p hj

/-- The cache is consistent throughout any run in which no section comes between two that belong
together. -/
theorem cache_consistent {budget : CacheBudget} {disk : String → Option Dir}
    (h : Reached step Orderly (start budget disk) s) : s.Consistent := by
  apply consistent_of_sound
  apply h.invariant (I := fun s => ∀ k, s.KeySound k)
  · exact start_sound budget disk
  · intro s e hs hok
    exact step_sound hs e hok

end Steps

end

/-! One artifact of one component, under its real digests. -/

abbrev shardText : String :=
  "\x7b\"manifest_version\":1,\"format_version\":1,\"build_spec_sha256\":\"aaaaaaaaaaaa" ++
  "aaaaaaaaaaaaaaaaaaaaaaaaaaaaaaaaaaaaaaaaaaaaaaaaaaaa\",\"artifact_plan_sha256\":\"bb" ++
  "bbbbbbbbbbbbbbbbbbbbbbbbbbbbbbbbbbbbbbbbbbbbbbbbbbbbbbbbbbbbbb\",\"engines\":[\x7b\"" ++
  "role\":\"records\",\"engine_id\":\"munarium-records\",\"engine_revision\":\"1\"\x7d]" ++
  ",\"components\":[\x7b\"path\":\"records.bin\",\"purpose\":\"records\",\"bytes_len\":" ++
  "11,\"sha256\":\"293e1119feadb682a51946909a58489eb6909dadcce81d86b63a78de7804ea08\"," ++
  "\"required\":true\x7d],\"range_map\":null,\"counts\":\x7b\"chunks\":1,\"documents\":" ++
  "1,\"terms\":2,\"vectors\":null,\"dimensions\":null\x7d,\"reader\":\x7b\"min_version" ++
  "\":1,\"max_version\":1,\"required_features\":[]\x7d,\"probes\":[\x7b\"id\":\"p1\",\"" ++
  "kind\":\"record\",\"query\":null,\"expect\":\x7b\"chunk_ids\":[\"c0\"],\"result_sha2" ++
  "56\":null\x7d\x7d]\x7d"

abbrev shardRecords : Bytes := utf8 "one record\n"

abbrev shardManifest : ArtifactManifest where
  manifestVersion := 1
  formatVersion := 1
  buildSpecSha256 := String.ofList (List.replicate 64 'a')
  artifactPlanSha256 := String.ofList (List.replicate 64 'b')
  engines := ["munarium-records"]
  components := [⟨"records.bin", 11,
    "293e1119feadb682a51946909a58489eb6909dadcce81d86b63a78de7804ea08", true⟩]
  rangeMap := none
  counts := ⟨1, none, none⟩
  reader := ⟨1, 1, []⟩
  probes := ["p1"]

abbrev shardSha256 : Sha256 := tabledSha256 [(utf8 shardText, [
    101, 174, 49, 231, 34, 43, 32, 159, 147, 81, 170, 24, 170, 139, 179, 174, 194, 78, 238, 69,
    15, 29, 214, 27, 150, 145, 32, 231, 27, 157, 233, 47]), (shardRecords, [
    41, 62, 17, 25, 254, 173, 182, 130, 165, 25, 70, 144, 154, 88, 72, 158, 182, 144, 157, 173,
    204, 232, 29, 134, 182, 58, 120, 222, 120, 4, 234, 8]), ([], [
    227, 176, 196, 66, 152, 252, 28, 20, 154, 251, 244, 200, 153, 111, 185, 36, 39, 174, 65, 228,
    100, 155, 147, 76, 164, 149, 153, 27, 120, 82, 184, 85])]

abbrev shardKey : ArtifactCacheKey :=
  ⟨"demo", "v1", "65ae31e7222b209f9351aa18aa8bb3aec24eee450f1dd61b969120e71b9de92f"⟩

attribute [local instance] shardSha256

abbrev shardManifestText : ManifestText where
  fromSlice bytes :=
    if bytes = utf8 shardText then .ok shardManifest
    else .error "EOF while parsing a value at line 1 column 0"

attribute [local instance] shardManifestText

abbrev plainDebugText : DebugText := ⟨id⟩

attribute [local instance] plainDebugText

abbrev shardRequest : HydrateRequest :=
  ⟨shardKey, ⟨1, 1, []⟩, ⟨10, 1000, 1000, 10, 10⟩, .pinned⟩

abbrev smallBudget : CacheBudget := ⟨1000, 5, by decide⟩

/-- A thread moves on, and the store has these bytes for it. -/
abbrev CacheEvent.gets (i : ℕ) (bytes : Bytes) : CacheEvent :=
  .act i ⟨7, none, .ok bytes, .ok true, none, false⟩

/-- A pinned artifact is brought in, and an eviction finds nothing to evict. -/
abbrev hydratesPinned : List CacheEvent :=
  .begins (.hydrate shardRequest) :: List.replicate 5 (.gets 0 (utf8 shardText)) ++
    List.replicate 11 (.gets 0 shardRecords) ++ [.gets 0 [], .begins .evictToLowWatermark] ++
    List.replicate 2 (.gets 1 [])

theorem hydrated_consistent :
    (hydratesPinned.foldl step (start smallBudget fun _ => none)).Consistent ∧
      (hydratesPinned.foldl step (start smallBudget fun _ => none)).resident.map (·.key) =
        [shardKey] :=
  ⟨cache_consistent (Reached.of_meets (by decide +kernel)), by decide +kernel⟩

/-- A download that fails integrity, and another call for the key before the failure is
recorded. -/
abbrev failsAndReturns : List CacheEvent :=
  .begins (.hydrate shardRequest) :: List.replicate 6 (.gets 0 []) ++
    .begins (.hydrate shardRequest) :: List.replicate 4 (.gets 1 (utf8 shardText))

/-- A key whose download failed integrity is downloaded again. -/
theorem failed_key_downloaded_again : ∃ s, Reached step anyLabel
    (start smallBudget fun _ => none) s ∧ ¬ s.Consistent := by
  refine ⟨_, Reached.of_labels step _ failsAndReturns, fun h => ?_⟩
  have hcorrupt : shardKey ∈ (failsAndReturns.foldl step
      (start smallBudget fun _ => none)).corrupt := by decide +kernel
  have hdownload : ∃ p ∈ (failsAndReturns.foldl step
      (start smallBudget fun _ => none)).threads, p.downloadKey = some shardKey := by
    decide +kernel
  obtain ⟨p, hp, hkey⟩ := hdownload
  exact (h.quarantine shardKey hcorrupt).2 p hp hkey

end L1State
end Munarium
