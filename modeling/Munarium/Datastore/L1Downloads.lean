import Munarium.Datastore.L1Acts

/-! A download keeps what holds for its key and leaves the others alone. -/
namespace Munarium

theorem Gathered.start {dir : Option Dir} {components : List ManifestComponent}
    (hdir : dir.isSome = true) (hnodup : (components.map (·.path)).Nodup) :
    Gathered dir [] components := by
  obtain ⟨d, rfl⟩ := Option.isSome_iff_exists.mp hdir
  exact ⟨⟨d, rfl, nofun⟩, hnodup, nofun⟩

theorem Gathered.skip {dir : Option Dir} {files : List (String × Bytes)} {c : ManifestComponent}
    {rest : List ManifestComponent} (h : Gathered dir files (c :: rest)) :
    Gathered dir files rest := by
  have hsub : (files.map Prod.fst ++ rest.map (·.path)).Sublist
      (files.map Prod.fst ++ (c :: rest).map (·.path)) :=
    (List.sublist_cons_self _ _).append_left _
  exact ⟨h.kept, h.apart.sublist hsub, h.plain⟩

theorem Gathered.write {dir : Dir} {files : List (String × Bytes)} {c : ManifestComponent}
    {rest : List ManifestComponent} (h : Gathered (some dir) files (c :: rest)) {bytes : Bytes}
    (hplain : IsPlain c.path bytes) :
    Gathered (some (dir.write c.path bytes)) (files ++ [(c.path, bytes)]) rest := by
  have hpaths : (files ++ [(c.path, bytes)]).map Prod.fst ++ rest.map (·.path) =
      files.map Prod.fst ++ (c :: rest).map (·.path) := by simp
  obtain ⟨d, hd, hkeeps⟩ := h.kept
  cases hd
  have hnew : c.path ∉ files.map Prod.fst := by
    intro hmem
    have hdisjoint := List.nodup_append.mp h.apart
    exact hdisjoint.2.2 c.path hmem c.path List.mem_cons_self rfl
  refine ⟨⟨_, rfl, ?_⟩, hpaths ▸ h.apart, ?_⟩
  · intro f hf
    rcases List.mem_append.mp hf with hold | hlast
    · exact hkeeps.write hnew bytes f hold
    · obtain rfl := List.mem_singleton.mp hlast
      rw [Dir.lookup_write, if_pos rfl]
  · intro f hf
    rcases List.mem_append.mp hf with hold | hlast
    · exact h.plain f hold
    · obtain rfl := List.mem_singleton.mp hlast
      exact hplain

theorem Gathered.writeManifest {dir : Dir} {files : List (String × Bytes)}
    (h : Gathered (some dir) files []) (bytes : Bytes) :
    Gathered (some (dir.write Shard.MANIFEST bytes)) files [] := by
  obtain ⟨d, hd, hkeeps⟩ := h.kept
  cases hd
  refine ⟨⟨_, rfl, hkeeps.write ?_ bytes⟩, h.apart, h.plain⟩
  intro hmem
  obtain ⟨f, hf, hpath⟩ := List.mem_map.mp hmem
  exact (h.plain f hf).2 hpath

theorem Gathered.mark {dir : Dir} {files : List (String × Bytes)}
    (h : Gathered (some dir) files []) : (dir.write COMPLETE_MARKER []).Keeps files ∧
      (dir.write COMPLETE_MARKER []).lookup COMPLETE_MARKER = some [] := by
  obtain ⟨d, hd, hkeeps⟩ := h.kept
  cases hd
  constructor
  · intro f hf
    rw [Dir.lookup_write]
    split_ifs with hmarker
    · rw [(h.plain f hf).1 hmarker]
    · exact hkeeps f hf
  · rw [Dir.lookup_write, if_pos rfl]

namespace L1State

/-! When no section comes between two of another thread that belong together. -/

def unrecorded : CachePhase → Option ArtifactCacheKey
  | .released rq (.error (.integrity _)) => some rq.key
  | _ => none

/-- A key is taken up while no failure of it is still to be recorded, and an entry is pinned while
no eviction has chosen it. -/
def OrderlyTake (s : L1State) (rq : HydrateRequest) : Prop :=
  rq.key ∉ s.quarantined →
    (¬ s.Has rq.key → rq.key ∉ s.inFlight → ∀ p ∈ s.threads, unrecorded p ≠ some rq.key) ∧
    (s.Has rq.key → rq.residency = .pinned → ∀ p ∈ s.threads, p.chosen ≠ some rq.key)

/-- A candidate that no other goes before. -/
def Least (s : L1State) (returning : Option ResidentArtifact) (r : ResidentArtifact) : Prop :=
  r ∈ s.candidates returning ∧ ∀ t ∈ s.candidates returning, goesFirst t r = false

/-- An entry that is to go, where the map yields it before its equals. -/
def GoesNext (s : L1State) (returning : Option ResidentArtifact)
    (first : Option ArtifactCacheKey) (r : ResidentArtifact) : Prop :=
  s.budget.lowWatermarkBytes < s.totalBytes ∧ s.Least returning r ∧
    ∀ q ∈ s.candidates returning, s.Least returning q → first = some q.key → q.key = r.key

/-- No section comes between two of another thread that belong together, and no component has the
name of a file of the hydration's own. -/
def OrderlyAt (s : L1State) (a : CacheAnswer) : CachePhase → Prop
  | .called (.hydrate rq) => s.OrderlyTake rq
  | .called (.setResidency key residency) =>
      residency = .pinned → s.Has key → ∀ p ∈ s.threads, p.chosen ≠ some key
  | .waiting rq => rq.key ∉ s.inFlight → s.OrderlyTake rq
  | .downloading _ (.writing c bytes _) => IsPlain c.path bytes
  | .downloading d .renaming =>
      ∀ p ∈ s.threads, p.doomed.map Prod.fst ≠ some d.request.key
  | .downloading d .inserting => ∀ p ∈ s.threads, p.chosen ≠ some d.request.key
  | .choosing returning => ∀ r ∈ s.candidates returning, s.GoesNext returning a.victim r →
      ∀ p ∈ s.threads, p.returning ≠ some r.key
  | _ => True

def Orderly (s : L1State) : CacheEvent → Prop
  | .begins _ => True
  | .act i a => ∀ p ∈ s.threads[i]?, s.OrderlyAt a p

instance (path : String) (bytes : Bytes) : Decidable (IsPlain path bytes) :=
  inferInstanceAs (Decidable (_ ∧ _))

instance (s : L1State) (k : ArtifactCacheKey) : Decidable (s.Has k) :=
  inferInstanceAs (Decidable (∃ r ∈ s.resident, r.key = k))

instance (s : L1State) (rq : HydrateRequest) : Decidable (s.OrderlyTake rq) := by
  unfold OrderlyTake
  infer_instance

instance (s : L1State) (returning : Option ResidentArtifact) (r : ResidentArtifact) :
    Decidable (s.Least returning r) := by
  unfold Least
  infer_instance

instance (s : L1State) (returning : Option ResidentArtifact) (first : Option ArtifactCacheKey)
    (r : ResidentArtifact) : Decidable (s.GoesNext returning first r) := by
  unfold GoesNext
  infer_instance

instance (s : L1State) (a : CacheAnswer) (p : CachePhase) : Decidable (s.OrderlyAt a p) := by
  unfold OrderlyAt
  split <;> infer_instance

instance (s : L1State) (e : CacheEvent) : Decidable (s.Orderly e) := by
  unfold Orderly
  split <;> infer_instance

section
variable [DebugText] {s s' s'' : L1State} {k key : ArtifactCacheKey} {path : String}

theorem Elsewhere.trans (h : Elsewhere s s' k) (h' : Elsewhere s' s'' k) : Elsewhere s s'' k where
  threads := h'.threads.trans h.threads
  resident r hr := (h'.resident r hr).trans (h.resident r hr)
  inFlight := h'.inFlight.trans h.inFlight
  quarantined := h'.quarantined.trans h.quarantined
  corrupt := h'.corrupt.trans h.corrupt
  disk path hpath := ⟨(h'.disk path hpath).1.trans (h.disk path hpath).1,
    (h'.disk path hpath).2.trans (h.disk path hpath).2⟩
  verified := h'.verified.trans h.verified

theorem Elsewhere.put (hpath : key.l1RelativePath = .ok path) (hne : k ≠ key) (dir : Option Dir) :
    Elsewhere s (s.put path dir) k := by
  refine ⟨rfl, fun _ _ => .rfl, .rfl, .rfl, .rfl, ?_, rfl⟩
  intro other hother
  constructor
  · apply Function.update_of_ne
    rintro rfl
    exact hne (ArtifactCacheKey.l1RelativePath_injective hother hpath)
  · apply Function.update_of_ne
    exact (ArtifactCacheKey.ne_partialPath hpath hother).symm

theorem Elsewhere.putPartial (hpath : key.l1RelativePath = .ok path) (hne : k ≠ key)
    (dir : Option Dir) : Elsewhere s (s.put (partialPath path) dir) k := by
  refine ⟨rfl, fun _ _ => .rfl, .rfl, .rfl, .rfl, ?_, rfl⟩
  intro other hother
  constructor
  · apply Function.update_of_ne
    exact ArtifactCacheKey.ne_partialPath hother hpath
  · apply Function.update_of_ne
    intro heq
    obtain rfl := partialPath_injective heq
    exact hne (ArtifactCacheKey.l1RelativePath_injective hother hpath)

theorem Elsewhere.verify (hne : k ≠ key) (file : String) (bytes : Bytes) :
    Elsewhere s (s.verify key file bytes) k :=
  ⟨rfl, fun _ _ => .rfl, .rfl, .rfl, .rfl, fun _ _ => ⟨rfl, rfl⟩, Function.update_of_ne hne ..⟩

theorem Elsewhere.claim (hne : k ≠ key) : Elsewhere s (s.claim key) k := by
  refine ⟨rfl, fun _ _ => .rfl, ?_, .rfl, .rfl, fun _ _ => ⟨rfl, rfl⟩, Function.update_of_ne hne ..⟩
  simp [L1State.claim, hne]

theorem Elsewhere.release (hne : k ≠ key) : Elsewhere s (s.release key) k := by
  refine ⟨rfl, fun _ _ => .rfl, ?_, .rfl, .rfl, fun _ _ => ⟨rfl, rfl⟩, rfl⟩
  simp [L1State.release, hne]

theorem Elsewhere.quarantine (hne : k ≠ key) : Elsewhere s (s.quarantine key) k := by
  refine ⟨rfl, fun _ _ => .rfl, .rfl, ?_, .rfl, fun _ _ => ⟨rfl, rfl⟩, rfl⟩
  simp [L1State.quarantine, hne]

theorem Elsewhere.clearQuarantine (hne : k ≠ key) : Elsewhere s (s.clearQuarantine key) k := by
  refine ⟨rfl, fun _ _ => .rfl, .rfl, ?_, ?_, fun _ _ => ⟨rfl, rfl⟩, rfl⟩ <;>
    simp [L1State.clearQuarantine, hne]

theorem Elsewhere.adjust (hne : k ≠ key) {f : ResidentArtifact → ResidentArtifact}
    (hkey : ∀ r, (f r).key = r.key) : Elsewhere s (s.adjust key f) k := by
  refine ⟨rfl, ?_, .rfl, .rfl, .rfl, fun _ _ => ⟨rfl, rfl⟩, rfl⟩
  intro r hr
  constructor
  · intro hmem
    obtain ⟨t, ht, rfl⟩ := List.mem_map.mp hmem
    split_ifs at hr ⊢ with htk
    · exact absurd (hr.symm.trans ((hkey t).trans htk)) hne
    · exact ht
  · intro hmem
    refine List.mem_map.mpr ⟨r, hmem, if_neg ?_⟩
    rw [hr]
    exact hne

theorem Elsewhere.insert {r : ResidentArtifact} (hne : k ≠ r.key) : Elsewhere s (s.insert r) k := by
  refine ⟨rfl, ?_, .rfl, .rfl, .rfl, fun _ _ => ⟨rfl, rfl⟩, rfl⟩
  intro t ht
  have hother : t ≠ r := by
    rintro rfl
    exact hne ht.symm
  simp [L1State.insert, hother, ht, hne]

theorem Elsewhere.remove (hne : k ≠ key) : Elsewhere s (s.remove key) k := by
  refine ⟨rfl, ?_, .rfl, .rfl, .rfl, fun _ _ => ⟨rfl, rfl⟩, rfl⟩
  intro t ht
  simp [L1State.remove, ht, hne]

theorem Elsewhere.conclude {rq : HydrateRequest} (hne : k ≠ rq.key)
    (outcome : Except DatastoreError ResidentArtifact) :
    Elsewhere s (s.conclude rq outcome).1 k := by
  cases outcome with
  | ok r => exact .refl s k
  | error e =>
    cases e with
    | integrity message =>
      refine ⟨rfl, fun _ _ => .rfl, .rfl, .rfl, ?_, fun _ _ => ⟨rfl, rfl⟩, rfl⟩
      simp [L1State.conclude, hne]
    | _ => exact .refl s k

end

section
variable [DebugText] {s s' : L1State} {i : ℕ} {p p' : CachePhase} {d d' : Download}
  {pt pt' : DownloadPoint}

omit [DebugText] in
theorem sheds_download {k : ArtifactCacheKey} (hne : k ≠ d.request.key)
    (hrequest : d'.request = d.request) :
    Sheds (.downloading d pt) (.downloading d' pt') k := by
  have hkey : d'.request.key ≠ k := by
    rw [hrequest]
    exact hne.symm
  exact ⟨fun h => absurd (Option.some.inj h) hkey, fun h => hkey (Option.some.inj h), nofun, nofun,
    nofun⟩

omit [DebugText] in
theorem sheds_conclude {k : ArtifactCacheKey} {rq : HydrateRequest} (hne : k ≠ rq.key)
    {outcome : Except DatastoreError ResidentArtifact}
    (hkey : ∀ r, outcome = .ok r → r.key = rq.key) (p : CachePhase) :
    Sheds p (.concluded rq outcome) k := by
  refine ⟨fun h => absurd (Option.some.inj h).symm hne, nofun, ?_, nofun, nofun⟩
  intro h
  cases outcome with
  | error e => cases h
  | ok r => exact absurd ((Option.some.inj h).symm.trans (hkey r rfl)) hne

/-- A step is right for its own key and leaves the others alone. -/
theorem sound_of {k : ArtifactCacheKey} (h : ∀ k, s.KeySound k) (hi : s.threads[i]? = some p)
    (key : ArtifactCacheKey)
    (hown : (s'.setThread i p').KeySound key) (helse : ∀ k, k ≠ key → Elsewhere s s' k)
    (hsheds : ∀ k, k ≠ key → Sheds p p' k)
    (hfailed : ∀ k, k ≠ key → p.failed = some k → p'.failed = some k) :
    (s'.setThread i p').KeySound k := by
  by_cases hk : k = key
  · rw [hk]
    exact hown
  · exact (h k).elsewhere (helse k hk) hi (hsheds k hk) (hfailed k hk)

/-- A download that moves on. -/
theorem work_sound {k : ArtifactCacheKey} (h : ∀ k, s.KeySound k)
    (hi : s.threads[i]? = some (.downloading d pt))
    (hrequest : d'.request = d.request) (hpath : d'.path = d.path) (hsame : SameLists s s')
    (helse : ∀ k, k ≠ d.request.key → Elsewhere s s' k)
    (hprogress : d.request.key.l1RelativePath = .ok d.path →
      pt.Progress (s.disk (partialPath d.path)) (s.disk d.path) (s.verified d.request.key) →
      pt'.Progress (s'.disk (partialPath d.path)) (s'.disk d.path) (s'.verified d.request.key))
    (hsealing : (CachePhase.downloading d' pt').sealing = some d.request.key →
      (CachePhase.downloading d pt).sealing = some d.request.key ∨
        ∀ (j : ℕ) (q : CachePhase) (path : String), s.threads[j]? = some q →
          q.doomed ≠ some (d.request.key, path)) :
    (s'.setThread i (.downloading d' pt')).KeySound k := by
  apply sound_of h hi d.request.key
  · exact (h d.request.key).work hi rfl hpath hsame hprogress hsealing
  · exact helse
  · intro k hk
    exact sheds_download hk hrequest
  · intro k _ hfailed
    cases hfailed

/-- A download that fails. -/
theorem fail_sound {k : ArtifactCacheKey} (h : ∀ k, s.KeySound k)
    (hi : s.threads[i]? = some (.downloading d pt))
    (hsame : SameLists s s') (helse : ∀ k, k ≠ d.request.key → Elsewhere s s' k)
    (e : DatastoreError) :
    ((s'.conclude d.request (.error e)).1.setThread i
      (s'.conclude d.request (.error e)).2).KeySound k := by
  apply sound_of h hi d.request.key
  · exact (h d.request.key).fail hi rfl hsame e
  · intro k hk
    exact (helse k hk).trans (.conclude hk _)
  · intro k hk
    apply sheds_conclude hk
    intro r hr
    cases hr
  · intro k _ hfailed
    cases hfailed

omit [DebugText] in
theorem SameLists.refl (s : L1State) : SameLists s s := ⟨rfl, rfl, rfl, rfl, rfl⟩

omit [DebugText] in
theorem SameLists.put (s : L1State) (path : String) (dir : Option Dir) :
    SameLists s (s.put path dir) :=
  ⟨rfl, rfl, rfl, rfl, rfl⟩

section Steps
variable [Sha256] [ManifestText]

theorem readManifest_nodup {budget : CacheBudget} {rq : HydrateRequest} {bytes : Bytes}
    {components : List ManifestComponent} (h : readManifest budget rq bytes = .ok components) :
    (components.map (·.path)).Nodup := by
  unfold readManifest at h
  split at h
  case h_1 => cases h
  case h_2 =>
    split at h
    case h_1 => cases h
    case h_2 manifest hparse =>
      split at h
      case h_1 => cases h
      case h_2 hvalid =>
        split_ifs at h
        cases h
        exact Verify.validateManifest_nodup hvalid

omit [Sha256] [ManifestText] in
/-- An operation of a download that may fail. -/
theorem orConclude_sound (h : ∀ k, s.KeySound k) (hi : s.threads[i]? = some (.downloading d pt))
    {path : String} {fault : Option (Option Dir)} {done : L1State × CachePhase}
    (helse : ∀ (left : Option Dir) (k : ArtifactCacheKey), k ≠ d.request.key →
      Elsewhere s (s.put path left) k) {k : ArtifactCacheKey}
    (hdone : (done.1.setThread i done.2).KeySound k) :
    ((s.orConclude d path fault done).1.setThread i
      (s.orConclude d path fault done).2).KeySound k := by
  cases fault with
  | none => exact hdone
  | some left => exact fail_sound h hi (.put s path left) (helse left) ioError

omit [Sha256] [ManifestText] in
/-- The directory is moved to the leaf while no eviction is about to delete it. -/
theorem renaming_sound (h : ∀ k, s.KeySound k)
    (hi : s.threads[i]? = some (.downloading d .renaming)) {a : CacheAnswer}
    (hok : s.OrderlyAt a (.downloading d .renaming)) {dir : Dir}
    (hdir : s.disk (partialPath d.path) = some dir) (k : ArtifactCacheKey) :
    (((s.put d.path (some dir)).put (partialPath d.path) none).setThread i
      (.downloading d .marking)).KeySound k := by
  obtain ⟨hpath, -⟩ := (h d.request.key).progress i d .renaming hi rfl
  have hne : d.path ≠ partialPath d.path := ArtifactCacheKey.ne_partialPath hpath hpath
  refine work_sound h hi rfl rfl ⟨rfl, rfl, rfl, rfl, rfl⟩ ?_ ?_ ?_
  · intro k hk
    exact Elsewhere.trans (.put hpath hk _) (.putPartial hpath hk _)
  · intro _ hp
    simp only [DownloadPoint.Progress, hdir] at hp
    simp only [DownloadPoint.Progress, L1State.put, Function.update_of_ne hne,
      Function.update_self]
    exact hp
  · intro _
    right
    intro j q path hq hdoomed
    exact hok q (List.mem_of_getElem? hq) (congrArg (Option.map Prod.fst) hdoomed)

/-- A sealed leaf gets its entry. -/
theorem inserting_sound (h : ∀ k, s.KeySound k)
    (hi : s.threads[i]? = some (.downloading d .inserting)) {a : CacheAnswer}
    (hok : s.OrderlyAt a (.downloading d .inserting)) (k : ArtifactCacheKey) :
    ((s.download d a .inserting).1.setThread i (s.download d a .inserting).2).KeySound k := by
  apply sound_of h hi d.request.key
  · apply (h d.request.key).insert hi rfl rfl rfl
    intro j q hq
    exact hok q (List.mem_of_getElem? hq)
  · intro k hk
    exact Elsewhere.trans (.insert hk) (.conclude hk _)
  · intro k hk
    apply sheds_conclude hk
    rintro r hr
    cases hr
    rfl
  · intro k _ hfailed
    cases hfailed

theorem download_sound (h : ∀ k, s.KeySound k) (hi : s.threads[i]? = some (.downloading d pt))
    {a : CacheAnswer} (hok : s.OrderlyAt a (.downloading d pt)) (k : ArtifactCacheKey) :
    ((s.download d a pt).1.setThread i (s.download d a pt).2).KeySound k := by
  obtain ⟨hpath, -⟩ := (h d.request.key).progress i d pt hi rfl
  have hne : d.path ≠ partialPath d.path := ArtifactCacheKey.ne_partialPath hpath hpath
  have hquiet (k : ArtifactCacheKey) (_ : k ≠ d.request.key) : Elsewhere s s k := .refl s k
  have hput (dir : Option Dir) (k : ArtifactCacheKey) (hk : k ≠ d.request.key) :
      Elsewhere s (s.put (partialPath d.path) dir) k := .putPartial hpath hk dir
  have hleaf (dir : Option Dir) (k : ArtifactCacheKey) (hk : k ≠ d.request.key) :
      Elsewhere s (s.put d.path dir) k := .put hpath hk dir
  have hfail (e : DatastoreError) : (s.setThread i (.downloading d (.failing e))).KeySound k := by
    refine work_sound h hi rfl rfl (.refl s) hquiet ?_ ?_
    · intro _ _
      trivial
    · intro hseal
      cases hseal
  have hleft (dir : Option Dir) (e : DatastoreError) :
      ((s.put (partialPath d.path) dir).setThread i (.downloading d (.failing e))).KeySound k := by
    refine work_sound h hi rfl rfl (.put s _ dir) (hput dir) ?_ ?_
    · intro _ _
      trivial
    · intro hseal
      cases hseal
  have hconclude (e : DatastoreError) :
      ((s.conclude d.request (.error e)).1.setThread i
        (s.conclude d.request (.error e)).2).KeySound k :=
    fail_sound h hi (.refl s) hquiet e
  fun_cases download s d a pt
  case case1 => exact work_sound h hi rfl rfl (.refl s) hquiet (fun _ hp => hp) nofun
  case case2 => exact work_sound h hi rfl rfl (.refl s) hquiet (fun _ hp => hp) nofun
  case case3 =>
    apply orConclude_sound h hi hput
    exact work_sound h hi rfl rfl (.put s _ none) (hput none) (fun _ hp => hp) nofun
  case case5 =>
    apply orConclude_sound h hi hput
    refine work_sound h hi rfl rfl (.put s _ _) (hput _) ?_ ?_
    · intro _ hp
      exact ⟨hp, by simp [L1State.put]⟩
    · nofun
  case case8 hread =>
    refine work_sound h hi rfl rfl (.refl s) hquiet ?_ ?_
    · rintro - ⟨hfiles, hdir⟩
      rw [hfiles]
      exact .start hdir (readManifest_nodup hread)
    · nofun
  case case9 => exact work_sound h hi rfl rfl (.refl s) hquiet (fun _ hp => hp) nofun
  case case11 => exact work_sound h hi rfl rfl (.refl s) hquiet (fun _ hp => hp) nofun
  case case13 => exact work_sound h hi rfl rfl (.refl s) hquiet (fun _ hp => hp.skip) nofun
  case case16 c rest bytes hbytes hverify =>
    refine work_sound h hi rfl rfl ⟨rfl, rfl, rfl, rfl, rfl⟩ ?_ ?_ ?_
    · intro k hk
      exact .verify hk c.path bytes
    · intro _ hp
      exact ⟨_, Function.update_self .., hp⟩
    · nofun
  case case17 c bytes rest dir hdir _ =>
    refine work_sound h hi rfl rfl (.put s _ _) (hput _) ?_ ?_
    · rintro - ⟨before, hfiles, hp⟩
      rw [hdir] at hp
      simp only [L1State.put, Function.update_self, hfiles]
      exact hp.write hok
    · nofun
  case case19 => exact hleft _ ioError
  case case20 dir hdir _ =>
    refine work_sound h hi rfl rfl (.put s _ _) (hput _) ?_ ?_
    · intro _ hp
      simp only [DownloadPoint.Progress, hdir] at hp
      simp only [L1State.put, Function.update_self]
      exact hp.writeManifest d.manifest
    · nofun
  case case22 => exact hleft _ ioError
  case case23 e => exact fail_sound h hi (.put s _ _) (hput _) e
  case case24 => exact work_sound h hi rfl rfl (.refl s) hquiet (fun _ hp => hp) nofun
  case case26 => exact work_sound h hi rfl rfl (.refl s) hquiet (fun _ hp => hp) nofun
  case case27 => exact work_sound h hi rfl rfl (.refl s) hquiet (fun _ hp => hp) nofun
  case case28 =>
    apply orConclude_sound h hi hleaf
    refine work_sound h hi rfl rfl (.put s _ none) (hleaf none) ?_ nofun
    intro _ hp
    simp only [DownloadPoint.Progress, L1State.put, Function.update_of_ne hne.symm]
    exact hp
  case case30 dir _ hdir _ => exact renaming_sound h hi hok hdir k
  case case31 dir _ hdir _ => exact renaming_sound h hi hok hdir k
  case case33 dir hdir =>
    apply orConclude_sound h hi hleaf
    refine work_sound h hi rfl rfl (.put s _ _) (hleaf _) ?_ fun _ => .inl rfl
    intro _ hp
    simp only [DownloadPoint.Progress, hdir] at hp
    exact ⟨_, Function.update_self .., hp.mark⟩
  case case35 => exact inserting_sound h hi hok k
  all_goals first | exact hfail _ | exact hconclude _

end Steps

end

end L1State
end Munarium
