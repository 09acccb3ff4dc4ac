import Munarium.Retrieval.IndexBuild

/-! The index id against the rows it stands for. The identity text gives back the extractor
set and the bound sources with their hashes; the chunk limit and the media types are not in it,
and both reach the rows. -/
namespace Munarium

/-- The separators of the identity text. -/
def IdSeparator (c : Char) : Prop := c = '|' ∨ c = ',' ∨ c = ':'

theorem hexDigit_not_separator {c : Char} (hc : IdSeparator c) (n : Fin 16) : hexDigit n ≠ c := by
  rcases hc with rfl | rfl | rfl <;> revert n <;> decide

section
variable [Sha256]

theorem sha256Hex_no_separator {c : Char} (hc : IdSeparator c) (bytes : Bytes) :
    c ∉ (sha256Hex bytes).toList := by
  have h := notMem_append_hexEncode (s := "") (c := c) (by simp) (hexDigit_not_separator hc)
    (Sha256.digest bytes)
  simpa [sha256Hex] using h

theorem sourceId_no_separator {c : Char} (hc : IdSeparator c) (tenant path : String) :
    c ∉ (sourceId tenant path).toList := by
  rw [sourceId, String.toList_append, List.mem_append]
  rintro (h | h)
  · rcases hc with rfl | rfl | rfl <;> exact absurd h (by decide)
  · rw [shortHex, String.toList_ofList] at h
    exact sha256Hex_no_separator hc _ (List.mem_of_mem_take h)

theorem sourceIdentity_pieces (tenant : String) (s : BoundSource) :
    pieces ':' (s.identity tenant) = [sourceId tenant s.filename, s.contentHash] := by
  have hc : IdSeparator ':' := .inr (.inr rfl)
  rw [BoundSource.identity, show (":" : String) = String.singleton ':' from rfl, pieces_append,
    pieces_eq_singleton (sourceId_no_separator hc _ _),
    pieces_eq_singleton (show ':' ∉ s.contentHash.toList from sha256Hex_no_separator hc _)]
  rfl

theorem sourceIdentity_no_separator {c : Char} (hc : c = '|' ∨ c = ',') (tenant : String)
    (s : BoundSource) : c ∉ (s.identity tenant).toList := by
  have hsep : IdSeparator c := hc.imp_right .inl
  have hne : c ≠ ':' := by rcases hc with rfl | rfl <;> decide
  rw [BoundSource.identity, String.toList_append, String.toList_append, List.mem_append,
    List.mem_append]
  rintro ((h | h) | h)
  · exact sourceId_no_separator hsep _ _ h
  · exact hne (by simpa using h)
  · exact sha256Hex_no_separator hsep _ h

omit [Sha256] in
theorem notMem_join {c : Char} {sep : String} (hsep : c ∉ sep.toList) {ps : List String}
    (h : ∀ p ∈ ps, c ∉ p.toList) : c ∉ (join sep ps).toList := by
  induction ps with
  | nil => simp [join]
  | cons p rest ih =>
    have hp := h p List.mem_cons_self
    have hrest := ih fun q hq => h q (List.mem_cons_of_mem _ hq)
    cases rest with
    | nil => exact hp
    | cons q rest =>
      rw [join_cons_cons, String.toList_append, String.toList_append, List.mem_append,
        List.mem_append]
      rintro ((h | h) | h)
      · exact hp h
      · exact hsep h
      · exact hrest h

omit [Sha256] in
theorem registryVersion_no_bar (extractors : List ExtractorKind) :
    '|' ∉ (registryVersion extractors).toList := by
  have hids : '|' ∉ (join "," ((extractors.map ExtractorKind.id).insertionSort
      (· ≤ ·))).toList := by
    apply notMem_join (by decide)
    intro p hp
    obtain ⟨e, -, rfl⟩ := List.mem_map.mp ((List.perm_insertionSort _ _).mem_iff.mp hp)
    cases e <;> decide
  rw [registryVersion, String.toList_append, String.toList_append, String.toList_append,
    List.mem_append, List.mem_append, List.mem_append]
  rintro (((h | h) | h) | h)
  · exact absurd h (by decide)
  · exact absurd h (by decide)
  · exact hids h
  · exact absurd h (by decide)

theorem sourceSet_no_bar (tenant : String) (sources : List BoundSource) :
    '|' ∉ (join "," (sources.map (BoundSource.identity tenant))).toList := by
  apply notMem_join (by decide)
  intro p hp
  obtain ⟨s, -, rfl⟩ := List.mem_map.mp hp
  exact sourceIdentity_no_separator (.inl rfl) tenant s

theorem buildIdentity_pieces (tenant : String) (scope : BuildScope)
    (extractors : List ExtractorKind) (sources : List BoundSource) :
    pieces '|' (buildIdentity tenant scope extractors sources) =
      pieces '|' scope.text ++ [chunkerVersion, localEmbedder, registryVersion extractors,
        join "," (sources.map (BoundSource.identity tenant))] := by
  rw [buildIdentity, show ("|" : String) = String.singleton '|' from rfl, pieces_append,
    pieces_append, pieces_append, pieces_append,
    pieces_eq_singleton (show '|' ∉ chunkerVersion.toList by decide),
    pieces_eq_singleton (show '|' ∉ localEmbedder.toList by decide),
    pieces_eq_singleton (registryVersion_no_bar extractors),
    pieces_eq_singleton (sourceSet_no_bar tenant sources)]
  simp

/-- The identity text determines the scope text, the extractor set and the source set. -/
theorem buildIdentity_inj {tenant : String} {scope scope' : BuildScope}
    {extractors extractors' : List ExtractorKind} {sources sources' : List BoundSource}
    (hne : sources ≠ []) (hne' : sources' ≠ [])
    (h : buildIdentity tenant scope extractors sources =
      buildIdentity tenant scope' extractors' sources') :
    scope.text = scope'.text ∧ registryVersion extractors = registryVersion extractors' ∧
      sources.map (BoundSource.identity tenant) =
        sources'.map (BoundSource.identity tenant) := by
  have hpieces := congrArg (pieces '|') h
  rw [buildIdentity_pieces, buildIdentity_pieces] at hpieces
  obtain ⟨hscope, htail⟩ := List.append_inj' hpieces rfl
  simp only [List.cons.injEq, and_true, true_and] at htail
  obtain ⟨hversion, hset⟩ := htail
  refine ⟨pieces_injective _ hscope, hversion, ?_⟩
  have hsplit (l : List BoundSource) (hl : l ≠ []) :
      pieces ',' (join "," (l.map (BoundSource.identity tenant))) =
        l.map (BoundSource.identity tenant) := by
    apply pieces_join (by simpa using hl)
    intro p hp
    obtain ⟨s, -, rfl⟩ := List.mem_map.mp hp
    exact sourceIdentity_no_separator (.inr rfl) tenant s
  rw [← hsplit sources hne, ← hsplit sources' hne', hset]

theorem sourceIdentity_inj {tenant : String} (hsha : Function.Injective Sha256.digest)
    {s s' : BoundSource} (h : s.identity tenant = s'.identity tenant) :
    sourceId tenant s.filename = sourceId tenant s'.filename ∧ s.bytes = s'.bytes := by
  have hpieces := congrArg (pieces ':') h
  rw [sourceIdentity_pieces, sourceIdentity_pieces] at hpieces
  simp only [List.cons.injEq, and_true] at hpieces
  exact ⟨hpieces.1, sha256Hex_injective hsha hpieces.2⟩

variable [Extraction]

/-- A common source has one media type in both builds. -/
def SameMedia (tenant : String) (b b' : Build) : Prop :=
  ∀ s ∈ b.sources, ∀ s' ∈ b'.sources, s.identity tenant = s'.identity tenant →
    s.mediaType = s'.mediaType

/-- Equal ids stand for equal rows. -/
def IdentityDeterminesRows (tenant : String) (b b' : Build) : Prop :=
  ∀ id rows id' rows', b.run tenant = .ok (id, rows) → b'.run tenant = .ok (id', rows') →
    id = id' → rows = rows'

/-- The sixteen digits tell the two identity texts apart. -/
def DistinctDigits (tenant : String) (b b' : Build) : Prop :=
  shortHex (buildIdentity tenant b.scope b.extractors b.sources) =
      shortHex (buildIdentity tenant b'.scope b'.extractors b'.sources) →
    buildIdentity tenant b.scope b.extractors b.sources =
      buildIdentity tenant b'.scope b'.extractors b'.sources

theorem run_ok {tenant : String} {b : Build} {id : String} {rows : List ChunkRow}
    (h : b.run tenant = .ok (id, rows)) :
    b.sources ≠ [] ∧ id = buildIndexId tenant b.scope b.extractors b.sources ∧
      chunkRows tenant b.extractors b.maxChars b.sources = .ok rows := by
  rw [Build.run] at h
  split at h
  · cases h
  · rename_i hne
    obtain ⟨rows', hrows, hpure⟩ := bind_eq_ok.mp h
    injection hpure with he
    injection he with hid hr
    exact ⟨hne, hid.symm, hr ▸ hrows⟩

omit [Sha256] [Extraction] in
/-- Lists with equal keys give equal results when elements with equal keys do. -/
theorem mapM_congr_of_keys {α β κ : Type} {f g : α → Result β} {key : α → κ} {l l' : List α}
    (hkeys : l.map key = l'.map key)
    (h : ∀ a ∈ l, ∀ a' ∈ l', key a = key a' → f a = g a') : l.mapM f = l'.mapM g := by
  induction l generalizing l' with
  | nil =>
    obtain rfl : l' = [] := List.map_eq_nil_iff.mp hkeys.symm
    rfl
  | cons a l ih =>
    cases l' with
    | nil => simp at hkeys
    | cons a' l' =>
      simp only [List.map_cons, List.cons.injEq] at hkeys
      have hhead := h a List.mem_cons_self a' List.mem_cons_self hkeys.1
      have htail := ih hkeys.2 fun b hb b' hb' =>
        h b (List.mem_cons_of_mem _ hb) b' (List.mem_cons_of_mem _ hb')
      rw [List.mapM_cons, List.mapM_cons, hhead, htail]

/-- Builds of one id, limit and media type per source cut the same rows. -/
theorem chunkRows_eq_of_same {tenant : String} (hsha : Function.Injective Sha256.digest)
    {b b' : Build} (hne : b.sources ≠ []) (hne' : b'.sources ≠ [])
    (hid : buildIndexId tenant b.scope b.extractors b.sources =
      buildIndexId tenant b'.scope b'.extractors b'.sources)
    (hdigits : DistinctDigits tenant b b') (hmax : b.maxChars = b'.maxChars)
    (hmedia : SameMedia tenant b b') :
    chunkRows tenant b.extractors b.maxChars b.sources =
      chunkRows tenant b'.extractors b'.maxChars b'.sources := by
  have hshort := congrArg String.toList hid
  rw [buildIndexId, buildIndexId, String.toList_append, String.toList_append] at hshort
  obtain ⟨-, hversion, hset⟩ := buildIdentity_inj hne hne'
    (hdigits (String.toList_injective (List.append_cancel_left hshort)))
  rw [chunkRows, chunkRows, mapM_congr_of_keys hset]
  intro s hs s' hs' he
  obtain ⟨hsource, hbytes⟩ := sourceIdentity_inj hsha he
  rw [BoundSource.chunks, BoundSource.chunks, BoundSource.contentHash,
    BoundSource.contentHash, hsource, hbytes, hversion, hmedia s hs s' hs' he, hmax]

/-- Builds with one limit and one media type per source are determined by their ids. -/
theorem identityDeterminesRows_of_same {tenant : String}
    (hsha : Function.Injective Sha256.digest) {b b' : Build}
    (hdigits : DistinctDigits tenant b b') (hmax : b.maxChars = b'.maxChars)
    (hmedia : SameMedia tenant b b') : IdentityDeterminesRows tenant b b' := by
  intro id rows id' rows' hrun hrun' hid
  obtain ⟨hne, rfl, hrows⟩ := run_ok hrun
  obtain ⟨hne', rfl, hrows'⟩ := run_ok hrun'
  have hsame := chunkRows_eq_of_same hsha hne hne' hid hdigits hmax hmedia
  rw [hrows, hrows'] at hsame
  exact Except.ok.inj hsame

/-- One plain-text source of `n` letters under a limit. -/
def textBuild (n maxChars : ℕ) : Build :=
  ⟨.shape "notes@1", [], [⟨"a.txt", "text/plain", List.replicate n 97⟩], maxChars⟩

theorem textBuild_run (tenant : String) (n maxChars : ℕ) {rows : List ChunkRow}
    (h : sourceRows (sourceId tenant "a.txt") (sha256Hex (List.replicate n 97))
      (chunkText (letters n) maxChars) = .ok rows) :
    (textBuild n maxChars).run tenant =
      .ok (buildIndexId tenant (.shape "notes@1") [] (textBuild n 0).sources, rows) := by
  have htext : Extraction.extract (registryVersion []) "text/plain" (List.replicate n 97) =
      letters n := by
    rw [Extraction.plain, List.map_replicate]
    · rfl
    · intro b hb
      rw [List.eq_of_mem_replicate hb]
      decide
  simp only [Build.run, textBuild, chunkRows, List.mapM_cons, List.mapM_nil, BoundSource.chunks,
    BoundSource.contentHash, htext, h]
  simp [bind, Except.bind, pure, Except.pure]

/-- Under two limits some text is cut differently, and the id does not see it. -/
theorem limit_matters (tenant : String) {m m' : ℕ} (hm : 0 < m) (h : m < m') :
    ¬IdentityDeterminesRows tenant (textBuild (m + 1) m) (textBuild (m + 1) m') := by
  intro hdet
  have htwo := textBuild_run tenant (m + 1) m
    (by rw [chunkText_over hm]; rfl)
  have hone := textBuild_run tenant (m + 1) m'
    (by rw [chunkText_fits (Nat.succ_pos m) h]; rfl)
  have hrows := congrArg List.length (hdet _ _ _ _ htwo hone rfl)
  simp at hrows

end

/-- A digest that keeps its input, for runs on short texts. -/
abbrev copySha256 : Sha256 := ⟨id⟩

section Runs

attribute [local instance] copySha256 asciiExtraction

/-- The same text indexed for a collection. -/
def collectionBuild : Build :=
  ⟨.collection "col-1" "letters" "notes@1", [], (textBuild 3 2).sources, 2⟩

theorem distinctDigits_collectionBuild : DistinctDigits "demo" (textBuild 3 2) collectionBuild :=
  fun h => absurd h (by decide +kernel)

end Runs
end Munarium
