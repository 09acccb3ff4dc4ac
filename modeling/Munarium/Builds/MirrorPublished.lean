import Munarium.Builds.MirrorLinks

/-! Verified means published. While each build that takes over a `sealed` row publishes where the
row says, a verified artifact has its manifest and every component stored under its prefix. -/
namespace Munarium
open Positions StableSort

section
variable [Sha256]

omit [Sha256] in
theorem SealedFiles.written_paths (f : SealedFiles) :
    (f.written.map Prod.fst).Nodup ∧ MANIFEST ∉ f.written.map Prod.fst := by
  obtain ⟨buildSpec, artifactPlan, recordsBody, recordsIndex, lexical, vector⟩ := f
  cases vector with
  | none =>
    show List.Nodup [BUILD_SPEC, ARTIFACT_PLAN, RECORDS_BODY, RECORDS_INDEX, LEXICAL_INDEX] ∧
      MANIFEST ∉ [BUILD_SPEC, ARTIFACT_PLAN, RECORDS_BODY, RECORDS_INDEX, LEXICAL_INDEX]
    decide
  | some v =>
    show List.Nodup [BUILD_SPEC, ARTIFACT_PLAN, RECORDS_BODY, RECORDS_INDEX, LEXICAL_INDEX,
      v.1.path] ∧ MANIFEST ∉ [BUILD_SPEC, ARTIFACT_PLAN, RECORDS_BODY, RECORDS_INDEX,
        LEXICAL_INDEX, v.1.path]
    cases v.1 <;> decide

theorem SealedFiles.components_paths (f : SealedFiles) :
    (f.components.map Component.path).Perm (f.written.map Prod.fst) := by
  have hperm := (sortBy_perm (fun a b => compare a.path b.path)
    (f.written.map fun x => (⟨x.1, x.2.length, sha256Hex x.2⟩ : Component))).map Component.path
  rwa [List.map_map] at hperm

theorem SealedFiles.path_ne_manifest {f : SealedFiles} {c : Component} (hc : c ∈ f.components) :
    c.path ≠ MANIFEST := by
  intro heq
  apply f.written_paths.2
  rw [← f.components_paths.mem_iff, ← heq]
  exact List.mem_map_of_mem hc

/-- One path, one component. -/
theorem SealedFiles.component_unique {f : SealedFiles} {c d : Component}
    (hc : c ∈ f.components) (hd : d ∈ f.components) (h : c.path = d.path) : c = d :=
  List.inj_on_of_nodup_map (f.components_paths.nodup_iff.mpr f.written_paths.1) hc hd h

theorem slash_notMem_sha256Hex (bytes : Bytes) : '/' ∉ (sha256Hex bytes).toList := by
  have h := notMem_append_hexEncode (show '/' ∉ ("" : String).toList by decide)
    (fun n => by revert n; decide) (Sha256.digest bytes)
  simpa [sha256Hex] using h

/-- Prefixes end with the artifact's id, so they tell artifacts apart. -/
theorem prefix_injective {base base' : String} {x y : Bytes}
    (h : base ++ "/" ++ sha256Hex x = base' ++ "/" ++ sha256Hex y) :
    sha256Hex x = sha256Hex y := by
  have hlist := congrArg String.toList h
  simp only [String.toList_append, List.append_assoc] at hlist
  change base.toList ++ '/' :: (sha256Hex x).toList =
    base'.toList ++ '/' :: (sha256Hex y).toList at hlist
  have hx := slash_notMem_sha256Hex x
  have hy := slash_notMem_sha256Hex y
  apply String.toList_injective
  rcases List.append_eq_append_iff.mp hlist with ⟨c, -, hc⟩ | ⟨c, -, hc⟩
  · cases c with
    | nil => exact (List.cons.inj hc).2
    | cons d c => exact absurd (by rw [(List.cons.inj hc).2]; simp) hx
  · cases c with
    | nil => exact ((List.cons.inj hc).2).symm
    | cons d c => exact absurd (by rw [(List.cons.inj hc).2]; simp) hy

namespace World

def StoredComponent (w : World) (uri : String) (c : Component) : Prop :=
  ∃ bytes, w.objects uri c.path = some bytes ∧ verifyComponent c bytes

def StoredManifest (w : World) (uri id : String) : Prop :=
  ∃ bytes, w.objects uri MANIFEST = some bytes ∧ verifyManifestBytes bytes id

variable [ManifestJson]

/-- The manifest that hashes to the id is stored under the row's prefix, and with it every
component that it names, as it says. -/
def Published (w : World) (id : String) : Prop :=
  ∃ uri bytes components, w.artifactUri id = some uri ∧ w.objects uri MANIFEST = some bytes ∧
    sha256Hex bytes = id ∧ ManifestJson.fromSlice bytes = some components ∧
    ∀ c ∈ components, w.StoredComponent uri c

/-- Rows of the catalog are of sealed artifacts, each under a prefix that ends with its id. -/
structure Catalog (w : World) : Prop where
  row : ∀ id, w.Catalogued id → ∃ (a : SealedArtifact) (base : String),
    a.artifactId = id ∧ w.artifactUri id = some (base ++ "/" ++ id)
  published : ∀ id, w.Verified id → w.Published id

/-- What is stored of catalogued artifacts under their prefixes stays so. -/
structure Keeps (w w' : World) : Prop where
  component : ∀ (a : SealedArtifact) base c, c ∈ a.files.components →
    w.StoredComponent (base ++ "/" ++ a.artifactId) c →
    w'.StoredComponent (base ++ "/" ++ a.artifactId) c
  manifest : ∀ (a : SealedArtifact) base,
    w.StoredManifest (base ++ "/" ++ a.artifactId) a.artifactId →
    w'.StoredManifest (base ++ "/" ++ a.artifactId) a.artifactId

variable {w w' : World}

theorem Keeps.of_eq (h : w'.objects = w.objects) : Keeps w w' where
  component a base c _ := by
    rintro ⟨bytes, hbytes, hverify⟩
    exact ⟨bytes, by rw [h, hbytes], hverify⟩
  manifest a base := by
    rintro ⟨bytes, hbytes, hverify⟩
    exact ⟨bytes, by rw [h, hbytes], hverify⟩

omit [Sha256] [ManifestJson] in
theorem putObject_self (uri path : String) (bytes : Bytes) :
    (w.putObject uri path bytes).objects uri path = some bytes := by
  simp [putObject]

omit [Sha256] [ManifestJson] in
theorem putObject_other {uri path other place : String} {bytes : Bytes}
    (h : other ≠ uri ∨ place ≠ path) :
    (w.putObject uri path bytes).objects other place = w.objects other place := by
  by_cases huri : other = uri
  · subst huri
    rw [putObject]
    simp only [Function.update_self]
    rw [Function.update_of_ne (h.resolve_left (by simp))]
  · rw [putObject]
    simp only
    rw [Function.update_of_ne huri]

theorem manifestBytes_eq (hsha : Function.Injective Sha256.digest) {a b : SealedArtifact}
    (h : a.artifactId = b.artifactId) : a.files.components = b.files.components := by
  have hbytes : a.manifestBytes = b.manifestBytes := sha256Hex_injective hsha h
  have hreads := a.reads
  rw [hbytes, b.reads] at hreads
  exact (Option.some.inj hreads).symm

/-- A component that checks against its manifest overwrites nothing but itself. -/
theorem keeps_putComponent (hsha : Function.Injective Sha256.digest) (a : SealedArtifact)
    (base : String) {c : Component} {bytes : Bytes} (hc : c ∈ a.files.components)
    (hbytes : verifyComponent c bytes) :
    Keeps w (w.putObject (base ++ "/" ++ a.artifactId) c.path bytes) where
  component b base' d hd := by
    rintro ⟨stored, hstored, hverify⟩
    by_cases hplace : base' ++ "/" ++ b.artifactId = base ++ "/" ++ a.artifactId ∧
      d.path = c.path
    · obtain ⟨huri, hpath⟩ := hplace
      have hid : b.artifactId = a.artifactId := prefix_injective huri
      rw [manifestBytes_eq hsha hid] at hd
      obtain rfl := SealedFiles.component_unique hd hc hpath
      exact ⟨bytes, by rw [huri, putObject_self], hbytes⟩
    · exact ⟨stored, by rw [putObject_other (not_and_or.mp hplace), hstored], hverify⟩
  manifest b base' := by
    rintro ⟨stored, hstored, hverify⟩
    refine ⟨stored, ?_, hverify⟩
    rw [putObject_other (.inr (SealedFiles.path_ne_manifest hc).symm), hstored]

/-- A manifest that hashes to its artifact's id overwrites no component. -/
theorem keeps_putManifest (a : SealedArtifact) (base : String) {bytes : Bytes}
    (hbytes : verifyManifestBytes bytes a.artifactId) :
    Keeps w (w.putObject (base ++ "/" ++ a.artifactId) MANIFEST bytes) where
  component b base' d hd := by
    rintro ⟨stored, hstored, hverify⟩
    refine ⟨stored, ?_, hverify⟩
    rw [putObject_other (.inr (SealedFiles.path_ne_manifest hd)), hstored]
  manifest b base' := by
    rintro ⟨stored, hstored, hverify⟩
    by_cases huri : base' ++ "/" ++ b.artifactId = base ++ "/" ++ a.artifactId
    · have hid : b.artifactId = a.artifactId := prefix_injective huri
      exact ⟨bytes, by rw [huri, putObject_self], by rw [hid]; exact hbytes⟩
    · exact ⟨stored, by rw [putObject_other (.inl huri), hstored], hverify⟩

theorem Published.of_stored {a : SealedArtifact} {base : String}
    (huri : w.artifactUri a.artifactId = some (base ++ "/" ++ a.artifactId))
    (hsha : Function.Injective Sha256.digest)
    (hcomponents : ∀ c ∈ a.files.components,
      w.StoredComponent (base ++ "/" ++ a.artifactId) c)
    (hmanifest : w.StoredManifest (base ++ "/" ++ a.artifactId) a.artifactId) :
    w.Published a.artifactId := by
  obtain ⟨bytes, hbytes, hverify⟩ := hmanifest
  have hid : sha256Hex bytes = a.artifactId := by simpa [verifyManifestBytes] using hverify
  have hsame : bytes = a.manifestBytes := sha256Hex_injective hsha hid
  exact ⟨_, bytes, a.files.components, huri, hbytes, hid, by rw [hsame, a.reads], hcomponents⟩

theorem Published.keeps {own : Option ℕ} {id : String} (h : w.Published id)
    (hsha : Function.Injective Sha256.digest) (hcatalog : w.Catalog) (hid : w.Catalogued id)
    (hlater : w.Later own w') (hkeeps : Keeps w w') : w'.Published id := by
  obtain ⟨uri, bytes, components, huri, hbytes, hsame, hreads, hcomponents⟩ := h
  obtain ⟨a, base, rfl, hbase⟩ := hcatalog.row id hid
  obtain rfl := Option.some.inj (huri.symm.trans hbase)
  have hmanifest : bytes = a.manifestBytes := sha256Hex_injective hsha hsame
  have hfiles : components = a.files.components :=
    Option.some.inj ((hreads.symm.trans (by rw [hmanifest])).trans a.reads)
  subst hfiles
  apply Published.of_stored (hlater.uri _ _ hid huri) hsha
  · intro c hc
    exact hkeeps.component a base c hc (hcomponents c hc)
  · apply hkeeps.manifest a base
    exact ⟨bytes, hbytes, by simpa [verifyManifestBytes] using hsame⟩

/-- Steps that leave the catalog's rows as they are, and what is stored. -/
theorem Catalog.later {own : Option ℕ} (h : w.Catalog) (hsha : Function.Injective Sha256.digest)
    (hlater : w.Later own w') (hkeeps : Keeps w w')
    (hartifacts : w'.bindings.artifacts = w.bindings.artifacts) : w'.Catalog where
  row id hid := by
    rw [Catalogued, hartifacts] at hid
    obtain ⟨a, base, hartifact, huri⟩ := h.row id hid
    exact ⟨a, base, hartifact, hlater.uri _ _ hid huri⟩
  published id hid := by
    rw [Verified, hartifacts] at hid
    exact (h.published id hid).keeps hsha h (Verified.catalogued hid) hlater hkeeps

theorem Catalog.insertSealed (h : w.Catalog) (hsha : Function.Injective Sha256.digest)
    {a : SealedArtifact} {base : String}
    (hinsert : w.insertSealed a.artifactId (base ++ "/" ++ a.artifactId) = some w') :
    w'.Catalog := by
  have hlater : w.Later none w' := later_insertSealed hinsert
  obtain ⟨hnone, rfl⟩ := insertSealed_ok hinsert
  constructor
  · intro id hid
    by_cases heq : id = a.artifactId
    · subst heq
      exact ⟨a, base, rfl, by simp⟩
    · have hid' : w.Catalogued id := by
        simpa [Catalogued, setState, Function.update_of_ne heq] using hid
      obtain ⟨b, base', hartifact, huri⟩ := h.row id hid'
      exact ⟨b, base', hartifact, hlater.uri _ _ hid' huri⟩
  · intro id hid
    have hne : id ≠ a.artifactId := by
      rintro rfl
      simp [Verified, setState] at hid
    have hid' : w.Verified id := by
      simpa [Verified, setState, Function.update_of_ne hne] using hid
    exact (h.published id hid').keeps hsha h hid'.catalogued hlater (.of_eq rfl)

theorem Catalog.markVerified (h : w.Catalog) (hsha : Function.Injective Sha256.digest)
    {id : String} (hpublished : w.Published id) (hmark : w.markVerified id = some w') :
    w'.Catalog := by
  have hlater : w.Later none w' := later_markVerified hmark
  obtain ⟨hsealed, rfl⟩ := markVerified_ok hmark
  have hid : w.Catalogued id := by
    rw [Catalogued, hsealed]
    rfl
  have hback (other : String) (hother : (w.setState id .verified).Catalogued other) :
      w.Catalogued other := by
    by_cases heq : other = id
    · rwa [heq]
    · simpa [Catalogued, setState, Function.update_of_ne heq] using hother
  constructor
  · intro other hother
    obtain ⟨b, base, hartifact, huri⟩ := h.row other (hback other hother)
    exact ⟨b, base, hartifact, huri⟩
  · intro other hother
    have hstored : w.Published other := by
      by_cases heq : other = id
      · rwa [heq]
      · apply h.published
        simpa [Verified, setState, Function.update_of_ne heq] using hother
    exact hstored.keeps hsha h (hback other hother.catalogued) hlater (.of_eq rfl)

end World

variable [ManifestJson] {version nodeId : String} {site : Site} {w w' : World}

/-- What a publication has stored when it stands at a step. -/
def Publication.Progress (w : World) (pub : Publication) : PublishPhase → Prop
  | .readStaged rest => (∀ c ∈ rest, c ∈ pub.components) ∧
      ∀ c ∈ pub.components, c ∈ rest ∨ w.StoredComponent pub.uri c
  | .upload c bytes rest => c ∈ pub.components ∧ verifyComponent c bytes ∧
      (∀ d ∈ rest, d ∈ pub.components) ∧
      ∀ d ∈ pub.components, d = c ∨ d ∈ rest ∨ w.StoredComponent pub.uri d
  | .readStagedManifest => ∀ c ∈ pub.components, w.StoredComponent pub.uri c
  | .uploadManifest bytes => (∀ c ∈ pub.components, w.StoredComponent pub.uri c) ∧
      verifyManifestBytes bytes pub.artifactId
  | .readBack | .markVerified => (∀ c ∈ pub.components, w.StoredComponent pub.uri c) ∧
      w.StoredManifest pub.uri pub.artifactId
  | .readBinding | .bindStaged => True

/-- A publication is of a sealed artifact, to the prefix that the catalog's row says. -/
structure Publication.Published (w : World) (pub : Publication) (p : PublishPhase) : Prop where
  sealed : ∃ (a : SealedArtifact) (base : String), a.artifactId = pub.artifactId ∧
    a.files.components = pub.components ∧ pub.uri = base ++ "/" ++ pub.artifactId
  uri : w.artifactUri pub.artifactId = some pub.uri
  progress : pub.Progress w p

theorem Publication.Published.later {own : Option ℕ} {pub : Publication} {p : PublishPhase}
    (h : pub.Published w p) (hid : w.Catalogued pub.artifactId) (hlater : w.Later own w')
    (hkeeps : w.Keeps w') : pub.Published w' p := by
  refine ⟨h.sealed, hlater.uri _ _ hid h.uri, ?_⟩
  have hprogress := h.progress
  obtain ⟨a, base, hartifact, hcomponents, huri⟩ := h.sealed
  have hcomponent (c : Component) (hc : c ∈ pub.components)
      (hstored : w.StoredComponent pub.uri c) : w'.StoredComponent pub.uri c := by
    rw [huri, ← hartifact] at hstored ⊢
    exact hkeeps.component a base c (hcomponents ▸ hc) hstored
  have hmanifest (hstored : w.StoredManifest pub.uri pub.artifactId) :
      w'.StoredManifest pub.uri pub.artifactId := by
    rw [huri, ← hartifact] at hstored ⊢
    exact hkeeps.manifest a base hstored
  cases p with
  | readStaged rest =>
    exact ⟨hprogress.1, fun c hc => (hprogress.2 c hc).imp_right (hcomponent c hc)⟩
  | upload c bytes rest =>
    obtain ⟨hc, hbytes, hrest, hstored⟩ := hprogress
    exact ⟨hc, hbytes, hrest, fun d hd => (hstored d hd).imp_right
      (Or.imp_right (hcomponent d hd))⟩
  | readStagedManifest => exact fun c hc => hcomponent c hc (hprogress c hc)
  | uploadManifest bytes => exact ⟨fun c hc => hcomponent c hc (hprogress.1 c hc), hprogress.2⟩
  | readBack => exact ⟨fun c hc => hcomponent c hc (hprogress.1 c hc), hmanifest hprogress.2⟩
  | markVerified =>
    exact ⟨fun c hc => hcomponent c hc (hprogress.1 c hc), hmanifest hprogress.2⟩
  | readBinding => trivial
  | bindStaged => trivial

/-- One step of a publication stores nothing over what others rely on, and it marks its artifact
only with everything stored. -/
theorem Publication.Published.advance {pub : Publication} {p : PublishPhase}
    {next : PublishPhase ⊕ Bool} (h : pub.Published w p) (hid : w.Catalogued pub.artifactId)
    (hsha : Function.Injective Sha256.digest) (hcatalog : w.Catalog)
    (hadvance : pub.advance version nodeId w p = some (w', next)) :
    w.Keeps w' ∧ w'.Catalog ∧ ∀ p', next = .inl p' → pub.Published w' p' := by
  have hlater : w.Later none w' := Publication.later hadvance
  have hprogress := h.progress
  obtain ⟨a, base, hartifact, hcomponents, huri⟩ := h.sealed
  have huri' : w'.artifactUri pub.artifactId = some pub.uri := hlater.uri _ _ hid h.uri
  cases p with
  | readStaged rest =>
    obtain ⟨hrest, hstored⟩ := hprogress
    cases rest with
    | nil =>
      cases hadvance
      refine ⟨.of_eq rfl, hcatalog, ?_⟩
      rintro p' hp'
      cases hp'
      exact ⟨h.sealed, h.uri, fun c hc => (hstored c hc).resolve_left (by simp)⟩
    | cons c rest =>
      simp only [Publication.advance] at hadvance
      split at hadvance
      · split_ifs at hadvance with hbytes
        cases hadvance
        refine ⟨.of_eq rfl, hcatalog, ?_⟩
        rintro p' hp'
        cases hp'
        refine ⟨h.sealed, h.uri, hrest c List.mem_cons_self, hbytes,
          fun d hd => hrest d (List.mem_cons_of_mem c hd), fun d hd => ?_⟩
        rcases hstored d hd with hmem | hdone
        · exact (List.mem_cons.mp hmem).imp_right .inl
        · exact .inr (.inr hdone)
      · cases hadvance
  | upload c bytes rest =>
    obtain ⟨hc, hbytes, hrest, hstored⟩ := hprogress
    cases hadvance
    have hkeeps : w.Keeps (w.putObject pub.uri c.path bytes) := by
      rw [huri, ← hartifact]
      exact World.keeps_putComponent hsha a base (hcomponents ▸ hc) hbytes
    refine ⟨hkeeps, hcatalog.later hsha hlater hkeeps rfl, ?_⟩
    rintro p' hp'
    cases hp'
    refine ⟨h.sealed, huri', hrest, fun d hd => ?_⟩
    rcases hstored d hd with rfl | hmem | hdone
    · exact .inr ⟨bytes, World.putObject_self _ _ _, hbytes⟩
    · exact .inl hmem
    · right
      rw [huri, ← hartifact] at hdone ⊢
      rw [huri, ← hartifact] at hkeeps
      exact hkeeps.component a base d (hcomponents ▸ hd) hdone
  | readStagedManifest =>
    simp only [Publication.advance] at hadvance
    split at hadvance
    · split_ifs at hadvance with hbytes
      cases hadvance
      refine ⟨.of_eq rfl, hcatalog, ?_⟩
      rintro p' hp'
      cases hp'
      exact ⟨h.sealed, h.uri, hprogress, hbytes⟩
    · cases hadvance
  | uploadManifest bytes =>
    obtain ⟨hstored, hbytes⟩ := hprogress
    cases hadvance
    have hkeeps : w.Keeps (w.putObject pub.uri MANIFEST bytes) := by
      rw [huri, ← hartifact]
      exact World.keeps_putManifest a base (hartifact ▸ hbytes)
    refine ⟨hkeeps, hcatalog.later hsha hlater hkeeps rfl, ?_⟩
    rintro p' hp'
    cases hp'
    refine ⟨h.sealed, huri', fun c hc => ?_, bytes, World.putObject_self _ _ _, hbytes⟩
    have hdone := hstored c hc
    rw [huri, ← hartifact] at hdone hkeeps ⊢
    exact hkeeps.component a base c (hcomponents ▸ hc) hdone
  | readBack =>
    simp only [Publication.advance] at hadvance
    split at hadvance
    · split_ifs at hadvance with hbytes
      cases hadvance
      refine ⟨.of_eq rfl, hcatalog, ?_⟩
      rintro p' hp'
      cases hp'
      exact ⟨h.sealed, h.uri, hprogress⟩
    · cases hadvance
  | markVerified =>
    obtain ⟨hstored, hmanifest⟩ := hprogress
    have hpublished : w.Published pub.artifactId := by
      have hrow := h.uri
      rw [huri, ← hartifact] at hstored hmanifest hrow
      rw [← hartifact]
      exact .of_stored hrow hsha (hcomponents ▸ hstored) hmanifest
    obtain ⟨v, hv, hnext⟩ := Option.map_eq_some_iff.mp hadvance
    cases hnext
    refine ⟨?_, hcatalog.markVerified hsha hpublished hv, ?_⟩
    · obtain ⟨-, rfl⟩ := World.markVerified_ok hv
      exact .of_eq rfl
    · rintro p' hp'
      cases hp'
      exact ⟨h.sealed, huri', trivial⟩
  | readBinding =>
    simp only [Publication.advance] at hadvance
    split_ifs at hadvance <;> cases hadvance <;> refine ⟨.of_eq rfl, hcatalog, ?_⟩ <;>
      rintro p' hp' <;> cases hp'
    exact ⟨h.sealed, h.uri, trivial⟩
  | bindStaged =>
    simp only [Publication.advance] at hadvance
    split at hadvance
    · rename_i answer hbind
      cases hadvance
      refine ⟨.of_eq rfl, hcatalog.later hsha hlater (.of_eq rfl)
        (Bindings.bindNew_artifacts hbind), ?_⟩
      rintro p' hp'
      cases hp'
    · cases hadvance

/-- A build that has its artifact catalogued publishes where the catalog's row says. -/
def MirrorBuild.Published (site : Site) (w : World) (b : MirrorBuild) : BuildPhase → Prop
  | .markSealed _ a => w.artifactUri a.artifactId = some (b.finalPrefix site a)
  | .publish pub p => pub.Published w p
  | _ => True

def PassPhase.Published (w : World) : PassPhase → Prop
  | .readArtifact _ id components _ =>
      ∃ a : SealedArtifact, a.artifactId = id ∧ a.files.components = components
  | .publish pub p _ => pub.Published w p
  | _ => True

/-- A build that takes over a `sealed` row would publish it under the row's prefix. -/
def MirrorBuild.adoptsOwnPrefix (site : Site) (w : World) (b : MirrorBuild) : Bool :=
  match b.phase with
  | .readExisting _ a => w.bindings.artifacts a.artifactId ≠ some .sealed ∨
      w.artifactUri a.artifactId = some (b.finalPrefix site a)
  | _ => true

/-- The step of a build that takes over a `sealed` row meets the condition. -/
def Mirror.adoptsOwnPrefix (site : Site) (s : Mirror) : MirrorEvent → Bool
  | .advanceBuild i => s.builds[i]?.all (MirrorBuild.adoptsOwnPrefix site s.world)
  | _ => true

theorem MirrorBuild.finalPrefix_eq (b : MirrorBuild) (a : SealedArtifact) :
    ∃ base, b.finalPrefix site a = base ++ "/" ++ a.artifactId := ⟨_, rfl⟩

theorem MirrorBuild.published {b : MirrorBuild} {phase : BuildPhase}
    (hsha : Function.Injective Sha256.digest) (hlinked : b.phase.Linked w)
    (hcatalog : w.Catalog) (hphase : b.Published site w b.phase)
    (hadopts : b.adoptsOwnPrefix site w) (h : b.advance site w = some (w', phase)) :
    w.Keeps w' ∧ w'.Catalog ∧ b.Published site w' phase := by
  have hlater := MirrorBuild.later h
  have quiet (hobjects : w'.objects = w.objects)
      (hartifacts : w'.bindings.artifacts = w.bindings.artifacts) : w.Keeps w' ∧ w'.Catalog :=
    ⟨.of_eq hobjects, hcatalog.later hsha hlater (.of_eq hobjects) hartifacts⟩
  cases hat : b.phase <;> simp only [MirrorBuild.advance, hat] at h <;>
    rw [hat] at hphase hlinked
  case checkCatalog | checkSealed =>
    split at h <;> cases h <;> exact ⟨(quiet rfl rfl).1, (quiet rfl rfl).2, trivial⟩
  case readExisting t a =>
    split at h <;> cases h
    · exact ⟨(quiet rfl rfl).1, (quiet rfl rfl).2, trivial⟩
    · rename_i hsealed
      have hown : w.artifactUri a.artifactId = some (b.finalPrefix site a) := by
        simpa [MirrorBuild.adoptsOwnPrefix, hat, hsealed] using hadopts
      exact ⟨(quiet rfl rfl).1, (quiet rfl rfl).2, hown⟩
  case readAttempt =>
    split at h
    · split_ifs at h <;> cases h <;> exact ⟨(quiet rfl rfl).1, (quiet rfl rfl).2, trivial⟩
    · cases h
      exact ⟨(quiet rfl rfl).1, (quiet rfl rfl).2, trivial⟩
  case sealing | readHolder | done | stageManifest | cleanup | expireStale =>
    cases h
    exact ⟨(quiet rfl rfl).1, (quiet rfl rfl).2, trivial⟩
  case claim =>
    split at h <;> cases h <;> exact ⟨(quiet rfl rfl).1, (quiet rfl rfl).2, trivial⟩
  case streaming | checkLease =>
    split_ifs at h
    obtain ⟨v, hv, hnext⟩ := Option.map_eq_some_iff.mp h
    cases hnext
    obtain ⟨a, -, -, -, rfl⟩ := World.heartbeat_ok hv
    exact ⟨(quiet rfl rfl).1, (quiet rfl rfl).2, trivial⟩
  case insertSealed t a =>
    have hprefix : ∃ base, b.finalPrefix site a = base ++ "/" ++ a.artifactId := b.finalPrefix_eq a
    obtain ⟨base, hbase⟩ := hprefix
    split at h
    · rename_i v hinsert
      cases h
      have hcatalog' : w'.Catalog := by
        rw [hbase] at hinsert
        exact hcatalog.insertSealed hsha hinsert
      obtain ⟨-, rfl⟩ := World.insertSealed_ok hinsert
      exact ⟨.of_eq rfl, hcatalog', by simp [MirrorBuild.Published]⟩
    · cases h
      exact ⟨(quiet rfl rfl).1, (quiet rfl rfl).2, trivial⟩
  case markSealed t a =>
    have hprefix : ∃ base, b.finalPrefix site a = base ++ "/" ++ a.artifactId := b.finalPrefix_eq a
    obtain ⟨base, hbase⟩ := hprefix
    obtain ⟨v, hv, hnext⟩ := Option.map_eq_some_iff.mp h
    cases hnext
    obtain ⟨row, -, -, rfl⟩ := World.transition_ok hv
    exact ⟨(quiet rfl rfl).1, (quiet rfl rfl).2, ⟨a, base, rfl, rfl, hbase⟩, hphase,
      fun _ hc => hc, fun _ hc => .inl hc⟩
  case markConverged | markSucceeded | markFailed =>
    obtain ⟨v, hv, hnext⟩ := Option.map_eq_some_iff.mp h
    cases hnext
    obtain ⟨row, -, -, rfl⟩ := World.transition_ok hv
    exact ⟨(quiet rfl rfl).1, (quiet rfl rfl).2, trivial⟩
  case publish pub p =>
    split at h <;> cases h <;> rename_i hadvance <;>
      obtain ⟨hkeeps, hcatalog', hnext⟩ :=
        hphase.advance hlinked.catalogued hsha hcatalog hadvance
    · exact ⟨hkeeps, hcatalog', hnext _ rfl⟩
    · exact ⟨hkeeps, hcatalog', trivial⟩

theorem Pass.published {p : Pass} {phase : PassPhase} (hsha : Function.Injective Sha256.digest)
    (hw : w.Linked) (hlinked : p.phase.Linked w) (hcatalog : w.Catalog)
    (hphase : p.phase.Published w) (h : p.advance site w = some (w', phase)) :
    w.Keeps w' ∧ w'.Catalog ∧ phase.Published w' := by
  have hlater := Pass.later h
  have quiet (hobjects : w'.objects = w.objects)
      (hartifacts : w'.bindings.artifacts = w.bindings.artifacts) : w.Keeps w' ∧ w'.Catalog :=
    ⟨.of_eq hobjects, hcatalog.later hsha hlater (.of_eq hobjects) hartifacts⟩
  cases hat : p.phase <;> simp only [Pass.advance, hat] at h <;> rw [hat] at hphase hlinked
  case expireStale | list | done | cleanup =>
    cases h
    exact ⟨(quiet rfl rfl).1, (quiet rfl rfl).2, trivial⟩
  case rows rest =>
    cases rest with
    | nil =>
      cases h
      exact ⟨(quiet rfl rfl).1, (quiet rfl rfl).2, trivial⟩
    | cons row rest =>
      simp only at h
      split at h <;> cases h <;> exact ⟨(quiet rfl rfl).1, (quiet rfl rfl).2, trivial⟩
  case readAttempt t rest =>
    split at h <;> cases h
    exact ⟨(quiet rfl rfl).1, (quiet rfl rfl).2, trivial⟩
  case readStagedManifest t id rest =>
    split at h
    · rename_i bytes hbytes
      split_ifs at h with hverify
      obtain ⟨components, hreads, hnext⟩ := Option.map_eq_some_iff.mp h
      cases hnext
      refine ⟨(quiet rfl rfl).1, (quiet rfl rfl).2, ?_⟩
      obtain ⟨row, hrow, hnamed⟩ := Option.bind_eq_some_iff.mp hlinked
      have hid := (hw.backed row (List.mem_of_getElem? hrow)).catalogued id hnamed
      obtain ⟨a, base, rfl, -⟩ := hcatalog.row id hid
      have hdigest : sha256Hex bytes = a.artifactId := by
        simpa [verifyManifestBytes] using hverify
      have hsame : bytes = a.manifestBytes := sha256Hex_injective hsha hdigest
      refine ⟨a, rfl, ?_⟩
      rw [hsame, a.reads] at hreads
      exact Option.some.inj hreads
    · cases h
  case readArtifact t id components rest =>
    obtain ⟨a, rfl, rfl⟩ := hphase
    split at h <;> cases h
    · rename_i uri hverified huri
      obtain ⟨b, base, hartifact, hbase⟩ := hcatalog.row _ (World.Verified.catalogued hverified)
      exact ⟨(quiet rfl rfl).1, (quiet rfl rfl).2, ⟨a, base, rfl, rfl,
        Option.some.inj (huri.symm.trans hbase)⟩, huri, trivial⟩
    · rename_i uri _ _ huri
      have hstate : w.bindings.artifacts a.artifactId = some _ := ‹_›
      have hid : w.Catalogued a.artifactId := by
        rw [World.Catalogued, hstate]
        rfl
      obtain ⟨b, base, hartifact, hbase⟩ := hcatalog.row _ hid
      exact ⟨(quiet rfl rfl).1, (quiet rfl rfl).2, ⟨a, base, rfl, rfl,
        Option.some.inj (huri.symm.trans hbase)⟩, huri, fun _ hc => hc, fun _ hc => .inl hc⟩
  case publish pub q rest =>
    split at h <;> cases h <;> rename_i hadvance <;>
      obtain ⟨hkeeps, hcatalog', hnext⟩ :=
        hphase.advance hlinked.catalogued hsha hcatalog hadvance
    · exact ⟨hkeeps, hcatalog', hnext _ rfl⟩
    · exact ⟨hkeeps, hcatalog', trivial⟩
  case markSucceeded | markFailed =>
    obtain ⟨v, hv, hnext⟩ := Option.map_eq_some_iff.mp h
    cases hnext
    obtain ⟨row, -, -, rfl⟩ := World.transition_ok hv
    exact ⟨(quiet rfl rfl).1, (quiet rfl rfl).2, trivial⟩

theorem MirrorBuild.Published.later {own : Option ℕ} {b : MirrorBuild} {phase : BuildPhase}
    (h : b.Published site w phase) (hlinked : phase.Linked w) (hlater : w.Later own w')
    (hkeeps : w.Keeps w') : b.Published site w' phase := by
  cases phase with
  | markSealed t a => exact hlater.uri _ _ hlinked h
  | publish pub p => exact Publication.Published.later h hlinked.catalogued hlater hkeeps
  | _ => trivial

theorem PassPhase.Published.later {own : Option ℕ} {phase : PassPhase} (h : phase.Published w)
    (hlinked : phase.Linked w) (hlater : w.Later own w') (hkeeps : w.Keeps w') :
    phase.Published w' := by
  cases phase with
  | readArtifact t id components rest => exact h
  | publish pub p rest => exact Publication.Published.later h hlinked.catalogued hlater hkeeps
  | _ => trivial

theorem BuildMove.published {b : MirrorBuild} {e : MirrorEvent} {i : ℕ} {phase : BuildPhase}
    (hsha : Function.Injective Sha256.digest) (hlinked : b.phase.Linked w)
    (hcatalog : w.Catalog) (hphase : b.Published site w b.phase)
    (hadopts : e = .advanceBuild i → b.adoptsOwnPrefix site w)
    (h : BuildMove site w b e i w' phase) :
    w.Keeps w' ∧ w'.Catalog ∧ b.Published site w' phase := by
  have hlater := h.later
  cases h with
  | advance he h => exact MirrorBuild.published hsha hlinked hcatalog hphase (hadopts he) h
  | stage a hat =>
    obtain ⟨staging, hstage⟩ := stageFiles_eq b a w
    rw [hstage] at hlater ⊢
    exact ⟨.of_eq rfl, hcatalog.later hsha hlater (.of_eq rfl) rfl, trivial⟩
  | fail =>
    refine ⟨.of_eq rfl, hcatalog, ?_⟩
    cases b.phase <;> trivial
  | crash => exact ⟨.of_eq rfl, hcatalog, trivial⟩
  | beat _ hbeat =>
    obtain ⟨a, -, -, -, rfl⟩ := World.heartbeat_ok hbeat
    exact ⟨.of_eq rfl, hcatalog.later hsha hlater (.of_eq rfl) rfl,
      hphase.later hlinked hlater (.of_eq rfl)⟩
  | lost => exact ⟨.of_eq rfl, hcatalog, hphase⟩

theorem PassMove.published {p : Pass} {e : MirrorEvent} {i : ℕ} {phase : PassPhase}
    (hsha : Function.Injective Sha256.digest) (hw : w.Linked) (hlinked : p.phase.Linked w)
    (hcatalog : w.Catalog) (hphase : p.phase.Published w)
    (h : PassMove site w p e i w' phase) : w.Keeps w' ∧ w'.Catalog ∧ phase.Published w' := by
  cases h with
  | advance _ h => exact Pass.published hsha hw hlinked hcatalog hphase h
  | fail =>
    refine ⟨.of_eq rfl, hcatalog, ?_⟩
    cases p.phase <;> trivial
  | crash => exact ⟨.of_eq rfl, hcatalog, trivial⟩

namespace Mirror

/-- The catalog is true to the store, and what is in flight will keep it so. -/
structure Published (site : Site) (s : Mirror) : Prop where
  linked : s.Linked
  catalog : s.world.Catalog
  build : ∀ (i : ℕ) b, s.builds[i]? = some b → b.Published site s.world b.phase
  pass : ∀ (i : ℕ) p, s.passes[i]? = some p → p.phase.Published s.world

theorem published_empty : ({} : Mirror).Published site where
  linked := linked_empty
  catalog := ⟨fun id h => by simp [World.Catalogued] at h, fun id h => by
    simp [World.Verified] at h⟩
  build i b h := by simp at h
  pass i p h := by simp at h

variable {s s' : Mirror} {e : MirrorEvent}

/-- A change of the tables and the store that others' publications outlast. -/
theorem Published.others {own : Option ℕ} (h : s.Published site)
    (hlater : s.world.Later own w) (hkeeps : s.world.Keeps w) :
    (∀ (i : ℕ) b, s.builds[i]? = some b → b.Published site w b.phase) ∧
      (∀ (i : ℕ) p, s.passes[i]? = some p → p.phase.Published w) :=
  ⟨fun i b hb => (h.build i b hb).later (h.linked.build i b hb) hlater hkeeps,
    fun i p hp => (h.pass i p hp).later (h.linked.pass i p hp) hlater hkeeps⟩

theorem Published.onBuild (h : s.Published site) (hsha : Function.Injective Sha256.digest)
    {i : ℕ} {b : MirrorBuild} {w : World} {phase : BuildPhase} {leaseLost : Bool}
    (hadopts : s.adoptsOwnPrefix site e) (hb : s.builds[i]? = some b)
    (hmove : BuildMove site s.world b e i w phase) :
    ({ s with world := w }.setBuild i { b with phase, leaseLost }).Published site := by
  have hlinked : ({ s with world := w }.setBuild i { b with phase, leaseLost }).Linked :=
    h.linked.onBuild hb hmove
  have hown (he : e = .advanceBuild i) : b.adoptsOwnPrefix site s.world := by
    simpa [adoptsOwnPrefix, he, hb] using hadopts
  obtain ⟨hkeeps, hcatalog, hphase⟩ := hmove.published hsha (h.linked.build i b hb) h.catalog
    (h.build i b hb) hown
  obtain ⟨hbuilds, hpasses⟩ := h.others hmove.later hkeeps
  have hset : MirrorBuild.Published site w { b with phase, leaseLost } phase := by
    cases phase <;> exact hphase
  exact ⟨hlinked, hcatalog, forall_set hbuilds hset, hpasses⟩

theorem Published.onPass (h : s.Published site) (hsha : Function.Injective Sha256.digest)
    {i : ℕ} {p : Pass} {w : World} {phase : PassPhase} (hp : s.passes[i]? = some p)
    (hmove : PassMove site s.world p e i w phase) :
    ({ s with world := w }.setPass i { p with phase }).Published site := by
  have hlinked := h.linked.onPass hp hmove
  obtain ⟨hkeeps, hcatalog, hphase⟩ := hmove.published hsha h.linked.world
    (h.linked.pass i p hp) h.catalog (h.pass i p hp)
  obtain ⟨hbuilds, hpasses⟩ := h.others hmove.later hkeeps
  exact ⟨hlinked, hcatalog, hbuilds, forall_set hpasses hphase⟩

/-- A change of the clock or of staging directories. -/
theorem Published.quiet (h : s.Published site) (hsha : Function.Injective Sha256.digest)
    {w : World} (hlinked : ({ s with world := w } : Mirror).Linked)
    (hlater : s.world.Later none w) (hkeeps : s.world.Keeps w)
    (hartifacts : w.bindings.artifacts = s.world.bindings.artifacts) :
    ({ s with world := w } : Mirror).Published site := by
  obtain ⟨hbuilds, hpasses⟩ := h.others hlater hkeeps
  exact ⟨hlinked, h.catalog.later hsha hlater hkeeps hartifacts, hbuilds, hpasses⟩

theorem Published.move (h : s.Published site) (hsha : Function.Injective Sha256.digest)
    (hadopts : s.adoptsOwnPrefix site e) (hmove : Move site s e s') : s'.Published site := by
  have hlinked := h.linked.move hmove
  cases hmove with
  | tick _ => exact h.quiet hsha hlinked (.of_eq rfl rfl rfl) (.of_eq rfl) rfl
  | wipe _ => exact h.quiet hsha hlinked (.of_eq rfl rfl rfl) (.of_eq rfl) rfl
  | build ctx target =>
    exact ⟨hlinked, h.catalog, forall_append h.build trivial, h.pass⟩
  | reconcile nodeId => exact ⟨hlinked, h.catalog, h.build, forall_append h.pass trivial⟩
  | onBuild hb hmove => exact h.onBuild hsha hadopts hb hmove
  | onPass hp hmove => exact h.onPass hsha hp hmove
  | stay => exact h

theorem Published.step (h : s.Published site) (hsha : Function.Injective Sha256.digest)
    (hadopts : s.adoptsOwnPrefix site e) : (s.step site e).Published site :=
  h.move hsha hadopts (move_step s e)

/-- In every run in which a build that takes over a `sealed` row has the row's prefix: a verified
artifact is published, a binding names a verified artifact, a succeeded attempt too, and an
attempt that is over stays as it is. -/
theorem mirror_published (hsha : Function.Injective Sha256.digest) {s : Mirror}
    (h : Reached (step site) (fun s e => s.adoptsOwnPrefix site e) {} s) :
    (∀ id, s.world.Verified id → s.world.Published id) ∧
    (∀ slot row, s.world.bindings.rows slot = some row → s.world.Verified row.artifactId) ∧
    (∀ e (t : ℕ) (a : Attempt), s.world.attempts[t]? = some a → a.state.isTerminal →
      ∃ a' : Attempt, (s.step site e).world.attempts[t]? = some a' ∧ a'.state = a.state) ∧
    (∀ a ∈ s.world.attempts, a.state = .succeeded →
      ∃ id, a.artifactId = some id ∧ s.world.Verified id) := by
  have hs : s.Published site := h.invariant published_empty fun _ _ hs hok => hs.step hsha hok
  refine ⟨hs.catalog.published, hs.linked.world.bound, ?_, ?_⟩
  · exact fun e t a ha hover => (move_step s e).terminal ha hover
  · exact fun a ha => (hs.linked.world.backed a ha).succeeded

end Mirror
end

section

abbrev sampleFiles : SealedFiles :=
  ⟨utf8 "\x7b\x7d", utf8 "[]", utf8 "r", utf8 "i", utf8 "l", none⟩

/-- The sample's manifest, of one chunk, as canonical JSON. -/
def sampleManifestBytes : Bytes := [
  123, 34, 97, 114, 116, 105, 102, 97, 99, 116, 95, 112, 108, 97, 110, 95, 115, 104, 97, 50, 53,
  54, 34, 58, 34, 52, 102, 53, 51, 99, 100, 97, 49, 56, 99, 50, 98, 97, 97, 48, 99, 48, 51, 53,
  52, 98, 98, 53, 102, 57, 97, 51, 101, 99, 98, 101, 53, 101, 100, 49, 50, 97, 98, 52, 100, 56,
  101, 49, 49, 98, 97, 56, 55, 51, 99, 50, 102, 49, 49, 49, 54, 49, 50, 48, 50, 98, 57, 52, 53,
  34, 44, 34, 98, 117, 105, 108, 100, 95, 115, 112, 101, 99, 95, 115, 104, 97, 50, 53, 54, 34,
  58, 34, 52, 52, 49, 51, 54, 102, 97, 51, 53, 53, 98, 51, 54, 55, 56, 97, 49, 49, 52, 54, 97,
  100, 49, 54, 102, 55, 101, 56, 54, 52, 57, 101, 57, 52, 102, 98, 52, 102, 99, 50, 49, 102,
  101, 55, 55, 101, 56, 51, 49, 48, 99, 48, 54, 48, 102, 54, 49, 99, 97, 97, 102, 102, 56, 97,
  34, 44, 34, 99, 111, 109, 112, 111, 110, 101, 110, 116, 115, 34, 58, 91, 123, 34, 98, 121,
  116, 101, 115, 95, 108, 101, 110, 34, 58, 50, 44, 34, 112, 97, 116, 104, 34, 58, 34, 97, 114,
  116, 105, 102, 97, 99, 116, 45, 112, 108, 97, 110, 46, 99, 97, 110, 111, 110, 105, 99, 97,
  108, 46, 106, 115, 111, 110, 34, 44, 34, 112, 117, 114, 112, 111, 115, 101, 34, 58, 34, 109,
  97, 110, 105, 102, 101, 115, 116, 95, 115, 105, 100, 101, 99, 97, 114, 34, 44, 34, 114, 101,
  113, 117, 105, 114, 101, 100, 34, 58, 116, 114, 117, 101, 44, 34, 115, 104, 97, 50, 53, 54,
  34, 58, 34, 52, 102, 53, 51, 99, 100, 97, 49, 56, 99, 50, 98, 97, 97, 48, 99, 48, 51, 53, 52,
  98, 98, 53, 102, 57, 97, 51, 101, 99, 98, 101, 53, 101, 100, 49, 50, 97, 98, 52, 100, 56, 101,
  49, 49, 98, 97, 56, 55, 51, 99, 50, 102, 49, 49, 49, 54, 49, 50, 48, 50, 98, 57, 52, 53, 34,
  125, 44, 123, 34, 98, 121, 116, 101, 115, 95, 108, 101, 110, 34, 58, 50, 44, 34, 112, 97, 116,
  104, 34, 58, 34, 98, 117, 105, 108, 100, 45, 115, 112, 101, 99, 46, 99, 97, 110, 111, 110,
  105, 99, 97, 108, 46, 106, 115, 111, 110, 34, 44, 34, 112, 117, 114, 112, 111, 115, 101, 34,
  58, 34, 109, 97, 110, 105, 102, 101, 115, 116, 95, 115, 105, 100, 101, 99, 97, 114, 34, 44,
  34, 114, 101, 113, 117, 105, 114, 101, 100, 34, 58, 116, 114, 117, 101, 44, 34, 115, 104, 97,
  50, 53, 54, 34, 58, 34, 52, 52, 49, 51, 54, 102, 97, 51, 53, 53, 98, 51, 54, 55, 56, 97, 49,
  49, 52, 54, 97, 100, 49, 54, 102, 55, 101, 56, 54, 52, 57, 101, 57, 52, 102, 98, 52, 102, 99,
  50, 49, 102, 101, 55, 55, 101, 56, 51, 49, 48, 99, 48, 54, 48, 102, 54, 49, 99, 97, 97, 102,
  102, 56, 97, 34, 125, 44, 123, 34, 98, 121, 116, 101, 115, 95, 108, 101, 110, 34, 58, 49, 44,
  34, 112, 97, 116, 104, 34, 58, 34, 108, 101, 120, 105, 99, 97, 108, 47, 105, 110, 100, 101,
  120, 46, 98, 105, 110, 34, 44, 34, 112, 117, 114, 112, 111, 115, 101, 34, 58, 34, 108, 101,
  120, 105, 99, 97, 108, 34, 44, 34, 114, 101, 113, 117, 105, 114, 101, 100, 34, 58, 116, 114,
  117, 101, 44, 34, 115, 104, 97, 50, 53, 54, 34, 58, 34, 97, 99, 97, 99, 56, 54, 99, 48, 101,
  54, 48, 57, 99, 97, 57, 48, 54, 102, 54, 51, 50, 98, 48, 101, 50, 100, 97, 99, 99, 99, 98, 50,
  98, 55, 55, 100, 50, 50, 98, 48, 54, 50, 49, 102, 50, 48, 101, 98, 101, 99, 101, 49, 97, 52,
  56, 51, 53, 98, 57, 51, 102, 54, 102, 48, 34, 125, 44, 123, 34, 98, 121, 116, 101, 115, 95,
  108, 101, 110, 34, 58, 49, 44, 34, 112, 97, 116, 104, 34, 58, 34, 114, 101, 99, 111, 114, 100,
  115, 47, 99, 104, 117, 110, 107, 115, 46, 98, 105, 110, 34, 44, 34, 112, 117, 114, 112, 111,
  115, 101, 34, 58, 34, 114, 101, 99, 111, 114, 100, 115, 34, 44, 34, 114, 101, 113, 117, 105,
  114, 101, 100, 34, 58, 116, 114, 117, 101, 44, 34, 115, 104, 97, 50, 53, 54, 34, 58, 34, 52,
  53, 52, 51, 52, 57, 101, 52, 50, 50, 102, 48, 53, 50, 57, 55, 49, 57, 49, 101, 97, 100, 49,
  51, 101, 50, 49, 100, 51, 100, 98, 53, 50, 48, 101, 53, 97, 98, 101, 102, 53, 50, 48, 53, 53,
  101, 52, 57, 54, 52, 98, 56, 50, 102, 98, 50, 49, 51, 102, 53, 57, 51, 97, 49, 34, 125, 44,
  123, 34, 98, 121, 116, 101, 115, 95, 108, 101, 110, 34, 58, 49, 44, 34, 112, 97, 116, 104, 34,
  58, 34, 114, 101, 99, 111, 114, 100, 115, 47, 99, 104, 117, 110, 107, 115, 46, 105, 100, 120,
  34, 44, 34, 112, 117, 114, 112, 111, 115, 101, 34, 58, 34, 114, 101, 99, 111, 114, 100, 115,
  34, 44, 34, 114, 101, 113, 117, 105, 114, 101, 100, 34, 58, 116, 114, 117, 101, 44, 34, 115,
  104, 97, 50, 53, 54, 34, 58, 34, 100, 101, 55, 100, 49, 98, 55, 50, 49, 97, 49, 101, 48, 54,
  51, 50, 98, 55, 99, 102, 48, 52, 101, 100, 102, 53, 48, 51, 50, 99, 56, 101, 99, 102, 102, 97,
  57, 102, 57, 97, 48, 56, 52, 57, 50, 49, 53, 50, 98, 57, 50, 54, 102, 49, 97, 53, 97, 55, 101,
  55, 54, 53, 100, 55, 34, 125, 93, 44, 34, 99, 111, 117, 110, 116, 115, 34, 58, 123, 34, 99,
  104, 117, 110, 107, 115, 34, 58, 49, 44, 34, 100, 105, 109, 101, 110, 115, 105, 111, 110, 115,
  34, 58, 110, 117, 108, 108, 44, 34, 100, 111, 99, 117, 109, 101, 110, 116, 115, 34, 58, 49,
  44, 34, 116, 101, 114, 109, 115, 34, 58, 49, 44, 34, 118, 101, 99, 116, 111, 114, 115, 34, 58,
  110, 117, 108, 108, 125, 44, 34, 101, 110, 103, 105, 110, 101, 115, 34, 58, 91, 93, 44, 34,
  102, 111, 114, 109, 97, 116, 95, 118, 101, 114, 115, 105, 111, 110, 34, 58, 49, 44, 34, 109,
  97, 110, 105, 102, 101, 115, 116, 95, 118, 101, 114, 115, 105, 111, 110, 34, 58, 49, 44, 34,
  112, 114, 111, 98, 101, 115, 34, 58, 91, 93, 44, 34, 114, 97, 110, 103, 101, 95, 109, 97, 112,
  34, 58, 110, 117, 108, 108, 44, 34, 114, 101, 97, 100, 101, 114, 34, 58, 123, 34, 109, 97,
  120, 95, 118, 101, 114, 115, 105, 111, 110, 34, 58, 49, 44, 34, 109, 105, 110, 95, 118, 101,
  114, 115, 105, 111, 110, 34, 58, 49, 44, 34, 114, 101, 113, 117, 105, 114, 101, 100, 95, 102,
  101, 97, 116, 117, 114, 101, 115, 34, 58, 91, 93, 125, 125]

/-- The same chunk, with a lexical index that came out otherwise. -/
abbrev otherFiles : SealedFiles := { sampleFiles with lexical := utf8 "m" }

def otherManifestBytes : Bytes :=
  sampleManifestBytes.take 627 ++ [
    54, 50, 99, 54, 54, 97, 55, 97, 53, 100, 100, 55, 48, 99, 51, 49, 52, 54, 54, 49, 56, 48,
    54, 51, 99, 51, 52, 52, 101, 53, 51, 49, 101, 54, 100, 52, 98, 53, 57, 101, 51, 55, 57, 56,
    48, 56, 52, 52, 51, 99, 101, 57, 54, 50, 98, 51, 97, 98, 100, 54, 51, 99, 53, 97] ++
    sampleManifestBytes.drop 691

abbrev samplePublishSha256 : Sha256 := tabledSha256 [(utf8 "\x7b\x7d", [
    68, 19, 111, 163, 85, 179, 103, 138, 17, 70, 173, 22, 247, 232, 100, 158, 148, 251, 79, 194,
    31, 231, 126, 131, 16, 192, 96, 246, 28, 170, 255, 138]), (utf8 "[]", [
    79, 83, 205, 161, 140, 43, 170, 12, 3, 84, 187, 95, 154, 62, 203, 229, 237, 18, 171, 77, 142,
    17, 186, 135, 60, 47, 17, 22, 18, 2, 185, 69]), (utf8 "r", [
    69, 67, 73, 228, 34, 240, 82, 151, 25, 30, 173, 19, 226, 29, 61, 181, 32, 229, 171, 239, 82,
    5, 94, 73, 100, 184, 47, 178, 19, 245, 147, 161]), (utf8 "i", [
    222, 125, 27, 114, 26, 30, 6, 50, 183, 207, 4, 237, 245, 3, 44, 142, 207, 250, 159, 154, 8,
    73, 33, 82, 185, 38, 241, 165, 167, 231, 101, 215]), (utf8 "l", [
    172, 172, 134, 192, 230, 9, 202, 144, 111, 99, 43, 14, 45, 172, 204, 178, 183, 125, 34, 176,
    98, 31, 32, 235, 236, 225, 164, 131, 91, 147, 246, 240]), (utf8 "m", [
    98, 198, 106, 122, 93, 215, 12, 49, 70, 97, 128, 99, 195, 68, 229, 49, 230, 212, 181, 158,
    55, 152, 8, 68, 60, 233, 98, 179, 171, 214, 60, 90]), (sampleManifestBytes, [
    66, 13, 170, 153, 251, 61, 73, 216, 103, 114, 60, 224, 97, 35, 53, 161, 75, 20, 240, 81, 130,
    144, 166, 79, 70, 40, 176, 196, 26, 10, 173, 17]), (otherManifestBytes, [
    60, 36, 118, 164, 147, 93, 173, 175, 11, 52, 184, 193, 174, 204, 137, 135, 13, 6, 3, 21, 33,
    11, 7, 173, 54, 248, 158, 21, 104, 35, 178, 87])]

attribute [local instance] samplePublishSha256

abbrev sampleManifestJson : ManifestJson where
  fromSlice bytes :=
    if bytes = sampleManifestBytes then some sampleFiles.components
    else if bytes = otherManifestBytes then some otherFiles.components
    else none

attribute [local instance] sampleManifestJson

def sampleArtifact : SealedArtifact := ⟨sampleFiles, sampleManifestBytes, if_pos rfl⟩

def otherArtifact : SealedArtifact := ⟨otherFiles, otherManifestBytes, by decide +kernel⟩

abbrev sampleSite : Site := ⟨"idx2-1", "t1", 90, by decide⟩

namespace Mirror

/-- A build from its start to where it waits for its files. -/
def toSeal (i : ℕ) : List MirrorEvent := List.replicate 5 (.advanceBuild i)

/-- One build that publishes and settles. -/
def publishing : List MirrorEvent :=
  [.build ⟨"n1", "v1"⟩ (.collection "c1")] ++ toSeal 0 ++ [.sealBuild 0 sampleArtifact] ++
    List.replicate 23 (.advanceBuild 0)

theorem mirror_published_once :
    (publishing.foldl (step sampleSite) {}).world.Verified sampleArtifact.artifactId ∧
      (publishing.foldl (step sampleSite) {}).world.Published sampleArtifact.artifactId := by
  have hsha : Function.Injective Sha256.digest :=
    tabledSha256_injective (by decide) (by decide +kernel)
  have hmeets : Meets (step sampleSite) (fun s e => s.adoptsOwnPrefix sampleSite e) {}
      publishing := by decide +kernel
  have hverified : (publishing.foldl (step sampleSite) {}).world.bindings.artifacts
      sampleArtifact.artifactId = some .verified := by decide +kernel
  exact ⟨hverified, (mirror_published hsha (.of_meets hmeets)).1 _ hverified⟩

/-- A build that crashes with its row inserted, and another, with another prefix, that takes the
row over and publishes. -/
def adopting : List MirrorEvent :=
  [.build ⟨"n1", "v1"⟩ (.collection "c1")] ++ toSeal 0 ++ [.sealBuild 0 sampleArtifact] ++
    List.replicate 3 (.advanceBuild 0) ++ [.crashBuild 0, .tick 90,
    .build ⟨"n2", "v2"⟩ (.collection "c1")] ++ toSeal 1 ++ [.sealBuild 1 sampleArtifact] ++
    List.replicate 24 (.advanceBuild 1)

/-- The row says the crashed build's prefix, where nothing is stored. -/
theorem adopted_unpublished :
    let w := (adopting.foldl (step sampleSite) {}).world
    w.Verified sampleArtifact.artifactId ∧ ¬w.Published sampleArtifact.artifactId := by
  have hverified : (adopting.foldl (step sampleSite) {}).world.bindings.artifacts
      sampleArtifact.artifactId = some .verified := by decide +kernel
  have huri : ((adopting.foldl (step sampleSite) {}).world.artifactUri
      sampleArtifact.artifactId).all (fun uri =>
        (adopting.foldl (step sampleSite) {}).world.objects uri MANIFEST = none) = true := by
    decide +kernel
  refine ⟨hverified, ?_⟩
  rintro ⟨uri, bytes, components, hrow, hstored, -⟩
  rw [hrow, Option.all_some, decide_eq_true_eq, hstored] at huri
  cases huri

end Mirror
end
end Munarium
