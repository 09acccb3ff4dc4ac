import Munarium.Retrieval.FusionScores
import Mathlib.Tactic.Linarith
import Mathlib.Logic.Equiv.Basic

/-! Fusion reads the candidates as a collection, each domain's values as an order, and, when
it keeps domains partial, the domain names as labels. -/
namespace Munarium

open StableSort Entry

/-- Strictly increasing in the order of values, with the values that the order identifies
sent to values that it identifies. -/
structure Increasing (f : F64 → F64) : Prop where
  lt : ∀ a b, descendingKey a < descendingKey b → descendingKey (f a) < descendingKey (f b)
  eq : ∀ a b, descendingKey a = descendingKey b → descendingKey (f a) = descendingKey (f b)

theorem Increasing.lt_iff {f : F64 → F64} (hf : Increasing f) (a b : F64) :
    descendingKey (f a) < descendingKey (f b) ↔ descendingKey a < descendingKey b := by
  constructor
  · intro h
    rcases lt_trichotomy (descendingKey a) (descendingKey b) with hab | hab | hab
    · exact hab
    · exact absurd (hf.eq a b hab) h.ne
    · exact absurd (hf.lt b a hab) (lt_asymm h)
  · exact hf.lt a b

theorem Increasing.eq_iff {f : F64 → F64} (hf : Increasing f) (a b : F64) :
    descendingKey (f a) = descendingKey (f b) ↔ descendingKey a = descendingKey b := by
  constructor
  · intro h
    rcases lt_trichotomy (descendingKey a) (descendingKey b) with hab | hab | hab
    · exact absurd h (hf.lt a b hab).ne
    · exact hab
    · exact absurd h (hf.lt b a hab).ne'
  · exact hf.eq a b

/-- `ordinal` is the list index. -/
def renumber (candidates : List PoolCandidate) : List PoolCandidate :=
  candidates.zipIdx.map fun c => { c.1 with ordinal := c.2 }

def PoolCandidate.mapMeasures (lexical vector : Measure → Measure) (c : PoolCandidate) :
    PoolCandidate :=
  { c with lexical := c.lexical.map lexical, vector := c.vector.map vector }

/-- The values of one domain pass through a function. -/
def Measure.rescale (domain : String) (f : F64 → F64) (m : Measure) : Measure :=
  if m.domain = domain then { m with value := f m.value } else m

def PoolCandidate.rescale (leg : Leg) (domain : String) (f : F64 → F64) :
    PoolCandidate → PoolCandidate :=
  match leg with
  | .lexical => mapMeasures (Measure.rescale domain f) id
  | .vector => mapMeasures id (Measure.rescale domain f)

def Measure.rename (r : String → String) (m : Measure) : Measure := { m with domain := r m.domain }

def PoolCandidate.rename (lexical vector : String → String) : PoolCandidate → PoolCandidate :=
  mapMeasures (Measure.rename lexical) (Measure.rename vector)

section Permutation

theorem domainsOf_perm {es es' : List Entry} (hp : es.Perm es') : domainsOf es = domainsOf es' := by
  have hnames := hp.map fun e => e.measure.domain
  have hsorted := (List.perm_insertionSort (· ≤ ·) (es.map fun e => e.measure.domain)).trans
    (hnames.trans (List.perm_insertionSort (· ≤ ·) _).symm)
  rw [domainsOf, domainsOf, hsorted.eq_of_pairwise (fun a b _ _ => le_antisymm)
    (List.pairwise_insertionSort _ _) (List.pairwise_insertionSort _ _)]

theorem domainRank_perm {es es' : List Entry} (hp : es.Perm es') (e : Entry) :
    domainRank es e = domainRank es' e :=
  rank_perm (hp.filter _) e

theorem legRank_perm {es es' : List Entry} (hp : es.Perm es') (partialDomains : Bool)
    (e : Entry) : legRank partialDomains es e = legRank partialDomains es' e := by
  have hkey : interleavedKey es = interleavedKey es' := by
    funext d
    rw [interleavedKey, interleavedKey, domainRank_perm hp]
  rw [legRank, legRank, domainsOf_perm hp, rank_perm hp, domainRank_perm hp, hkey,
    rank_perm hp]

variable {w : PoolMergeWeights} {candidates candidates' : List PoolCandidate}

theorem score_perm (hp : candidates.Perm candidates') (partialDomains : Bool)
    (c : PoolCandidate) :
    w.score candidates partialDomains c = w.score candidates' partialDomains c := by
  have hleg (probeStratum : Bool) (leg : Leg) :
      w.legScore candidates partialDomains probeStratum leg c =
        w.legScore candidates' partialDomains probeStratum leg c := by
    rw [PoolMergeWeights.legScore, PoolMergeWeights.legScore]
    cases w.entryOf probeStratum leg c with
    | none => rfl
    | some e =>
      have hentries : (w.entries candidates probeStratum leg).Perm
          (w.entries candidates' probeStratum leg) := hp.filterMap _
      simp only [legRank_perm hentries]
  simp only [PoolMergeWeights.score, hleg]

theorem ranking_perm (hids : (candidates.map PoolCandidate.chunkId).Nodup)
    (hp : candidates.Perm candidates') (topK : ℕ) (partialDomains : Bool) :
    ranking candidates (fusePoolsWithDomainPolicy candidates topK w partialDomains) =
      ranking candidates' (fusePoolsWithDomainPolicy candidates' topK w partialDomains) := by
  have hids' := (hp.map PoolCandidate.chunkId).nodup_iff.mp hids
  rw [ranking_eq hids, ranking_eq hids']
  congr 1
  have hscores : candidates'.map (fun c => (c.chunkId, w.score candidates' partialDomains c)) =
      candidates'.map fun c => (c.chunkId, w.score candidates partialDomains c) := by
    apply List.map_congr_left
    intro c _
    rw [score_perm hp]
  rw [hscores]
  apply byScoreThenId_keyed.sortBy_eq_of_perm (hp.map _)
  have hpw := List.pairwise_map.mp hids
  rw [List.map_map]
  apply List.pairwise_map.mpr
  exact hpw.imp fun {a b} hne he => hne (congrArg Prod.snd (toLex_inj.mp he))

end Permutation

section Translation

/-- A change of the measurements that keeps apart what is in different domains and keeps the
order inside each domain. Interleaving also reads the domain names. -/
structure Translates (partialDomains : Bool) (es : List Entry) (t : Entry → Entry) : Prop where
  chunkId : ∀ a ∈ es, (t a).chunkId = a.chunkId
  domain : ∀ a ∈ es, ∀ b ∈ es,
    ((t a).measure.domain = (t b).measure.domain ↔ a.measure.domain = b.measure.domain)
  value : ∀ a ∈ es, ∀ b ∈ es, a.measure.domain = b.measure.domain →
    ((t a).valueKey < (t b).valueKey ↔ a.valueKey < b.valueKey)
  name : partialDomains = false → ∀ a ∈ es, (t a).measure.domain = a.measure.domain

variable {partialDomains : Bool} {es : List Entry} {t : Entry → Entry}

namespace Translates

variable (h : Translates partialDomains es t)

include h

theorem oneDomain : (domainsOf (es.map t)).length ≤ 1 ↔ (domainsOf es).length ≤ 1 := by
  rw [oneDomain_iff, oneDomain_iff]
  constructor
  · intro hall a ha b hb
    exact (h.domain a ha b hb).mp
      (hall _ (List.mem_map_of_mem ha) _ (List.mem_map_of_mem hb))
  · intro hall a' ha' b' hb'
    obtain ⟨a, ha, rfl⟩ := List.mem_map.mp ha'
    obtain ⟨b, hb, rfl⟩ := List.mem_map.mp hb'
    exact (h.domain a ha b hb).mpr (hall a ha b hb)

theorem domainRank {e : Entry} (he : e ∈ es) :
    Entry.domainRank (es.map t) (t e) = Entry.domainRank es e := by
  have hfilter : (es.map t).filter (fun d => d.measure.domain = (t e).measure.domain) =
      (es.filter fun d => d.measure.domain = e.measure.domain).map t := by
    rw [List.filter_map]
    congr 1
    apply List.filter_congr
    intro d hd
    simp [h.domain d hd e he]
  rw [Entry.domainRank, Entry.domainRank, hfilter, rank_map]
  apply rank_congr
  intro d hd
  obtain ⟨hd, hdomain⟩ := List.mem_filter.mp hd
  exact h.value d hd e he (by simpa using hdomain)

/-- The rank of a translated entry among the translated ones is the rank it had. -/
theorem legRank {e : Entry} (he : e ∈ es) :
    Entry.legRank partialDomains (es.map t) (t e) = Entry.legRank partialDomains es e := by
  rw [Entry.legRank, Entry.legRank]
  by_cases hone : (domainsOf es).length ≤ 1
  · rw [if_pos hone, if_pos (h.oneDomain.mpr hone), rank_map]
    apply rank_congr
    intro d hd
    exact h.value d hd e he ((oneDomain_iff es).mp hone d hd e he)
  · rw [if_neg hone, if_neg (fun hc => hone (h.oneDomain.mp hc))]
    cases partialDomains with
    | true => exact h.domainRank he
    | false =>
      have hkey : ∀ d ∈ es, interleavedKey (es.map t) (t d) = interleavedKey es d := by
        intro d hd
        rw [interleavedKey, interleavedKey, h.domainRank hd, h.name rfl d hd, h.chunkId d hd]
      simp only [Bool.false_eq_true, if_false]
      rw [rank_map]
      apply rank_congr
      intro d hd
      simp only [Function.comp_apply, hkey d hd, hkey e he]

end Translates

def Entry.mapMeasure (f : Measure → Measure) (e : Entry) : Entry := { e with measure := f e.measure }

theorem translates_id (partialDomains : Bool) (es : List Entry) :
    Translates partialDomains es (Entry.mapMeasure id) where
  chunkId _ _ := rfl
  domain _ _ _ _ := Iff.rfl
  value _ _ _ _ _ := Iff.rfl
  name _ _ _ := rfl

theorem rescale_domain (domain : String) (f : F64 → F64) (m : Measure) :
    (m.rescale domain f).domain = m.domain := by
  rw [Measure.rescale]
  split_ifs <;> rfl

theorem translates_rescale (partialDomains : Bool) (es : List Entry) (domain : String)
    {f : F64 → F64} (hf : Increasing f) :
    Translates partialDomains es (Entry.mapMeasure (Measure.rescale domain f)) where
  chunkId _ _ := rfl
  domain a _ b _ := by simp only [Entry.mapMeasure, rescale_domain]
  value a _ b _ hab := by
    rw [valueKey_lt_iff, valueKey_lt_iff]
    by_cases hd : a.measure.domain = domain
    · have hb : b.measure.domain = domain := hab ▸ hd
      simp only [Entry.mapMeasure, Measure.rescale, if_pos hd, if_pos hb, hf.lt_iff, hf.eq_iff]
    · have hb : ¬b.measure.domain = domain := hab ▸ hd
      simp only [Entry.mapMeasure, Measure.rescale, if_neg hd, if_neg hb]
  name _ a _ := rescale_domain domain f a.measure

/-- Domains that stay apart are only labels to the partial policy. -/
theorem translates_rename (es : List Entry) {r : String → String} (hr : r.Injective) :
    Translates true es (Entry.mapMeasure (Measure.rename r)) where
  chunkId _ _ := rfl
  domain a _ b _ := hr.eq_iff
  value _ _ _ _ _ := Iff.rfl
  name h := by simp at h

end Translation

section MappedCandidates

variable {w : PoolMergeWeights} {candidates : List PoolCandidate}
  {lexical vector : Measure → Measure} {partialDomains : Bool}

def Leg.select (lexical vector : Measure → Measure) : Leg → Measure → Measure
  | .lexical => lexical
  | .vector => vector

theorem entryOf_mapMeasures (probeStratum : Bool) (leg : Leg) (c : PoolCandidate) :
    w.entryOf probeStratum leg (c.mapMeasures lexical vector) =
      (w.entryOf probeStratum leg c).map (Entry.mapMeasure (leg.select lexical vector)) := by
  rw [PoolMergeWeights.entryOf, PoolMergeWeights.entryOf]
  have hprobe : w.isProbe (c.mapMeasures lexical vector) = w.isProbe c := rfl
  rw [hprobe]
  split_ifs
  · cases leg <;>
      simp [pick, PoolCandidate.mapMeasures, Leg.select, Entry.mapMeasure, Option.map_map,
        Function.comp_def]
  · rfl

theorem entries_mapMeasures (probeStratum : Bool) (leg : Leg) :
    w.entries (candidates.map (PoolCandidate.mapMeasures lexical vector)) probeStratum leg =
      (w.entries candidates probeStratum leg).map
        (Entry.mapMeasure (leg.select lexical vector)) := by
  rw [PoolMergeWeights.entries, PoolMergeWeights.entries, List.filterMap_map,
    List.map_filterMap]
  apply List.filterMap_congr
  intro c _
  exact entryOf_mapMeasures probeStratum leg c

variable (h : ∀ probeStratum leg, Translates partialDomains (w.entries candidates probeStratum leg)
  (Entry.mapMeasure (leg.select lexical vector)))

include h

theorem score_mapMeasures {c : PoolCandidate} (hc : c ∈ candidates) :
    w.score (candidates.map (PoolCandidate.mapMeasures lexical vector)) partialDomains
      (c.mapMeasures lexical vector) = w.score candidates partialDomains c := by
  have hleg (probeStratum : Bool) (leg : Leg) :
      w.legScore (candidates.map (PoolCandidate.mapMeasures lexical vector)) partialDomains
        probeStratum leg (c.mapMeasures lexical vector) =
      w.legScore candidates partialDomains probeStratum leg c := by
    rw [PoolMergeWeights.legScore, PoolMergeWeights.legScore, entryOf_mapMeasures,
      entries_mapMeasures]
    cases he : w.entryOf probeStratum leg c with
    | none => rfl
    | some e =>
      have hmem : e ∈ w.entries candidates probeStratum leg :=
        List.mem_filterMap.mpr ⟨c, hc, he⟩
      simp only [Option.map_some, (h probeStratum leg).legRank hmem]
  simp only [PoolMergeWeights.score, hleg]
  rfl

/-- The served positions and scores survive a translation of the measurements. -/
theorem ranked_mapMeasures (hids : (candidates.map PoolCandidate.chunkId).Nodup) (topK : ℕ) :
    (fusePoolsWithDomainPolicy (candidates.map (PoolCandidate.mapMeasures lexical vector)) topK w
      partialDomains).ranked =
      (fusePoolsWithDomainPolicy candidates topK w partialDomains).ranked := by
  have hids' : ((candidates.map (PoolCandidate.mapMeasures lexical vector)).map
      PoolCandidate.chunkId).Nodup := by
    rw [List.map_map]
    exact hids
  have hscores : (candidates.map (PoolCandidate.mapMeasures lexical vector)).map
      (w.score (candidates.map (PoolCandidate.mapMeasures lexical vector)) partialDomains) =
      candidates.map (w.score candidates partialDomains) := by
    rw [List.map_map]
    apply List.map_congr_left
    intro c hc
    exact score_mapMeasures h hc
  have horder : byScore (candidates.map (PoolCandidate.mapMeasures lexical vector)) =
      byScore candidates := by
    funext a b
    simp only [byScore, chunkIdAt, List.getElem?_map, Option.map_map]
    rfl
  simp only [fusePoolsWithDomainPolicy, PoolMergeWeights.fused_eq hids',
    PoolMergeWeights.fused_eq hids, hscores, horder]

theorem ranking_mapMeasures (hids : (candidates.map PoolCandidate.chunkId).Nodup) (topK : ℕ) :
    ranking (candidates.map (PoolCandidate.mapMeasures lexical vector))
      (fusePoolsWithDomainPolicy (candidates.map (PoolCandidate.mapMeasures lexical vector)) topK
        w partialDomains) =
      ranking candidates (fusePoolsWithDomainPolicy candidates topK w partialDomains) := by
  rw [ranking, ranking, ranked_mapMeasures h hids]
  apply List.map_congr_left
  intro s _
  simp only [chunkIdAt, List.getElem?_map, Option.map_map]
  rfl

end MappedCandidates

section Diagnostics

variable {w : PoolMergeWeights} {candidates : List PoolCandidate}

def Member.mapMeasure (f : Measure → Measure) (m : Member) : Member :=
  { m with entry := m.entry.mapMeasure f }

theorem members_mapMeasures (lexical vector : Measure → Measure) (probeStratum : Bool)
    (leg : Leg) :
    w.members (candidates.map (PoolCandidate.mapMeasures lexical vector)) probeStratum leg =
      (w.members candidates probeStratum leg).map
        (Member.mapMeasure (leg.select lexical vector)) := by
  rw [PoolMergeWeights.members_eq, PoolMergeWeights.members_eq, List.zipIdx_map,
    List.filterMap_map, List.map_filterMap]
  apply List.filterMap_congr
  intro c _
  simp only [Function.comp_apply, Prod.map, entryOf_mapMeasures, Option.map_map, id]
  rfl

theorem seeDomains_rename {r : String → String} (hr : r.Injective) (seen : List String)
    (ms : List Member) :
    seeDomains (seen.map r) (ms.map (Member.mapMeasure (Measure.rename r))) =
      (seeDomains seen ms).map r := by
  rw [seeDomains, seeDomains, List.foldl_map]
  induction ms generalizing seen with
  | nil => rfl
  | cons m ms ih =>
    have hmem : r m.entry.measure.domain ∈ seen.map r ↔ m.entry.measure.domain ∈ seen := by
      rw [List.mem_map]
      exact ⟨fun ⟨d, hd, he⟩ => hr he ▸ hd, fun hd => ⟨_, hd, rfl⟩⟩
    have hstep : (if r m.entry.measure.domain ∈ seen.map r then seen.map r
        else seen.map r ++ [r m.entry.measure.domain]) =
        (if m.entry.measure.domain ∈ seen then seen
          else seen ++ [m.entry.measure.domain]).map r := by
      by_cases hseen : m.entry.measure.domain ∈ seen
      · rw [if_pos hseen, if_pos (hmem.mpr hseen)]
      · rw [if_neg hseen, if_neg (fun hc => hseen (hmem.mp hc)), List.map_append]
        rfl
    simp only [List.foldl_cons]
    rw [← ih]
    exact congrArg (fun s => List.foldl _ s ms) hstep

theorem oneDomain_rename {r : String → String} (hr : r.Injective) (ms : List Member) :
    1 < (stratumDomains (ms.map (Member.mapMeasure (Measure.rename r)))).length ↔
      1 < (stratumDomains ms).length := by
  have hentries : (ms.map (Member.mapMeasure (Measure.rename r))).map Member.entry =
      (ms.map Member.entry).map (Entry.mapMeasure (Measure.rename r)) := by
    rw [List.map_map, List.map_map]
    rfl
  rw [stratumDomains_eq, stratumDomains_eq, hentries, ← not_le, ← not_le,
    (translates_rename (ms.map Member.entry) hr).oneDomain]

variable {lexical vector : String → String}

/-- The domain lists and the mixed flag of a pass, with the domains renamed. -/
def FusePass.Renamed (lexical vector : String → String) (p p' : FusePass) : Prop :=
  p'.lexicalDomains = p.lexicalDomains.map lexical ∧
    p'.vectorDomains = p.vectorDomains.map vector ∧ p'.mixed = p.mixed

theorem fuseLeg_renamed (hl : lexical.Injective) (hv : vector.Injective)
    (partialDomains probeStratum : Bool) (leg : Leg) {p p' : FusePass}
    (h : p.Renamed lexical vector p') :
    (w.fuseLeg candidates partialDomains probeStratum leg p).Renamed lexical vector
      (w.fuseLeg (candidates.map (PoolCandidate.rename lexical vector)) partialDomains
        probeStratum leg p') := by
  obtain ⟨hlexical, hvector, hmixed⟩ := h
  have hmembers : w.members (candidates.map (PoolCandidate.mapMeasures (Measure.rename lexical)
      (Measure.rename vector))) probeStratum leg = (w.members candidates probeStratum leg).map
        (Member.mapMeasure (leg.select (Measure.rename lexical) (Measure.rename vector))) :=
    members_mapMeasures _ _ probeStratum leg
  rw [PoolMergeWeights.fuseLeg, PoolMergeWeights.fuseLeg]
  simp only [PoolCandidate.rename, hmembers]
  by_cases hnil : w.members candidates probeStratum leg = []
  · simp only [hnil, List.map_nil, if_true]
    exact ⟨hlexical, hvector, hmixed⟩
  · simp only [List.map_eq_nil_iff, if_neg hnil]
    cases leg with
    | lexical =>
      refine ⟨?_, hvector, ?_⟩
      · simpa only [FusePass.see, hlexical, Leg.select] using seeDomains_rename hl _ _
      · simp only [hmixed]
        congr 1
        exact decide_eq_decide.mpr (oneDomain_rename hl _)
    | vector =>
      refine ⟨hlexical, ?_, ?_⟩
      · simpa only [FusePass.see, hvector, Leg.select] using seeDomains_rename hv _ _
      · simp only [hmixed]
        congr 1
        exact decide_eq_decide.mpr (oneDomain_rename hv _)

theorem fuseLegs_renamed (hl : lexical.Injective) (hv : vector.Injective)
    (partialDomains : Bool) :
    (w.fuseLegs candidates partialDomains).Renamed lexical vector
      (w.fuseLegs (candidates.map (PoolCandidate.rename lexical vector)) partialDomains) := by
  simp only [PoolMergeWeights.fuseLegs, List.foldl_cons, List.foldl_nil, List.length_map]
  iterate 4 apply fuseLeg_renamed hl hv
  exact ⟨rfl, rfl, rfl⟩

end Diagnostics

/-- The outcome with the domain names in its diagnostics renamed. -/
def PoolMergeOutcome.rename (lexical vector : String → String) (outcome : PoolMergeOutcome) :
    PoolMergeOutcome :=
  { outcome with
    diagnostics :=
      { outcome.diagnostics with
        lexicalDomains := outcome.diagnostics.lexicalDomains.map lexical
        vectorDomains := outcome.diagnostics.vectorDomains.map vector } }

section Renumbering

variable {w : PoolMergeWeights}

/-- Nothing in the merge reads `ordinal`. -/
theorem filterMap_renumber {α : Type*} {f : PoolCandidate → Option α}
    (hf : ∀ c n, f { c with ordinal := n } = f c) (candidates : List PoolCandidate) :
    (renumber candidates).filterMap f = candidates.filterMap f := by
  rw [renumber, List.filterMap_map]
  conv_rhs => rw [← List.zipIdx_map_fst 0 candidates, List.filterMap_map]
  apply List.filterMap_congr
  intro c _
  exact hf c.1 c.2

theorem score_renumber (candidates : List PoolCandidate) (partialDomains : Bool)
    (c : PoolCandidate) (n : ℕ) :
    w.score (renumber candidates) partialDomains { c with ordinal := n } =
      w.score candidates partialDomains c := by
  have hentries (probeStratum : Bool) (leg : Leg) :
      w.entries (renumber candidates) probeStratum leg = w.entries candidates probeStratum leg :=
    filterMap_renumber (fun c n => by cases leg <;> rfl) candidates
  have hentry (probeStratum : Bool) (leg : Leg) :
      w.entryOf probeStratum leg { c with ordinal := n } = w.entryOf probeStratum leg c := by
    cases leg <;> rfl
  simp only [PoolMergeWeights.score, PoolMergeWeights.legScore, hentries, hentry]
  rfl

theorem map_renumber {α : Type*} {f g : PoolCandidate → α}
    (hf : ∀ c n, f { c with ordinal := n } = g c) (candidates : List PoolCandidate) :
    (renumber candidates).map f = candidates.map g := by
  rw [renumber, List.map_map]
  conv_rhs => rw [← List.zipIdx_map_fst 0 candidates, List.map_map]
  apply List.map_congr_left
  intro c _
  exact hf c.1 c.2

end Renumbering

section Laws

variable {w : PoolMergeWeights} {candidates : List PoolCandidate}
  (hids : (candidates.map PoolCandidate.chunkId).Nodup)

include hids

theorem ranking_renumber {reordered : List PoolCandidate} (hp : reordered.Perm candidates)
    (topK : ℕ) (partialDomains : Bool) :
    ranking (renumber reordered)
      (fusePoolsWithDomainPolicy (renumber reordered) topK w partialDomains) =
      ranking candidates (fusePoolsWithDomainPolicy candidates topK w partialDomains) := by
  have hnumbers : (renumber reordered).map PoolCandidate.chunkId =
      reordered.map PoolCandidate.chunkId := map_renumber (fun _ _ => rfl) reordered
  have hids' : (reordered.map PoolCandidate.chunkId).Nodup :=
    (hp.map PoolCandidate.chunkId).nodup_iff.mpr hids
  rw [← ranking_perm hids' hp, ranking_eq hids', ranking_eq (hnumbers ▸ hids')]
  congr 2
  apply map_renumber
  intro c n
  exact Prod.ext rfl (score_renumber reordered partialDomains c n)

theorem ranking_rescale (leg : Leg) (domain : String) {f : F64 → F64} (hf : Increasing f)
    (topK : ℕ) (partialDomains : Bool) :
    ranking (candidates.map (PoolCandidate.rescale leg domain f))
      (fusePoolsWithDomainPolicy (candidates.map (PoolCandidate.rescale leg domain f)) topK w
        partialDomains) =
      ranking candidates (fusePoolsWithDomainPolicy candidates topK w partialDomains) := by
  cases leg with
  | lexical =>
    apply ranking_mapMeasures _ hids
    intro probeStratum leg
    cases leg with
    | lexical => exact translates_rescale partialDomains _ domain hf
    | vector => exact translates_id partialDomains _
  | vector =>
    apply ranking_mapMeasures _ hids
    intro probeStratum leg
    cases leg with
    | lexical => exact translates_id partialDomains _
    | vector => exact translates_rescale partialDomains _ domain hf

theorem fusePoolsPartialDomains_rename {lexical vector : String → String}
    (hl : lexical.Injective) (hv : vector.Injective) (topK : ℕ) :
    fusePoolsPartialDomains (candidates.map (PoolCandidate.rename lexical vector)) topK w =
      (fusePoolsPartialDomains candidates topK w).rename lexical vector := by
  have hranked : (fusePoolsWithDomainPolicy (candidates.map (PoolCandidate.mapMeasures
      (Measure.rename lexical) (Measure.rename vector))) topK w true).ranked =
        (fusePoolsWithDomainPolicy candidates topK w true).ranked := by
    apply ranked_mapMeasures _ hids topK
    intro probeStratum leg
    cases leg with
    | lexical => exact translates_rename _ hl
    | vector => exact translates_rename _ hv
  obtain ⟨hlexical, hvector, hmixed⟩ : (w.fuseLegs candidates true).Renamed lexical vector
      (w.fuseLegs (candidates.map (PoolCandidate.rename lexical vector)) true) :=
    fuseLegs_renamed hl hv true
  rw [fusePoolsPartialDomains, fusePoolsPartialDomains]
  apply PoolMergeOutcome.ext
  · exact hranked
  · simp only [fusePoolsWithDomainPolicy, PoolMergeOutcome.rename, hlexical, hvector, hmixed]

theorem ranking_ids_nodup (topK : ℕ) (partialDomains : Bool) :
    ((ranking candidates (fusePoolsWithDomainPolicy candidates topK w partialDomains)).map
      Prod.fst).Nodup := by
  rw [ranking_eq hids]
  have hperm := (sortBy_perm byScoreThenId
    (candidates.map fun c => (c.chunkId, w.score candidates partialDomains c))).map Prod.fst
  rw [List.map_map] at hperm
  exact (hperm.nodup_iff.mpr hids).sublist ((List.take_sublist _ _).map _)

theorem ranking_ids_perm {topK : ℕ} (htop : candidates.length ≤ topK) (partialDomains : Bool) :
    ((ranking candidates (fusePoolsWithDomainPolicy candidates topK w partialDomains)).map
      Prod.fst).Perm (candidates.map PoolCandidate.chunkId) := by
  rw [ranking_eq hids, List.take_of_length_le]
  · have hperm := (sortBy_perm byScoreThenId
      (candidates.map fun c => (c.chunkId, w.score candidates partialDomains c))).map Prod.fst
    rw [List.map_map] at hperm
    exact hperm
  · rw [length_sortBy, List.length_map, limit]
    split_ifs <;> omega

end Laws

/-- Twice a finite value; the rest stays. -/
def doubled : F64 → F64
  | .num q => .num (2 * q)
  | v => v

theorem doubled_increasing : Increasing doubled := by
  have hkey (v : F64) : descendingKey (doubled v) =
      toLex (toLex ((ofLex (ofLex (descendingKey v)).1).1,
        2 * (ofLex (ofLex (descendingKey v)).1).2), (ofLex (descendingKey v)).2) := by
    cases v <;> simp [doubled, descendingKey, descendingValue, F64.isNan, F64.totalKey,
      F64.magnitude, F64.zeroSign]
  constructor
  · intro a b h
    rw [hkey, hkey]
    generalize descendingKey a = x at h ⊢
    generalize descendingKey b = y at h ⊢
    rw [Prod.Lex.lt_iff, Prod.Lex.lt_iff] at h
    rw [Prod.Lex.toLex_lt_toLex, Prod.Lex.toLex_lt_toLex]
    rcases h with (h | ⟨h, h'⟩) | ⟨h, h'⟩
    · exact .inl (.inl h)
    · exact .inl (.inr ⟨h, by simpa using h'⟩)
    · exact .inr ⟨by simp only [h], h'⟩
  · intro a b h
    rw [hkey, hkey, h]

/-- Two engines in the lexical leg, one embedder in the vector leg, and a NaN distance. -/
def mixedCandidates : List PoolCandidate :=
  [⟨"letters", 0, "c1", some ⟨"pg", .num 3⟩, some ⟨"hash", .num (-1)⟩⟩,
    ⟨"memos", 1, "c2", some ⟨"bm25", .num 40⟩, none⟩,
    ⟨"letters", 2, "c3", some ⟨"pg", .negZero⟩, some ⟨"hash", .nan⟩⟩]

def plainWeights : PoolMergeWeights := ⟨1, 1, 60, 1, .empty, ∅, 1⟩

end Munarium
