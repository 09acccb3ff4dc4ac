import Munarium.Retrieval.Merge

/-! The pooled merge against the historical one. Both add the same reciprocal ranks in the
same order, so they agree as soon as they order every stratum-leg alike, and that can fail
only on zeros of opposite sign: `total_cmp` separates them and `partial_cmp` does not. -/
namespace Munarium

open StableSort RetrievalPg

theorem F64.zeros_of_magnitude_eq {u v : F64} (hu : u.isNan = false) (hv : v.isNan = false)
    (hm : u.magnitude = v.magnitude) (hs : u.zeroSign ≠ v.zeroSign) :
    u = .negZero ∧ v = .num 0 ∨ u = .num 0 ∧ v = .negZero := by
  cases u <;> cases v <;> simp_all [F64.magnitude, F64.zeroSign, F64.isNan]

theorem descendingKey_of_number {v : F64} (hv : v.isNan = false) :
    descendingKey v = toLex (v.magnitude, v.zeroSign) := by
  rw [descendingKey, descendingValue, hv]
  rfl

theorem F64.neg_isNan (v : F64) : v.neg.isNan = v.isNan := by
  cases v with
  | num q => by_cases hq : q = 0 <;> simp [F64.neg, F64.isNan, hq]
  | _ => rfl

theorem F64.compare_neg {u v : F64} (hu : u.isNan = false) (hv : v.isNan = false) :
    compare v.neg.magnitude u.neg.magnitude = compare u.magnitude v.magnitude := by
  have hkey (x : F64) (hx : x.isNan = false) :
      x.neg.magnitude = toLex (-(ofLex x.magnitude).1, -(ofLex x.magnitude).2) := by
    cases x with
    | num q => by_cases hq : q = 0 <;> simp [F64.neg, F64.magnitude, hq]
    | nan => simp [F64.isNan] at hx
    | _ => simp [F64.neg, F64.magnitude]
  have hlt (x y : ℤ ×ₗ ℚ) : (toLex (-(ofLex x).1, -(ofLex x).2) : ℤ ×ₗ ℚ) <
      toLex (-(ofLex y).1, -(ofLex y).2) ↔ y < x := by
    rw [Prod.Lex.toLex_lt_toLex, Prod.Lex.lt_iff, neg_lt_neg_iff, neg_lt_neg_iff, neg_inj]
    exact or_congr_right (and_congr_left fun _ => eq_comm)
  rw [hkey u hu, hkey v hv]
  rcases lt_trichotomy u.magnitude v.magnitude with h | h | h
  · rw [compare_lt_iff_lt.mpr h, compare_lt_iff_lt.mpr ((hlt _ _).mpr h)]
  · rw [h, compare_eq_iff_eq.mpr rfl, compare_eq_iff_eq.mpr rfl]
  · rw [compare_gt_iff_gt.mpr h, compare_gt_iff_gt.mpr ((hlt _ _).mpr h)]

section Legs

variable (merged : List (String × SearchHit)) (weights : MergeWeights)

/-- A leg's value with higher read as better. -/
def valueAt (leg : Leg) (i : ℕ) : Option F64 :=
  match leg with
  | .lexical => lexicalScoreAt merged i
  | .vector => (vectorDistanceAt merged i).map F64.neg

/-- The positions a stratum-leg ranks. -/
def legMembers (probeStratum : Bool) (leg : Leg) : List ℕ :=
  (List.range merged.length).filter fun i =>
    isProbe merged weights i == probeStratum && (valueAt merged leg i).isSome

def historicalOrder (probeStratum : Bool) : Leg → List ℕ
  | .lexical => lexicalOrder merged weights probeStratum
  | .vector => vectorOrder merged weights probeStratum

/-- The order the pooled merge ranks a stratum-leg in. -/
def pooledOrder (rrfK : ℚ) (probeStratum : Bool) (leg : Leg) : List ℕ :=
  (legRanks false ((Retrieval.pooled rrfK weights).members
    (Retrieval.candidates .empty merged) probeStratum leg)).map fun r => r.1.index

def byPooled (leg : Leg) (a b : ℕ) : Ordering :=
  (descending ((valueAt merged leg a).getD .nan) ((valueAt merged leg b).getD .nan)).then
    (compare (RetrievalPg.chunkIdAt merged a) (RetrievalPg.chunkIdAt merged b))

def byMagnitude (leg : Leg) (a b : ℕ) : Ordering :=
  (compare ((valueAt merged leg b).getD .nan).magnitude
    ((valueAt merged leg a).getD .nan).magnitude).then
    (compare (RetrievalPg.chunkIdAt merged a) (RetrievalPg.chunkIdAt merged b))

theorem byPooled_keyed (leg : Leg) : KeyedBy (byPooled merged leg) fun i =>
    toLex (OrderDual.toDual (descendingKey ((valueAt merged leg i).getD .nan)),
      RetrievalPg.chunkIdAt merged i) := by
  intro a b
  rw [byPooled, descending, F64.totalCmp_eq_compare, ← descendingKey, ← descendingKey,
    ← compare_toDual, ← compare_toLex]
  exact compare_le_iff_le

theorem byMagnitude_keyed (leg : Leg) : KeyedBy (byMagnitude merged leg) fun i =>
    toLex (OrderDual.toDual ((valueAt merged leg i).getD .nan).magnitude,
      RetrievalPg.chunkIdAt merged i) := by
  intro a b
  rw [byMagnitude, ← compare_toDual, ← compare_toLex]
  exact compare_le_iff_le

/-- Every value of the leg is a number. -/
def LegNumbers (leg : Leg) : Prop :=
  ∀ i v, valueAt merged leg i = some v → v.isNan = false

variable {merged weights}

theorem mem_legMembers {probeStratum : Bool} {leg : Leg} {i : ℕ}
    (h : i ∈ legMembers merged weights probeStratum leg) : ∃ v, valueAt merged leg i = some v := by
  have hv := (List.mem_filter.mp h).2
  rw [Bool.and_eq_true] at hv
  exact Option.isSome_iff_exists.mp hv.2

theorem partialCmpOption_numbers {u v : F64} (hu : u.isNan = false) (hv : v.isNan = false) :
    (partialCmpOption (some u) (some v)).getD .eq = compare u.magnitude v.magnitude := by
  simp [partialCmpOption, F64.partialCmp, hu, hv]

theorem historicalOrder_eq {leg : Leg} (hnum : LegNumbers merged leg) (probeStratum : Bool) :
    historicalOrder merged weights probeStratum leg =
      sortBy (byMagnitude merged leg) (legMembers merged weights probeStratum leg) := by
  cases leg with
  | lexical =>
    apply sortBy_congr_of_mem
    intro a ha b hb
    obtain ⟨u, hu⟩ : ∃ u, valueAt merged .lexical a = some u := mem_legMembers ha
    obtain ⟨v, hv⟩ : ∃ v, valueAt merged .lexical b = some v := mem_legMembers hb
    rw [byMagnitude, byLexical, hu, hv, show lexicalScoreAt merged a = some u from hu,
      show lexicalScoreAt merged b = some v from hv,
      partialCmpOption_numbers (hnum b v hv) (hnum a u hu)]
    rfl
  | vector =>
    have hmembers : legMembers merged weights probeStratum .vector =
        (List.range merged.length).filter fun i =>
          isProbe merged weights i == probeStratum && (vectorDistanceAt merged i).isSome := by
      simp only [legMembers, valueAt, Option.isSome_map]
    rw [historicalOrder, vectorOrder, ← hmembers]
    apply sortBy_congr_of_mem
    intro a ha b hb
    obtain ⟨u, hu⟩ := mem_legMembers ha
    obtain ⟨v, hv⟩ := mem_legMembers hb
    obtain ⟨d, hd, hdu⟩ := Option.map_eq_some_iff.mp hu
    obtain ⟨e, he, hev⟩ := Option.map_eq_some_iff.mp hv
    have hnu := hnum a u hu
    have hnv := hnum b v hv
    subst hdu hev
    rw [F64.neg_isNan] at hnu hnv
    rw [byMagnitude, byVector, hu, hv, hd, he, partialCmpOption_numbers hnu hnv]
    simp only [Option.getD_some]
    rw [F64.compare_neg hnu hnv]

theorem candidates_getElem? (i : ℕ) :
    (Retrieval.candidates .empty merged)[i]? =
      (merged[i]?).map fun h => Retrieval.candidate .empty i h.1 h.2 := by
  rw [Retrieval.candidates, List.getElem?_map, List.getElem?_zipIdx, Option.map_map]
  simp only [Nat.zero_add]
  rfl

theorem candidates_length : (Retrieval.candidates .empty merged).length = merged.length := by
  rw [Retrieval.candidates, List.length_map, List.length_zipIdx]

/-- What the pooled merge reads of a hit is what the historical merge reads. -/
theorem entryOf_candidate (rrfK : ℚ) {probeStratum : Bool} {leg : Leg} {i : ℕ}
    {m : String × SearchHit} (hm : merged[i]? = some m) :
    (Retrieval.pooled rrfK weights).entryOf probeStratum leg
        (Retrieval.candidate .empty i m.1 m.2) =
      if isProbe merged weights i == probeStratum then
        (valueAt merged leg i).map fun v =>
          ⟨RetrievalPg.chunkIdAt merged i,
            ⟨leg.casesOn Retrieval.pgLexicalDomain Retrieval.localVectorDomain, v⟩⟩
      else none := by
  have hprobe : (Retrieval.pooled rrfK weights).isProbe
      (Retrieval.candidate .empty i m.1 m.2) = isProbe merged weights i := by
    rw [RetrievalPg.isProbe, hm]
    rfl
  rw [PoolMergeWeights.entryOf, hprobe]
  by_cases h : isProbe merged weights i = probeStratum
  · rw [if_pos h, if_pos (by simpa using h)]
    cases leg <;>
      simp [pick, Retrieval.candidate, valueAt, lexicalScoreAt, vectorDistanceAt, hitAt, hm,
        RetrievalPg.chunkIdAt, Option.map_map, Function.comp_def]
  · rw [if_neg h, if_neg (by simpa using h)]

theorem mem_pooled_members (rrfK : ℚ) {probeStratum : Bool} {leg : Leg} {m : Member}
    (h : m ∈ (Retrieval.pooled rrfK weights).members (Retrieval.candidates .empty merged)
      probeStratum leg) :
    valueAt merged leg m.index = some m.entry.measure.value ∧
      m.entry.chunkId = RetrievalPg.chunkIdAt merged m.index ∧
      m.entry.measure.domain =
        leg.casesOn Retrieval.pgLexicalDomain Retrieval.localVectorDomain := by
  obtain ⟨c, hc, he⟩ := PoolMergeWeights.mem_members_iff.mp h
  rw [candidates_getElem?] at hc
  obtain ⟨hit, hhit, rfl⟩ := Option.map_eq_some_iff.mp hc
  rw [entryOf_candidate rrfK hhit] at he
  split_ifs at he
  obtain ⟨v, hv, hentry⟩ := Option.map_eq_some_iff.mp he
  rw [← hentry]
  exact ⟨hv, rfl, rfl⟩

theorem pooled_indices (rrfK : ℚ) (probeStratum : Bool) (leg : Leg) :
    ((Retrieval.pooled rrfK weights).members (Retrieval.candidates .empty merged)
      probeStratum leg).map Member.index = legMembers merged weights probeStratum leg := by
  have hlength : (Retrieval.candidates .empty merged).length = merged.length :=
    candidates_length
  rw [PoolMergeWeights.members_eq, map_index_filterMap (by
    intro a b hb
    obtain ⟨e, -, rfl⟩ := Option.map_eq_some_iff.mp hb
    rfl), legMembers, ← hlength, List.range_eq_range',
    ← List.zipIdx_map_snd 0, List.filter_map]
  congr 1
  apply List.filter_congr
  intro c hc
  have hat := List.mem_zipIdx_iff_getElem?.mp hc
  rw [candidates_getElem?] at hat
  obtain ⟨hit, hhit, hce⟩ := Option.map_eq_some_iff.mp hat
  rw [← hce, Option.isSome_map, entryOf_candidate rrfK hhit, Function.comp_apply]
  cases h : isProbe merged weights c.2 == probeStratum <;> simp

/-- The adapter tags each leg with one domain, so the leg is ordered by value. -/
theorem pooled_legRanks (rrfK : ℚ) (probeStratum : Bool) (leg : Leg) :
    legRanks false ((Retrieval.pooled rrfK weights).members
        (Retrieval.candidates .empty merged) probeStratum leg) =
      (sortBy byValue ((Retrieval.pooled rrfK weights).members
        (Retrieval.candidates .empty merged) probeStratum leg)).zipIdx := by
  rw [legRanks, if_pos]
  rw [stratumDomains_eq, Entry.oneDomain_iff]
  intro a ha b hb
  obtain ⟨m, hm, rfl⟩ := List.mem_map.mp ha
  obtain ⟨n, hn, rfl⟩ := List.mem_map.mp hb
  rw [(mem_pooled_members rrfK hm).2.2, (mem_pooled_members rrfK hn).2.2]

theorem pooledOrder_eq_map (rrfK : ℚ) (probeStratum : Bool) (leg : Leg) :
    pooledOrder merged weights rrfK probeStratum leg =
      (sortBy byValue ((Retrieval.pooled rrfK weights).members
        (Retrieval.candidates .empty merged) probeStratum leg)).map Member.index := by
  rw [pooledOrder, pooled_legRanks]
  conv_rhs => rw [← List.zipIdx_map_fst 0 (sortBy byValue _), List.map_map]
  rfl

theorem pooledOrder_eq (rrfK : ℚ) (probeStratum : Bool) (leg : Leg) :
    pooledOrder merged weights rrfK probeStratum leg =
      sortBy (byPooled merged leg) (legMembers merged weights probeStratum leg) := by
  rw [pooledOrder_eq_map, ← pooled_indices rrfK]
  apply map_sortBy_of
  intro a ha b hb
  obtain ⟨hva, hia, -⟩ := mem_pooled_members rrfK ha
  obtain ⟨hvb, hib, -⟩ := mem_pooled_members rrfK hb
  rw [byPooled, hva, hvb, byValue, hia, hib]
  rfl

/-- Two members of a stratum-leg whose zeros of opposite sign the two merges order
differently: the tie-break puts the negative zero first. -/
def LegConflict (merged : List (String × SearchHit)) (weights : MergeWeights)
    (probeStratum : Bool) (leg : Leg) : Prop :=
  ∃ i ∈ legMembers merged weights probeStratum leg,
    ∃ j ∈ legMembers merged weights probeStratum leg,
      valueAt merged leg i = some .negZero ∧ valueAt merged leg j = some (.num 0) ∧
        toLex (RetrievalPg.chunkIdAt merged i, i) < toLex (RetrievalPg.chunkIdAt merged j, j)

theorem legMembers_ascending (probeStratum : Bool) (leg : Leg) :
    (legMembers merged weights probeStratum leg).Pairwise (· < ·) :=
  List.Pairwise.filter _ List.pairwise_lt_range

/-- The merges order a stratum-leg alike exactly when it holds no conflicting zeros. -/
theorem order_eq_iff {leg : Leg} (hnum : LegNumbers merged leg) (rrfK : ℚ)
    (probeStratum : Bool) :
    pooledOrder merged weights rrfK probeStratum leg =
        historicalOrder merged weights probeStratum leg ↔
      ¬LegConflict merged weights probeStratum leg := by
  rw [pooledOrder_eq, historicalOrder_eq hnum]
  constructor
  · rintro heq ⟨i, hi, j, hj, hvi, hvj, hlt⟩
    have hiff := (byPooled_keyed merged leg).lt_iff_of_sortBy_eq (byMagnitude_keyed merged leg)
      (legMembers_ascending probeStratum leg) heq hi hj
    simp only [hvi, hvj, Option.getD_some, Prod.Lex.toLex_lt_toLex, OrderDual.toDual_lt_toDual,
      toLex_inj, Prod.mk.injEq] at hiff hlt
    have hkeys : descendingKey .negZero < descendingKey (.num 0) := by decide
    have hbefore := hiff.mpr (hlt.elim (fun h => .inl (.inr ⟨rfl, h⟩))
      fun h => .inr ⟨⟨rfl, h.1⟩, h.2⟩)
    rcases hbefore with (h | h) | h
    · exact hkeys.not_gt h
    · exact hkeys.ne h.1
    · exact hkeys.ne h.1.1
  · intro hno
    apply sortBy_congr
    have hmem : (legMembers merged weights probeStratum leg).Pairwise fun i j =>
        i < j ∧ i ∈ legMembers merged weights probeStratum leg ∧
          j ∈ legMembers merged weights probeStratum leg :=
      (legMembers_ascending probeStratum leg).imp_of_mem fun hi hj hij => ⟨hij, hi, hj⟩
    apply hmem.imp
    rintro i j ⟨hij, hi, hj⟩
    obtain ⟨u, hu⟩ := mem_legMembers hi
    obtain ⟨v, hv⟩ := mem_legMembers hj
    have hnu := hnum i u hu
    have hnv := hnum j v hv
    rw [byPooled_keyed merged leg i j, byMagnitude_keyed merged leg i j]
    simp only [hu, hv, Option.getD_some, descendingKey_of_number hnu, descendingKey_of_number hnv,
      Prod.Lex.toLex_le_toLex, Prod.Lex.toLex_lt_toLex, OrderDual.toDual_lt_toDual,
      OrderDual.toDual_inj, toLex_inj, Prod.mk.injEq]
    by_cases hmagnitude : u.magnitude = v.magnitude
    · by_cases hsign : u.zeroSign = v.zeroSign
      · simp [hmagnitude, hsign]
      · have hids (h : ¬RetrievalPg.chunkIdAt merged i ≤ RetrievalPg.chunkIdAt merged j) :
            toLex (RetrievalPg.chunkIdAt merged j, j) <
              toLex (RetrievalPg.chunkIdAt merged i, i) :=
          Prod.Lex.toLex_lt_toLex.mpr (.inl (not_le.mp h))
        have hids' (h : RetrievalPg.chunkIdAt merged i ≤ RetrievalPg.chunkIdAt merged j) :
            toLex (RetrievalPg.chunkIdAt merged i, i) <
              toLex (RetrievalPg.chunkIdAt merged j, j) :=
          Prod.Lex.toLex_lt_toLex.mpr (h.lt_or_eq.imp_right fun he => ⟨he, hij⟩)
        rcases F64.zeros_of_magnitude_eq hnu hnv hmagnitude hsign with ⟨rfl, rfl⟩ | ⟨rfl, rfl⟩
        · have hgt : ¬RetrievalPg.chunkIdAt merged i ≤ RetrievalPg.chunkIdAt merged j :=
            fun h => hno ⟨i, hi, j, hj, hu, hv, hids' h⟩
          simp [hgt, F64.magnitude, F64.zeroSign]
        · have hle : RetrievalPg.chunkIdAt merged i ≤ RetrievalPg.chunkIdAt merged j := by
            by_contra h
            exact hno ⟨j, hj, i, hi, hv, hu, hids h⟩
          simp [hle, F64.magnitude, F64.zeroSign]
    · have hne : ¬v.magnitude = u.magnitude := fun he => hmagnitude he.symm
      simp [hmagnitude, hne]

theorem fuseLeg_addOrder (rrfK : ℚ) (probeStratum : Bool) (leg : Leg) (p : FusePass) :
    ((Retrieval.pooled rrfK weights).fuseLeg (Retrieval.candidates .empty merged) false
        probeStratum leg p).fused =
      addOrder (if rrfK > 0 then rrfK else 60)
        ((if probeStratum then weights.probeWeight else 1) *
          (Retrieval.pooled rrfK weights).legWeight leg)
        (pooledOrder merged weights rrfK probeStratum leg) p.fused := by
  set ms := (Retrieval.pooled rrfK weights).members (Retrieval.candidates .empty merged)
    probeStratum leg with hms
  have hranks : legRanks false ((Retrieval.pooled rrfK weights).members
      (Retrieval.candidates .empty merged) probeStratum leg) = (sortBy byValue
        ((Retrieval.pooled rrfK weights).members (Retrieval.candidates .empty merged)
          probeStratum leg)).zipIdx := pooled_legRanks rrfK probeStratum leg
  rw [pooledOrder_eq_map, addOrder, List.zipIdx_map, List.map_map, PoolMergeWeights.fuseLeg]
  simp only [← hms] at hranks ⊢
  by_cases hnil : ms = []
  · simp [hnil, sortBy]
  · rw [if_neg hnil, hranks]
    rfl

/-- Equal leg orders add up to equal scores. -/
theorem fused_agree (rrfK : ℚ) (h : ∀ probeStratum leg,
    pooledOrder merged weights rrfK probeStratum leg =
      historicalOrder merged weights probeStratum leg) :
    (Retrieval.pooled rrfK weights).addEvidence (Retrieval.candidates .empty merged)
        ((Retrieval.pooled rrfK weights).fuseLegs (Retrieval.candidates .empty merged)
          false).fused = fused merged rrfK weights := by
  have hlegs : ((Retrieval.pooled rrfK weights).fuseLegs (Retrieval.candidates .empty merged)
      false).fused = [false, true].foldl
        (fuseStratum merged (if rrfK > 0 then rrfK else 60) weights)
        (List.replicate merged.length 0) := by
    simp only [PoolMergeWeights.fuseLegs, List.foldl_cons, List.foldl_nil, fuseLeg_addOrder, h,
      candidates_length]
    rfl
  have hzip : (Retrieval.candidates .empty merged).zipIdx =
      merged.zipIdx.map fun m => (Retrieval.candidate .empty m.2 m.1.1 m.1.2, m.2) := by
    apply List.ext_getElem?
    intro i
    rw [List.getElem?_zipIdx, candidates_getElem?, List.getElem?_map, List.getElem?_zipIdx]
    cases merged[i]? <;> simp
  rw [PoolMergeWeights.addEvidence, fused, hlegs, hzip, List.filterMap_map]
  rfl

/-- Equal scores are served as equal lists. -/
theorem merge_agree (results : List CollectionSearchResult) (topK : ℕ) (rrfK : ℚ)
    (weights : MergeWeights) (h : ∀ probeStratum leg,
      pooledOrder (flatten results) weights rrfK probeStratum leg =
        historicalOrder (flatten results) weights probeStratum leg) :
    Retrieval.mergeHitsWeighted results topK rrfK weights =
      RetrievalPg.mergeHitsWeighted results topK rrfK weights := by
  set flat := flatten results with hflat
  have hfused := fused_agree rrfK h
  have hlength : (fused flat rrfK weights).length = flat.length := by
    rw [← hfused, PoolMergeWeights.length_fused, candidates_length]
  set row : ℕ × ℚ → String × SearchHit := fun s =>
    ((flat[s.1]?).map fun m => (m.1, m.2.withScore s.2)).getD
      ("", ⟨"", "", "", "", "", s.2, none, none, none, none, none⟩) with hrow
  set scores := (fused flat rrfK weights).zipIdx.map fun s => (s.2, s.1) with hscores
  have hin : ∀ s ∈ scores, ∃ m, flat[s.1]? = some m := by
    intro s hs
    obtain ⟨x, hx, rfl⟩ := List.mem_map.mp hs
    have hlt := (List.getElem?_eq_some_iff.mp (List.mem_zipIdx_iff_getElem?.mp hx)).1
    exact ⟨_, List.getElem?_eq_getElem (hlength ▸ hlt)⟩
  have hrows : scores.map row = flat.zipWith
      (fun m score => (m.1, m.2.withScore score)) (fused flat rrfK weights) := by
    apply List.ext_getElem?
    intro i
    rw [hscores, List.map_map, List.getElem?_map, List.getElem?_zipIdx, List.getElem?_zipWith]
    by_cases hi : i < flat.length
    · simp [hrow, List.getElem?_eq_getElem hi, List.getElem?_eq_getElem (hlength.symm ▸ hi)]
    · have hnone : flat[i]? = none := List.getElem?_eq_none (not_lt.mp hi)
      have hnone' : (fused flat rrfK weights)[i]? = none :=
        List.getElem?_eq_none (hlength.symm ▸ not_lt.mp hi)
      simp [hnone, hnone']
  have hsort : (sortBy (Munarium.byScore (Retrieval.candidates .empty flat)) scores).map row =
      sortBy RetrievalPg.byScore (scores.map row) := by
    apply map_sortBy_of
    intro a ha b hb
    obtain ⟨m, hm⟩ := hin a ha
    obtain ⟨n, hn⟩ := hin b hb
    simp [RetrievalPg.byScore, Munarium.byScore, descendingScore, Munarium.chunkIdAt,
      candidates_getElem?, hrow, hm, hn, Retrieval.candidate, SearchHit.withScore]
  have hserved : ∀ s ∈ (sortBy (Munarium.byScore (Retrieval.candidates .empty flat))
      scores).take (limit topK), ((flat[s.1]?).map fun m =>
        (m.1, m.2.withScore s.2)) = some (row s) := by
    intro s hs
    obtain ⟨m, hm⟩ := hin s (mem_sortBy.mp (List.mem_of_mem_take hs))
    simp [hrow, hm]
  rw [Retrieval.mergeHitsWeighted, Retrieval.mergeHitsInDomains, if_pos (show
    (SortedMap.empty : SortedMap String (String × String)).entries = [] from rfl), fusePools,
    fusePoolsWithDomainPolicy, RetrievalPg.mergeHitsWeighted]
  simp only [← hflat, hfused, ← hscores]
  rw [List.filterMap_congr hserved, List.filterMap_eq_map', List.map_take, hsort, hrows]
  rfl

end Legs

/-- The scores and distances are numbers. -/
def NoNan (results : List CollectionSearchResult) : Prop :=
  ∀ r ∈ results, ∀ h ∈ r.hits, (∀ v, h.lexicalScore = some v → v.isNan = false) ∧
    ∀ d, h.vectorDistance = some d → d.isNan = false

/-- Some stratum-leg holds zeros of opposite sign, the negative one first by chunk id and
arrival. Distances count by the sign of their negation. -/
def SignedZeroConflict (results : List CollectionSearchResult) (weights : MergeWeights) : Prop :=
  ∃ probeStratum leg, LegConflict (flatten results) weights probeStratum leg

theorem NoNan.legNumbers {results : List CollectionSearchResult} (h : NoNan results)
    (leg : Leg) : LegNumbers (flatten results) leg := by
  have hhit : ∀ i hit, hitAt (flatten results) i = some hit →
      (∀ v, hit.lexicalScore = some v → v.isNan = false) ∧
        ∀ d, hit.vectorDistance = some d → d.isNan = false := by
    intro i hit hat
    obtain ⟨m, hm, rfl⟩ := Option.map_eq_some_iff.mp hat
    obtain ⟨r, hr, hmr⟩ := List.mem_flatMap.mp (List.mem_of_getElem? hm)
    obtain ⟨hit, hhit, rfl⟩ := List.mem_map.mp hmr
    exact h r hr hit hhit
  intro i v hv
  cases leg with
  | lexical =>
    obtain ⟨hit, hat, hscore⟩ := Option.bind_eq_some_iff.mp hv
    exact (hhit i hit hat).1 v hscore
  | vector =>
    obtain ⟨d, hd, rfl⟩ := Option.map_eq_some_iff.mp hv
    obtain ⟨hit, hat, hdistance⟩ := Option.bind_eq_some_iff.mp hd
    rw [F64.neg_isNan]
    exact (hhit i hit hat).2 d hdistance

/-- Without conflicting zeros the merges return one list, and conflicting zeros are what makes
them order a stratum-leg differently. -/
theorem merges_agree (results : List CollectionSearchResult) (hnum : NoNan results) (topK : ℕ)
    (rrfK : ℚ) (weights : MergeWeights) :
    (¬SignedZeroConflict results weights →
      Retrieval.mergeHitsWeighted results topK rrfK weights =
        RetrievalPg.mergeHitsWeighted results topK rrfK weights) ∧
    ((∀ probeStratum leg, pooledOrder (flatten results) weights rrfK probeStratum leg =
        historicalOrder (flatten results) weights probeStratum leg) ↔
      ¬SignedZeroConflict results weights) := by
  have horders : (∀ probeStratum leg,
      pooledOrder (flatten results) weights rrfK probeStratum leg =
        historicalOrder (flatten results) weights probeStratum leg) ↔
      ¬SignedZeroConflict results weights := by
    simp only [order_eq_iff (hnum.legNumbers _), SignedZeroConflict, not_exists]
  exact ⟨fun h => merge_agree results topK rrfK weights (horders.mpr h), horders⟩

instance (merged : List (String × SearchHit)) (weights : MergeWeights) (probeStratum : Bool)
    (leg : Leg) : Decidable (LegConflict merged weights probeStratum leg) :=
  inferInstanceAs (Decidable (∃ i ∈ legMembers merged weights probeStratum leg,
    ∃ j ∈ legMembers merged weights probeStratum leg,
      valueAt merged leg i = some .negZero ∧ valueAt merged leg j = some (.num 0) ∧
        toLex (RetrievalPg.chunkIdAt merged i, i) < toLex (RetrievalPg.chunkIdAt merged j, j)))

def legHit (chunkId : String) (lexicalScore vectorDistance : Option F64) : SearchHit :=
  ⟨chunkId, "src", "a.md", "sha256:0", "text", 0, none, none, lexicalScore, vectorDistance, none⟩

def unweighted : MergeWeights := ⟨1, 1, 0, .empty, ∅, 1⟩

/-- A repeated chunk id, a tie, a missing leg, a probe pool and a distance of zero. -/
def poolResults : List CollectionSearchResult :=
  [⟨"letters", [legHit "b" (some (.num 2)) (some (.num 0)), legHit "a" (some (.num 2)) none]⟩,
    ⟨"memos", [legHit "b" none (some (.num (1 / 2)))]⟩,
    ⟨"probe", [legHit "c" (some (.num 1)) none]⟩]

theorem merges_agree_on_pools :
    Retrieval.mergeHitsWeighted poolResults 0 (-1)
        { unweighted with probeCollections := {"probe"} } =
      RetrievalPg.mergeHitsWeighted poolResults 0 (-1)
        { unweighted with probeCollections := {"probe"} } := by
  apply (merges_agree poolResults _ 0 (-1) _).1
  · rintro ⟨probeStratum, leg, h⟩
    revert h
    cases probeStratum <;> cases leg <;> decide +kernel
  · simp [NoNan, poolResults, legHit, F64.isNan]

/-- One collection with the lexical scores `0.0` and `-0.0`. -/
def zeroResults : List CollectionSearchResult :=
  [⟨"letters", [legHit "b" (some (.num 0)) none, legHit "a" (some .negZero) none]⟩]

theorem signed_zeros_change_the_merge :
    NoNan zeroResults ∧
      (Retrieval.mergeHitsWeighted zeroResults 10 60 unweighted).map (fun h => h.2.chunkId) =
        ["b", "a"] ∧
      (RetrievalPg.mergeHitsWeighted zeroResults 10 60 unweighted).map (fun h => h.2.chunkId) =
        ["a", "b"] ∧
      Retrieval.mergeHitsWeighted zeroResults 10 60 unweighted ≠
        RetrievalPg.mergeHitsWeighted zeroResults 10 60 unweighted := by
  have hnew : (Retrieval.mergeHitsWeighted zeroResults 10 60 unweighted).map
      (fun h => h.2.chunkId) = ["b", "a"] := by decide +kernel
  have hold : (RetrievalPg.mergeHitsWeighted zeroResults 10 60 unweighted).map
      (fun h => h.2.chunkId) = ["a", "b"] := by decide +kernel
  have hnum : NoNan zeroResults := by simp [NoNan, zeroResults, legHit, F64.isNan]
  refine ⟨hnum, hnew, hold, ?_⟩
  intro he
  rw [he, hold] at hnew
  exact absurd hnew (by decide)

end Munarium
