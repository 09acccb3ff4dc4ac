import Munarium.Retrieval.Fusion

/-! The fused score of a candidate in closed form: its ranks count the entries before it, so
the score depends on the candidates as a collection and not on their arrival order. -/
namespace Munarium

open StableSort

namespace F64

theorem totalCmp_eq_compare (a b : F64) : a.totalCmp b = compare a.totalKey b.totalKey :=
  (compare_toLex a.magnitude b.magnitude a.zeroSign b.zeroSign).symm

end F64

/-- The order `descending` reads a value in. -/
def descendingKey (v : F64) : (ℤ ×ₗ ℚ) ×ₗ ℕ := (descendingValue v).totalKey

namespace Entry

/-- Higher values first, then the chunk id. -/
def valueKey (e : Entry) : ((ℤ ×ₗ ℚ) ×ₗ ℕ)ᵒᵈ ×ₗ String :=
  toLex (OrderDual.toDual (descendingKey e.measure.value), e.chunkId)

theorem valueKey_lt_iff (a b : Entry) :
    a.valueKey < b.valueKey ↔
      descendingKey b.measure.value < descendingKey a.measure.value ∨
        descendingKey a.measure.value = descendingKey b.measure.value ∧
          a.chunkId < b.chunkId := by
  rw [valueKey, valueKey, Prod.Lex.toLex_lt_toLex, OrderDual.toDual_lt_toDual,
    OrderDual.toDual_inj]

/-- The entries before `e` in its own domain. -/
def domainRank (es : List Entry) (e : Entry) : ℕ :=
  rank valueKey (es.filter fun d => d.measure.domain = e.measure.domain) e

def interleavedKey (es : List Entry) (e : Entry) : (ℕ ×ₗ String) ×ₗ String :=
  toLex (toLex (domainRank es e, e.measure.domain), e.chunkId)

def domainsOf (es : List Entry) : List String :=
  ((es.map fun e => e.measure.domain).insertionSort (· ≤ ·)).dedup

/-- The rank a stratum-leg computes for an entry. -/
def legRank (partialDomains : Bool) (es : List Entry) (e : Entry) : ℕ :=
  if (domainsOf es).length ≤ 1 then rank valueKey es e
  else if partialDomains then domainRank es e
  else rank (interleavedKey es) es e

theorem oneDomain_iff (es : List Entry) :
    (domainsOf es).length ≤ 1 ↔
      ∀ a ∈ es, ∀ b ∈ es, a.measure.domain = b.measure.domain := by
  have hmem (d : String) : d ∈ domainsOf es ↔ ∃ e ∈ es, e.measure.domain = d := by
    rw [domainsOf, List.mem_dedup, (List.perm_insertionSort _ _).mem_iff, List.mem_map]
  have hnodup : (domainsOf es).Nodup := List.nodup_dedup _
  constructor
  · intro hlen a ha b hb
    have ha := (hmem _).mpr ⟨a, ha, rfl⟩
    have hb := (hmem _).mpr ⟨b, hb, rfl⟩
    match h : domainsOf es with
    | [] => rw [h] at ha; exact absurd ha List.not_mem_nil
    | [d] =>
      rw [h] at ha hb
      rw [List.mem_singleton.mp ha, List.mem_singleton.mp hb]
    | d :: d' :: ds => rw [h] at hlen; simp at hlen
  · intro hall
    match h : domainsOf es with
    | [] => simp
    | [d] => simp
    | d :: d' :: ds =>
      obtain ⟨a, ha, had⟩ := (hmem d).mp (by simp [h])
      obtain ⟨b, hb, hbd⟩ := (hmem d').mp (by simp [h])
      rw [h] at hnodup
      have hne : d ≠ d' := (List.nodup_cons.mp hnodup).1 ∘ fun he => by simp [he]
      exact absurd (had.symm.trans ((hall a ha b hb).trans hbd)) hne

end Entry

open Entry

theorem byValue_eq (a b : Member) : byValue a b = compare a.entry.valueKey b.entry.valueKey := by
  rw [valueKey, valueKey, compare_toLex, compare_toDual, byValue, descending,
    F64.totalCmp_eq_compare, descendingKey, descendingKey]

theorem byValue_keyed : KeyedBy byValue fun m => m.entry.valueKey := by
  intro a b
  rw [byValue_eq]
  exact compare_le_iff_le

def Ranked.key (r : Ranked) : (ℕ ×ₗ String) ×ₗ String :=
  toLex (toLex (r.rank, r.domain), r.member.entry.chunkId)

theorem byRank_keyed : KeyedBy byRank Ranked.key := by
  intro a b
  rw [byRank, ← compare_toLex, ← compare_toLex]
  exact compare_le_iff_le

theorem stratumDomains_eq (ms : List Member) :
    stratumDomains ms = domainsOf (ms.map Member.entry) := by
  rw [stratumDomains, domainsOf, List.map_map]
  rfl

theorem mem_stratumDomains {ms : List Member} {m : Member} (hm : m ∈ ms) :
    m.entry.measure.domain ∈ stratumDomains ms := by
  rw [stratumDomains, List.mem_dedup, (List.perm_insertionSort _ _).mem_iff]
  exact List.mem_map_of_mem hm

section Ranks

variable {ms : List Member} (hids : (ms.map fun m => m.entry.chunkId).Nodup)

include hids

private theorem keys_nodup {κ : Type*} {key : Member → κ}
    (hkey : ∀ a b, key a = key b → a.entry.chunkId = b.entry.chunkId) :
    (ms.map key).Nodup := by
  have hpw := List.pairwise_map.mp hids
  apply List.pairwise_map.mpr
  exact hpw.imp fun {a b} hne he => hne (hkey a b he)

theorem valueKeys_nodup : (ms.map fun m => m.entry.valueKey).Nodup := by
  apply keys_nodup hids
  intro a b h
  exact congrArg Prod.snd (toLex_inj.mp h)

theorem mem_withRank {m : Member} (hm : m ∈ ms) :
    (⟨domainRank (ms.map Member.entry) m.entry, m, m.entry.measure.domain⟩ : Ranked) ∈
      withRank ms := by
  have hown : m ∈ ms.filter fun d => d.entry.measure.domain = m.entry.measure.domain :=
    List.mem_filter.mpr ⟨hm, by simp⟩
  have hnodup := (valueKeys_nodup hids).sublist
    ((List.filter_sublist
      (p := fun d : Member => decide (d.entry.measure.domain = m.entry.measure.domain))).map _)
  have hat := byValue_keyed.mem_zipIdx hnodup hown
  have hrank : rank (fun m => m.entry.valueKey)
      (ms.filter fun d => d.entry.measure.domain = m.entry.measure.domain) m =
      domainRank (ms.map Member.entry) m.entry := by
    rw [domainRank, List.filter_map, rank_map]
    rfl
  rw [hrank] at hat
  exact List.mem_flatMap.mpr ⟨_, mem_stratumDomains hm, List.mem_map.mpr ⟨_, hat, rfl⟩⟩

omit hids in
theorem withRank_members_perm : ((withRank ms).map Ranked.member).Perm ms := by
  have hgroups : ((withRank ms).map Ranked.member) =
      (stratumDomains ms).flatMap fun d =>
        sortBy byValue (ms.filter fun m => m.entry.measure.domain = d) := by
    rw [withRank, List.map_flatMap]
    congr 1
    funext d
    rw [List.map_map]
    exact List.zipIdx_map_fst 0 _
  rw [hgroups]
  have hsorted : ((stratumDomains ms).flatMap fun d =>
      sortBy byValue (ms.filter fun m => m.entry.measure.domain = d)).Perm
      ((stratumDomains ms).flatMap fun d =>
        ms.filter fun m => m.entry.measure.domain = d) :=
    List.Perm.flatMap_left _ fun d _ => sortBy_perm _ _
  apply hsorted.trans
  exact flatMap_filter_perm (fun m : Member => m.entry.measure.domain) (List.nodup_dedup _)
    fun m hm => mem_stratumDomains hm

/-- A member's rank can be read off the entries alone. -/
theorem mem_legRanks (partialDomains : Bool) {m : Member} (hm : m ∈ ms) :
    (m, legRank partialDomains (ms.map Member.entry) m.entry) ∈ legRanks partialDomains ms := by
  rw [legRank, legRanks, ← stratumDomains_eq]
  split_ifs with hone hpartial
  · have hat := byValue_keyed.mem_zipIdx (valueKeys_nodup hids) hm
    rwa [rank_map]
  · exact List.mem_map.mpr ⟨_, mem_withRank hids hm, rfl⟩
  · set own : Member → Ranked := fun m =>
      ⟨domainRank (ms.map Member.entry) m.entry, m, m.entry.measure.domain⟩ with hown
    have hmembers : ((withRank ms).map Ranked.member).Perm ms := withRank_members_perm
    have hperm : (withRank ms).Perm (ms.map own) := by
      have hnodup : ms.Nodup := hids.of_map _
      have hwith : (withRank ms).Nodup := (hmembers.nodup_iff.mpr hnodup).of_map _
      have hinj : Function.Injective own := fun a b h => congrArg Ranked.member h
      have hsub : ms.map own ⊆ withRank ms := by
        intro r hr
        obtain ⟨a, ha, rfl⟩ := List.mem_map.mp hr
        exact mem_withRank hids ha
      have hsubperm := (hnodup.map hinj).subperm hsub
      apply (hsubperm.perm_of_length_le _).symm
      have hlen := hmembers.length_eq
      rw [List.length_map] at hlen ⊢
      exact hlen.le
    have hkeys : ((ms.map own).map Ranked.key).Nodup := by
      rw [List.map_map]
      apply keys_nodup hids
      intro a b h
      exact congrArg Prod.snd (toLex_inj.mp h)
    rw [byRank_keyed.sortBy_eq_of_perm hperm ((hperm.map _).nodup_iff.mpr hkeys)]
    have hat := byRank_keyed.mem_zipIdx hkeys (List.mem_map_of_mem hm)
    rw [rank_map] at hat
    have hrank : rank (interleavedKey (ms.map Member.entry)) (ms.map Member.entry) m.entry =
        rank (Ranked.key ∘ own) ms m := by
      rw [rank_map]
      rfl
    rw [hrank, List.zipIdx_map]
    exact List.mem_map.mpr ⟨_, hat, rfl⟩

omit hids in
theorem legRanks_members_perm (partialDomains : Bool) :
    ((legRanks partialDomains ms).map Prod.fst).Perm ms := by
  rw [legRanks]
  split_ifs
  · rw [List.zipIdx_map_fst]
    exact sortBy_perm _ _
  · rw [List.map_map]
    exact withRank_members_perm
  · rw [List.zipIdx_map_fst]
    exact ((sortBy_perm _ _).map _).trans withRank_members_perm

end Ranks

section Scatter

/-- What a list of contributions adds at one index. -/
def added (cs : List (ℕ × ℚ)) (i : ℕ) : ℚ := ((cs.filter fun c => c.1 = i).map Prod.snd).sum

theorem length_foldl_addScore (cs : List (ℕ × ℚ)) (fused : List ℚ) :
    (cs.foldl addScore fused).length = fused.length := by
  induction cs generalizing fused with
  | nil => rfl
  | cons c cs ih => rw [List.foldl_cons, ih, addScore, List.length_modify]

theorem getElem?_foldl_addScore (cs : List (ℕ × ℚ)) (fused : List ℚ) (i : ℕ) :
    (cs.foldl addScore fused)[i]? = (fused[i]?).map (· + added cs i) := by
  induction cs generalizing fused with
  | nil => simp [added]
  | cons c cs ih =>
    rw [List.foldl_cons, ih, addScore, List.getElem?_modify]
    by_cases hci : c.1 = i
    · have hsum : added (c :: cs) i = c.2 + added cs i := by simp [added, hci]
      rw [hsum]
      cases fused[i]? with
      | none => rfl
      | some x => simp [hci, add_assoc]
    · have hsum : added (c :: cs) i = added cs i := by simp [added, hci]
      rw [hsum]
      simp [hci]

theorem added_of_not_mem {cs : List (ℕ × ℚ)} {i : ℕ} (h : i ∉ cs.map Prod.fst) :
    added cs i = 0 := by
  have hnone : (cs.filter fun c => c.1 = i) = [] := by
    apply List.filter_eq_nil_iff.mpr
    intro c hc hci
    exact h (List.mem_map.mpr ⟨c, hc, by simpa using hci⟩)
  rw [added, hnone]
  rfl

theorem added_of_mem {cs : List (ℕ × ℚ)} (hnodup : (cs.map Prod.fst).Nodup) {i : ℕ} {x : ℚ}
    (h : (i, x) ∈ cs) : added cs i = x := by
  induction cs with
  | nil => exact absurd h List.not_mem_nil
  | cons c cs ih =>
    rw [List.map_cons] at hnodup
    obtain ⟨hc, hcs⟩ := List.nodup_cons.mp hnodup
    rcases List.mem_cons.mp h with rfl | h
    · have hrest : added cs i = 0 := added_of_not_mem hc
      rw [added] at hrest ⊢
      simp [hrest]
    · have hne : c.1 ≠ i := fun he => hc (List.mem_map.mpr ⟨_, h, he.symm⟩)
      have hskip : added (c :: cs) i = added cs i := by simp [added, hne]
      rw [hskip, ih hcs h]

/-- Picking elements with their indices keeps the indices of what is picked. -/
theorem map_index_filterMap {α β : Type*} {f : α × ℕ → Option β} {index : β → ℕ}
    (h : ∀ a b, f a = some b → index b = a.2) (l : List (α × ℕ)) :
    (l.filterMap f).map index = (l.filter fun a => (f a).isSome).map Prod.snd := by
  induction l with
  | nil => rfl
  | cons a as ih =>
    cases hf : f a with
    | none => rw [List.filterMap_cons_none hf, List.filter_cons_of_neg (by simp [hf]), ih]
    | some b =>
      rw [List.filterMap_cons_some hf, List.filter_cons_of_pos (by simp [hf]), List.map_cons,
        List.map_cons, h a b hf, ih]

theorem indices_nodup {α β : Type*} {l : List α} {f : α × ℕ → Option β} {index : β → ℕ}
    (h : ∀ a b, f a = some b → index b = a.2) : ((l.zipIdx.filterMap f).map index).Nodup := by
  rw [map_index_filterMap h]
  apply List.Nodup.sublist (List.filter_sublist.map Prod.snd)
  rw [List.zipIdx_map_snd]
  exact List.nodup_range'

end Scatter

namespace PoolMergeWeights

variable (w : PoolMergeWeights)

/-- What one stratum-leg reads of a candidate, if the candidate is in it. -/
def entryOf (probeStratum : Bool) (leg : Leg) (c : PoolCandidate) : Option Entry :=
  if w.isProbe c = probeStratum then (pick c leg).map (Entry.mk c.chunkId) else none

def entries (candidates : List PoolCandidate) (probeStratum : Bool) (leg : Leg) : List Entry :=
  candidates.filterMap (w.entryOf probeStratum leg)

def legScore (candidates : List PoolCandidate) (partialDomains probeStratum : Bool) (leg : Leg)
    (c : PoolCandidate) : ℚ :=
  match w.entryOf probeStratum leg c with
  | some e => w.contribution probeStratum leg
      (legRank partialDomains (w.entries candidates probeStratum leg) e)
  | none => 0

def evidence (c : PoolCandidate) : ℚ :=
  if w.poolEvidence > 0 then
    match w.poolRank.get? c.pool with
    | some rank => w.poolEvidence / (w.k + (max rank 1 : ℕ))
    | none => 0
  else 0

/-- The fused score of a candidate. -/
def score (candidates : List PoolCandidate) (partialDomains : Bool) (c : PoolCandidate) : ℚ :=
  0 + w.legScore candidates partialDomains false .lexical c +
    w.legScore candidates partialDomains false .vector c +
    w.legScore candidates partialDomains true .lexical c +
    w.legScore candidates partialDomains true .vector c + w.evidence c

variable {w} {candidates : List PoolCandidate}

theorem members_eq (probeStratum : Bool) (leg : Leg) :
    w.members candidates probeStratum leg = candidates.zipIdx.filterMap fun c =>
      (w.entryOf probeStratum leg c.1).map (Member.mk c.2) := by
  rw [members, List.filterMap_filter]
  apply List.filterMap_congr
  intro c _
  rw [entryOf]
  by_cases h : w.isProbe c.1 = probeStratum
  · simp [h, Option.map_map, Function.comp_def]
  · simp [h]

theorem members_entries (probeStratum : Bool) (leg : Leg) :
    (w.members candidates probeStratum leg).map Member.entry =
      w.entries candidates probeStratum leg := by
  rw [members_eq, List.map_filterMap, entries, ← List.zipIdx_map_fst 0 candidates,
    List.filterMap_map, List.zipIdx_map_fst]
  apply List.filterMap_congr
  intro c _
  simp [Option.map_map, Function.comp_def]

theorem mem_members_iff {probeStratum : Bool} {leg : Leg} {i : ℕ} {e : Entry} :
    ⟨i, e⟩ ∈ w.members candidates probeStratum leg ↔
      ∃ c, candidates[i]? = some c ∧ w.entryOf probeStratum leg c = some e := by
  rw [members_eq, List.mem_filterMap]
  constructor
  · rintro ⟨⟨c, j⟩, hc, h⟩
    obtain ⟨d, hd, hm⟩ := Option.map_eq_some_iff.mp h
    injection hm with hi he
    subst hi he
    exact ⟨c, List.mem_zipIdx_iff_getElem?.mp hc, hd⟩
  · rintro ⟨c, hc, h⟩
    exact ⟨(c, i), List.mem_zipIdx_iff_getElem?.mpr hc, by simp [h]⟩

theorem entryOf_chunkId {probeStratum : Bool} {leg : Leg} {c : PoolCandidate} {e : Entry}
    (h : w.entryOf probeStratum leg c = some e) : e.chunkId = c.chunkId := by
  rw [entryOf] at h
  split_ifs at h
  obtain ⟨m, -, rfl⟩ := Option.map_eq_some_iff.mp h
  rfl

theorem members_indices_nodup (probeStratum : Bool) (leg : Leg) :
    ((w.members candidates probeStratum leg).map Member.index).Nodup := by
  rw [members_eq]
  apply indices_nodup
  intro c m h
  obtain ⟨e, -, rfl⟩ := Option.map_eq_some_iff.mp h
  rfl

section DistinctIds

variable (hids : (candidates.map PoolCandidate.chunkId).Nodup)

include hids

theorem members_chunkIds_nodup (probeStratum : Bool) (leg : Leg) :
    ((w.members candidates probeStratum leg).map fun m => m.entry.chunkId).Nodup := by
  have hsub : ((w.members candidates probeStratum leg).map fun m => m.entry.chunkId).Sublist
      (candidates.map PoolCandidate.chunkId) := by
    rw [← Function.comp_def Entry.chunkId Member.entry, ← List.map_map, members_entries, entries]
    clear hids
    induction candidates with
    | nil => exact .slnil
    | cons c cs ih =>
      rw [List.filterMap_cons]
      cases h : w.entryOf probeStratum leg c with
      | none => exact ih.cons _
      | some e =>
        rw [List.map_cons, List.map_cons, entryOf_chunkId h]
        exact ih.cons_cons _
  exact hids.sublist hsub

/-- One stratum-leg adds to a candidate the contribution of its rank. -/
theorem fuseLeg_fused (partialDomains probeStratum : Bool) (leg : Leg) (p : FusePass) {i : ℕ}
    {c : PoolCandidate} (hc : candidates[i]? = some c) :
    (w.fuseLeg candidates partialDomains probeStratum leg p).fused[i]? =
      (p.fused[i]?).map (· + w.legScore candidates partialDomains probeStratum leg c) := by
  set ms := w.members candidates probeStratum leg with hms
  have hindices : ((legRanks partialDomains ms).map fun r => r.1.index).Nodup := by
    have hmembers : ((legRanks partialDomains ms).map Prod.fst).Perm ms :=
      legRanks_members_perm partialDomains
    have hperm := hmembers.map Member.index
    rw [List.map_map] at hperm
    exact hperm.nodup_iff.mpr (members_indices_nodup probeStratum leg)
  have hadded : added ((legRanks partialDomains ms).map fun r =>
      (r.1.index, w.contribution probeStratum leg r.2)) i =
      w.legScore candidates partialDomains probeStratum leg c := by
    rw [legScore]
    cases he : w.entryOf probeStratum leg c with
    | some e =>
      have hm : ⟨i, e⟩ ∈ ms := mem_members_iff.mpr ⟨c, hc, he⟩
      have hat := mem_legRanks (members_chunkIds_nodup hids probeStratum leg) partialDomains hm
      rw [← hms, members_entries] at hat
      apply added_of_mem
      · rw [List.map_map]
        exact hindices
      · exact List.mem_map.mpr ⟨_, hat, rfl⟩
    | none =>
      apply added_of_not_mem
      rw [List.map_map]
      intro hi
      obtain ⟨r, hr, hri⟩ := List.mem_map.mp hi
      have hm : r.1 ∈ ms :=
        (legRanks_members_perm partialDomains).mem_iff.mp (List.mem_map_of_mem hr)
      obtain ⟨d, hd, hde⟩ := mem_members_iff.mp hm
      rw [show r.1.index = i from hri, hc] at hd
      rw [Option.some.inj hd] at he
      exact absurd (he.symm.trans hde) (by simp)
  rw [fuseLeg]
  simp only [← hms]
  by_cases hnil : ms = []
  · rw [if_pos hnil]
    have hzero : w.legScore candidates partialDomains probeStratum leg c = 0 := by
      rw [← hadded, hnil]
      simp [legRanks, stratumDomains, sortBy, added]
    rw [hzero]
    simp
  · rw [if_neg hnil, getElem?_foldl_addScore, hadded]

theorem fuseLegs_fused (partialDomains : Bool) {i : ℕ} {c : PoolCandidate}
    (hc : candidates[i]? = some c) :
    (w.fuseLegs candidates partialDomains).fused[i]? =
      some (0 + w.legScore candidates partialDomains false .lexical c +
        w.legScore candidates partialDomains false .vector c +
        w.legScore candidates partialDomains true .lexical c +
        w.legScore candidates partialDomains true .vector c) := by
  have hi : i < candidates.length := (List.getElem?_eq_some_iff.mp hc).1
  simp only [fuseLegs, List.foldl_cons, List.foldl_nil, fuseLeg_fused hids _ _ _ _ hc,
    List.getElem?_replicate, if_pos hi, Option.map_some]

end DistinctIds

theorem addEvidence_fused (fused : List ℚ) {i : ℕ} {c : PoolCandidate}
    (hc : candidates[i]? = some c) :
    (w.addEvidence candidates fused)[i]? = (fused[i]?).map (· + w.evidence c) := by
  rw [addEvidence, evidence]
  split_ifs with hpos
  · rw [getElem?_foldl_addScore]
    congr 2
    funext x
    congr 1
    have hindices : ((candidates.zipIdx.filterMap fun c =>
        (w.poolRank.get? c.1.pool).map fun rank =>
          (c.2, w.poolEvidence / (w.k + (max rank 1 : ℕ)))).map Prod.fst).Nodup := by
      apply indices_nodup
      intro c x h
      obtain ⟨rank, -, rfl⟩ := Option.map_eq_some_iff.mp h
      rfl
    have hat : (c, i) ∈ candidates.zipIdx := List.mem_zipIdx_iff_getElem?.mpr hc
    cases hrank : w.poolRank.get? c.pool with
    | some rank =>
      apply added_of_mem hindices
      exact List.mem_filterMap.mpr ⟨_, hat, by simp [hrank]⟩
    | none =>
      apply added_of_not_mem
      intro hmem
      obtain ⟨x, hx, hxi⟩ := List.mem_map.mp hmem
      obtain ⟨⟨d, j⟩, hd, hdx⟩ := List.mem_filterMap.mp hx
      obtain ⟨rank, hr, rfl⟩ := Option.map_eq_some_iff.mp hdx
      have hdc := List.mem_zipIdx_iff_getElem?.mp hd
      simp only at hxi hr hdc
      rw [hxi, hc] at hdc
      rw [← Option.some.inj hdc, hrank] at hr
      exact absurd hr (by simp)
  · simp

theorem length_fuseLeg (partialDomains probeStratum : Bool) (leg : Leg) (p : FusePass) :
    (w.fuseLeg candidates partialDomains probeStratum leg p).fused.length = p.fused.length := by
  rw [fuseLeg]
  by_cases hnil : w.members candidates probeStratum leg = []
  · simp only [if_pos hnil]
  · simp only [if_neg hnil, length_foldl_addScore]

theorem length_fused (partialDomains : Bool) :
    (w.addEvidence candidates (w.fuseLegs candidates partialDomains).fused).length =
      candidates.length := by
  have hlegs : (w.fuseLegs candidates partialDomains).fused.length = candidates.length := by
    simp only [fuseLegs, List.foldl_cons, List.foldl_nil, length_fuseLeg, List.length_replicate]
  rw [addEvidence]
  split_ifs
  · rw [length_foldl_addScore, hlegs]
  · exact hlegs

/-- The accumulated scores are the closed form, candidate by candidate. -/
theorem fused_eq (hids : (candidates.map PoolCandidate.chunkId).Nodup) (partialDomains : Bool) :
    w.addEvidence candidates (w.fuseLegs candidates partialDomains).fused =
      candidates.map (w.score candidates partialDomains) := by
  apply List.ext_getElem?
  intro i
  rw [List.getElem?_map]
  cases hc : candidates[i]? with
  | some c =>
    rw [addEvidence_fused _ hc, fuseLegs_fused hids partialDomains hc]
    rfl
  | none =>
    have hlen : candidates.length ≤ i := List.getElem?_eq_none_iff.mp hc
    rw [Option.map_none, List.getElem?_eq_none_iff, length_fused]
    exact hlen

end PoolMergeWeights

/-- The served order as chunk ids with their fused scores. -/
def ranking (candidates : List PoolCandidate) (outcome : PoolMergeOutcome) :
    List (String × ℚ) :=
  outcome.ranked.map fun s => (chunkIdAt candidates s.1, s.2)

def byScoreThenId (a b : String × ℚ) : Ordering :=
  (descendingScore a.2 b.2).then (compare a.1 b.1)

def scoreKey (s : String × ℚ) : ℚᵒᵈ ×ₗ String := toLex (OrderDual.toDual s.2, s.1)

theorem byScoreThenId_keyed : KeyedBy byScoreThenId scoreKey := by
  intro a b
  rw [byScoreThenId, descendingScore, ← compare_toDual, ← compare_toLex]
  exact compare_le_iff_le

/-- The ranking sorts the candidates' closed-form scores. -/
theorem ranking_eq {candidates : List PoolCandidate}
    (hids : (candidates.map PoolCandidate.chunkId).Nodup) (topK : ℕ) (w : PoolMergeWeights)
    (partialDomains : Bool) :
    ranking candidates (fusePoolsWithDomainPolicy candidates topK w partialDomains) =
      (sortBy byScoreThenId
        (candidates.map fun c => (c.chunkId, w.score candidates partialDomains c))).take
          (limit topK) := by
  rw [ranking, fusePoolsWithDomainPolicy, List.map_take]
  congr 1
  rw [PoolMergeWeights.fused_eq hids]
  have hsort := map_sortBy byScoreThenId (fun s : ℕ × ℚ => (chunkIdAt candidates s.1, s.2))
    ((candidates.map (w.score candidates partialDomains)).zipIdx.map fun s => (s.2, s.1))
  rw [show (sortBy (byScore candidates) _) = _ from rfl]
  refine hsort.trans (congrArg _ ?_)
  apply List.ext_getElem?
  intro i
  simp only [List.getElem?_map, List.getElem?_zipIdx, Option.map_map]
  cases hc : candidates[i]? with
  | none => rfl
  | some c => simp [chunkIdAt, hc]

end Munarium
