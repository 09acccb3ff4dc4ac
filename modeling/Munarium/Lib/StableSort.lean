import Mathlib.Data.List.Sort
import Mathlib.Data.List.Pairwise
import Mathlib.Data.Prod.Lex
import Mathlib.Order.Compare

/-! Stable sorting by a three-way comparison, and the position an element takes in the
sorted list when the comparison reads a key that separates the elements. -/
namespace StableSort

variable {α β κ : Type*}

/-- Stable sorting: an element moves before an earlier one only when the comparison says so. -/
def sortBy (cmp : α → α → Ordering) (l : List α) : List α :=
  l.insertionSort fun a b => cmp a b ≠ .gt

/-- `sort_by_key`. -/
def sortByKey [LinearOrder κ] (key : α → κ) (l : List α) : List α :=
  sortBy (fun a b => compare (key a) (key b)) l

/-- The comparison orders elements as a key in a linear order does. -/
def KeyedBy [LinearOrder κ] (cmp : α → α → Ordering) (key : α → κ) : Prop :=
  ∀ a b, cmp a b ≠ .gt ↔ key a ≤ key b

/-- The number of elements with a smaller key. -/
def rank [LinearOrder κ] (key : α → κ) (l : List α) (a : α) : ℕ :=
  l.countP fun b => decide (key b < key a)

theorem sortBy_perm (cmp : α → α → Ordering) (l : List α) : (sortBy cmp l).Perm l :=
  List.perm_insertionSort _ l

@[simp] theorem mem_sortBy {cmp : α → α → Ordering} {l : List α} {a : α} :
    a ∈ sortBy cmp l ↔ a ∈ l :=
  (sortBy_perm cmp l).mem_iff

@[simp] theorem length_sortBy (cmp : α → α → Ordering) (l : List α) :
    (sortBy cmp l).length = l.length :=
  (sortBy_perm cmp l).length_eq

/-- Sorting commutes with a map that keeps the comparisons of the list's elements. -/
theorem map_sortBy_of {cmp : α → α → Ordering} {cmp' : β → β → Ordering} {f : α → β}
    {l : List α} (h : ∀ a ∈ l, ∀ b ∈ l, cmp' (f a) (f b) = cmp a b) :
    (sortBy cmp l).map f = sortBy cmp' (l.map f) := by
  apply List.map_insertionSort
  intro a ha b hb
  rw [h a ha b hb]

/-- Sorting commutes with a map that the comparison reads its arguments through. -/
theorem map_sortBy (cmp : β → β → Ordering) (f : α → β) (l : List α) :
    (sortBy (fun a b => cmp (f a) (f b)) l).map f = sortBy cmp (l.map f) :=
  map_sortBy_of fun _ _ _ _ => rfl

theorem sortBy_congr_of_mem {cmp cmp' : α → α → Ordering} {l : List α}
    (h : ∀ a ∈ l, ∀ b ∈ l, cmp' a b = cmp a b) : sortBy cmp l = sortBy cmp' l := by
  simpa using map_sortBy_of (f := id) h

private theorem orderedInsert_congr {r r' : α → α → Prop} [DecidableRel r] [DecidableRel r']
    {a : α} {l : List α} (h : ∀ b ∈ l, (r a b ↔ r' a b)) :
    l.orderedInsert r a = l.orderedInsert r' a := by
  induction l with
  | nil => rfl
  | cons b l ih =>
    have hb := h b List.mem_cons_self
    have hl := ih fun c hc => h c (List.mem_cons_of_mem _ hc)
    by_cases hle : r' a b
    · rw [List.orderedInsert_cons_of_le _ _ hle, List.orderedInsert_cons_of_le _ _ (hb.mpr hle)]
    · rw [List.orderedInsert_of_not_le _ _ hle,
        List.orderedInsert_of_not_le _ _ (fun h => hle (hb.mp h)), hl]

/-- Two comparisons sort a list alike when they agree on each pair in list order. -/
theorem sortBy_congr {cmp cmp' : α → α → Ordering} {l : List α}
    (h : l.Pairwise fun a b => (cmp a b ≠ .gt ↔ cmp' a b ≠ .gt)) :
    sortBy cmp l = sortBy cmp' l := by
  induction l with
  | nil => rfl
  | cons a l ih =>
    obtain ⟨ha, hl⟩ := List.pairwise_cons.mp h
    have htail := ih hl
    simp only [sortBy, List.insertionSort_cons] at htail ⊢
    rw [htail]
    apply orderedInsert_congr
    intro b hb
    exact ha b ((List.perm_insertionSort _ l).mem_iff.mp hb)

section Keyed

variable [LinearOrder κ] {cmp : α → α → Ordering} {key : α → κ}

theorem KeyedBy.sorted (h : KeyedBy cmp key) (l : List α) :
    (sortBy cmp l).Pairwise fun a b => key a ≤ key b := by
  have htotal : Std.Total (fun a b => cmp a b ≠ .gt) :=
    ⟨fun a b => (le_total (key a) (key b)).imp (h a b).mpr (h b a).mpr⟩
  have htrans : IsTrans α (fun a b => cmp a b ≠ .gt) :=
    ⟨fun a b c hab hbc => (h a c).mpr (((h a b).mp hab).trans ((h b c).mp hbc))⟩
  have hpw := List.pairwise_insertionSort (fun a b => cmp a b ≠ .gt) l
  exact hpw.imp fun {a b} hab => (h a b).mp hab

/-- Separated keys make the sorted order strict. -/
theorem KeyedBy.strict (h : KeyedBy cmp key) {l : List α} (hnodup : (l.map key).Nodup) :
    (sortBy cmp l).Pairwise fun a b => key a < key b := by
  have hkeys : ((sortBy cmp l).map key).Nodup :=
    ((sortBy_perm cmp l).map key).nodup_iff.mpr hnodup
  have hne := List.pairwise_map.mp hkeys
  exact (h.sorted l).imp₂ (fun _ _ hle hne => lt_of_le_of_ne hle hne) hne

/-- Sorting forgets the arrival order of elements with separated keys. -/
theorem KeyedBy.sortBy_eq_of_perm (h : KeyedBy cmp key) {l l' : List α} (hp : l.Perm l')
    (hnodup : (l.map key).Nodup) : sortBy cmp l = sortBy cmp l' := by
  have hs := h.strict hnodup
  have hs' := h.strict ((hp.map key).nodup_iff.mp hnodup)
  have hperm := (sortBy_perm cmp l).trans (hp.trans (sortBy_perm cmp l').symm)
  exact hperm.eq_of_pairwise (fun a b _ _ hab hba => absurd hba (lt_asymm hab)) hs hs'

private theorem KeyedBy.orderedInsert_stable [LinearOrder α] (h : KeyedBy cmp key) {a : α}
    {s : List α} (ha : ∀ b ∈ s, a < b)
    (hs : s.Pairwise fun a b => toLex (key a, a) < toLex (key b, b)) :
    (s.orderedInsert (fun a b => cmp a b ≠ .gt) a).Pairwise
      fun a b => toLex (key a, a) < toLex (key b, b) := by
  induction s with
  | nil => exact List.pairwise_singleton _ a
  | cons b s ih =>
    obtain ⟨hb, hs'⟩ := List.pairwise_cons.mp hs
    by_cases hab : cmp a b ≠ .gt
    · rw [List.orderedInsert_cons_of_le (fun a b => cmp a b ≠ .gt) s hab]
      have hlt : toLex (key a, a) < toLex (key b, b) := by
        rw [Prod.Lex.toLex_lt_toLex]
        exact ((h a b).mp hab).lt_or_eq.imp_right fun he => ⟨he, ha b List.mem_cons_self⟩
      have hall : ∀ c ∈ b :: s, toLex (key a, a) < toLex (key c, c) := by
        intro c hc
        rcases List.mem_cons.mp hc with rfl | hc
        · exact hlt
        · exact hlt.trans (hb c hc)
      exact List.pairwise_cons.mpr ⟨hall, hs⟩
    · rw [List.orderedInsert_of_not_le (fun a b => cmp a b ≠ .gt) s hab]
      have hlt : key b < key a := not_le.mp fun hle => hab ((h a b).mpr hle)
      have hall : ∀ c ∈ s.orderedInsert (fun a b => cmp a b ≠ .gt) a,
          toLex (key b, b) < toLex (key c, c) := by
        intro c hc
        rcases (List.mem_orderedInsert _).mp hc with rfl | hc
        · exact Prod.Lex.toLex_lt_toLex.mpr (.inl hlt)
        · exact hb c hc
      exact List.pairwise_cons.mpr
        ⟨hall, ih (fun c hc => ha c (List.mem_cons_of_mem _ hc)) hs'⟩

/-- Elements that arrive in ascending order leave in the order of their keys, and of their
arrival where the keys tie. -/
theorem KeyedBy.stable [LinearOrder α] (h : KeyedBy cmp key) {l : List α}
    (hl : l.Pairwise (· < ·)) :
    (sortBy cmp l).Pairwise fun a b => toLex (key a, a) < toLex (key b, b) := by
  induction l with
  | nil => exact .nil
  | cons a l ih =>
    obtain ⟨ha, hl⟩ := List.pairwise_cons.mp hl
    exact h.orderedInsert_stable (fun b hb => ha b (mem_sortBy.mp hb)) (ih hl)

/-- Two stable sorts that leave a list in one order rank its elements alike. -/
theorem KeyedBy.lt_iff_of_sortBy_eq [LinearOrder α] {κ' : Type*} [LinearOrder κ']
    {cmp' : α → α → Ordering} {key' : α → κ'} (h : KeyedBy cmp key) (h' : KeyedBy cmp' key')
    {l : List α} (hl : l.Pairwise (· < ·)) (heq : sortBy cmp l = sortBy cmp' l) {a b : α}
    (ha : a ∈ l) (hb : b ∈ l) :
    toLex (key a, a) < toLex (key b, b) ↔ toLex (key' a, a) < toLex (key' b, b) := by
  by_cases hne : a = b
  · subst hne
    simp only [lt_self_iff_false]
  · have hs := h.stable hl
    have hs' := h'.stable hl
    rw [← heq] at hs'
    have hboth : (sortBy cmp l).Pairwise fun a b =>
        (toLex (key a, a) < toLex (key b, b) ↔ toLex (key' a, a) < toLex (key' b, b)) ∧
        (toLex (key b, b) < toLex (key a, a) ↔ toLex (key' b, b) < toLex (key' a, a)) :=
      hs.imp₂ (fun _ _ h h' => ⟨iff_of_true h h', iff_of_false h.not_gt h'.not_gt⟩) hs'
    have hsymm : Std.Symm fun a b =>
        (toLex (key a, a) < toLex (key b, b) ↔ toLex (key' a, a) < toLex (key' b, b)) ∧
        (toLex (key b, b) < toLex (key a, a) ↔ toLex (key' b, b) < toLex (key' a, a)) :=
      ⟨fun _ _ h => ⟨h.2, h.1⟩⟩
    exact (hboth.forall (mem_sortBy.mpr ha) (mem_sortBy.mpr hb) hne).1

theorem rank_perm {l l' : List α} (hp : l.Perm l') (a : α) : rank key l a = rank key l' a :=
  hp.countP_eq _

theorem rank_map (f : β → α) (l : List β) (b : β) :
    rank key (l.map f) (f b) = rank (key ∘ f) l b := by
  simp only [rank, List.countP_map]
  rfl

theorem rank_congr {κ' : Type*} [LinearOrder κ'] {key' : α → κ'} {l : List α} {a : α}
    (h : ∀ b ∈ l, (key b < key a ↔ key' b < key' a)) : rank key l a = rank key' l a := by
  apply List.countP_congr
  intro b hb
  simp [h b hb]

/-- Ranks tell separated keys apart as the keys do. -/
theorem rank_lt_rank {l : List α} {a b : α} (ha : a ∈ l) :
    key a < key b → rank key l a < rank key l b := by
  intro hab
  have hsplit : rank key l b = rank key l a +
      l.countP fun c => decide (key a ≤ key c ∧ key c < key b) := by
    simp only [rank]
    clear ha
    induction l with
    | nil => rfl
    | cons c l ih =>
      simp only [List.countP_cons, ih]
      by_cases hca : key c < key a
      · have hcb := hca.trans hab
        simp [hca, hcb, not_le.mpr hca]
        omega
      · simp [hca, not_lt.mp hca]
        omega
  have hpos : 0 < l.countP fun c => decide (key a ≤ key c ∧ key c < key b) :=
    List.countP_pos_iff.mpr ⟨a, ha, by simp [hab]⟩
  omega

theorem mem_zipIdx_of_strict {s : List α} (hs : s.Pairwise fun a b => key a < key b)
    {a : α} (ha : a ∈ s) (n : ℕ) : (a, n + rank key s a) ∈ s.zipIdx n := by
  induction s generalizing n with
  | nil => simp at ha
  | cons b s ih =>
    obtain ⟨hb, hs⟩ := List.pairwise_cons.mp hs
    rw [List.zipIdx_cons]
    rcases List.mem_cons.mp ha with rfl | ha
    · have hzero : rank key (a :: s) a = 0 := by
        rw [rank, List.countP_eq_zero]
        intro c hc
        rcases List.mem_cons.mp hc with rfl | hc
        · simp
        · simpa using (hb c hc).le
      rw [hzero]
      exact List.mem_cons_self
    · have hstep : rank key (b :: s) a = rank key s a + 1 := by
        simp [rank, hb a ha]
      rw [hstep]
      apply List.mem_cons_of_mem
      have h := ih hs ha (n + 1)
      rwa [show n + 1 + rank key s a = n + (rank key s a + 1) by omega] at h

/-- An element with a separated key stands in the sorted list at its rank. -/
theorem KeyedBy.mem_zipIdx (h : KeyedBy cmp key) {l : List α} (hnodup : (l.map key).Nodup)
    {a : α} (ha : a ∈ l) : (a, rank key l a) ∈ (sortBy cmp l).zipIdx := by
  have hmem := mem_zipIdx_of_strict (h.strict hnodup) (mem_sortBy.mpr ha) 0
  rwa [rank_perm (sortBy_perm cmp l), Nat.zero_add] at hmem

end Keyed

theorem keyedBy_compare [LinearOrder κ] (key : α → κ) :
    KeyedBy (fun a b => compare (key a) (key b)) key :=
  fun _ _ => compare_le_iff_le

section Lexicographic

variable [LinearOrder α] [LinearOrder β]

/-- Comparing by a first key and then by a second is comparing the pairs. -/
theorem compare_toLex (a c : α) (b d : β) :
    compare (toLex (a, b)) (toLex (c, d)) = (compare a c).then (compare b d) := by
  rcases lt_trichotomy a c with h | h | h
  · rw [compare_lt_iff_lt.mpr h, compare_lt_iff_lt.mpr (Prod.Lex.toLex_lt_toLex.mpr (.inl h))]
    rfl
  · subst h
    have hself : compare a a = .eq := compare_eq_iff_eq.mpr rfl
    rw [hself]
    rcases lt_trichotomy b d with h | h | h
    · have hlt : toLex (a, b) < toLex (a, d) := Prod.Lex.toLex_lt_toLex.mpr (.inr ⟨rfl, h⟩)
      rw [compare_lt_iff_lt.mpr h, compare_lt_iff_lt.mpr hlt]
      rfl
    · subst h
      rw [compare_eq_iff_eq.mpr rfl, compare_eq_iff_eq.mpr rfl]
      rfl
    · have hlt : toLex (a, d) < toLex (a, b) := Prod.Lex.toLex_lt_toLex.mpr (.inr ⟨rfl, h⟩)
      rw [compare_gt_iff_gt.mpr h, compare_gt_iff_gt.mpr hlt]
      rfl
  · rw [compare_gt_iff_gt.mpr h, compare_gt_iff_gt.mpr (Prod.Lex.toLex_lt_toLex.mpr (.inl h))]
    rfl

theorem compare_toDual (a b : α) :
    compare (OrderDual.toDual a) (OrderDual.toDual b) = compare b a := by
  rcases lt_trichotomy a b with h | h | h
  · rw [compare_gt_iff_gt.mpr h]
    exact compare_gt_iff_gt.mpr h
  · rw [compare_eq_iff_eq.mpr h.symm]
    exact compare_eq_iff_eq.mpr (congrArg OrderDual.toDual h)
  · rw [compare_lt_iff_lt.mpr h]
    exact compare_lt_iff_lt.mpr h

end Lexicographic

/-- Grouping a list by the distinct values of a key only moves elements. -/
theorem flatMap_filter_perm [DecidableEq κ] (key : α → κ) {ds : List κ} (hds : ds.Nodup)
    {l : List α} (hcover : ∀ a ∈ l, key a ∈ ds) :
    (ds.flatMap fun d => l.filter fun a => key a = d).Perm l := by
  induction ds generalizing l with
  | nil =>
    cases l with
    | nil => exact .nil
    | cons a l => exact absurd (hcover a List.mem_cons_self) List.not_mem_nil
  | cons d ds ih =>
    obtain ⟨hd, hds⟩ := List.nodup_cons.mp hds
    have hrest : ∀ d' ∈ ds, (l.filter fun a => key a = d') =
        (l.filter fun a => !decide (key a = d)).filter fun a => key a = d' := by
      intro d' hd'
      rw [List.filter_filter]
      apply List.filter_congr
      intro a _
      by_cases hka : key a = d'
      · have hne : d' ≠ d := fun he => hd (he ▸ hd')
        simp [hka, hne]
      · simp [hka]
    have hih := ih (l := l.filter fun a => !decide (key a = d)) hds (by
      intro a ha
      obtain ⟨hal, hne⟩ := List.mem_filter.mp ha
      exact (List.mem_cons.mp (hcover a hal)).resolve_left (by simpa using hne))
    rw [List.flatMap_cons, List.flatMap_congr hrest]
    exact (hih.append_left _).trans (List.filter_append_perm (fun a => key a = d) l)

end StableSort
