import Munarium.Lib.StableSort

/-! What a stable sort makes of ties: the elements of one key keep their order, and a list is
settled by its sorted order and by what it holds of each key. -/
namespace StableSort

variable {α δ κ μ : Type*} [LinearOrder κ] {key : α → κ}

theorem sortByKey_sorted (key : α → κ) (l : List α) :
    (sortByKey key l).Pairwise fun a b => key a ≤ key b :=
  (keyedBy_compare key).sorted l

/-- Elements of one key keep their order. -/
theorem class_sortByKey (key : α → κ) (l : List α) (k : κ) :
    (sortByKey key l).filter (fun a => key a = k) = l.filter fun a => key a = k := by
  have hclass : (l.filter fun a => key a = k).Pairwise
      fun a b => compare (key a) (key b) ≠ .gt := by
    rw [List.pairwise_filter]
    apply List.pairwise_of_forall
    intro a b ha hb
    rw [compare_le_iff_le, of_decide_eq_true ha, of_decide_eq_true hb]
  have htotal : Std.Total (fun a b : α => compare (key a) (key b) ≠ .gt) :=
    ⟨fun a b => (le_total (key a) (key b)).imp compare_le_iff_le.mpr compare_le_iff_le.mpr⟩
  have htrans : IsTrans α (fun a b => compare (key a) (key b) ≠ .gt) :=
    ⟨fun a b c hab hbc => compare_le_iff_le.mpr
      ((compare_le_iff_le.mp hab).trans (compare_le_iff_le.mp hbc))⟩
  have hsub := (List.sublist_insertionSort hclass List.filter_sublist).filter
    fun a => decide (key a = k)
  simp only [List.filter_filter, Bool.and_self] at hsub
  have hlength := ((sortBy_perm (fun a b => compare (key a) (key b)) l).filter
    fun a => decide (key a = k)).length_eq
  exact (hsub.eq_of_length hlength.symm).symm

/-- Two sorted lists that hold the same of each key are one list. -/
theorem eq_of_classes {A B : List α} (hA : A.Pairwise fun a b => key a ≤ key b)
    (hB : B.Pairwise fun a b => key a ≤ key b)
    (h : ∀ k, A.filter (fun a => key a = k) = B.filter fun a => key a = k) : A = B := by
  have hmem {a : α} : a ∈ A ↔ a ∈ B := by
    have := congrArg (a ∈ ·) (h (key a))
    simpa using this
  induction A generalizing B with
  | nil =>
    cases B with
    | nil => rfl
    | cons b B => exact absurd (hmem.mpr List.mem_cons_self) List.not_mem_nil
  | cons a A ih =>
    cases B with
    | nil => exact absurd (hmem.mp List.mem_cons_self) List.not_mem_nil
    | cons b B =>
      obtain ⟨ha, hA'⟩ := List.pairwise_cons.mp hA
      obtain ⟨hb, hB'⟩ := List.pairwise_cons.mp hB
      have hkeys : key a = key b := by
        apply le_antisymm
        · rcases List.mem_cons.mp (hmem.mpr List.mem_cons_self) with heq | hb
          · rw [heq]
          · exact ha b hb
        · rcases List.mem_cons.mp (hmem.mp List.mem_cons_self) with heq | ha
          · rw [heq]
          · exact hb a ha
      have hheads := h (key a)
      rw [List.filter_cons_of_pos (by simp), List.filter_cons_of_pos (by simp [hkeys])] at hheads
      obtain ⟨rfl, htails⟩ := List.cons.inj hheads
      have hrest (k : κ) :
          A.filter (fun a => key a = k) = B.filter fun a => key a = k := by
        by_cases hk : key a = k
        · subst hk
          exact htails
        · have hk := h k
          rwa [List.filter_cons_of_neg (by simpa), List.filter_cons_of_neg (by simpa)] at hk
      rw [ih hA' hB' hrest]
      intro c
      have := congrArg (c ∈ ·) (hrest (key c))
      simpa using this

/-- Sorting commutes with picking. -/
theorem filter_sortByKey (key : α → κ) (p : α → Bool) (l : List α) :
    (sortByKey key l).filter p = sortByKey key (l.filter p) := by
  apply eq_of_classes ((sortByKey_sorted key l).sublist List.filter_sublist)
    (sortByKey_sorted key _)
  intro k
  rw [class_sortByKey, List.filter_comm, class_sortByKey, List.filter_comm]

theorem pairwise_of_classes {R : α → α → Prop} {l : List α}
    (h : ∀ k, (l.filter fun a => key a = k).Pairwise R) :
    l.Pairwise fun a b => key a = key b → R a b := by
  induction l with
  | nil => exact .nil
  | cons a l ih =>
    have htails (k : κ) : (l.filter fun a => key a = k).Pairwise R :=
      (h k).sublist (.filter _ (List.sublist_cons_self a l))
    refine List.pairwise_cons.mpr ⟨?_, ih htails⟩
    intro b hb hab
    have hclass := h (key a)
    rw [List.filter_cons_of_pos (by simp)] at hclass
    exact (List.pairwise_cons.mp hclass).1 b (List.mem_filter.mpr ⟨hb, by simp [hab]⟩)

section Ties
variable [LinearOrder μ] {first : α → κ} {second : α → μ}

theorem filter_toLex (l : List α) (n : κ) (m : μ) :
    l.filter (fun a => toLex (first a, second a) = toLex (n, m)) =
      (l.filter fun a => first a = n).filter fun a => second a = m := by
  rw [List.filter_filter]
  apply List.filter_congr
  intro a _
  rw [← Bool.decide_and]
  apply decide_eq_decide.mpr
  rw [toLex_inj, Prod.mk.injEq]
  exact and_comm

/-- A sort by one key and a sort by that key and a further one agree where ties of the first
stand in the order of the second, and ties of both in one order. -/
theorem sortByKey_eq_iff (tie : κ → μ → α → Bool)
    (htie : ∀ n m a, tie n m a = true ↔ first a = n ∧ second a = m) (xs ys : List α) :
    sortByKey first xs = sortByKey (fun a => toLex (first a, second a)) ys ↔
      (xs.Pairwise fun a b => first a = first b → second a ≤ second b) ∧
      ∀ n m, xs.filter (tie n m) = ys.filter (tie n m) := by
  have hclass (n : κ) (m : μ) (l : List α) :
      l.filter (fun a => toLex (first a, second a) = toLex (n, m)) = l.filter (tie n m) := by
    apply List.filter_congr
    intro a _
    rw [Bool.eq_iff_iff, htie, decide_eq_true_eq, toLex_inj, Prod.mk.injEq]
  have hkept (n : κ) (m : μ) : (sortByKey first xs).filter (tie n m) = xs.filter (tie n m) := by
    rw [← hclass, ← hclass, filter_toLex, filter_toLex, class_sortByKey]
  constructor
  · intro h
    constructor
    · apply pairwise_of_classes
      intro n
      rw [← class_sortByKey first xs n, h]
      have hsorted := (sortByKey_sorted (fun a => toLex (first a, second a)) ys).sublist
        (List.filter_sublist (p := fun a => decide (first a = n)))
      apply hsorted.imp_of_mem
      intro a b ha hb hle
      have ha := of_decide_eq_true (List.mem_filter.mp ha).2
      have hb := of_decide_eq_true (List.mem_filter.mp hb).2
      rcases Prod.Lex.toLex_le_toLex.mp hle with hlt | ⟨-, hle⟩
      · exact absurd (ha.trans hb.symm) hlt.ne
      · exact hle
    · intro n m
      rw [← hkept, h, ← hclass, class_sortByKey, hclass]
  · rintro ⟨hties, hclasses⟩
    apply eq_of_classes _ (sortByKey_sorted (fun a => toLex (first a, second a)) ys)
    · intro k
      obtain ⟨n, m, rfl⟩ : ∃ n m, k = toLex (n, m) := ⟨(ofLex k).1, (ofLex k).2, rfl⟩
      rw [class_sortByKey, hclass, hclass, hkept, hclasses]
    · have hseconds : (sortByKey first xs).Pairwise
          fun a b => first a = first b → second a ≤ second b := by
        apply pairwise_of_classes
        intro n
        rw [class_sortByKey]
        apply List.Pairwise.imp_of_mem _ (hties.sublist List.filter_sublist)
        intro a b ha hb hle
        apply hle
        rw [of_decide_eq_true (List.mem_filter.mp ha).2,
          of_decide_eq_true (List.mem_filter.mp hb).2]
      apply (sortByKey_sorted first xs).imp₂ _ hseconds
      intro a b hle hsecond
      rw [Prod.Lex.toLex_le_toLex]
      exact hle.lt_or_eq.imp_right fun heq => ⟨heq, hsecond heq⟩

end Ties

/-- The first of the elements with the least key comes out first. -/
theorem head?_sortByKey {l : List α} {a : α} : (sortByKey key l).head? = some a ↔
    (∀ b ∈ l, key a ≤ key b) ∧ (l.filter fun b => key b = key a).head? = some a := by
  rw [← class_sortByKey]
  have hsorted := sortByKey_sorted key l
  have hmem (b : α) : b ∈ sortByKey key l ↔ b ∈ l := mem_sortBy
  generalize sortByKey key l = s at hsorted hmem
  cases s with
  | nil => simp
  | cons b s =>
    obtain ⟨hb, -⟩ := List.pairwise_cons.mp hsorted
    constructor
    · intro h
      obtain rfl := Option.some.inj h
      refine ⟨?_, by simp⟩
      intro c hc
      rcases List.mem_cons.mp ((hmem c).mpr hc) with rfl | hc
      · exact le_rfl
      · exact hb c hc
    · rintro ⟨hleast, hfirst⟩
      have ha := List.mem_of_mem_head? hfirst
      have hle : key b ≤ key a := by
        rcases List.mem_cons.mp (List.mem_of_mem_filter ha) with rfl | ha
        · exact le_rfl
        · exact hb a ha
      have heq : key b = key a := le_antisymm hle (hleast b ((hmem b).mp List.mem_cons_self))
      rwa [List.filter_cons_of_pos (by simp [heq])] at hfirst

section Grouped
variable [DecidableEq δ] {group : α → δ} {groups : List δ}

/-- The elements of each group, one group after the other. -/
def byGroup (group : α → δ) (groups : List δ) (l : List α) : List α :=
  groups.flatMap fun g => l.filter fun a => group a = g

theorem mem_byGroup {l : List α} {a : α} :
    a ∈ byGroup group groups l ↔ a ∈ l ∧ group a ∈ groups := by
  simp [byGroup, and_comm]

theorem filter_byGroup (p : α → Bool) (l : List α) :
    (byGroup group groups l).filter p = byGroup group groups (l.filter p) := by
  unfold byGroup
  rw [List.filter_flatMap]
  apply List.flatMap_congr
  intro g _
  exact List.filter_comm _ _ l

/-- The elements of one group, in their own order. -/
theorem group_byGroup (hnodup : groups.Nodup) {g : δ} (hg : g ∈ groups) (l : List α) :
    (byGroup group groups l).filter (fun a => group a = g) = l.filter fun a => group a = g := by
  have hother (g' : δ) (hne : g' ≠ g) :
      (l.filter fun a => group a = g').filter (fun a => group a = g) = [] := by
    rw [List.filter_filter, List.filter_eq_nil_iff]
    intro a _
    simp only [Bool.and_eq_true, decide_eq_true_eq, not_and]
    exact fun ha ha' => hne (ha'.symm.trans ha)
  obtain ⟨before, after, rfl⟩ := List.append_of_mem hg
  obtain ⟨-, hafter, hdisjoint⟩ := List.nodup_append.mp hnodup
  have hnone (gs : List δ) (hgs : ∀ g' ∈ gs, g' ≠ g) :
      (gs.flatMap fun g' => (l.filter fun a => group a = g').filter fun a => group a = g) = [] :=
    List.flatMap_eq_nil_iff.mpr fun g' hg' => hother g' (hgs g' hg')
  rw [byGroup, List.filter_flatMap, List.flatMap_append, List.flatMap_cons,
    hnone before fun g' hg' => hdisjoint g' hg' g List.mem_cons_self,
    hnone after fun g' hg' heq => (List.nodup_cons.mp hafter).1 (heq ▸ hg')]
  simp

theorem pairwise_idxOf (h : groups.Nodup) :
    groups.Pairwise fun g g' => groups.idxOf g < groups.idxOf g' := by
  rw [List.pairwise_iff_getElem]
  intro i j hi hj hij
  rwa [h.idxOf_getElem i hi, h.idxOf_getElem j hj]

/-- A sort by the place of the group and then by a key that rises within each group. -/
theorem sortByKey_byGroup (key : α → κ) (hnodup : groups.Nodup) {l : List α}
    (hrises : ∀ g ∈ groups, (l.filter fun a => group a = g).Pairwise fun a b => key a ≤ key b) :
    sortByKey (fun a => toLex (groups.idxOf (group a), key a))
      (l.filter fun a => group a ∈ groups) = byGroup group groups l := by
  symm
  refine @eq_of_classes α _ _ (fun a => toLex (groups.idxOf (group a), key a)) _ _ ?_
    (sortByKey_sorted _ _) ?_
  · rw [byGroup, List.pairwise_flatMap]
    constructor
    · intro g hg
      apply List.Pairwise.imp_of_mem _ (hrises g hg)
      intro a b ha hb hle
      have ha := of_decide_eq_true (List.mem_filter.mp ha).2
      have hb := of_decide_eq_true (List.mem_filter.mp hb).2
      exact Prod.Lex.toLex_le_toLex.mpr (.inr ⟨by rw [ha, hb], hle⟩)
    · apply (pairwise_idxOf hnodup).imp
      intro g g' hlt a ha b hb
      have ha := of_decide_eq_true (List.mem_filter.mp ha).2
      have hb := of_decide_eq_true (List.mem_filter.mp hb).2
      exact Prod.Lex.toLex_le_toLex.mpr (.inl (by rwa [ha, hb]))
  · intro k
    rw [class_sortByKey]
    obtain ⟨i, k⟩ := k
    have hplace : (byGroup group groups l).filter (fun a => groups.idxOf (group a) = i) =
        (l.filter fun a => group a ∈ groups).filter fun a => groups.idxOf (group a) = i := by
      by_cases hi : ∃ g ∈ groups, groups.idxOf g = i
      · obtain ⟨g, hg, rfl⟩ := hi
        have hsame (part : List α) (hpart : ∀ a ∈ part, group a ∈ groups) :
            part.filter (fun a => groups.idxOf (group a) = groups.idxOf g) =
              part.filter fun a => group a = g :=
          List.filter_congr fun a ha => decide_eq_decide.mpr (List.idxOf_inj (hpart a ha))
        rw [hsame _ fun a ha => (mem_byGroup.mp ha).2, group_byGroup hnodup hg,
          hsame _ fun a ha => of_decide_eq_true (List.mem_filter.mp ha).2, List.filter_filter]
        apply List.filter_congr
        intro a _
        by_cases ha : group a = g
        · simp [ha, hg]
        · simp [ha]
      · have hnone (part : List α) (hpart : ∀ a ∈ part, group a ∈ groups) :
            part.filter (fun a => groups.idxOf (group a) = i) = [] := by
          rw [List.filter_eq_nil_iff]
          intro a ha
          rw [decide_eq_true_eq]
          exact fun heq => hi ⟨group a, hpart a ha, heq⟩
        rw [hnone _ fun a ha => (mem_byGroup.mp ha).2,
          hnone _ fun a ha => of_decide_eq_true (List.mem_filter.mp ha).2]
    exact (filter_toLex _ i k).trans ((congrArg _ hplace).trans (filter_toLex _ i k).symm)

theorem byGroup_perm (hnodup : groups.Nodup) (l : List α) :
    (byGroup group groups l).Perm (l.filter fun a => group a ∈ groups) := by
  rw [← sortByKey_byGroup (fun _ => ()) hnodup fun g _ => List.pairwise_of_forall fun _ _ => le_rfl]
  exact sortBy_perm _ _

end Grouped

end StableSort
