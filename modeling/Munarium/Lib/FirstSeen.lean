import Mathlib.Data.List.Basic
import Mathlib.Data.List.Induction
import Mathlib.Data.List.Nodup

/-! Scanning a list once and keeping the first element of every key. -/
namespace FirstSeen

variable {α κ : Type*} [DecidableEq κ]

/-- Elements whose key neither `seen` holds nor an earlier element has. -/
def scan (key : α → κ) (seen : List κ) : List α → List α
  | [] => []
  | a :: rest =>
      if key a ∈ seen then scan key seen rest else a :: scan key (key a :: seen) rest

/-- In a list ordered by an asymmetric relation the scan keeps an element when no other
of its key comes before it. -/
theorem scan_eq_filter {key : α → κ} {R : α → α → Prop} [∀ a b, Decidable (R a b)]
    (hasymm : ∀ a b, R a b → ¬R b a) {l : List α} (hl : l.Pairwise R) (seen : List κ) :
    scan key seen l =
      l.filter fun a => decide (key a ∉ seen ∧ ∀ b ∈ l, key b = key a → ¬R b a) := by
  induction l generalizing seen with
  | nil => rfl
  | cons a rest ih =>
    obtain ⟨hhead, htail⟩ := List.pairwise_cons.mp hl
    have hkeep : (∀ b ∈ a :: rest, key b = key a → ¬R b a) := by
      intro b hb _ hba
      rcases List.mem_cons.mp hb with rfl | hb
      · exact hasymm b b hba hba
      · exact hasymm b a hba (hhead b hb)
    have hrest (s : List κ) (hs : key a ∈ s) :
        rest.filter (fun x => decide (key x ∉ s ∧ ∀ b ∈ rest, key b = key x → ¬R b x)) =
          rest.filter fun x => decide (key x ∉ s ∧ ∀ b ∈ a :: rest, key b = key x → ¬R b x) := by
      refine List.filter_congr fun x _ => decide_eq_decide.mpr (and_congr_right fun hx => ?_)
      rw [List.forall_mem_cons]
      have hne : ¬key a = key x := fun he => hx (he ▸ hs)
      simp [hne]
    unfold scan
    split_ifs with hseen
    · rw [List.filter_cons_of_neg (by simp [hseen]), ih htail seen, hrest seen hseen]
    · rw [List.filter_cons_of_pos (by simpa [hseen] using hkeep), ih htail (key a :: seen),
        hrest (key a :: seen) List.mem_cons_self]
      congr 1
      refine List.filter_congr fun x hx => decide_eq_decide.mpr ?_
      rw [List.mem_cons, not_or, List.forall_mem_cons]
      have hax := hhead x hx
      constructor
      · rintro ⟨⟨-, hs⟩, hfirst⟩
        exact ⟨hs, hfirst⟩
      · rintro ⟨hs, hfirst⟩
        exact ⟨⟨fun he => hfirst.1 he.symm hax, hs⟩, hfirst⟩

theorem scan_sublist (key : α → κ) (seen : List κ) (l : List α) : (scan key seen l).Sublist l := by
  induction l generalizing seen with
  | nil => exact .slnil
  | cons a rest ih =>
    unfold scan
    split_ifs
    · exact (ih seen).cons a
    · exact (ih _).cons_cons a

/-- Every key that is not seen yet comes out once. -/
theorem scan_keys (key : α → κ) (seen : List κ) (l : List α) :
    ((scan key seen l).map key).Nodup ∧
      ∀ k, k ∈ (scan key seen l).map key ↔ k ∈ l.map key ∧ k ∉ seen := by
  induction l generalizing seen with
  | nil => simp [scan]
  | cons a rest ih =>
    unfold scan
    split_ifs with ha
    · obtain ⟨hnodup, hmem⟩ := ih seen
      refine ⟨hnodup, fun k => ?_⟩
      rw [hmem, List.map_cons, List.mem_cons]
      constructor
      · rintro ⟨hk, hnew⟩
        exact ⟨.inr hk, hnew⟩
      · rintro ⟨rfl | hk, hnew⟩
        · exact absurd ha hnew
        · exact ⟨hk, hnew⟩
    · obtain ⟨hnodup, hmem⟩ := ih (key a :: seen)
      rw [List.map_cons, List.nodup_cons]
      refine ⟨⟨fun h => ((hmem _).mp h).2 List.mem_cons_self, hnodup⟩, fun k => ?_⟩
      rw [List.mem_cons, hmem, List.map_cons, List.mem_cons, List.mem_cons, not_or]
      constructor
      · rintro (rfl | ⟨hk, -, hnew⟩)
        · exact ⟨.inl rfl, ha⟩
        · exact ⟨.inr hk, hnew⟩
      · rintro ⟨rfl | hk, hnew⟩
        · exact .inl rfl
        · by_cases hka : k = key a
          · exact .inl hka
          · exact .inr ⟨hk, hka, hnew⟩

section Distinct
variable {α : Type*} [DecidableEq α] {p : α → Bool}

/-- Appends an element that passes the test and is not there yet. -/
def keepNew (p : α → Bool) (out : List α) (a : α) : List α :=
  if p a && !out.contains a then out ++ [a] else out

/-- The distinct elements that pass the test, by first occurrence. -/
def distinct (p : α → Bool) (l : List α) : List α := l.foldl (keepNew p) []

theorem distinct_snoc (l : List α) (a : α) :
    distinct p (l ++ [a]) = keepNew p (distinct p l) a := by
  unfold distinct
  rw [List.foldl_append]
  rfl

theorem mem_distinct {l : List α} {a : α} : a ∈ distinct p l ↔ a ∈ l ∧ p a = true := by
  induction l using List.reverseRecOn with
  | nil => simp [distinct]
  | append_singleton l b ih =>
    rw [distinct_snoc, keepNew, List.mem_append, List.mem_singleton]
    split_ifs with hb
    · rw [List.mem_append, List.mem_singleton, ih]
      simp only [Bool.and_eq_true] at hb
      constructor
      · rintro (⟨hmem, ha⟩ | rfl)
        · exact ⟨.inl hmem, ha⟩
        · exact ⟨.inr rfl, hb.1⟩
      · rintro ⟨hmem | rfl, ha⟩
        · exact .inl ⟨hmem, ha⟩
        · exact .inr rfl
    · rw [ih]
      constructor
      · rintro ⟨hmem, ha⟩
        exact ⟨.inl hmem, ha⟩
      · rintro ⟨hmem | rfl, ha⟩
        · exact ⟨hmem, ha⟩
        · have hold : a ∈ distinct p l := by simpa [ha] using hb
          exact ih.mp hold

theorem distinct_nodup (l : List α) : (distinct p l).Nodup := by
  induction l using List.reverseRecOn with
  | nil => simp [distinct]
  | append_singleton l b ih =>
    rw [distinct_snoc, keepNew]
    split_ifs with hb
    · simp only [Bool.and_eq_true, Bool.not_eq_true', List.contains_eq_mem,
        decide_eq_false_iff_not] at hb
      apply List.Nodup.append ih (List.nodup_singleton b)
      simpa using hb.2
    · exact ih

/-- What is found later comes after what was found. -/
theorem distinct_append (l m : List α) : distinct p l <+: distinct p (l ++ m) := by
  induction m using List.reverseRecOn with
  | nil => simp
  | append_singleton m b ih =>
    rw [← List.append_assoc, distinct_snoc, keepNew]
    split_ifs
    · exact ih.trans (List.prefix_append _ _)
    · exact ih

/-- An element is among the first `n` exactly if fewer than `n` others come before it. -/
theorem mem_take_distinct {l : List α} {a : α} {n : ℕ} :
    a ∈ (distinct p l).take n ↔ ∃ before after, l = before ++ a :: after ∧ a ∉ before ∧
      p a = true ∧ (distinct p before).length < n := by
  have hplace {before : List α} (after : List α) (hnew : a ∉ before) (ha : p a = true) :
      ∃ more, distinct p (before ++ a :: after) = distinct p before ++ a :: more := by
    have hnot : a ∉ distinct p before := fun h => hnew (mem_distinct.mp h).1
    obtain ⟨more, hmore⟩ := distinct_append (p := p) (before ++ [a]) after
    rw [distinct_snoc, keepNew, if_pos (by simp [ha, hnot])] at hmore
    exact ⟨more, by simpa using hmore.symm⟩
  constructor
  · intro hmem
    obtain ⟨hl, ha⟩ := mem_distinct.mp ((List.take_sublist _ _).mem hmem)
    obtain ⟨before, after, rfl, hnew⟩ := List.eq_append_cons_of_mem hl
    refine ⟨before, after, rfl, hnew, ha, ?_⟩
    obtain ⟨more, hmore⟩ := hplace after hnew ha
    by_contra hle
    rw [hmore, List.take_append_of_le_length (by omega)] at hmem
    exact hnew (mem_distinct.mp ((List.take_sublist _ _).mem hmem)).1
  · rintro ⟨before, after, rfl, hnew, ha, hlt⟩
    obtain ⟨more, hmore⟩ := hplace after hnew ha
    obtain ⟨k, rfl⟩ := Nat.exists_eq_add_of_lt hlt
    rw [hmore, List.take_append]
    simp [Nat.add_assoc]

end Distinct
end FirstSeen
