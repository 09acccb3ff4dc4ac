import Mathlib.Algebra.Group.Nat.Even
import Mathlib.Data.List.Induction
import Mathlib.Tactic.Common

/-! Spans between marks of which each opens or closes by turns. -/
namespace Toggled

variable {α : Type*} {mark : α → Bool}

/-- The spans that are closed, and the one that is open. -/
def step (mark : α → Bool) (s : List (List α) × Option (List α)) (c : α) :
    List (List α) × Option (List α) :=
  if mark c then
    match s.2 with
    | some span => (s.1 ++ [span], none)
    | none => (s.1, some [])
  else (s.1, s.2.map (· ++ [c]))

def scan (mark : α → Bool) (l : List α) : List (List α) × Option (List α) :=
  l.foldl (step mark) ([], none)

/-- A text without marks, from a mark that an even number of marks precede. -/
def OpenSince (mark : α → Bool) (l span : List α) : Prop :=
  ∃ before p, l = before ++ p :: span ∧ mark p = true ∧ (∀ c ∈ span, mark c = false) ∧
    Even (before.countP mark)

/-- A text without marks between two marks, the first preceded by an even number of them. -/
def Between (mark : α → Bool) (l span : List α) : Prop :=
  ∃ before p q after, l = before ++ p :: (span ++ q :: after) ∧ mark p = true ∧ mark q = true ∧
    (∀ c ∈ span, mark c = false) ∧ Even (before.countP mark)

/-- A new last element ends a span only as the mark that closes the open one. -/
theorem between_snoc {l span : List α} {c : α} :
    Between mark (l ++ [c]) span ↔ Between mark l span ∨ mark c = true ∧ OpenSince mark l span := by
  constructor
  · rintro ⟨before, p, q, after, heq, hp, hq, hspan, heven⟩
    rcases List.eq_nil_or_concat after with rfl | ⟨after, d, rfl⟩
    · have hsplit : l ++ [c] = (before ++ p :: span) ++ [q] := by rw [heq]; simp
      obtain ⟨rfl, hlast⟩ := List.append_inj' hsplit rfl
      cases hlast
      exact .inr ⟨hq, before, p, rfl, hp, hspan, heven⟩
    · have hsplit : l ++ [c] = (before ++ p :: (span ++ q :: after)) ++ [d] := by rw [heq]; simp
      obtain ⟨rfl, -⟩ := List.append_inj' hsplit rfl
      exact .inl ⟨before, p, q, after, rfl, hp, hq, hspan, heven⟩
  · rintro (⟨before, p, q, after, rfl, hp, hq, hspan, heven⟩ |
      ⟨hc, before, p, rfl, hp, hspan, heven⟩)
    · exact ⟨before, p, q, after ++ [c], by simp, hp, hq, hspan, heven⟩
    · exact ⟨before, p, c, [], by simp, hp, hc, hspan, heven⟩

theorem openSince_snoc {l span : List α} {c : α} :
    OpenSince mark (l ++ [c]) span ↔ mark c = true ∧ span = [] ∧ Even (l.countP mark) ∨
      mark c = false ∧ ∃ span', span = span' ++ [c] ∧ OpenSince mark l span' := by
  constructor
  · rintro ⟨before, p, heq, hp, hspan, heven⟩
    rcases List.eq_nil_or_concat span with rfl | ⟨span', d, rfl⟩
    · obtain ⟨rfl, hlast⟩ := List.append_inj' heq rfl
      cases hlast
      exact .inl ⟨hp, rfl, heven⟩
    · have hsplit : l ++ [c] = (before ++ p :: span') ++ [d] := by rw [heq]; simp
      obtain ⟨rfl, hlast⟩ := List.append_inj' hsplit rfl
      cases hlast
      refine .inr ⟨hspan c (by simp), span', by simp, before, p, rfl, hp, fun d hd => ?_, heven⟩
      exact hspan d (by simp [hd])
  · rintro (⟨hc, rfl, heven⟩ | ⟨hc, span', rfl, before, p, rfl, hp, hspan, heven⟩)
    · exact ⟨l, c, rfl, hc, by simp, heven⟩
    · refine ⟨before, p, by simp, hp, fun d hd => ?_, heven⟩
      rcases List.mem_append.mp hd with hd | hd
      · exact hspan d hd
      · rw [List.mem_singleton.mp hd, hc]

theorem OpenSince.odd {l span : List α} (h : OpenSince mark l span) :
    ¬ Even (l.countP mark) := by
  obtain ⟨before, p, rfl, hp, hspan, heven⟩ := h
  have hnone : span.countP mark = 0 := List.countP_eq_zero.mpr fun c hc => by simp [hspan c hc]
  rw [List.countP_append, List.countP_cons_of_pos hp, hnone, Nat.zero_add, Nat.even_add_one,
    not_not]
  exact heven

/-- What a scan has found in the text so far. -/
structure Scanned (mark : α → Bool) (l : List α) (s : List (List α) × Option (List α)) : Prop where
  closed : ∀ span, span ∈ s.1 ↔ Between mark l span
  opened : ∀ span, s.2 = some span ↔ OpenSince mark l span
  shut : s.2 = none → Even (l.countP mark)

theorem Scanned.step {l : List α} {s : List (List α) × Option (List α)} (h : Scanned mark l s)
    (c : α) : Scanned mark (l ++ [c]) (step mark s c) := by
  obtain ⟨closed, opened⟩ := s
  unfold Toggled.step
  by_cases hc : mark c = true
  · rw [if_pos hc]
    cases opened with
    | some span =>
      have hopen := (h.opened span).mp rfl
      constructor
      · intro span'
        rw [between_snoc, List.mem_append, List.mem_singleton, h.closed, ← h.opened]
        simp [hc, eq_comm]
      · intro span'
        rw [openSince_snoc]
        simp [hc, hopen.odd]
      · intro _
        rw [List.countP_append, List.countP_singleton, if_pos hc, Nat.even_add_one]
        exact hopen.odd
    | none =>
      have heven := h.shut rfl
      constructor
      · intro span
        rw [between_snoc, h.closed, ← h.opened]
        simp
      · intro span
        rw [openSince_snoc]
        simp [hc, heven, eq_comm]
      · intro hnone
        cases hnone
  · rw [if_neg hc]
    rw [Bool.not_eq_true] at hc
    constructor
    · intro span
      rw [between_snoc, h.closed]
      simp [hc]
    · intro span
      rw [openSince_snoc]
      simp only [hc, Bool.false_eq_true, false_and, true_and, false_or, ← h.opened,
        Option.map_eq_some_iff]
      exact exists_congr fun span' => by rw [and_comm, eq_comm]
    · intro hnone
      rw [List.countP_append, List.countP_singleton, hc]
      exact h.shut (Option.map_eq_none_iff.mp hnone)

theorem scanned (l : List α) : Scanned mark l (scan mark l) := by
  induction l using List.reverseRecOn with
  | nil =>
    constructor
    · intro span
      simp [scan, Between]
    · intro span
      simp [scan, OpenSince]
    · intro _
      simp
  | append_singleton l c ih =>
    unfold scan
    rw [List.foldl_append]
    exact ih.step c

/-- The closed spans are those between a mark that opens and the next one. -/
theorem mem_scan_iff {l span : List α} : span ∈ (scan mark l).1 ↔ Between mark l span :=
  (scanned l).closed span

end Toggled
