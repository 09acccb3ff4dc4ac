import Mathlib.Data.List.Infix
import Mathlib.Tactic.Common

/-! Spans between an opening and a closing mark, as a scan from the left finds them. Where marks are
not nested these are all the spans there are. -/
namespace Delimited

variable {α : Type*} [DecidableEq α]

/-- What stands before the first occurrence of a mark, and what after. -/
def cut (c : α) : List α → Option (List α × List α)
  | [] => none
  | d :: rest => if d = c then some ([], rest) else (cut c rest).map fun r => (d :: r.1, r.2)

theorem cut_eq_some_iff {c : α} {l a b : List α} :
    cut c l = some (a, b) ↔ l = a ++ c :: b ∧ c ∉ a := by
  induction l generalizing a with
  | nil => simp [cut]
  | cons d rest ih =>
    unfold cut
    split_ifs with hd
    · subst hd
      cases a with
      | nil => simp [eq_comm]
      | cons x a => simp +contextual [eq_comm]
    · cases a with
      | nil => simp [hd]
      | cons x a =>
        simp only [Option.map_eq_some_iff, Prod.mk.injEq, List.cons_append, List.cons.injEq,
          List.mem_cons, not_or]
        constructor
        · rintro ⟨⟨a', b'⟩, hcut, ⟨rfl, rfl⟩, rfl⟩
          obtain ⟨hrest, hc⟩ := ih.mp hcut
          exact ⟨⟨rfl, hrest⟩, Ne.symm hd, hc⟩
        · rintro ⟨⟨rfl, hrest⟩, -, hc⟩
          exact ⟨(a, b), ih.mpr ⟨hrest, hc⟩, ⟨rfl, rfl⟩, rfl⟩

theorem cut_eq_none_iff {c : α} {l : List α} : cut c l = none ↔ c ∉ l := by
  induction l with
  | nil => simp [cut]
  | cons d rest ih =>
    unfold cut
    split_ifs with hd
    · simp [hd]
    · simp [ih, Ne.symm hd]

theorem length_cut {c : α} {l a b : List α} (h : cut c l = some (a, b)) : b.length < l.length := by
  obtain ⟨rfl, -⟩ := cut_eq_some_iff.mp h
  simp only [List.length_append, List.length_cons]
  omega

/-- What stands before the first occurrence of a text, and what after. -/
def cutAt (p : List α) : List α → Option (List α × List α)
  | [] => if p = [] then some ([], []) else none
  | d :: rest =>
      if p <+: d :: rest then some ([], (d :: rest).drop p.length)
      else (cutAt p rest).map fun r => (d :: r.1, r.2)

theorem cutAt_eq {p l a b : List α} (h : cutAt p l = some (a, b)) : l = a ++ (p ++ b) := by
  induction l generalizing a with
  | nil =>
    simp only [cutAt, Option.ite_none_right_eq_some, Option.some.injEq, Prod.mk.injEq] at h
    obtain ⟨rfl, rfl, rfl⟩ := h
    rfl
  | cons d rest ih =>
    unfold cutAt at h
    split_ifs at h with hp
    · simp only [Option.some.injEq, Prod.mk.injEq] at h
      obtain ⟨rfl, rfl⟩ := h
      exact List.prefix_append_drop hp
    · obtain ⟨⟨a', b'⟩, hcut, hparts⟩ := Option.map_eq_some_iff.mp h
      simp only [Prod.mk.injEq] at hparts
      obtain ⟨rfl, rfl⟩ := hparts
      rw [ih hcut]
      rfl

theorem length_cutAt {p l a b : List α} (hp : p ≠ []) (h : cutAt p l = some (a, b)) :
    b.length < l.length := by
  have hlen := congrArg List.length (cutAt_eq h)
  have hpos := List.length_pos_iff.mpr hp
  simp only [List.length_append] at hlen
  omega

/-- The spans that a scan finds: from an opening mark to the next closing one, and on from there. -/
def spans (o c : α) (l : List α) : List (List α) :=
  match hopen : cut o l with
  | none => []
  | some (_, after) =>
      match hclose : cut c after with
      | none => []
      | some (inner, rest) =>
          have := (length_cut hclose).trans (length_cut hopen)
          inner :: spans o c rest
termination_by l.length

theorem spans_eq_cons {o c : α} {l before after inner rest : List α}
    (hopen : cut o l = some (before, after)) (hclose : cut c after = some (inner, rest)) :
    spans o c l = inner :: spans o c rest := by
  fun_cases spans o c l with
  | case1 hnone => rw [hopen] at hnone; cases hnone
  | case2 before' after' hopen' hnone =>
    rw [hopen] at hopen'
    cases hopen'
    rw [hclose] at hnone
    cases hnone
  | case3 before' after' hopen' inner' rest' hclose' hlt =>
    rw [hopen] at hopen'
    cases hopen'
    rw [hclose] at hclose'
    cases hclose'
    rfl

theorem spans_nil {o c : α} : spans o c ([] : List α) = [] := by
  rw [spans]
  rfl

/-- No opening mark stands between an opening mark and the next closing one. -/
def Flat (o c : α) (l : List α) : Prop :=
  ∀ before inner after, l = before ++ o :: (inner ++ c :: after) → c ∉ inner → o ∉ inner

variable {o c : α} {l inner : List α}

omit [DecidableEq α] in
theorem Flat.suffix {b l : List α} (h : Flat o c (b ++ l)) : Flat o c l := by
  intro before i after heq hc
  apply h (b ++ before) i after _ hc
  rw [heq, List.append_assoc]

/-- Every span that is found is one. -/
theorem exists_of_mem_spans (h : inner ∈ spans o c l) :
    ∃ before after, l = before ++ o :: (inner ++ c :: after) ∧ c ∉ inner := by
  fun_induction spans o c l with
  | case1 => cases h
  | case2 => cases h
  | case3 l before after hopen first rest hclose hlt ih =>
    obtain ⟨rfl, -⟩ := cut_eq_some_iff.mp hopen
    obtain ⟨rfl, hfirst⟩ := cut_eq_some_iff.mp hclose
    rcases List.mem_cons.mp h with rfl | h
    · exact ⟨before, rest, rfl, hfirst⟩
    · obtain ⟨b, a, hrest, hinner⟩ := ih h
      refine ⟨before ++ o :: (first ++ c :: b), a, ?_, hinner⟩
      rw [hrest]
      simp

omit [DecidableEq α] in
/-- An occurrence of a mark is its first one or comes after it. -/
theorem eq_or_after_first {first before rest w : List α} (hfirst : o ∉ first)
    (h : first ++ o :: rest = before ++ o :: w) :
    rest = w ∨ ∃ u, before = first ++ o :: u ∧ rest = u ++ o :: w := by
  rcases List.append_eq_append_iff.mp h with ⟨u, rfl, hrest⟩ | ⟨u, rfl, hrest⟩
  · cases u with
    | nil => simp_all
    | cons x u =>
      simp only [List.cons_append, List.cons.injEq] at hrest
      obtain ⟨rfl, hrest⟩ := hrest
      exact Or.inr ⟨u, rfl, hrest⟩
  · cases u with
    | nil => simp_all
    | cons x u =>
      simp only [List.cons_append, List.cons.injEq] at hrest
      simp [← hrest.1] at hfirst

omit [DecidableEq α] in
/-- A text with one opening mark has none nested. -/
theorem flat_cons (h : o ∉ l) : Flat o c (o :: l) := by
  intro before inner after heq _ ho
  rcases eq_or_after_first List.not_mem_nil heq with rfl | ⟨u, -, rfl⟩
  · simp [ho] at h
  · simp at h

/-- Where marks are not nested, every span is found. -/
theorem mem_spans (hne : o ≠ c) (hflat : Flat o c l) {before after : List α}
    (hl : l = before ++ o :: (inner ++ c :: after)) (hc : c ∉ inner) : inner ∈ spans o c l := by
  fun_induction spans o c l generalizing before with
  | case1 l hopen =>
    have hno := cut_eq_none_iff.mp hopen
    simp [hl] at hno
  | case2 l first rest hopen hclose =>
    obtain ⟨rfl, hfirst⟩ := cut_eq_some_iff.mp hopen
    have hno := cut_eq_none_iff.mp hclose
    rcases eq_or_after_first hfirst hl with rfl | ⟨u, -, rfl⟩
    · simp at hno
    · simp at hno
  | case3 l first rest hopen head tail hclose hlt ih =>
    obtain ⟨rfl, hfirst⟩ := cut_eq_some_iff.mp hopen
    obtain ⟨rfl, hhead⟩ := cut_eq_some_iff.mp hclose
    rcases eq_or_after_first hfirst hl with heq | ⟨u, -, heq⟩
    · have hcut : cut c (head ++ c :: tail) = some (inner, after) := by
        rw [heq]
        exact cut_eq_some_iff.mpr ⟨rfl, hc⟩
      rw [hclose] at hcut
      simp only [Option.some.injEq, Prod.mk.injEq] at hcut
      rw [hcut.1]
      exact List.mem_cons_self
    · have hno : o ∉ head := hflat first head tail rfl hhead
      have htail : ∃ v, tail = v ++ o :: (inner ++ c :: after) := by
        rcases List.append_eq_append_iff.mp heq with ⟨v, rfl, hrest⟩ | ⟨v, rfl, hrest⟩
        · cases v with
          | nil =>
            simp only [List.nil_append, List.cons.injEq] at hrest
            exact absurd hrest.1.symm hne
          | cons x v =>
            simp only [List.cons_append, List.cons.injEq] at hrest
            exact ⟨v, hrest.2⟩
        · cases v with
          | nil =>
            simp only [List.nil_append, List.cons.injEq] at hrest
            exact absurd hrest.1 hne
          | cons x v =>
            simp only [List.cons_append, List.cons.injEq] at hrest
            exact absurd (hrest.1 ▸ List.mem_append_right _ List.mem_cons_self) hno
      obtain ⟨v, rfl⟩ := htail
      have hsuffix : Flat o c (v ++ o :: (inner ++ c :: after)) := by
        apply Flat.suffix (b := first ++ o :: (head ++ [c]))
        simpa using hflat
      exact List.mem_cons_of_mem _ (ih hsuffix rfl)

/-- An opening mark stands before the end of a text, and no closing mark after it. -/
def Unclosed (o c : α) (l : List α) : Prop := ∃ b rest, l = b ++ o :: rest ∧ c ∉ rest

omit [DecidableEq α] in
theorem not_unclosed (h : o ∉ l) : ¬ Unclosed o c l := by
  rintro ⟨b, rest, rfl, -⟩
  simp at h

omit [DecidableEq α] in
/-- What follows a closing mark decides alone whether a mark is open. -/
theorem unclosed_after_close {b rest : List α} (hne : o ≠ c) :
    Unclosed o c (b ++ c :: rest) ↔ Unclosed o c rest := by
  constructor
  · rintro ⟨b', rest', heq, hc⟩
    rcases List.append_eq_append_iff.mp heq with ⟨u, rfl, hrest⟩ | ⟨u, rfl, hrest⟩
    · cases u with
      | nil =>
        simp only [List.nil_append, List.cons.injEq] at hrest
        exact absurd hrest.1.symm hne
      | cons x u =>
        simp only [List.cons_append, List.cons.injEq] at hrest
        exact ⟨u, rest', hrest.2, hc⟩
    · cases u with
      | nil =>
        simp only [List.nil_append, List.cons.injEq] at hrest
        exact absurd hrest.1 hne
      | cons x u =>
        simp only [List.cons_append, List.cons.injEq] at hrest
        obtain ⟨-, rfl⟩ := hrest
        simp at hc
  · rintro ⟨b', rest', rfl, hc⟩
    exact ⟨b ++ c :: b', rest', by simp, hc⟩

/-- A span is found exactly where no mark is open before it. -/
theorem mem_spans_iff (hne : o ≠ c) :
    inner ∈ spans o c l ↔ ∃ before after, l = before ++ o :: (inner ++ c :: after) ∧
      c ∉ inner ∧ ¬ Unclosed o c before := by
  fun_induction spans o c l with
  | case1 l hopen =>
    have hno := cut_eq_none_iff.mp hopen
    constructor
    · intro hmem
      cases hmem
    · rintro ⟨before, after, rfl, -⟩
      simp at hno
  | case2 l first rest hopen hclose =>
    obtain ⟨rfl, hfirst⟩ := cut_eq_some_iff.mp hopen
    have hno := cut_eq_none_iff.mp hclose
    constructor
    · intro hmem
      cases hmem
    · rintro ⟨before, after, heq, -⟩
      rcases eq_or_after_first hfirst heq with rfl | ⟨u, -, rfl⟩
      · simp at hno
      · simp at hno
  | case3 l first rest hopen head tail hclose hlt ih =>
    obtain ⟨rfl, hfirst⟩ := cut_eq_some_iff.mp hopen
    obtain ⟨rfl, hhead⟩ := cut_eq_some_iff.mp hclose
    rw [List.mem_cons, ih]
    constructor
    · rintro (rfl | ⟨before, after, rfl, hc, hopened⟩)
      · exact ⟨first, tail, rfl, hhead, not_unclosed hfirst⟩
      · refine ⟨first ++ o :: (head ++ c :: before), after, by simp, hc, ?_⟩
        have hsplit : first ++ o :: (head ++ c :: before) =
            (first ++ o :: head) ++ c :: before := by simp
        rwa [hsplit, unclosed_after_close hne]
    · rintro ⟨before, after, heq, hc, hopened⟩
      rcases eq_or_after_first hfirst heq with hinner | ⟨u, rfl, htail⟩
      · have hcut : cut c (head ++ c :: tail) = some (inner, after) := by
          rw [hinner]
          exact cut_eq_some_iff.mpr ⟨rfl, hc⟩
        rw [hclose] at hcut
        simp only [Option.some.injEq, Prod.mk.injEq] at hcut
        exact .inl hcut.1.symm
      · have hcu : c ∈ u := by
          by_contra hcu
          exact hopened ⟨first, u, rfl, hcu⟩
        obtain ⟨v, w, rfl, hv⟩ := List.eq_append_cons_of_mem hcu
        have hcut : cut c (head ++ c :: tail) = some (v, w ++ o :: (inner ++ c :: after)) := by
          rw [htail]
          exact cut_eq_some_iff.mpr ⟨by simp, hv⟩
        rw [hclose] at hcut
        simp only [Option.some.injEq, Prod.mk.injEq] at hcut
        have hsplit : first ++ o :: (v ++ c :: w) = (first ++ o :: v) ++ c :: w := by simp
        rw [hsplit, unclosed_after_close hne] at hopened
        exact .inr ⟨w, after, hcut.2, hc, hopened⟩

end Delimited
