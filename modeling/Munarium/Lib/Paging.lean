import Mathlib.Data.List.Basic
import Mathlib.Order.Basic
import Mathlib.Order.Lattice

/-! Reading a list that ascends by a key in pages: each page starts past the key of the one
before it, and is filled while it fits. -/
namespace Munarium

namespace Paging

section Cursor
variable {α κ : Type*} [LinearOrder κ] {key : α → κ} {xs ys : List α} {x : α}

/-- Past the last key of a first part lies the rest. -/
theorem filter_past (h : (xs ++ ys).Pairwise fun a b => key a < key b)
    (hx : xs.getLast? = some x) : (xs ++ ys).filter (fun a => decide (key x < key a)) = ys := by
  obtain ⟨init, rfl⟩ := List.getLast?_eq_some_iff.mp hx
  obtain ⟨hfirst, -, hacross⟩ := List.pairwise_append.mp h
  have hnone : (init ++ [x]).filter (fun a => decide (key x < key a)) = [] := by
    rw [List.filter_eq_nil_iff]
    intro a ha
    rw [decide_eq_true_eq, not_lt]
    rcases List.mem_append.mp ha with ha | ha
    · exact ((List.pairwise_append.mp hfirst).2.2 a ha x (List.mem_singleton_self x)).le
    · exact (congrArg key (List.mem_singleton.mp ha)).le
  have hall : ys.filter (fun a => decide (key x < key a)) = ys := by
    rw [List.filter_eq_self]
    intro a ha
    exact decide_eq_true (hacross x (by simp) a ha)
  rw [List.filter_append, hnone, hall, List.nil_append]

end Cursor

section Fill
variable {α : Type*} {fits : List α → Bool}

/-- What is selected so far, and more of the rest while it fits. -/
def fill (fits : List α → Bool) : List α → List α → List α
  | selected, [] => selected
  | selected, x :: rest =>
      if fits (selected ++ [x]) then fill fits (selected ++ [x]) rest else selected

/-- A page is filled from the front of the rest. -/
theorem fill_prefix (fits : List α → Bool) (selected rest : List α) : ∃ taken, taken <+: rest ∧
    fill fits selected rest = selected ++ taken := by
  induction rest generalizing selected with
  | nil => exact ⟨[], List.nil_prefix, by simp [fill]⟩
  | cons x rest ih =>
    unfold fill
    by_cases hx : fits (selected ++ [x]) = true
    · obtain ⟨taken, htaken, heq⟩ := ih (selected ++ [x])
      refine ⟨x :: taken, List.cons_prefix_cons.mpr ⟨rfl, htaken⟩, ?_⟩
      rw [if_pos hx, heq, List.append_assoc, List.singleton_append]
    · exact ⟨[], List.nil_prefix, by rw [if_neg hx, List.append_nil]⟩

/-- What was selected fits, unless nothing more was selected. -/
theorem fill_fits (fits : List α → Bool) (selected rest : List α) :
    fill fits selected rest = selected ∨ fits (fill fits selected rest) = true := by
  induction rest generalizing selected with
  | nil => exact .inl rfl
  | cons x rest ih =>
    unfold fill
    by_cases hx : fits (selected ++ [x]) = true
    · rw [if_pos hx]
      rcases ih (selected ++ [x]) with hsame | hfits
      · exact .inr (hsame.symm ▸ hx)
      · exact .inr hfits
    · exact .inl (if_neg hx)

theorem fill_ne_nil {x : α} {rest : List α} (hx : fits [x] = true) :
    fill fits [] (x :: rest) ≠ [] := by
  obtain ⟨taken, -, heq⟩ := fill_prefix fits [x] rest
  unfold fill
  rw [List.nil_append, if_pos hx, heq]
  simp

end Fill

end Paging
end Munarium
