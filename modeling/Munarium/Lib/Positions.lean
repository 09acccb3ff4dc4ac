import Mathlib.Data.List.Basic

/-! Lists whose elements are known by their positions: what stands at a position after one
element is replaced, or one more is appended. -/
namespace Positions

variable {α : Type*} {l : List α} {i j : ℕ} {a b : α}

theorem getElem?_set_cases (h : (l.set i b)[j]? = some a) :
    j = i ∧ a = b ∨ j ≠ i ∧ l[j]? = some a := by
  by_cases hij : i = j
  · subst hij
    rw [List.getElem?_set_self'] at h
    obtain ⟨_, -, hb⟩ := Option.map_eq_some_iff.mp h
    exact .inl ⟨rfl, hb.symm⟩
  · rw [List.getElem?_set_ne hij] at h
    exact .inr ⟨Ne.symm hij, h⟩

theorem getElem?_set_some (h : l[i]? = some a) : (l.set i b)[i]? = some b := by
  rw [List.getElem?_set_self (List.getElem?_eq_some_iff.mp h).1]

theorem getElem?_append_cases (h : (l ++ [b])[i]? = some a) :
    i < l.length ∧ l[i]? = some a ∨ i = l.length ∧ a = b := by
  rw [List.getElem?_append] at h
  split_ifs at h with hi
  · exact .inl ⟨hi, h⟩
  · obtain ⟨hzero, ha⟩ := List.getElem?_eq_some_iff.mp h
    simp only [List.length_singleton] at hzero
    exact .inr ⟨by omega, by simpa using ha.symm⟩

/-- What all elements had and the new one has, all have after a replacement. -/
theorem forall_set {P : ℕ → α → Prop} (hl : ∀ j a, l[j]? = some a → P j a) (hb : P i b) :
    ∀ j a, (l.set i b)[j]? = some a → P j a := by
  intro j a h
  rcases getElem?_set_cases h with ⟨rfl, rfl⟩ | ⟨-, h⟩
  · exact hb
  · exact hl j a h

theorem forall_append {P : ℕ → α → Prop} (hl : ∀ j a, l[j]? = some a → P j a)
    (hb : P l.length b) : ∀ j a, (l ++ [b])[j]? = some a → P j a := by
  intro j a h
  rcases getElem?_append_cases h with ⟨-, h⟩ | ⟨rfl, rfl⟩
  · exact hl j a h
  · exact hb

end Positions
