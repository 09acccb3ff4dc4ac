import Mathlib.Data.List.Chain
import Mathlib.Data.Nat.Notation

/-! Lists numbered from one whose entries each point at the entry before them, and the
scan that finds the entry with the greatest number. -/
namespace Munarium

section
variable {α : Type*} {number : α → Option ℕ} {first : α → Prop} {follows : α → α → Prop}

/-- Numbers `1..n` in order, a first entry that starts the list, and links between
neighbours. -/
structure NumberedChain (number : α → Option ℕ) (first : α → Prop) (follows : α → α → Prop)
    (xs : List α) : Prop where
  numbered : ∀ (i : ℕ) x, xs[i]? = some x → number x = some (i + 1)
  first : ∀ x ∈ xs.head?, first x
  linked : xs.IsChain follows

theorem numberedChain_nil : NumberedChain number first follows [] := ⟨by simp, by simp, .nil⟩

theorem NumberedChain.append {xs : List α} {y : α} (h : NumberedChain number first follows xs)
    (hnumber : number y = some (xs.length + 1)) (hfirst : xs = [] → first y)
    (hlink : ∀ x ∈ xs.getLast?, follows x y) :
    NumberedChain number first follows (xs ++ [y]) where
  numbered i x hx := by
    rcases Nat.lt_trichotomy i xs.length with hlt | rfl | hgt
    · rw [List.getElem?_append_left hlt] at hx
      exact h.numbered i x hx
    · obtain rfl : y = x := by simpa using hx
      exact hnumber
    · have hlen : (xs ++ [y]).length ≤ i := by
        rw [List.length_append, List.length_singleton]
        exact hgt
      rw [List.getElem?_eq_none hlen] at hx
      cases hx
  first x hx := by
    cases xs with
    | nil =>
      obtain rfl : y = x := by simpa using hx
      exact hfirst rfl
    | cons z zs => exact h.first x hx
  linked := List.isChain_append.mpr ⟨h.linked, .singleton y, by simpa using hlink⟩

theorem NumberedChain.prefix {xs ys : List α}
    (h : NumberedChain number first follows (xs ++ ys)) :
    NumberedChain number first follows xs where
  numbered i x hx := by
    have hlt : i < xs.length := (List.getElem?_eq_some_iff.mp hx).1
    exact h.numbered i x (by rw [List.getElem?_append_left hlt, hx])
  first x hx := by
    cases xs with
    | nil => cases hx
    | cons z zs => exact h.first x hx
  linked := (List.isChain_append.mp h.linked).1

/-- The last entry carries the length as its number. -/
theorem NumberedChain.number_last {xs : List α} (h : NumberedChain number first follows xs)
    {x : α} (hx : xs.getLast? = some x) : number x = some xs.length := by
  have hne : xs ≠ [] := by
    rintro rfl
    cases hx
  have hpos := List.length_pos_iff.mpr hne
  rw [List.getLast?_eq_getElem?] at hx
  rw [h.numbered _ x hx, Option.some.injEq]
  omega

/-- One step of a scan for the greatest number: what beats the entry found so far
replaces it. -/
def newer (beats : Option ℕ → Option ℕ → Bool) (number : α → Option ℕ) (last : Option α)
    (x : α) : Option α :=
  match last with
  | none => some x
  | some p => if beats (number x) (number p) then some x else last

/-- On a numbered chain the scan ends at the last entry. -/
theorem NumberedChain.newest {beats : Option ℕ → Option ℕ → Bool}
    (hbeats : ∀ n : ℕ, beats (some (n + 1)) (some n) = true) {xs : List α}
    (h : NumberedChain number first follows xs) :
    xs.foldl (newer beats number) none = xs.getLast? := by
  induction xs using List.reverseRecOn with
  | nil => rfl
  | append_singleton xs y ih =>
    have hy : number y = some (xs.length + 1) := h.numbered xs.length y (by simp)
    rw [List.foldl_append, ih h.prefix]
    cases hlast : xs.getLast? with
    | none => simp [newer]
    | some p => simp [newer, hy, h.prefix.number_last hlast, hbeats]

end
end Munarium
