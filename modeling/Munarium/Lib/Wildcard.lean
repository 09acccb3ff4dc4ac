import Mathlib.Data.List.Basic

/-! Patterns in which one letter stands for any text: what they match, and the literal parts
between the places of that letter. -/
namespace Munarium

namespace Wildcard
variable {α : Type*} {star : α}

/-- The text is the pattern with every `star` replaced by some text, an empty one maybe. -/
inductive Fills (star : α) : List α → List α → Prop where
  | nil : Fills star [] []
  | literal {c : α} {p s : List α} (hc : c ≠ star) (h : Fills star p s) :
      Fills star (c :: p) (c :: s)
  | filled {p s : List α} (gap : List α) (h : Fills star p s) : Fills star (star :: p) (gap ++ s)

theorem fills_nil {s : List α} : Fills star [] s ↔ s = [] := by
  constructor
  · intro h
    cases h
    rfl
  · rintro rfl
    exact .nil

theorem fills_literal {c : α} {p s : List α} (hc : c ≠ star) :
    Fills star (c :: p) s ↔ ∃ rest, s = c :: rest ∧ Fills star p rest := by
  constructor
  · intro h
    cases h with
    | literal _ h => exact ⟨_, rfl, h⟩
    | filled gap h => exact absurd rfl hc
  · rintro ⟨rest, rfl, h⟩
    exact .literal hc h

theorem fills_star {p s : List α} :
    Fills star (star :: p) s ↔ ∃ gap rest, s = gap ++ rest ∧ Fills star p rest := by
  constructor
  · intro h
    cases h with
    | literal hc h => exact absurd rfl hc
    | filled gap h => exact ⟨gap, _, rfl, h⟩
  · rintro ⟨gap, rest, rfl, h⟩
    exact .filled gap h

/-- The text holds the parts one after the other, a gap before each of them and nothing after the
last. -/
def Spread : List (List α) → List α → Prop
  | [], s => s = []
  | part :: parts, s => ∃ gap rest, s = gap ++ (part ++ rest) ∧ Spread parts rest

/-- What a pattern matches begins with its first literal part, and the others are spread over the
rest. -/
theorem fills_iff_spread [DecidableEq α] {p s first : List α} {parts : List (List α)}
    (hsplit : p.splitOnP (· == star) = first :: parts) :
    Fills star p s ↔ ∃ rest, s = first ++ rest ∧ Spread parts rest := by
  induction p generalizing s first parts with
  | nil =>
    rw [List.splitOnP_nil] at hsplit
    obtain ⟨rfl, rfl⟩ := List.cons.inj hsplit
    simp [fills_nil, Spread]
  | cons c p ih =>
    obtain ⟨first', parts', hrest⟩ := List.exists_cons_of_ne_nil (List.splitOnP_ne_nil _ p)
    rw [List.splitOnP_cons_eq_if_modifyHead, hrest] at hsplit
    by_cases hc : c = star
    · subst hc
      rw [if_pos (beq_self_eq_true c)] at hsplit
      obtain ⟨rfl, rfl⟩ := List.cons.inj hsplit
      rw [fills_star]
      simp only [List.nil_append, exists_eq_left', Spread, ih hrest]
      constructor
      · rintro ⟨gap, rest, rfl, rest', rfl, h⟩
        exact ⟨gap, rest', rfl, h⟩
      · rintro ⟨gap, rest, rfl, h⟩
        exact ⟨gap, _, rfl, rest, rfl, h⟩
    · rw [if_neg (by simpa using hc), List.modifyHead_cons] at hsplit
      obtain ⟨rfl, rfl⟩ := List.cons.inj hsplit
      rw [fills_literal hc]
      simp only [ih hrest]
      constructor
      · rintro ⟨rest, rfl, rest', rfl, h⟩
        exact ⟨rest', rfl, h⟩
      · rintro ⟨rest, rfl, h⟩
        exact ⟨_, rfl, rest, rfl, h⟩

/-- A pattern of one part is that part. -/
theorem eq_of_splitOnP {q : α → Bool} {p first : List α} (hsplit : p.splitOnP q = [first]) :
    p = first := by
  induction p generalizing first with
  | nil =>
    rw [List.splitOnP_nil] at hsplit
    exact (List.cons.inj hsplit).1
  | cons c p ih =>
    obtain ⟨first', parts', hrest⟩ := List.exists_cons_of_ne_nil (List.splitOnP_ne_nil q p)
    rw [List.splitOnP_cons_eq_if_modifyHead, hrest] at hsplit
    split_ifs at hsplit
    · simp at hsplit
    · rw [List.modifyHead_cons] at hsplit
      obtain ⟨rfl, rfl⟩ := List.cons.inj hsplit
      rw [ih hrest]

end Wildcard
end Munarium
