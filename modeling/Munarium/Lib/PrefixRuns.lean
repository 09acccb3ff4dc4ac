import Mathlib.Data.List.Basic
import Mathlib.Tactic.Common

/-! The states that a machine passes on its way through a list of labels. -/
namespace PrefixRun

variable {σ ε : Type*}

/-- The state after the first labels of a list. -/
def stateAt (step : σ → ε → σ) (s : σ) (labels : List ε) (n : ℕ) : σ :=
  (labels.take n).foldl step s

variable {step : σ → ε → σ} {s : σ} {labels : List ε} {n : ℕ}

theorem stateAt_succ {e : ε} (h : labels[n]? = some e) :
    stateAt step s labels (n + 1) = step (stateAt step s labels n) e := by
  simp only [stateAt, List.take_add_one, h, Option.toList_some, List.foldl_append,
    List.foldl_cons, List.foldl_nil]

/-- Past the last label nothing changes. -/
theorem stateAt_end (h : labels[n]? = none) :
    stateAt step s labels (n + 1) = stateAt step s labels n := by
  simp only [stateAt, List.take_add_one, h, Option.toList_none, List.append_nil]

/-- What the start has and every step that is taken keeps, every state has. -/
theorem stateAt_invariant {I : σ → Prop} (hstart : I s)
    (hstep : ∀ n e, labels[n]? = some e → I (stateAt step s labels n) →
      I (step (stateAt step s labels n) e)) (n : ℕ) : I (stateAt step s labels n) := by
  induction n with
  | zero => exact hstart
  | succ n ih =>
    cases he : labels[n]? with
    | none =>
      rw [stateAt_end he]
      exact ih
    | some e =>
      rw [stateAt_succ he]
      exact hstep n e he ih

/-- Earlier and later states are related exactly where every step relates its two states. -/
theorem stateAt_related_iff {R : σ → σ → Prop} (hrefl : ∀ s, R s s)
    (htrans : ∀ s t u, R s t → R t u → R s u) :
    (∀ m n, m ≤ n → R (stateAt step s labels m) (stateAt step s labels n)) ↔
      ∀ n e, labels[n]? = some e →
        R (stateAt step s labels n) (step (stateAt step s labels n) e) := by
  constructor
  · intro h n e he
    have hnext := h n (n + 1) (Nat.le_succ n)
    rw [stateAt_succ he] at hnext
    exact hnext
  · intro h m n hmn
    obtain ⟨k, rfl⟩ := Nat.exists_eq_add_of_le hmn
    induction k with
    | zero => exact hrefl _
    | succ k ih =>
      have hearlier := ih (Nat.le_add_right m k)
      rw [← Nat.add_assoc]
      cases he : labels[m + k]? with
      | none =>
        rw [stateAt_end he]
        exact hearlier
      | some e =>
        rw [stateAt_succ he]
        exact htrans _ _ _ hearlier (h (m + k) e he)

end PrefixRun
