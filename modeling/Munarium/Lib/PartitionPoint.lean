import Mathlib.Data.Nat.Basic

/-! The point where a predicate that holds of a start of an interval stops to hold, by halving. -/
namespace PartitionPoint

/-- The search of an interval that the predicate is known to hold before, and not from its end. -/
def search (p : ℕ → Bool) (lo hi : ℕ) : ℕ :=
  if lo < hi then
    let mid := lo + (hi - lo) / 2
    if p mid then search p (mid + 1) hi else search p lo mid
  else lo
termination_by hi - lo

variable {p : ℕ → Bool} {lo hi : ℕ}

theorem search_bounds (p : ℕ → Bool) (h : lo ≤ hi) : lo ≤ search p lo hi ∧ search p lo hi ≤ hi := by
  fun_induction search p lo hi with
  | case1 lo hi hlt mid hmid ih =>
    have hin : mid = lo + (hi - lo) / 2 := rfl
    have hrest := ih (by omega)
    omega
  | case2 lo hi hlt mid hmid ih =>
    have hin : mid = lo + (hi - lo) / 2 := rfl
    have hrest := ih (by omega)
    omega
  | case3 lo hi hge => omega

/-- Where the predicate holds of everything below what it holds of, it holds exactly below the
point that is found. -/
theorem search_spec (hanti : ∀ i j, i ≤ j → p j = true → p i = true) :
    ∀ k, lo ≤ k → k < hi → (p k = true ↔ k < search p lo hi) := by
  fun_induction search p lo hi with
  | case1 lo hi hlt mid hmid ih =>
    have hin : mid = lo + (hi - lo) / 2 := rfl
    have hbounds : mid + 1 ≤ search p (mid + 1) hi := (search_bounds p (by omega)).1
    intro k hk hhi
    by_cases hle : k ≤ mid
    · have hp := hanti k mid hle hmid
      apply iff_of_true hp
      omega
    · exact ih k (by omega) hhi
  | case2 lo hi hlt mid hmid ih =>
    have hin : mid = lo + (hi - lo) / 2 := rfl
    have hbounds : search p lo mid ≤ mid := (search_bounds p (by omega)).2
    intro k hk hhi
    by_cases hle : mid ≤ k
    · have hp : p k ≠ true := fun hp => hmid (hanti mid k hle hp)
      apply iff_of_false hp
      omega
    · exact ih k hk (by omega)
  | case3 lo hi hge =>
    intro k hk hhi
    omega

end PartitionPoint
