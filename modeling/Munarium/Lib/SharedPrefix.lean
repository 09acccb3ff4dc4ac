import Mathlib.Data.List.Basic

/-! The length of what two lists share at their start, and before two positions of them. -/
namespace Munarium

namespace SharedPrefix
variable {α : Type*} [DecidableEq α]

def shared : List α → List α → ℕ
  | a :: as, b :: bs => if a = b then shared as bs + 1 else 0
  | _, _ => 0

theorem shared_nil (as : List α) : shared as [] = 0 := by
  cases as <;> rfl

/-- Two lists agree up to the length they share, and no further. -/
theorem le_shared_iff {as bs : List α} {l : ℕ} :
    l ≤ shared as bs ↔ l ≤ as.length ∧ l ≤ bs.length ∧ as.take l = bs.take l := by
  induction as generalizing bs l with
  | nil =>
    cases l with
    | zero => simp
    | succ l => simp [shared]
  | cons a as ih =>
    cases l with
    | zero => simp
    | succ l =>
      cases bs with
      | nil => simp [shared]
      | cons b bs =>
        rw [shared]
        by_cases hab : a = b
        · simp [hab, ih]
        · simp [hab]

/-- How much of the lists agrees right before the two positions. -/
def run (a b : List α) (i j : ℕ) : ℕ := shared (a.take i).reverse (b.take j).reverse

theorem run_zero_left (a b : List α) (j : ℕ) : run a b 0 j = 0 := by
  simp [run, shared]

theorem run_zero_right (a b : List α) (i : ℕ) : run a b i 0 = 0 := by
  simp [run, shared_nil]

omit [DecidableEq α] in
theorem take_succ_of_drop {a as : List α} {i : ℕ} {c : α} (h : a.drop i = c :: as) :
    a.take (i + 1) = a.take i ++ [c] := by
  rw [List.take_add, h, List.take_succ_cons, List.take_zero]

/-- Past one more element of each the run goes on, or there is none. -/
theorem run_succ {a b as bs : List α} {i j : ℕ} {c d : α} (ha : a.drop i = c :: as)
    (hb : b.drop j = d :: bs) :
    run a b (i + 1) (j + 1) = if c = d then run a b i j + 1 else 0 := by
  rw [run, take_succ_of_drop ha, take_succ_of_drop hb, List.reverse_append, List.reverse_append]
  rfl

omit [DecidableEq α] in
theorem take_reverse_take {a : List α} {i l : ℕ} (hi : i ≤ a.length) (hl : l ≤ i) :
    (a.take i).reverse.take l = ((a.drop (i - l)).take l).reverse := by
  rw [List.take_reverse, List.length_take, Nat.min_eq_left hi, List.drop_take,
    Nat.sub_sub_self hl]

/-- The run is as long as the longest common block that ends at the positions. -/
theorem le_run_iff {a b : List α} {i j l : ℕ} (hi : i ≤ a.length) (hj : j ≤ b.length) :
    l ≤ run a b i j ↔
      l ≤ i ∧ l ≤ j ∧ (a.drop (i - l)).take l = (b.drop (j - l)).take l := by
  rw [run, le_shared_iff, List.length_reverse, List.length_reverse, List.length_take,
    List.length_take, Nat.min_eq_left hi, Nat.min_eq_left hj]
  constructor
  · rintro ⟨hli, hlj, hsame⟩
    rw [take_reverse_take hi hli, take_reverse_take hj hlj, List.reverse_inj] at hsame
    exact ⟨hli, hlj, hsame⟩
  · rintro ⟨hli, hlj, hsame⟩
    rw [take_reverse_take hi hli, take_reverse_take hj hlj, hsame]
    exact ⟨hli, hlj, rfl⟩

end SharedPrefix
end Munarium
