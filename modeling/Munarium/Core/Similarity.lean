import Mathlib.Algebra.Order.Field.Rat
import Mathlib.Tactic.Linarith
import Munarium.Std.Text

/-! Ratcliff-Obershelp similarity: twice the matched characters over all characters,
matching the longest common block and recursing on both sides of it. -/
namespace Munarium.Similarity

/-- A common block: its start in the first text, in the second, and its length. -/
structure Block where
  aStart : ℕ
  bStart : ℕ
  len : ℕ
  deriving DecidableEq

/-- One row of the sweep: `prev` holds, for each prefix of `b`, the length of the
common suffix with the previous prefix of `a`. -/
def sweepRow (ca : Char) (i : ℕ) : ℕ → List Char → List ℕ → Block → List ℕ × Block
  | j, cb :: bs, p :: prev, best =>
      if ca = cb then
        let l := p + 1
        let best := if l > best.len then ⟨i + 1 - l, j + 1 - l, l⟩ else best
        let row := sweepRow ca i (j + 1) bs prev best
        (l :: row.1, row.2)
      else
        let row := sweepRow ca i (j + 1) bs prev best
        (0 :: row.1, row.2)
  | _, _, _, best => ([], best)

def sweep (b : List Char) : ℕ → List Char → List ℕ → Block → Block
  | _, [], _, best => best
  | i, ca :: as, prev, best =>
      let row := sweepRow ca i 0 b prev best
      sweep b (i + 1) as (0 :: row.1) row.2

/-- Longest common substring; a later block must be strictly longer to replace one. -/
def longestMatch (a b : List Char) : Block :=
  sweep b 0 a (List.replicate (b.length + 1) 0) ⟨0, 0, 0⟩

theorem sweepRow_bounds (ca : Char) {i n : ℕ} (hi : i < n) (j : ℕ) (bs : List Char)
    (prev : List ℕ) (best : Block) (hprev : ∀ p ∈ prev, p ≤ i)
    (hbest : best.aStart + best.len ≤ n) :
    (∀ l ∈ (sweepRow ca i j bs prev best).1, l ≤ i + 1) ∧
      (sweepRow ca i j bs prev best).2.aStart + (sweepRow ca i j bs prev best).2.len ≤ n := by
  induction bs generalizing j prev best with
  | nil => simpa [sweepRow] using hbest
  | cons cb bs ih =>
    cases prev with
    | nil => simpa [sweepRow] using hbest
    | cons p prev =>
      have hp : p ≤ i := hprev p List.mem_cons_self
      have htail : ∀ q ∈ prev, q ≤ i := fun q hq => hprev q (List.mem_cons_of_mem _ hq)
      unfold sweepRow
      split_ifs with hc
      · have hnew : (if p + 1 > best.len then (⟨i + 1 - (p + 1), j + 1 - (p + 1), p + 1⟩ : Block)
            else best).aStart + (if p + 1 > best.len then
              (⟨i + 1 - (p + 1), j + 1 - (p + 1), p + 1⟩ : Block) else best).len ≤ n := by
          split_ifs
          · simp only
            omega
          · exact hbest
        obtain ⟨hrow, hb⟩ := ih (j + 1) prev _ htail hnew
        refine ⟨fun l hl => ?_, hb⟩
        rcases List.mem_cons.mp hl with rfl | hl
        · omega
        · exact hrow l hl
      · obtain ⟨hrow, hb⟩ := ih (j + 1) prev best htail hbest
        refine ⟨fun l hl => ?_, hb⟩
        rcases List.mem_cons.mp hl with rfl | hl
        · omega
        · exact hrow l hl

theorem sweep_bounds (b as : List Char) (i n : ℕ) (prev : List ℕ) (best : Block)
    (hn : i + as.length = n) (hprev : ∀ p ∈ prev, p ≤ i)
    (hbest : best.aStart + best.len ≤ n) :
    (sweep b i as prev best).aStart + (sweep b i as prev best).len ≤ n := by
  induction as generalizing i prev best with
  | nil => exact hbest
  | cons ca as ih =>
    simp only [List.length_cons] at hn
    obtain ⟨hrow, hb⟩ := sweepRow_bounds ca (show i < n by omega) 0 b prev best
      hprev hbest
    refine ih (i + 1) _ _ (by omega) (fun p hp => ?_) hb
    rcases List.mem_cons.mp hp with rfl | hp
    · omega
    · exact hrow p hp

/-- The block lies inside the first text, so the recursion below ends. -/
theorem longestMatch_bounds (a b : List Char) :
    (longestMatch a b).aStart + (longestMatch a b).len ≤ a.length := by
  apply sweep_bounds b a 0 a.length _ _ (by omega)
  · intro p hp
    exact (List.eq_of_mem_replicate hp).le
  · simp

def matchingChars (a b : List Char) : ℕ :=
  if a.isEmpty || b.isEmpty then 0
  else
    let m := longestMatch a b
    if hlen : m.len = 0 then 0
    else
      m.len + matchingChars (a.take m.aStart) (b.take m.bStart) +
        matchingChars (a.drop (m.aStart + m.len)) (b.drop (m.bStart + m.len))
termination_by a.length
decreasing_by
  all_goals
    have hb := longestMatch_bounds a b
    change ¬(longestMatch a b).len = 0 at hlen
    simp only [List.length_take, List.length_drop]
    omega

/-- The source divides two `f64`s; the exact quotient compares with the threshold the
same way for texts of fewer than 2^48 characters. -/
def similarityRatio [Unicode] (a b : String) : ℚ :=
  let a := (toLowercase a).toList
  let b := (toLowercase b).toList
  let total := a.length + b.length
  if total = 0 then 1 else (2 * matchingChars a b : ℕ) / (total : ℕ)

end Munarium.Similarity
