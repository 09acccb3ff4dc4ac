import Mathlib.Data.List.ProdSigma
import Munarium.Core.Similarity
import Munarium.Lib.FirstMax
import Munarium.Lib.SharedPrefix

/-! The longest common block: the sweep holds, for each position of the second text, how much
agrees before it and before its own position in the first, and keeps the first longest block. -/
namespace Munarium

namespace Similarity
open SharedPrefix FirstMax

/-- A block that stands in both texts. -/
structure Common (a b : List Char) (m : Block) : Prop where
  inFirst : m.aStart + m.len ≤ a.length
  inSecond : m.bStart + m.len ≤ b.length
  same : (a.drop m.aStart).take m.len = (b.drop m.bStart).take m.len

/-- No common block is longer, and each as long comes later in the first text, or no earlier in the
second. -/
structure FirstLongest (a b : List Char) (m : Block) : Prop where
  common : Common a b m
  longest : ∀ c, Common a b c → c.len ≤ m.len
  earliest : ∀ c, Common a b c → c.len = m.len →
    toLex (m.aStart, m.bStart) ≤ toLex (c.aStart, c.bStart)

theorem FirstLongest.unique {a b : List Char} {m m' : Block} (h : FirstLongest a b m)
    (h' : FirstLongest a b m') : m = m' := by
  have hlen : m.len = m'.len := le_antisymm (h'.longest m h.common) (h.longest m' h'.common)
  have hstart : toLex (m.aStart, m.bStart) = toLex (m'.aStart, m'.bStart) :=
    le_antisymm (h.earliest m' h'.common hlen.symm) (h'.earliest m h.common hlen)
  obtain ⟨ha, hb⟩ := Prod.mk.inj (toLex_inj.mp hstart)
  cases m
  cases m'
  simp_all

section Sweep
variable {a b : List Char}

/-- The longest common block that ends before the two positions. -/
def blockAt (a b : List Char) (i j : ℕ) : Block := ⟨i - run a b i j, j - run a b i j, run a b i j⟩

/-- The ends of blocks in the order of the sweep. -/
def ends (a b : List Char) : List (ℕ ×ₗ ℕ) :=
  (List.range' 1 a.length).flatMap fun i => (List.range' 1 b.length).map fun j => toLex (i, j)

def endsAt (a b : List Char) (e : ℕ ×ₗ ℕ) : Block := blockAt a b (ofLex e).1 (ofLex e).2

/-- One row of the sweep turns the runs before a letter into those past it, and looks at the blocks
that end with it. -/
theorem sweepRow_eq {ca : Char} {as bs : List Char} {i j : ℕ} (ha : a.drop i = ca :: as)
    (hb : b.drop j = bs) (best : Block) :
    sweepRow ca i j bs ((List.range' j (bs.length + 1)).map (run a b i)) best =
      ((List.range' (j + 1) bs.length).map (run a b (i + 1)),
        ((List.range' (j + 1) bs.length).map (blockAt a b (i + 1))).foldl (keep Block.len)
          best) := by
  induction bs generalizing j best with
  | nil => rfl
  | cons cb bs ih =>
    have hrun := run_succ ha hb
    have hrest : b.drop (j + 1) = bs := by
      rw [← List.drop_drop, hb, List.drop_succ_cons, List.drop_zero]
    rw [List.length_cons, List.range'_succ, List.map_cons, sweepRow]
    by_cases hc : ca = cb
    · rw [if_pos hc] at hrun
      have hkeep : (if run a b i j + 1 > best.len then
          (⟨i + 1 - (run a b i j + 1), j + 1 - (run a b i j + 1), run a b i j + 1⟩ : Block)
          else best) = keep Block.len best (blockAt a b (i + 1) (j + 1)) := by
        rw [keep, blockAt, hrun]
      simp only [if_pos hc, hkeep, ih hrest]
      rw [List.range'_succ, List.map_cons, List.map_cons, List.foldl_cons, hrun]
    · rw [if_neg hc] at hrun
      have hkeep : keep Block.len best (blockAt a b (i + 1) (j + 1)) = best := by
        rw [keep, blockAt, hrun]
        exact if_neg (Nat.not_lt_zero _)
      simp only [if_neg hc, ih hrest]
      rw [List.range'_succ, List.map_cons, List.map_cons, List.foldl_cons, hrun, hkeep]

theorem sweep_eq {as : List Char} {i : ℕ} (ha : a.drop i = as) (best : Block) :
    sweep b i as ((List.range' 0 (b.length + 1)).map (run a b i)) best =
      (((List.range' (i + 1) as.length).flatMap fun i =>
        (List.range' 1 b.length).map (blockAt a b i))).foldl (keep Block.len) best := by
  induction as generalizing i best with
  | nil => rfl
  | cons ca as ih =>
    have hrest : a.drop (i + 1) = as := by
      rw [← List.drop_drop, ha, List.drop_succ_cons, List.drop_zero]
    have hnext : 0 :: (List.range' 1 b.length).map (run a b (i + 1)) =
        (List.range' 0 (b.length + 1)).map (run a b (i + 1)) := by
      rw [List.range'_succ, List.map_cons, run_zero_right]
    rw [sweep, sweepRow_eq ha List.drop_zero best, hnext, ih hrest, List.length_cons,
      List.range'_succ, List.flatMap_cons, List.foldl_append]

/-- The sweep keeps the first longest of the blocks at all ends. -/
theorem longestMatch_eq (a b : List Char) :
    longestMatch a b = ((ends a b).map (endsAt a b)).foldl (keep Block.len) ⟨0, 0, 0⟩ := by
  have hstart : List.replicate (b.length + 1) 0 =
      (List.range' 0 (b.length + 1)).map (run a b 0) := by
    rw [eq_comm, List.eq_replicate_iff]
    refine ⟨by simp, ?_⟩
    intro n hn
    obtain ⟨j, -, rfl⟩ := List.mem_map.mp hn
    exact run_zero_left a b j
  rw [longestMatch, hstart, sweep_eq List.drop_zero, ends, List.map_flatMap]
  simp only [List.map_map]
  rfl

theorem mem_ends {i j : ℕ} : toLex (i, j) ∈ ends a b ↔
    (1 ≤ i ∧ i ≤ a.length) ∧ 1 ≤ j ∧ j ≤ b.length := by
  unfold ends
  simp only [List.mem_flatMap, List.mem_map, List.mem_range'_1, toLex_inj, Prod.mk.injEq]
  constructor
  · rintro ⟨i', hi, j', hj, rfl, rfl⟩
    omega
  · rintro ⟨hi, hj⟩
    exact ⟨i, by omega, j, by omega, rfl, rfl⟩

theorem ends_ascending (a b : List Char) : (ends a b).Pairwise (· < ·) := by
  rw [ends, List.pairwise_flatMap]
  constructor
  · intro i _
    rw [List.pairwise_map]
    apply (List.pairwise_lt_range' (s := 1)).imp
    intro j j' hj
    exact Prod.Lex.toLex_lt_toLex.mpr (.inr ⟨rfl, hj⟩)
  · apply (List.pairwise_lt_range' (s := 1)).imp
    intro i i' hi x hx y hy
    obtain ⟨j, -, rfl⟩ := List.mem_map.mp hx
    obtain ⟨j', -, rfl⟩ := List.mem_map.mp hy
    exact Prod.Lex.toLex_lt_toLex.mpr (.inl hi)

/-- What ends at two positions is a common block. -/
theorem blockAt_common {i j : ℕ} (hi : i ≤ a.length) (hj : j ≤ b.length) :
    Common a b (blockAt a b i j) := by
  obtain ⟨hli, hlj, hsame⟩ := (le_run_iff hi hj).mp le_rfl
  refine ⟨?_, ?_, hsame⟩
  · simp only [blockAt]
    omega
  · simp only [blockAt]
    omega

theorem Common.le_run {m : Block} (h : Common a b m) :
    m.len ≤ run a b (m.aStart + m.len) (m.bStart + m.len) := by
  rw [le_run_iff h.inFirst h.inSecond, Nat.add_sub_cancel, Nat.add_sub_cancel]
  exact ⟨Nat.le_add_left _ _, Nat.le_add_left _ _, h.same⟩

/-- The sweep finds the first longest common block. -/
theorem longestMatch_firstLongest (a b : List Char) : FirstLongest a b (longestMatch a b) := by
  have hmax : IsFirstMax Block.len ⟨0, 0, 0⟩ ((ends a b).map (endsAt a b)) (longestMatch a b) := by
    rw [longestMatch_eq]
    exact foldl_keep _ _
  have hreached {c : Block} (hc : Common a b c) (hpos : 0 < c.len) :
      toLex (c.aStart + c.len, c.bStart + c.len) ∈ ends a b := by
    have hfirst := hc.inFirst
    have hsecond := hc.inSecond
    exact mem_ends.mpr ⟨by omega, by omega⟩
  have hbound {c : Block} (hc : Common a b c) (hpos : 0 < c.len) :
      run a b (c.aStart + c.len) (c.bStart + c.len) ≤ (longestMatch a b).len :=
    hmax.greatest _ (List.mem_map_of_mem (hreached hc hpos))
  have hlongest : ∀ c, Common a b c → c.len ≤ (longestMatch a b).len := by
    intro c hc
    rcases Nat.eq_zero_or_pos c.len with hzero | hpos
    · omega
    · exact hc.le_run.trans (hbound hc hpos)
  by_cases hnone : longestMatch a b = ⟨0, 0, 0⟩
  · refine ⟨?_, hlongest, ?_⟩
    · rw [hnone]
      exact ⟨Nat.zero_le _, Nat.zero_le _, rfl⟩
    · intro c _ _
      rw [hnone, Prod.Lex.toLex_le_toLex]
      simp only
      omega
  · obtain ⟨hsome, e, he, hblock, hleast⟩ := hmax.least (ends_ascending a b) hnone
    obtain ⟨i, j⟩ := e
    obtain ⟨⟨-, hi⟩, -, hj⟩ := mem_ends.mp he
    change longestMatch a b = blockAt a b i j at hblock
    have hcommon : Common a b (longestMatch a b) := by
      rw [hblock]
      exact blockAt_common hi hj
    refine ⟨hcommon, hlongest, ?_⟩
    intro c hc hlen
    have hpos : 0 < c.len := hlen ▸ hsome
    have hrun : run a b (c.aStart + c.len) (c.bStart + c.len) = (longestMatch a b).len :=
      le_antisymm (hbound hc hpos) (hlen ▸ hc.le_run)
    have hle := hleast _ (hreached hc hpos) hrun
    obtain ⟨hrunFirst, hrunSecond, -⟩ := (le_run_iff hi hj).mp le_rfl
    have hfirst : (longestMatch a b).aStart = i - run a b i j := congrArg Block.aStart hblock
    have hsecond : (longestMatch a b).bStart = j - run a b i j := congrArg Block.bStart hblock
    have hlength : (longestMatch a b).len = run a b i j := congrArg Block.len hblock
    change toLex (i, j) ≤ _ at hle
    rw [Prod.Lex.toLex_le_toLex] at hle ⊢
    simp only at hle ⊢
    omega

end Sweep

end Similarity
end Munarium
