import Mathlib.Data.List.Pairwise
import Mathlib.Tactic.Common

/-! Spans that cover the marked positions of an interval, each of them once. -/
namespace Munarium

/-- From one position to another, a span starts at every marked position that no earlier one
covers. -/
inductive SpanCover (marked : ℕ → Prop) : ℕ → List (ℕ × ℕ) → ℕ → Prop
  | done (i : ℕ) : SpanCover marked i [] i
  | skip {i j : ℕ} {spans : List (ℕ × ℕ)} (h : ¬ marked i)
      (rest : SpanCover marked (i + 1) spans j) : SpanCover marked i spans j
  | take {a b j : ℕ} {spans : List (ℕ × ℕ)} (h : a < b) (rest : SpanCover marked b spans j) :
      SpanCover marked a ((a, b) :: spans) j

namespace SpanCover

/-- The position is in the span. -/
def holds (k : ℕ) (s : ℕ × ℕ) : Bool := decide (s.1 ≤ k ∧ k < s.2)

variable {marked : ℕ → Prop} {i j k : ℕ} {spans more : List (ℕ × ℕ)}

theorem single (h : i < j) : SpanCover marked i [(i, j)] j := .take h (.done j)

theorem append (h : SpanCover marked i spans j) (h' : SpanCover marked j more k) :
    SpanCover marked i (spans ++ more) k := by
  induction h with
  | done i => exact h'
  | skip hnot _ ih => exact .skip hnot (ih h')
  | take hlt _ ih => exact .take hlt (ih h')

theorem skips (hij : i ≤ j) (hnot : ∀ n, i ≤ n → n < j → ¬ marked n)
    (h : SpanCover marked j spans k) : SpanCover marked i spans k := by
  obtain ⟨d, rfl⟩ := Nat.exists_eq_add_of_le hij
  induction d with
  | zero => exact h
  | succ d ih =>
    have hlast : ¬ marked (i + d) := hnot (i + d) (by omega) (by omega)
    exact ih (by omega) (fun n hn hlt => hnot n hn (by omega)) (.skip hlast h)

theorem le (h : SpanCover marked i spans j) : i ≤ j := by
  induction h with
  | done i => exact Nat.le_refl i
  | skip _ _ ih => omega
  | take hlt _ ih => omega

/-- No span is empty or leaves the interval. -/
theorem bounds (h : SpanCover marked i spans j) :
    ∀ s ∈ spans, i ≤ s.1 ∧ s.1 < s.2 ∧ s.2 ≤ j := by
  induction h with
  | done i => intro s hs; cases hs
  | skip _ _ ih =>
    intro s hs
    have := ih s hs
    omega
  | take hlt rest ih =>
    intro s hs
    have hle := rest.le
    rcases List.mem_cons.mp hs with rfl | hs
    · exact ⟨Nat.le_refl _, hlt, hle⟩
    · have := ih s hs
      omega

theorem pairwise (h : SpanCover marked i spans j) :
    spans.Pairwise fun s t => s.2 ≤ t.1 := by
  induction h with
  | done i => exact List.Pairwise.nil
  | skip _ _ ih => exact ih
  | take hlt rest ih => exact List.pairwise_cons.mpr ⟨fun t ht => (rest.bounds t ht).1, ih⟩

theorem filter_before (h : SpanCover marked i spans j) (hk : k < i) :
    spans.filter (holds k) = [] := by
  refine List.filter_eq_nil_iff.mpr fun s hs hin => ?_
  have hb := h.bounds s hs
  have hin := of_decide_eq_true hin
  omega

/-- Every marked position is in one span and in no other. -/
theorem exactly_once (h : SpanCover marked i spans j) (hik : i ≤ k) (hkj : k < j)
    (hk : marked k) : ∃ s, spans.filter (holds k) = [s] := by
  induction h with
  | done i => omega
  | skip hnot _ ih =>
    refine ih ?_ hkj
    rcases Nat.eq_or_lt_of_le hik with rfl | hlt
    · exact absurd hk hnot
    · exact hlt
  | @take a b j spans hlt rest ih =>
    by_cases hb : k < b
    · refine ⟨(a, b), ?_⟩
      rw [List.filter_cons_of_pos (by simp [holds, hik, hb]), rest.filter_before hb]
    · rw [List.filter_cons_of_neg (by simp [holds, hb])]
      exact ih (by omega) hkj

/-- A cover seen in another unit, the positions of which are marked between no two of the old. -/
theorem map {unit : ℕ → ℕ} {marked' : ℕ → Prop} (h : SpanCover marked i spans j)
    (hmono : ∀ a b, a < b → b ≤ j → unit a < unit b)
    (hmarked : ∀ a n, a < j → unit a ≤ n → n < unit (a + 1) → marked' n → marked a) :
    SpanCover marked' (unit i) (spans.map fun s => (unit s.1, unit s.2)) (unit j) := by
  induction h with
  | done i => exact .done _
  | @skip i j spans hnot rest ih =>
    have hlt : i < j := Nat.lt_of_succ_le rest.le
    exact skips (Nat.le_of_lt (hmono i (i + 1) (Nat.lt_succ_self i) hlt))
      (fun n hn hlt' hm => hnot (hmarked i n hlt hn hlt' hm)) (ih hmono hmarked)
  | @take a b j spans hlt rest ih =>
    exact .take (hmono a b hlt rest.le) (ih hmono hmarked)

end SpanCover
end Munarium
