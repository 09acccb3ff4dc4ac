import Mathlib.Data.Prod.Lex
import Mathlib.Data.List.Induction

/-! The first of the greatest elements of a list, as a scan finds it that gives up what it has
only for something greater. -/
namespace Munarium

namespace FirstMax
variable {α : Type*} {size : α → ℕ}

def keep (size : α → ℕ) (best a : α) : α := if size best < size a then a else best

/-- Nothing is greater, and what comes earlier is smaller. -/
structure IsFirstMax (size : α → ℕ) (start : α) (l : List α) (best : α) : Prop where
  base : size start ≤ size best
  greatest : ∀ a ∈ l, size a ≤ size best
  place : best = start ∨ size start < size best ∧ ∃ before after, l = before ++ best :: after ∧
    ∀ a ∈ before, size a < size best

theorem foldl_keep (start : α) (l : List α) :
    IsFirstMax size start l (l.foldl (keep size) start) := by
  induction l using List.reverseRecOn with
  | nil => exact ⟨le_rfl, by simp, .inl rfl⟩
  | append_singleton l a ih =>
    rw [List.foldl_append, List.foldl_cons, List.foldl_nil]
    by_cases hlt : size (l.foldl (keep size) start) < size a
    · rw [keep, if_pos hlt]
      refine ⟨ih.base.trans hlt.le, ?_, .inr ⟨ih.base.trans_lt hlt, l, [], rfl, ?_⟩⟩
      · intro c hc
        rcases List.mem_append.mp hc with hc | hc
        · exact (ih.greatest c hc).trans hlt.le
        · exact (congrArg size (List.mem_singleton.mp hc)).le
      · exact fun c hc => (ih.greatest c hc).trans_lt hlt
    · rw [keep, if_neg hlt]
      refine ⟨ih.base, ?_, ?_⟩
      · intro c hc
        rcases List.mem_append.mp hc with hc | hc
        · exact ih.greatest c hc
        · rw [List.mem_singleton.mp hc]
          exact Nat.le_of_not_lt hlt
      · rcases ih.place with hstart | ⟨hpast, before, after, hl, hbefore⟩
        · exact .inl hstart
        · refine .inr ⟨hpast, before, after ++ [a], ?_, hbefore⟩
          rw [← List.cons_append, ← List.append_assoc, ← hl]

/-- Over values that are taken from keys in ascending order, the scan ends with the value of the
least key among those of the greatest values. -/
theorem IsFirstMax.least {κ : Type*} [LinearOrder κ] {f : κ → α} {keys : List κ} {start best : α}
    (h : IsFirstMax size start (keys.map f) best) (hkeys : keys.Pairwise (· < ·))
    (hbest : best ≠ start) : size start < size best ∧ ∃ k ∈ keys, best = f k ∧
      ∀ k' ∈ keys, size (f k') = size best → k ≤ k' := by
  obtain ⟨hpast, before, after, hsplit, hbefore⟩ := h.place.resolve_left hbest
  obtain ⟨first, rest, rfl, rfl, hrest⟩ := List.map_eq_append_iff.mp hsplit
  obtain ⟨k, last, rfl, rfl, rfl⟩ := List.map_eq_cons_iff.mp hrest
  refine ⟨hpast, k, by simp, rfl, ?_⟩
  intro k' hk' hsize
  obtain ⟨-, hafter, -⟩ := List.pairwise_append.mp hkeys
  rcases List.mem_append.mp hk' with hk' | hk'
  · have hlt := hbefore (f k') (List.mem_map_of_mem hk')
    omega
  · rcases List.mem_cons.mp hk' with rfl | hk'
    · exact le_rfl
    · exact ((List.pairwise_cons.mp hafter).1 k' hk').le

end FirstMax
end Munarium
