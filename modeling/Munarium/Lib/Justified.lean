import Mathlib.Data.List.Basic

/-! Logs each of whose entries was justified by the entries before it. -/
namespace Munarium

inductive Justified {α : Type*} (ok : List α → α → Prop) : List α → Prop
  | nil : Justified ok []
  | snoc {log : List α} {e : α} : Justified ok log → ok log e → Justified ok (log ++ [e])

section
variable {α : Type*} {ok : List α → α → Prop} {log before after : List α} {e : α}

/-- Every entry is justified by what stands before it. -/
theorem Justified.split (h : Justified ok log) (hlog : log = before ++ e :: after) :
    ok before e := by
  induction h generalizing after with
  | nil =>
    have hlen := congrArg List.length hlog
    simp at hlen
  | @snoc log x _ hok ih =>
    rcases List.eq_nil_or_concat after with rfl | ⟨after', y, rfl⟩
    · obtain ⟨rfl, hx⟩ := List.append_inj' hlog rfl
      cases hx
      exact hok
    · rw [List.concat_eq_append, ← List.cons_append, ← List.append_assoc] at hlog
      exact ih (List.append_inj' hlog rfl).1

theorem Justified.of_mem (h : Justified ok log) (he : e ∈ log) :
    ∃ before after, log = before ++ e :: after ∧ ok before e := by
  obtain ⟨before, after, rfl⟩ := List.append_of_mem he
  exact ⟨before, after, rfl, h.split rfl⟩

/-- What joining says of the entries there before holds pairwise. -/
theorem Justified.pairwise {β : Type*} {f : α → Option β} {R : β → β → Prop}
    (h : Justified ok log) (hR : ∀ log e b, Justified ok log → ok log e → f e = some b →
      ∀ a ∈ log.filterMap f, R a b) : (log.filterMap f).Pairwise R := by
  induction h with
  | nil => exact .nil
  | @snoc log e hlog hok ih =>
    rw [List.filterMap_append]
    cases hf : f e with
    | none => simpa [hf] using ih
    | some b =>
      have hone : [e].filterMap f = [b] := by simp [hf]
      rw [hone, List.pairwise_append]
      refine ⟨ih, List.pairwise_singleton _ _, ?_⟩
      intro a ha y hy
      obtain rfl := List.mem_singleton.mp hy
      exact hR log e y hlog hok hf a ha

end
end Munarium
