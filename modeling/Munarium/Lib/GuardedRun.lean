import Mathlib.Logic.Basic

/-! Runs of a machine over labels, under a condition that each step of the run meets. -/
namespace Munarium

/-- States reached from `s₀` by labels that meet `ok` where they are taken. -/
inductive Reached {σ ε : Type*} (step : σ → ε → σ) (ok : σ → ε → Prop) (s₀ : σ) : σ → Prop
  | start : Reached step ok s₀ s₀
  | next {s : σ} {e : ε} (h : Reached step ok s₀ s) (he : ok s e) : Reached step ok s₀ (step s e)

/-- Every label is met. -/
def anyLabel {σ ε : Type*} : σ → ε → Prop := fun _ _ => True

/-- Each label meets the condition in the state where it is taken. -/
def Meets {σ ε : Type*} (step : σ → ε → σ) (ok : σ → ε → Prop) : σ → List ε → Prop
  | _, [] => True
  | s, e :: rest => ok s e ∧ Meets step ok (step s e) rest

section
variable {σ ε : Type*} {step : σ → ε → σ} {ok : σ → ε → Prop} {s₀ s : σ}

instance meetsDecidable [∀ s e, Decidable (ok s e)] :
    ∀ (s : σ) (labels : List ε), Decidable (Meets step ok s labels)
  | _, [] => .isTrue trivial
  | s, e :: rest =>
    have := meetsDecidable (step s e) rest
    inferInstanceAs (Decidable (ok s e ∧ Meets step ok (step s e) rest))

/-- What the start has and every allowed step keeps, every reached state has. -/
theorem Reached.invariant {I : σ → Prop} (hstart : I s₀)
    (hstep : ∀ s e, I s → ok s e → I (step s e)) (h : Reached step ok s₀ s) : I s := by
  induction h with
  | start => exact hstart
  | next _ he ih => exact hstep _ _ ih he

/-- A run from a reached state continues the run that reached it. -/
theorem Reached.append {labels : List ε} (h : Reached step ok s₀ s)
    (hmeets : Meets step ok s labels) : Reached step ok s₀ (labels.foldl step s) := by
  induction labels generalizing s with
  | nil => exact h
  | cons e rest ih => exact ih (h.next hmeets.1) hmeets.2

theorem Reached.of_meets {labels : List ε} (hmeets : Meets step ok s₀ labels) :
    Reached step ok s₀ (labels.foldl step s₀) :=
  Reached.start.append hmeets

theorem Reached.of_labels (step : σ → ε → σ) (s₀ : σ) (labels : List ε) :
    Reached step anyLabel s₀ (labels.foldl step s₀) := by
  apply Reached.of_meets
  induction labels generalizing s₀ with
  | nil => trivial
  | cons e rest ih => exact ⟨trivial, ih (step s₀ e)⟩

end
end Munarium
