import Mathlib.Tactic.Common

/-! Computations that return, refuse, or fault, with the rules by which a postcondition is
carried through them. -/

/-- A computation that returns a value, refuses with an error, or faults (`none`). -/
abbrev Faulting (ε α : Type) := ExceptT ε Option α

namespace Faulting
variable {ε α β : Type}

def fault : Faulting ε α := ExceptT.mk none

/-- `Option::ok_or`. -/
def okOr (o : Option α) (e : ε) : Faulting ε α :=
  match o with
  | some a => pure a
  | none => throw e

def Returns (c : Faulting ε α) (a : α) : Prop := c.run = some (.ok a)

/-- The computation does not fault, and what it returns meets the postcondition. -/
def Safe (c : Faulting ε α) (post : α → Prop) : Prop :=
  ∃ r, c.run = some r ∧ ∀ a, r = .ok a → post a

theorem returns_pure (a : α) : Returns (pure a : Faulting ε α) a := rfl

theorem Returns.bind {c : Faulting ε α} {f : α → Faulting ε β} {a : α} {b : β}
    (hc : Returns c a) (hf : Returns (f a) b) : Returns (c >>= f) b := by
  unfold Returns at hc hf ⊢
  rw [ExceptT.run_bind, hc]
  exact hf

theorem safe_pure {a : α} {post : α → Prop} (h : post a) : Safe (pure a : Faulting ε α) post := by
  refine ⟨.ok a, rfl, fun b hb => ?_⟩
  cases hb
  exact h

theorem safe_throw (e : ε) (post : α → Prop) : Safe (throw e : Faulting ε α) post := by
  refine ⟨.error e, rfl, fun b hb => ?_⟩
  cases hb

theorem Safe.bind {c : Faulting ε α} {f : α → Faulting ε β} {mid : α → Prop} {post : β → Prop}
    (hc : Safe c mid) (hf : ∀ a, mid a → Safe (f a) post) : Safe (c >>= f) post := by
  obtain ⟨r, hr, hmid⟩ := hc
  cases r with
  | error e =>
    refine ⟨.error e, ?_, fun b hb => by cases hb⟩
    rw [ExceptT.run_bind, hr]
    rfl
  | ok a =>
    obtain ⟨q, hq, hpost⟩ := hf a (hmid a rfl)
    refine ⟨q, ?_, hpost⟩
    rw [ExceptT.run_bind, hr]
    exact hq

theorem safe_okOr (o : Option α) (e : ε) : Safe (okOr o e) fun a => o = some a := by
  cases o with
  | none => exact safe_throw e _
  | some a => exact safe_pure rfl

theorem returns_okOr {o : Option α} {a : α} (h : o = some a) (e : ε) : Returns (okOr o e) a := by
  rw [h]
  rfl

theorem Returns.safe {c : Faulting ε α} {a : α} (h : Returns c a) : Safe c (· = a) := by
  refine ⟨.ok a, h, fun b hb => ?_⟩
  cases hb
  rfl

theorem Safe.post {c : Faulting ε α} {a : α} {post : α → Prop} (h : Safe c post)
    (hr : Returns c a) : post a := by
  obtain ⟨r, hc, hpost⟩ := h
  rw [Returns, hc] at hr
  exact hpost a (Option.some.inj hr)

end Faulting
