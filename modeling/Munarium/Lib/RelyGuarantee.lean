import Mathlib.Data.Nat.Notation
import Mathlib.Logic.Function.Iterate
import Mathlib.Logic.Relation
import Mathlib.Order.Basic
import Mathlib.Tactic.SplitIfs

/-! Programs that share one state and interleave at their atomic steps, with a
rely-guarantee logic: what a program promises whatever the others do within their bounds. -/
namespace Munarium

/-- A finite tree of atomic steps on a shared state, ending in an answer. -/
inductive Shared (σ α : Type) where
  | done (a : α)
  | step (f : σ → σ) (next : σ → Shared σ α)

namespace Shared
variable {σ α β : Type}

/-- One atomic operation and what its outcome leads to. -/
def call (f : σ → β × σ) (next : β → Shared σ α) : Shared σ α :=
  .step (fun s => (f s).2) fun s => next (f s).1

/-- An operation that only reads. -/
def read (f : σ → β) (next : β → Shared σ α) : Shared σ α := .step id fun s => next (f s)

def bind (k : α → Shared σ β) : Shared σ α → Shared σ β
  | .done a => k a
  | .step f next => .step f fun s => (next s).bind k

/-- The answer under another name. -/
def map (f : α → β) (p : Shared σ α) : Shared σ β := p.bind fun a => .done (f a)

/-- At most so many steps: a program that is dropped before its answer gives none. -/
def cut : ℕ → Shared σ α → Shared σ (Option α)
  | _, .done a => .done (some a)
  | 0, .step _ _ => .done none
  | n + 1, .step f next => .step f fun s => (next s).cut n

/-- While the others stay within `R`, every step is within `G` and the answer meets `Q`. -/
def Ensures (R G : σ → σ → Prop) (Q : α → σ → Prop) : Shared σ α → σ → Prop
  | .done a, s => ∀ s', R s s' → Q a s'
  | .step f next, s => ∀ s', R s s' → G s' (f s') ∧ (next s').Ensures R G Q (f s')

section
variable {R G G' : σ → σ → Prop} {Q Q' : α → σ → Prop}

/-- What others do within the rely does not spoil a promise. -/
theorem Ensures.later (htrans : ∀ s t u, R s t → R t u → R s u) {p : Shared σ α} {s t : σ}
    (h : p.Ensures R G Q s) (hst : R s t) : p.Ensures R G Q t := by
  cases p with
  | done a => exact fun u htu => h u (htrans s t u hst htu)
  | step f next => exact fun u htu => h u (htrans s t u hst htu)

theorem Ensures.weaken {p : Shared σ α} {s : σ} (h : p.Ensures R G Q s)
    (hG : ∀ s s', G s s' → G' s s') (hQ : ∀ a s, Q a s → Q' a s) : p.Ensures R G' Q' s := by
  induction p generalizing s with
  | done a => exact fun u hu => hQ a u (h u hu)
  | step f next ih =>
    intro u hu
    obtain ⟨hstep, hrest⟩ := h u hu
    exact ⟨hG _ _ hstep, ih u hrest⟩

/-- A promise stands if the others do less. -/
theorem Ensures.rely {R' : σ → σ → Prop} (hR : ∀ s t, R' s t → R s t) {p : Shared σ α} {s : σ}
    (h : p.Ensures R G Q s) : p.Ensures R' G Q s := by
  induction p generalizing s with
  | done a => exact fun u hu => h u (hR s u hu)
  | step f next ih =>
    intro u hu
    obtain ⟨hstep, hrest⟩ := h u (hR s u hu)
    exact ⟨hstep, ih u hrest⟩

/-- What everybody keeps still holds at the answer. -/
theorem Ensures.kept {I : σ → Prop} (hkeeps : ∀ s t, I s → R s t → I t)
    (hG : ∀ s t, G s t → R s t) {p : Shared σ α} {s : σ} (hs : I s) (h : p.Ensures R G Q s) :
    p.Ensures R G (fun a t => Q a t ∧ I t) s := by
  induction p generalizing s with
  | done a => exact fun u hu => ⟨h u hu, hkeeps s u hs hu⟩
  | step f next ih =>
    intro u hu
    obtain ⟨hstep, hrest⟩ := h u hu
    have hu' := hkeeps s u hs hu
    exact ⟨hstep, ih u (hkeeps u _ hu' (hG _ _ hstep)) hrest⟩

/-- Sequencing: the second program starts where the first one answers. -/
theorem Ensures.bind (hrefl : ∀ s, R s s) {p : Shared σ α} {k : α → Shared σ β}
    {P : β → σ → Prop} {s : σ} (h : p.Ensures R G (fun a t => (k a).Ensures R G P t) s) :
    (p.bind k).Ensures R G P s := by
  induction p generalizing s with
  | done a => exact h s (hrefl s)
  | step f next ih =>
    intro u hu
    obtain ⟨hstep, hrest⟩ := h u hu
    exact ⟨hstep, ih u hrest⟩

theorem Ensures.map {f : α → β} {p : Shared σ α} {P : β → σ → Prop} {s : σ}
    (h : p.Ensures R G (fun a t => P (f a) t) s) : (p.map f).Ensures R G P s := by
  induction p generalizing s with
  | done a => exact h
  | step g next ih =>
    intro u hu
    obtain ⟨hstep, hrest⟩ := h u hu
    exact ⟨hstep, ih u hrest⟩

/-- A program that is dropped has kept its promises so far. -/
theorem Ensures.cut {p : Shared σ α} {s : σ} (h : p.Ensures R G Q s) (n : ℕ) :
    (p.cut n).Ensures R G (fun a t => ∀ b, a = some b → Q b t) s := by
  induction p generalizing s n with
  | done a =>
    have hdone : (Shared.done a : Shared σ α).cut n = .done (some a) := by cases n <;> rfl
    rw [hdone]
    rintro u hu _ ⟨⟩
    exact h u hu
  | step f next ih =>
    cases n with
    | zero => exact fun _ _ _ hnone => nomatch hnone
    | succ n =>
      intro u hu
      obtain ⟨hstep, hrest⟩ := h u hu
      exact ⟨hstep, ih u hrest n⟩

theorem ensures_read (hG : ∀ s, G s s) {f : σ → β} {next : β → Shared σ α} {s : σ}
    (h : ∀ t, R s t → (next (f t)).Ensures R G Q t) : (read f next).Ensures R G Q s :=
  fun t ht => ⟨hG t, h t ht⟩

theorem ensures_ite {c : Prop} [Decidable c] {p q : Shared σ α} {s : σ}
    (hp : c → p.Ensures R G Q s) (hq : ¬ c → q.Ensures R G Q s) :
    (if c then p else q).Ensures R G Q s := by
  split_ifs with hc
  · exact hp hc
  · exact hq hc

theorem ensures_call {f : σ → β × σ} {next : β → Shared σ α} {s : σ}
    (h : ∀ t, R s t → G t (f t).2 ∧ (next (f t).1).Ensures R G Q (f t).2) :
    (call f next).Ensures R G Q s := h

end

/-- Every step keeps the state up to `W`, but for a last step with an answer in `A`. -/
def ChangesWith (W : σ → σ → Prop) (A : α → Prop) : Shared σ α → Prop
  | .done _ => True
  | .step f next => ∀ s, (W s (f s) ∨ ∃ a, next s = .done a ∧ A a) ∧
      (next s).ChangesWith W A

section
variable {W : σ → σ → Prop} {A : α → Prop}

theorem changesWith_read (hW : ∀ s, W s s) {f : σ → β} {next : β → Shared σ α}
    (h : ∀ b, (next b).ChangesWith W A) : (read f next).ChangesWith W A :=
  fun s => ⟨.inl (hW s), h (f s)⟩

theorem changesWith_call {f : σ → β × σ} {next : β → Shared σ α}
    (h : ∀ s, (W s (f s).2 ∨ ∃ a, next (f s).1 = .done a ∧ A a) ∧
      (next (f s).1).ChangesWith W A) : (call f next).ChangesWith W A := h

theorem ChangesWith.weaken {A' : α → Prop} {p : Shared σ α} (h : p.ChangesWith W A)
    (hA : ∀ a, A a → A' a) : p.ChangesWith W A' := by
  induction p with
  | done a => trivial
  | step f next ih =>
    intro s
    obtain ⟨hstep, hrest⟩ := h s
    refine ⟨hstep.imp_right ?_, ih s hrest⟩
    rintro ⟨a, hanswer, ha⟩
    exact ⟨a, hanswer, hA a ha⟩

/-- Sequencing: the first program's own last step has to keep the state too. -/
theorem ChangesWith.bind {p : Shared σ β} {k : β → Shared σ α}
    (hp : p.ChangesWith W fun _ => False) (hk : ∀ b, (k b).ChangesWith W A) :
    (p.bind k).ChangesWith W A := by
  induction p with
  | done b => exact hk b
  | step f next ih =>
    intro s
    obtain ⟨hstep, hrest⟩ := hp s
    rcases hstep with hstep | ⟨_, _, hno⟩
    · exact ⟨.inl hstep, ih s hrest⟩
    · exact hno.elim

theorem ChangesWith.map {f : β → α} {p : Shared σ β} (h : p.ChangesWith W fun b => A (f b)) :
    (p.map f).ChangesWith W A := by
  induction p with
  | done b => trivial
  | step g next ih =>
    intro s
    obtain ⟨hstep, hrest⟩ := h s
    refine ⟨?_, ih s hrest⟩
    rcases hstep with hkeep | ⟨b, hb, hanswer⟩
    · exact .inl hkeep
    · exact .inr ⟨f b, by simp only [hb, Shared.bind], hanswer⟩

end

/-- While the others stay within `R`, an answer in `A` comes only after a step in `C`. -/
def Commits (R C : σ → σ → Prop) (A : α → Prop) : Shared σ α → σ → Prop
  | .done a, _ => ¬ A a
  | .step f next, s => ∀ t, R s t → C t (f t) ∨ (next t).Commits R C A (f t)

section
variable {R C : σ → σ → Prop} {A : α → Prop}

theorem Commits.later (htrans : ∀ s t u, R s t → R t u → R s u) {p : Shared σ α} {s t : σ}
    (h : p.Commits R C A s) (hst : R s t) : p.Commits R C A t := by
  cases p with
  | done a => exact h
  | step f next => exact fun u htu => h u (htrans s t u hst htu)

theorem commits_never (hA : ∀ a, ¬ A a) (p : Shared σ α) (s : σ) : p.Commits R C A s := by
  induction p generalizing s with
  | done a => exact hA a
  | step f next ih => exact fun t _ => .inr (ih t _)

end

/-- Steps that leave the state as it is, up to a last one in `C` with an answer in `A`; without
that one there is no such answer. -/
def Atomic (R C : σ → σ → Prop) (A : α → Prop) : Shared σ α → σ → Prop
  | .done a, _ => ¬ A a
  | .step f next, s => ∀ t, R s t → (f t = t ∧ (next t).Atomic R C A t) ∨
      C t (f t) ∧ ∃ a, next t = .done a ∧ A a

section
variable {R C : σ → σ → Prop} {A : α → Prop}

theorem Atomic.later (htrans : ∀ s t u, R s t → R t u → R s u) {p : Shared σ α} {s t : σ}
    (h : p.Atomic R C A s) (hst : R s t) : p.Atomic R C A t := by
  cases p with
  | done a => exact h
  | step f next => exact fun u htu => h u (htrans s t u hst htu)

theorem Atomic.weaken {C' : σ → σ → Prop} (hC : ∀ s t, C s t → C' s t) {p : Shared σ α} {s : σ}
    (h : p.Atomic R C A s) : p.Atomic R C' A s := by
  induction p generalizing s with
  | done a => exact h
  | step f next ih =>
    intro t ht
    rcases h t ht with ⟨hsame, hrest⟩ | ⟨hstep, hanswer⟩
    · exact .inl ⟨hsame, ih t hrest⟩
    · exact .inr ⟨hC _ _ hstep, hanswer⟩

/-- What everybody keeps holds where the step is made. -/
theorem Atomic.kept {I : σ → Prop} (hkeeps : ∀ s t, I s → R s t → I t) {p : Shared σ α} {s : σ}
    (hs : I s) (h : p.Atomic R C A s) : p.Atomic R (fun t u => I t ∧ C t u) A s := by
  induction p generalizing s with
  | done a => exact h
  | step f next ih =>
    intro t ht
    have hI := hkeeps s t hs ht
    rcases h t ht with ⟨hsame, hrest⟩ | ⟨hstep, hanswer⟩
    · exact .inl ⟨hsame, ih t hI hrest⟩
    · exact .inr ⟨⟨hI, hstep⟩, hanswer⟩

theorem Atomic.commits {p : Shared σ α} {s : σ} (h : p.Atomic R C A s) : p.Commits R C A s := by
  induction p generalizing s with
  | done a => exact h
  | step f next ih =>
    intro t ht
    rcases h t ht with ⟨hsame, hrest⟩ | ⟨hstep, -⟩
    · rw [hsame]
      exact .inr (ih t hrest)
    · exact .inl hstep

theorem atomic_read {f : σ → β} {next : β → Shared σ α} {s : σ}
    (h : ∀ t, R s t → (next (f t)).Atomic R C A t) : (read f next).Atomic R C A s :=
  fun t ht => .inl ⟨rfl, h t ht⟩

theorem atomic_call {f : σ → β × σ} {next : β → Shared σ α} {s : σ}
    (h : ∀ t, R s t → ((f t).2 = t ∧ (next (f t).1).Atomic R C A t) ∨
      C t (f t).2 ∧ ∃ a, next (f t).1 = .done a ∧ A a) : (call f next).Atomic R C A s := h

theorem atomic_ite {c : Prop} [Decidable c] {p q : Shared σ α} {s : σ}
    (hp : c → p.Atomic R C A s) (hq : ¬ c → q.Atomic R C A s) :
    (if c then p else q).Atomic R C A s := by
  split_ifs with hc
  · exact hp hc
  · exact hq hc

theorem Atomic.map {f : β → α} {p : Shared σ β} {s : σ}
    (h : p.Atomic R C (fun b => A (f b)) s) : (p.map f).Atomic R C A s := by
  induction p generalizing s with
  | done b => exact h
  | step g next ih =>
    intro t ht
    rcases h t ht with ⟨hsame, hrest⟩ | ⟨hstep, b, hb, hanswer⟩
    · exact .inl ⟨hsame, ih t hrest⟩
    · exact .inr ⟨hstep, f b, by simp only [hb, Shared.bind], hanswer⟩

end
end Shared

/-- Requests in flight on one state, each with what is left of its program. -/
structure Pool (σ ρ α : Type) where
  state : σ
  calls : List (ρ × Shared σ α) := []

namespace Pool
variable {σ ρ α : Type}

inductive Event (σ ρ : Type) where
  | start (r : ρ)
  | advance (i : ℕ)
  | outside (f : σ → σ)

/-- Call `i` makes its next step; an answered call makes none. -/
def advance (g : Pool σ ρ α) (i : ℕ) : Pool σ ρ α :=
  match g.calls[i]? with
  | some (r, .step f next) =>
      { state := f g.state, calls := g.calls.set i (r, next g.state) }
  | _ => g

def step (program : ρ → Shared σ α) (g : Pool σ ρ α) : Event σ ρ → Pool σ ρ α
  | .start r => { g with calls := g.calls ++ [(r, program r)] }
  | .advance i => g.advance i
  | .outside f => { g with state := f g.state }

/-- A run whose surroundings make only moves in `O`. -/
def Run (program : ρ → Shared σ α) (O : (σ → σ) → Prop) :
    Pool σ ρ α → Pool σ ρ α → Prop :=
  Relation.ReflTransGen fun g g' => ∃ e, (∀ f, e = .outside f → O f) ∧ g' = g.step program e

/-- The events of a run, one after the other. -/
def play (program : ρ → Shared σ α) (g : Pool σ ρ α) (events : List (Event σ ρ)) : Pool σ ρ α :=
  events.foldl (step program) g

theorem play_cons (program : ρ → Shared σ α) (g : Pool σ ρ α) (e : Event σ ρ)
    (events : List (Event σ ρ)) :
    g.play program (e :: events) = (g.step program e).play program events := rfl

theorem Run.of_play (program : ρ → Shared σ α) {O : (σ → σ) → Prop} (g : Pool σ ρ α)
    (events : List (Event σ ρ)) (h : ∀ f, .outside f ∈ events → O f) :
    Run program O g (g.play program events) := by
  induction events generalizing g with
  | nil => exact .refl
  | cons e rest ih =>
    have hrest := ih (g.step program e) fun f hf => h f (List.mem_cons_of_mem _ hf)
    exact hrest.head ⟨e, fun f hf => h f (hf ▸ List.mem_cons_self), rfl⟩

theorem advance_cases (g : Pool σ ρ α) (i : ℕ) :
    g.advance i = g ∨ ∃ r f next, g.calls[i]? = some (r, .step f next) ∧
      g.advance i = { state := f g.state, calls := g.calls.set i (r, next g.state) } := by
  unfold advance
  split
  · rename_i r f next hcall
    exact .inr ⟨r, f, next, hcall, rfl⟩
  · exact .inl rfl

/-- A call after an event: it was there before, has just started, or has just moved. -/
theorem step_call {program : ρ → Shared σ α} {g : Pool σ ρ α} {e : Event σ ρ} {i : ℕ} {r : ρ}
    {p : Shared σ α} (h : (g.step program e).calls[i]? = some (r, p)) :
    g.calls[i]? = some (r, p) ∨ (e = .start r ∧ p = program r) ∨
      ∃ f next, e = .advance i ∧ g.calls[i]? = some (r, .step f next) ∧ p = next g.state ∧
        (g.step program e).state = f g.state := by
  cases e with
  | start r' =>
    rw [step, List.getElem?_append] at h
    split_ifs at h with hlt
    · exact .inl h
    · obtain ⟨rfl, rfl⟩ : r = r' ∧ p = program r' := by
        have hmem := List.mem_of_getElem? h
        simpa using hmem
      exact .inr (.inl ⟨rfl, rfl⟩)
  | outside f => exact .inl h
  | advance j =>
    rcases g.advance_cases j with hsame | ⟨r', f, next, hj, hadv⟩
    · rw [step, hsame] at h
      exact .inl h
    · simp only [step, hadv] at h ⊢
      by_cases hij : j = i
      · subst hij
        have hlt : j < g.calls.length := (List.getElem?_eq_some_iff.mp hj).1
        obtain ⟨rfl, rfl⟩ : r' = r ∧ next g.state = p := by simpa [hlt] using h
        exact .inr (.inr ⟨f, next, rfl, hj, rfl, rfl⟩)
      · rw [List.getElem?_set_ne hij] at h
        exact .inl h

section Logic
variable {R : σ → σ → Prop} {G : ρ → σ → σ → Prop} {Q : ρ → α → σ → Prop}

/-- The state is as it should be and every call's promise stands. -/
structure Sound (I : σ → Prop) (R : σ → σ → Prop) (G : ρ → σ → σ → Prop)
    (Q : ρ → α → σ → Prop) (g : Pool σ ρ α) : Prop where
  state : I g.state
  calls : ∀ (i : ℕ) r (p : Shared σ α), g.calls[i]? = some (r, p) →
    p.Ensures R (G r) (Q r) g.state

/-- What every step keeps, when no party leaves the bounds the others rely on. -/
structure Bounds (program : ρ → Shared σ α) (O : (σ → σ) → Prop) (I : σ → Prop)
    (R : σ → σ → Prop) (G : ρ → σ → σ → Prop) (Q : ρ → α → σ → Prop) : Prop where
  refl : ∀ s, R s s
  trans : ∀ s t u, R s t → R t u → R s u
  keeps : ∀ s t, I s → R s t → I t
  start : ∀ r s, I s → (program r).Ensures R (G r) (Q r) s
  guarantee : ∀ r s t, I s → G r s t → R s t
  outside : ∀ f, O f → ∀ s, I s → R s (f s)

variable {program : ρ → Shared σ α} {O : (σ → σ) → Prop} {I : σ → Prop}

/-- Every event moves the state within the rely. -/
theorem Sound.moves (b : Bounds program O I R G Q) {g : Pool σ ρ α} (h : g.Sound I R G Q)
    {e : Event σ ρ} (he : ∀ f, e = .outside f → O f) :
    R g.state (g.step program e).state := by
  cases e with
  | start r => exact b.refl _
  | outside f => exact b.outside f (he f rfl) g.state h.state
  | advance i =>
    rcases g.advance_cases i with hsame | ⟨r, f, next, hi, hadv⟩
    · rw [step, hsame]
      exact b.refl _
    · rw [step, hadv]
      exact b.guarantee r _ _ h.state (h.calls i r _ hi g.state (b.refl _)).1

theorem Sound.step (b : Bounds program O I R G Q) {g : Pool σ ρ α} (h : g.Sound I R G Q)
    {e : Event σ ρ} (he : ∀ f, e = .outside f → O f) : (g.step program e).Sound I R G Q := by
  have hR := h.moves b he
  refine ⟨b.keeps _ _ h.state hR, ?_⟩
  intro i r p hp
  rcases step_call hp with hold | ⟨rfl, rfl⟩ | ⟨f, next, rfl, hi, rfl, hstate⟩
  · exact (h.calls i r p hold).later b.trans hR
  · exact b.start r _ h.state
  · rw [hstate]
    exact (h.calls i r _ hi g.state (b.refl _)).2

/-- A sound pool stays sound through every run, and its state moves as the parties rely on. -/
theorem Sound.run (b : Bounds program O I R G Q) {g g' : Pool σ ρ α} (h : g.Sound I R G Q)
    (hrun : Run program O g g') : g'.Sound I R G Q ∧ R g.state g'.state := by
  induction hrun with
  | refl => exact ⟨h, b.refl _⟩
  | tail _ hstep ih =>
    obtain ⟨e, he, rfl⟩ := hstep
    exact ⟨ih.1.step b he, b.trans _ _ _ ih.2 (ih.1.moves b he)⟩

/-- What one call has promised in its own words it keeps as well, in its place. -/
theorem Sound.promise_kept (b : Bounds program O I R G Q) {g g' : Pool σ ρ α}
    (h : g.Sound I R G Q) (hrun : Run program O g g') {i : ℕ} {r : ρ} {p : Shared σ α}
    (hi : g.calls[i]? = some (r, p)) {G' : σ → σ → Prop} {Q' : α → σ → Prop}
    (hp : p.Ensures R G' Q' g.state) :
    ∃ p', g'.calls[i]? = some (r, p') ∧ p'.Ensures R G' Q' g'.state := by
  induction hrun with
  | refl => exact ⟨p, hi, hp⟩
  | @tail t _ hpre hstep ih =>
    obtain ⟨p', hi', hp'⟩ := ih
    obtain ⟨e, he, rfl⟩ := hstep
    have hR := (h.run b hpre).1.moves b he
    have hlt : i < t.calls.length := (List.getElem?_eq_some_iff.mp hi').1
    cases e with
    | start r' => exact ⟨p', by simpa [Pool.step, List.getElem?_append_left hlt] using hi', hp'⟩
    | outside f => exact ⟨p', hi', hp'.later b.trans hR⟩
    | advance j =>
      rcases t.advance_cases j with hsame | ⟨r', f, next, hj, hadv⟩
      · exact ⟨p', by simpa [Pool.step, hsame] using hi', by simpa [Pool.step, hsame] using hp'⟩
      · by_cases hij : i = j
        · subst hij
          have hr : (r, p') = (r', .step f next) := Option.some.inj (hi'.symm.trans hj)
          obtain ⟨rfl, rfl⟩ := Prod.mk.inj hr
          refine ⟨next t.state, by simp [Pool.step, hadv, hlt], ?_⟩
          rw [Pool.step, hadv]
          exact (hp' t.state (b.refl _)).2
        · refine ⟨p', ?_, hp'.later b.trans hR⟩
          rwa [Pool.step, hadv, List.getElem?_set_ne (Ne.symm hij)]

/-- A call that has just started keeps what it promised at its start, whatever follows. -/
theorem Sound.started (b : Bounds program O I R G Q) {g g' : Pool σ ρ α} (h : g.Sound I R G Q)
    {r : ρ} (hrun : Run program O (g.step program (.start r)) g') {G' : σ → σ → Prop}
    {Q' : α → σ → Prop} (hp : (program r).Ensures R G' Q' g.state) :
    ∃ p, g'.calls[g.calls.length]? = some (r, p) ∧ p.Ensures R G' Q' g'.state := by
  have hsound := h.step b (e := .start r) (by simp)
  have hcall : (g.step program (.start r)).calls[g.calls.length]? = some (r, program r) := by
    simp [Pool.step]
  exact hsound.promise_kept b hrun hcall hp

/-- An atomic call has changed nothing yet, or it has made its one step and been accepted. -/
theorem Sound.atomic_kept (b : Bounds program O I R G Q) {g g' : Pool σ ρ α}
    (h : g.Sound I R G Q) (hrun : Run program O g g') {i : ℕ} {r : ρ} {p : Shared σ α}
    (hi : g.calls[i]? = some (r, p)) {C : σ → σ → Prop} {A : α → Prop}
    (hp : p.Atomic R C A g.state) : ∃ p', g'.calls[i]? = some (r, p') ∧
      (p'.Atomic R C A g'.state ∨
        ∃ a u v, p' = .done a ∧ A a ∧ R g.state u ∧ C u v ∧ R v g'.state) := by
  induction hrun with
  | refl => exact ⟨p, hi, .inl hp⟩
  | @tail t _ hpre hstep ih =>
    obtain ⟨p', hi', hp'⟩ := ih
    obtain ⟨e, he, rfl⟩ := hstep
    obtain ⟨hsound, hgt⟩ := h.run b hpre
    have hR := hsound.moves b he
    have hkept : p'.Atomic R C A (t.step program e).state ∨
        ∃ a u v, p' = .done a ∧ A a ∧ R g.state u ∧ C u v ∧ R v (t.step program e).state := by
      rcases hp' with hp' | ⟨a, u, v, hdone, ha, hu, hC, hv⟩
      · exact .inl (hp'.later b.trans hR)
      · exact .inr ⟨a, u, v, hdone, ha, hu, hC, b.trans _ _ _ hv hR⟩
    have hlt : i < t.calls.length := (List.getElem?_eq_some_iff.mp hi').1
    cases e with
    | start r' =>
      exact ⟨p', by simpa [Pool.step, List.getElem?_append_left hlt] using hi', hkept⟩
    | outside f => exact ⟨p', hi', hkept⟩
    | advance j =>
      rcases t.advance_cases j with hsame | ⟨r', f, next, hj, hadv⟩
      · exact ⟨p', by simpa [Pool.step, hsame] using hi', hkept⟩
      · by_cases hij : i = j
        · subst hij
          obtain ⟨rfl, rfl⟩ := Prod.mk.inj (Option.some.inj (hi'.symm.trans hj))
          refine ⟨next t.state, by simp [Pool.step, hadv, hlt], ?_⟩
          rw [Pool.step, hadv]
          rcases hp' with hp' | ⟨a, u, v, hdone, -⟩
          · rcases hp' t.state (b.refl _) with ⟨hsame, hrest⟩ | ⟨hC, a, hdone, ha⟩
            · exact .inl (hsame.symm ▸ hrest)
            · exact .inr ⟨a, _, _, hdone, ha, hgt, hC, b.refl _⟩
          · cases hdone
        · refine ⟨p', ?_, hkept⟩
          rwa [Pool.step, hadv, List.getElem?_set_ne (Ne.symm hij)]

/-- What the next step of an atomic call does. -/
theorem advance_atomic (hrefl : ∀ s, R s s) {g : Pool σ ρ α} {i : ℕ} {r : ρ} {p : Shared σ α}
    (hi : g.calls[i]? = some (r, p)) {C : σ → σ → Prop} {A : α → Prop}
    (hp : p.Atomic R C A g.state) : (g.advance i).state = g.state ∨
      C g.state (g.advance i).state ∧ ∃ a, (g.advance i).calls[i]? = some (r, .done a) ∧ A a := by
  rcases g.advance_cases i with hstay | ⟨r', f, next, hi', hadv⟩
  · exact .inl (congrArg Pool.state hstay)
  · obtain ⟨rfl, rfl⟩ := Prod.mk.inj (Option.some.inj (hi.symm.trans hi'))
    have hlt : i < g.calls.length := (List.getElem?_eq_some_iff.mp hi).1
    rw [hadv]
    rcases hp g.state (hrefl _) with ⟨hsame, -⟩ | ⟨hC, a, hdone, ha⟩
    · exact .inl hsame
    · exact .inr ⟨hC, a, by simp [hlt, hdone], ha⟩

/-- A step was made, and another one after it. -/
def After (R C C' : σ → σ → Prop) (now : σ) : Prop :=
  ∃ s t u v, C s t ∧ R t u ∧ C' u v ∧ R v now

/-- Each call that can still be accepted has its step to make, or has made it; of two that have,
one was first. -/
structure Tracked (R : σ → σ → Prop) (C : ρ → σ → σ → Prop) (A : ρ → α → Prop)
    (g : Pool σ ρ α) : Prop where
  each : ∀ (i : ℕ) r (p : Shared σ α), g.calls[i]? = some (r, p) →
    p.Commits R (C r) (A r) g.state ∨ ∃ s t, C r s t ∧ R t g.state
  pairs : ∀ (i j : ℕ) r r' (p p' : Shared σ α), i ≠ j → g.calls[i]? = some (r, p) →
    g.calls[j]? = some (r', p') → p.Commits R (C r) (A r) g.state ∨
      p'.Commits R (C r') (A r') g.state ∨
        After R (C r) (C r') g.state ∨ After R (C r') (C r) g.state

variable {C : ρ → σ → σ → Prop} {A : ρ → α → Prop}

/-- A call with no step left to make had none before the event, or has made it then. -/
theorem step_commits (b : Bounds program O I R G Q) {g : Pool σ ρ α} (h : g.Sound I R G Q)
    {e : Event σ ρ} (he : ∀ f, e = .outside f → O f)
    (hstart : ∀ r, (program r).Commits R (C r) (A r) g.state) {i : ℕ} {r : ρ} {p : Shared σ α}
    (hi : (g.step program e).calls[i]? = some (r, p)) :
    p.Commits R (C r) (A r) (g.step program e).state ∨ ∃ p', g.calls[i]? = some (r, p') ∧
      (¬ p'.Commits R (C r) (A r) g.state ∨
        e = .advance i ∧ C r g.state (g.step program e).state) := by
  have hR := h.moves b he
  rcases step_call hi with hold | ⟨rfl, rfl⟩ | ⟨f, next, rfl, hcall, rfl, hstate⟩
  · by_cases hp : p.Commits R (C r) (A r) g.state
    · exact .inl (hp.later b.trans hR)
    · exact .inr ⟨p, hold, .inl hp⟩
  · exact .inl (hstart r)
  · rw [hstate]
    by_cases hp : (Shared.step f next).Commits R (C r) (A r) g.state
    · rcases hp g.state (b.refl _) with hnow | hrest
      · exact .inr ⟨_, hcall, .inr ⟨rfl, hnow⟩⟩
      · exact .inl hrest
    · exact .inr ⟨_, hcall, .inl hp⟩

theorem Tracked.step (b : Bounds program O I R G Q) {g : Pool σ ρ α} (h : g.Sound I R G Q)
    (htracked : g.Tracked R C A) {e : Event σ ρ} (he : ∀ f, e = .outside f → O f)
    (hstart : ∀ r, (program r).Commits R (C r) (A r) g.state) :
    (g.step program e).Tracked R C A := by
  have hR := h.moves b he
  constructor
  · intro i r p hi
    rcases step_commits b h he hstart hi with hp | ⟨p', hi', hp' | ⟨-, hnow⟩⟩
    · exact .inl hp
    · obtain ⟨s, t, hC, ht⟩ := (htracked.each i r p' hi').resolve_left hp'
      exact .inr ⟨s, t, hC, b.trans _ _ _ ht hR⟩
    · exact .inr ⟨_, _, hnow, b.refl _⟩
  · intro i j r r' p p' hij hi hj
    rcases step_commits b h he hstart hi with hp | ⟨q, hi', hq⟩
    · exact .inl hp
    rcases step_commits b h he hstart hj with hp' | ⟨q', hj', hq'⟩
    · exact .inr (.inl hp')
    refine .inr (.inr ?_)
    -- At most one of the two has moved.
    rcases hq with hq | ⟨rfl, hnow⟩
    · rcases hq' with hq' | ⟨-, hnow'⟩
      · have hlater : ∀ {C₁ C₂ : σ → σ → Prop}, After R C₁ C₂ g.state →
            After R C₁ C₂ (g.step program e).state :=
          fun ⟨s, t, u, v, hC, ht, hC', hv⟩ => ⟨s, t, u, v, hC, ht, hC', b.trans _ _ _ hv hR⟩
        exact (((htracked.pairs i j r r' q q' hij hi' hj').resolve_left hq).resolve_left hq').imp
          hlater hlater
      · obtain ⟨s, t, hC, ht⟩ := (htracked.each i r q hi').resolve_left hq
        exact .inl ⟨s, t, _, _, hC, ht, hnow', b.refl _⟩
    · rcases hq' with hq' | ⟨heq, -⟩
      · obtain ⟨s, t, hC, ht⟩ := (htracked.each j r' q' hj').resolve_left hq'
        exact .inr ⟨s, t, _, _, hC, ht, hnow, b.refl _⟩
      · cases heq
        exact absurd rfl hij

/-- In a run from where nothing is in flight, an accepted call has made its step, and of two
accepted calls one has made it after the other. -/
theorem Sound.tracked (b : Bounds program O I R G Q) {g g' : Pool σ ρ α} (h : g.Sound I R G Q)
    (hempty : g.calls = []) (hstart : ∀ r s, I s → R g.state s →
      (program r).Commits R (C r) (A r) s) (hrun : Run program O g g') :
    g'.Tracked R C A := by
  induction hrun with
  | refl =>
    constructor
    · intro i r p hi
      simp [hempty] at hi
    · intro i j r r' p p' _ hi
      simp [hempty] at hi
  | tail hpre hstep ih =>
    obtain ⟨e, he, rfl⟩ := hstep
    obtain ⟨hsound, hR⟩ := h.run b hpre
    exact ih.step b hsound he fun r => hstart r _ hsound.state hR

theorem Sound.answer (b : Bounds program O I R G Q) {g : Pool σ ρ α} (h : g.Sound I R G Q)
    {i : ℕ} {r : ρ} {a : α} (hi : g.calls[i]? = some (r, .done a)) : Q r a g.state :=
  h.calls i r _ hi _ (b.refl _)

/-- A call that promises to keep the state keeps it with its next step. -/
theorem advance_state_eq (hrefl : ∀ s, R s s) {g : Pool σ ρ α} {i : ℕ} {r : ρ}
    {p : Shared σ α} {P : α → σ → Prop} (hi : g.calls[i]? = some (r, p))
    (hp : p.Ensures R Eq P g.state) : (g.advance i).state = g.state := by
  rcases g.advance_cases i with hstay | ⟨r', f, next, hi', hadv⟩
  · rw [hstay]
  · obtain ⟨rfl, rfl⟩ := Prod.mk.inj (Option.some.inj (hi.symm.trans hi'))
    rw [hadv]
    exact (hp _ (hrefl _)).1.symm

/-- A call that promises to keep the state answers when it is left to itself. -/
theorem settles (hrefl : ∀ s, R s s) {g : Pool σ ρ α} {i : ℕ} {r : ρ} {p : Shared σ α}
    {P : α → σ → Prop} (hi : g.calls[i]? = some (r, p)) (hp : p.Ensures R Eq P g.state) :
    ∃ k a, (fun g => advance g i)^[k] g = { g with calls := g.calls.set i (r, .done a) } ∧
      P a g.state := by
  induction p generalizing g with
  | done a =>
    refine ⟨0, a, ?_, hp g.state (hrefl _)⟩
    obtain ⟨hlt, hcall⟩ := List.getElem?_eq_some_iff.mp hi
    rw [← hcall, List.set_getElem_self]
    rfl
  | step f next ih =>
    obtain ⟨hstep, hrest⟩ := hp g.state (hrefl _)
    have hlt : i < g.calls.length := (List.getElem?_eq_some_iff.mp hi).1
    have hadv : g.advance i = { g with calls := g.calls.set i (r, next g.state) } := by
      simp only [advance, hi, ← hstep]
    rw [← hstep] at hrest
    obtain ⟨k, a, hk, ha⟩ := ih g.state (g := g.advance i) (by simp [hadv, hlt])
      (by rw [hadv]; exact hrest)
    refine ⟨k + 1, a, ?_, by rwa [hadv] at ha⟩
    rw [Function.iterate_succ_apply, hk, hadv, List.set_set]

end Logic

/-- Calls that change the state with their answer only do so along every run. -/
theorem Run.changesWith {program : ρ → Shared σ α} {O : (σ → σ) → Prop}
    {W : ρ → σ → σ → Prop} {A : α → Prop}
    (hstart : ∀ r, (program r).ChangesWith (W r) A) {g g' : Pool σ ρ α}
    (h : ∀ (i : ℕ) r (p : Shared σ α), g.calls[i]? = some (r, p) → p.ChangesWith (W r) A)
    (hrun : Run program O g g') :
    ∀ (i : ℕ) r (p : Shared σ α), g'.calls[i]? = some (r, p) → p.ChangesWith (W r) A := by
  induction hrun with
  | refl => exact h
  | tail _ hstep ih =>
    obtain ⟨e, -, rfl⟩ := hstep
    intro i r p hp
    rcases step_call hp with hold | ⟨-, rfl⟩ | ⟨f, next, -, hi, rfl, -⟩
    · exact ih i r p hold
    · exact hstart r
    · exact (ih i r _ hi _).2

/-- The step of a call that changes the state beyond `W` answers it. -/
theorem advance_changes {W : ρ → σ → σ → Prop} {A : α → Prop} {g : Pool σ ρ α}
    (h : ∀ (i : ℕ) r (p : Shared σ α), g.calls[i]? = some (r, p) → p.ChangesWith (W r) A)
    (i : ℕ) : (g.advance i).state = g.state ∨ ∃ r p, (g.advance i).calls[i]? = some (r, p) ∧
      (W r g.state (g.advance i).state ∨ ∃ a, p = .done a ∧ A a) := by
  rcases g.advance_cases i with hsame | ⟨r, f, next, hi, hadv⟩
  · exact .inl (by rw [hsame])
  · have hlt : i < g.calls.length := (List.getElem?_eq_some_iff.mp hi).1
    refine .inr ⟨r, next g.state, by simp [hadv, hlt], ?_⟩
    rw [hadv]
    exact (h i r _ hi g.state).1

end Pool

/-- A version that never goes back while the others stay within `R`, and that stands for one
reading of the state. -/
structure Versioned {σ β κ : Type} [PartialOrder κ] (I : σ → Prop) (R : σ → σ → Prop)
    (version : σ → κ) (reading : σ → β) : Prop where
  le : ∀ s t, I s → R s t → version s ≤ version t
  same : ∀ s t, I s → R s t → version t = version s → reading t = reading s

/-- Two looks that find one version: its reading held at every moment between them. -/
theorem Versioned.between {σ β κ : Type} [PartialOrder κ] {I : σ → Prop} {R : σ → σ → Prop}
    {version : σ → κ} {reading : σ → β} (h : Versioned I R version reading) {s m t : σ}
    (hs : I s) (hm : I m)
    (hsm : R s m) (hmt : R m t) (heq : version t = version s) :
    version m = version s ∧ reading m = reading s := by
  have hversion : version m = version s :=
    le_antisymm ((h.le m t hm hmt).trans_eq heq) (h.le s m hs hsm)
  exact ⟨hversion, h.same s m hs hsm hversion⟩

end Munarium
