import Mathlib.Data.List.Basic
import Mathlib.Order.Basic

/-! Forests given by parent pointers: `parent v = none` for an unknown node, `some none`
for a root and `some (some p)` for a child of `p`. -/
namespace Forest

variable {κ ε : Type*} {parent parent' : κ → Option (Option κ)}

/-- The path from a node up to its root, the node first. -/
inductive Chain (parent : κ → Option (Option κ)) : κ → List κ → Prop
  | root {v : κ} (h : parent v = some none) : Chain parent v [v]
  | child {v p : κ} {path : List κ} (h : parent v = some (some p)) (hp : Chain parent p path) :
      Chain parent v (v :: path)

namespace Chain

theorem self_mem {v : κ} {path : List κ} (h : Chain parent v path) : v ∈ path := by
  cases h with
  | root h => exact List.mem_cons_self
  | child h hp => exact List.mem_cons_self

theorem known {v : κ} {path : List κ} (h : Chain parent v path) :
    ∀ w ∈ path, parent w ≠ none := by
  induction h with
  | root h =>
    intro w hw
    rw [List.mem_singleton.mp hw, h]
    exact Option.some_ne_none _
  | child h hp ih =>
    intro w hw
    rcases List.mem_cons.mp hw with rfl | hw
    · rw [h]
      exact Option.some_ne_none _
    · exact ih w hw

theorem unique {v : κ} {path path' : List κ} (h : Chain parent v path)
    (h' : Chain parent v path') : path = path' := by
  induction h generalizing path' with
  | root h =>
    cases h' with
    | root _ => rfl
    | child h' _ => simp [h] at h'
  | child h hp ih =>
    cases h' with
    | root h' => simp [h] at h'
    | child h' hp' =>
      rw [h] at h'
      cases h'
      rw [ih hp']

/-- A path depends on the parents of its own nodes only. -/
theorem congr {v : κ} {path : List κ} (h : Chain parent v path)
    (he : ∀ w ∈ path, parent' w = parent w) : Chain parent' v path := by
  induction h with
  | root h => exact .root (by rw [he _ List.mem_cons_self, h])
  | child h hp ih =>
    exact .child (by rw [he _ List.mem_cons_self, h])
      (ih fun w hw => he w (List.mem_cons_of_mem _ hw))

/-- A member's own path is the rest of the path from there on. -/
theorem suffix_of_mem {v w : κ} {path : List κ} (h : Chain parent v path) (hw : w ∈ path) :
    ∃ path', Chain parent w path' ∧ path' <:+ path := by
  induction h with
  | root h =>
    rw [List.mem_singleton.mp hw]
    exact ⟨_, .root h, List.suffix_refl _⟩
  | child h hp ih =>
    rcases List.mem_cons.mp hw with rfl | hw
    · exact ⟨_, .child h hp, List.suffix_refl _⟩
    · obtain ⟨path', hc, hs⟩ := ih hw
      exact ⟨path', hc, hs.trans (List.suffix_cons _ _)⟩

end Chain

/-- Every parent is known and older than its children, and every age is below `n`. -/
structure Ranked (parent : κ → Option (Option κ)) (rank : κ → ℕ) (n : ℕ) : Prop where
  older : ∀ v p, parent v = some (some p) → parent p ≠ none ∧ rank p < rank v
  bounded : ∀ v, parent v ≠ none → rank v < n

theorem Ranked.exists_chain {rank : κ → ℕ} {n : ℕ} (h : Ranked parent rank n) {v : κ}
    (hv : parent v ≠ none) : ∃ path, Chain parent v path ∧ path.length ≤ rank v + 1 := by
  induction hr : rank v using Nat.strongRecOn generalizing v with
  | _ r ih =>
    obtain ⟨up, hup⟩ := Option.ne_none_iff_exists'.mp hv
    cases up with
    | none => exact ⟨[v], .root hup, by simp⟩
    | some p =>
      obtain ⟨hp, hlt⟩ := h.older v p hup
      obtain ⟨path, hc, hlen⟩ := ih (rank p) (hr ▸ hlt) hp rfl
      refine ⟨v :: path, .child hup hc, ?_⟩
      rw [List.length_cons]
      omega

/-- Ages fall along a path, so it never comes back. -/
theorem Ranked.nodup {rank : κ → ℕ} {n : ℕ} (h : Ranked parent rank n) {v : κ} {path : List κ}
    (hc : Chain parent v path) : path.Nodup := by
  have hages : (∀ w ∈ path, rank w ≤ rank v) ∧ path.Nodup := by
    induction hc with
    | root hv => simp
    | @child v p path hv _ ih =>
      obtain ⟨hle, hnodup⟩ := ih
      have hlt := (h.older v p hv).2
      refine ⟨?_, List.nodup_cons.mpr ⟨fun hmem => absurd (hle v hmem) (by omega), hnodup⟩⟩
      intro w hw
      rcases List.mem_cons.mp hw with rfl | hw
      · exact Nat.le_refl _
      · exact Nat.le_trans (hle w hw) (Nat.le_of_lt hlt)
  exact hages.2

/-- Walk up to the root, checking every node on the way. The fuel bounds the walk. -/
def walk (parent : κ → Option (Option κ)) (check : κ → Except ε Unit) (unknown : κ → ε)
    (endless : ε) : ℕ → κ → Except ε (List κ)
  | 0, _ => .error endless
  | fuel + 1, v =>
      match parent v with
      | none => .error (unknown v)
      | some up =>
          match check v with
          | .error e => .error e
          | .ok () =>
              match up with
              | none => .ok [v]
              | some p => (walk parent check unknown endless fuel p).map (v :: ·)

theorem walk_of_chain {check : κ → Except ε Unit} {unknown : κ → ε} {endless : ε} {v : κ}
    {path : List κ} (h : Chain parent v path) (hc : ∀ w ∈ path, check w = .ok ()) {fuel : ℕ}
    (hn : path.length ≤ fuel) : walk parent check unknown endless fuel v = .ok path := by
  induction h generalizing fuel with
  | root h =>
    cases fuel with
    | zero => simp at hn
    | succ fuel => simp [walk, h, hc _ List.mem_cons_self]
  | child h hp ih =>
    cases fuel with
    | zero => simp at hn
    | succ fuel =>
      rw [List.length_cons] at hn
      have hrest := ih (fun w hw => hc w (List.mem_cons_of_mem _ hw)) (by omega : _ ≤ fuel)
      simp [walk, h, hc _ List.mem_cons_self, hrest, Except.map]

/-- A walk that ends has followed a path. -/
theorem chain_of_walk {check : κ → Except ε Unit} {unknown : κ → ε} {endless : ε} {fuel : ℕ}
    {v : κ} {path : List κ} (h : walk parent check unknown endless fuel v = .ok path) :
    Chain parent v path := by
  induction fuel generalizing v path with
  | zero => simp [walk] at h
  | succ fuel ih =>
    unfold walk at h
    cases hv : parent v with
    | none => simp [hv] at h
    | some up =>
      simp only [hv] at h
      cases hcheck : check v with
      | error e => simp [hcheck] at h
      | ok _ =>
        simp only [hcheck] at h
        cases up with
        | none =>
          cases h
          exact .root hv
        | some p =>
          cases hw : walk parent check unknown endless fuel p with
          | error e => simp [hw, Except.map] at h
          | ok rest =>
            simp only [hw, Except.map] at h
            cases h
            exact .child hv (ih hw)

end Forest
