import Mathlib.Logic.Function.Basic
import Munarium.Core.Types

/-! Which artifact of one index version stands in which slot. An empty slot is filled by an
insert, an occupied one changed by compare-and-swap on its generation, and `serving` only by
promoting `staged`. -/
namespace Munarium

inductive ArtifactState where
  | sealed
  | verified
  | failed
  | retired
  deriving DecidableEq

def ArtifactState.asStr : ArtifactState → String
  | sealed => "sealed"
  | verified => "verified"
  | failed => "failed"
  | retired => "retired"

inductive BindingSlot where
  | staged
  | shadow
  | serving
  deriving DecidableEq

def BindingSlot.asStr : BindingSlot → String
  | staged => "staged"
  | shadow => "shadow"
  | serving => "serving"

/-- The row of one slot. -/
structure Binding where
  artifactId : String
  generation : ℕ
  selectedBy : String
  reason : Option String
  deriving DecidableEq

/-- A row of the append-only history. -/
structure BindingEvent where
  slot : BindingSlot
  fromArtifact : Option String
  toArtifact : Option String
  fromGeneration : Option ℕ
  toGeneration : Option ℕ
  operation : String
  actor : String
  reason : Option String
  deriving DecidableEq

/-- The artifacts' states, the slots' rows and their history. -/
structure Bindings where
  artifacts : String → Option ArtifactState := fun _ => none
  rows : BindingSlot → Option Binding := fun _ => none
  events : List BindingEvent := []

/-- The generation that a caller reads off a slot, 0 where there is no row. -/
def generationOf (row : Option Binding) : ℕ := (row.map Binding.generation).getD 0

namespace Bindings

def write (slot : BindingSlot) (row : Option Binding) (event : BindingEvent) (t : Bindings) :
    Bindings :=
  { t with rows := Function.update t.rows slot row, events := t.events ++ [event] }

def requireVerified (artifactId : String) (t : Bindings) : Result Unit :=
  match t.artifacts artifactId with
  | none => .error (.notFound "artifact" artifactId)
  | some .verified => .ok ()
  | some other => .error (.invalidInput ("artifact " ++ artifactId ++ " is " ++ other.asStr ++
      ", not verified; a binding asserts that an artifact is servable"))

/-- The version's id, which only messages name. -/
def bindNew (version : String) (slot : BindingSlot) (artifactId selectedBy : String)
    (reason : Option String) (t : Bindings) : Result (Binding × Bindings) := do
  t.requireVerified artifactId
  if (t.rows slot).isSome then
    .error (.invalidInput ("slot " ++ slot.asStr ++ " for " ++ version ++
      " is already occupied; replacing a binding is a promotion, not an insert"))
  else
    let row : Binding := ⟨artifactId, 1, selectedBy, reason⟩
    .ok (row, t.write slot (some row)
      ⟨slot, none, some artifactId, none, some 1, "bind", selectedBy, reason⟩)

def rebind (version : String) (slot : BindingSlot) (artifactId : String) (expected : ℕ)
    (selectedBy : String) (reason : Option String) (t : Bindings) :
    Result (Binding × Bindings) := do
  if slot = .serving then
    .error (.invalidInput ("the serving slot is changed by the promotion operation, never by " ++
      "a rebind;                  promotion re-checks deployment expectations and per-node " ++
      "opens, and this path deliberately cannot"))
  else
    t.requireVerified artifactId
    match t.rows slot with
    | some old =>
        if old.generation = expected then
          let row : Binding := ⟨artifactId, old.generation + 1, selectedBy, reason⟩
          .ok (row, t.write slot (some row) ⟨slot, none, some artifactId, some expected,
            some row.generation, "rebind", selectedBy, reason⟩)
        else .error (staleBinding slot expected)
    | none => .error (staleBinding slot expected)
where
  staleBinding (slot : BindingSlot) (expected : ℕ) : KernelError :=
    .invalidInput ("slot " ++ slot.asStr ++ " for " ++ version ++ " is not at generation " ++
      toString expected ++ ";                  re-read the binding and decide again")

/-- The checks of a promotion on the two rows that it read, and on the artifact's state. -/
def promotable (version : String) (staged serving : Option Binding)
    (expectedStaged expectedServing : ℕ) (t : Bindings) : Result Binding :=
  match staged with
  | none => .error (.invalidInput ("no staged binding for " ++ version ++
      "; there is nothing to promote"))
  | some row =>
      if row.generation ≠ expectedStaged then
        .error (.invalidInput ("staged is at generation " ++ toString row.generation ++ ", not " ++
          toString expectedStaged ++ ";                  re-read the binding and decide again"))
      else if generationOf serving ≠ expectedServing then
        .error (.invalidInput ("serving is at generation " ++ toString (generationOf serving) ++
          ", not                  " ++ toString expectedServing ++
          "; re-read the binding and decide again"))
      else if t.artifacts row.artifactId = some .verified then .ok row
      else .error (.invalidInput ("staged artifact " ++ row.artifactId ++ " is " ++
        ((t.artifacts row.artifactId).map ArtifactState.asStr).getD "uncatalogued" ++
        ", not verified; a promotion asserts servability"))

/-- The writes of a promotion: `serving` over whatever stands there, and `staged` away. -/
def promoted (staged : Binding) (serving : Option Binding) (actor : String)
    (reason : Option String) (t : Bindings) : Binding × Bindings :=
  let row : Binding := ⟨staged.artifactId, generationOf serving + 1, actor, reason⟩
  let t := t.write .serving (some row) ⟨.serving, serving.map Binding.artifactId,
    some staged.artifactId, some (generationOf serving), some row.generation, "promote", actor,
    reason⟩
  (row, { t with
    rows := if (t.rows .staged).map Binding.generation = some staged.generation then
      Function.update t.rows .staged none else t.rows })

/-- `promote_staged` where nothing comes between its statements. -/
def promoteStaged (version : String) (expectedStaged expectedServing : ℕ) (actor : String)
    (reason : Option String) (t : Bindings) : Result (Binding × Bindings) := do
  let staged ← t.promotable version (t.rows .staged) (t.rows .serving) expectedStaged
    expectedServing
  return t.promoted staged (t.rows .serving) actor reason

variable {version : String} {slot : BindingSlot} {artifactId by' : String}
  {reason : Option String} {expected : ℕ} {t : Bindings} {answer : Binding × Bindings}

theorem bindNew_ok (h : t.bindNew version slot artifactId by' reason = .ok answer) :
    t.rows slot = none ∧ answer.1 = ⟨artifactId, 1, by', reason⟩ ∧
      answer.2.rows = Function.update t.rows slot (some answer.1) := by
  obtain ⟨_, -, h⟩ := bind_eq_ok.mp h
  split at h
  · cases h
  · rename_i hempty
    cases h
    exact ⟨Option.not_isSome_iff_eq_none.mp hempty, rfl, rfl⟩

theorem bindNew_artifacts (h : t.bindNew version slot artifactId by' reason = .ok answer) :
    answer.2.artifacts = t.artifacts := by
  obtain ⟨_, -, h⟩ := bind_eq_ok.mp h
  split at h
  · cases h
  · cases h
    rfl

theorem bindNew_verified (h : t.bindNew version slot artifactId by' reason = .ok answer) :
    t.artifacts artifactId = some .verified := by
  obtain ⟨_, hcheck, -⟩ := bind_eq_ok.mp h
  simp only [requireVerified] at hcheck
  split at hcheck
  · cases hcheck
  · assumption
  · cases hcheck

theorem rebind_ok (h : t.rebind version slot artifactId expected by' reason = .ok answer) :
    slot ≠ .serving ∧ answer.1 = ⟨artifactId, expected + 1, by', reason⟩ ∧
      answer.2.rows = Function.update t.rows slot (some answer.1) ∧
      ∃ old, t.rows slot = some old ∧ old.generation = expected := by
  simp only [rebind] at h
  split at h
  · cases h
  · rename_i hslot
    obtain ⟨_, -, h⟩ := bind_eq_ok.mp h
    split at h
    · rename_i old hold
      split at h
      · rename_i hgeneration
        cases h
        exact ⟨hslot, by rw [hgeneration], rfl, old, hold, hgeneration⟩
      · cases h
    · cases h

theorem promotable_ok {staged serving : Option Binding} {expectedServing : ℕ} {row : Binding}
    (h : t.promotable version staged serving expected expectedServing = .ok row) :
    staged = some row ∧ row.generation = expected ∧ generationOf serving = expectedServing ∧
      t.artifacts row.artifactId = some .verified := by
  simp only [promotable] at h
  split at h
  · cases h
  · rename_i staged
    split_ifs at h with hstaged hserving hverified
    cases h
    exact ⟨rfl, not_not.mp hstaged, not_not.mp hserving, hverified⟩

@[simp] theorem promoted_serving (staged : Binding) (serving : Option Binding) :
    (t.promoted staged serving by' reason).2.rows .serving =
      some ⟨staged.artifactId, generationOf serving + 1, by', reason⟩ := by
  simp only [promoted]
  split <;> simp [write]

@[simp] theorem promoted_shadow (staged : Binding) (serving : Option Binding) :
    (t.promoted staged serving by' reason).2.rows .shadow = t.rows .shadow := by
  simp only [promoted]
  split <;> simp [write]

theorem promoted_staged {staged : Binding} (serving : Option Binding)
    (h : t.rows .staged = some staged) :
    (t.promoted staged serving by' reason).2.rows .staged = none := by
  simp [promoted, write, h]

end Bindings
end Munarium
