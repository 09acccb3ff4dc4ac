import Munarium.Core.Types
import Munarium.Lib.Delimited
import Munarium.Std.JsonText
import Munarium.Std.Text

/-! A runbook's document, and the flat plan of units that a run walks. -/
namespace Munarium

/-- What an error displays as. -/
def KernelError.display : KernelError → String
  | headConflict expected actual => "head conflict: expected seq " ++
      String.ofList (Nat.toDigits 10 expected) ++ ", actual " ++
        String.ofList (Nat.toDigits 10 actual)
  | notFound kind id => "not found: " ++ kind ++ " " ++ id
  | invalidInput message => "invalid input: " ++ message
  | storage message => "storage error: " ++ message
  | idempotencyMismatch => "idempotency key replayed with a different request"
  | provider message => "provider error: " ++ message
  | forbidden message => "forbidden: " ++ message

inductive StepSpec where
  | resolveSources
  | buildIndex
  | verify
  | verifyDataViews
  | cutover (approval : Option String)
  | retireOld (keepVersions : ℕ)
  deriving DecidableEq

namespace StepSpec

def name : StepSpec → String
  | resolveSources => "resolveSources"
  | buildIndex => "buildIndex"
  | verify => "verify"
  | verifyDataViews => "verifyDataViews"
  | cutover _ => "cutover"
  | retireOld _ => "retireOld"

def requiresApproval : StepSpec → Bool
  | cutover (some a) => a == "required"
  | _ => false

def isViews : StepSpec → Bool
  | verifyDataViews => true
  | _ => false

def isCutover : StepSpec → Bool
  | cutover _ => true
  | _ => false

end StepSpec

inductive StepState where
  | pending
  | running
  | awaitingApproval
  | done
  | failed
  deriving DecidableEq

def StepState.asStr : StepState → String
  | pending => "pending"
  | running => "running"
  | awaitingApproval => "awaiting_approval"
  | done => "done"
  | failed => "failed"

structure CollectionSpec where
  name : String
  shape : String
  deriving DecidableEq

inductive ExecutionOrder where
  | stepMajor
  | collectionMajor
  deriving DecidableEq

structure RunbookDoc where
  name : String
  version : ℕ
  shape : Option String
  collections : List CollectionSpec
  order : ExecutionOrder
  steps : List StepSpec
  deriving DecidableEq

/-- One step of a plan, for a collection where the runbook has any. -/
structure ExecUnit where
  step : StepSpec
  collection : Option CollectionSpec
  name : String
  deriving DecidableEq

/-- What a unit is about: a collection, or the shape of a runbook without any. -/
inductive UnitTarget where
  | collection (name : String)
  | shape (shapeRef : String)
  deriving DecidableEq

namespace RunbookDoc

def isV2 (doc : RunbookDoc) : Bool := !doc.collections.isEmpty

def runbookRef (doc : RunbookDoc) : String :=
  doc.name ++ "@" ++ String.ofList (Nat.toDigits 10 doc.version)

/-- What parsing refuses of a document's name, steps and targets. -/
def refused (doc : RunbookDoc) : Option String :=
  if (trim doc.name).isEmpty || doc.name.toList.contains '@' then
    some ("runbook name '" ++ doc.name ++ "' must be non-empty and must not contain '@'")
  else if doc.steps.isEmpty then some "a runbook needs at least one step"
  else if doc.shape.isNone && doc.collections.isEmpty then
    some "a runbook needs spec.shape (v1) or spec.collections (v2)"
  else if doc.shape.isSome && !doc.collections.isEmpty then
    some "spec.shape and spec.collections are mutually exclusive"
  else none

end RunbookDoc

/-- A step's name where it runs for a collection. -/
def unitName (step : String) : Option String → String
  | none => step
  | some collection => step ++ ":" ++ collection

def collectionUnit (step : StepSpec) (col : CollectionSpec) : ExecUnit :=
  ⟨step, some col, unitName step.name (some col.name)⟩

def runbookUnit (step : StepSpec) : ExecUnit := ⟨step, none, unitName step.name none⟩

/-- The units of one step, for each collection or for the runbook. -/
def expandStep (doc : RunbookDoc) (step : StepSpec) : List ExecUnit :=
  if step.isViews then [runbookUnit step] else doc.collections.map (collectionUnit step)

def execUnits (doc : RunbookDoc) : List ExecUnit :=
  if doc.isV2 then
    match doc.order with
    | .stepMajor => doc.steps.flatMap (expandStep doc)
    | .collectionMajor =>
        (doc.collections.flatMap fun col =>
          (doc.steps.filter fun s => !s.isViews).map fun step => collectionUnit step col) ++
        (doc.steps.filter StepSpec.isViews).map runbookUnit
  else doc.steps.map runbookUnit

namespace ExecUnit

def target (doc : RunbookDoc) (u : ExecUnit) : UnitTarget :=
  match u.collection with
  | some col => .collection col.name
  | none => .shape (doc.shape.getD "")

def collectionName (u : ExecUnit) : Option String := u.collection.map CollectionSpec.name

/-- The name of the step that builds what this unit is about. -/
def buildName (u : ExecUnit) : String := unitName "buildIndex" u.collectionName

/-- A unit is named after its step and its collection. -/
def Named (u : ExecUnit) : Prop := u.name = unitName u.step.name u.collectionName

end ExecUnit

theorem execUnits_named {doc : RunbookDoc} {u : ExecUnit} (h : u ∈ execUnits doc) : u.Named := by
  have hcollection (step : StepSpec) (col : CollectionSpec) : (collectionUnit step col).Named := rfl
  have hrunbook (step : StepSpec) : (runbookUnit step).Named := rfl
  unfold execUnits at h
  split_ifs at h
  · cases horder : doc.order with
    | stepMajor =>
      simp only [horder, List.mem_flatMap] at h
      obtain ⟨step, -, hu⟩ := h
      unfold expandStep at hu
      split_ifs at hu
      · rw [List.mem_singleton.mp hu]
        exact hrunbook step
      · obtain ⟨col, -, rfl⟩ := List.mem_map.mp hu
        exact hcollection step col
    | collectionMajor =>
      simp only [horder, List.mem_append, List.mem_flatMap, List.mem_map] at h
      rcases h with ⟨col, -, step, -, rfl⟩ | ⟨step, -, rfl⟩
      · exact hcollection step col
      · exact hrunbook step
  · obtain ⟨step, -, rfl⟩ := List.mem_map.mp h
    exact hrunbook step

theorem StepSpec.name_plain (s : StepSpec) : ':' ∉ s.name.toList := by
  cases s with
  | cutover => exact (by decide : ':' ∉ "cutover".toList)
  | retireOld => exact (by decide : ':' ∉ "retireOld".toList)
  | resolveSources | buildIndex | verify | verifyDataViews => decide

theorem cut_unitName {step : String} (hs : ':' ∉ step.toList) (c : Option String) :
    Delimited.cut ':' (unitName step c).toList = c.map fun name => (step.toList, name.toList) := by
  cases c with
  | none => exact Delimited.cut_eq_none_iff.mpr hs
  | some name =>
    apply Delimited.cut_eq_some_iff.mpr
    simp [unitName, hs]

/-- The plan's names tell steps and collections apart. -/
theorem unitName_inj {step step' : String} {c c' : Option String} (hs : ':' ∉ step.toList)
    (hs' : ':' ∉ step'.toList) (h : unitName step c = unitName step' c') :
    step = step' ∧ c = c' := by
  have hcut := cut_unitName hs c
  rw [h, cut_unitName hs' c'] at hcut
  cases c with
  | none =>
    cases c' with
    | none => exact ⟨h, rfl⟩
    | some name' => cases hcut
  | some name =>
    cases c' with
    | none => cases hcut
    | some name' =>
      simp only [Option.map_some, Option.some.injEq, Prod.mk.injEq, String.toList_inj] at hcut
      exact ⟨hcut.1.symm, congrArg some hcut.2.symm⟩

end Munarium
