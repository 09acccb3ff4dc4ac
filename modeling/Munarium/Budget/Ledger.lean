import Munarium.Core.Types
import Munarium.Lib.Checked
import Munarium.Lib.SortedMap
import Munarium.Std.Digest
import Mathlib.Data.Prod.Lex
import Mathlib.Data.String.Basic

/-! `MemBudgetStore`: the rows of the daily token budgets, each call one step under the
lock. A clock reading is its UTC day as `%Y-%m-%d` and its whole seconds, and no reading
is taken to be later than another. -/
namespace Munarium

inductive UsageSource where
  | providerReported | legacyUnverified | missing | malformed
  deriving DecidableEq

structure UsageEvidence where
  inputTokens : Option UInt64
  outputTokens : Option UInt64
  source : UsageSource
  deriving DecidableEq

/-- Both counts, from the provider itself. -/
def UsageEvidence.Complete (u : UsageEvidence) : Prop :=
  u.source = .providerReported ∧ u.inputTokens.isSome ∧ u.outputTokens.isSome

instance (u : UsageEvidence) : Decidable u.Complete :=
  inferInstanceAs (Decidable (_ ∧ _))

def UsageEvidence.accountedUnits (u : UsageEvidence) (reserved : UInt64) : Result UInt64 :=
  match (u.inputTokens.getD 0).checkedAdd (u.outputTokens.getD 0) with
  | none => .error (.provider "completion usage total exceeds u64")
  | some subtotal => if u.Complete then .ok subtotal else .ok (max reserved subtotal)

structure BudgetEvidence where
  reservationId : String
  originalUnits : Option UInt64
  accountedUnits : UInt64
  state : String
  usage : Option UsageEvidence
  revision : UInt64
  config : String
  tier : String
  day : String
  estimatorRevision : Option String
  deriving DecidableEq

structure BudgetCorrection where
  id : String
  expectedRevision : UInt64
  accountedUnits : UInt64
  usage : UsageEvidence
  evidenceRef : String
  deriving DecidableEq

structure BudgetAdjustment where
  correction : BudgetCorrection
  previous : BudgetEvidence
  result : BudgetEvidence
  deriving DecidableEq

def isSafeByte (b : UInt8) : Bool :=
  (0x30 ≤ b && b ≤ 0x39) || (0x41 ≤ b && b ≤ 0x5a) || (0x61 ≤ b && b ≤ 0x7a) ||
    b == 0x2e || b == 0x5f || b == 0x2d

def isSafeIdentifier (value : String) : Bool :=
  value != "" && decide (value.utf8ByteSize ≤ 160) && (utf8 value).all isSafeByte

/-- The larger of what was reserved and what is accounted so far. -/
def BudgetEvidence.liability (previous : BudgetEvidence) : UInt64 :=
  max (previous.originalUnits.getD 0) previous.accountedUnits

def BudgetCorrection.validate (c : BudgetCorrection) (previous : BudgetEvidence) :
    Result Unit :=
  if !(isSafeIdentifier c.id && isSafeIdentifier c.evidenceRef) then
    .error (.invalidInput ("budget evidence requires a safe nonempty identifier (letters, " ++
      "digits, dot, underscore, dash; at most 160 bytes)"))
  else if previous.state ≠ "settled" then
    .error (.invalidInput "only a settled reservation can be reconciled")
  else if c.expectedRevision ≠ previous.revision then
    .error (.headConflict c.expectedRevision.toNat previous.revision.toNat)
  else match c.usage.accountedUnits previous.liability with
    | .error e => .error e
    | .ok minimum =>
        if c.accountedUnits < minimum then
          .error (.invalidInput
            "budget correction undercounts observed usage or unresolved liability")
        else .ok ()

inductive RowState where
  | held | settled | released
  deriving DecidableEq

def RowState.asStr : RowState → String
  | held => "held"
  | settled => "settled"
  | released => "released"

structure BudgetRow where
  id : String
  tenant : String
  config : String
  tier : String
  day : String
  units : UInt64
  originalUnits : UInt64
  usage : Option UsageEvidence
  state : RowState
  createdUnix : ℤ
  adjustments : List BudgetAdjustment
  estimatorRevision : Option String
  deriving DecidableEq

structure BudgetReservation where
  id : String
  tenant : String
  config : String
  tier : String
  day : String
  units : UInt64
  deriving DecidableEq

inductive BudgetOutcome where
  | unlimited
  | granted (r : BudgetReservation)
  | exhausted (requested remaining limit : UInt64)
  deriving DecidableEq

structure BudgetLedgerRow where
  config : String
  tier : String
  day : String
  heldUnits : UInt64
  settledUnits : UInt64
  reservations : ℕ
  deriving DecidableEq

structure ClockReading where
  day : String
  timestamp : ℤ

/-- What one daily ceiling is set for. -/
structure BudgetScope where
  tenant : String
  config : String
  tier : String
  deriving DecidableEq

namespace BudgetRow

def evidence (r : BudgetRow) : BudgetEvidence where
  reservationId := r.id
  originalUnits := some r.originalUnits
  accountedUnits := r.units
  state := r.state.asStr
  usage := r.usage
  revision := UInt64.ofNat r.adjustments.length
  config := r.config
  tier := r.tier
  day := r.day
  estimatorRevision := r.estimatorRevision

/-- The row counts against the scope's ceiling of the day. -/
def countsFor (scope : BudgetScope) (day : String) (r : BudgetRow) : Bool :=
  decide (r.tenant = scope.tenant ∧ r.config = scope.config ∧ r.tier = scope.tier ∧
    r.day = day ∧ r.state ≠ .released)

def isHeldBy (reservation : BudgetReservation) (r : BudgetRow) : Bool :=
  decide (r.id = reservation.id ∧ r.tenant = reservation.tenant ∧ r.state = .held)

def isOf (tenant id : String) (r : BudgetRow) : Bool := decide (r.tenant = tenant ∧ r.id = id)

def settled (actualUnits : Option UInt64) (usage : Option UsageEvidence) (r : BudgetRow) :
    BudgetRow :=
  { r with state := .settled, usage := usage, units := actualUnits.getD r.units }

/-- A stored adjustment answers its own correction again; any other is checked against
the evidence the row stands at. -/
def reconcile (r : BudgetRow) (c : BudgetCorrection) : Result (BudgetRow × BudgetEvidence) :=
  match r.adjustments.find? (·.correction.id == c.id) with
  | some existing =>
      if existing.correction = c then .ok (r, existing.result) else .error .idempotencyMismatch
  | none =>
      match c.validate r.evidence with
      | .error e => .error e
      | .ok () =>
          match r.evidence.revision.checkedAdd 1 with
          | none => .error (.storage "budget revision overflow")
          | some revision =>
              let result := { r.evidence with
                accountedUnits := c.accountedUnits
                usage := some c.usage
                revision := revision }
              .ok ({ r with
                units := c.accountedUnits
                usage := some c.usage
                adjustments := r.adjustments ++ [⟨c, r.evidence, result⟩] }, result)

end BudgetRow

abbrev BudgetRows := List BudgetRow

namespace BudgetRows

/-- The sum that admission computes. -/
def active (rows : BudgetRows) (scope : BudgetScope) (day : String) : Option UInt64 :=
  UInt64.checkedSum ((rows.filter (·.countsFor scope day)).map (·.units))

/-- `reserve_estimated`, with the id that would be drawn. -/
def reserve (rows : BudgetRows) (now : ClockReading) (id : String) (scope : BudgetScope)
    (units : UInt64) (revision : Option String) (limit : Option UInt64) :
    Result (BudgetRows × BudgetOutcome) :=
  match limit with
  | none => .ok (rows, .unlimited)
  | some limit =>
      match rows.active scope now.day with
      | none => .error (.storage "budget total exceeds u64")
      | some active =>
          if (active.checkedAdd units).all (fun total => decide (limit < total)) then
            .ok (rows, .exhausted units (if active ≤ limit then limit - active else 0) limit)
          else
            .ok (rows ++ [{ id := id
                            tenant := scope.tenant
                            config := scope.config
                            tier := scope.tier
                            day := now.day
                            units := units
                            originalUnits := units
                            usage := none
                            state := .held
                            createdUnix := now.timestamp
                            adjustments := []
                            estimatorRevision := revision }],
              .granted ⟨id, scope.tenant, scope.config, scope.tier, now.day, units⟩)

/-- `settle_with_evidence`: the first held row of the reservation. -/
def settle (rows : BudgetRows) (reservation : BudgetReservation) (actualUnits : Option UInt64)
    (usage : Option UsageEvidence) : BudgetRows :=
  rows.updateFirst (·.isHeldBy reservation) (·.settled actualUnits usage)

def release (rows : BudgetRows) (reservation : BudgetReservation) : BudgetRows :=
  rows.updateFirst (·.isHeldBy reservation) fun r => { r with state := .released }

/-- Seconds saturate at both ends of `i64`. -/
def cutoff (now : ClockReading) (olderThanSecs : UInt64) : ℤ :=
  max (now.timestamp - min olderThanSecs.toNat (2 ^ 63 - 1)) (-2 ^ 63)

def isStale (now : ClockReading) (olderThanSecs : UInt64) (r : BudgetRow) : Bool :=
  decide (r.state = .held ∧ r.createdUnix ≤ cutoff now olderThanSecs)

def sweepStale (rows : BudgetRows) (now : ClockReading) (olderThanSecs : UInt64) :
    BudgetRows × ℕ :=
  (rows.map fun r => if isStale now olderThanSecs r then { r with state := .settled } else r,
    (rows.filter (isStale now olderThanSecs)).length)

def reconcile (rows : BudgetRows) (tenant id : String) (c : BudgetCorrection) :
    Result (BudgetRows × BudgetEvidence) :=
  match rows.find? (·.isOf tenant id) with
  | none => .error (.notFound "budget-reservation" id)
  | some row =>
      match row.reconcile c with
      | .error e => .error e
      | .ok (row, result) => .ok (rows.updateFirst (·.isOf tenant id) fun _ => row, result)

abbrev LedgerGroups := SortedMap (String ×ₗ String) BudgetLedgerRow

/-- One row into its group. Released rows neither hold nor settle, and create none. -/
def ledgerStep (day : String) (groups : LedgerGroups) (r : BudgetRow) : Result LedgerGroups :=
  let key := toLex (r.config, r.tier)
  let entry := (groups.get? key).getD ⟨r.config, r.tier, day, 0, 0, 0⟩
  match r.state with
  | .released => .ok groups
  | .held =>
      match entry.heldUnits.checkedAdd r.units with
      | none => .error (.storage "budget total exceeds u64")
      | some total => .ok (groups.insert key
          { entry with heldUnits := total, reservations := entry.reservations + 1 })
  | .settled =>
      match entry.settledUnits.checkedAdd r.units with
      | none => .error (.storage "budget total exceeds u64")
      | some total => .ok (groups.insert key
          { entry with settledUnits := total, reservations := entry.reservations + 1 })

def ledger (rows : BudgetRows) (tenant : String) (now : ClockReading) :
    Result (List BudgetLedgerRow) :=
  ((rows.filter fun r => decide (r.tenant = tenant ∧ r.day = now.day)).foldlM
    (ledgerStep now.day) .empty).map SortedMap.values

end BudgetRows

/-- The calls that can write. -/
inductive BudgetCall where
  | reserve (now : ClockReading) (id : String) (scope : BudgetScope) (units : UInt64)
      (revision : Option String) (limit : Option UInt64)
  | settle (reservation : BudgetReservation) (actualUnits : Option UInt64)
      (usage : Option UsageEvidence)
  | release (reservation : BudgetReservation)
  | sweepStale (now : ClockReading) (olderThanSecs : UInt64)
  | reconcile (tenant id : String) (c : BudgetCorrection)

namespace BudgetRows

/-- A refused call leaves the rows it found. -/
def rowsOr {α : Type} (rows : BudgetRows) : Result (BudgetRows × α) → BudgetRows
  | .ok (rows, _) => rows
  | .error _ => rows

def after (rows : BudgetRows) : BudgetCall → BudgetRows
  | .reserve now id scope units revision limit =>
      rows.rowsOr (rows.reserve now id scope units revision limit)
  | .settle reservation actualUnits usage => rows.settle reservation actualUnits usage
  | .release reservation => rows.release reservation
  | .sweepStale now olderThanSecs => (rows.sweepStale now olderThanSecs).1
  | .reconcile tenant id c => rows.rowsOr (rows.reconcile tenant id c)

/-- Drawn ids are new. -/
def Fresh (rows : BudgetRows) : BudgetCall → Prop
  | .reserve _ id _ _ _ _ => ∀ r ∈ rows, r.id ≠ id
  | _ => True

/-- What a run of calls leads to. -/
inductive Run : BudgetRows → BudgetRows → Prop
  | refl (rows : BudgetRows) : Run rows rows
  | step {rows mid : BudgetRows} (call : BudgetCall) (h : Run rows mid) (hfresh : mid.Fresh call) :
      Run rows (mid.after call)

def Reachable (rows : BudgetRows) : Prop := Run [] rows

end BudgetRows

end Munarium
