import Munarium.Budget.Prices
import Munarium.Budget.Window

/-! `complete_guarded` around `capture`: a completion under a tier's reservation whose physical
attempts each reserve in the provider config's total. Every store call is one step, and may fail
before or after it takes effect. -/
namespace Munarium

structure CompletionEstimate where
  input : UInt64
  output : UInt64
  deriving DecidableEq

namespace CompletionEstimate

def REVISION : String := "effective-json-bytes-v1"

def total (e : CompletionEstimate) : Result UInt64 :=
  match e.input.checkedAdd e.output with
  | some units => .ok units
  | none => .error (.invalidInput "completion estimate overflow")

def account (e : CompletionEstimate) (usage : UsageEvidence) : Result UInt64 :=
  if usage.Complete then
    match e.total with
    | .error err => .error err
    | .ok units => usage.accountedUnits units
  else
    match (usage.inputTokens.getD e.input).checkedAdd (usage.outputTokens.getD e.output) with
    | none => .error (.provider "completion usage total exceeds u64")
    | some subtotal =>
        match e.total with
        | .error err => .error err
        | .ok units => .ok (max units subtotal)

end CompletionEstimate

inductive ModelTier where
  | fast | capable | frontier
  deriving DecidableEq

def ModelTier.asStr : ModelTier → String
  | fast => "fast"
  | capable => "capable"
  | frontier => "frontier"

/-- The evidence an attempt's usage gives the budget. -/
def MoneyUsage.evidence (u : MoneyUsage) : UsageEvidence where
  inputTokens := u.input
  outputTokens := u.output
  source :=
    if u.unknownCategories then .malformed
    else if u.input.isNone ∧ u.output.isNone then .missing
    else .providerReported

/-- A completion on a provider config with a daily total; its estimate is checked. -/
structure GuardedRequest where
  tenant : String
  config : String
  tier : Option ModelTier
  tierLimit : Option UInt64
  limit : UInt64
  estimate : CompletionEstimate
  units : UInt64
  total : estimate.total = .ok units

def GuardedRequest.scope (q : GuardedRequest) (tier : String) : BudgetScope :=
  ⟨q.tenant, q.config, tier⟩

/-- How a store call ends: it works, it fails, or its answer is lost. -/
inductive StoreFault where
  | works
  | failed
  | unanswered
  deriving DecidableEq

/-- Where the observed work stands between two store calls. -/
inductive WorkPoint where
  | ready
  | granted (r : BudgetReservation)
  | refused (r : BudgetReservation)
  | admitted (attempt : String) (r : BudgetReservation)
  | settling (r : BudgetReservation) (usage : MoneyUsage) (units : UInt64)

/-- The observer of one call, the attempt that its provider may still finish, and the tier's
reservation that waits outside. -/
structure ObservedWork where
  tier : Option BudgetReservation
  admitted : Bool
  reservations : List (String × BudgetReservation)
  current : Option String
  point : WorkPoint

inductive CallPhase where
  | arrived
  | working (w : ObservedWork)
  | closing (tier : Option BudgetReservation) (admitted : Bool) (result : Option UsageEvidence)
  | over

/-- An attempt whose request was sent, with the reservations that cover it. -/
structure Dispatch where
  attempt : String
  reservation : BudgetReservation
  tier : Option BudgetReservation

/-- An attempt whose `finish` ran with a working store; a sweep may have settled it before. -/
structure Finish where
  reservation : BudgetReservation
  usage : MoneyUsage
  swept : Bool

/-- A call with what it was granted, what it dispatched and what it finished. -/
structure GuardedCall where
  request : GuardedRequest
  phase : CallPhase
  granted : List BudgetReservation
  dispatched : List Dispatch
  finished : List Finish

inductive CallEvent where
  | reserveTier (now : ClockReading) (drawn : String) (fault : StoreFault)
  | beginAttempt (now : ClockReading) (drawn : String) (fault : StoreFault)
  | moneyBegin (attempt : Option String)
  | releaseAttempt (fault : StoreFault)
  | dispatch
  | finish (usage : MoneyUsage)
  | settleAttempt (fault : StoreFault)
  | endWork (result : Option UsageEvidence)
  | close (fault : StoreFault)
  | cancel

namespace GuardedCall

def start (q : GuardedRequest) : GuardedCall := ⟨q, .arrived, [], [], []⟩

def enter (c : GuardedCall) (p : CallPhase) : GuardedCall := { c with phase := p }

def grant (c : GuardedCall) (r : BudgetReservation) : GuardedCall :=
  { c with granted := c.granted ++ [r] }

/-- The store call that takes effect under a fault. -/
def effective (fault : StoreFault) (call : BudgetCall) : Option BudgetCall :=
  match fault with
  | .failed => none
  | _ => some call

def tierCall (q : GuardedRequest) (t : ModelTier) (now : ClockReading) (drawn : String) :
    BudgetCall :=
  .reserve now drawn (q.scope t.asStr) q.units (some CompletionEstimate.REVISION) q.tierLimit

def attemptCall (q : GuardedRequest) (now : ClockReading) (drawn : String) : BudgetCall :=
  .reserve now drawn (q.scope "all") q.units (some "physical-attempt-v1") (some q.limit)

/-- The outcome of a reservation, where the caller learns it. -/
def outcomeOf (rows : BudgetRows) (fault : StoreFault) : BudgetCall → Option BudgetOutcome
  | .reserve now id scope units revision limit =>
      match fault, rows.reserve now id scope units revision limit with
      | .works, .ok (_, outcome) => some outcome
      | _, _ => none
  | _ => none

def observed (tier : Option BudgetReservation) : CallPhase :=
  .working ⟨tier, false, [], none, .ready⟩

/-- The tier's reservation, before the work. -/
def reserveTier (rows : BudgetRows) (c : GuardedCall) (now : ClockReading) (drawn : String)
    (fault : StoreFault) : Option BudgetCall × GuardedCall :=
  match c.request.tier with
  | none => (none, c.enter (observed none))
  | some t =>
      let call := tierCall c.request t now drawn
      (effective fault call,
        match outcomeOf rows fault call with
        | some .unlimited => c.enter (observed none)
        | some (.granted r) => (c.grant r).enter (observed (some r))
        | _ => c.enter .over)

/-- `begin`, up to its reservation. -/
def beginAttempt (rows : BudgetRows) (c : GuardedCall) (w : ObservedWork) (now : ClockReading)
    (drawn : String) (fault : StoreFault) : Option BudgetCall × GuardedCall :=
  let call := attemptCall c.request now drawn
  (effective fault call,
    match outcomeOf rows fault call with
    | some (.granted r) => (c.grant r).enter (.working { w with point := .granted r })
    | _ => c)

/-- `begin`, from the answer of the money store. -/
def moneyBegin (c : GuardedCall) (w : ObservedWork) (r : BudgetReservation) :
    Option String → GuardedCall
  | some attempt => c.enter (.working { w with
      admitted := true
      reservations := (attempt, r) :: w.reservations.filter (·.1 != attempt)
      point := .admitted attempt r })
  | none => c.enter (.working { w with point := .refused r })

def dispatch (c : GuardedCall) (w : ObservedWork) (attempt : String) (r : BudgetReservation) :
    GuardedCall :=
  { c with
    dispatched := c.dispatched ++ [⟨attempt, r, w.tier⟩]
    phase := .working { w with current := some attempt, point := .ready } }

def record (c : GuardedCall) (swept : List String) (r : BudgetReservation) (usage : MoneyUsage) :
    GuardedCall :=
  { c with finished := c.finished ++ [⟨r, usage, swept.contains r.id⟩] }

/-- `finish`, up to its settlement: an overflowing usage retains the estimate. -/
def finish (swept : List String) (c : GuardedCall) (w : ObservedWork) (usage : MoneyUsage) :
    GuardedCall :=
  match w.current with
  | none => c
  | some attempt =>
      match w.reservations.lookup attempt with
      | none => c.enter (.working { w with current := none })
      | some r =>
          let w := { w with
            current := none
            reservations := w.reservations.filter (·.1 != attempt) }
          match usage.evidence.accountedUnits c.request.units with
          | .ok units => c.enter (.working { w with point := .settling r usage units })
          | .error _ => (c.record swept r usage).enter (.working w)

def settleAttempt (swept : List String) (c : GuardedCall) (w : ObservedWork)
    (r : BudgetReservation) (usage : MoneyUsage) (units : UInt64) (fault : StoreFault) :
    Option BudgetCall × GuardedCall :=
  (effective fault (.settle r (some units) (some usage.evidence)),
    (match fault with
      | .works => c.record swept r usage
      | _ => c).enter (.working { w with point := .ready }))

/-- The units the tier's reservation is settled at, where there are any. -/
def accounted (q : GuardedRequest) (result : Option UsageEvidence) : Option UInt64 :=
  match result with
  | none => none
  | some usage =>
      match q.estimate.account usage with
      | .ok units => some units
      | .error _ => none

/-- After the work: the tier's reservation is released where no attempt was admitted, and
settled otherwise. -/
def close (c : GuardedCall) (tier : Option BudgetReservation) (admitted : Bool)
    (result : Option UsageEvidence) (fault : StoreFault) : Option BudgetCall × GuardedCall :=
  (match tier with
    | none => none
    | some r =>
        if admitted then effective fault (.settle r (accounted c.request result) result)
        else effective fault (.release r),
    c.enter .over)

/-- One step of a call: the store call that takes effect, and the call after it. -/
def act (rows : BudgetRows) (swept : List String) (c : GuardedCall) :
    CallEvent → Option BudgetCall × GuardedCall
  | .reserveTier now drawn fault =>
      match c.phase with
      | .arrived => c.reserveTier rows now drawn fault
      | _ => (none, c)
  | .cancel => (none, c.enter .over)
  | .close fault =>
      match c.phase with
      | .closing tier admitted result => c.close tier admitted result fault
      | _ => (none, c)
  | e =>
      match c.phase with
      | .working w =>
          match e, w.point with
          | .beginAttempt now drawn fault, .ready => c.beginAttempt rows w now drawn fault
          | .moneyBegin attempt, .granted r => (none, c.moneyBegin w r attempt)
          | .releaseAttempt fault, .refused r =>
              (effective fault (.release r), c.enter (.working { w with point := .ready }))
          | .dispatch, .admitted attempt r => (none, c.dispatch w attempt r)
          | .finish usage, .ready => (none, c.finish swept w usage)
          | .settleAttempt fault, .settling r usage units =>
              c.settleAttempt swept w r usage units fault
          | .endWork result, .ready => (none, c.enter (.closing w.tier w.admitted result))
          | _, _ => (none, c)
      | _ => (none, c)

end GuardedCall

/-- The rows, the ids that sweeps have settled, and the calls. -/
structure SpendState where
  rows : BudgetRows
  swept : List String
  calls : List GuardedCall

inductive SpendEvent where
  | arrive (q : GuardedRequest)
  | call (i : ℕ) (e : CallEvent)
  | sweepStale (now : ClockReading) (olderThanSecs : UInt64)

namespace SpendState

/-- A store with rows of earlier days and no call. -/
def start (rows : BudgetRows) : SpendState := ⟨rows, [], []⟩

/-- The ids of the rows that a call settles as stale. -/
def sweptBy (rows : BudgetRows) : BudgetCall → List String
  | .sweepStale now olderThanSecs =>
      (rows.filter (BudgetRows.isStale now olderThanSecs)).map (·.id)
  | _ => []

def store (s : SpendState) (call : BudgetCall) : SpendState :=
  { s with rows := s.rows.after call, swept := s.swept ++ sweptBy s.rows call }

/-- The state after what a call had the store do. -/
def stored (s : SpendState) : Option BudgetCall → SpendState
  | none => s
  | some call => s.store call

def step (s : SpendState) : SpendEvent → SpendState
  | .arrive q => { s with calls := s.calls ++ [.start q] }
  | .call i e =>
      match s.calls[i]? with
      | none => s
      | some c =>
          let (call, c') := c.act s.rows s.swept e
          { s.stored call with calls := s.calls.set i c' }
  | .sweepStale now olderThanSecs => s.store (.sweepStale now olderThanSecs)

/-- The ids that reservations draw are new. -/
def DrawsNew (s : SpendState) : SpendEvent → Prop
  | .call _ (.reserveTier _ drawn _) => ∀ row ∈ s.rows, row.id ≠ drawn
  | .call _ (.beginAttempt _ drawn _) => ∀ row ∈ s.rows, row.id ≠ drawn
  | _ => True

end SpendState
end Munarium
