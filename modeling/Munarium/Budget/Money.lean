import Munarium.Budget.Prices
import Munarium.Lib.NumberedChain
import Mathlib.Logic.Function.Basic

/-! `MoneyStore`: the catalogue of prices, the attempts and their observations, each call one
transaction. The lock of the tenant or of the attempt's row serializes the transactions. -/
namespace Munarium

structure MoneyObservation where
  id : String
  attemptId : String
  previousRevision : ℤ
  usage : MoneyUsage
  accountedUnits : UInt64
  resolved : Bool
  evidenceRef : String
  priceId : Option String
  deriving DecidableEq

structure MoneyAttempt where
  id : String
  invocationId : String
  provider : String
  route : String
  model : String
  submittedAt : ℤ
  accountedUnits : UInt64
  priceId : Option String
  deriving DecidableEq

/-- A row of `monetary_observations`; its id and attempt are those of the observation. -/
structure ObservedRow where
  observation : MoneyObservation
  revision : ℕ
  calculation : Calculation
  deriving DecidableEq

/-- One tenant's rows. -/
structure MoneyBook where
  prices : List PriceSnapshot
  attempts : List MoneyAttempt
  observations : List ObservedRow

namespace PriceSnapshot

/-- Prices of the same provider, route and model. -/
def SameTariff (p q : PriceSnapshot) : Prop :=
  p.provider = q.provider ∧ p.route = q.route ∧ p.model = q.model

instance (p q : PriceSnapshot) : Decidable (p.SameTariff q) :=
  inferInstanceAs (Decidable (_ ∧ _))

def clashes (old price : PriceSnapshot) : Bool :=
  decide (old.id = price.id ∨ (old.SameTariff price ∧ old.validFrom < price.validUntil ∧
    price.validFrom < old.validUntil))

/-- The scan of the catalogue: whether the price is in it already. -/
def scan (price : PriceSnapshot) : List PriceSnapshot → Result Bool
  | [] => .ok false
  | old :: rest =>
      if old = price then .ok true
      else if old.clashes price then
        .error (.invalidInput "price identity reused or validity windows overlap")
      else price.scan rest

/-- The price is for this tariff at this time. -/
def Serves (p : PriceSnapshot) (provider route model : String) (submitted : ℤ) : Prop :=
  p.provider = provider ∧ p.route = route ∧ p.model = model ∧ submitted ∈ p.window

instance (p : PriceSnapshot) (provider route model : String) (submitted : ℤ) :
    Decidable (p.Serves provider route model submitted) :=
  inferInstanceAs (Decidable (_ ∧ _ ∧ _ ∧ (_ ≤ _ ∧ _ < _)))

end PriceSnapshot

namespace MoneyObservation

/-- The tokens that the usage reports. -/
def observed (o : MoneyObservation) : Option UInt64 :=
  (o.usage.input.getD 0).checkedAdd (o.usage.output.getD 0)

def incomplete (o : MoneyObservation) : Bool :=
  !o.resolved || o.usage.input.isNone || o.usage.output.isNone || o.usage.unknownCategories

/-- The units cover what was observed and, while something is open, the estimate. -/
def covers (o : MoneyObservation) (observed estimate : UInt64) : Bool :=
  !(decide (o.accountedUnits < observed) ||
    (o.incomplete && decide (o.accountedUnits < estimate)))

end MoneyObservation

namespace MoneyBook

def addPrice (b : MoneyBook) (price : PriceSnapshot) : Result (MoneyBook × Unit) :=
  match price.validate with
  | .error e => .error e
  | .ok () =>
      match price.scan b.prices with
      | .error e => .error e
      | .ok true => .ok (b, ())
      | .ok false => .ok ({ b with prices := b.prices ++ [price] }, ())

/-- `begin`, with the id that is drawn and the reading of the database's clock. -/
def beginAttempt (b : MoneyBook) (drawn : String) (submitted : ℤ)
    (invocation provider route model : String) (estimate : UInt64) :
    Result (MoneyBook × String) :=
  let price := b.prices.find? fun p => decide (p.Serves provider route model submitted)
  if b.attempts.any (·.id == drawn) then .error (.storage "duplicate key")
  else .ok ({ b with attempts := b.attempts ++ [{ id := drawn
                                                  invocationId := invocation
                                                  provider := provider
                                                  route := route
                                                  model := model
                                                  submittedAt := submitted
                                                  accountedUnits := estimate
                                                  priceId := price.map (·.id) }] }, drawn)

/-- The attempt's rows, in the order of insertion. -/
def observationsOf (b : MoneyBook) (attemptId : String) : List ObservedRow :=
  b.observations.filter fun row => row.observation.attemptId == attemptId

/-- The row with the greatest revision. -/
def latest (b : MoneyBook) (attemptId : String) : Option ObservedRow :=
  (b.observationsOf attemptId).foldl
    (newer (fun n m => decide (m.getD 0 < n.getD 0)) fun row => some row.revision) none

def latestRevision (b : MoneyBook) (attemptId : String) : ℕ :=
  ((b.latest attemptId).map (·.revision)).getD 0

/-- The attempt's own price, or that of its latest calculation. -/
def pin (b : MoneyBook) (a : MoneyAttempt) : Option String :=
  a.priceId.or ((b.latest a.id).bind (·.calculation.priceId))

def selected (b : MoneyBook) (a : MoneyAttempt) (o : MoneyObservation) :
    Result (Option String) :=
  if (b.pin a).isSome ∧ o.priceId.isSome ∧ b.pin a ≠ o.priceId then
    .error (.invalidInput "an attempt's price pin cannot change")
  else .ok ((b.pin a).or o.priceId)

def priceOf (b : MoneyBook) : Option String → Result (Option PriceSnapshot)
  | none => .ok none
  | some id =>
      match b.prices.find? (·.id == id) with
      | none => .error (.invalidInput "unknown price snapshot")
      | some p => .ok (some p)

/-- The price of an observation, which is one that served the attempt. -/
def priceFor (b : MoneyBook) (a : MoneyAttempt) (o : MoneyObservation) :
    Result (Option PriceSnapshot) :=
  match b.selected a o with
  | .error e => .error e
  | .ok id =>
      match b.priceOf id with
      | .error e => .error e
      | .ok price =>
          if price.all fun p => decide (p.Serves a.provider a.route a.model a.submittedAt) then
            .ok price
          else .error (.invalidInput "price is not applicable at submission")

/-- A new observation: priced, calculated and appended as the next revision. -/
def record (b : MoneyBook) (a : MoneyAttempt) (o : MoneyObservation) :
    Result (MoneyBook × Calculation) :=
  if o.previousRevision ≠ b.latestRevision a.id then
    .error (.invalidInput "stale monetary observation revision")
  else
    match b.priceFor a o with
    | .error e => .error e
    | .ok price =>
        match calculate price a.submittedAt o.usage with
        | .error e => .error e
        | .ok calculation =>
            if b.latestRevision a.id + 1 < 2 ^ 63 then
              .ok ({ b with
                observations := b.observations ++
                  [⟨o, b.latestRevision a.id + 1, calculation⟩] }, calculation)
            else .error (.invalidInput "observation revision overflow")

def observe (b : MoneyBook) (o : MoneyObservation) : Result (MoneyBook × Calculation) :=
  if o.id = "" ∨ o.evidenceRef = "" ∨ o.previousRevision < 0 then
    .error (.invalidInput "observation needs identity, evidence and previous revision")
  else
    match b.attempts.find? (·.id == o.attemptId) with
    | none => .error (.notFound "monetary-attempt" o.attemptId)
    | some a =>
        match o.observed with
        | none => .error (.invalidInput "observed token total overflow")
        | some observed =>
            if !o.covers observed a.accountedUnits then
              .error (.invalidInput
                "accounted units must cover observed usage and unresolved estimate")
            else
              match b.observations.find? (·.observation.id == o.id) with
              | some old =>
                  if old.observation = o then .ok (b, old.calculation)
                  else .error (.invalidInput "observation identity reused")
              | none => b.record a o

end MoneyBook

abbrev MoneyBooks := String → MoneyBook

inductive MoneyCall where
  | addPrice (tenant : String) (price : PriceSnapshot)
  | beginAttempt (tenant drawn : String) (submitted : ℤ)
      (invocation provider route model : String) (estimate : UInt64)
  | observe (tenant : String) (o : MoneyObservation)

inductive MoneyReply where
  | added (r : Result Unit)
  | begun (r : Result String)
  | observed (r : Result Calculation)

def MoneyReply.Refused : MoneyReply → Prop
  | .added r => ∃ e, r = .error e
  | .begun r => ∃ e, r = .error e
  | .observed r => ∃ e, r = .error e

namespace MoneyBooks

/-- The tables before the first call. -/
def unwritten : MoneyBooks := fun _ => ⟨[], [], []⟩

/-- A transaction that fails is rolled back. -/
def commit {α : Type} (books : MoneyBooks) (tenant : String) :
    Result (MoneyBook × α) → MoneyBooks × Result α
  | .ok (b, a) => (Function.update books tenant b, .ok a)
  | .error e => (books, .error e)

def step (books : MoneyBooks) : MoneyCall → MoneyBooks × MoneyReply
  | .addPrice tenant price =>
      (books.commit tenant ((books tenant).addPrice price)).map id .added
  | .beginAttempt tenant drawn submitted invocation provider route model estimate =>
      (books.commit tenant ((books tenant).beginAttempt drawn submitted invocation provider
        route model estimate)).map id .begun
  | .observe tenant o => (books.commit tenant ((books tenant).observe o)).map id .observed

def after (books : MoneyBooks) (call : MoneyCall) : MoneyBooks := (books.step call).1

/-- The books after some calls, whoever makes them. -/
def run (calls : List MoneyCall) : MoneyBooks := calls.foldl after unwritten

end MoneyBooks
end Munarium
