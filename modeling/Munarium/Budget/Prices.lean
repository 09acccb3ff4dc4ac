import Mathlib.Data.Int.ConditionallyCompleteOrder
import Mathlib.Order.ConditionallyCompleteLattice.Basic
import Mathlib.Data.String.Basic
import Munarium.Core.Types
import Munarium.Lib.Checked
import Munarium.Lib.SortedMap
import Munarium.Std.Digest

/-! Optional accounting: operator prices and the amount a usage costs at one of them. Of an
instant only its place in time matters, so it is an integer. -/
namespace Munarium

structure Rate where
  microUnits : UInt64
  perTokens : UInt64
  deriving DecidableEq

inductive Basis where
  | inclusive
  | partitioned
  deriving DecidableEq

structure PriceSnapshot where
  id : String
  provider : String
  route : String
  model : String
  currency : String
  validFrom : ℤ
  validUntil : ℤ
  basis : Basis
  rates : SortedMap String Rate
  deriving DecidableEq

def rateCategories : List String :=
  ["input", "output", "cache_read", "cache_write", "reasoning", "context"]

def Basis.required : Basis → List String
  | .inclusive => ["input", "output"]
  | .partitioned => rateCategories

def isRouteByte (b : UInt8) : Bool := (0x30 ≤ b && b ≤ 0x39) || (0x61 ≤ b && b ≤ 0x66)

def isCurrencyByte (b : UInt8) : Bool := 0x41 ≤ b && b ≤ 0x5a

namespace PriceSnapshot

def rateKeys (p : PriceSnapshot) : List String := p.rates.entries.map Prod.fst

def isValid (p : PriceSnapshot) : Bool :=
  !(p.id == "" || p.provider == "" || p.model == "" || (utf8 p.route).length != 64 ||
    !(utf8 p.route).all isRouteByte || (utf8 p.currency).length != 3 ||
    !(utf8 p.currency).all isCurrencyByte || decide (p.validUntil ≤ p.validFrom) ||
    p.rates.values.any (·.perTokens == 0) || p.rateKeys.any (!rateCategories.contains ·) ||
    (p.basis == .inclusive && p.rateKeys.any fun k => k != "input" && k != "output"))

def validate (p : PriceSnapshot) : Result Unit :=
  if p.isValid then .ok () else .error (.invalidInput "invalid price snapshot")

def validAt (t : ℤ) (p : PriceSnapshot) : Bool := decide (p.validFrom ≤ t ∧ t < p.validUntil)

/-- The instants at which the price holds. -/
def window (p : PriceSnapshot) : Set ℤ := Set.Ico p.validFrom p.validUntil

end PriceSnapshot

structure MoneyUsage where
  input : Option UInt64
  output : Option UInt64
  cacheRead : Option UInt64
  cacheWrite : Option UInt64
  reasoning : Option UInt64
  context : Option UInt64
  unknownCategories : Bool
  deriving DecidableEq

structure Calculation where
  priceId : Option String
  currency : Option String
  microUnits : Option String
  missingPrice : Bool
  missingUsage : Bool
  unknownCategories : Bool
  deriving DecidableEq

/-- A subset of the usage is above its total. -/
def MoneyUsage.subsetExceeds (u : MoneyUsage) : Bool :=
  u.input.any (fun input =>
    ((u.cacheRead.getD 0).checkedAdd (u.cacheWrite.getD 0)).all fun n => decide (input < n)) ||
  u.reasoning.any fun reasoning => u.output.any fun output => decide (output < reasoning)

abbrev TokenCounts := List (String × UInt64)

def Rate.amount (r : Rate) (tokens : UInt64) : ℕ :=
  (tokens.toNat * r.microUnits.toNat + r.perTokens.toNat - 1) / r.perTokens.toNat

/-- The total over the categories with a rate, and whether one has none. -/
def PriceSnapshot.total (p : PriceSnapshot) : ℕ × Bool → TokenCounts → Result (ℕ × Bool)
  | acc, [] => .ok acc
  | (total, missing), (category, tokens) :: rest =>
      match p.rates.get? category with
      | none => p.total (total, true) rest
      | some rate =>
          if total + rate.amount tokens < 2 ^ 128 then
            p.total (total + rate.amount tokens, missing) rest
          else .error (.invalidInput "monetary total overflow")

namespace Calculation

/-- The amount is written where nothing is missing. -/
def charged (c : Calculation) (p : PriceSnapshot) (counts : TokenCounts) : Result Calculation :=
  match p.total (0, c.missingPrice) counts with
  | .error e => .error e
  | .ok (total, missing) =>
      let c := { c with missingPrice := missing }
      if !missing && !c.unknownCategories then
        if total < 2 ^ 64 then .ok { c with microUnits := some (toString total) }
        else .error (.invalidInput "monetary total exceeds u64 micro-units")
      else .ok c

/-- Totals at their rates; a context count has no rate here. -/
def inclusive (c : Calculation) (p : PriceSnapshot) (usage : MoneyUsage)
    (input output : UInt64) : Result Calculation :=
  { c with
    unknownCategories := c.unknownCategories || usage.context.any fun n => decide (0 < n)
  }.charged p [("input", input), ("output", output)]

/-- Disjoint categories at their rates. -/
def partitioned (c : Calculation) (p : PriceSnapshot) (usage : MoneyUsage)
    (input output : UInt64) : Result Calculation :=
  match usage.cacheRead, usage.cacheWrite, usage.reasoning, usage.context with
  | some read, some write, some reasoning, some context =>
      if input < read ∨ input - read < write then
        .error (.invalidInput "cache usage exceeds input total")
      else if output < reasoning then
        .error (.invalidInput "reasoning usage exceeds output total")
      else c.charged p [("cache_read", read), ("cache_write", write), ("context", context),
        ("input", input - read - write), ("output", output - reasoning),
        ("reasoning", reasoning)]
  | _, _, _, _ => .ok { c with missingUsage := true }

/-- The calculation before any rate is applied. -/
def uncharged (price : Option PriceSnapshot) (usage : MoneyUsage) : Calculation where
  priceId := price.map (·.id)
  currency := price.map (·.currency)
  microUnits := none
  missingPrice := price.isNone
  missingUsage := usage.input.isNone || usage.output.isNone
  unknownCategories := usage.unknownCategories

/-- A category that the basis requires has no rate. -/
def checkRates (c : Calculation) (p : PriceSnapshot) : Calculation :=
  { c with
    missingPrice := c.missingPrice || p.basis.required.any fun k => (p.rates.get? k).isNone }

def priced (p : PriceSnapshot) (usage : MoneyUsage) : Result Calculation :=
  match p.validate with
  | .error e => .error e
  | .ok () =>
      let c := (uncharged (some p) usage).checkRates p
      match usage.input, usage.output with
      | some input, some output =>
          match p.basis with
          | .inclusive => c.inclusive p usage input output
          | .partitioned => c.partitioned p usage input output
      | _, _ => .ok c

end Calculation

def calculate (price : Option PriceSnapshot) (submitted : ℤ) (usage : MoneyUsage) :
    Result Calculation :=
  if usage.subsetExceeds then .error (.invalidInput "usage subset exceeds parent total")
  else
    match price.filter (·.validAt submitted) with
    | none => .ok (.uncharged none usage)
    | some p => Calculation.priced p usage

/-- Applying rates changes neither the price nor the currency. -/
def Calculation.SamePrice (c d : Calculation) : Prop :=
  d.priceId = c.priceId ∧ d.currency = c.currency

/-- Nothing is missing where an amount is given. -/
def Calculation.AmountComplete (c : Calculation) : Prop :=
  c.microUnits.isSome → c.missingPrice = false ∧ c.missingUsage = false ∧
    c.unknownCategories = false

namespace Calculation

variable {c d : Calculation} {p : PriceSnapshot} {usage : MoneyUsage}

/-- With the totals counted and no amount yet, charging keeps the price and gives an amount only
where nothing is missing. -/
theorem charged_eq_ok {counts : TokenCounts} (hnone : c.microUnits = none)
    (husage : c.missingUsage = false) (h : c.charged p counts = .ok d) :
    c.SamePrice d ∧ d.AmountComplete := by
  unfold charged at h
  cases htotal : p.total (0, c.missingPrice) counts with
  | error e => simp [htotal] at h
  | ok acc =>
    obtain ⟨total, missing⟩ := acc
    simp only [htotal] at h
    split_ifs at h with hcomplete hbound
    · cases h
      rw [Bool.and_eq_true, Bool.not_eq_true', Bool.not_eq_true'] at hcomplete
      exact ⟨⟨rfl, rfl⟩, fun _ => ⟨hcomplete.1, husage, hcomplete.2⟩⟩
    · cases h
      constructor
      · exact ⟨rfl, rfl⟩
      · intro hsome
        simp [hnone] at hsome

theorem inclusive_eq_ok {input output : UInt64} (hnone : c.microUnits = none)
    (husage : c.missingUsage = false) (h : c.inclusive p usage input output = .ok d) :
    c.SamePrice d ∧ d.AmountComplete := by
  unfold inclusive at h
  obtain ⟨hsame, hcomplete⟩ := charged_eq_ok (by exact hnone) (by exact husage) h
  exact ⟨hsame, hcomplete⟩

theorem partitioned_eq_ok {input output : UInt64} (hnone : c.microUnits = none)
    (husage : c.missingUsage = false) (h : c.partitioned p usage input output = .ok d) :
    c.SamePrice d ∧ d.AmountComplete := by
  have hmissing (h : Except.ok (ε := KernelError) { c with missingUsage := true } = .ok d) :
      c.SamePrice d ∧ d.AmountComplete := by
    cases h
    constructor
    · exact ⟨rfl, rfl⟩
    · intro hsome
      simp [hnone] at hsome
  unfold partitioned at h
  split at h
  · split_ifs at h
    exact charged_eq_ok hnone husage h
  · exact hmissing h

theorem priced_eq_ok (h : priced p usage = .ok c) :
    c.priceId = some p.id ∧ c.AmountComplete := by
  have hunmade (d : Calculation) (hnone : d.microUnits = none) : d.AmountComplete := by
    intro hsome
    simp [hnone] at hsome
  unfold priced at h
  cases hvalid : p.validate with
  | error e => simp [hvalid] at h
  | ok u =>
    simp only [hvalid] at h
    cases hin : usage.input with
    | none =>
      simp only [hin] at h
      cases h
      exact ⟨rfl, hunmade _ rfl⟩
    | some input =>
      cases hout : usage.output with
      | none =>
        simp only [hin, hout] at h
        cases h
        exact ⟨rfl, hunmade _ rfl⟩
      | some output =>
        have hnone : ((uncharged (some p) usage).checkRates p).microUnits = none := rfl
        have husage : ((uncharged (some p) usage).checkRates p).missingUsage = false := by
          simp [checkRates, uncharged, hin, hout]
        have hid : ((uncharged (some p) usage).checkRates p).priceId = some p.id := rfl
        simp only [hin, hout] at h
        generalize (uncharged (some p) usage).checkRates p = d at *
        cases hbasis : p.basis with
        | inclusive =>
          simp only [hbasis] at h
          obtain ⟨hsame, hcomplete⟩ := inclusive_eq_ok hnone husage h
          exact ⟨hsame.1.trans hid, hcomplete⟩
        | partitioned =>
          simp only [hbasis] at h
          obtain ⟨hsame, hcomplete⟩ := partitioned_eq_ok hnone husage h
          exact ⟨hsame.1.trans hid, hcomplete⟩

end Calculation

section Calculate
variable {price : Option PriceSnapshot} {p : PriceSnapshot} {submitted : ℤ} {usage : MoneyUsage}
  {c : Calculation}

theorem PriceSnapshot.validAt_iff : p.validAt submitted = true ↔ submitted ∈ p.window := by
  simp [PriceSnapshot.validAt, PriceSnapshot.window]

/-- A calculation names the price it was made with. -/
theorem calculate_some (hvalid : submitted ∈ p.window)
    (h : calculate (some p) submitted usage = .ok c) : c.priceId = some p.id := by
  unfold calculate at h
  split_ifs at h
  rw [Option.filter_some, if_pos (PriceSnapshot.validAt_iff.mpr hvalid)] at h
  exact (Calculation.priced_eq_ok h).1

theorem calculate_none (h : calculate none submitted usage = .ok c) : c.priceId = none := by
  unfold calculate at h
  split_ifs at h
  cases h
  rfl

/-- An amount is given only where no price, no count and no category is missing. -/
theorem calculate_amount_complete (h : calculate price submitted usage = .ok c) :
    c.AmountComplete := by
  unfold calculate at h
  split_ifs at h
  cases hprice : price.filter (·.validAt submitted) with
  | none =>
    rw [hprice] at h
    cases h
    intro hsome
    cases hsome
  | some p =>
    rw [hprice] at h
    exact (Calculation.priced_eq_ok h).2

end Calculate
end Munarium
