import Munarium.Budget.Prices
import Munarium.Lib.Digits
import Mathlib.Algebra.Order.BigOperators.Group.List
import Mathlib.Algebra.Order.Floor.Semiring
import Mathlib.Data.Rat.Floor
import Mathlib.Tactic.FieldSimp

/-! What a calculation charges: the exact price of the disjoint categories of a usage. -/
namespace Munarium

/-- The price of a count, rounded up to a whole micro-unit. -/
def Rate.charge (r : Rate) (count : ℕ) : ℕ :=
  ⌈(count * r.microUnits.toNat : ℚ) / r.perTokens.toNat⌉₊

/-- A category without a rate is charged nothing. -/
def PriceSnapshot.categoryCharge (p : PriceSnapshot) (part : String × ℕ) : ℕ :=
  (p.rates.get? part.1).elim 0 fun r => r.charge part.2

def PriceSnapshot.charge (p : PriceSnapshot) (parts : List (String × ℕ)) : ℕ :=
  (parts.map p.categoryCharge).sum

/-- The disjoint categories a usage is charged in. -/
inductive MoneyUsage.Parts (u : MoneyUsage) : Basis → List (String × ℕ) → Prop
  | inclusive {input output : UInt64} (hinput : u.input = some input)
      (houtput : u.output = some output) :
      MoneyUsage.Parts u .inclusive [("input", input.toNat), ("output", output.toNat)]
  | partitioned {input output read write reasoning context : UInt64} {ordinary visible : ℕ}
      (hinput : u.input = some input) (houtput : u.output = some output)
      (hread : u.cacheRead = some read) (hwrite : u.cacheWrite = some write)
      (hreasoning : u.reasoning = some reasoning) (hcontext : u.context = some context)
      (hordinary : ordinary + read.toNat + write.toNat = input.toNat)
      (hvisible : visible + reasoning.toNat = output.toNat) :
      MoneyUsage.Parts u .partitioned [("cache_read", read.toNat), ("cache_write", write.toNat),
        ("context", context.toNat), ("input", ordinary), ("output", visible),
        ("reasoning", reasoning.toNat)]

/-- A positive context count has no category among the totals. -/
def MoneyUsage.Categorised (u : MoneyUsage) (basis : Basis) : Prop :=
  u.unknownCategories = false ∧ (basis = .inclusive → ∀ n ∈ u.context, n = 0)

/-- A subset of the usage is above its total. -/
def MoneyUsage.Exceeds (u : MoneyUsage) : Prop :=
  (∃ input, u.input = some input ∧
    input.toNat < (u.cacheRead.getD 0).toNat + (u.cacheWrite.getD 0).toNat) ∨
  ∃ reasoning output, u.reasoning = some reasoning ∧ u.output = some output ∧
    output < reasoning

/-- The price in force at the submission. -/
def InForce (price : Option PriceSnapshot) (submitted : ℤ) (p : PriceSnapshot) : Prop :=
  price = some p ∧ submitted ∈ p.window

/-- Nothing is missing from a price and a usage that splits into the given categories. -/
structure Chargeable (price : Option PriceSnapshot) (submitted : ℤ) (u : MoneyUsage)
    (p : PriceSnapshot) (parts : List (String × ℕ)) : Prop where
  inForce : InForce price submitted p
  validated : p.validate = .ok ()
  rated : ∀ k ∈ p.basis.required, ∃ r, p.rates.get? k = some r
  split : u.Parts p.basis parts
  categorised : u.Categorised p.basis

/-- The same price with no rate's micro-units lowered. -/
structure PriceSnapshot.RaisedTo (p q : PriceSnapshot) : Prop where
  same : q = { p with rates := q.rates }
  raised : List.Forall₂ (fun e f => f.1 = e.1 ∧ f.2.perTokens = e.2.perTokens ∧
    e.2.microUnits ≤ f.2.microUnits) p.rates.entries q.rates.entries

section Amounts
variable {r s : Rate} {p q : PriceSnapshot} {n : UInt64}

theorem Rate.charge_le_iff (h : r.perTokens ≠ 0) {count m : ℕ} :
    r.charge count ≤ m ↔ count * r.microUnits.toNat ≤ m * r.perTokens.toNat := by
  have hpos : (0 : ℚ) < r.perTokens.toNat := by
    have : r.perTokens.toNat ≠ 0 := fun h0 => h (UInt64.toNat_inj.mp h0)
    exact_mod_cast Nat.pos_of_ne_zero this
  rw [Rate.charge, Nat.ceil_le, div_le_iff₀ hpos]
  exact_mod_cast Iff.rfl

/-- Division rounding up in 128 bits is the exact price. -/
theorem Rate.amount_eq_charge (h : r.perTokens ≠ 0) : r.amount n = r.charge n.toNat := by
  have hpos : 0 < r.perTokens.toNat :=
    Nat.pos_of_ne_zero fun h0 => h (UInt64.toNat_inj.mp h0)
  have hle (m : ℕ) : r.amount n ≤ m ↔ r.charge n.toNat ≤ m := by
    rw [Rate.charge_le_iff h, Rate.amount, ← Nat.lt_succ_iff, Nat.div_lt_iff_lt_mul hpos,
      Nat.succ_mul]
    omega
  exact le_antisymm ((hle _).mpr le_rfl) ((hle _).mp le_rfl)

theorem Rate.product_lt (r : Rate) (n : UInt64) : n.toNat * r.microUnits.toNat < 2 ^ 128 := by
  calc n.toNat * r.microUnits.toNat
      ≤ (2 ^ 64 - 1) * (2 ^ 64 - 1) :=
        Nat.mul_le_mul (Nat.le_sub_one_of_lt n.toNat_lt)
          (Nat.le_sub_one_of_lt r.microUnits.toNat_lt)
    _ < 2 ^ 128 := by norm_num

theorem Rate.amount_le_product (h : r.perTokens ≠ 0) :
    r.amount n ≤ n.toNat * r.microUnits.toNat := by
  have hpos : 0 < r.perTokens.toNat :=
    Nat.pos_of_ne_zero fun h0 => h (UInt64.toNat_inj.mp h0)
  rw [Rate.amount_eq_charge h, Rate.charge_le_iff h]
  exact Nat.le_mul_of_pos_right _ hpos

theorem Rate.charge_mono {count : ℕ} (hper : s.perTokens = r.perTokens)
    (hmicro : r.microUnits ≤ s.microUnits) : r.charge count ≤ s.charge count := by
  rw [Rate.charge, Rate.charge, hper]
  apply Nat.ceil_le_ceil
  have : (r.microUnits.toNat : ℚ) ≤ s.microUnits.toNat := by
    exact_mod_cast UInt64.le_iff_toNat_le.mp hmicro
  gcongr

end Amounts

/-- The counts as numbers. -/
def TokenCounts.parts (counts : TokenCounts) : List (String × ℕ) :=
  counts.map fun c => (c.1, c.2.toNat)

/-- An amount is reported for complete categories only, and is their exact total; a failure is a
total beyond 64 bits. -/
def Reports (complete : Prop) (total : ℕ) : Result Calculation → Prop
  | .ok d => (∀ text, d.microUnits = some text ↔ complete ∧ text = toString total) ∧
      (complete → total < 2 ^ 64)
  | .error _ => 2 ^ 64 ≤ total

section Totals
variable {p : PriceSnapshot} {usage : MoneyUsage} {c d : Calculation} {counts : TokenCounts}
  {parts parts' : List (String × ℕ)} {complete complete' : Prop} {total : ℕ}

theorem Reports.congr {result : Result Calculation} (hiff : complete ↔ complete')
    (h : Reports complete total result) : Reports complete' total result := by
  rwa [← propext hiff]

theorem PriceSnapshot.validate_ok_iff : p.validate = .ok () ↔ p.isValid = true := by
  unfold PriceSnapshot.validate
  split_ifs with h <;> simp [h]

theorem PriceSnapshot.perTokens_ne_zero (h : p.isValid = true) {k : String} {r : Rate}
    (hr : p.rates.get? k = some r) : r.perTokens ≠ 0 := by
  intro hzero
  have hmem : r ∈ p.rates.values := SortedMap.mem_values_iff.mpr ⟨k, hr⟩
  have hany : p.rates.values.any (·.perTokens == 0) = true :=
    List.any_eq_true.mpr ⟨r, hmem, by simp [hzero]⟩
  simp [PriceSnapshot.isValid, hany] at h

theorem PriceSnapshot.charge_cons (part : String × ℕ) :
    p.charge (part :: parts) = p.categoryCharge part + p.charge parts := by
  simp [PriceSnapshot.charge]

/-- The running total is the exact price of the categories seen, or it leaves 128 bits. -/
theorem PriceSnapshot.total_eq (hvalid : p.isValid = true) {t : ℕ} {missing : Bool}
    (ht : t < 2 ^ 128) :
    p.total (t, missing) counts =
      if t + p.charge counts.parts < 2 ^ 128 then
        .ok (t + p.charge counts.parts,
          missing || counts.any fun c => (p.rates.get? c.1).isNone)
      else .error (.invalidInput "monetary total overflow") := by
  induction counts generalizing t missing with
  | nil =>
    rw [PriceSnapshot.total, if_pos (by simpa [TokenCounts.parts, PriceSnapshot.charge] using ht)]
    simp [TokenCounts.parts, PriceSnapshot.charge]
  | cons count rest ih =>
    obtain ⟨category, tokens⟩ := count
    have hparts : TokenCounts.parts ((category, tokens) :: rest) =
        (category, tokens.toNat) :: TokenCounts.parts rest := rfl
    rw [hparts, PriceSnapshot.charge_cons, PriceSnapshot.total]
    cases hrate : p.rates.get? category with
    | none => simp [ih ht, PriceSnapshot.categoryCharge, hrate]
    | some rate =>
      have hcharge : p.categoryCharge (category, tokens.toNat) = rate.amount tokens := by
        rw [Rate.amount_eq_charge (PriceSnapshot.perTokens_ne_zero hvalid hrate)]
        simp [PriceSnapshot.categoryCharge, hrate]
      rw [hcharge, ← Nat.add_assoc]
      dsimp only
      by_cases hfits : t + rate.amount tokens < 2 ^ 128
      · simp only [if_pos hfits, ih hfits, List.any_cons, hrate, Option.isNone_some, Bool.false_or]
      · rw [if_neg hfits, if_neg (by omega)]

theorem Calculation.charged_reports (hvalid : p.isValid = true) (hnone : c.microUnits = none) :
    Reports (c.missingPrice = false ∧ c.unknownCategories = false ∧
      ∀ count ∈ counts, ∃ r, p.rates.get? count.1 = some r) (p.charge counts.parts)
      (c.charged p counts) := by
  unfold Calculation.charged
  rw [PriceSnapshot.total_eq hvalid (by norm_num), Nat.zero_add]
  by_cases hwide : p.charge counts.parts < 2 ^ 128
  · have hpriced : (counts.any fun c => (p.rates.get? c.1).isNone) = false ↔
        ∀ count ∈ counts, ∃ r, p.rates.get? count.1 = some r := by
      simp [List.any_eq_false, Option.ne_none_iff_exists']
    have hiff : (!(c.missingPrice || counts.any fun c => (p.rates.get? c.1).isNone) &&
        !c.unknownCategories) = true ↔ (c.missingPrice = false ∧
          ∀ count ∈ counts, ∃ r, p.rates.get? count.1 = some r) ∧
          c.unknownCategories = false := by
      rw [Bool.and_eq_true, Bool.not_eq_true', Bool.not_eq_true', Bool.or_eq_false_iff, hpriced]
    rw [if_pos hwide]
    dsimp only
    split_ifs with hflags hfits
    · obtain ⟨⟨hmissing, hrated⟩, hknown⟩ := hiff.mp hflags
      refine ⟨fun text => ?_, fun _ => hfits⟩
      simp only [Option.some.injEq]
      constructor
      · intro htext
        exact ⟨⟨hmissing, hknown, hrated⟩, htext.symm⟩
      · intro htext
        exact htext.2.symm
    · exact not_lt.mp hfits
    · have hnot : ¬ (c.missingPrice = false ∧ c.unknownCategories = false ∧
          ∀ count ∈ counts, ∃ r, p.rates.get? count.1 = some r) := fun h =>
        hflags (hiff.mpr ⟨⟨h.1, h.2.2⟩, h.2.1⟩)
      refine ⟨fun text => ?_, fun h => absurd h hnot⟩
      constructor
      · intro htext
        cases hnone.symm.trans htext
      · intro htext
        exact absurd htext.1 hnot
  · rw [if_neg hwide]
    exact (by norm_num : (2 : ℕ) ^ 64 ≤ 2 ^ 128).trans (not_lt.mp hwide)

theorem MoneyUsage.Parts.unique {basis : Basis} (h : usage.Parts basis parts)
    (h' : usage.Parts basis parts') : parts' = parts := by
  cases h with
  | inclusive hinput houtput =>
    cases h' with
    | inclusive hinput' houtput' =>
      obtain rfl := Option.some.inj (hinput.symm.trans hinput')
      obtain rfl := Option.some.inj (houtput.symm.trans houtput')
      rfl
  | partitioned hinput houtput hread hwrite hreasoning hcontext hordinary hvisible =>
    cases h' with
    | partitioned hinput' houtput' hread' hwrite' hreasoning' hcontext' hordinary' hvisible' =>
      obtain rfl := Option.some.inj (hinput.symm.trans hinput')
      obtain rfl := Option.some.inj (houtput.symm.trans houtput')
      obtain rfl := Option.some.inj (hread.symm.trans hread')
      obtain rfl := Option.some.inj (hwrite.symm.trans hwrite')
      obtain rfl := Option.some.inj (hreasoning.symm.trans hreasoning')
      obtain rfl := Option.some.inj (hcontext.symm.trans hcontext')
      have hsame := hordinary.trans hordinary'.symm
      have hsame' := hvisible.trans hvisible'.symm
      congr <;> omega

theorem MoneyUsage.subsetExceeds_iff : usage.subsetExceeds = true ↔ usage.Exceeds := by
  have hall (a b input : UInt64) : (a.checkedAdd b).all (fun n => decide (input < n)) = true ↔
      input.toNat < a.toNat + b.toNat := by
    have hinput := input.toNat_lt
    cases hadd : a.checkedAdd b with
    | none =>
      have := UInt64.checkedAdd_eq_none_iff.mp hadd
      simp only [Option.all_none, true_iff]
      omega
    | some n =>
      have := UInt64.checkedAdd_eq_some_iff.mp hadd
      simp only [Option.all_some, decide_eq_true_eq, UInt64.lt_iff_toNat_lt]
      omega
  simp [MoneyUsage.subsetExceeds, MoneyUsage.Exceeds, Option.any_eq_true, hall]

/-- Every category that is counted is one the basis requires. -/
theorem MoneyUsage.Parts.required {basis : Basis} (h : usage.Parts basis parts) {k : String}
    {n : ℕ} (hmem : (k, n) ∈ parts) : k ∈ basis.required := by
  cases h with
  | inclusive =>
    have hkeys := List.mem_map_of_mem (f := Prod.fst) hmem
    simpa [Basis.required] using hkeys
  | partitioned =>
    have hkeys := List.mem_map_of_mem (f := Prod.fst) hmem
    simp only [List.map_cons, List.map_nil, List.mem_cons] at hkeys
    simp only [Basis.required, rateCategories, List.mem_cons]
    tauto

theorem checkRates_missing :
    ((Calculation.uncharged (some p) usage).checkRates p).missingPrice = false ↔
      ∀ k ∈ p.basis.required, ∃ r, p.rates.get? k = some r := by
  simp [Calculation.checkRates, Calculation.uncharged, Option.ne_none_iff_exists']

/-- With the counts of a usage, charging reports exactly the complete ones. -/
theorem Calculation.charged_parts (hvalid : p.isValid = true)
    (hsplit : usage.Parts p.basis counts.parts) (hnone : c.microUnits = none)
    (hmissing : c.missingPrice = ((uncharged (some p) usage).checkRates p).missingPrice)
    (hunknown : c.unknownCategories = false ↔ usage.Categorised p.basis) :
    Reports ((∀ k ∈ p.basis.required, ∃ r, p.rates.get? k = some r) ∧
      usage.Categorised p.basis) (p.charge counts.parts) (c.charged p counts) := by
  refine (charged_reports hvalid hnone).congr ?_
  rw [hmissing, checkRates_missing, hunknown]
  constructor
  · intro h
    exact ⟨h.1, h.2.1⟩
  · rintro ⟨hrated, hcategorised⟩
    refine ⟨hrated, hcategorised, fun count hcount => hrated count.1 ?_⟩
    exact hsplit.required (List.mem_map_of_mem (f := fun c => (c.1, c.2.toNat)) hcount)

theorem MoneyUsage.Parts.totals {basis : Basis} (h : usage.Parts basis parts) :
    usage.input ≠ none ∧ usage.output ≠ none := by
  cases h with
  | inclusive hinput houtput => simp [hinput, houtput]
  | partitioned hinput houtput => simp [hinput, houtput]

theorem MoneyUsage.Parts.subsets (h : usage.Parts .partitioned parts) :
    usage.cacheRead ≠ none ∧ usage.cacheWrite ≠ none ∧ usage.reasoning ≠ none ∧
      usage.context ≠ none := by
  cases h with
  | partitioned _ _ hread hwrite hreasoning hcontext => simp [hread, hwrite, hreasoning, hcontext]

/-- The checked subtractions give the counts that add up to the totals. -/
theorem MoneyUsage.parts_partitioned {input output read write reasoning context : UInt64}
    (hinput : usage.input = some input) (houtput : usage.output = some output)
    (hread : usage.cacheRead = some read) (hwrite : usage.cacheWrite = some write)
    (hreasoning : usage.reasoning = some reasoning) (hcontext : usage.context = some context)
    (hfit : ¬ usage.Exceeds) :
    ¬ (input < read ∨ input - read < write) ∧ ¬ output < reasoning ∧
      usage.Parts .partitioned (TokenCounts.parts [("cache_read", read), ("cache_write", write),
        ("context", context), ("input", input - read - write), ("output", output - reasoning),
        ("reasoning", reasoning)]) := by
  have hcache : read.toNat + write.toNat ≤ input.toNat := by
    by_contra hlt
    exact hfit (.inl ⟨input, hinput, by simpa [hread, hwrite] using hlt⟩)
  have hvisible : ¬ output < reasoning := fun hlt =>
    hfit (.inr ⟨reasoning, output, hreasoning, houtput, hlt⟩)
  have hle : reasoning.toNat ≤ output.toNat := by
    rwa [UInt64.lt_iff_toNat_lt, not_lt] at hvisible
  have hread' : (input - read).toNat = input.toNat - read.toNat :=
    UInt64.toNat_sub_of_le _ _ (UInt64.le_iff_toNat_le.mpr (by omega))
  have hwrite' : (input - read - write).toNat = input.toNat - read.toNat - write.toNat := by
    rw [UInt64.toNat_sub_of_le _ _ (UInt64.le_iff_toNat_le.mpr (by omega)), hread']
  have hreasoning' : (output - reasoning).toNat = output.toNat - reasoning.toNat :=
    UInt64.toNat_sub_of_le _ _ (UInt64.le_iff_toNat_le.mpr hle)
  refine ⟨?_, hvisible, ?_⟩
  · rw [UInt64.lt_iff_toNat_lt, UInt64.lt_iff_toNat_lt, hread']
    omega
  · apply MoneyUsage.Parts.partitioned hinput houtput hread hwrite hreasoning hcontext
    · rw [hwrite']
      omega
    · rw [hreasoning']
      omega

/-- A price in force reports the complete categories of a usage, or the usage splits into none. -/
def Calculation.Judged (p : PriceSnapshot) (usage : MoneyUsage)
    (result : Result Calculation) : Prop :=
  (∃ parts, usage.Parts p.basis parts ∧
    Reports ((∀ k ∈ p.basis.required, ∃ r, p.rates.get? k = some r) ∧
      usage.Categorised p.basis) (p.charge parts) result) ∨
  (∀ parts, ¬ usage.Parts p.basis parts) ∧ ∃ d, result = .ok d ∧ d.microUnits = none

namespace Calculation

theorem inclusive_judged (hvalid : p.isValid = true) (hbasis : p.basis = .inclusive)
    {input output : UInt64} (hinput : usage.input = some input)
    (houtput : usage.output = some output) :
    Judged p usage (((uncharged (some p) usage).checkRates p).inclusive p usage input output) := by
  have hsplit : usage.Parts p.basis
      (TokenCounts.parts [("input", input), ("output", output)]) := by
    rw [hbasis]
    exact .inclusive hinput houtput
  refine .inl ⟨_, hsplit, ?_⟩
  apply charged_parts hvalid hsplit
  · rfl
  · rfl
  · cases hcontext : usage.context <;>
      simp [checkRates, uncharged, MoneyUsage.Categorised, hbasis, hcontext,
        UInt64.pos_iff_ne_zero]

theorem partitioned_judged (hvalid : p.isValid = true) (hbasis : p.basis = .partitioned)
    (hfit : ¬ usage.Exceeds) {input output : UInt64} (hinput : usage.input = some input)
    (houtput : usage.output = some output) :
    Judged p usage
      (((uncharged (some p) usage).checkRates p).partitioned p usage input output) := by
  unfold partitioned
  split
  · rename_i read write reasoning context hread hwrite hreasoning hcontext
    obtain ⟨hcache, hvisible, hsplit⟩ :=
      MoneyUsage.parts_partitioned hinput houtput hread hwrite hreasoning hcontext hfit
    rw [if_neg hcache, if_neg hvisible]
    rw [← hbasis] at hsplit
    refine .inl ⟨_, hsplit, ?_⟩
    apply charged_parts hvalid hsplit
    · rfl
    · rfl
    · simp [checkRates, uncharged, MoneyUsage.Categorised, hbasis]
  · rename_i hmissing
    refine .inr ⟨fun parts h => ?_, _, rfl, rfl⟩
    rw [hbasis] at h
    obtain ⟨hread, hwrite, hreasoning, hcontext⟩ := h.subsets
    obtain ⟨read, hread⟩ := Option.ne_none_iff_exists'.mp hread
    obtain ⟨write, hwrite⟩ := Option.ne_none_iff_exists'.mp hwrite
    obtain ⟨reasoning, hreasoning⟩ := Option.ne_none_iff_exists'.mp hreasoning
    obtain ⟨context, hcontext⟩ := Option.ne_none_iff_exists'.mp hcontext
    exact hmissing read write reasoning context hread hwrite hreasoning hcontext

theorem priced_judged (hvalid : p.isValid = true) (hfit : ¬ usage.Exceeds) :
    Judged p usage (priced p usage) := by
  unfold priced
  simp only [PriceSnapshot.validate_ok_iff.mpr hvalid]
  cases hinput : usage.input with
  | none => exact .inr ⟨fun parts h => h.totals.1 hinput, _, rfl, rfl⟩
  | some input =>
    cases houtput : usage.output with
    | none => exact .inr ⟨fun parts h => h.totals.2 houtput, _, rfl, rfl⟩
    | some output =>
      cases hbasis : p.basis with
      | inclusive => exact inclusive_judged hvalid hbasis hinput houtput
      | partitioned => exact partitioned_judged hvalid hbasis hfit hinput houtput

variable (usage) in
theorem priced_invalid (h : ¬ p.isValid = true) : ∃ e, priced p usage = .error e := by
  unfold priced PriceSnapshot.validate
  simp [h]

end Calculation
end Totals

section Raising
variable {p q : PriceSnapshot} {price : Option PriceSnapshot} {submitted : ℤ}
  {usage : MoneyUsage} {parts : List (String × ℕ)}

theorem PriceSnapshot.RaisedTo.rate (h : p.RaisedTo q) (k : String) :
    (p.rates.get? k = none ∧ q.rates.get? k = none) ∨
      ∃ r s, p.rates.get? k = some r ∧ q.rates.get? k = some s ∧
        s.perTokens = r.perTokens ∧ r.microUnits ≤ s.microUnits := by
  have hraised := h.raised
  unfold SortedMap.get?
  generalize p.rates.entries = es at hraised ⊢
  generalize q.rates.entries = fs at hraised ⊢
  induction hraised with
  | nil => simp
  | @cons e f es fs hef hrest ih =>
    obtain ⟨j, r⟩ := e
    obtain ⟨j', s⟩ := f
    obtain ⟨rfl, hper, hmicro⟩ := hef
    by_cases hk : k = j'
    · subst hk
      exact .inr ⟨r, s, by simp, by simp, hper, hmicro⟩
    · simpa [List.lookup_cons, beq_eq_false_iff_ne.mpr hk] using ih

theorem PriceSnapshot.RaisedTo.isValid (h : p.RaisedTo q) : q.isValid = p.isValid := by
  have hkeys : q.rateKeys = p.rateKeys := by
    have hraised := h.raised
    unfold PriceSnapshot.rateKeys
    generalize p.rates.entries = es at hraised ⊢
    generalize q.rates.entries = fs at hraised ⊢
    induction hraised with
    | nil => rfl
    | cons hef hrest ih => rw [List.map_cons, List.map_cons, hef.1, ih]
  have hper : q.rates.values.any (·.perTokens == 0) = p.rates.values.any (·.perTokens == 0) := by
    have hraised := h.raised
    unfold SortedMap.values
    generalize p.rates.entries = es at hraised ⊢
    generalize q.rates.entries = fs at hraised ⊢
    induction hraised with
    | nil => rfl
    | cons hef hrest ih =>
      simp only [List.map_cons, List.any_cons]
      rw [hef.2.1, ih]
  unfold PriceSnapshot.isValid
  rw [hkeys, hper, h.same]

theorem PriceSnapshot.RaisedTo.charge_le (h : p.RaisedTo q) : p.charge parts ≤ q.charge parts := by
  unfold PriceSnapshot.charge
  apply List.sum_le_sum
  rintro ⟨k, n⟩ -
  unfold PriceSnapshot.categoryCharge
  obtain ⟨hp, hq⟩ | ⟨r, s, hp, hq, hper, hmicro⟩ := h.rate k
  · simp [hp, hq]
  · simpa [hp, hq] using Rate.charge_mono hper hmicro

theorem PriceSnapshot.RaisedTo.chargeable (h : p.RaisedTo q)
    (hq : Chargeable (some q) submitted usage q parts) :
    Chargeable (some p) submitted usage p parts := by
  have hbasis : q.basis = p.basis := by rw [h.same]
  constructor
  · have hwindow : q.window = p.window := by
      rw [h.same]
      rfl
    exact ⟨rfl, hwindow ▸ hq.inForce.2⟩
  · have hvalid := hq.validated
    rw [PriceSnapshot.validate_ok_iff] at hvalid ⊢
    rw [← h.isValid, hvalid]
  · intro k hk
    obtain ⟨s, hs⟩ := hq.rated k (hbasis ▸ hk)
    obtain ⟨-, hnone⟩ | ⟨r, -, hr, -⟩ := h.rate k
    · cases hnone.symm.trans hs
    · exact ⟨r, hr⟩
  · exact hbasis ▸ hq.split
  · exact hbasis ▸ hq.categorised

end Raising

section Calculate
variable {p q : PriceSnapshot} {price : Option PriceSnapshot} {submitted : ℤ}
  {usage : MoneyUsage} {parts : List (String × ℕ)} {c d : Calculation} {e : KernelError}

theorem calculate_inForce (hfit : ¬ usage.Exceeds) (h : InForce price submitted p) :
    calculate price submitted usage = Calculation.priced p usage := by
  obtain ⟨rfl, hwindow⟩ := h
  unfold calculate
  rw [if_neg (by rwa [MoneyUsage.subsetExceeds_iff]), Option.filter_some,
    if_pos (PriceSnapshot.validAt_iff.mpr hwindow)]

variable (price submitted) in
theorem calculate_cases (hfit : ¬ usage.Exceeds) :
    (∃ p, InForce price submitted p) ∨
      (∀ p, ¬ InForce price submitted p) ∧
        calculate price submitted usage = .ok (.uncharged none usage) := by
  cases price with
  | none =>
    refine .inr ⟨fun p h => (by cases h.1), ?_⟩
    unfold calculate
    rw [if_neg (by rwa [MoneyUsage.subsetExceeds_iff]), Option.filter_none]
  | some p =>
    by_cases hwindow : submitted ∈ p.window
    · exact .inl ⟨p, rfl, hwindow⟩
    · refine .inr ⟨fun q h => ?_, ?_⟩
      · obtain rfl := Option.some.inj h.1
        exact hwindow h.2
      · unfold calculate
        rw [if_neg (by rwa [MoneyUsage.subsetExceeds_iff]), Option.filter_some,
          if_neg (by rwa [PriceSnapshot.validAt_iff])]

variable (price submitted) in
theorem calculate_exceeds (h : usage.Exceeds) :
    ∃ e, calculate price submitted usage = .error e := by
  unfold calculate
  rw [if_pos (MoneyUsage.subsetExceeds_iff.mpr h)]
  exact ⟨_, rfl⟩

/-- An amount is reported for exactly the complete usages, and is their exact price. -/
theorem calculate_reported {text : String} (h : calculate price submitted usage = .ok c) :
    c.microUnits = some text ↔ ∃ p parts, Chargeable price submitted usage p parts ∧
      text = toString (p.charge parts) ∧ p.charge parts < 2 ^ 64 := by
  have hfit : ¬ usage.Exceeds := by
    intro hexceeds
    obtain ⟨e, he⟩ := calculate_exceeds price submitted hexceeds
    cases he.symm.trans h
  obtain ⟨p, hp⟩ | ⟨hnone, hcalc⟩ := calculate_cases price submitted hfit
  · rw [calculate_inForce hfit hp] at h
    have hvalid : p.isValid = true := by
      by_contra hinvalid
      obtain ⟨e, he⟩ := Calculation.priced_invalid usage hinvalid
      cases he.symm.trans h
    have hsole {q : PriceSnapshot} {parts : List (String × ℕ)}
        (hq : Chargeable price submitted usage q parts) : q = p :=
      Option.some.inj (hq.inForce.1.symm.trans hp.1)
    obtain ⟨parts, hsplit, hreports⟩ | ⟨hparts, d, hd, hamount⟩ :=
      Calculation.priced_judged hvalid hfit
    · rw [h] at hreports
      rw [hreports.1 text]
      constructor
      · rintro ⟨hcomplete, htext⟩
        exact ⟨p, parts, ⟨hp, PriceSnapshot.validate_ok_iff.mpr hvalid, hcomplete.1, hsplit,
          hcomplete.2⟩, htext, hreports.2 hcomplete⟩
      · rintro ⟨q, parts', hq, htext, -⟩
        obtain rfl := hsole hq
        obtain rfl := hsplit.unique hq.split
        exact ⟨⟨hq.rated, hq.categorised⟩, htext⟩
    · obtain rfl := Except.ok.inj (hd.symm.trans h)
      rw [hamount]
      constructor
      · intro hsome
        cases hsome
      · rintro ⟨q, parts', hq, -⟩
        obtain rfl := hsole hq
        exact absurd hq.split (hparts parts')
  · obtain rfl := Except.ok.inj (hcalc.symm.trans h)
    constructor
    · intro hsome
      cases hsome
    · rintro ⟨q, parts', hq, -⟩
      exact absurd hq.inForce (hnone q)

theorem calculate_refused (h : calculate price submitted usage = .error e) :
    usage.Exceeds ∨ (∃ p, InForce price submitted p ∧ p.validate ≠ .ok ()) ∨
      ∃ p parts, InForce price submitted p ∧ usage.Parts p.basis parts ∧
        2 ^ 64 ≤ p.charge parts := by
  by_cases hfit : usage.Exceeds
  · exact .inl hfit
  · obtain ⟨p, hp⟩ | ⟨-, hcalc⟩ := calculate_cases price submitted hfit
    · by_cases hvalid : p.isValid = true
      · rw [calculate_inForce hfit hp] at h
        obtain ⟨parts, hsplit, hreports⟩ | ⟨-, d, hd, -⟩ := Calculation.priced_judged hvalid hfit
        · rw [h] at hreports
          exact .inr (.inr ⟨p, parts, hp, hsplit, hreports⟩)
        · cases hd.symm.trans h
      · exact .inr (.inl ⟨p, hp, by rwa [ne_eq, PriceSnapshot.validate_ok_iff]⟩)
    · cases hcalc.symm.trans h

theorem calculate_invalid (hp : InForce price submitted p) (h : p.validate ≠ .ok ()) :
    ∃ e, calculate price submitted usage = .error e := by
  by_cases hfit : usage.Exceeds
  · exact calculate_exceeds price submitted hfit
  · rw [calculate_inForce hfit hp]
    exact Calculation.priced_invalid usage (by rwa [ne_eq, PriceSnapshot.validate_ok_iff] at h)

theorem calculate_overflow (hp : Chargeable price submitted usage p parts)
    (h : 2 ^ 64 ≤ p.charge parts) : ∃ e, calculate price submitted usage = .error e := by
  by_cases hfit : usage.Exceeds
  · exact calculate_exceeds price submitted hfit
  · have hvalid := PriceSnapshot.validate_ok_iff.mp hp.validated
    rw [calculate_inForce hfit hp.inForce]
    obtain ⟨parts', hsplit, hreports⟩ | ⟨hparts, -⟩ := Calculation.priced_judged hvalid hfit
    · obtain rfl := hsplit.unique hp.split
      cases hpriced : Calculation.priced p usage with
      | error e => exact ⟨e, rfl⟩
      | ok c =>
        rw [hpriced] at hreports
        exact absurd (hreports.2 ⟨hp.rated, hp.categorised⟩) (not_lt.mpr h)
    · exact absurd hp.split (hparts parts)

/-- Where a dearer price gives an amount, the price gives one that is no higher. -/
theorem calculate_raised (h : p.RaisedTo q) {b : ℕ}
    (hq : calculate (some q) submitted usage = .ok d)
    (hb : d.microUnits = some (toString b)) :
    ∃ c a, calculate (some p) submitted usage = .ok c ∧ c.microUnits = some (toString a) ∧
      a ≤ b := by
  obtain ⟨q', parts, hchargeable, htext, hfits⟩ := (calculate_reported hq).mp hb
  obtain rfl := Option.some.inj hchargeable.inForce.1
  obtain rfl : b = q.charge parts := Digits.toString_inj htext
  have hp := h.chargeable hchargeable
  have hle : p.charge parts ≤ q.charge parts := h.charge_le
  cases hcalc : calculate (some p) submitted usage with
  | ok c =>
    exact ⟨c, p.charge parts, rfl,
      (calculate_reported hcalc).mpr ⟨p, parts, hp, rfl, hle.trans_lt hfits⟩, hle⟩
  | error e =>
    obtain hexceeds | ⟨p', hp', hinvalid⟩ | ⟨p', parts', hp', hsplit, hover⟩ :=
      calculate_refused hcalc
    · obtain ⟨e', he'⟩ := calculate_exceeds (some q) submitted hexceeds
      cases he'.symm.trans hq
    · obtain rfl := Option.some.inj hp'.1
      exact absurd hp.validated hinvalid
    · obtain rfl := Option.some.inj hp'.1
      obtain rfl := hp.split.unique hsplit
      exact absurd (hle.trans_lt hfits) (not_lt.mpr hover)

/-- No amount is invented or lost: it is the exact price of the disjoint categories of a complete
usage, computed without a wrap, and no higher at lower rates. -/
theorem calculate_charges_exactly (price : Option PriceSnapshot) (submitted : ℤ)
    (usage : MoneyUsage) :
    (∀ c text, calculate price submitted usage = .ok c →
      (c.microUnits = some text ↔ ∃ p parts, Chargeable price submitted usage p parts ∧
        text = toString (p.charge parts) ∧ p.charge parts < 2 ^ 64)) ∧
    (∀ e, calculate price submitted usage = .error e →
      usage.Exceeds ∨ (∃ p, InForce price submitted p ∧ p.validate ≠ .ok ()) ∨
        ∃ p parts, InForce price submitted p ∧ usage.Parts p.basis parts ∧
          2 ^ 64 ≤ p.charge parts) ∧
    ((usage.Exceeds ∨ (∃ p, InForce price submitted p ∧ p.validate ≠ .ok ()) ∨
        ∃ p parts, Chargeable price submitted usage p parts ∧ 2 ^ 64 ≤ p.charge parts) →
      ∃ e, calculate price submitted usage = .error e) ∧
    (∀ p, InForce price submitted p → p.validate = .ok () → ∀ k r, p.rates.get? k = some r →
      ∀ n : UInt64, n.toNat * r.microUnits.toNat < 2 ^ 128 ∧ r.amount n < 2 ^ 128 ∧
        r.amount n = r.charge n.toNat) ∧
    ∀ p q d (b : ℕ), price = some p → p.RaisedTo q →
      calculate (some q) submitted usage = .ok d → d.microUnits = some (toString b) →
        ∃ c a, calculate price submitted usage = .ok c ∧ c.microUnits = some (toString a) ∧
          a ≤ b := by
  refine ⟨fun c text h => calculate_reported h, fun e h => calculate_refused h, ?_, ?_, ?_⟩
  · rintro (hexceeds | ⟨p, hp, hinvalid⟩ | ⟨p, parts, hp, hover⟩)
    · exact calculate_exceeds price submitted hexceeds
    · exact calculate_invalid hp hinvalid
    · exact calculate_overflow hp hover
  · intro p _ hvalid k r hr n
    have hper := PriceSnapshot.perTokens_ne_zero (PriceSnapshot.validate_ok_iff.mp hvalid) hr
    have hproduct := r.product_lt n
    exact ⟨hproduct, (Rate.amount_le_product hper).trans_lt hproduct,
      Rate.amount_eq_charge hper⟩
  · rintro p q d b rfl hraised hq hb
    exact calculate_raised hraised hq hb

end Calculate
end Munarium
