import Mathlib.Data.Set.BooleanAlgebra
import Mathlib.Order.CompletePartialOrder
import Mathlib.Order.Interval.Set.Basic
import Munarium.Budget.Money

/-! The monetary evidence of a tenant over any run of calls: an append-only chain of
observations for each attempt, at one price from the first priced one on. -/
namespace Munarium

/-- What the checks before the lookups ask of an observation. -/
structure MoneyObservation.Admitted (o : MoneyObservation) (estimate : UInt64) : Prop where
  identified : o.id ≠ ""
  evidenced : o.evidenceRef ≠ ""
  previous : 0 ≤ o.previousRevision
  observed : (o.usage.input.getD 0).toNat + (o.usage.output.getD 0).toNat ≤
    o.accountedUnits.toNat
  estimated : o.incomplete = true → estimate ≤ o.accountedUnits

namespace MoneyBook

/-- The row was calculated at the price of this id, which served the attempt at submission. -/
def PricedBy (b : MoneyBook) (a : MoneyAttempt) (id : String) (row : ObservedRow) : Prop :=
  ∃ p ∈ b.prices, p.id = id ∧ p.Serves a.provider a.route a.model a.submittedAt ∧
    calculate (some p) a.submittedAt row.observation.usage = .ok row.calculation

/-- Revisions from one on, each naming the one before it. -/
def Chained (rows : List ObservedRow) : Prop :=
  NumberedChain (fun row => some row.revision) (fun row => row.observation.previousRevision = 0)
    (fun row next => next.observation.previousRevision = row.revision) rows

/-- The catalogue, and the observations of every attempt. -/
structure Sound (b : MoneyBook) : Prop where
  valid : ∀ p ∈ b.prices, p.isValid = true
  priceIds : (b.prices.map (·.id)).Nodup
  windows : b.prices.Pairwise fun p q => p.SameTariff q → Disjoint p.window q.window
  attemptIds : (b.attempts.map (·.id)).Nodup
  observationIds : (b.observations.map (·.observation.id)).Nodup
  attempted : ∀ row ∈ b.observations, ∃ a ∈ b.attempts, a.id = row.observation.attemptId
  chained : ∀ id, Chained (b.observationsOf id)
  admitted : ∀ a ∈ b.attempts, ∀ row ∈ b.observationsOf a.id,
    row.observation.Admitted a.accountedUnits
  priced : ∀ a ∈ b.attempts, ∀ row ∈ b.observationsOf a.id, ∀ id,
    row.calculation.priceId = some id → b.PricedBy a id row
  pinned : ∀ a ∈ b.attempts, ∀ id, a.priceId = some id → ∀ row ∈ b.observationsOf a.id,
    b.PricedBy a id row
  settled : ∀ a ∈ b.attempts, (b.observationsOf a.id).Pairwise fun earlier later =>
    ∀ id, earlier.calculation.priceId = some id → b.PricedBy a id later

/-- Rows are only ever appended. -/
structure Extends (b c : MoneyBook) : Prop where
  prices : b.prices <+: c.prices
  attempts : b.attempts <+: c.attempts
  observations : b.observations <+: c.observations

theorem extends_refl (b : MoneyBook) : b.Extends b :=
  ⟨List.prefix_rfl, List.prefix_rfl, List.prefix_rfl⟩

theorem Extends.trans {b c d : MoneyBook} (h : b.Extends c) (h' : c.Extends d) : b.Extends d :=
  ⟨h.prices.trans h'.prices, h.attempts.trans h'.attempts,
    h.observations.trans h'.observations⟩

theorem PricedBy.mono {b c : MoneyBook} {a : MoneyAttempt} {id : String} {row : ObservedRow}
    (h : b.PricedBy a id row) (hprices : b.prices ⊆ c.prices) : c.PricedBy a id row := by
  obtain ⟨p, hp, hrest⟩ := h
  exact ⟨p, hprices hp, hrest⟩

end MoneyBook

section Catalogue
variable {b c : MoneyBook} {price : PriceSnapshot} {prices : List PriceSnapshot}

theorem PriceSnapshot.scan_eq_false (h : price.scan prices = .ok false) {old : PriceSnapshot}
    (hold : old ∈ prices) : old.clashes price = false := by
  induction prices with
  | nil => cases hold
  | cons p rest ih =>
    unfold PriceSnapshot.scan at h
    split_ifs at h with heq hclash
    · cases h
    rcases List.mem_cons.mp hold with rfl | hrest
    · simpa using hclash
    · exact ih h hrest

/-- Prices that do not clash have other ids, and other windows where the tariff is one. -/
theorem PriceSnapshot.apart_of_clashes {old : PriceSnapshot} (h : old.clashes price = false) :
    old.id ≠ price.id ∧ (old.SameTariff price → Disjoint old.window price.window) := by
  simp only [PriceSnapshot.clashes, decide_eq_false_iff_not, not_or, not_and, not_lt] at h
  refine ⟨h.1, fun hsame => ?_⟩
  rw [Set.disjoint_left]
  intro t ht ht'
  have hstart : old.validFrom < price.validUntil := ht.1.trans_lt ht'.2
  have hend := h.2 hsame hstart
  exact absurd (ht'.1.trans_lt ht.2) (not_lt.mpr hend)

theorem MoneyBook.addPrice_eq_ok {u : Unit} (h : b.addPrice price = .ok (c, u)) :
    c = b ∨ (c = { b with prices := b.prices ++ [price] } ∧ price.isValid = true ∧
      ∀ old ∈ b.prices, old.clashes price = false) := by
  unfold MoneyBook.addPrice at h
  cases hvalid : price.validate with
  | error e => simp [hvalid] at h
  | ok u =>
    simp only [hvalid] at h
    cases hscan : price.scan b.prices with
    | error e => simp [hscan] at h
    | ok found =>
      simp only [hscan] at h
      cases found with
      | true =>
        cases h
        exact .inl rfl
      | false =>
        cases h
        refine .inr ⟨rfl, ?_, fun old hold => PriceSnapshot.scan_eq_false hscan hold⟩
        unfold PriceSnapshot.validate at hvalid
        split_ifs at hvalid with hyes
        exact hyes

theorem MoneyBook.Sound.addPrice {u : Unit} (hs : b.Sound)
    (h : b.addPrice price = .ok (c, u)) : c.Sound ∧ b.Extends c := by
  rcases b.addPrice_eq_ok h with rfl | ⟨rfl, hvalid, hapart⟩
  · exact ⟨hs, MoneyBook.extends_refl c⟩
  have hsub : b.prices ⊆ b.prices ++ [price] := List.subset_append_left _ _
  constructor
  · constructor
    · intro p hp
      rcases List.mem_append.mp hp with hold | hlast
      · exact hs.valid p hold
      · obtain rfl : p = price := by simpa using hlast
        exact hvalid
    · rw [List.map_append, List.nodup_append]
      refine ⟨hs.priceIds, List.nodup_singleton _, ?_⟩
      intro id hid other hother heq
      obtain ⟨old, hold, rfl⟩ := List.mem_map.mp hid
      obtain rfl : other = price.id := by simpa using hother
      exact (PriceSnapshot.apart_of_clashes (hapart old hold)).1 heq
    · rw [List.pairwise_append]
      refine ⟨hs.windows, List.pairwise_singleton _ _, ?_⟩
      intro old hold other hother
      obtain rfl : other = price := by simpa using hother
      exact (PriceSnapshot.apart_of_clashes (hapart old hold)).2
    · exact hs.attemptIds
    · exact hs.observationIds
    · exact hs.attempted
    · exact hs.chained
    · exact hs.admitted
    · intro a ha row hrow id hid
      exact (hs.priced a ha row hrow id hid).mono hsub
    · intro a ha id hid row hrow
      exact (hs.pinned a ha id hid row hrow).mono hsub
    · intro a ha
      exact (hs.settled a ha).imp fun hlater id hid => (hlater id hid).mono hsub
  · exact ⟨List.prefix_append _ _, List.prefix_rfl, List.prefix_rfl⟩

theorem PriceSnapshot.starts_before_end {p : PriceSnapshot} (h : p.isValid = true) :
    p.validFrom < p.validUntil := by
  simp only [PriceSnapshot.isValid, Bool.not_eq_true', Bool.or_eq_false_iff,
    decide_eq_false_iff_not, not_le] at h
  exact h.1.1.1.2

/-- Two prices of a sound catalogue clash only with themselves. -/
theorem MoneyBook.Sound.eq_of_clashes (hs : b.Sound) {p q : PriceSnapshot} (hp : p ∈ b.prices)
    (hq : q ∈ b.prices) (h : p.clashes q = true) : p = q := by
  by_contra hne
  have hids : p.id ≠ q.id := fun hid => hne (List.inj_on_of_nodup_map hs.priceIds hp hq hid)
  simp only [PriceSnapshot.clashes, decide_eq_true_eq] at h
  obtain ⟨hsame, hfrom, huntil⟩ := h.resolve_left hids
  have : Std.Symm fun p q : PriceSnapshot => p.SameTariff q → Disjoint p.window q.window :=
    ⟨fun p q hpq hqp => (hpq ⟨hqp.1.symm, hqp.2.1.symm, hqp.2.2.symm⟩).symm⟩
  have hdisjoint := hs.windows.forall hp hq hne hsame
  have hshared : max p.validFrom q.validFrom ∈ p.window ∩ q.window := by
    have hp' := PriceSnapshot.starts_before_end (hs.valid p hp)
    have hq' := PriceSnapshot.starts_before_end (hs.valid q hq)
    constructor
    · exact ⟨le_max_left _ _, max_lt hp' huntil⟩
    · exact ⟨le_max_right _ _, max_lt hfrom hq'⟩
  exact Set.disjoint_iff.mp hdisjoint hshared

theorem MoneyBook.Sound.scan_stored (hs : b.Sound) {rows : List PriceSnapshot}
    (hrows : rows ⊆ b.prices) (hmem : price ∈ rows) : price.scan rows = .ok true := by
  have hstored := hrows hmem
  induction rows with
  | nil => cases hmem
  | cons old rest ih =>
    unfold PriceSnapshot.scan
    split_ifs with heq hclash
    · rfl
    · exact absurd (hs.eq_of_clashes (hrows List.mem_cons_self) hstored hclash) heq
    · apply ih (fun p hp => hrows (List.mem_cons_of_mem _ hp))
      exact (List.mem_cons.mp hmem).resolve_left (Ne.symm heq)

theorem PriceSnapshot.scan_new {rows : List PriceSnapshot} (h : price ∉ rows) :
    price.scan rows = if rows.any (·.clashes price) then
      .error (.invalidInput "price identity reused or validity windows overlap")
      else .ok false := by
  induction rows with
  | nil => rfl
  | cons old rest ih =>
    rw [List.mem_cons, not_or] at h
    unfold PriceSnapshot.scan
    rw [if_neg (Ne.symm h.1), ih h.2, List.any_cons]
    cases old.clashes price <;> simp

/-- The order in which the rows of the catalogue are read does not matter to the scan. -/
theorem MoneyBook.Sound.scan_of_perm (hs : b.Sound) {rows : List PriceSnapshot}
    (hrows : rows.Perm b.prices) : price.scan rows = price.scan b.prices := by
  by_cases hmem : price ∈ b.prices
  · rw [hs.scan_stored hrows.subset (hrows.mem_iff.mpr hmem),
      hs.scan_stored (List.Subset.refl _) hmem]
  · rw [PriceSnapshot.scan_new (fun hin => hmem (hrows.mem_iff.mp hin)),
      PriceSnapshot.scan_new hmem, hrows.any_eq]

/-- One price at most serves a tariff at a time. -/
theorem MoneyBook.Sound.serving_unique (hs : b.Sound) {p q : PriceSnapshot} (hp : p ∈ b.prices)
    (hq : q ∈ b.prices) {provider route model : String} {submitted : ℤ}
    (hserves : p.Serves provider route model submitted)
    (hserves' : q.Serves provider route model submitted) : p = q := by
  apply hs.eq_of_clashes hp hq
  obtain ⟨rfl, rfl, rfl, hfrom, huntil⟩ := hserves
  obtain ⟨hprovider, hroute, hmodel, hfrom', huntil'⟩ := hserves'
  simp only [PriceSnapshot.clashes, decide_eq_true_eq]
  right
  exact ⟨⟨hprovider.symm, hroute.symm, hmodel.symm⟩, hfrom.trans_lt huntil',
    hfrom'.trans_lt huntil⟩

end Catalogue

section Attempts
variable {b c : MoneyBook} {drawn invocation provider route model r : String} {submitted : ℤ}
  {estimate : UInt64}

theorem MoneyBook.beginAttempt_eq_ok
    (h : b.beginAttempt drawn submitted invocation provider route model estimate = .ok (c, r)) :
    (∀ a ∈ b.attempts, a.id ≠ drawn) ∧ ∃ new : MoneyAttempt, new.id = drawn ∧
      c = { b with attempts := b.attempts ++ [new] } := by
  unfold MoneyBook.beginAttempt at h
  split_ifs at h with hany
  cases h
  constructor
  · intro a ha hid
    exact hany (List.any_eq_true.mpr ⟨a, ha, beq_iff_eq.mpr hid⟩)
  · exact ⟨_, rfl, rfl⟩

/-- An attempt that is new has no observations. -/
theorem MoneyBook.Sound.observationsOf_new (hs : b.Sound) (hnew : ∀ a ∈ b.attempts, a.id ≠ drawn) :
    b.observationsOf drawn = [] := by
  rw [MoneyBook.observationsOf, List.filter_eq_nil_iff]
  intro row hrow hid
  obtain ⟨a, ha, hattempt⟩ := hs.attempted row hrow
  exact hnew a ha (hattempt.trans (beq_iff_eq.mp hid))

theorem MoneyBook.Sound.beginAttempt (hs : b.Sound)
    (h : b.beginAttempt drawn submitted invocation provider route model estimate = .ok (c, r)) :
    c.Sound ∧ b.Extends c := by
  obtain ⟨hnew, new, hid, rfl⟩ := b.beginAttempt_eq_ok h
  have hrows := hs.observationsOf_new hnew
  have hcases {a : MoneyAttempt} (ha : a ∈ b.attempts ++ [new]) :
      a ∈ b.attempts ∨ b.observationsOf a.id = [] := by
    rcases List.mem_append.mp ha with hold | hlast
    · exact .inl hold
    · obtain rfl : a = new := by simpa using hlast
      exact .inr (by rw [hid, hrows])
  constructor
  · constructor
    · exact hs.valid
    · exact hs.priceIds
    · exact hs.windows
    · rw [List.map_append, List.nodup_append]
      refine ⟨hs.attemptIds, List.nodup_singleton _, ?_⟩
      intro id hmem other hother heq
      obtain ⟨a, ha, rfl⟩ := List.mem_map.mp hmem
      obtain rfl : other = new.id := by simpa using hother
      exact hnew a ha (heq.trans hid)
    · exact hs.observationIds
    · intro row hrow
      obtain ⟨a, ha, hattempt⟩ := hs.attempted row hrow
      exact ⟨a, List.mem_append_left _ ha, hattempt⟩
    · exact hs.chained
    · intro a ha row hrow
      rcases hcases ha with hold | hnone
      · exact hs.admitted a hold row hrow
      · exact absurd (hnone ▸ hrow) List.not_mem_nil
    · intro a ha row hrow
      rcases hcases ha with hold | hnone
      · exact hs.priced a hold row hrow
      · exact absurd (hnone ▸ hrow) List.not_mem_nil
    · intro a ha id hpin row hrow
      rcases hcases ha with hold | hnone
      · exact hs.pinned a hold id hpin row hrow
      · exact absurd (hnone ▸ hrow) List.not_mem_nil
    · intro a ha
      rcases hcases ha with hold | hnone
      · exact hs.settled a hold
      · change (b.observationsOf a.id).Pairwise _
        rw [hnone]
        exact .nil
  · exact ⟨List.prefix_rfl, List.prefix_append _ _, List.prefix_rfl⟩

end Attempts

section Observations
variable {b c : MoneyBook} {a : MoneyAttempt} {o : MoneyObservation} {calculation : Calculation}
  {price : Option PriceSnapshot}

theorem MoneyObservation.observed_eq_some {n : UInt64} (h : o.observed = some n) :
    (o.usage.input.getD 0).toNat + (o.usage.output.getD 0).toNat = n.toNat :=
  UInt64.checkedAdd_eq_some_iff.mp h

theorem MoneyObservation.covers_iff {observed estimate : UInt64} :
    o.covers observed estimate = true ↔
      observed ≤ o.accountedUnits ∧ (o.incomplete = true → estimate ≤ o.accountedUnits) := by
  simp only [MoneyObservation.covers, Bool.not_eq_true', Bool.or_eq_false_iff,
    Bool.and_eq_false_imp, decide_eq_false_iff_not, UInt64.not_lt]

/-- An admitted observation reports a total that its units cover. -/
theorem MoneyObservation.Admitted.exists_observed {estimate : UInt64} (h : o.Admitted estimate) :
    ∃ n, o.observed = some n ∧ o.covers n estimate = true := by
  cases hn : o.observed with
  | none =>
    have hover := UInt64.checkedAdd_eq_none_iff.mp hn
    have hlt := o.accountedUnits.toNat_lt
    have hle := h.observed
    omega
  | some n =>
    refine ⟨n, rfl, MoneyObservation.covers_iff.mpr ⟨?_, h.estimated⟩⟩
    rw [UInt64.le_iff_toNat_le, ← MoneyObservation.observed_eq_some hn]
    exact h.observed

theorem MoneyBook.observe_eq_ok (h : b.observe o = .ok (c, calculation)) :
    (∃ row ∈ b.observations, row.observation = o ∧ row.calculation = calculation ∧ c = b) ∨
    ((∀ row ∈ b.observations, row.observation.id ≠ o.id) ∧
      ∃ a ∈ b.attempts, a.id = o.attemptId ∧ o.Admitted a.accountedUnits ∧
        b.record a o = .ok (c, calculation)) := by
  unfold MoneyBook.observe at h
  split_ifs at h with hnamed
  push Not at hnamed
  cases hattempt : b.attempts.find? (·.id == o.attemptId) with
  | none => simp [hattempt] at h
  | some a =>
    simp only [hattempt] at h
    cases hobserved : o.observed with
    | none => simp [hobserved] at h
    | some observed =>
      simp only [hobserved] at h
      split_ifs at h with hcovers
      rw [Bool.not_eq_true', Bool.not_eq_false, MoneyObservation.covers_iff] at hcovers
      cases hold : b.observations.find? (·.observation.id == o.id) with
      | some old =>
        simp only [hold] at h
        split_ifs at h with hsame
        cases h
        exact .inl ⟨old, List.mem_of_find?_eq_some hold, hsame, rfl, rfl⟩
      | none =>
        simp only [hold] at h
        refine .inr ⟨?_, a, List.mem_of_find?_eq_some hattempt, ?_, ?_, h⟩
        · simpa using hold
        · simpa using List.find?_some hattempt
        · refine ⟨hnamed.1, hnamed.2.1, hnamed.2.2, ?_, hcovers.2⟩
          rw [MoneyObservation.observed_eq_some hobserved]
          exact UInt64.le_iff_toNat_le.mp hcovers.1

/-- A pinned attempt gets the price it is pinned to, and any price that is used served it. -/
theorem MoneyBook.priceFor_eq_ok (h : b.priceFor a o = .ok price) :
    (∀ id, b.pin a = some id → price.map (·.id) = some id) ∧
      ∀ p, price = some p → p ∈ b.prices ∧
        p.Serves a.provider a.route a.model a.submittedAt := by
  unfold MoneyBook.priceFor at h
  cases hselected : b.selected a o with
  | error e => simp [hselected] at h
  | ok id =>
    simp only [hselected] at h
    have hid : id = (b.pin a).or o.priceId := by
      unfold MoneyBook.selected at hselected
      split_ifs at hselected
      cases hselected
      rfl
    cases hprice : b.priceOf id with
    | error e => simp [hprice] at h
    | ok found =>
      simp only [hprice] at h
      split_ifs at h with hserves
      cases h
      constructor
      · intro pinned hpin
        rw [hpin, Option.some_or] at hid
        subst hid
        unfold MoneyBook.priceOf at hprice
        cases hfind : b.prices.find? (·.id == pinned) with
        | none => simp [hfind] at hprice
        | some p =>
          simp only [hfind] at hprice
          cases hprice
          simpa using List.find?_some hfind
      · rintro p rfl
        refine ⟨?_, by simpa using hserves⟩
        cases id with
        | none => cases hprice
        | some id =>
          unfold MoneyBook.priceOf at hprice
          cases hfind : b.prices.find? (·.id == id) with
          | none => simp [hfind] at hprice
          | some q =>
            simp only [hfind] at hprice
            cases hprice
            exact List.mem_of_find?_eq_some hfind

theorem MoneyBook.record_eq_ok (h : b.record a o = .ok (c, calculation)) :
    o.previousRevision = b.latestRevision a.id ∧
      c = { b with observations := b.observations ++
        [⟨o, b.latestRevision a.id + 1, calculation⟩] } ∧
      ∃ price, b.priceFor a o = .ok price ∧
        calculate price a.submittedAt o.usage = .ok calculation := by
  unfold MoneyBook.record at h
  by_cases hprevious : o.previousRevision = b.latestRevision a.id
  swap
  · rw [if_pos hprevious] at h
    cases h
  rw [if_neg (not_not.mpr hprevious)] at h
  cases hprice : b.priceFor a o with
  | error e => simp [hprice] at h
  | ok price =>
    simp only [hprice] at h
    cases hcalculate : calculate price a.submittedAt o.usage with
    | error e => simp [hcalculate] at h
    | ok result =>
      simp only [hcalculate] at h
      split_ifs at h
      cases h
      exact ⟨hprevious, rfl, price, rfl, hcalculate⟩

end Observations

namespace MoneyBook
variable {b c : MoneyBook} {a : MoneyAttempt} {o : MoneyObservation} {row : ObservedRow}
  {calculation : Calculation} {price : Option PriceSnapshot} {id : String}

theorem PricedBy.priceId (h : b.PricedBy a id row) : row.calculation.priceId = some id := by
  obtain ⟨p, -, rfl, hserves, hcalculate⟩ := h
  exact calculate_some hserves.2.2.2 hcalculate

theorem Sound.latest_eq (hs : b.Sound) (id : String) :
    b.latest id = (b.observationsOf id).getLast? := by
  apply (hs.chained id).newest
  intro n
  simp

theorem Sound.latestRevision_eq (hs : b.Sound) (id : String) :
    b.latestRevision id = (b.observationsOf id).length := by
  rw [latestRevision, hs.latest_eq]
  cases hlast : (b.observationsOf id).getLast? with
  | none => simp [List.getLast?_eq_none_iff.mp hlast]
  | some row => simpa using (hs.chained id).number_last hlast

/-- Once a row of the attempt has a price, the attempt is pinned to it. -/
theorem Sound.pin_of_priced (hs : b.Sound) (ha : a ∈ b.attempts)
    (hrow : row ∈ b.observationsOf a.id) (hprice : row.calculation.priceId = some id) :
    b.pin a = some id := by
  unfold pin
  cases hpin : a.priceId with
  | some pinned =>
    have hsame := (hs.pinned a ha pinned hpin row hrow).priceId
    rw [hprice] at hsame
    rw [Option.some_or, hsame]
  | none =>
    obtain ⟨before, last, hsplit⟩ : ∃ before last, b.observationsOf a.id = before ++ [last] := by
      rcases List.eq_nil_or_concat (b.observationsOf a.id) with hnil | ⟨before, last, h⟩
      · rw [hnil] at hrow
        cases hrow
      · exact ⟨before, last, by rw [h, List.concat_eq_append]⟩
    have hlatest : b.latest a.id = some last := by
      rw [hs.latest_eq, hsplit, List.getLast?_concat]
    rw [Option.none_or, hlatest, Option.bind_some]
    rw [hsplit, List.mem_append, List.mem_singleton] at hrow
    rcases hrow with hbefore | rfl
    · have hsettled := hs.settled a ha
      rw [hsplit, List.pairwise_append] at hsettled
      exact (hsettled.2.2 row hbefore last (List.mem_singleton_self _) id hprice).priceId
    · exact hprice

/-- A price that is used for an observation prices its row. -/
theorem pricedBy_of_priceFor {p : PriceSnapshot} {revision : ℕ}
    (hprice : b.priceFor a o = .ok price) (hp : price = some p)
    (hcalculate : calculate price a.submittedAt o.usage = .ok calculation) :
    b.PricedBy a p.id ⟨o, revision, calculation⟩ := by
  obtain ⟨hmem, hserves⟩ := (b.priceFor_eq_ok hprice).2 p hp
  subst hp
  exact ⟨p, hmem, rfl, hserves, hcalculate⟩

theorem pricedBy_of_pin {revision : ℕ} (hprice : b.priceFor a o = .ok price)
    (hcalculate : calculate price a.submittedAt o.usage = .ok calculation)
    (hpin : b.pin a = some id) : b.PricedBy a id ⟨o, revision, calculation⟩ := by
  obtain ⟨p, hp, hid⟩ := Option.map_eq_some_iff.mp ((b.priceFor_eq_ok hprice).1 id hpin)
  exact hid ▸ pricedBy_of_priceFor hprice hp hcalculate

theorem pricedBy_of_calculation {revision : ℕ} (hprice : b.priceFor a o = .ok price)
    (hcalculate : calculate price a.submittedAt o.usage = .ok calculation)
    (hid : calculation.priceId = some id) : b.PricedBy a id ⟨o, revision, calculation⟩ := by
  cases hp : price with
  | none =>
    rw [hp] at hcalculate
    rw [calculate_none hcalculate] at hid
    cases hid
  | some p =>
    have hpriced : b.PricedBy a p.id ⟨o, revision, calculation⟩ :=
      pricedBy_of_priceFor hprice hp hcalculate
    have hsame := hpriced.priceId
    simp only [hid, Option.some.injEq] at hsame
    exact hsame ▸ hpriced

theorem observationsOf_append (b : MoneyBook) (row : ObservedRow) (id : String) :
    { b with observations := b.observations ++ [row] }.observationsOf id =
      if row.observation.attemptId = id then b.observationsOf id ++ [row]
      else b.observationsOf id := by
  simp only [observationsOf, List.filter_append]
  split_ifs with h <;> simp [h]

/-- What a new row may be for its attempt to stay in order. -/
structure Continues (b : MoneyBook) (a : MoneyAttempt) (row : ObservedRow) : Prop where
  attempt : row.observation.attemptId = a.id
  fresh : ∀ old ∈ b.observations, old.observation.id ≠ row.observation.id
  admitted : row.observation.Admitted a.accountedUnits
  revision : row.revision = (b.observationsOf a.id).length + 1
  previous : row.observation.previousRevision = (b.observationsOf a.id).length
  priced : ∀ id, row.calculation.priceId = some id → b.PricedBy a id row
  pinned : ∀ id, b.pin a = some id → b.PricedBy a id row

theorem Sound.continues (hs : b.Sound) (hattempt : a.id = o.attemptId)
    (hfresh : ∀ row ∈ b.observations, row.observation.id ≠ o.id)
    (hadmitted : o.Admitted a.accountedUnits) (h : b.record a o = .ok (c, calculation)) :
    ∃ row, c = { b with observations := b.observations ++ [row] } ∧ row.observation = o ∧
      row.calculation = calculation ∧ b.Continues a row := by
  obtain ⟨hprevious, rfl, price, hprice, hcalculate⟩ := b.record_eq_ok h
  have hrevision := hs.latestRevision_eq a.id
  refine ⟨_, rfl, rfl, rfl, hattempt.symm, hfresh, hadmitted, ?_, ?_, ?_, ?_⟩
  · simp only [hrevision]
  · rw [← hrevision]
    exact hprevious
  · intro id hid
    exact pricedBy_of_calculation hprice hcalculate hid
  · intro id hpin
    exact pricedBy_of_pin hprice hcalculate hpin

theorem Sound.chained_append (hs : b.Sound) (h : b.Continues a row) :
    Chained (b.observationsOf a.id ++ [row]) := by
  apply NumberedChain.append (hs.chained a.id)
  · rw [h.revision]
  · intro hnil
    rw [h.previous, hnil]
    rfl
  · intro last hlast
    have hnumber := (hs.chained a.id).number_last hlast
    simp only [Option.some.injEq] at hnumber
    rw [h.previous, hnumber]

theorem Sound.append (hs : b.Sound) (ha : a ∈ b.attempts) (h : b.Continues a row) :
    Sound { b with observations := b.observations ++ [row] } := by
  have hmine {other : MoneyAttempt} (hother : other ∈ b.attempts)
      (hid : row.observation.attemptId = other.id) : other = a :=
    List.inj_on_of_nodup_map hs.attemptIds hother ha (hid.symm.trans h.attempt)
  have hcases {other : MoneyAttempt} (hother : other ∈ b.attempts) {r : ObservedRow}
      (hr : r ∈ { b with observations := b.observations ++ [row] }.observationsOf other.id) :
      r ∈ b.observationsOf other.id ∨ (other = a ∧ r = row) := by
    rw [observationsOf_append] at hr
    split_ifs at hr with hid
    · rcases List.mem_append.mp hr with hold | hlast
      · exact .inl hold
      · exact .inr ⟨hmine hother hid, by simpa using hlast⟩
    · exact .inl hr
  constructor
  · exact hs.valid
  · exact hs.priceIds
  · exact hs.windows
  · exact hs.attemptIds
  · rw [List.map_append, List.nodup_append]
    refine ⟨hs.observationIds, List.nodup_singleton _, ?_⟩
    intro id hmem other hother heq
    obtain ⟨old, hold, rfl⟩ := List.mem_map.mp hmem
    obtain rfl : other = row.observation.id := by simpa using hother
    exact h.fresh old hold heq
  · intro r hr
    rcases List.mem_append.mp hr with hold | hlast
    · exact hs.attempted r hold
    · obtain rfl : r = row := by simpa using hlast
      exact ⟨a, ha, h.attempt.symm⟩
  · intro id
    rw [observationsOf_append]
    split_ifs with hid
    · obtain rfl : a.id = id := h.attempt.symm.trans hid
      exact hs.chained_append h
    · exact hs.chained id
  · intro other hother r hr
    rcases hcases hother hr with hold | ⟨rfl, rfl⟩
    · exact hs.admitted other hother r hold
    · exact h.admitted
  · intro other hother r hr id hid
    rcases hcases hother hr with hold | ⟨rfl, rfl⟩
    · exact hs.priced other hother r hold id hid
    · exact h.priced id hid
  · intro other hother id hpin r hr
    rcases hcases hother hr with hold | ⟨rfl, rfl⟩
    · exact hs.pinned other hother id hpin r hold
    · exact h.pinned id (by rw [pin, hpin, Option.some_or])
  · intro other hother
    rw [observationsOf_append]
    split_ifs with hid
    · obtain rfl := hmine hother hid
      rw [List.pairwise_append]
      refine ⟨hs.settled other hother, List.pairwise_singleton _ _, ?_⟩
      intro earlier hearlier later hlater id hprice
      obtain rfl : later = row := by simpa using hlater
      exact h.pinned id (hs.pin_of_priced hother hearlier hprice)
    · exact hs.settled other hother

/-- An accepted observation is in the book, as the row that answers it. -/
theorem Sound.observe (hs : b.Sound) (h : b.observe o = .ok (c, calculation)) :
    c.Sound ∧ b.Extends c ∧
      ∃ row ∈ c.observations, row.observation = o ∧ row.calculation = calculation := by
  rcases b.observe_eq_ok h with ⟨row, hrow, ho, hc, rfl⟩ | ⟨hfresh, a, ha, hid, hadmitted, hrec⟩
  · exact ⟨hs, extends_refl c, row, hrow, ho, hc⟩
  · obtain ⟨row, rfl, ho, hc, hcontinues⟩ := hs.continues hid hfresh hadmitted hrec
    refine ⟨hs.append ha hcontinues, ?_, row, List.mem_append_right _ (by simp), ho, hc⟩
    exact ⟨List.prefix_rfl, List.prefix_rfl, List.prefix_append _ _⟩

/-- A recorded observation is answered by its row, and nothing is written. -/
theorem Sound.observe_again (hs : b.Sound) (hrow : row ∈ b.observations) :
    b.observe row.observation = .ok (b, row.calculation) := by
  obtain ⟨a, ha, hid⟩ := hs.attempted row hrow
  have hmine : row ∈ b.observationsOf a.id := List.mem_filter.mpr ⟨hrow, by simp [hid]⟩
  have hadmitted := hs.admitted a ha row hmine
  obtain ⟨n, hn, hcovers⟩ := hadmitted.exists_observed
  have hnamed : ¬(row.observation.id = "" ∨ row.observation.evidenceRef = "" ∨
      row.observation.previousRevision < 0) := by
    rintro (hno | hno | hno)
    · exact hadmitted.identified hno
    · exact hadmitted.evidenced hno
    · exact absurd hadmitted.previous (not_le.mpr hno)
  have hattempt : b.attempts.find? (·.id == row.observation.attemptId) = some a := by
    rw [← hid]
    exact List.find?_of_nodup hs.attemptIds ha
  have hold : b.observations.find? (·.observation.id == row.observation.id) = some row :=
    List.find?_of_nodup hs.observationIds hrow
  unfold MoneyBook.observe
  simp only [if_neg hnamed, hattempt, hn, hcovers, hold, Bool.not_true, Bool.false_eq_true,
    if_false, if_true]

end MoneyBook

namespace MoneyBooks

/-- Every tenant's book is sound. -/
def Sound (books : MoneyBooks) : Prop := ∀ tenant, (books tenant).Sound

def Extends (books later : MoneyBooks) : Prop :=
  ∀ tenant, (books tenant).Extends (later tenant)

variable {books : MoneyBooks}

theorem sound_unwritten : unwritten.Sound := by
  intro tenant
  constructor
  case chained => exact fun id => numberedChain_nil
  all_goals simp [unwritten]

/-- A transaction that keeps its own tenant's book sound keeps every book. -/
theorem commit_keeps {α : Type} {tenant : String} {outcome : Result (MoneyBook × α)}
    (hs : books.Sound)
    (h : ∀ b a, outcome = .ok (b, a) → b.Sound ∧ (books tenant).Extends b) :
    (books.commit tenant outcome).1.Sound ∧ books.Extends (books.commit tenant outcome).1 := by
  cases outcome with
  | error e => exact ⟨hs, fun other => MoneyBook.extends_refl _⟩
  | ok result =>
    obtain ⟨hsound, hextends⟩ := h result.1 result.2 rfl
    constructor
    all_goals
      intro other
      by_cases hother : other = tenant
      · subst hother
        simpa [commit] using ‹_›
      · simp only [commit, Function.update_of_ne hother]
        first | exact hs other | exact MoneyBook.extends_refl _

theorem step_keeps (hs : books.Sound) (call : MoneyCall) :
    (books.after call).Sound ∧ books.Extends (books.after call) := by
  cases call with
  | addPrice tenant price =>
    exact commit_keeps hs fun b a h => (hs tenant).addPrice h
  | beginAttempt tenant drawn submitted invocation provider route model estimate =>
    exact commit_keeps hs fun b a h => (hs tenant).beginAttempt h
  | observe tenant o =>
    apply commit_keeps hs
    intro b a h
    obtain ⟨hsound, hextends, -⟩ := (hs tenant).observe h
    exact ⟨hsound, hextends⟩

theorem foldl_keeps (hs : books.Sound) (calls : List MoneyCall) :
    (calls.foldl after books).Sound ∧ books.Extends (calls.foldl after books) := by
  induction calls generalizing books with
  | nil => exact ⟨hs, fun tenant => MoneyBook.extends_refl _⟩
  | cons call rest ih =>
    obtain ⟨hsound, hextends⟩ := step_keeps hs call
    obtain ⟨hsound', hextends'⟩ := ih hsound
    exact ⟨hsound', fun tenant => (hextends tenant).trans (hextends' tenant)⟩

theorem sound_run (calls : List MoneyCall) : (run calls).Sound :=
  (foldl_keeps sound_unwritten calls).1

theorem commit_refused {α : Type} {tenant : String} {outcome : Result (MoneyBook × α)}
    {e : KernelError} (h : (books.commit tenant outcome).2 = .error e) :
    (books.commit tenant outcome).1 = books := by
  cases outcome with
  | error e => rfl
  | ok result => cases h

theorem step_refused {call : MoneyCall} (h : (books.step call).2.Refused) :
    books.after call = books := by
  cases call with
  | _ =>
    obtain ⟨e, he⟩ := h
    exact commit_refused he

/-- A recorded observation is answered by its row in every later state. -/
theorem observe_recorded (hs : books.Sound) {tenant : String} {row : ObservedRow}
    (hrow : row ∈ (books tenant).observations) :
    books.step (.observe tenant row.observation) =
      (books, .observed (.ok row.calculation)) := by
  simp only [step, (hs tenant).observe_again hrow, commit, Function.update_eq_self, Prod.map, id]

theorem exists_row (hs : books.Sound) {tenant : String} {o : MoneyObservation}
    {calculation : Calculation}
    (h : (books.step (.observe tenant o)).2 = .observed (.ok calculation)) :
    ∃ row ∈ ((books.after (.observe tenant o)) tenant).observations,
      row.observation = o ∧ row.calculation = calculation := by
  cases hobserve : (books tenant).observe o with
  | error e => simp [step, hobserve, commit] at h
  | ok result =>
    obtain ⟨b, found⟩ := result
    obtain rfl : found = calculation := by simpa [step, hobserve, commit] using h
    obtain ⟨-, -, row, hrow, hfound⟩ := (hs tenant).observe hobserve
    exact ⟨row, by simpa [after, step, hobserve, commit] using hrow, hfound⟩

/-- After any calls the windows of a tariff are disjoint, each attempt's observations are a chain
at one price from its first priced one on, rows are only appended, a refused call writes
nothing, and an accepted observation is answered alike from then on. -/
theorem monetary_evidence (calls : List MoneyCall) :
    (run calls).Sound ∧
    (∀ more, (run calls).Extends (run (calls ++ more))) ∧
    (∀ call, ((run calls).step call).2.Refused → (run calls).after call = run calls) ∧
    ∀ tenant o calculation,
      ((run calls).step (.observe tenant o)).2 = .observed (.ok calculation) →
      ∀ more, (run (calls ++ .observe tenant o :: more)).step (.observe tenant o) =
        (run (calls ++ .observe tenant o :: more), .observed (.ok calculation)) := by
  have hs := sound_run calls
  refine ⟨hs, ?_, fun call h => step_refused h, ?_⟩
  · intro more
    rw [run, run, List.foldl_append]
    exact (foldl_keeps hs more).2
  · intro tenant o calculation h more
    obtain ⟨row, hrow, rfl, rfl⟩ := exists_row hs h
    have hlater := (foldl_keeps (step_keeps hs (.observe tenant row.observation)).1 more).2 tenant
    have hrun : run (calls ++ .observe tenant row.observation :: more) =
        more.foldl after ((run calls).after (.observe tenant row.observation)) := by
      rw [run, run, List.foldl_append, List.foldl_cons]
    have hsound := (foldl_keeps (step_keeps hs (.observe tenant row.observation)).1 more).1
    rw [hrun]
    exact observe_recorded hsound (hlater.observations.subset hrow)

end MoneyBooks
end Munarium
