import Munarium.Budget.Window

/-! The adjustments of a row: an append-only chain from revision to revision that replays
its own corrections and accepts one new correction for each revision. -/
namespace Munarium

/-- The amount that usage asks for at least. -/
theorem UsageEvidence.accountedUnits_eq_ok {u : UsageEvidence} {reserved minimum : UInt64}
    (h : u.accountedUnits reserved = .ok minimum) :
    (u.Complete → minimum.toNat =
      (u.inputTokens.getD 0).toNat + (u.outputTokens.getD 0).toNat) ∧
    (¬ u.Complete → reserved ≤ minimum) := by
  unfold accountedUnits at h
  cases hsum : (u.inputTokens.getD 0).checkedAdd (u.outputTokens.getD 0) with
  | none => simp [hsum] at h
  | some subtotal =>
    simp only [hsum] at h
    have hnat := UInt64.checkedAdd_eq_some_iff.mp hsum
    split_ifs at h with hc
    · cases h
      exact ⟨fun _ => hnat.symm, fun hno => absurd hc hno⟩
    · cases h
      refine ⟨fun hyes => absurd hyes hc, fun _ => ?_⟩
      change reserved ≤ if reserved ≤ subtotal then subtotal else reserved
      split_ifs with hle
      · exact hle
      · exact UInt64.le_refl reserved

theorem RowState.asStr_eq_settled {s : RowState} (h : s.asStr = "settled") : s = .settled := by
  cases s <;> first | rfl | exact absurd h (by decide)

theorem BudgetCorrection.validate_eq_ok {c : BudgetCorrection} {previous : BudgetEvidence}
    (h : c.validate previous = .ok ()) :
    previous.state = "settled" ∧ c.expectedRevision = previous.revision ∧
      ∃ minimum, c.usage.accountedUnits previous.liability = .ok minimum ∧
        minimum ≤ c.accountedUnits := by
  unfold validate at h
  split_ifs at h with hsafe hstate hrevision
  refine ⟨not_not.mp hstate, not_not.mp hrevision, ?_⟩
  cases hmin : c.usage.accountedUnits previous.liability with
  | error e => simp [hmin] at h
  | ok minimum =>
    simp only [hmin] at h
    split_ifs at h with hlt
    exact ⟨minimum, rfl, by simpa using hlt⟩

/-- The amount a correction may not go below: the counts of a complete usage, or else the
larger of what was reserved and what was accounted before. -/
def BudgetAdjustment.Covers (a : BudgetAdjustment) : Prop :=
  (a.correction.usage.Complete → (a.correction.usage.inputTokens.getD 0).toNat +
    (a.correction.usage.outputTokens.getD 0).toNat ≤ a.result.accountedUnits.toNat) ∧
  (¬ a.correction.usage.Complete → a.previous.liability ≤ a.result.accountedUnits)

namespace BudgetRow

/-- Adjustment by adjustment, each at its revision and from the last one's result. -/
structure Chained (r : BudgetRow) : Prop where
  bound : r.adjustments.length < 2 ^ 64
  settled : r.adjustments ≠ [] → r.state = .settled
  revisions : ∀ (i : ℕ) a, r.adjustments[i]? = some a → a.previous.revision.toNat = i ∧
    a.result.revision.toNat = i + 1 ∧ a.correction.expectedRevision.toNat = i
  linked : ∀ (i : ℕ) a b, r.adjustments[i]? = some a → r.adjustments[i + 1]? = some b →
    b.previous = a.result
  current : ∀ a, r.adjustments.getLast? = some a → r.evidence = a.result
  ids : (r.adjustments.map (·.correction.id)).Nodup
  original : ∀ a ∈ r.adjustments, a.previous.originalUnits = some r.originalUnits
  accounted : ∀ a ∈ r.adjustments, a.result.accountedUnits = a.correction.accountedUnits ∧
    a.Covers

theorem evidence_revision {r : BudgetRow} (h : r.adjustments.length < 2 ^ 64) :
    r.evidence.revision.toNat = r.adjustments.length := UInt64.toNat_ofNat_of_lt' h

theorem Chained.of_empty {r : BudgetRow} (h : r.adjustments = []) : r.Chained where
  bound := by simp [h]
  settled hne := absurd h hne
  revisions i a ha := by simp [h] at ha
  linked i a b ha := by simp [h] at ha
  current a ha := by simp [h] at ha
  ids := by simp [h]
  original a ha := by simp [h] at ha
  accounted a ha := by simp [h] at ha

/-- The next adjustment of a chained row starts where the last one ended. -/
theorem Chained.corrects {r r' : BudgetRow} {c : BudgetCorrection} (h : r.Chained)
    (hsame : r.SameReservation r') (hc : r.Corrects c r') : r'.Chained := by
  obtain ⟨hstate, hexpected, minimum, hminimum, hle⟩ := c.validate_eq_ok hc.valid
  have hrevision := evidence_revision h.bound
  have hnext := hc.revision
  have hbound : r'.adjustments.length < 2 ^ 64 := by
    have hlt := r'.evidence.revision.toNat_lt
    rw [hc.adjustments, List.length_append, List.length_singleton]
    omega
  have hcover : BudgetAdjustment.Covers ⟨c, r.evidence, r'.evidence⟩ := by
    obtain ⟨hcomplete, hincomplete⟩ := UsageEvidence.accountedUnits_eq_ok hminimum
    have hunits : r'.evidence.accountedUnits = c.accountedUnits := hc.units
    constructor
    · intro hyes
      simp only
      rw [← hcomplete hyes, hunits]
      exact UInt64.le_iff_toNat_le.mp hle
    · intro hno
      simp only
      rw [hunits]
      exact UInt64.le_trans (hincomplete hno) hle
  constructor
  · exact hbound
  · intro _
    rw [hc.state]
    exact RowState.asStr_eq_settled hstate
  · intro i a ha
    rw [hc.adjustments] at ha
    rcases Nat.lt_trichotomy i r.adjustments.length with hi | hi | hi
    · rw [List.getElem?_append_left hi] at ha
      exact h.revisions i a ha
    · subst hi
      rw [List.getElem?_append_right le_rfl, Nat.sub_self] at ha
      cases ha
      simp only
      rw [hexpected]
      omega
    · rw [List.getElem?_eq_none (by simp; omega)] at ha
      cases ha
  · intro i a b ha hb
    rw [hc.adjustments] at ha hb
    rcases Nat.lt_trichotomy (i + 1) r.adjustments.length with hi | hi | hi
    · rw [List.getElem?_append_left (by omega)] at ha
      rw [List.getElem?_append_left hi] at hb
      exact h.linked i a b ha hb
    · rw [List.getElem?_append_left (by omega)] at ha
      rw [List.getElem?_append_right (by omega), hi, Nat.sub_self] at hb
      cases hb
      apply h.current
      rw [List.getLast?_eq_getElem?, ← hi]
      exact ha
    · rw [List.getElem?_eq_none (by simp; omega)] at hb
      cases hb
  · intro a ha
    rw [hc.adjustments, List.getLast?_concat] at ha
    cases ha
    rfl
  · rw [hc.adjustments, List.map_append]
    apply h.ids.append (by simp)
    simp only [List.map_cons, List.map_nil, List.disjoint_singleton, List.mem_map, not_exists,
      not_and]
    exact hc.unknown
  · intro a ha
    rw [hc.adjustments, List.mem_append, List.mem_singleton] at ha
    rw [hsame.originalUnits]
    rcases ha with ha | rfl
    · exact h.original a ha
    · rfl
  · intro a ha
    rw [hc.adjustments, List.mem_append, List.mem_singleton] at ha
    rcases ha with ha | rfl
    · exact h.accounted a ha
    · exact ⟨hc.units, hcover⟩

end BudgetRow

namespace BudgetRow

theorem Chained.find?_adjustment {r : BudgetRow} (h : r.Chained) {a : BudgetAdjustment}
    (ha : a ∈ r.adjustments) {c : BudgetCorrection} (hid : c.id = a.correction.id) :
    r.adjustments.find? (·.correction.id == c.id) = some a := by
  rw [hid]
  exact List.find?_of_nodup h.ids ha

/-- One adjustment for each revision. -/
theorem Chained.eq_of_revision {r : BudgetRow} (h : r.Chained) {a b : BudgetAdjustment}
    (ha : a ∈ r.adjustments) (hb : b ∈ r.adjustments)
    (hrevision : a.correction.expectedRevision = b.correction.expectedRevision) : a = b := by
  obtain ⟨i, hi⟩ := List.mem_iff_getElem?.mp ha
  obtain ⟨j, hj⟩ := List.mem_iff_getElem?.mp hb
  have hia := (h.revisions i a hi).2.2
  have hjb := (h.revisions j b hj).2.2
  have hij : i = j := by rw [← hia, ← hjb, hrevision]
  subst hij
  rw [hi] at hj
  exact Option.some.inj hj

end BudgetRow

theorem BudgetRow.Chained.change {call : BudgetCall} {r r' : BudgetRow} (h : r.Chained)
    (hchange : RowChange call r r') : r'.Chained ∧ r.adjustments <+: r'.adjustments := by
  have hempty (hheld : r.state = .held) : r.adjustments = [] := by
    by_contra hne
    have hsettled := h.settled hne
    rw [hheld] at hsettled
    cases hsettled
  cases hchange with
  | same => exact ⟨h, List.prefix_rfl⟩
  | settled reservation actualUnits usage _ hheld =>
    have hnone := hempty (BudgetRow.isHeldBy_iff.mp hheld).2.2
    exact ⟨.of_empty hnone, List.prefix_rfl⟩
  | released reservation _ hheld =>
    have hnone := hempty (BudgetRow.isHeldBy_iff.mp hheld).2.2
    exact ⟨.of_empty hnone, List.prefix_rfl⟩
  | swept now olderThanSecs _ hstale =>
    simp only [BudgetRows.isStale, decide_eq_true_eq] at hstale
    exact ⟨.of_empty (hempty hstale.1), List.prefix_rfl⟩
  | reconciled tenant id c _ _ result hof hrec =>
    rcases BudgetRow.reconcile_eq_ok hrec with ⟨rfl, -⟩ | ⟨hcorrects, hsame, -⟩
    · exact ⟨h, List.prefix_rfl⟩
    · refine ⟨h.corrects hsame hcorrects, ?_⟩
      rw [hcorrects.adjustments]
      exact List.prefix_append _ _

namespace BudgetRows

/-- Every row of a reachable ledger is chained. -/
theorem Run.chained {rows rows' : BudgetRows} (h : Run rows rows')
    (hrows : ∀ r ∈ rows, r.Chained) : ∀ r ∈ rows', r.Chained := by
  induction h with
  | refl => exact hrows
  | @step mid call _ _ ih =>
    obtain ⟨kept, added, hafter, hchange, hadded⟩ := mid.change_after call
    rw [hafter]
    intro r hr
    rcases List.mem_append.mp hr with hr | hr
    · obtain ⟨i, hi, rfl⟩ := List.getElem_of_mem hr
      obtain ⟨hlength, hget⟩ := List.forall₂_iff_get.mp hchange
      have hm : i < mid.length := by omega
      exact ((ih _ (List.getElem_mem hm)).change (hget i hm hi)).1
    · rcases hadded with rfl | ⟨now, id, scope, units, revision, limit, reservation, new, rfl,
        rfl, hgrant⟩
      · cases hr
      · obtain ⟨ceiling, new', -, hrows', -, -, -, -, -, hnone, -⟩ := reserve_granted hgrant
        cases (List.append_cancel_left hrows')
        rw [List.mem_singleton.mp hr]
        exact .of_empty hnone

theorem Reachable.chained {rows : BudgetRows} (h : Reachable rows) : ∀ r ∈ rows, r.Chained :=
  Run.chained h (by simp)

/-- A reservation stays found, and its adjustments only grow. -/
theorem Run.find? {rows rows' : BudgetRows} (h : Run rows rows')
    (hrows : ∀ r ∈ rows, r.Chained) {tenant id : String} {r : BudgetRow}
    (hr : rows.find? (·.isOf tenant id) = some r) :
    ∃ r', rows'.find? (·.isOf tenant id) = some r' ∧ r.adjustments <+: r'.adjustments := by
  induction h with
  | refl => exact ⟨r, hr, List.prefix_rfl⟩
  | @step mid call hrun _ ih =>
    obtain ⟨m, hm, hgrow⟩ := ih
    obtain ⟨kept, added, hafter, hchange, -⟩ := mid.change_after call
    obtain ⟨r', hr', hstep⟩ := hchange.find? (p := (·.isOf tenant id)) (by
      intro a b hab
      have hsame := hab.sameReservation
      simp only [BudgetRow.isOf, hsame.tenant, hsame.id]) hm
    have hchained := hrun.chained hrows m (List.mem_of_find?_eq_some hm)
    refine ⟨r', ?_, hgrow.trans (hchained.change hstep).2⟩
    rw [hafter, List.find?_append, hr']
    rfl

/-- An accepted correction is stored with its result in the row it was found for. -/
theorem reconcile_stored {rows rows' : BudgetRows} {tenant id : String} {c : BudgetCorrection}
    {result : BudgetEvidence} (h : rows.reconcile tenant id c = .ok (rows', result)) :
    ∃ r, rows'.find? (·.isOf tenant id) = some r ∧
      ∃ a ∈ r.adjustments, a.correction = c ∧ a.result = result := by
  obtain ⟨row, row', hfind, hrow, rfl⟩ := reconcile_eq_ok h
  have hof : row'.isOf tenant id = true := by
    have hrowOf := List.find?_some hfind
    rcases BudgetRow.reconcile_eq_ok hrow with ⟨rfl, -⟩ | ⟨-, hsame, -⟩
    · exact hrowOf
    · rw [BudgetRow.isOf_iff] at hrowOf ⊢
      exact ⟨hsame.tenant.trans hrowOf.1, hsame.id.trans hrowOf.2⟩
  refine ⟨row', ?_, ?_⟩
  · rw [List.find?_updateFirst (fun _ _ => hof), hfind]
    rfl
  · rcases BudgetRow.reconcile_eq_ok hrow with ⟨rfl, ha⟩ | ⟨hcorrects, -, rfl⟩
    · exact ha
    · refine ⟨⟨c, row.evidence, row'.evidence⟩, ?_, rfl, rfl⟩
      rw [hcorrects.adjustments]
      simp

theorem reconcile_known {rows : BudgetRows} {tenant id : String} {r : BudgetRow}
    (hfind : rows.find? (·.isOf tenant id) = some r) (hr : r.Chained) {a : BudgetAdjustment}
    (ha : a ∈ r.adjustments) :
    rows.reconcile tenant id a.correction = .ok (rows, a.result) ∧
      ∀ c, c.id = a.correction.id → c ≠ a.correction →
        rows.reconcile tenant id c = .error .idempotencyMismatch := by
  have hreplay (c : BudgetCorrection) (hid : c.id = a.correction.id) :
      r.reconcile c = if a.correction = c then .ok (r, a.result)
        else .error .idempotencyMismatch := by
    rw [BudgetRow.reconcile, hr.find?_adjustment ha hid]
  constructor
  · rw [reconcile, hfind]
    simp only [hreplay a.correction rfl, if_true]
    rw [List.updateFirst_const hfind]
  · intro c hid hne
    rw [reconcile, hfind]
    simp only [hreplay c hid, if_neg (Ne.symm hne)]

/-- In every reachable ledger each row's adjustments are a chain; a correction once accepted
is answered with its stored result in every later state, its id with another body is a
mismatch, neither changes a row, and no other correction of its revision is accepted. -/
theorem reconciliation_chain {rows : BudgetRows} (h : Reachable rows) :
    (∀ r ∈ rows, r.Chained) ∧
    ∀ tenant id c rows₁ result, rows.reconcile tenant id c = .ok (rows₁, result) →
      ∀ rows₂, Run rows₁ rows₂ →
        rows₂.reconcile tenant id c = .ok (rows₂, result) ∧
        (∀ c', c'.id = c.id → c' ≠ c →
          rows₂.reconcile tenant id c' = .error .idempotencyMismatch ∧
          rows₂.after (.reconcile tenant id c') = rows₂) ∧
        ∀ c' rows₃ result', c'.expectedRevision = c.expectedRevision →
          rows₂.reconcile tenant id c' = .ok (rows₃, result') → c' = c := by
  refine ⟨h.chained, ?_⟩
  intro tenant id c rows₁ result haccepted rows₂ hrun
  have hreach : Reachable rows₁ := by
    have hstep : Run [] (rows.after (.reconcile tenant id c)) := .step _ h trivial
    simp only [after, haccepted, rowsOr] at hstep
    exact hstep
  obtain ⟨r₁, hfind₁, a, ha₁, rfl, rfl⟩ := reconcile_stored haccepted
  obtain ⟨r₂, hfind₂, hgrow⟩ := hrun.find? hreach.chained hfind₁
  have hchained₂ := hrun.chained hreach.chained
  have ha₂ : a ∈ r₂.adjustments := hgrow.subset ha₁
  obtain ⟨hsame, hother⟩ := reconcile_known hfind₂
    (hchained₂ r₂ (List.mem_of_find?_eq_some hfind₂)) ha₂
  refine ⟨hsame, ?_, ?_⟩
  · intro c' hid hne
    have hmismatch := hother c' hid hne
    exact ⟨hmismatch, by simp [after, hmismatch, rowsOr]⟩
  · intro c' rows₃ result' hrevision haccepted'
    have hstep : Run rows₂ rows₃ := by
      have hrec : Run rows₂ (rows₂.after (.reconcile tenant id c')) := .step _ (.refl _) trivial
      simpa only [after, haccepted', rowsOr] using hrec
    obtain ⟨r₃, hfind₃, a', ha₃', rfl, -⟩ := reconcile_stored haccepted'
    obtain ⟨r₃', hfind₃', hgrow'⟩ := hstep.find? hchained₂ hfind₂
    rw [hfind₃] at hfind₃'
    cases hfind₃'
    have hchained₃ := hstep.chained hchained₂ r₃ (List.mem_of_find?_eq_some hfind₃)
    have heq := hchained₃.eq_of_revision ha₃' (hgrow'.subset ha₂) hrevision
    rw [heq]

/-- The sample reservation, settled at an estimate, and a late complete usage for it. -/
abbrev settledRows : BudgetRows := sampleRows.after (.settle
  ⟨"b-1", "demo", "anthropic", "fast", "2026-01-01", 500⟩ none none)

abbrev sampleCorrection : BudgetCorrection where
  id := "late"
  expectedRevision := 0
  accountedUnits := 200
  usage := ⟨some 180, some 20, .providerReported⟩
  evidenceRef := "receipt"

theorem reconciliation_chain_of_late_usage : ∃ rows₁ result,
    settledRows.reconcile "demo" "b-1" sampleCorrection = .ok (rows₁, result) ∧
      rows₁.reconcile "demo" "b-1" sampleCorrection = .ok (rows₁, result) := by
  have hreach : Reachable settledRows := .step _ sampleRows_reachable trivial
  have haccepted : (settledRows.reconcile "demo" "b-1" sampleCorrection).isOk = true := by decide
  cases hrec : settledRows.reconcile "demo" "b-1" sampleCorrection with
  | error e =>
    rw [hrec] at haccepted
    cases haccepted
  | ok p =>
    obtain ⟨rows₁, result⟩ := p
    exact ⟨rows₁, result, rfl,
      ((reconciliation_chain hreach).2 _ _ _ rows₁ result hrec rows₁ (.refl _)).1⟩

example : (settledRows.reconcile "demo" "b-1" sampleCorrection).map (·.2.accountedUnits) =
    .ok 200 := by decide

end BudgetRows

end Munarium
