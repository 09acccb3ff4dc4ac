import Munarium.Budget.Ledger

/-! What a call may do to one row, and the daily ceilings that follow from it. -/
namespace Munarium

/-- What a call may do to a row. A row keeps its id and the window it was reserved for. -/
inductive RowChange : BudgetCall → BudgetRow → BudgetRow → Prop
  | same (call : BudgetCall) (r : BudgetRow) : RowChange call r r
  | settled (reservation : BudgetReservation) (actualUnits : Option UInt64)
      (usage : Option UsageEvidence) (r : BudgetRow) (h : r.isHeldBy reservation = true) :
      RowChange (.settle reservation actualUnits usage) r (r.settled actualUnits usage)
  | released (reservation : BudgetReservation) (r : BudgetRow)
      (h : r.isHeldBy reservation = true) :
      RowChange (.release reservation) r { r with state := .released }
  | swept (now : ClockReading) (olderThanSecs : UInt64) (r : BudgetRow)
      (h : BudgetRows.isStale now olderThanSecs r = true) :
      RowChange (.sweepStale now olderThanSecs) r { r with state := .settled }
  | reconciled (tenant id : String) (c : BudgetCorrection) (r r' : BudgetRow)
      (result : BudgetEvidence) (hof : r.isOf tenant id = true)
      (h : r.reconcile c = .ok (r', result)) : RowChange (.reconcile tenant id c) r r'

namespace BudgetRow

theorem isHeldBy_iff {reservation : BudgetReservation} {r : BudgetRow} :
    r.isHeldBy reservation = true ↔
      r.id = reservation.id ∧ r.tenant = reservation.tenant ∧ r.state = .held := by
  simp [isHeldBy]

theorem isOf_iff {tenant id : String} {r : BudgetRow} :
    r.isOf tenant id = true ↔ r.tenant = tenant ∧ r.id = id := by
  simp [isOf]

/-- An accepted correction that was not stored before. -/
structure Corrects (c : BudgetCorrection) (r r' : BudgetRow) : Prop where
  unknown : ∀ a ∈ r.adjustments, a.correction.id ≠ c.id
  valid : c.validate r.evidence = .ok ()
  units : r'.units = c.accountedUnits
  usage : r'.usage = some c.usage
  state : r'.state = r.state
  adjustments : r'.adjustments = r.adjustments ++ [⟨c, r.evidence, r'.evidence⟩]
  revision : r'.evidence.revision.toNat = r.evidence.revision.toNat + 1

/-- A row keeps what it was reserved with. -/
structure SameReservation (r r' : BudgetRow) : Prop where
  id : r'.id = r.id
  tenant : r'.tenant = r.tenant
  config : r'.config = r.config
  tier : r'.tier = r.tier
  day : r'.day = r.day
  originalUnits : r'.originalUnits = r.originalUnits

theorem reconcile_eq_ok {r r' : BudgetRow} {c : BudgetCorrection} {result : BudgetEvidence}
    (h : r.reconcile c = .ok (r', result)) :
    (r' = r ∧ ∃ a ∈ r.adjustments, a.correction = c ∧ a.result = result) ∨
      r.Corrects c r' ∧ r.SameReservation r' ∧ result = r'.evidence := by
  unfold reconcile at h
  cases hfind : r.adjustments.find? (·.correction.id == c.id) with
  | some existing =>
    simp only [hfind] at h
    split_ifs at h with hc
    cases h
    exact .inl ⟨rfl, existing, List.mem_of_find?_eq_some hfind, hc, rfl⟩
  | none =>
    simp only [hfind] at h
    cases hvalid : c.validate r.evidence with
    | error e => simp [hvalid] at h
    | ok u =>
      simp only [hvalid] at h
      cases hrev : r.evidence.revision.checkedAdd 1 with
      | none => simp [hrev] at h
      | some revision =>
        simp only [hrev] at h
        have hunknown : ∀ a ∈ r.adjustments, a.correction.id ≠ c.id := by
          intro a ha hid
          exact absurd hid (by simpa using List.find?_eq_none.mp hfind a ha)
        have hnat := UInt64.checkedAdd_eq_some_iff.mp hrev
        have hnext : revision = UInt64.ofNat (r.adjustments.length + 1) := by
          apply UInt64.toNat_inj.mp
          have hlt := revision.toNat_lt
          rw [← hnat]
          simp only [evidence, UInt64.toNat_ofNat'] at hnat ⊢
          simp only [UInt64.toNat_one] at hnat ⊢
          omega
        cases h
        right
        refine ⟨⟨hunknown, hvalid, rfl, rfl, rfl, ?_, ?_⟩, ⟨rfl, rfl, rfl, rfl, rfl, rfl⟩, ?_⟩
        · simp [evidence, hnext]
        · simp only [evidence, List.length_append, List.length_singleton, ← hnext]
          exact hnat.symm
        · simp [evidence, hnext]

end BudgetRow

namespace RowChange

variable {call : BudgetCall} {r r' : BudgetRow}

theorem sameReservation (h : RowChange call r r') : r.SameReservation r' := by
  cases h with
  | reconciled tenant id c _ _ result hof hrec =>
    rcases BudgetRow.reconcile_eq_ok hrec with ⟨rfl, -⟩ | ⟨-, hsame, -⟩
    · exact ⟨rfl, rfl, rfl, rfl, rfl, rfl⟩
    · exact hsame
  | _ => exact ⟨rfl, rfl, rfl, rfl, rfl, rfl⟩

/-- Settled and released rows keep their state. -/
theorem state (h : RowChange call r r') : r.state = .held ∨ r'.state = r.state := by
  cases h with
  | same => exact .inr rfl
  | settled reservation actualUnits usage _ hheld =>
    exact .inl (BudgetRow.isHeldBy_iff.mp hheld).2.2
  | released reservation _ hheld => exact .inl (BudgetRow.isHeldBy_iff.mp hheld).2.2
  | swept now olderThanSecs _ hstale =>
    simp only [BudgetRows.isStale, decide_eq_true_eq] at hstale
    exact .inl hstale.1
  | reconciled tenant id c _ _ result hof hrec =>
    rcases BudgetRow.reconcile_eq_ok hrec with ⟨rfl, -⟩ | ⟨hcorrects, -⟩
    · exact .inr rfl
    · exact .inr hcorrects.state

end RowChange

/-- The first settlement of the row, with an amount. -/
def SettledWith (call : BudgetCall) (r r' : BudgetRow) : Prop :=
  ∃ reservation amount usage, call = .settle reservation (some amount) usage ∧
    r.id = reservation.id ∧ r.tenant = reservation.tenant ∧ r.state = .held ∧
    r'.state = .settled ∧ r'.units = amount

/-- A correction of the row that was accepted. -/
def CorrectedBy (call : BudgetCall) (r r' : BudgetRow) : Prop :=
  ∃ c, call = .reconcile r.tenant r.id c ∧ r.Corrects c r'

theorem RowChange.units {call : BudgetCall} {r r' : BudgetRow} (h : RowChange call r r')
    (hne : r'.units ≠ r.units) : SettledWith call r r' ∨ CorrectedBy call r r' := by
  cases h with
  | settled reservation actualUnits usage _ hheld =>
    obtain ⟨hid, htenant, hstate⟩ := BudgetRow.isHeldBy_iff.mp hheld
    cases actualUnits with
    | none => exact absurd rfl hne
    | some amount => exact .inl ⟨_, amount, usage, rfl, hid, htenant, hstate, rfl, rfl⟩
  | reconciled tenant id c _ _ result hof hrec =>
    obtain ⟨rfl, rfl⟩ := BudgetRow.isOf_iff.mp hof
    rcases BudgetRow.reconcile_eq_ok hrec with ⟨rfl, -⟩ | ⟨hcorrects, -⟩
    · exact absurd rfl hne
    · exact .inr ⟨c, rfl, hcorrects⟩
  | _ => exact absurd rfl hne

namespace BudgetRows

/-- The units that count against the scope's ceiling of the day. -/
def activeTotal (rows : BudgetRows) (scope : BudgetScope) (day : String) : ℕ :=
  ((rows.filter (·.countsFor scope day)).map (·.units.toNat)).sum

/-- Admission computes that total, or finds it past 64 bits. -/
theorem active_eq_some_iff {rows : BudgetRows} {scope : BudgetScope} {day : String}
    {total : UInt64} :
    rows.active scope day = some total ↔ rows.activeTotal scope day = total.toNat := by
  rw [active, UInt64.checkedSum_eq_some_iff, List.map_map]
  rfl

theorem activeTotal_append (rows more : BudgetRows) (scope : BudgetScope) (day : String) :
    activeTotal (rows ++ more) scope day =
      rows.activeTotal scope day + more.activeTotal scope day := by
  simp [activeTotal]

/-- Rows that keep their units and whether they count keep every total. -/
theorem activeTotal_congr {rows rows' : BudgetRows} {scope : BudgetScope} {day : String}
    (h : List.Forall₂ (fun r r' => r'.units = r.units ∧
      r'.countsFor scope day = r.countsFor scope day) rows rows') :
    rows'.activeTotal scope day = rows.activeTotal scope day := by
  induction h with
  | nil => rfl
  | @cons r r' rest rest' hr _ ih =>
    have hcons (r : BudgetRow) (rest : BudgetRows) : activeTotal (r :: rest) scope day =
        activeTotal [r] scope day + rest.activeTotal scope day := activeTotal_append [r] rest _ _
    rw [hcons, hcons, ih]
    simp only [activeTotal, List.filter_cons, hr.2, List.filter_nil]
    split_ifs <;> simp [hr.1]

/-- What a grant leaves: one more held row, and a total within the limit. -/
theorem reserve_granted {rows rows' : BudgetRows} {now : ClockReading} {id : String}
    {scope : BudgetScope} {units : UInt64} {revision : Option String} {limit : Option UInt64}
    {reservation : BudgetReservation}
    (h : rows.reserve now id scope units revision limit = .ok (rows', .granted reservation)) :
    ∃ ceiling new, limit = some ceiling ∧ rows' = rows ++ [new] ∧
      reservation = ⟨id, scope.tenant, scope.config, scope.tier, now.day, units⟩ ∧
      new.id = id ∧ new.state = .held ∧ new.units = units ∧ new.originalUnits = units ∧
      new.adjustments = [] ∧ new.countsFor scope now.day = true ∧
      rows'.activeTotal scope now.day ≤ ceiling.toNat := by
  cases limit with
  | none => simp [reserve] at h
  | some ceiling =>
    cases hactive : rows.active scope now.day with
    | none => simp [reserve, hactive] at h
    | some active =>
      simp only [reserve, hactive] at h
      by_cases hover : ((active.checkedAdd units).all fun total => decide (ceiling < total)) = true
      · rw [if_pos hover] at h
        cases h
      rw [if_neg hover] at h
      cases h
      refine ⟨ceiling, _, rfl, rfl, rfl, rfl, rfl, rfl, rfl, rfl, by simp [BudgetRow.countsFor], ?_⟩
      have htotal := active_eq_some_iff.mp hactive
      cases hsum : active.checkedAdd units with
      | none => simp [hsum] at hover
      | some total =>
        have hadd := UInt64.checkedAdd_eq_some_iff.mp hsum
        have hle : total ≤ ceiling := by simpa [hsum] using hover
        rw [activeTotal_append, htotal]
        simp only [activeTotal, BudgetRow.countsFor, List.filter_cons, ne_eq, reduceCtorEq,
          not_false_eq_true, and_self, decide_true, if_true, List.filter_nil, List.map_cons,
          List.map_nil, List.sum_cons, List.sum_nil, Nat.add_zero]
        rw [hadd]
        exact UInt64.le_iff_toNat_le.mp hle

theorem reserve_other {rows rows' : BudgetRows} {now : ClockReading} {id : String}
    {scope : BudgetScope} {units : UInt64} {revision : Option String} {limit : Option UInt64}
    {outcome : BudgetOutcome}
    (h : rows.reserve now id scope units revision limit = .ok (rows', outcome))
    (hother : ∀ reservation, outcome ≠ .granted reservation) : rows' = rows := by
  unfold reserve at h
  split at h
  · cases h
    rfl
  · split at h
    · cases h
    · split at h
      · cases h
        rfl
      · cases h
        exact absurd rfl (hother _)

theorem reconcile_eq_ok {rows rows' : BudgetRows} {tenant id : String} {c : BudgetCorrection}
    {result : BudgetEvidence} (h : rows.reconcile tenant id c = .ok (rows', result)) :
    ∃ row row', rows.find? (·.isOf tenant id) = some row ∧ row.reconcile c = .ok (row', result) ∧
      rows' = rows.updateFirst (·.isOf tenant id) fun _ => row' := by
  unfold reconcile at h
  cases hfind : rows.find? (·.isOf tenant id) with
  | none => simp [hfind] at h
  | some row =>
    simp only [hfind] at h
    cases hrow : row.reconcile c with
    | error e => simp [hrow] at h
    | ok q =>
      simp only [hrow] at h
      cases h
      exact ⟨row, q.1, rfl, hrow, rfl⟩

/-- Every call changes rows in place, one by one; only a grant adds a row. -/
theorem change_after (rows : BudgetRows) (call : BudgetCall) :
    ∃ kept added, rows.after call = kept ++ added ∧
      List.Forall₂ (RowChange call) rows kept ∧
      (added = [] ∨ ∃ now id scope units revision limit reservation new, added = [new] ∧
        call = .reserve now id scope units revision limit ∧
        rows.reserve now id scope units revision limit =
          .ok (rows ++ [new], .granted reservation)) := by
  have hsame (call : BudgetCall) : List.Forall₂ (RowChange call) rows rows :=
    List.forall₂_same.mpr fun r _ => .same call r
  cases call with
  | reserve now id scope units revision limit =>
    simp only [after]
    cases hres : rows.reserve now id scope units revision limit with
    | error e => exact ⟨rows, [], by simp [rowsOr], hsame _, .inl rfl⟩
    | ok p =>
      obtain ⟨rows', outcome⟩ := p
      by_cases hgrant : ∃ reservation, outcome = .granted reservation
      · obtain ⟨reservation, rfl⟩ := hgrant
        obtain ⟨ceiling, new, -, rfl, -⟩ := reserve_granted hres
        exact ⟨rows, [new], rfl, hsame _,
          .inr ⟨now, id, scope, units, revision, limit, reservation, new, rfl, rfl, hres⟩⟩
      · have hrows := reserve_other hres fun reservation h => hgrant ⟨reservation, h⟩
        exact ⟨rows, [], by simp [rowsOr, hrows], hsame _, .inl rfl⟩
  | settle reservation actualUnits usage =>
    refine ⟨_, [], (List.append_nil _).symm, ?_, .inl rfl⟩
    apply List.forall₂_updateFirst
    · intro r
      exact .same _ r
    · intro r hr
      exact .settled reservation actualUnits usage r (List.find?_some hr)
  | release reservation =>
    refine ⟨_, [], (List.append_nil _).symm, ?_, .inl rfl⟩
    apply List.forall₂_updateFirst
    · intro r
      exact .same _ r
    · intro r hr
      exact .released reservation r (List.find?_some hr)
  | sweepStale now olderThanSecs =>
    refine ⟨_, [], (List.append_nil _).symm, ?_, .inl rfl⟩
    apply List.forall₂_map
    intro r
    split_ifs with hstale
    · exact .swept now olderThanSecs r hstale
    · exact .same _ r
  | reconcile tenant id c =>
    simp only [after]
    cases hrec : rows.reconcile tenant id c with
    | error e => exact ⟨rows, [], by simp [rowsOr], hsame _, .inl rfl⟩
    | ok p =>
      obtain ⟨rows', result⟩ := p
      obtain ⟨row, row', hfind, hrow, rfl⟩ := reconcile_eq_ok hrec
      refine ⟨_, [], (List.append_nil _).symm, ?_, .inl rfl⟩
      apply List.forall₂_updateFirst
      · intro r
        exact .same _ r
      · intro r hr
        rw [hfind] at hr
        cases hr
        exact .reconciled tenant id c row row' result (List.find?_some hfind) hrow

theorem change_at {rows : BudgetRows} (call : BudgetCall) {i : ℕ} {r : BudgetRow}
    (h : rows[i]? = some r) : ∃ r', (rows.after call)[i]? = some r' ∧ RowChange call r r' := by
  obtain ⟨kept, added, hafter, hchange, -⟩ := rows.change_after call
  obtain ⟨hi, rfl⟩ := List.getElem?_eq_some_iff.mp h
  obtain ⟨hlength, hget⟩ := List.forall₂_iff_get.mp hchange
  have hk : i < kept.length := by omega
  refine ⟨kept[i], ?_, hget i hi hk⟩
  rw [hafter, List.getElem?_append_left hk, List.getElem?_eq_getElem hk]

theorem Run.trans {rows mid rows' : BudgetRows} (h : Run rows mid) (h' : Run mid rows') :
    Run rows rows' := by
  induction h' with
  | refl => exact h
  | step call _ hfresh ih => exact .step call ih hfresh

theorem Run.row {rows rows' : BudgetRows} (h : Run rows rows') {i : ℕ} {r : BudgetRow}
    (hr : rows[i]? = some r) :
    ∃ r', rows'[i]? = some r' ∧ r.SameReservation r' ∧
      (r.state = .held ∨ r'.state = r.state) := by
  induction h with
  | refl => exact ⟨r, hr, ⟨rfl, rfl, rfl, rfl, rfl, rfl⟩, .inr rfl⟩
  | step call _ _ ih =>
    obtain ⟨mid, hmid, hsame, hstate⟩ := ih
    obtain ⟨r', hr', hchange⟩ := change_at call hmid
    have hsame' := hchange.sameReservation
    refine ⟨r', hr', ⟨hsame'.id.trans hsame.id, hsame'.tenant.trans hsame.tenant,
      hsame'.config.trans hsame.config, hsame'.tier.trans hsame.tier,
      hsame'.day.trans hsame.day, hsame'.originalUnits.trans hsame.originalUnits⟩, ?_⟩
    rcases hstate with hheld | hstate
    · exact .inl hheld
    · rcases hchange.state with hheld | hkept
      · exact .inl (hstate ▸ hheld)
      · exact .inr (hkept.trans hstate)

/-- Every row is still there after a call, changed as the call may change it. -/
theorem mem_after {rows : BudgetRows} (call : BudgetCall) {r : BudgetRow} (h : r ∈ rows) :
    ∃ r' ∈ rows.after call, RowChange call r r' := by
  obtain ⟨i, hi⟩ := List.mem_iff_getElem?.mp h
  obtain ⟨r', hr', hchange⟩ := change_at call hi
  exact ⟨r', List.mem_iff_getElem?.mpr ⟨i, hr'⟩, hchange⟩

theorem ids_nodup_after {rows : BudgetRows} {call : BudgetCall} (hfresh : rows.Fresh call)
    (h : (rows.map (·.id)).Nodup) : ((rows.after call).map (·.id)).Nodup := by
  obtain ⟨kept, added, hafter, hchange, hadded⟩ := rows.change_after call
  have hids : rows.map (·.id) = kept.map (·.id) := by
    rw [← List.forall₂_eq_eq_eq, List.forall₂_map_left_iff, List.forall₂_map_right_iff]
    exact hchange.imp fun _ _ hr => hr.sameReservation.id.symm
  rw [hafter, List.map_append, ← hids]
  rcases hadded with rfl | ⟨now, id, scope, units, revision, limit, reservation, new, rfl,
    rfl, hgrant⟩
  · simpa using h
  · obtain ⟨ceiling, new', -, hrows, -, hid, -⟩ := reserve_granted hgrant
    cases (List.append_cancel_left hrows)
    apply List.Nodup.append h (by simp)
    simp only [List.disjoint_singleton, List.map_cons, List.map_nil, hid, List.mem_map, not_exists,
      not_and]
    exact hfresh

theorem Reachable.ids_nodup {rows : BudgetRows} (h : Reachable rows) :
    (rows.map (·.id)).Nodup := by
  induction h with
  | refl => exact List.nodup_nil
  | step call _ hfresh ih => exact ids_nodup_after hfresh ih

theorem activeTotal_sweepStale (rows : BudgetRows) (now : ClockReading)
    (olderThanSecs : UInt64) (scope : BudgetScope) (day : String) :
    (rows.sweepStale now olderThanSecs).1.activeTotal scope day = rows.activeTotal scope day := by
  apply activeTotal_congr
  apply List.forall₂_map
  intro r
  split_ifs with hstale
  · simp only [isStale, decide_eq_true_eq] at hstale
    exact ⟨rfl, by simp [BudgetRow.countsFor, hstale.1]⟩
  · exact ⟨rfl, rfl⟩

/-- What a group of the ledger holds and has settled. -/
def groupTotal (groups : LedgerGroups) (key : String ×ₗ String) : ℕ :=
  ((groups.get? key).map fun e => e.heldUnits.toNat + e.settledUnits.toNat).getD 0

/-- What a row adds to a group. -/
def contribution (key : String ×ₗ String) (r : BudgetRow) : ℕ :=
  if toLex (r.config, r.tier) = key ∧ r.state ≠ .released then r.units.toNat else 0

/-- Every group stands under its own names. -/
def Keyed (groups : LedgerGroups) : Prop :=
  ∀ key e, groups.get? key = some e → toLex (e.config, e.tier) = key

theorem groupTotal_insert (groups : LedgerGroups) (key key' : String ×ₗ String)
    (e : BudgetLedgerRow) : groupTotal (groups.insert key e) key' =
      if key' = key then e.heldUnits.toNat + e.settledUnits.toNat else groupTotal groups key' := by
  unfold groupTotal
  rw [SortedMap.get?_insert]
  split_ifs <;> rfl

theorem Keyed.insert {groups : LedgerGroups} (h : Keyed groups) {key : String ×ₗ String}
    {e : BudgetLedgerRow} (he : toLex (e.config, e.tier) = key) :
    Keyed (groups.insert key e) := by
  intro key' e' hget
  rw [SortedMap.get?_insert] at hget
  split_ifs at hget with hk
  · cases hget
    rw [hk, he]
  · exact h key' e' hget

/-- The group a row goes into, new or not. -/
def entryFor (day : String) (groups : LedgerGroups) (r : BudgetRow) : BudgetLedgerRow :=
  (groups.get? (toLex (r.config, r.tier))).getD ⟨r.config, r.tier, day, 0, 0, 0⟩

theorem entryFor_key {groups : LedgerGroups} (hkeyed : Keyed groups) (day : String)
    (r : BudgetRow) : toLex ((entryFor day groups r).config, (entryFor day groups r).tier) =
      toLex (r.config, r.tier) := by
  unfold entryFor
  cases hget : groups.get? (toLex (r.config, r.tier)) with
  | none => rfl
  | some e => exact hkeyed _ e hget

theorem entryFor_total (day : String) (groups : LedgerGroups) (r : BudgetRow) :
    (entryFor day groups r).heldUnits.toNat + (entryFor day groups r).settledUnits.toNat =
      groupTotal groups (toLex (r.config, r.tier)) := by
  unfold entryFor groupTotal
  cases groups.get? (toLex (r.config, r.tier)) <;> rfl

/-- A row adds its units to its own group, on the side of its state, unless that side
would pass 64 bits. -/
theorem ledgerStep_eq_ok {day : String} {groups groups' : LedgerGroups} {r : BudgetRow}
    (hkeyed : Keyed groups) (h : ledgerStep day groups r = .ok groups') :
    Keyed groups' ∧ ∀ key, groupTotal groups' key = groupTotal groups key + contribution key r := by
  have hkey := entryFor_key hkeyed day r
  have htotal := entryFor_total day groups r
  have hinsert (e : BudgetLedgerRow) (he : toLex (e.config, e.tier) = toLex (r.config, r.tier))
      (hsum : e.heldUnits.toNat + e.settledUnits.toNat =
        groupTotal groups (toLex (r.config, r.tier)) + r.units.toNat)
      (hstate : r.state ≠ .released) :
      Keyed (groups.insert (toLex (r.config, r.tier)) e) ∧ ∀ key,
        groupTotal (groups.insert (toLex (r.config, r.tier)) e) key =
          groupTotal groups key + contribution key r := by
    refine ⟨hkeyed.insert he, ?_⟩
    intro key
    rw [groupTotal_insert]
    unfold contribution
    split_ifs with hk hc hc
    · rw [hsum, hk]
    · exact absurd ⟨hk.symm, hstate⟩ hc
    · exact absurd hc.1.symm hk
    · rfl
  have hentry : (groups.get? (toLex (r.config, r.tier))).getD ⟨r.config, r.tier, day, 0, 0, 0⟩ =
      entryFor day groups r := rfl
  simp only [ledgerStep, hentry] at h
  cases hstate : r.state with
  | released =>
    simp only [hstate] at h
    cases h
    exact ⟨hkeyed, by simp [contribution, hstate]⟩
  | held =>
    simp only [hstate] at h
    cases hadd : (entryFor day groups r).heldUnits.checkedAdd r.units with
    | none => simp [hadd] at h
    | some total =>
      simp only [hadd] at h
      cases h
      have hnat := UInt64.checkedAdd_eq_some_iff.mp hadd
      exact hinsert _ hkey (by simp only; omega) (by simp [hstate])
  | settled =>
    simp only [hstate] at h
    cases hadd : (entryFor day groups r).settledUnits.checkedAdd r.units with
    | none => simp [hadd] at h
    | some total =>
      simp only [hadd] at h
      cases h
      have hnat := UInt64.checkedAdd_eq_some_iff.mp hadd
      exact hinsert _ hkey (by simp only; omega) (by simp [hstate])

/-- A side that would pass 64 bits is part of a total that does. -/
theorem ledgerStep_eq_error {day : String} {groups : LedgerGroups} {r : BudgetRow}
    {e : KernelError} (h : ledgerStep day groups r = .error e) :
    ∃ key, 2 ^ 64 ≤ groupTotal groups key + contribution key r := by
  refine ⟨toLex (r.config, r.tier), ?_⟩
  have htotal := entryFor_total day groups r
  have hentry : (groups.get? (toLex (r.config, r.tier))).getD ⟨r.config, r.tier, day, 0, 0, 0⟩ =
      entryFor day groups r := rfl
  simp only [ledgerStep, hentry] at h
  cases hstate : r.state with
  | released => simp [hstate] at h
  | held =>
    simp only [hstate] at h
    cases hadd : (entryFor day groups r).heldUnits.checkedAdd r.units with
    | none =>
      have hnat := UInt64.checkedAdd_eq_none_iff.mp hadd
      simp only [contribution, hstate, ne_eq, reduceCtorEq, not_false_eq_true, and_self, if_true]
      omega
    | some total => simp [hadd] at h
  | settled =>
    simp only [hstate] at h
    cases hadd : (entryFor day groups r).settledUnits.checkedAdd r.units with
    | none =>
      have hnat := UInt64.checkedAdd_eq_none_iff.mp hadd
      simp only [contribution, hstate, ne_eq, reduceCtorEq, not_false_eq_true, and_self, if_true]
      omega
    | some total => simp [hadd] at h

theorem ledgerFold {day : String} (rows : BudgetRows) {groups : LedgerGroups}
    (hkeyed : Keyed groups) :
    match rows.foldlM (ledgerStep day) groups with
    | .ok groups' => Keyed groups' ∧ ∀ key, groupTotal groups' key =
        groupTotal groups key + (rows.map (contribution key)).sum
    | .error _ => ∃ key, 2 ^ 64 ≤ groupTotal groups key + (rows.map (contribution key)).sum := by
  induction rows generalizing groups with
  | nil => exact ⟨hkeyed, by simp⟩
  | cons r rest ih =>
    rw [List.foldlM_cons]
    cases hstep : ledgerStep day groups r with
    | error e =>
      obtain ⟨key, hkey⟩ := ledgerStep_eq_error hstep
      refine ⟨key, ?_⟩
      rw [List.map_cons, List.sum_cons]
      omega
    | ok mid =>
      obtain ⟨hmid, htotal⟩ := ledgerStep_eq_ok hkeyed hstep
      have hrest := ih hmid
      simp only [bind, Except.bind]
      cases hfold : rest.foldlM (ledgerStep day) mid with
      | error e =>
        rw [hfold] at hrest
        obtain ⟨key, hkey⟩ := hrest
        refine ⟨key, ?_⟩
        rw [List.map_cons, List.sum_cons]
        have := htotal key
        omega
      | ok groups' =>
        rw [hfold] at hrest
        refine ⟨hrest.1, ?_⟩
        intro key
        rw [hrest.2 key, htotal key, List.map_cons, List.sum_cons]
        omega

theorem sum_contribution (rows : BudgetRows) (scope : BudgetScope) (day : String) :
    ((rows.filter fun r => decide (r.tenant = scope.tenant ∧ r.day = day)).map
      (contribution (toLex (scope.config, scope.tier)))).sum = rows.activeTotal scope day := by
  induction rows with
  | nil => rfl
  | cons r rest ih =>
    have hcons : activeTotal (r :: rest) scope day =
        (if r.countsFor scope day then r.units.toNat else 0) + activeTotal rest scope day := by
      simp only [activeTotal, List.filter_cons]
      split_ifs <;> simp
    rw [hcons, ← ih, List.filter_cons]
    by_cases hrow : r.tenant = scope.tenant ∧ r.day = day
    · simp only [hrow, and_self, decide_true, if_true, List.map_cons, List.sum_cons]
      congr 1
      simp [contribution, BudgetRow.countsFor, hrow, and_assoc]
    · have hout : r.countsFor scope day = false := by
        simp only [BudgetRow.countsFor, decide_eq_false_iff_not]
        intro h
        exact hrow ⟨h.1, h.2.2.2.1⟩
      simp [hrow, hout]

/-- The report of a tenant's day: one group for each scope with rows that count, whose
held and settled units add up to the total, or a scope whose total passes 64 bits. -/
theorem ledger_spec (rows : BudgetRows) (tenant : String) (now : ClockReading) :
    match rows.ledger tenant now with
    | .ok groups => (groups.map fun e => (e.config, e.tier)).Nodup ∧
        (∀ e ∈ groups, e.heldUnits.toNat + e.settledUnits.toNat =
          rows.activeTotal ⟨tenant, e.config, e.tier⟩ now.day) ∧
        ∀ config tier, (∀ e ∈ groups, (e.config, e.tier) ≠ (config, tier)) →
          rows.activeTotal ⟨tenant, config, tier⟩ now.day = 0
    | .error _ => ∃ config tier, rows.active ⟨tenant, config, tier⟩ now.day = none := by
  have hempty : Keyed .empty := by
    intro key e h
    cases h
  have hfold := @ledgerFold now.day
    (rows.filter fun r => decide (r.tenant = tenant ∧ r.day = now.day)) _ hempty
  have hzero (key : String ×ₗ String) : groupTotal .empty key = 0 := rfl
  have hsum (key : String ×ₗ String) := sum_contribution rows
    ⟨tenant, (ofLex key).1, (ofLex key).2⟩ now.day
  unfold ledger
  cases hrun : (rows.filter fun r => decide (r.tenant = tenant ∧ r.day = now.day)).foldlM
    (ledgerStep now.day) .empty with
  | error e =>
    rw [hrun] at hfold
    obtain ⟨key, hkey⟩ := hfold
    refine ⟨(ofLex key).1, (ofLex key).2, ?_⟩
    have hbig : 2 ^ 64 ≤ rows.activeTotal ⟨tenant, (ofLex key).1, (ofLex key).2⟩ now.day := by
      rw [← hsum key]
      exact (by simpa [hzero] using hkey)
    cases hactive : rows.active ⟨tenant, (ofLex key).1, (ofLex key).2⟩ now.day with
    | none => rfl
    | some total =>
      have hnat := active_eq_some_iff.mp hactive
      have hlt := total.toNat_lt
      omega
  | ok groups =>
    rw [hrun] at hfold
    obtain ⟨hkeyed, htotal⟩ := hfold
    have hgroup (key : String ×ₗ String) : groupTotal groups key =
        rows.activeTotal ⟨tenant, (ofLex key).1, (ofLex key).2⟩ now.day := by
      rw [htotal key, hzero, Nat.zero_add]
      exact hsum key
    refine ⟨?_, ?_, ?_⟩
    · have hnames : groups.values.map (fun e => (e.config, e.tier)) =
          (groups.entries.map Prod.fst).map ofLex := by
        rw [SortedMap.values, List.map_map, List.map_map]
        apply List.map_congr_left
        rintro ⟨key, e⟩ he
        have hkey := hkeyed key e (SortedMap.mem_entries_iff.mp he)
        exact congrArg ofLex hkey
      rw [hnames]
      exact groups.keys_nodup.map ofLex.injective
    · intro e he
      obtain ⟨key, hget⟩ := SortedMap.mem_values_iff.mp he
      have hkey := hkeyed key e hget
      rw [← show groupTotal groups key = e.heldUnits.toNat + e.settledUnits.toNat by
        simp [groupTotal, hget], hgroup key, ← hkey]
      rfl
    · intro config tier hnone
      have hscope : groupTotal groups (toLex (config, tier)) =
        rows.activeTotal ⟨tenant, config, tier⟩ now.day := hgroup _
      rw [← hscope, groupTotal]
      cases hget : groups.get? (toLex (config, tier)) with
      | none => rfl
      | some e =>
        have hmem := SortedMap.mem_values_iff.mpr ⟨_, hget⟩
        exact absurd (toLex.injective (hkeyed _ e hget)) (hnone e hmem)

theorem active_eq_of_activeTotal {rows : BudgetRows} {scope : BudgetScope} {day : String}
    {a b : UInt64} (h : a.toNat + b.toNat = rows.activeTotal scope day) :
    rows.active scope day = a.checkedAdd b := by
  apply Option.ext
  intro total
  rw [active_eq_some_iff, UInt64.checkedAdd_eq_some_iff, h]

/-- Every reachable ledger is safe: rows leave `held` once and for good, a grant stays
within its ceiling, units change by a first settlement or an accepted correction, sweeping
lowers no total, and the report adds up to what admission computes. -/
theorem daily_budget_safe {rows : BudgetRows} (h : Reachable rows) :
    (rows.map (·.id)).Nodup ∧
    (∀ rows', Run rows rows' → ∀ (i : ℕ) r, rows[i]? = some r → ∃ r', rows'[i]? = some r' ∧
      r.SameReservation r' ∧ (r.state = .held ∨ r'.state = r.state)) ∧
    (∀ now id scope units revision limit rows' reservation,
      rows.reserve now id scope units revision limit = .ok (rows', .granted reservation) →
        ∃ ceiling total new, limit = some ceiling ∧ rows' = rows ++ [new] ∧
          new.id = reservation.id ∧ new.units = units ∧ reservation.day = now.day ∧
          new.countsFor scope reservation.day = true ∧
          rows'.activeTotal scope reservation.day = total.toNat ∧ total ≤ ceiling) ∧
    (∀ call (i : ℕ) r r', rows[i]? = some r → (rows.after call)[i]? = some r' →
      r'.units ≠ r.units → SettledWith call r r' ∨ CorrectedBy call r r') ∧
    (∀ now olderThanSecs scope day, rows.activeTotal scope day ≤
      (rows.sweepStale now olderThanSecs).1.activeTotal scope day) ∧
    ∀ tenant (now : ClockReading), match rows.ledger tenant now with
      | .ok groups => (groups.map fun e => (e.config, e.tier)).Nodup ∧
          (∀ e ∈ groups, rows.active ⟨tenant, e.config, e.tier⟩ now.day =
            e.heldUnits.checkedAdd e.settledUnits) ∧
          ∀ config tier, (∀ e ∈ groups, (e.config, e.tier) ≠ (config, tier)) →
            rows.active ⟨tenant, config, tier⟩ now.day = some 0
      | .error _ => ∃ config tier, rows.active ⟨tenant, config, tier⟩ now.day = none := by
  refine ⟨h.ids_nodup, ?_, ?_, ?_, ?_, ?_⟩
  · intro rows' hrun i r hr
    exact hrun.row hr
  · intro now id scope units revision limit rows' reservation hgrant
    obtain ⟨ceiling, new, hlimit, hrows, rfl, hid, -, hunits, -, -, hcounts, htotal⟩ :=
      reserve_granted hgrant
    have hlt := ceiling.toNat_lt
    have hnat : (UInt64.ofNat (rows'.activeTotal scope now.day)).toNat =
        rows'.activeTotal scope now.day :=
      UInt64.toNat_ofNat_of_lt' (htotal.trans_lt hlt)
    refine ⟨ceiling, UInt64.ofNat (rows'.activeTotal scope now.day), new, hlimit, hrows, hid,
      hunits, rfl, hcounts, hnat.symm, ?_⟩
    rw [UInt64.le_iff_toNat_le, hnat]
    exact htotal
  · intro call i r r' hr hr' hne
    obtain ⟨r'', hr'', hchange⟩ := change_at call hr
    rw [hr'] at hr''
    cases hr''
    exact hchange.units hne
  · intro now olderThanSecs scope day
    exact (activeTotal_sweepStale rows now olderThanSecs scope day).ge
  · intro tenant now
    have hspec := ledger_spec rows tenant now
    cases hledger : rows.ledger tenant now with
    | error e =>
      rw [hledger] at hspec
      exact hspec
    | ok groups =>
      rw [hledger] at hspec
      obtain ⟨hnodup, hgroups, hnone⟩ := hspec
      refine ⟨hnodup, ?_, ?_⟩
      · intro e he
        exact active_eq_of_activeTotal (hgroups e he)
      · intro config tier hno
        rw [active_eq_some_iff, hnone config tier hno]
        rfl

/-- Five hundred units reserved of a thousand. -/
abbrev sampleRows : BudgetRows := BudgetRows.after [] (.reserve ⟨"2026-01-01", 1767225600⟩ "b-1"
  ⟨"demo", "anthropic", "fast"⟩ 500 none (some 1000))

theorem sampleRows_reachable : Reachable sampleRows :=
  .step _ (.refl []) (by simp [Fresh])

theorem daily_budget_safe_after_reserve : (sampleRows.map (·.id)).Nodup ∧
    ∀ now olderThanSecs scope day, sampleRows.activeTotal scope day ≤
      (sampleRows.sweepStale now olderThanSecs).1.activeTotal scope day :=
  ⟨(daily_budget_safe sampleRows_reachable).1,
    (daily_budget_safe sampleRows_reachable).2.2.2.2.1⟩

example : (sampleRows.reserve ⟨"2026-01-01", 1767225601⟩ "b-2" ⟨"demo", "anthropic", "fast"⟩ 501
    none (some 1000)).map Prod.snd = .ok (.exhausted 501 500 1000) := by decide

end BudgetRows

end Munarium
