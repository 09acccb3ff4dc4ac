import Munarium.Budget.Corrections
import Munarium.Budget.GuardedCalls

/-! The row of one reservation under the calls of a store that is swept: which calls reach it,
and what it stands at. -/
namespace Munarium

theorem UsageEvidence.reported_le {u : UsageEvidence} {reserved minimum : UInt64}
    (h : u.accountedUnits reserved = .ok minimum) :
    (u.inputTokens.getD 0).toNat + (u.outputTokens.getD 0).toNat ≤ minimum.toNat := by
  unfold accountedUnits at h
  cases hsum : (u.inputTokens.getD 0).checkedAdd (u.outputTokens.getD 0) with
  | none => simp [hsum] at h
  | some subtotal =>
    simp only [hsum] at h
    rw [UInt64.checkedAdd_eq_some_iff.mp hsum]
    split_ifs at h with hc
    · cases h
      exact Nat.le_refl _
    · cases h
      change subtotal.toNat ≤ (if reserved ≤ subtotal then subtotal else reserved).toNat
      split_ifs with hle
      · exact Nat.le_refl _
      · rw [UInt64.le_iff_toNat_le] at hle
        omega

theorem UsageEvidence.accountedUnits_eq_error {u : UsageEvidence} {reserved : UInt64}
    {e : KernelError} (h : u.accountedUnits reserved = .error e) :
    2 ^ 64 ≤ (u.inputTokens.getD 0).toNat + (u.outputTokens.getD 0).toNat := by
  unfold accountedUnits at h
  cases hsum : (u.inputTokens.getD 0).checkedAdd (u.outputTokens.getD 0) with
  | none => exact UInt64.checkedAdd_eq_none_iff.mp hsum
  | some subtotal =>
    simp only [hsum] at h
    split_ifs at h

/-- The reservation that a call settles, releases or corrects. -/
def BudgetCall.target : BudgetCall → Option String
  | .settle r _ _ => some r.id
  | .release r => some r.id
  | .reconcile _ id _ => some id
  | _ => none

/-- A row that a call is not about is at most swept. -/
theorem RowChange.apart {call : BudgetCall} {r r' : BudgetRow} (h : RowChange call r r')
    (hne : call.target ≠ some r.id) : r' = r ∨ ∃ now olderThanSecs,
      call = .sweepStale now olderThanSecs ∧ BudgetRows.isStale now olderThanSecs r = true ∧
        r' = { r with state := .settled } := by
  cases h with
  | same => exact .inl rfl
  | settled reservation actualUnits usage _ hheld =>
    exact absurd (congrArg some (BudgetRow.isHeldBy_iff.mp hheld).1.symm) hne
  | released reservation _ hheld =>
    exact absurd (congrArg some (BudgetRow.isHeldBy_iff.mp hheld).1.symm) hne
  | swept now olderThanSecs _ hstale => exact .inr ⟨now, olderThanSecs, rfl, hstale, rfl⟩
  | reconciled tenant id c _ _ result hof hrec =>
    exact absurd (congrArg some (BudgetRow.isOf_iff.mp hof).2.symm) hne

namespace BudgetRows

/-- A row of the reservation has the property. -/
def Has (rows : BudgetRows) (r : BudgetReservation) (P : BudgetRow → Prop) : Prop :=
  ∃ row ∈ rows, row.id = r.id ∧ row.tenant = r.tenant ∧ P row

theorem Has.imp {rows : BudgetRows} {r : BudgetReservation} {P Q : BudgetRow → Prop}
    (h : rows.Has r P) (himp : ∀ row, row.id = r.id → P row → Q row) : rows.Has r Q := by
  obtain ⟨row, hrow, hid, htenant, hP⟩ := h
  exact ⟨row, hrow, hid, htenant, himp row hid hP⟩

theorem Has.after {rows : BudgetRows} {r : BudgetReservation} {P Q : BudgetRow → Prop}
    (h : rows.Has r P) (call : BudgetCall)
    (hkeep : ∀ row ∈ rows, ∀ row', row.id = r.id → RowChange call row row' → P row → Q row') :
    (rows.after call).Has r Q := by
  obtain ⟨row, hrow, hid, htenant, hP⟩ := h
  obtain ⟨row', hrow', hchange⟩ := mem_after call hrow
  have hsame := hchange.sameReservation
  exact ⟨row', hrow', hsame.id.trans hid, hsame.tenant.trans htenant,
    hkeep row hrow row' hid hchange hP⟩

/-- A row at its estimate: held, or settled by a sweep. -/
def Untouched (swept : List String) (units : UInt64) (row : BudgetRow) : Prop :=
  row.units = units ∧ (row.state = .held ∨ row.state = .settled ∧ row.id ∈ swept)

/-- The ids are unique, and what was swept is not held. -/
structure Sound (rows : BudgetRows) (swept : List String) : Prop where
  ids : (rows.map (·.id)).Nodup
  swept : ∀ id ∈ swept, ∃ row ∈ rows, row.id = id ∧ row.state ≠ .held

variable {rows : BudgetRows} {swept : List String} {r : BudgetReservation} {units : UInt64}

theorem Has.of_mem {P : BudgetRow → Prop} (hids : (rows.map (·.id)).Nodup) (h : rows.Has r P)
    {row : BudgetRow} (hrow : row ∈ rows) (hid : row.id = r.id) : P row := by
  obtain ⟨found, hfound, hfid, -, hP⟩ := h
  rw [List.inj_on_of_nodup_map hids hrow hfound (hid.trans hfid.symm)]
  exact hP

theorem Sound.not_held (h : Sound rows swept) {row : BudgetRow} (hrow : row ∈ rows)
    (hswept : row.id ∈ swept) : row.state ≠ .held := by
  obtain ⟨other, hother, hid, hstate⟩ := h.swept _ hswept
  rw [← List.inj_on_of_nodup_map h.ids hother hrow hid]
  exact hstate

/-- A settlement with an amount reaches a row that no sweep has settled. -/
theorem Sound.settle (h : Sound rows swept) (huntouched : rows.Has r (Untouched swept units))
    (amount : UInt64) (usage : Option UsageEvidence) :
    (rows.settle r (some amount) usage).Has r fun row =>
      row.units = if r.id ∈ swept then units else amount := by
  obtain ⟨row, hrow, hid, htenant, hunits, hheld | ⟨hsettled, hswept⟩⟩ := huntouched
  · have hnot : r.id ∉ swept := by
      intro hswept
      exact h.not_held hrow (hid ▸ hswept) hheld
    have hby : row.isHeldBy r = true := BudgetRow.isHeldBy_iff.mpr ⟨hid, htenant, hheld⟩
    have hfind : rows.find? (·.isHeldBy r) = some row := by
      cases hfound : rows.find? (·.isHeldBy r) with
      | none => exact absurd hby (by simpa using List.find?_eq_none.mp hfound row hrow)
      | some found =>
        have hfid := (BudgetRow.isHeldBy_iff.mp (List.find?_some hfound)).1
        rw [List.inj_on_of_nodup_map h.ids (List.mem_of_find?_eq_some hfound) hrow
          (hfid.trans hid.symm)]
    refine ⟨_, List.mem_updateFirst hfind, hid, htenant, ?_⟩
    rw [if_neg hnot]
    rfl
  · obtain ⟨row', hrow', hchange⟩ := mem_after (.settle r (some amount) usage) hrow
    have hsame : row' = row := by
      cases hchange with
      | same => rfl
      | settled _ _ _ _ hheld =>
        exact absurd (BudgetRow.isHeldBy_iff.mp hheld).2.2 (by simp [hsettled])
    refine ⟨row', hrow', hsame ▸ hid, hsame ▸ htenant, ?_⟩
    rw [if_pos (hid ▸ hswept), hsame]
    exact hunits

end BudgetRows

namespace SpendState
open BudgetRows
variable {rows : BudgetRows} {swept : List String} {r : BudgetReservation} {units : UInt64}

theorem mem_sweptBy {now : ClockReading} {olderThanSecs : UInt64} {row : BudgetRow}
    (hrow : row ∈ rows) (hstale : isStale now olderThanSecs row = true) :
    row.id ∈ sweptBy rows (.sweepStale now olderThanSecs) :=
  List.mem_map_of_mem (List.mem_filter.mpr ⟨hrow, hstale⟩)

theorem untouched_after (h : rows.Has r (Untouched swept units)) {call : BudgetCall}
    (hne : call.target ≠ some r.id) :
    (rows.after call).Has r (Untouched (swept ++ sweptBy rows call) units) := by
  apply h.after
  intro row hrow row' hid hchange ⟨hunits, hstate⟩
  rcases hchange.apart (hid ▸ hne) with rfl | ⟨now, olderThanSecs, rfl, hstale, rfl⟩
  · refine ⟨hunits, hstate.imp_right ?_⟩
    rintro ⟨hsettled, hswept⟩
    exact ⟨hsettled, List.mem_append_left _ hswept⟩
  · have hmem := mem_sweptBy hrow hstale
    exact ⟨hunits, .inr ⟨rfl, List.mem_append_right _ hmem⟩⟩

theorem units_after (h : rows.Has r fun row => row.units = units) {call : BudgetCall}
    (hne : call.target ≠ some r.id) : (rows.after call).Has r fun row => row.units = units := by
  apply h.after
  intro row hrow row' hid hchange hunits
  rcases hchange.apart (hid ▸ hne) with rfl | ⟨now, olderThanSecs, rfl, hstale, rfl⟩
  · exact hunits
  · exact hunits

/-- Only a release of the reservation itself releases its row. -/
theorem live_after (h : rows.Has r fun row => row.state ≠ .released) {call : BudgetCall}
    (hne : ∀ q, call = .release q → r.id ≠ q.id) :
    (rows.after call).Has r fun row => row.state ≠ .released := by
  apply h.after
  intro row hrow row' hid hchange hlive
  cases hchange with
  | same => exact hlive
  | settled => simp [BudgetRow.settled]
  | released q _ hheld =>
    exact absurd (hid.symm.trans (BudgetRow.isHeldBy_iff.mp hheld).1) (hne q rfl)
  | swept => simp
  | reconciled tenant id c _ _ result hof hrec =>
    rcases BudgetRow.reconcile_eq_ok hrec with ⟨rfl, -⟩ | ⟨hcorrects, -⟩
    · exact hlive
    · rw [hcorrects.state]
      exact hlive

theorem sound_after {call : BudgetCall} (h : Sound rows swept) (hfresh : rows.Fresh call) :
    Sound (rows.after call) (swept ++ sweptBy rows call) := by
  refine ⟨ids_nodup_after hfresh h.ids, ?_⟩
  intro id hid
  rcases List.mem_append.mp hid with hold | hnew
  · obtain ⟨row, hrow, rfl, hstate⟩ := h.swept id hold
    obtain ⟨row', hrow', hchange⟩ := mem_after call hrow
    refine ⟨row', hrow', hchange.sameReservation.id, ?_⟩
    rcases hchange.state with hheld | hkept
    · exact absurd hheld hstate
    · rw [hkept]
      exact hstate
  · cases call with
    | sweepStale now olderThanSecs =>
      obtain ⟨row, hrow, rfl⟩ := List.mem_map.mp hnew
      obtain ⟨hmem, hstale⟩ := List.mem_filter.mp hrow
      refine ⟨{ row with state := .settled }, ?_, rfl, by simp⟩
      exact List.mem_map.mpr ⟨row, hmem, by simp [hstale]⟩
    | _ => exact absurd hnew List.not_mem_nil

end SpendState

end Munarium
