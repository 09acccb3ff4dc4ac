import Munarium.Budget.SpendRows
import Mathlib.Data.List.Perm.Subperm

/-! A guarded call against the rows: each reservation that it holds is at its estimate, each one
that covers a dispatched attempt is not released, and each finished attempt is at its due. -/
namespace Munarium

theorem forall_mem_snoc {α : Type} {P : α → Prop} {xs : List α} {x : α} (hold : ∀ y ∈ xs, P y)
    (hnew : P x) : ∀ y ∈ xs ++ [x], P y :=
  List.forall_mem_append.mpr ⟨hold, List.forall_mem_singleton.mpr hnew⟩

/-- The row was reserved for the request. -/
def GuardedRequest.Reserved (q : GuardedRequest) (r : BudgetReservation) (row : BudgetRow) :
    Prop :=
  row.tenant = q.tenant ∧ row.config = q.config ∧ row.tier = r.tier ∧ row.originalUnits = q.units

/-- The reservations that cover a dispatched attempt. -/
def Dispatch.covering (d : Dispatch) : List BudgetReservation := d.reservation :: d.tier.toList

/-- What a finished attempt stands at: the estimate where a sweep came first. -/
def Finish.due (f : Finish) (units : UInt64) : UInt64 :=
  if f.swept then units
  else match f.usage.evidence.accountedUnits units with
    | .ok accounted => accounted
    | .error _ => units

/-- The counts that the provider reported. -/
def MoneyUsage.reported (u : MoneyUsage) : ℕ := (u.input.getD 0).toNat + (u.output.getD 0).toNat

theorem Finish.due_retained (f : Finish) {units : UInt64} {row : BudgetRow}
    (hrow : row.units = f.due units) (h : f.swept = true ∨ 2 ^ 64 ≤ f.usage.reported) :
    row.units = units := by
  rw [hrow]
  unfold due
  split_ifs with hswept
  · rfl
  · cases hunits : f.usage.evidence.accountedUnits units with
    | error e => rfl
    | ok accounted =>
      have hle := UsageEvidence.reported_le hunits
      have hlt := accounted.toNat_lt
      rcases h with hyes | hover
      · exact absurd hyes hswept
      · exact absurd (hover.trans hle) (by omega)

theorem Finish.due_reported (f : Finish) {units : UInt64} {row : BudgetRow}
    (hrow : row.units = f.due units) (hswept : f.swept = false)
    (hlt : f.usage.reported < 2 ^ 64) : f.usage.reported ≤ row.units.toNat ∧
      (¬ f.usage.evidence.Complete → units ≤ row.units) := by
  rw [hrow]
  unfold due
  rw [hswept, if_neg (by decide)]
  cases hunits : f.usage.evidence.accountedUnits units with
  | error e => exact absurd (UsageEvidence.accountedUnits_eq_error hunits) (by exact hlt.not_ge)
  | ok accounted =>
    exact ⟨UsageEvidence.reported_le hunits, (UsageEvidence.accountedUnits_eq_ok hunits).2⟩

def WorkPoint.holding : WorkPoint → List BudgetReservation
  | .granted r => [r]
  | .refused r => [r]
  | .settling r _ _ => [r]
  | _ => []

/-- The reservations that the work may still release or settle. -/
def ObservedWork.holdings (w : ObservedWork) : List BudgetReservation :=
  w.tier.toList ++ (w.point.holding ++ w.reservations.map Prod.snd)

def CallPhase.holdings : CallPhase → List BudgetReservation
  | .working w => w.holdings
  | .closing tier _ _ => tier.toList
  | _ => []

section Phase
variable (units : UInt64) (dispatched : List Dispatch)

/-- Nothing was dispatched under the reservation. -/
def Unsent (r : BudgetReservation) : Prop := ∀ d ∈ dispatched, d.reservation.id ≠ r.id

def WorkPoint.Sound (w : ObservedWork) : WorkPoint → Prop
  | .ready => True
  | .granted r => Unsent dispatched r
  | .refused r => Unsent dispatched r
  | .admitted attempt r => (attempt, r) ∈ w.reservations ∧ Unsent dispatched r ∧ w.admitted = true
  | .settling r usage accounted => r ∈ dispatched.map (·.reservation) ∧
      usage.evidence.accountedUnits units = .ok accounted

/-- The work against what its call has dispatched. -/
structure ObservedWork.Sound (w : ObservedWork) : Prop where
  tier : ∀ d ∈ dispatched, d.tier = w.tier
  admitted : w.admitted = false → dispatched = []
  scope : ∀ r ∈ w.point.holding ++ w.reservations.map Prod.snd, r.tier = "all"
  sent : ∀ e ∈ w.reservations, e.2 ∈ dispatched.map (·.reservation) ∨ w.point = .admitted e.1 e.2
  point : w.point.Sound units dispatched w

theorem ObservedWork.Sound.at_point {units : UInt64} {dispatched : List Dispatch}
    {w : ObservedWork} {point : WorkPoint} (h : w.Sound units dispatched)
    (hpoint : w.point = point) : point.Sound units dispatched w :=
  hpoint ▸ h.point

theorem ObservedWork.Sound.all_sent {units : UInt64} {dispatched : List Dispatch}
    {w : ObservedWork} (h : w.Sound units dispatched)
    (hpoint : ∀ attempt r, w.point ≠ .admitted attempt r) :
    ∀ e ∈ w.reservations, e.2 ∈ dispatched.map (·.reservation) := by
  intro e he
  rcases h.sent e he with hsent | hadmitted
  · exact hsent
  · exact absurd hadmitted (hpoint _ _)

def CallPhase.Sound : CallPhase → Prop
  | .arrived => dispatched = []
  | .working w => w.Sound units dispatched
  | .closing _ admitted _ => admitted = false → dispatched = []
  | .over => True

end Phase

/-- A call against the rows: whose reservation is at which amount. -/
structure GuardedCall.Sound (rows : BudgetRows) (swept : List String) (c : GuardedCall) :
    Prop where
  backed : ∀ r ∈ c.granted, rows.Has r (c.request.Reserved r)
  held : c.phase.holdings ⊆ c.granted
  apart : (c.phase.holdings.map (·.id)).Nodup
  untouched : ∀ r ∈ c.phase.holdings, rows.Has r (BudgetRows.Untouched swept c.request.units)
  covered : ∀ d ∈ c.dispatched, d.covering ⊆ c.granted
  scope : ∀ d ∈ c.dispatched, d.reservation.tier = "all"
  live : ∀ d ∈ c.dispatched, ∀ r ∈ d.covering, rows.Has r fun row => row.state ≠ .released
  once : (c.dispatched.map (·.reservation.id)).Nodup
  sent : ∀ f ∈ c.finished, f.reservation ∈ c.dispatched.map (·.reservation)
  settled : ∀ f ∈ c.finished, ∀ r ∈ c.phase.holdings, r.id ≠ f.reservation.id
  due : ∀ f ∈ c.finished, rows.Has f.reservation fun row => row.units = f.due c.request.units
  phase : c.phase.Sound c.request.units c.dispatched

namespace GuardedCall
open BudgetRows SpendState
variable {rows : BudgetRows} {swept : List String} {c : GuardedCall} {r : BudgetReservation}
  {p : CallPhase} {w : ObservedWork}

@[simp] theorem request_enter (c : GuardedCall) (p : CallPhase) :
    (c.enter p).request = c.request :=
  rfl

theorem start_sound (rows : BudgetRows) (swept : List String) (q : GuardedRequest) :
    (start q).Sound rows swept := by
  constructor <;> simp [start, CallPhase.holdings, CallPhase.Sound]

/-- A phase that holds no more. -/
theorem Sound.enter (h : c.Sound rows swept) (hsub : p.holdings.Subperm c.phase.holdings)
    (hphase : p.Sound c.request.units c.dispatched) : (c.enter p).Sound rows swept where
  backed := h.backed
  held := List.Subset.trans hsub.subset h.held
  apart := by
    obtain ⟨kept, hperm, hkept⟩ := hsub
    exact (hperm.map _).nodup_iff.mp (h.apart.sublist (hkept.map _))
  untouched r hr := h.untouched r (hsub.subset hr)
  covered := h.covered
  scope := h.scope
  live := h.live
  once := h.once
  sent := h.sent
  settled f hf r hr := h.settled f hf r (hsub.subset hr)
  due := h.due
  phase := hphase

/-- A store call about nothing that the call still holds or has finished. -/
theorem Sound.store (h : c.Sound rows swept) {call : BudgetCall}
    (hholds : ∀ r ∈ c.phase.holdings, call.target ≠ some r.id)
    (hfinished : ∀ f ∈ c.finished, call.target ≠ some f.reservation.id)
    (hrelease : ∀ q, call = .release q → ∀ d ∈ c.dispatched, ∀ r ∈ d.covering, r.id ≠ q.id) :
    c.Sound (rows.after call) (swept ++ sweptBy rows call) where
  backed r hr := by
    apply (h.backed r hr).after
    intro row _ row' _ hchange ⟨htenant, hconfig, htier, hunits⟩
    have hsame := hchange.sameReservation
    exact ⟨hsame.tenant.trans htenant, hsame.config.trans hconfig, hsame.tier.trans htier,
      hsame.originalUnits.trans hunits⟩
  held := h.held
  apart := h.apart
  untouched r hr := untouched_after (h.untouched r hr) (hholds r hr)
  covered := h.covered
  scope := h.scope
  live d hd r hr := live_after (h.live d hd r hr) fun q hq => hrelease q hq d hd r hr
  once := h.once
  sent := h.sent
  settled := h.settled
  due f hf := units_after (h.due f hf) (hfinished f hf)
  phase := h.phase

/-- A new reservation, held by the phase that it leads to. -/
theorem Sound.grant (h : c.Sound rows swept) (hfresh : ∀ q ∈ c.granted, q.id ≠ r.id)
    (hreserved : rows.Has r (c.request.Reserved r))
    (huntouched : rows.Has r (Untouched swept c.request.units))
    (hsub : p.holdings.Subperm (r :: c.phase.holdings))
    (hphase : p.Sound c.request.units c.dispatched) : ((c.grant r).enter p).Sound rows swept where
  backed := forall_mem_snoc h.backed hreserved
  held q hq := by
    rcases List.mem_cons.mp (hsub.subset hq) with rfl | hold
    · exact List.mem_append_right _ List.mem_cons_self
    · exact List.mem_append_left _ (h.held hold)
  apart := by
    obtain ⟨kept, hperm, hkept⟩ := hsub
    apply (hperm.map _).nodup_iff.mp
    apply List.Nodup.sublist (hkept.map _)
    rw [List.map_cons, List.nodup_cons]
    refine ⟨?_, h.apart⟩
    intro hmem
    obtain ⟨q, hq, hid⟩ := List.mem_map.mp hmem
    exact hfresh q (h.held hq) hid
  untouched q hq := by
    rcases List.mem_cons.mp (hsub.subset hq) with rfl | hold
    · exact huntouched
    · exact h.untouched q hold
  covered d hd := List.subset_append_of_subset_left _ (h.covered d hd)
  scope := h.scope
  live := h.live
  once := h.once
  sent := h.sent
  settled f hf q hq := by
    rcases List.mem_cons.mp (hsub.subset hq) with rfl | hold
    · obtain ⟨d, hd, hsent⟩ := List.mem_map.mp (h.sent f hf)
      rw [← hsent]
      exact (hfresh _ (h.covered d hd List.mem_cons_self)).symm
    · exact h.settled f hf q hold
  due := h.due
  phase := hphase

/-- An attempt that is done, whose reservation is held no more. -/
theorem Sound.record (h : c.Sound rows swept) {before : List String} {usage : MoneyUsage}
    (hsent : r ∈ c.dispatched.map (·.reservation)) (hheld : ∀ q ∈ c.phase.holdings, q.id ≠ r.id)
    (hdue : rows.Has r fun row =>
      row.units = Finish.due ⟨r, usage, before.contains r.id⟩ c.request.units) :
    (c.record before r usage).Sound rows swept where
  backed := h.backed
  held := h.held
  apart := h.apart
  untouched := h.untouched
  covered := h.covered
  scope := h.scope
  live := h.live
  once := h.once
  sent := forall_mem_snoc h.sent hsent
  settled := forall_mem_snoc h.settled hheld
  due := forall_mem_snoc h.due hdue
  phase := h.phase

/-- A phase that holds one reservation less. -/
theorem Sound.giveUp (h : c.Sound rows swept)
    (hsub : (r :: p.holdings).Subperm c.phase.holdings)
    (hphase : p.Sound c.request.units c.dispatched) :
    (c.enter p).Sound rows swept ∧ ∀ q ∈ p.holdings, q.id ≠ r.id := by
  refine ⟨h.enter (.trans .cons_self hsub) hphase, ?_⟩
  obtain ⟨kept, hperm, hkept⟩ := hsub
  have hnodup := (hperm.map (·.id)).nodup_iff.mp (h.apart.sublist (hkept.map _))
  rw [List.map_cons, List.nodup_cons] at hnodup
  intro q hq hid
  exact hnodup.1 (List.mem_map.mpr ⟨q, hq, hid⟩)

/-- What an act leaves: the call, sound against the rows after it, whose new reservations have
new ids, and a store call about a reservation of its own. -/
structure Moved (s : SpendState) (c : GuardedCall) (q : Option BudgetCall × GuardedCall) :
    Prop where
  sound : q.2.Sound (s.stored q.1).rows (s.stored q.1).swept
  granted : ∀ r ∈ q.2.granted, r ∈ c.granted ∨ ∀ row ∈ s.rows, row.id ≠ r.id
  target : ∀ call, q.1 = some call → ∀ id, call.target = some id → ∃ r ∈ c.granted, r.id = id
  fresh : ∀ call, q.1 = some call → s.rows.Fresh call

section Acts
variable {s : SpendState} {fault : StoreFault}

/-- An act without a store call. -/
theorem Moved.quiet {c' : GuardedCall} (h : c'.Sound s.rows s.swept)
    (hgranted : c'.granted = c.granted) : Moved s c (none, c') where
  sound := h
  granted _ hr := .inl (hgranted ▸ hr)
  target _ hcall := nomatch hcall
  fresh _ hcall := nomatch hcall

theorem Moved.called {call : BudgetCall} {c' : GuardedCall}
    (h : c'.Sound (s.store call).rows (s.store call).swept)
    (hgranted : ∀ r ∈ c'.granted, r ∈ c.granted ∨ ∀ row ∈ s.rows, row.id ≠ r.id)
    (htarget : ∀ id, call.target = some id → ∃ r ∈ c.granted, r.id = id)
    (hfresh : s.rows.Fresh call) : Moved s c (some call, c') where
  sound := h
  granted := hgranted
  target _ hcall := Option.some.inj hcall ▸ htarget
  fresh _ hcall := Option.some.inj hcall ▸ hfresh

theorem effective_cases (fault : StoreFault) (call : BudgetCall) :
    effective fault call = none ∨ effective fault call = some call := by
  cases fault with
  | failed => exact .inl rfl
  | works => exact .inr rfl
  | unanswered => exact .inr rfl

/-- A settlement or release of a reservation that the phase holds no more. -/
theorem Sound.settles (h : c.Sound s.rows s.swept) {call : BudgetCall}
    (hsub : (r :: p.holdings).Subperm c.phase.holdings)
    (hphase : p.Sound c.request.units c.dispatched) (htarget : call.target = some r.id)
    (hrelease : ∀ q, call = .release q →
      ∀ d ∈ c.dispatched, ∀ t ∈ d.covering, t.id ≠ r.id) :
    (c.enter p).Sound (s.store call).rows (s.store call).swept := by
  obtain ⟨hsound, hheld⟩ := h.giveUp hsub hphase
  apply hsound.store
  · intro q hq hid
    exact hheld q hq (Option.some.inj (hid.symm.trans htarget))
  · intro f hf hid
    exact h.settled f hf r (hsub.subset List.mem_cons_self)
      (Option.some.inj (htarget.symm.trans hid))
  · rintro q rfl d hd t ht hid
    exact hrelease q rfl d hd t ht (hid.trans (Option.some.inj htarget))

theorem Moved.settles (h : c.Sound s.rows s.swept) {call : BudgetCall}
    (hsub : (r :: p.holdings).Subperm c.phase.holdings)
    (hphase : p.Sound c.request.units c.dispatched) (htarget : call.target = some r.id)
    (hrelease : ∀ q, call = .release q →
      ∀ d ∈ c.dispatched, ∀ t ∈ d.covering, t.id ≠ r.id) :
    Moved s c (effective fault call, c.enter p) := by
  have hgranted : r ∈ c.granted := h.held (hsub.subset List.mem_cons_self)
  rcases effective_cases fault call with heq | heq
  · rw [heq]
    exact .quiet (h.giveUp hsub hphase).1 rfl
  · rw [heq]
    apply Moved.called (h.settles hsub hphase htarget hrelease)
    · intro q hq
      exact .inl hq
    · intro id hid
      exact ⟨r, hgranted, Option.some.inj (htarget.symm.trans hid)⟩
    · cases call with
      | reserve => cases htarget
      | _ => trivial

/-- A reservation that the store is asked for. -/
abbrev reserveCall (q : GuardedRequest) (tier : String) (now : ClockReading) (drawn : String)
    (revision : Option String) (limit : Option UInt64) : BudgetCall :=
  .reserve now drawn (q.scope tier) q.units revision limit

variable {tier drawn : String} {now : ClockReading} {revision : Option String}
  {limit : Option UInt64}

theorem granted_of_outcomeOf (swept : List String)
    (h : outcomeOf rows fault (reserveCall c.request tier now drawn revision limit) =
      some (.granted r)) :
    fault = .works ∧ r.id = drawn ∧ r.tier = tier ∧
      (rows.after (reserveCall c.request tier now drawn revision limit)).Has r
        (c.request.Reserved r) ∧
      (rows.after (reserveCall c.request tier now drawn revision limit)).Has r
        (Untouched swept c.request.units) := by
  cases hres : rows.reserve now drawn (c.request.scope tier) c.request.units revision limit with
  | error e => simp [outcomeOf, hres] at h
  | ok q =>
    obtain ⟨rows', outcome⟩ := q
    cases fault with
    | failed => simp [outcomeOf] at h
    | unanswered => simp [outcomeOf] at h
    | works =>
      simp only [outcomeOf, hres, Option.some.injEq] at h
      subst h
      obtain ⟨ceiling, new, -, rfl, rfl, hid, hstate, hunits, horiginal, -, hcounts, -⟩ :=
        reserve_granted hres
      simp only [BudgetRow.countsFor, decide_eq_true_eq] at hcounts
      obtain ⟨htenant, hconfig, htier, -⟩ := hcounts
      have hafter : rows.after (reserveCall c.request tier now drawn revision limit) =
          rows ++ [new] := by
        simp [after, hres, rowsOr]
      have hmem : new ∈ rows ++ [new] := List.mem_append_right _ List.mem_cons_self
      rw [hafter]
      exact ⟨rfl, rfl, rfl, ⟨new, hmem, hid, htenant, htenant, hconfig, htier, horiginal⟩,
        ⟨new, hmem, hid, htenant, hunits, .inl hstate⟩⟩

theorem Sound.afterReserve (h : c.Sound rows swept) :
    c.Sound (rows.after (reserveCall c.request tier now drawn revision limit)) (swept ++ []) := by
  apply h.store
  · intro q _ hid
    cases hid
  · intro f _ hid
    cases hid
  · intro q hq
    cases hq

theorem Sound.reserves (h : c.Sound s.rows s.swept) :
    c.Sound (s.stored (effective fault (reserveCall c.request tier now drawn revision limit))).rows
      (s.stored (effective fault (reserveCall c.request tier now drawn revision limit))).swept := by
  rcases effective_cases fault (reserveCall c.request tier now drawn revision limit) with heq | heq
  · rw [heq]
    exact h
  · rw [heq]
    exact h.afterReserve

/-- A reservation that the call does not learn of, or was not granted. -/
theorem Moved.reserves {c' : GuardedCall} (hdrawn : ∀ row ∈ s.rows, row.id ≠ drawn)
    (hsound : c'.Sound
      (s.stored (effective fault (reserveCall c.request tier now drawn revision limit))).rows
      (s.stored (effective fault (reserveCall c.request tier now drawn revision limit))).swept)
    (hgranted : ∀ r ∈ c'.granted, r ∈ c.granted ∨ ∀ row ∈ s.rows, row.id ≠ r.id) :
    Moved s c (effective fault (reserveCall c.request tier now drawn revision limit), c') := by
  rcases effective_cases fault (reserveCall c.request tier now drawn revision limit) with heq | heq
  · rw [heq] at hsound ⊢
    exact ⟨hsound, hgranted, nofun, nofun⟩
  · rw [heq] at hsound ⊢
    exact .called hsound hgranted nofun hdrawn

/-- A granted reservation, held by the phase that it leads to. -/
theorem Moved.grants (h : c.Sound s.rows s.swept) (hdrawn : ∀ row ∈ s.rows, row.id ≠ drawn)
    (hout : outcomeOf s.rows fault (reserveCall c.request tier now drawn revision limit) =
      some (.granted r))
    (hsub : p.holdings.Subperm (r :: c.phase.holdings))
    (hphase : p.Sound c.request.units c.dispatched) :
    Moved s c (effective fault (reserveCall c.request tier now drawn revision limit),
      (c.grant r).enter p) := by
  obtain ⟨rfl, hid, -, hreserved, huntouched⟩ :=
    granted_of_outcomeOf (s.swept ++ []) hout
  apply Moved.reserves hdrawn
  · apply h.afterReserve.grant _ hreserved huntouched hsub hphase
    intro q hq hqid
    obtain ⟨row, hrow, hrid, -⟩ := h.backed q hq
    exact hdrawn row hrow (hrid.trans (hqid.trans hid))
  · have hnew : r ∈ c.granted ∨ ∀ row ∈ s.rows, row.id ≠ r.id := by
      rw [hid]
      exact .inr hdrawn
    exact forall_mem_snoc (fun q hq => .inl hq) hnew

theorem Sound.work (h : c.Sound rows swept) (hphase : c.phase = .working w) :
    w.Sound c.request.units c.dispatched := by
  have hsound := h.phase
  rwa [hphase] at hsound

theorem observed_sound {units : UInt64} (t : Option BudgetReservation) :
    (observed t).Sound units [] := by
  constructor <;> simp [WorkPoint.holding, WorkPoint.Sound]

theorem reserveTier_moved (h : c.Sound s.rows s.swept) (hphase : c.phase = .arrived)
    (hdrawn : ∀ row ∈ s.rows, row.id ≠ drawn) :
    Moved s c (c.reserveTier s.rows now drawn fault) := by
  have hstarted : CallPhase.Sound c.request.units c.dispatched .arrived := hphase ▸ h.phase
  have hobserved (t : Option BudgetReservation) :
      (observed t).Sound c.request.units c.dispatched := by
    rw [show c.dispatched = [] from hstarted]
    exact observed_sound t
  unfold reserveTier
  cases htier : c.request.tier with
  | none => exact .quiet (h.enter List.nil_subperm (hobserved none)) rfl
  | some t =>
    simp only
    cases hout : outcomeOf s.rows fault (tierCall c.request t now drawn) with
    | none => exact .reserves hdrawn (h.reserves.enter List.nil_subperm trivial) fun q hq => .inl hq
    | some outcome =>
      cases outcome with
      | unlimited =>
        exact .reserves hdrawn (h.reserves.enter List.nil_subperm (hobserved none))
          fun q hq => .inl hq
      | granted r =>
        apply Moved.grants h hdrawn hout _ (hobserved (some r))
        exact (List.singleton_sublist.mpr List.mem_cons_self).subperm
      | exhausted requested remaining limit =>
        exact .reserves hdrawn (h.reserves.enter List.nil_subperm trivial) fun q hq => .inl hq

theorem beginAttempt_moved (h : c.Sound s.rows s.swept) (hphase : c.phase = .working w)
    (hpoint : w.point = .ready) (hdrawn : ∀ row ∈ s.rows, row.id ≠ drawn) :
    Moved s c (c.beginAttempt s.rows w now drawn fault) := by
  have hwork := h.work hphase
  have hkept : Moved s c (effective fault (attemptCall c.request now drawn), c) :=
    .reserves hdrawn h.reserves fun q hq => .inl hq
  unfold beginAttempt
  simp only
  cases hout : outcomeOf s.rows fault (attemptCall c.request now drawn) with
  | none => exact hkept
  | some outcome =>
    cases outcome with
    | unlimited => exact hkept
    | exhausted requested remaining limit => exact hkept
    | granted r =>
      obtain ⟨-, hid, htier, -⟩ := granted_of_outcomeOf s.swept hout
      apply Moved.grants h hdrawn hout
      · rw [hphase]
        simp only [CallPhase.holdings, ObservedWork.holdings, WorkPoint.holding, hpoint,
          List.nil_append]
        exact List.perm_middle.subperm
      · refine ⟨hwork.tier, hwork.admitted, ?_, ?_, ?_⟩
        · intro q hq
          rcases List.mem_append.mp hq with hnew | hold
          · obtain rfl := List.mem_singleton.mp hnew
            exact htier
          · exact hwork.scope q (List.mem_append_right _ hold)
        · intro e he
          exact .inl (hwork.all_sent (by simp [hpoint]) e he)
        · intro d hd hsame
          obtain ⟨row, hrow, hrid, -⟩ := h.backed _ (h.covered d hd List.mem_cons_self)
          exact hdrawn row hrow (hrid.trans (hsame.trans hid))

theorem moneyBegin_sound (h : c.Sound rows swept) (hphase : c.phase = .working w)
    (hpoint : w.point = .granted r) (attempt : Option String) :
    (c.moneyBegin w r attempt).Sound rows swept := by
  have hwork := h.work hphase
  have hunsent : Unsent c.dispatched r := hwork.at_point hpoint
  have hsent := hwork.all_sent (by simp [hpoint])
  have hscope := hwork.scope
  rw [hpoint] at hscope
  cases attempt with
  | none =>
    apply h.enter
    · rw [hphase]
      simp only [CallPhase.holdings, ObservedWork.holdings, WorkPoint.holding, hpoint]
      exact .refl _
    · exact ⟨hwork.tier, hwork.admitted, hscope, fun e he => .inl (hsent e he), hunsent⟩
  | some attempt =>
    have hsub : ((w.reservations.filter (·.1 != attempt)).map Prod.snd).Sublist
        (w.reservations.map Prod.snd) := List.filter_sublist.map _
    apply h.enter
    · rw [hphase]
      simp only [CallPhase.holdings, ObservedWork.holdings, WorkPoint.holding, hpoint]
      exact ((hsub.cons_cons r).append_left _).subperm
    · refine ⟨hwork.tier, nofun, ?_, ?_, List.mem_cons_self, hunsent, rfl⟩
      · intro q hq
        exact hscope q ((hsub.cons_cons r).subset hq)
      · intro e he
        rcases List.mem_cons.mp he with rfl | hold
        · exact .inr rfl
        · exact .inl (hsent e (List.mem_of_mem_filter hold))

theorem dispatched_dispatch (c : GuardedCall) (w : ObservedWork) (attempt : String)
    (r : BudgetReservation) :
    (c.dispatch w attempt r).dispatched = c.dispatched ++ [⟨attempt, r, w.tier⟩] :=
  rfl

theorem dispatch_sound {attempt : String} (h : c.Sound rows swept) (hphase : c.phase = .working w)
    (hpoint : w.point = .admitted attempt r) : (c.dispatch w attempt r).Sound rows swept := by
  have hwork := h.work hphase
  obtain ⟨hmem, hunsent, hadmitted⟩ := hwork.at_point hpoint
  have hheld : c.phase.holdings = w.tier.toList ++ ([] ++ w.reservations.map Prod.snd) := by
    rw [hphase]
    simp only [CallPhase.holdings, ObservedWork.holdings, hpoint, WorkPoint.holding]
  have hr : r ∈ c.phase.holdings := by
    rw [hheld]
    exact List.mem_append_right _ (List.mem_map.mpr ⟨_, hmem, rfl⟩)
  have hcovering : r :: w.tier.toList ⊆ c.phase.holdings := by
    intro q hq
    rcases List.mem_cons.mp hq with rfl | htier
    · exact hr
    · rw [hheld]
      exact List.mem_append_left _ htier
  have hscope : r.tier = "all" :=
    hwork.scope r (List.mem_append_right _ (List.mem_map.mpr ⟨_, hmem, rfl⟩))
  constructor
  case backed => exact h.backed
  case held =>
    apply List.Subset.trans _ h.held
    rw [hheld]
    exact List.Subset.refl _
  case apart =>
    have hapart := h.apart
    rw [hheld] at hapart
    exact hapart
  case untouched =>
    have huntouched := h.untouched
    rw [hheld] at huntouched
    exact huntouched
  case covered => exact forall_mem_snoc h.covered (List.Subset.trans hcovering h.held)
  case scope => exact forall_mem_snoc h.scope hscope
  case live =>
    apply forall_mem_snoc h.live
    intro q hq
    apply (h.untouched q (hcovering hq)).imp
    rintro row - ⟨-, hstate | ⟨hstate, -⟩⟩ <;> simp [hstate]
  case once =>
    rw [dispatched_dispatch, List.map_append]
    apply List.Nodup.append h.once (List.nodup_singleton _)
    rw [List.disjoint_singleton]
    intro hin
    obtain ⟨d, hd, hid⟩ := List.mem_map.mp hin
    exact hunsent d hd hid
  case sent =>
    intro f hf
    rw [dispatched_dispatch, List.map_append]
    exact List.mem_append_left _ (h.sent f hf)
  case settled =>
    have hsettled := h.settled
    rw [hheld] at hsettled
    exact hsettled
  case due => exact h.due
  case phase =>
    refine ⟨forall_mem_snoc hwork.tier rfl, ?_, ?_, ?_, trivial⟩
    · intro hnot
      exact absurd (hadmitted.symm.trans hnot) (by decide)
    · intro q hq
      exact hwork.scope q (List.mem_append_right _ hq)
    · intro e he
      rw [dispatched_dispatch, List.map_append]
      rcases hwork.sent e he with hsent | hpending
      · exact .inl (List.mem_append_left _ hsent)
      · rw [hpoint] at hpending
        cases hpending
        exact .inl (List.mem_append_right _ List.mem_cons_self)

/-- An entry of the map, and what is left of the map without it. -/
theorem lookup_subperm {attempt : String} {entries : List (String × BudgetReservation)}
    (h : entries.lookup attempt = some r) :
    (r :: (entries.filter (·.1 != attempt)).map Prod.snd).Subperm (entries.map Prod.snd) := by
  obtain ⟨before, rest, rfl, -⟩ := List.lookup_eq_some_iff.mp h
  rw [List.map_append, List.map_cons, List.perm_middle.subperm_left, List.subperm_cons,
    ← List.map_append, List.filter_append, List.filter_cons_of_neg (by simp), ← List.filter_append]
  exact (List.filter_sublist.map _).subperm

theorem finish_sound (h : c.Sound rows swept) (hphase : c.phase = .working w)
    (hpoint : w.point = .ready) (usage : MoneyUsage) :
    (c.finish swept w usage).Sound rows swept := by
  have hwork := h.work hphase
  have hsent := hwork.all_sent (by simp [hpoint])
  have hscope := hwork.scope
  rw [hpoint] at hscope
  unfold finish
  cases hcurrent : w.current with
  | none => exact h
  | some attempt =>
    simp only
    cases hlookup : w.reservations.lookup attempt with
    | none =>
      apply h.enter
      · rw [hphase]
        exact .refl _
      · refine ⟨hwork.tier, hwork.admitted, hwork.scope, hwork.sent, ?_⟩
        simp [hpoint, WorkPoint.Sound]
    | some r =>
      have hsub := lookup_subperm hlookup
      have hr : r ∈ c.dispatched.map (·.reservation) := by
        obtain ⟨before, rest, heq, -⟩ := List.lookup_eq_some_iff.mp hlookup
        exact hsent (attempt, r) (heq ▸ List.mem_append_right _ List.mem_cons_self)
      have hrest : ∀ e ∈ w.reservations.filter (·.1 != attempt),
          e.2 ∈ c.dispatched.map (·.reservation) := by
        intro e he
        exact hsent e (List.mem_of_mem_filter he)
      have hholdings : c.phase.holdings =
          w.tier.toList ++ ([] ++ w.reservations.map Prod.snd) := by
        rw [hphase]
        simp only [CallPhase.holdings, ObservedWork.holdings, WorkPoint.holding, hpoint]
      cases hunits : usage.evidence.accountedUnits c.request.units with
      | ok units =>
        apply h.enter
        · rw [hholdings]
          exact (List.subperm_append_left _).mpr hsub
        · refine ⟨hwork.tier, hwork.admitted, ?_, fun e he => .inl (hrest e he), hr, hunits⟩
          intro q hq
          exact hscope q (hsub.subset hq)
      | error e =>
        let p : CallPhase := .working { w with
          current := none
          reservations := w.reservations.filter (·.1 != attempt) }
        have hleft : (r :: p.holdings).Subperm c.phase.holdings := by
          rw [hholdings]
          simp only [p, CallPhase.holdings, ObservedWork.holdings, WorkPoint.holding, hpoint,
            List.nil_append]
          apply List.Subperm.trans List.perm_middle.symm.subperm
          exact (List.subperm_append_left _).mpr hsub
        have hp : p.Sound c.request.units c.dispatched := by
          refine ⟨hwork.tier, hwork.admitted, ?_, fun e he => .inl (hrest e he), ?_⟩
          · intro q hq
            simp only [WorkPoint.holding, hpoint, List.nil_append] at hq
            exact hscope q (hsub.subset (List.mem_cons_of_mem _ hq))
          · simp [hpoint, WorkPoint.Sound]
        obtain ⟨hsound, hheld⟩ := h.giveUp hleft hp
        apply hsound.record hr hheld
        apply (h.untouched r (hleft.subset List.mem_cons_self)).imp
        rintro row - ⟨hrow, -⟩
        simp [Finish.due, hunits, hrow]

/-- A reservation that leaves its point. -/
theorem Sound.leave (h : c.Sound rows swept) (hphase : c.phase = .working w)
    (hholding : w.point.holding = [r]) :
    (r :: (CallPhase.working { w with point := .ready }).holdings).Subperm c.phase.holdings ∧
      (CallPhase.working { w with point := .ready }).Sound c.request.units c.dispatched := by
  have hwork := h.work hphase
  have hscope := hwork.scope
  rw [hholding] at hscope
  constructor
  · rw [hphase]
    simp only [CallPhase.holdings, ObservedWork.holdings, hholding]
    exact List.perm_middle.symm.subperm
  · refine ⟨hwork.tier, hwork.admitted, ?_, ?_, trivial⟩
    · intro q hq
      exact hscope q (List.mem_append_right _ hq)
    · intro e he
      apply Or.inl (hwork.all_sent _ e he)
      intro attempt q hpoint
      simp [hpoint, WorkPoint.holding] at hholding

theorem granted_finish (c : GuardedCall) (w : ObservedWork) (swept : List String)
    (usage : MoneyUsage) : (c.finish swept w usage).granted = c.granted := by
  fun_cases finish swept c w usage <;> rfl

theorem settleAttempt_moved {usage : MoneyUsage} {units : UInt64} (h : c.Sound s.rows s.swept)
    (hrows : s.rows.Sound s.swept) (hphase : c.phase = .working w)
    (hpoint : w.point = .settling r usage units) :
    Moved s c (c.settleAttempt s.swept w r usage units fault) := by
  have hwork := h.work hphase
  obtain ⟨hsent, hunits⟩ := hwork.at_point hpoint
  obtain ⟨hleft, hp⟩ := h.leave hphase (show w.point.holding = [r] by rw [hpoint]; rfl)
  have hsettles (fault : StoreFault) : Moved s c
      (effective fault (.settle r (some units) (some usage.evidence)),
        c.enter (.working { w with point := .ready })) :=
    .settles h hleft hp rfl nofun
  cases fault with
  | failed => exact hsettles .failed
  | unanswered => exact hsettles .unanswered
  | works =>
    have hmoved := hsettles .works
    obtain ⟨-, hheld⟩ := h.giveUp hleft hp
    refine ⟨?_, hmoved.granted, hmoved.target, hmoved.fresh⟩
    apply hmoved.sound.record hsent hheld
    apply (hrows.settle (h.untouched r (hleft.subset List.mem_cons_self)) units _).imp
    rintro row - hrow
    rw [hrow]
    simp [Finish.due, hunits]

theorem close_moved {t : Option BudgetReservation} {admitted : Bool}
    {result : Option UsageEvidence} (h : c.Sound s.rows s.swept)
    (hphase : c.phase = .closing t admitted result) :
    Moved s c (c.close t admitted result fault) := by
  have hclosing : admitted = false → c.dispatched = [] := by
    have hsound := h.phase
    rwa [hphase] at hsound
  unfold close
  cases t with
  | none => exact .quiet (h.enter List.nil_subperm trivial) rfl
  | some r =>
    have hleft : (r :: CallPhase.over.holdings).Subperm c.phase.holdings := by
      rw [hphase]
      exact .refl _
    cases admitted with
    | true => exact .settles h hleft trivial rfl nofun
    | false =>
      apply Moved.settles h hleft trivial rfl
      intro q _ d hd
      rw [hclosing rfl] at hd
      cases hd

theorem releaseAttempt_moved (h : c.Sound s.rows s.swept) (hphase : c.phase = .working w)
    (hpoint : w.point = .refused r) :
    Moved s c (effective fault (.release r), c.enter (.working { w with point := .ready })) := by
  have hwork := h.work hphase
  have hunsent : Unsent c.dispatched r := hwork.at_point hpoint
  obtain ⟨hleft, hp⟩ := h.leave hphase (show w.point.holding = [r] by rw [hpoint]; rfl)
  obtain ⟨-, hheld⟩ := h.giveUp hleft hp
  apply Moved.settles h hleft hp rfl
  intro q _ d hd t ht
  rcases List.mem_cons.mp ht with rfl | htier
  · exact hunsent d hd
  · rw [hwork.tier d hd] at htier
    exact hheld t (List.mem_append_left _ htier)

theorem endWork_sound (h : c.Sound rows swept) (hphase : c.phase = .working w)
    (result : Option UsageEvidence) :
    (c.enter (.closing w.tier w.admitted result)).Sound rows swept := by
  apply h.enter
  · rw [hphase]
    exact (List.sublist_append_left _ _).subperm
  · exact (h.work hphase).admitted

/-- Every act of a sound call. -/
theorem act_moved (h : c.Sound s.rows s.swept) (hrows : s.rows.Sound s.swept) {i : ℕ}
    {e : CallEvent} (hdrawn : DrawsNew s (.call i e)) : Moved s c (c.act s.rows s.swept e) := by
  fun_cases act s.rows s.swept c e with
  | case1 now drawn fault hphase => exact reserveTier_moved h hphase hdrawn
  | case2 => exact .quiet h rfl
  | case3 => exact .quiet (h.enter List.nil_subperm trivial) rfl
  | case4 fault t admitted result hphase => exact close_moved h hphase
  | case5 => exact .quiet h rfl
  | case6 w hphase now drawn fault hpoint => exact beginAttempt_moved h hphase hpoint hdrawn
  | case7 w hphase attempt r hpoint =>
    exact .quiet (moneyBegin_sound h hphase hpoint attempt) (by cases attempt <;> rfl)
  | case8 w hphase fault r hpoint => exact releaseAttempt_moved h hphase hpoint
  | case9 w hphase attempt r hpoint => exact .quiet (dispatch_sound h hphase hpoint) rfl
  | case10 w hphase usage hpoint =>
    exact .quiet (finish_sound h hphase hpoint usage) (granted_finish c w s.swept usage)
  | case11 w hphase fault r usage units hpoint => exact settleAttempt_moved h hrows hphase hpoint
  | case12 w hphase result hpoint => exact .quiet (endWork_sound h hphase result) rfl
  | case13 => exact .quiet h rfl
  | case14 => exact .quiet h rfl

end Acts

/-- A store call about no reservation of the call. -/
theorem Sound.foreign (h : c.Sound rows swept) {call : BudgetCall}
    (hforeign : ∀ r ∈ c.granted, call.target ≠ some r.id) :
    c.Sound (rows.after call) (swept ++ sweptBy rows call) := by
  apply h.store
  · intro r hr
    exact hforeign r (h.held hr)
  · intro f hf
    obtain ⟨d, hd, hsent⟩ := List.mem_map.mp (h.sent f hf)
    rw [← hsent]
    exact hforeign _ (h.covered d hd List.mem_cons_self)
  · rintro q rfl d hd r hr hid
    exact hforeign r (h.covered d hd hr) (congrArg some hid.symm)

end GuardedCall

end Munarium
