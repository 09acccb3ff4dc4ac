import Munarium.Budget.GuardedSound
import Munarium.Lib.GuardedRun
import Mathlib.Data.List.Flatten

/-! Runs of guarded calls and sweeps: what was dispatched stays reserved, and what an attempt
reported is accounted, unless a sweep had settled its reservation before. -/
namespace Munarium

namespace SpendState
open BudgetRows GuardedCall

/-- Sound calls over sound rows, with reservations of their own. -/
structure Sound (s : SpendState) : Prop where
  rows : s.rows.Sound s.swept
  calls : ∀ (i : ℕ) (c : GuardedCall), s.calls[i]? = some c → c.Sound s.rows s.swept
  apart : ∀ (i j : ℕ) (c d : GuardedCall), i ≠ j → s.calls[i]? = some c → s.calls[j]? = some d →
    ∀ r ∈ c.granted, ∀ q ∈ d.granted, r.id ≠ q.id

variable {s : SpendState}

theorem start_sound {rows : BudgetRows} (h : (rows.map (·.id)).Nodup) : (start rows).Sound := by
  refine ⟨⟨h, nofun⟩, ?_, ?_⟩ <;> simp [start]

theorem arrive_sound (h : s.Sound) (q : GuardedRequest) : (s.step (.arrive q)).Sound := by
  have hat (i : ℕ) (c : GuardedCall) (hc : (s.calls ++ [.start q])[i]? = some c) :
      s.calls[i]? = some c ∨ c = .start q := by
    rw [List.getElem?_append] at hc
    split_ifs at hc with hi
    · exact .inl hc
    · exact .inr (List.mem_singleton.mp (List.mem_of_getElem? hc))
  refine ⟨h.rows, ?_, ?_⟩
  · intro i c hc
    rcases hat i c hc with hold | rfl
    · exact h.calls i c hold
    · exact GuardedCall.start_sound _ _ q
  · intro i j c d hne hc hd
    rcases hat i c hc with hold | rfl
    · rcases hat j d hd with hold' | rfl
      · exact h.apart i j c d hne hold hold'
      · intro r _ q hq
        cases hq
    · intro r hr
      cases hr

theorem step_call {i : ℕ} {c : GuardedCall} (h : s.calls[i]? = some c) (e : CallEvent) :
    s.step (.call i e) = { s.stored (c.act s.rows s.swept e).1 with
      calls := s.calls.set i (c.act s.rows s.swept e).2 } := by
  simp only [step, h]

theorem call_sound (h : s.Sound) {i : ℕ} {e : CallEvent} (hdrawn : DrawsNew s (.call i e)) :
    (s.step (.call i e)).Sound := by
  cases hat : s.calls[i]? with
  | none =>
    simp only [step, hat]
    exact h
  | some c =>
    rw [step_call hat]
    have hmoved := act_moved (h.calls i c hat) h.rows hdrawn
    generalize c.act s.rows s.swept e = p at hmoved ⊢
    obtain ⟨call, c'⟩ := p
    have hother (j : ℕ) (hj : i ≠ j) (d : GuardedCall) (hd : s.calls[j]? = some d) :
        d.Sound (s.stored call).rows (s.stored call).swept := by
      cases call with
      | none => exact h.calls j d hd
      | some call =>
        apply (h.calls j d hd).foreign
        intro q hq htarget
        obtain ⟨r, hr, hid⟩ := hmoved.target call rfl _ htarget
        exact h.apart i j c d hj hat hd r hr q hq hid
    have hown (j : ℕ) (hj : i ≠ j) (d : GuardedCall) (hd : s.calls[j]? = some d) :
        ∀ r ∈ c'.granted, ∀ q ∈ d.granted, r.id ≠ q.id := by
      intro r hr q hq
      rcases hmoved.granted r hr with hold | hnew
      · exact h.apart i j c d hj hat hd r hold q hq
      · obtain ⟨row, hrow, hid, -⟩ := (h.calls j d hd).backed q hq
        exact fun heq => hnew row hrow (hid.trans heq.symm)
    have hset (j : ℕ) (d : GuardedCall) (hd : (s.calls.set i c')[j]? = some d) :
        i = j ∧ d = c' ∨ i ≠ j ∧ s.calls[j]? = some d := by
      rw [List.getElem?_set] at hd
      split_ifs at hd with hij hlt
      · exact .inl ⟨hij, (Option.some.inj hd).symm⟩
      · exact .inr ⟨hij, hd⟩
    refine ⟨?_, ?_, ?_⟩
    · cases call with
      | none => exact h.rows
      | some call => exact sound_after h.rows (hmoved.fresh call rfl)
    · intro j d hd
      rcases hset j d hd with ⟨-, rfl⟩ | ⟨hij, hold⟩
      · exact hmoved.sound
      · exact hother j hij d hold
    · intro j k d d' hjk hd hd' r hr q hq
      rcases hset j d hd with ⟨rfl, rfl⟩ | ⟨hij, hold⟩
      · rcases hset k d' hd' with ⟨rfl, -⟩ | ⟨hik, hold'⟩
        · exact absurd rfl hjk
        · exact hown k hik d' hold' r hr q hq
      · rcases hset k d' hd' with ⟨rfl, rfl⟩ | ⟨hik, hold'⟩
        · exact (hown j hij d hold q hq r hr).symm
        · exact h.apart j k d d' hjk hold hold' r hr q hq

theorem step_sound (h : s.Sound) (e : SpendEvent) (hdrawn : DrawsNew s e) : (s.step e).Sound := by
  cases e with
  | arrive q => exact arrive_sound h q
  | call i e => exact call_sound h hdrawn
  | sweepStale now olderThanSecs =>
    have hfresh : s.rows.Fresh (.sweepStale now olderThanSecs) := trivial
    refine ⟨sound_after h.rows hfresh, ?_, h.apart⟩
    intro i c hc
    have hforeign : ∀ r ∈ c.granted,
        (BudgetCall.sweepStale now olderThanSecs).target ≠ some r.id := nofun
    exact (h.calls i c hc).foreign hforeign

theorem reached_sound {rows : BudgetRows} (hids : (rows.map (·.id)).Nodup)
    (h : Reached step DrawsNew (start rows) s) : s.Sound :=
  h.invariant (start_sound hids) fun _ e hs hdrawn => step_sound hs e hdrawn

/-- Every dispatched attempt stands on a reservation of its own for the total, granted at the
estimate; no released row covers one; and a finished attempt is at what it reported, or at the
estimate where a sweep came first or the report passes 64 bits. -/
theorem dispatched_spend {rows : BudgetRows} (hids : (rows.map (·.id)).Nodup)
    (h : Reached step DrawsNew (start rows) s) :
    (∀ c ∈ s.calls, ∀ d ∈ c.dispatched, d.reservation ∈ c.granted ∧ d.reservation.tier = "all" ∧
      s.rows.Has d.reservation (c.request.Reserved d.reservation)) ∧
    ((s.calls.flatMap (·.dispatched)).map (·.reservation.id)).Nodup ∧
    (∀ row ∈ s.rows, row.state = .released → ∀ c ∈ s.calls, ∀ d ∈ c.dispatched,
      ∀ r ∈ d.covering, r.id ≠ row.id) ∧
    (∀ c ∈ s.calls, ∀ f ∈ c.finished, f.reservation ∈ c.dispatched.map (·.reservation) ∧
      s.rows.Has f.reservation fun row =>
        (f.swept = true ∨ 2 ^ 64 ≤ f.usage.reported → row.units = c.request.units) ∧
        (f.swept = false → f.usage.reported < 2 ^ 64 → f.usage.reported ≤ row.units.toNat ∧
          (¬ f.usage.evidence.Complete → c.request.units ≤ row.units))) := by
  have hsound := reached_sound hids h
  have hcall (c : GuardedCall) (hc : c ∈ s.calls) : c.Sound s.rows s.swept := by
    obtain ⟨i, hi⟩ := List.mem_iff_getElem?.mp hc
    exact hsound.calls i c hi
  refine ⟨?_, ?_, ?_, ?_⟩
  · intro c hc d hd
    have hgranted := (hcall c hc).covered d hd List.mem_cons_self
    exact ⟨hgranted, (hcall c hc).scope d hd, (hcall c hc).backed _ hgranted⟩
  · rw [List.map_flatMap, List.nodup_flatMap]
    refine ⟨fun c hc => (hcall c hc).once, ?_⟩
    rw [List.pairwise_iff_getElem]
    intro i j hi hj hlt id hid hid'
    obtain ⟨d, hd, rfl⟩ := List.mem_map.mp hid
    obtain ⟨d', hd', heq⟩ := List.mem_map.mp hid'
    have hc := List.getElem?_eq_getElem hi
    have hc' := List.getElem?_eq_getElem hj
    have hgranted := (hsound.calls i _ hc).covered d hd List.mem_cons_self
    have hgranted' := (hsound.calls j _ hc').covered d' hd' List.mem_cons_self
    exact hsound.apart i j _ _ hlt.ne hc hc' _ hgranted _ hgranted' heq.symm
  · intro row hrow hreleased c hc d hd r hr hid
    exact ((hcall c hc).live d hd r hr).of_mem hsound.rows.ids hrow hid.symm hreleased
  · intro c hc f hf
    refine ⟨(hcall c hc).sent f hf, ((hcall c hc).due f hf).imp ?_⟩
    intro row _ hdue
    exact ⟨f.due_retained hdue, f.due_reported hdue⟩

/-- Ten units estimated for each attempt. -/
abbrev sampleRequest : GuardedRequest where
  tenant := "demo"
  config := "anthropic"
  tier := none
  tierLimit := none
  limit := 1000
  estimate := ⟨4, 6⟩
  units := 10
  total := rfl

abbrev sampleUsage : MoneyUsage := ⟨some 30, some 20, none, none, none, none, false⟩

instance (s : SpendState) (e : SpendEvent) : Decidable (DrawsNew s e) := by
  unfold DrawsNew
  split <;> infer_instance

/-- A sweep settles the attempt's reservation while its provider still works. -/
abbrev sweptUnderWay : List SpendEvent :=
  [.arrive sampleRequest, .call 0 (.reserveTier ⟨"2026-01-01", 0⟩ "" .works),
    .call 0 (.beginAttempt ⟨"2026-01-01", 0⟩ "b-1" .works), .call 0 (.moneyBegin (some "a-1")),
    .call 0 .dispatch, .sweepStale ⟨"2026-01-01", 7200⟩ 3600,
    .call 0 (.finish sampleUsage), .call 0 (.settleAttempt .works)]

theorem swept_attempt_undercounted : Meets step DrawsNew (start []) sweptUnderWay ∧
    ∃ c ∈ (sweptUnderWay.foldl step (start [])).calls, ∃ f ∈ c.finished,
      ∃ row ∈ (sweptUnderWay.foldl step (start [])).rows, row.id = f.reservation.id ∧
        row.units.toNat < f.usage.reported := by
  decide +kernel

theorem dispatched_spend_swept :
    (∀ c ∈ (sweptUnderWay.foldl step (start [])).calls, ∀ d ∈ c.dispatched,
      d.reservation ∈ c.granted) ∧
    ∀ row ∈ (sweptUnderWay.foldl step (start [])).rows, row.state = .released →
      ∀ c ∈ (sweptUnderWay.foldl step (start [])).calls, ∀ d ∈ c.dispatched,
        ∀ r ∈ d.covering, r.id ≠ row.id := by
  have hids : (([] : BudgetRows).map (·.id)).Nodup := List.nodup_nil
  have hmeets : Meets step DrawsNew (start []) sweptUnderWay := by decide +kernel
  have hspend := dispatched_spend hids (.of_meets hmeets)
  exact ⟨fun c hc d hd => (hspend.1 c hc d hd).1, hspend.2.2.1⟩

end SpendState
end Munarium
