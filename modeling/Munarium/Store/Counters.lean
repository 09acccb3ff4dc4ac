import Munarium.Store.PinnedReads

/-! Pinned counter totals. A count is recorded in place under a new stamp, so a pin keeps
its totals as long as no row it can see is recorded again. -/
namespace Munarium

/-- A recorded row past the pin, written over rows past the pin, is not in the pinned view. -/
theorem recordRow_filter {key scopePath : String} {count : ℕ} {budget : Option ℕ} {seq p : ℕ}
    {rows : List CounterRow} (hseq : p < seq)
    (hrows : ∀ r ∈ rows, State.isCounterRow key scopePath r = true → p < r.seq) :
    ((State.recordRow key scopePath count budget seq rows).filter fun r =>
        State.pinAdmits (some p) r.seq) =
      rows.filter fun r => State.pinAdmits (some p) r.seq := by
  have hpast {n : ℕ} (h : p < n) : State.pinAdmits (some p) n = false := by
    simpa [State.pinAdmits] using h
  induction rows with
  | nil => simp [State.recordRow, hpast hseq]
  | cons r rest ih =>
    have htail := ih fun x hx => hrows x (List.mem_cons_of_mem _ hx)
    unfold State.recordRow
    split_ifs with hr
    · have hold := hpast (hrows r List.mem_cons_self hr)
      simp [hpast hseq, hold]
    · rw [List.filter_cons, List.filter_cons, htail]

section
variable [Unicode] [Platform] [IdGenerator]

/-- A count is recorded in the lineage of `v` only over rows past the pin, and in a proper
ancestor only once that ancestor's own clock has reached the pin. -/
def KeepsCounts (v : String) (p : ℕ) (s : State) (c : Command) : Prop :=
  ∀ lineage w key scopePath count budget, s.lineageOf v = .ok lineage → w ∈ lineage →
    c = .recordCounts w key scopePath count budget →
    (∀ r ∈ s.counters w, State.isCounterRow key scopePath r = true → p < r.seq) ∧
      (w ≠ v → ∀ head, s.headOf w = .ok head → p ≤ head)

/-- What a version counts at a pin is the same in both states. -/
structure SameCountsAt (v : String) (p : ℕ) (s s' : State) : Prop where
  lineage : ∀ lineage, s.lineageOf v = .ok lineage → s'.lineageOf v = .ok lineage
  counters : ∀ lineage, s.lineageOf v = .ok lineage → ∀ w ∈ lineage,
    (s'.counters w).filter (fun r => State.pinAdmits (some p) r.seq) =
      (s.counters w).filter fun r => State.pinAdmits (some p) r.seq

omit [Unicode] [IdGenerator] in
theorem SameCountsAt.refl (v : String) (p : ℕ) (s : State) : SameCountsAt v p s s :=
  ⟨fun _ hl => hl, fun _ _ _ _ => rfl⟩

omit [Unicode] [IdGenerator] in
theorem SameCountsAt.trans {s t u : State} {v : String} {p : ℕ} (h₁ : SameCountsAt v p s t)
    (h₂ : SameCountsAt v p t u) : SameCountsAt v p s u where
  lineage lineage hl := h₂.lineage lineage (h₁.lineage lineage hl)
  counters lineage hl w hw := (h₂.counters lineage (h₁.lineage lineage hl) w hw).trans
    (h₁.counters lineage hl w hw)

omit [Unicode] [IdGenerator] in
theorem SameCountsAt.counterTotals {s s' : State} {v : String} {p : ℕ}
    (h : SameCountsAt v p s s') {lineage : List String} (hl : s.lineageOf v = .ok lineage) :
    s'.counterTotals v (some p) = s.counterTotals v (some p) := by
  have hrows := filter_flatMap_congr (h.counters lineage hl)
  simp only [State.counterTotals, State.totalCounts, hl, h.lineage lineage hl, bind,
    Except.bind, hrows]

theorem Effect.sameCountsAt {s s' : State} {c : Command} (he : Effect s c s') (h : Sound s)
    {v : String} {p head : ℕ} (hh : s.headOf v = .ok head) (hp : p ≤ head)
    (hc : KeepsCounts v p s c) : SameCountsAt v p s s' := by
  refine ⟨fun lineage hl => he.lineageOf_eq h hl, fun lineage hl w hw => ?_⟩
  cases he with
  | @counted u key scopePath count budget head' hcmd hh' =>
    by_cases hwu : w = u
    · subst hwu
      obtain ⟨hrows, hclock⟩ := hc lineage w key scopePath count budget hl hw hcmd
      have hpast : p ≤ head' := by
        by_cases hv : w = v
        · subst hv
          rw [hh] at hh'
          cases hh'
          exact hp
        · exact hclock hv head' hh'
      simp only [Function.update_self]
      exact recordRow_filter (Nat.lt_succ_of_le hpast) hrows
    · simp only [Function.update_of_ne hwu]
  | _ => rfl

/-- Pinned counter totals are reproducible in every run that records no visible row again. -/
theorem pinned_counters_reproducible {s s' : State} {v : String} {p head : ℕ}
    (hs : Reachable s) (hh : s.headOf v = .ok head) (hp : p ≤ head)
    (hrun : RunWhere (KeepsCounts v p) s s') :
    s'.counterTotals v (some p) = s.counterTotals v (some p) := by
  obtain ⟨lineage, hl⟩ := State.lineage_of_head hh
  have hsame : SameCountsAt v p s s' := by
    refine RunWhere.pinned (fun _ => SameCountsAt.refl _ _ _) SameCountsAt.trans ?_ hs.sound hh
      hp hrun
    intro t t' c head' ht hh' hp' hc hx
    exact (Command.exec_effect hx).sameCountsAt ht hh' hp' hc
  exact hsame.counterTotals hl

end

section
attribute [local instance] asciiUnicode samplePlatform unaryIds

/-- One count of a fresh version, at head 1. -/
def countedCommands : List Command :=
  [.createVersion none none, .recordCounts "memv-" "tokens" "ch1" 5 (some 10)]

/-- Another scope's count leaves the pinned total alone. -/
theorem pinned_counters_survive_other_scope :
    let s := Command.run {} countedCommands
    let s' := Command.step s (.recordCounts "memv-" "tokens" "ch2" 7 none)
    s'.counterTotals "memv-" (some 1) = s.counterTotals "memv-" (some 1) := by
  refine pinned_counters_reproducible (RunWhere.of_run {} countedCommands)
    (by decide : State.headOf _ "memv-" = .ok 1) le_rfl (.single ⟨_, ?_, rfl⟩)
  intro lineage w key scopePath count budget hl hw hc
  cases hc
  refine ⟨?_, fun hne => absurd rfl hne⟩
  decide

/-- Counting the same scope again moves the row past the pin, and the total is gone. -/
theorem recount_drops_pinned_total :
    ¬∀ (s s' : State) (v : String) (p head : ℕ), Reachable s → s.headOf v = .ok head →
      p ≤ head →
      RunWhere (fun _ c => ∃ key scopePath count budget,
        c = .recordCounts v key scopePath count budget) s s' →
      s'.counterTotals v (some p) = s.counterTotals v (some p) := by
  intro h
  have hsame := h (Command.run {} countedCommands) _ "memv-" 1 1
    (RunWhere.of_run {} countedCommands) (by decide) le_rfl
    (.single ⟨.recordCounts "memv-" "tokens" "ch1" 7 none, ⟨_, _, _, _, rfl⟩, rfl⟩)
  have hlen := congrArg (fun r => r.toOption.map List.length) hsame
  revert hlen
  decide

end
end Munarium
