import Munarium.Store.Rows

/-! Pinned reads of facts and anchors. A pin stays reproducible as long as no write into
an ancestor lands at or below it; the clock of the version itself is always past the pin. -/
namespace Munarium

/-- Rows past the pin leave a pinned view as it was. -/
theorem filter_append_of_lt {α : Type} (seq : α → ℕ) {pin : ℕ} {admits : α → Bool}
    (hadmits : ∀ a, admits a = true → seq a ≤ pin) {rows more : List α}
    (h : ∀ r ∈ more, pin < seq r) : (rows ++ more).filter admits = rows.filter admits := by
  have hnone : more.filter admits = [] := by
    refine List.filter_eq_nil_iff.mpr fun r hr ha => ?_
    have h1 := hadmits r ha
    have h2 := h r hr
    omega
  rw [List.filter_append, hnone, List.append_nil]

/-- Filtering a lineage's rows goes version by version. -/
theorem filter_flatMap_congr {α : Type} {lineage : List String} {f g : String → List α}
    {admits : α → Bool} (h : ∀ w ∈ lineage, (f w).filter admits = (g w).filter admits) :
    (lineage.flatMap f).filter admits = (lineage.flatMap g).filter admits := by
  rw [List.filter_flatMap, List.filter_flatMap]
  exact List.flatMap_congr h

section
variable [Unicode] [Platform] [IdGenerator]

/-- What a step adds to the claims of a version: rows past its head, and only from a
command that stores into it. -/
theorem Effect.claims_grow {s s' : State} {c : Command} (he : Effect s c s') (w : String) :
    ∃ rows, s'.claims w = s.claims w ++ rows ∧ (rows ≠ [] → c.claimTarget = some w) ∧
      ∀ r ∈ rows, ∀ head, s.headOf w = .ok head → head < r.seq := by
  cases he with
  | @claims v head existing batch recorded hc hh he hs hne =>
    by_cases hw : w = v
    · subst hw
      refine ⟨_, Function.update_self _ _ _, fun _ => hc, fun r hr head' hh' => ?_⟩
      rw [hh] at hh'
      cases hh'
      exact stampClaims_seq hr
    · exact ⟨[], by simp [Function.update_of_ne hw], by simp, by simp⟩
  | _ => exact ⟨[], by simp, by simp, by simp⟩

theorem Effect.anchors_grow {s s' : State} {c : Command} (he : Effect s c s') (w : String) :
    ∃ rows, s'.anchors w = s.anchors w ++ rows ∧ (rows ≠ [] → c.anchorTarget = some w) ∧
      ∀ r ∈ rows, ∀ head, s.headOf w = .ok head → head < r.seq := by
  cases he with
  | @anchor v head a hc hh ha hl =>
    by_cases hw : w = v
    · subst hw
      refine ⟨[a], Function.update_self _ _ _, fun _ => hc, fun r hr head' hh' => ?_⟩
      rw [hh] at hh'
      cases hh'
      rw [List.mem_singleton.mp hr, ha]
      exact Nat.lt_succ_self head
    · exact ⟨[], by simp [Function.update_of_ne hw], by simp, by simp⟩
  | _ => exact ⟨[], by simp, by simp, by simp⟩

/-- What a version reads at a pin is the same in both states. -/
structure SameLedgerAt (v : String) (p : ℕ) (s s' : State) : Prop where
  lineage : ∀ lineage, s.lineageOf v = .ok lineage → s'.lineageOf v = .ok lineage
  claims : ∀ lineage, s.lineageOf v = .ok lineage → ∀ w ∈ lineage,
    (s'.claims w).filter (fun r => State.pinAdmits (some p) r.seq) =
      (s.claims w).filter fun r => State.pinAdmits (some p) r.seq
  anchors : ∀ lineage, s.lineageOf v = .ok lineage → ∀ w ∈ lineage,
    (s'.anchors w).filter (fun r => State.pinAdmits (some p) r.seq) =
      (s.anchors w).filter fun r => State.pinAdmits (some p) r.seq

omit [Unicode] [IdGenerator] in
theorem SameLedgerAt.sliceFacts {s s' : State} {v : String} {p : ℕ}
    (h : SameLedgerAt v p s s') {lineage : List String} (hl : s.lineageOf v = .ok lineage)
    {q : FactQuery} (hq : q.asOfSeq = some p) : s'.sliceFacts v q = s.sliceFacts v q := by
  have hpin (r : Claim) : q.pinAdmits r.seq = State.pinAdmits (some p) r.seq := by
    simp [FactQuery.pinAdmits, State.pinAdmits, hq]
  have hrows : ((lineage.flatMap s'.claims).filter fun r => q.pinAdmits r.seq) =
      (lineage.flatMap s.claims).filter fun r => q.pinAdmits r.seq := by
    simp only [hpin]
    exact filter_flatMap_congr (h.claims lineage hl)
  have heq := resolveSlice_congr hrows
  simp only [State.sliceFacts, State.lineageClaims, hl, h.lineage lineage hl, bind,
    Except.bind, heq]

omit [Unicode] [IdGenerator] in
theorem SameLedgerAt.anchorsAt {s s' : State} {v : String} {p : ℕ}
    (h : SameLedgerAt v p s s') {lineage : List String} (hl : s.lineageOf v = .ok lineage) :
    s'.anchorsAt v (some p) = s.anchorsAt v (some p) := by
  have hrows := filter_flatMap_congr (h.anchors lineage hl)
  have heq : State.anchorView (some p) (lineage.flatMap s'.anchors) =
      State.anchorView (some p) (lineage.flatMap s.anchors) := by
    have hsplit (rows : List Anchor) : (rows.filter fun a => a.status == .locked &&
        State.pinAdmits (some p) a.seq) =
        (rows.filter fun a => State.pinAdmits (some p) a.seq).filter
          fun a => a.status == .locked := List.filter_filter.symm
    unfold State.anchorView
    rw [hsplit, hsplit, hrows]
  simp only [State.anchorsAt, hl, h.lineage lineage hl, bind, Except.bind, heq]

/-- A claim or an anchor goes into a proper ancestor of `v` only once that ancestor's own
clock has reached the pin. -/
def KeepsLedgerPin (v : String) (p : ℕ) (s : State) (c : Command) : Prop :=
  ∀ lineage w, s.lineageOf v = .ok lineage → w ∈ lineage → w ≠ v →
    c.ledgerTarget = some w → ∀ s' head, c.exec s = .ok s' → s.headOf w = .ok head → p ≤ head

/-- One step of the pinned ledger. -/
theorem Effect.sameLedgerAt {s s' : State} {c : Command} (he : Effect s c s') (h : Sound s)
    (hx : c.exec s = .ok s') {v : String} {p head : ℕ} (hh : s.headOf v = .ok head)
    (hp : p ≤ head) (hc : KeepsLedgerPin v p s c) : SameLedgerAt v p s s' := by
  have hpast : ∀ lineage, s.lineageOf v = .ok lineage → ∀ w ∈ lineage,
      c.ledgerTarget = some w → ∃ head, s.headOf w = .ok head ∧ p ≤ head := by
    intro lineage hl w hw ht
    by_cases hv : w = v
    · exact ⟨head, hv ▸ hh, hp⟩
    · obtain ⟨lineage', hl'⟩ := h.exists_lineage (State.lineage_known hl hw)
      obtain ⟨head', hh'⟩ := State.exists_head hl'
      exact ⟨head', hh', hc lineage w hl hw hv ht s' head' hx hh'⟩
  have hadmits (n : ℕ) (ha : State.pinAdmits (some p) n = true) : n ≤ p := by
    simpa [State.pinAdmits] using ha
  refine ⟨fun lineage hl => he.lineageOf_eq h hl, fun lineage hl w hw => ?_,
    fun lineage hl w hw => ?_⟩
  · obtain ⟨rows, heq, ht, hrows⟩ := he.claims_grow w
    rw [heq]
    refine filter_append_of_lt (·.seq) (fun a => hadmits a.seq) fun r hr => ?_
    have htarget := Command.ledgerTarget_of_claim (ht (List.ne_nil_of_mem hr))
    obtain ⟨head', hh', hp'⟩ := hpast lineage hl w hw htarget
    exact hp'.trans_lt (hrows r hr head' hh')
  · obtain ⟨rows, heq, ht, hrows⟩ := he.anchors_grow w
    rw [heq]
    refine filter_append_of_lt (·.seq) (fun a => hadmits a.seq) fun r hr => ?_
    have htarget := Command.ledgerTarget_of_anchor (ht (List.ne_nil_of_mem hr))
    obtain ⟨head', hh', hp'⟩ := hpast lineage hl w hw htarget
    exact hp'.trans_lt (hrows r hr head' hh')

omit [Unicode] [IdGenerator] in
theorem SameLedgerAt.refl (v : String) (p : ℕ) (s : State) : SameLedgerAt v p s s :=
  ⟨fun _ hl => hl, fun _ _ _ _ => rfl, fun _ _ _ _ => rfl⟩

omit [Unicode] [IdGenerator] in
theorem SameLedgerAt.trans {s t u : State} {v : String} {p : ℕ} (h₁ : SameLedgerAt v p s t)
    (h₂ : SameLedgerAt v p t u) : SameLedgerAt v p s u where
  lineage lineage hl := h₂.lineage lineage (h₁.lineage lineage hl)
  claims lineage hl w hw := (h₂.claims lineage (h₁.lineage lineage hl) w hw).trans
    (h₁.claims lineage hl w hw)
  anchors lineage hl w hw := (h₂.anchors lineage (h₁.lineage lineage hl) w hw).trans
    (h₁.anchors lineage hl w hw)

/-- Pinned reads of facts and anchors are reproducible in every run that stores into no
proper ancestor whose own clock is still below the pin. -/
theorem pinned_facts_and_anchors_reproducible {s s' : State} {v : String} {p head : ℕ}
    {q : FactQuery} (hs : Reachable s) (hh : s.headOf v = .ok head) (hp : p ≤ head)
    (hq : q.asOfSeq = some p) (hrun : RunWhere (KeepsLedgerPin v p) s s') :
    s'.sliceFacts v q = s.sliceFacts v q ∧
      s'.anchorsAt v (some p) = s.anchorsAt v (some p) := by
  obtain ⟨lineage, hl⟩ := State.lineage_of_head hh
  have hsame : SameLedgerAt v p s s' := by
    refine RunWhere.pinned (fun _ => SameLedgerAt.refl _ _ _) SameLedgerAt.trans ?_ hs.sound hh
      hp hrun
    intro t t' c head' ht hh' hp' hc hx
    exact (Command.exec_effect hx).sameLedgerAt ht hx hh' hp' hc
  exact ⟨hsame.sliceFacts hl hq, hsame.anchorsAt hl⟩

end

section
attribute [local instance] asciiUnicode samplePlatform unaryIds

/-- A child of a fresh root holding two facts, so that its head is 2 and the root's is 0. -/
def branchedCommands : List Command :=
  [.createVersion none none, .createVersion (some "memv-") none,
    .appendClaims "memv-x" [.fact "hero" "eyes" "blue", .fact "hero" "hair" "red"] none]

/-- A later fact of the child itself leaves its pin alone. -/
theorem pinned_facts_survive_later_fact :
    let s := Command.run {} branchedCommands
    let s' := Command.step s (.appendClaim "memv-x" (.fact "hero" "eyes" "green") none)
    s'.sliceFacts "memv-x" { asOfSeq := some 2 } = s.sliceFacts "memv-x" { asOfSeq := some 2 } ∧
      s'.anchorsAt "memv-x" (some 2) = s.anchorsAt "memv-x" (some 2) := by
  refine pinned_facts_and_anchors_reproducible (RunWhere.of_run {} branchedCommands)
    (by decide : State.headOf _ "memv-x" = .ok 2) le_rfl rfl (.single ⟨_, ?_, rfl⟩)
  intro lineage w hl hw hne ht
  exact absurd (Option.some.inj ht).symm hne

/-- A fact stored into the root, whose clock stands at 0, is stamped 1 and so appears
under the pin 2 that the child had already served. -/
theorem ancestor_write_shifts_pinned_facts :
    ¬∀ (s s' : State) (v : String) (p head : ℕ) (q : FactQuery), Reachable s →
      s.headOf v = .ok head → p ≤ head → q.asOfSeq = some p →
      RunWhere (fun _ _ => True) s s' →
      s'.sliceFacts v q = s.sliceFacts v q ∧
        s'.anchorsAt v (some p) = s.anchorsAt v (some p) := by
  intro h
  have hsame := h (Command.run {} branchedCommands) _ "memv-x" 2 2 { asOfSeq := some 2 }
    (RunWhere.of_run {} branchedCommands) (by decide) le_rfl rfl
    (RunWhere.of_run _ [.appendClaim "memv-" (.fact "hero" "age" "12") none])
  have hlen := congrArg (fun r => r.toOption.map List.length) hsame.1
  revert hlen
  decide

end
end Munarium
